import MuduoServer.Framework.Recognizer
import MuduoServer.Http.WireRequest

namespace MuduoServer

namespace ParseState

/-- The states of the automaton alone. -/
def next (st : ParseState) (c : UInt8) : ParseState := ((⟨st, .new, [], 0⟩ : Scan).next c).state

/-- The code with which a state refuses a byte. -/
def refusal : ParseState → ParseState
  | start | method => invalidMethod
  | beforeUrl | url | beforeUrlParamKey | urlParamKey | beforeUrlParamValue | urlParamValue =>
    invalidUrl
  | beforeProtocol | protocol | beforeVersion | version => invalidProtocol
  | crLf | headerKey | beforeHeaderValue | headerValue => invalidHeader
  | encounterCr | crLfCr => invalidCrlf
  | st => st

end ParseState

theorem Scan.next_state (s : Scan) (c : UInt8) : (s.next c).state = s.state.next c := by
  unfold ParseState.next Scan.next
  cases hs : s.state
  all_goals
    dsimp only
    (try split_ifs) <;> first | rfl | exact hs

theorem Scan.feed_state (s : Scan) (cs : Bytes) :
    (s.feed cs).state = cs.foldl ParseState.next s.state := by
  induction cs generalizing s with
  | nil => rfl
  | cons c cs ih => rw [feed_cons, ih, next_state, List.foldl_cons]

/-- A byte that does not lead on in the head is refused, or is the line feed after the head. -/
theorem ParseState.next_refusal {st : ParseState} {c : UInt8} (hst : st.inHead)
    (hlive : ¬(st.next c).inHead) (hdone : st.next c ≠ .body) : st.next c = st.refusal := by
  revert hst hlive hdone
  unfold ParseState.next Scan.next
  cases st
  all_goals
    dsimp only
    (try split_ifs) <;> simp [Scan.keep, Scan.mark, Scan.cut, Scan.fail, inHead, unfinished, value,
      refusal]

theorem forall_snoc {f : UInt8 → Bool} {w : Bytes} {c : UInt8} {v : Bool}
    (hw : ∀ d ∈ w, f d = v) (hc : f c = v) : ∀ d ∈ w ++ [c], f d = v := by
  intro d hd
  rcases List.mem_append.mp hd with hold | hnew
  · exact hw d hold
  · rw [List.mem_singleton.mp hnew]
    exact hc

theorem forall_single {f : UInt8 → Bool} {c : UInt8} {v : Bool} (hc : f c = v) :
    ∀ d ∈ [c], f d = v := by
  intro d hd
  rw [List.mem_singleton.mp hd]
  exact hc

namespace RequestHead

/-- The beginnings of a head, each up to the part it is named after, with that part. -/
def toMethod (h : RequestHead) : Bytes := h.lead ++ h.method
def toUrl (h : RequestHead) : Bytes := h.toMethod ++ h.blank1 :: 47 :: h.url
def toParams (h : RequestHead) : Bytes :=
  h.toUrl ++ 63 :: h.params.flatMap fun q => q.key ++ 61 :: q.value ++ [38]
def toBlank (h : RequestHead) : Bytes :=
  h.toUrl ++ if h.params = [] then [h.blank2] else 63 :: (paramWords h.blank2 h.params).flatten
def toProtocol (h : RequestHead) : Bytes := h.toBlank ++ h.protocol
def toVersion (h : RequestHead) : Bytes := h.toProtocol ++ 47 :: h.major :: h.minor
def toHeaders (h : RequestHead) : Bytes :=
  h.toVersion ++ CR :: LF :: (h.headers.flatMap headerWords).flatten

theorem bytes_eq_toHeaders (h : RequestHead) : h.bytes = h.toHeaders ++ [CR, LF] := by
  have hlead : (h.lead.map fun c => [c]).flatten = h.lead := by
    rw [← List.flatMap_def, List.flatMap_singleton']
  simp only [bytes, words, toHeaders, toVersion, toProtocol, toBlank, toUrl, toMethod,
    List.flatten_append, hlead]
  by_cases hp : h.params = []
  · simp [hp, paramWords]
  · simp [hp]

/-- All parameters but the last end with `&`. -/
theorem paramWords_append (blank : UInt8) (ps : List UrlParam) (q : UrlParam) :
    (paramWords blank (ps ++ [q])).flatten =
      (ps.flatMap fun q => q.key ++ 61 :: q.value ++ [38]) ++
        (q.key ++ 61 :: q.value ++ [blank]) := by
  induction ps with
  | nil => simp [paramWords]
  | cons p ps ih =>
    obtain ⟨p', ps', hps⟩ := List.exists_cons_of_ne_nil (show ps ++ [q] ≠ [] by simp)
    rw [hps] at ih
    rw [List.cons_append, hps, paramWords, List.flatten_cons, ih]
    · simp
    · simp

section Growth

variable (h : RequestHead) {c : UInt8}

/-- Each beginning of a head goes on to a longer one: by a byte in the part that is open, or by the
first or the last byte of a part. -/
theorem grow_lead (hc : (isblank c || c == CR || c == LF) = true) :
    ∃ h' : RequestHead, h.lead ++ [c] = h'.lead :=
  ⟨{ h with lead := h.lead ++ [c], lead_ok := forall_snoc h.lead_ok hc }, rfl⟩

theorem start_method (hc : isupper c = true) :
    ∃ h' : RequestHead, h.lead ++ [c] = h'.toMethod :=
  ⟨{ h with method := [c], method_ne := by simp, method_ok := forall_single hc }, rfl⟩

theorem grow_method (hc : isupper c = true) :
    ∃ h' : RequestHead, h.toMethod ++ [c] = h'.toMethod := by
  refine ⟨{ h with
    method := h.method ++ [c]
    method_ne := by simp
    method_ok := forall_snoc h.method_ok hc }, ?_⟩
  simp only [toMethod, List.append_assoc]

theorem end_method (hc : isblank c = true) :
    ∃ h' : RequestHead, h.toMethod ++ [c] = h'.toMethod ++ [h'.blank1] :=
  ⟨{ h with blank1 := c, blank1_ok := hc }, rfl⟩

theorem start_url : ∃ h' : RequestHead, h.toMethod ++ [h.blank1] ++ [47] = h'.toUrl := by
  refine ⟨{ h with url := [], url_ok := by simp }, ?_⟩
  simp [toUrl, toMethod]

theorem grow_url (hc : isInvalidURLChar c = false) :
    ∃ h' : RequestHead, h.toUrl ++ [c] = h'.toUrl := by
  refine ⟨{ h with url := h.url ++ [c], url_ok := forall_snoc h.url_ok hc }, ?_⟩
  simp [toUrl, toMethod]

theorem end_url (hc : isblank c = true) : ∃ h' : RequestHead, h.toUrl ++ [c] = h'.toBlank :=
  ⟨{ h with params := [], blank2 := c, blank2_ok := hc }, rfl⟩

theorem start_params : ∃ h' : RequestHead, h.toUrl ++ [63] = h'.toParams :=
  ⟨{ h with params := [] }, rfl⟩

theorem add_param (q : UrlParam) :
    ∃ h' : RequestHead, h.toParams ++ q.key ++ 61 :: q.value ++ [38] = h'.toParams := by
  refine ⟨{ h with params := h.params ++ [q] }, ?_⟩
  simp [toParams, toUrl, toMethod]

theorem end_params (q : UrlParam) (hc : isblank c = true) :
    ∃ h' : RequestHead, h.toParams ++ q.key ++ 61 :: q.value ++ [c] = h'.toBlank := by
  refine ⟨{ h with params := h.params ++ [q], blank2 := c, blank2_ok := hc }, ?_⟩
  simp [toBlank, toParams, toUrl, toMethod, paramWords_append]

theorem start_protocol (hc : isupper c = true) :
    ∃ h' : RequestHead, h.toBlank ++ [c] = h'.toProtocol :=
  ⟨{ h with protocol := [c], protocol_ne := by simp, protocol_ok := forall_single hc }, rfl⟩

theorem grow_protocol (hc : isupper c = true) :
    ∃ h' : RequestHead, h.toProtocol ++ [c] = h'.toProtocol := by
  refine ⟨{ h with
    protocol := h.protocol ++ [c]
    protocol_ne := by simp
    protocol_ok := forall_snoc h.protocol_ok hc }, ?_⟩
  simp [toProtocol, toBlank, toUrl, toMethod]

theorem start_version (hc : isdigit c = true) :
    ∃ h' : RequestHead, h.toProtocol ++ [47] ++ [c] = h'.toVersion := by
  refine ⟨{ h with major := c, minor := [], major_ok := hc, minor_ok := by simp }, ?_⟩
  simp [toVersion, toProtocol, toBlank, toUrl, toMethod]

theorem grow_version (hc : (isdigit c || c == 46) = true) :
    ∃ h' : RequestHead, h.toVersion ++ [c] = h'.toVersion := by
  refine ⟨{ h with minor := h.minor ++ [c], minor_ok := forall_snoc h.minor_ok hc }, ?_⟩
  simp [toVersion, toProtocol, toBlank, toUrl, toMethod]

theorem end_version : ∃ h' : RequestHead, h.toVersion ++ [CR] ++ [LF] = h'.toHeaders := by
  refine ⟨{ h with headers := [] }, ?_⟩
  simp [toHeaders, toVersion, toProtocol, toBlank, toUrl, toMethod]

theorem add_header (l : HeaderLine) : ∃ h' : RequestHead,
    h.toHeaders ++ l.key ++ 58 :: l.blank :: l.value ++ [CR] ++ [LF] = h'.toHeaders := by
  refine ⟨{ h with headers := h.headers ++ [l] }, ?_⟩
  simp [toHeaders, toVersion, toProtocol, toBlank, toUrl, toMethod, headerWords]

end Growth

end RequestHead

/-- The key of a header line. -/
def IsHeaderKey (k : Bytes) : Prop :=
  k ≠ [] ∧ (∀ c ∈ k, isInvalidHeaderKeyChar c = false) ∧ 58 ∉ k.tail

open RequestHead in
/-- What the automaton has read when it is in a state: the beginning of a head. -/
def Parsed (p : Bytes) : ParseState → Prop
  | .start => ∃ h : RequestHead, p = h.lead
  | .method => ∃ h : RequestHead, p = h.toMethod
  | .beforeUrl => ∃ h : RequestHead, p = h.toMethod ++ [h.blank1]
  | .url => ∃ h : RequestHead, p = h.toUrl
  | .beforeUrlParamKey => ∃ h : RequestHead, p = h.toParams
  | .urlParamKey => ∃ (h : RequestHead) (k : Bytes), IsUrlWord k ∧ p = h.toParams ++ k
  | .beforeUrlParamValue =>
    ∃ (h : RequestHead) (k : Bytes), IsUrlWord k ∧ p = h.toParams ++ k ++ [61]
  | .urlParamValue => ∃ (h : RequestHead) (q : UrlParam), p = h.toParams ++ q.key ++ 61 :: q.value
  | .beforeProtocol => ∃ h : RequestHead, p = h.toBlank
  | .protocol => ∃ h : RequestHead, p = h.toProtocol
  | .beforeVersion => ∃ h : RequestHead, p = h.toProtocol ++ [47]
  | .version => ∃ h : RequestHead, p = h.toVersion
  | .encounterCr => ∃ h : RequestHead, p ++ [LF] = h.toHeaders
  | .crLf => ∃ h : RequestHead, p = h.toHeaders
  | .headerKey => ∃ (h : RequestHead) (k : Bytes), IsHeaderKey k ∧ p = h.toHeaders ++ k
  | .beforeHeaderValue =>
    ∃ (h : RequestHead) (k : Bytes), IsHeaderKey k ∧ p = h.toHeaders ++ k ++ [58]
  | .headerValue =>
    ∃ (h : RequestHead) (l : HeaderLine), p = h.toHeaders ++ l.key ++ 58 :: l.blank :: l.value
  | .crLfCr => ∃ h : RequestHead, p = h.toHeaders ++ [CR]
  | .body => ∃ h : RequestHead, p = h.bytes
  | _ => True

theorem isUrlWord_snoc {k : Bytes} {c : UInt8} (hk : IsUrlWord k)
    (hc : isInvalidURLChar c = false) : IsUrlWord (k ++ [c]) :=
  ⟨by simp, forall_snoc hk.2 hc⟩

theorem isHeaderKey_snoc {k : Bytes} {c : UInt8} (hk : IsHeaderKey k)
    (hc : isInvalidHeaderKeyChar c = false) (hcolon : c ≠ 58) : IsHeaderKey (k ++ [c]) := by
  refine ⟨by simp, forall_snoc hk.2.1 hc, ?_⟩
  rw [List.tail_append_of_ne_nil hk.1, List.mem_append, List.mem_singleton]
  rintro (htail | hlast)
  · exact hk.2.2 htail
  · exact hcolon hlast.symm

section Step

variable {p : Bytes} (c : UInt8)

theorem Parsed.step_start (h : Parsed p .start) :
    Parsed (p ++ [c]) (ParseState.next .start c) := by
  unfold ParseState.next Scan.next
  obtain ⟨h, rfl⟩ := h
  dsimp only
  split_ifs with hlead hupper
  · exact h.grow_lead hlead
  · exact h.start_method hupper
  · trivial

theorem Parsed.step_method (h : Parsed p .method) :
    Parsed (p ++ [c]) (ParseState.next .method c) := by
  unfold ParseState.next Scan.next
  obtain ⟨h, rfl⟩ := h
  dsimp only
  split_ifs with hupper hblank
  · exact h.grow_method hupper
  · exact h.end_method hblank
  · trivial

theorem Parsed.step_beforeUrl (h : Parsed p .beforeUrl) :
    Parsed (p ++ [c]) (ParseState.next .beforeUrl c) := by
  unfold ParseState.next Scan.next
  obtain ⟨h, rfl⟩ := h
  dsimp only
  split_ifs with hslash
  · rw [eq_of_beq hslash]
    exact h.start_url
  · trivial

theorem Parsed.step_url (h : Parsed p .url) :
    Parsed (p ++ [c]) (ParseState.next .url c) := by
  unfold ParseState.next Scan.next
  obtain ⟨h, rfl⟩ := h
  dsimp only
  split_ifs with hquery hblank hinvalid
  · rw [eq_of_beq hquery]
    exact h.start_params
  · exact h.end_url hblank
  · trivial
  · exact h.grow_url (by simpa using hinvalid)

theorem Parsed.step_beforeUrlParamKey (h : Parsed p .beforeUrlParamKey) :
    Parsed (p ++ [c]) (ParseState.next .beforeUrlParamKey c) := by
  unfold ParseState.next Scan.next
  obtain ⟨h, rfl⟩ := h
  dsimp only
  split_ifs with hinvalid
  · trivial
  · exact ⟨h, [c], ⟨by simp, forall_single (by simpa using hinvalid)⟩, rfl⟩

theorem Parsed.step_urlParamKey (h : Parsed p .urlParamKey) :
    Parsed (p ++ [c]) (ParseState.next .urlParamKey c) := by
  unfold ParseState.next Scan.next
  obtain ⟨h, k, hk, rfl⟩ := h
  dsimp only
  split_ifs with heq hinvalid
  · exact ⟨h, k, hk, by rw [eq_of_beq heq]⟩
  · trivial
  · exact ⟨h, k ++ [c], isUrlWord_snoc hk (by simpa using hinvalid), by simp⟩

theorem Parsed.step_beforeUrlParamValue (h : Parsed p .beforeUrlParamValue) :
    Parsed (p ++ [c]) (ParseState.next .beforeUrlParamValue c) := by
  unfold ParseState.next Scan.next
  obtain ⟨h, k, hk, rfl⟩ := h
  dsimp only
  split_ifs with hinvalid
  · trivial
  · have hv : IsUrlWord [c] := ⟨by simp, forall_single (by simpa using hinvalid)⟩
    exact ⟨h, ⟨k, [c], hk, hv⟩, by simp⟩

theorem Parsed.step_urlParamValue (h : Parsed p .urlParamValue) :
    Parsed (p ++ [c]) (ParseState.next .urlParamValue c) := by
  unfold ParseState.next Scan.next
  obtain ⟨h, q, rfl⟩ := h
  dsimp only
  split_ifs with hamp hblank hinvalid
  · rw [eq_of_beq hamp]
    exact h.add_param q
  · exact h.end_params q hblank
  · trivial
  · have hv := isUrlWord_snoc q.value_ok (c := c) (by simpa using hinvalid)
    exact ⟨h, ⟨q.key, q.value ++ [c], q.key_ok, hv⟩, by simp⟩

theorem Parsed.step_beforeProtocol (h : Parsed p .beforeProtocol) :
    Parsed (p ++ [c]) (ParseState.next .beforeProtocol c) := by
  unfold ParseState.next Scan.next
  obtain ⟨h, rfl⟩ := h
  dsimp only
  split_ifs with hupper
  · exact h.start_protocol hupper
  · trivial

theorem Parsed.step_protocol (h : Parsed p .protocol) :
    Parsed (p ++ [c]) (ParseState.next .protocol c) := by
  unfold ParseState.next Scan.next
  obtain ⟨h, rfl⟩ := h
  dsimp only
  split_ifs with hupper hslash
  · exact h.grow_protocol hupper
  · exact ⟨h, by rw [eq_of_beq hslash]⟩
  · trivial

theorem Parsed.step_beforeVersion (h : Parsed p .beforeVersion) :
    Parsed (p ++ [c]) (ParseState.next .beforeVersion c) := by
  unfold ParseState.next Scan.next
  obtain ⟨h, rfl⟩ := h
  dsimp only
  split_ifs with hdigit
  · exact h.start_version hdigit
  · trivial

theorem Parsed.step_version (h : Parsed p .version) :
    Parsed (p ++ [c]) (ParseState.next .version c) := by
  unfold ParseState.next Scan.next
  obtain ⟨h, rfl⟩ := h
  dsimp only
  split_ifs with hcr hminor
  · rw [eq_of_beq hcr]
    exact h.end_version
  · exact h.grow_version hminor
  · trivial

theorem Parsed.step_encounterCr (h : Parsed p .encounterCr) :
    Parsed (p ++ [c]) (ParseState.next .encounterCr c) := by
  unfold ParseState.next Scan.next
  obtain ⟨h, hp⟩ := h
  dsimp only
  split_ifs with hlf
  · exact ⟨h, by rw [eq_of_beq hlf, hp]⟩
  · trivial

theorem Parsed.step_crLf (h : Parsed p .crLf) :
    Parsed (p ++ [c]) (ParseState.next .crLf c) := by
  unfold ParseState.next Scan.next
  obtain ⟨h, rfl⟩ := h
  dsimp only
  split_ifs with hcr hinvalid
  · exact ⟨h, by rw [eq_of_beq hcr]⟩
  · trivial
  · exact ⟨h, [c], ⟨by simp, forall_single (by simpa using hinvalid), by simp⟩, rfl⟩

theorem Parsed.step_headerKey (h : Parsed p .headerKey) :
    Parsed (p ++ [c]) (ParseState.next .headerKey c) := by
  unfold ParseState.next Scan.next
  obtain ⟨h, k, hk, rfl⟩ := h
  dsimp only
  split_ifs with hcolon hinvalid
  · exact ⟨h, k, hk, by rw [eq_of_beq hcolon]⟩
  · trivial
  · exact ⟨h, k ++ [c], isHeaderKey_snoc hk (by simpa using hinvalid) (by simpa using hcolon),
      by simp⟩

theorem Parsed.step_beforeHeaderValue (h : Parsed p .beforeHeaderValue) :
    Parsed (p ++ [c]) (ParseState.next .beforeHeaderValue c) := by
  unfold ParseState.next Scan.next
  obtain ⟨h, k, hk, rfl⟩ := h
  dsimp only
  split_ifs with hblank
  · trivial
  · exact ⟨h, ⟨k, c, [], hk.1, hk.2.1, hk.2.2, by simpa using hblank, by simp⟩, by simp⟩

theorem Parsed.step_headerValue (h : Parsed p .headerValue) :
    Parsed (p ++ [c]) (ParseState.next .headerValue c) := by
  unfold ParseState.next Scan.next
  obtain ⟨h, l, rfl⟩ := h
  dsimp only
  split_ifs with hcr
  · rw [eq_of_beq hcr]
    exact h.add_header l
  · have hv : CR ∉ l.value ++ [c] := by
      rw [List.mem_append, List.mem_singleton]
      rintro (hold | hnew)
      · exact l.value_ok hold
      · exact hcr (by simp [hnew])
    exact ⟨h, { l with value := l.value ++ [c], value_ok := hv }, by simp⟩

theorem Parsed.step_crLfCr (h : Parsed p .crLfCr) :
    Parsed (p ++ [c]) (ParseState.next .crLfCr c) := by
  unfold ParseState.next Scan.next
  obtain ⟨h, rfl⟩ := h
  dsimp only
  split_ifs with hlf
  · exact ⟨h, by rw [h.bytes_eq_toHeaders, eq_of_beq hlf]; simp⟩
  · trivial

/-- Each state reads on in the head it has read the beginning of. -/
theorem Parsed.step {st : ParseState} (h : Parsed p st) (hst : st.inHead) :
    Parsed (p ++ [c]) (st.next c) := by
  cases st with
  | start => exact h.step_start c
  | method => exact h.step_method c
  | beforeUrl => exact h.step_beforeUrl c
  | url => exact h.step_url c
  | beforeUrlParamKey => exact h.step_beforeUrlParamKey c
  | urlParamKey => exact h.step_urlParamKey c
  | beforeUrlParamValue => exact h.step_beforeUrlParamValue c
  | urlParamValue => exact h.step_urlParamValue c
  | beforeProtocol => exact h.step_beforeProtocol c
  | protocol => exact h.step_protocol c
  | beforeVersion => exact h.step_beforeVersion c
  | version => exact h.step_version c
  | encounterCr => exact h.step_encounterCr c
  | crLf => exact h.step_crLf c
  | headerKey => exact h.step_headerKey c
  | beforeHeaderValue => exact h.step_beforeHeaderValue c
  | headerValue => exact h.step_headerValue c
  | crLfCr => exact h.step_crLfCr c
  | _ => cases hst

end Step

theorem Parsed.run {p : Bytes} {st : ParseState} (h : Parsed p st) (x : Bytes)
    (hx : ∀ n < x.length, ((x.take n).foldl ParseState.next st).inHead) :
    Parsed (p ++ x) (x.foldl ParseState.next st) := by
  induction x generalizing p st with
  | nil => simpa using h
  | cons c x ih =>
    have hst : st.inHead := hx 0 (Nat.succ_pos _)
    have hrest := ih (h.step c hst) (fun n hn => hx (n + 1) (Nat.succ_lt_succ hn))
    rwa [List.append_assoc, List.singleton_append] at hrest

/-- How a head may go on from a state of the automaton. -/
def ParseState.completion : ParseState → Bytes
  | start => bytes "A / A/0\r\n\r\n"
  | method => bytes " / A/0\r\n\r\n"
  | beforeUrl => bytes "/ A/0\r\n\r\n"
  | beforeUrlParamKey => bytes "a=a A/0\r\n\r\n"
  | urlParamKey => bytes "=a A/0\r\n\r\n"
  | beforeUrlParamValue => bytes "a A/0\r\n\r\n"
  | url | urlParamValue => bytes " A/0\r\n\r\n"
  | beforeProtocol => bytes "A/0\r\n\r\n"
  | protocol => bytes "/0\r\n\r\n"
  | beforeVersion => bytes "0\r\n\r\n"
  | version | headerValue => bytes "\r\n\r\n"
  | encounterCr => bytes "\n\r\n"
  | crLf => bytes "\r\n"
  | headerKey => bytes ": \r\n\r\n"
  | beforeHeaderValue => bytes " \r\n\r\n"
  | crLfCr => bytes "\n"
  | _ => []

theorem ParseState.completion_spec {st : ParseState} (hst : st.inHead) :
    (∀ n < st.completion.length, ((st.completion.take n).foldl next st).inHead) ∧
      st.completion.foldl next st = .body := by
  revert hst
  cases st <;> decide +kernel

/-- The request heads, as texts. -/
def heads : Set Bytes := Set.range RequestHead.bytes

theorem parsed_start : Parsed [] .start := ⟨getHead [], rfl⟩

theorem parsed_scan {p : Bytes} (h : (p.foldl ParseState.next .start).inHead) :
    Parsed p (p.foldl ParseState.next .start) := by
  apply parsed_start.run p
  intro n hn
  have hin := Scan.inHead_of_feed (Scan.init.feed (p.take n)) (p.drop n) (by
    rw [← Scan.feed_append, List.take_append_drop, Scan.feed_state]
    exact h)
  rwa [Scan.feed_state] at hin

/-- The automaton of the parser decides the request heads. -/
theorem decides_heads :
    Decides ParseState.next .start (fun st => st.inHead) (fun st => st = .body) heads := by
  refine ⟨?_, ?_, ?_, ?_⟩
  · rintro w ⟨h, rfl⟩ p ⟨x, hx⟩ hne
    have hlen : p.length < h.bytes.length := by
      rw [← hx, List.length_append]
      have hpos : 0 < x.length := by
        apply List.length_pos_iff.mpr
        rintro rfl
        exact hne (by simpa using hx)
      omega
    have hpart := (h.scan_take p.length hlen).1
    rw [← hx, List.take_left, Scan.feed_state] at hpart
    exact hpart
  · intro p hlive
    obtain ⟨hpath, hend⟩ := ParseState.completion_spec hlive
    have hparsed := (parsed_scan hlive).run _ hpath
    rw [hend] at hparsed
    obtain ⟨h, hh⟩ := hparsed
    exact ⟨h.bytes, ⟨h, rfl⟩, hh ▸ List.prefix_append _ _⟩
  · intro p c hlive hdone
    have hparsed := (parsed_scan hlive).step c hlive
    rw [hdone] at hparsed
    obtain ⟨h, hh⟩ := hparsed
    exact ⟨h, hh.symm⟩
  · rintro w ⟨h, rfl⟩
    have hscan := congrArg Scan.state h.scan
    rwa [Scan.feed_state] at hscan

theorem begins_nil : Begins heads [] := ⟨_, ⟨getHead [], rfl⟩, List.nil_prefix⟩

end MuduoServer
