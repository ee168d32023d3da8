import MuduoServer.Http.RequestHead

namespace MuduoServer

theorem isupper_not_lead {c : UInt8} (h : isupper c = true) :
    (isblank c || c == CR || c == LF) = false := by
  revert h
  cases c with | ofBitVec b => revert b; decide +kernel

theorem isblank_not_upper {c : UInt8} (h : isblank c = true) :
    isupper c = false ∧ (c == 63) = false ∧ (c == 38) = false := by
  revert h
  cases c with | ofBitVec b => revert b; decide +kernel

theorem urlChar_not_end {c : UInt8} (h : isInvalidURLChar c = false) :
    (c == 63) = false ∧ (c == 61) = false ∧ (c == 38) = false ∧ isblank c = false := by
  revert h
  cases c with | ofBitVec b => revert b; decide +kernel

theorem versionChar_not_cr {c : UInt8} (h : (isdigit c || c == 46) = true) : (c == CR) = false := by
  revert h
  cases c with | ofBitVec b => revert b; decide +kernel

theorem headerKeyChar_not_cr {c : UInt8} (h : isInvalidHeaderKeyChar c = false) :
    (c == CR) = false := by
  revert h
  cases c with | ofBitVec b => revert b; decide +kernel

namespace Scan

variable (q : HTTPRequest)

theorem reads_lead {c : UInt8} (h : (isblank c || c == CR || c == LF) = true) :
    Reads (between .start q) [c] (between .start q) := by
  refine ⟨?_, fun n hn => ?_⟩
  · show (between .start q).next c = _
    simp [next, between, h]
  · obtain rfl : n = 0 := by simpa using hn
    exact ⟨rfl, rfl⟩

/-- A word of upper-case letters that is opened by its own first letter. -/
theorem grows_upper {open' st : ParseState} (hopen : open'.inHead) (hst : st.inHead)
    (hfirst : ∀ (s : Scan) (c : UInt8), s.state = open' → isupper c = true →
      s.next c = { s with state := st, word := [c] })
    (hstep : ∀ (s : Scan) (c : UInt8), s.state = st → isupper c = true → s.next c = s.keep c st)
    {w : Bytes} (hne : w ≠ []) (hw : ∀ c ∈ w, isupper c = true) :
    Grows (between open' q) w ⟨st, q, w, 0⟩ := by
  obtain ⟨c, cs, rfl⟩ := List.exists_cons_of_ne_nil hne
  have hc := hfirst (between open' q) c rfl (hw c (by simp))
  refine .cons hopen (by rw [hc]; rfl) ?_
  rw [hc]
  exact Grows.run hst (fun c => isupper c = true) hstep rfl (fun d hd => hw d (by simp [hd]))

theorem reads_method {w : Bytes} {c : UInt8} (hne : w ≠ []) (hw : ∀ c ∈ w, isupper c = true)
    (hc : isblank c = true) :
    Reads (between .start q) (w ++ [c]) (between .beforeUrl (q.setMethod w)) := by
  refine Grows.reads (show Grows (between .start q) w ⟨.method, q, w, 0⟩ from ?_) rfl ?_
  · refine grows_upper q rfl rfl ?_ ?_ hne hw
    · intro s c hs hup
      simp [next, hs, hup, isupper_not_lead hup]
    · intro s c hs hup
      simp [next, hs, hup]
  · simp [next, cut, between, hc, isblank_not_upper hc]

theorem grows_url {w : Bytes} (hw : ∀ c ∈ w, isInvalidURLChar c = false) :
    Grows (between .beforeUrl q) (47 :: w) ⟨.url, q, 47 :: w, 0⟩ := by
  have hfirst : (between .beforeUrl q).next 47 = (between .beforeUrl q).keep 47 .url := rfl
  apply (Grows.keep rfl hfirst rfl).append (a := [47])
  have hin : ParseState.url.inHead := rfl
  refine Grows.run hin (fun c => isInvalidURLChar c = false) ?_ rfl hw
  intro s c hs hc
  simp [next, hs, hc, urlChar_not_end hc]

theorem reads_url {w : Bytes} {c : UInt8} (hw : ∀ c ∈ w, isInvalidURLChar c = false)
    (hc : isblank c = true) :
    Reads (between .beforeUrl q) (47 :: w ++ [c])
      (between .beforeProtocol (q.setUrl (47 :: w))) := by
  apply (grows_url q hw).reads rfl
  simp [next, cut, between, hc, isblank_not_upper hc]

theorem reads_url_params {w : Bytes} (hw : ∀ c ∈ w, isInvalidURLChar c = false) :
    Reads (between .beforeUrl q) (47 :: w ++ [63])
      (between .beforeUrlParamKey (q.setUrl (47 :: w))) :=
  (grows_url q hw).reads rfl rfl

/-- A non-empty word of URL characters: its first byte and the rest are read in two states. -/
theorem grows_urlWord {first st : ParseState} (hfst : first.inHead) (hst : st.inHead)
    (hfirst : ∀ (s : Scan) (c : UInt8), s.state = first → isInvalidURLChar c = false →
      s.next c = s.keep c st)
    (hstep : ∀ (s : Scan) (c : UInt8), s.state = st → isInvalidURLChar c = false →
      s.next c = s.keep c st)
    {s : Scan} (hs : s.state = first) {w : Bytes} (hw : IsUrlWord w) :
    Grows s w { s with state := st, word := s.word ++ w } := by
  obtain ⟨c, cs, rfl⟩ := List.exists_cons_of_ne_nil hw.1
  have hc := hfirst s c hs (hw.2 c (by simp))
  have hrest := Grows.run hst (fun c => isInvalidURLChar c = false) hstep (s := s.keep c st) rfl
    (w := cs) (fun d hd => hw.2 d (by simp [hd]))
  have hcat := (Grows.keep (hs ▸ hfst) hc hst).append hrest
  simpa [Scan.keep] using hcat

theorem grows_param (p : UrlParam) :
    Grows (between .beforeUrlParamKey q) (p.key ++ 61 :: p.value)
      ⟨.urlParamValue, q, p.key ++ 61 :: p.value, p.key.length⟩ := by
  have hkey := grows_urlWord (show ParseState.beforeUrlParamKey.inHead from rfl)
    (show ParseState.urlParamKey.inHead from rfl)
    (fun s c hs hc => by simp [next, hs, hc])
    (fun s c hs hc => by simp [next, hs, hc, urlChar_not_end hc])
    (s := between .beforeUrlParamKey q) rfl p.key_ok
  have hmark : Grows ⟨.urlParamKey, q, p.key, 0⟩ [61]
      ⟨.beforeUrlParamValue, q, p.key ++ [61], p.key.length⟩ := .cons rfl rfl (.nil rfl)
  have hvalue := grows_urlWord (show ParseState.beforeUrlParamValue.inHead from rfl)
    (show ParseState.urlParamValue.inHead from rfl)
    (fun s c hs hc => by simp [next, hs, hc])
    (fun s c hs hc => by simp [next, hs, hc, urlChar_not_end hc])
    (s := ⟨.beforeUrlParamValue, q, p.key ++ [61], p.key.length⟩) rfl p.value_ok
  have hcat := (hkey.append hmark).append hvalue
  simpa using hcat

theorem key_append (st : ParseState) (k v : Bytes) (c : UInt8) :
    key ⟨st, q, k ++ c :: v, k.length⟩ = k := by
  simp [key]

theorem value_append (st : ParseState) (k v : Bytes) (c : UInt8) :
    value ⟨st, q, k ++ c :: v, k.length⟩ 1 = v := by
  simp [value, List.drop_append]

theorem reads_param (p : UrlParam) :
    Reads (between .beforeUrlParamKey q) (p.key ++ 61 :: p.value ++ [38])
      (between .beforeUrlParamKey (q.addParam p.key p.value)) := by
  apply (grows_param q p).reads rfl
  simp [next, cut, between, key_append, value_append]

theorem reads_lastParam (p : UrlParam) {c : UInt8} (hc : isblank c = true) :
    Reads (between .beforeUrlParamKey q) (p.key ++ 61 :: p.value ++ [c])
      (between .beforeProtocol (q.addParam p.key p.value)) := by
  apply (grows_param q p).reads rfl
  simp [next, cut, between, hc, isblank_not_upper hc, key_append, value_append]

/-- All parameters, the last of them ended by the blank. -/
theorem readsAll_params {c : UInt8} (hc : isblank c = true) (ps : List UrlParam) (hne : ps ≠ []) :
    ReadsAll (between .beforeUrlParamKey q) (RequestHead.paramWords c ps)
      (between .beforeProtocol (ps.foldl (fun q p => q.addParam p.key p.value) q)) := by
  induction ps generalizing q with
  | nil => exact absurd rfl hne
  | cons p ps ih =>
    cases ps with
    | nil => exact .single (reads_lastParam q p hc)
    | cons p' ps => exact .cons (reads_param q p) (ih (q.addParam p.key p.value) (by simp))

theorem reads_protocol {w : Bytes} (hne : w ≠ []) (hw : ∀ c ∈ w, isupper c = true) :
    Reads (between .beforeProtocol q) (w ++ [47]) (between .beforeVersion (q.setProtocol w)) := by
  refine Grows.reads (show Grows (between .beforeProtocol q) w ⟨.protocol, q, w, 0⟩ from ?_) rfl rfl
  refine grows_upper q rfl rfl ?_ ?_ hne hw
  · intro s c hs hup
    simp [next, hs, hup]
  · intro s c hs hup
    simp [next, hs, hup]

theorem reads_version {d : UInt8} {w : Bytes} (hd : isdigit d = true)
    (hw : ∀ c ∈ w, (isdigit c || c == 46) = true) :
    Reads (between .beforeVersion q) (d :: w ++ [CR])
      (between .encounterCr (q.setVersion (d :: w))) := by
  have hfirst : (between .beforeVersion q).next d = (between .beforeVersion q).keep d .version := by
    simp [next, between, hd]
  have hrun : Grows ((between .beforeVersion q).keep d .version) w ⟨.version, q, d :: w, 0⟩ := by
    have hin : ParseState.version.inHead := rfl
    refine Grows.run hin (fun c => (isdigit c || c == 46) = true) ?_ rfl hw
    intro s c hs hc
    have hcr := versionChar_not_cr hc
    simp only [next, hs, hcr, Bool.false_eq_true, if_false, hc, if_true]
  exact ((Grows.keep rfl hfirst rfl).append hrun).reads (w := d :: w) rfl rfl

theorem reads_lf : Reads (between .encounterCr q) [LF] (between .crLf q) :=
  Grows.reads (.nil rfl) rfl rfl

/-- A header line up to its CR. The first byte of the key may be a colon, no later one. -/
theorem reads_header (l : HeaderLine) :
    Reads (between .crLf q) (l.key ++ 58 :: l.blank :: l.value ++ [CR])
      (between .encounterCr (q.addHeader l.key l.value)) := by
  obtain ⟨k, ks, hk⟩ := List.exists_cons_of_ne_nil l.key_ne
  have hkey : Grows (between .crLf q) l.key ⟨.headerKey, q, l.key, 0⟩ := by
    have hok := l.key_ok
    have hcolon := l.key_colon
    rw [hk] at hok hcolon ⊢
    have hk0 := hok k (by simp)
    have hfirst : (between .crLf q).next k = (between .crLf q).keep k .headerKey := by
      simp [next, between, hk0, headerKeyChar_not_cr hk0]
    apply (Grows.keep rfl hfirst rfl).append (a := [k])
    refine Grows.run (show ParseState.headerKey.inHead from rfl)
      (fun c => isInvalidHeaderKeyChar c = false ∧ (c == 58) = false) ?_ rfl ?_
    · intro s c hs hc
      simp [next, hs, hc]
    · intro c hc
      refine ⟨hok c (by simp [hc]), ?_⟩
      rw [beq_eq_false_iff_ne]
      rintro rfl
      exact hcolon (by simpa using hc)
  have hmark : Grows ⟨.headerKey, q, l.key, 0⟩ [58]
      ⟨.beforeHeaderValue, q, l.key ++ [58], l.key.length⟩ := .cons rfl rfl (.nil rfl)
  have hblank : Grows ⟨.beforeHeaderValue, q, l.key ++ [58], l.key.length⟩ [l.blank]
      ⟨.headerValue, q, l.key ++ [58] ++ [l.blank], l.key.length⟩ := by
    refine Grows.keep rfl ?_ (show ParseState.headerValue.inHead from rfl)
    simp [next, l.blank_ok]
  have hvalue : Grows ⟨.headerValue, q, l.key ++ [58] ++ [l.blank], l.key.length⟩ l.value
      ⟨.headerValue, q, l.key ++ [58] ++ [l.blank] ++ l.value, l.key.length⟩ := by
    have hin : ParseState.headerValue.inHead := rfl
    refine Grows.run hin (fun c => (c == CR) = false) ?_ rfl ?_
    · intro s c hs hc
      simp only [next, hs, hc, Bool.false_eq_true, if_false]
    · intro c hc
      rw [beq_eq_false_iff_ne]
      rintro rfl
      exact l.value_ok hc
  have hcat := ((hkey.append hmark).append hblank).append hvalue
  have hword : l.key ++ [58] ++ [l.blank] ++ l.value = l.key ++ 58 :: l.blank :: l.value := by simp
  rw [hword] at hcat
  apply hcat.reads rfl
  have hv :
      value ⟨.headerValue, q, l.key ++ 58 :: l.blank :: l.value, l.key.length⟩ 2 = l.value := by
    simp [value, List.drop_append]
  simp [next, cut, between, key_append, hv]

theorem readsAll_headers (ls : List HeaderLine) :
    ReadsAll (between .crLf q) (ls.flatMap RequestHead.headerWords)
      (between .crLf (ls.foldl (fun q l => q.addHeader l.key l.value) q)) := by
  induction ls generalizing q with
  | nil => exact .nil
  | cons l ls ih =>
    rw [List.flatMap_cons]
    exact .append (.cons (reads_header q l) (.single (reads_lf _))) (ih _)

theorem readsAll_lead {lead : Bytes}
    (h : ∀ c ∈ lead, (isblank c || c == CR || c == LF) = true) :
    ReadsAll (between .start q) (lead.map fun c => [c]) (between .start q) := by
  induction lead with
  | nil => exact .nil
  | cons c cs ih => exact .cons (reads_lead q (h c (by simp))) (ih fun d hd => h d (by simp [hd]))

theorem reads_blankLine : Reads (between .crLf q) [CR, LF] (between .body q) := by
  have hcr : Grows (between .crLf q) [CR] ⟨.crLfCr, q, [CR], 0⟩ := .cons rfl rfl (.nil rfl)
  exact hcr.reads rfl rfl

end Scan

namespace RequestHead

open Scan

/-- The URL and its parameters. -/
theorem readsAll_url (h : RequestHead) (q : HTTPRequest) :
    ReadsAll (between .beforeUrl q)
      ((47 :: h.url ++ [if h.params = [] then h.blank2 else 63]) :: paramWords h.blank2 h.params)
      (between .beforeProtocol
        (h.params.foldl (fun q p => q.addParam p.key p.value) (q.setUrl (47 :: h.url)))) := by
  by_cases hp : h.params = []
  · rw [if_pos hp, hp]
    exact .single (reads_url q h.url_ok h.blank2_ok)
  · rw [if_neg hp]
    exact .cons (reads_url_params q h.url_ok) (readsAll_params _ h.blank2_ok h.params hp)

/-- The protocol and the version, up to the end of the request line. -/
theorem readsAll_version (h : RequestHead) (q : HTTPRequest) :
    ReadsAll (between .beforeProtocol q) [h.protocol ++ [47], h.major :: h.minor ++ [CR], [LF]]
      (between .crLf ((q.setProtocol h.protocol).setVersion (h.major :: h.minor))) :=
  .cons (reads_protocol q h.protocol_ne h.protocol_ok)
    (.cons (reads_version _ h.major_ok h.minor_ok) (.single (reads_lf _)))

/-- The automaton reads a head word by word, and builds the request the head describes. -/
theorem readsAll (h : RequestHead) : ReadsAll Scan.init h.words (between .body h.request) := by
  rw [words]
  have hline := (ReadsAll.single (reads_method HTTPRequest.new h.method_ne h.method_ok
    h.blank1_ok)).append (h.readsAll_url _)
  have hhead := (((readsAll_lead _ h.lead_ok).append hline).append (h.readsAll_version _)).append
    ((readsAll_headers _ h.headers).append (.single (reads_blankLine _)))
  simp only [List.append_assoc, List.cons_append, List.nil_append] at hhead ⊢
  exact hhead

theorem scan (h : RequestHead) : Scan.init.feed h.bytes = between .body h.request :=
  h.readsAll.feed

/-- A proper part of a head leaves the automaton in the head, holding the carried bytes. -/
theorem scan_take (h : RequestHead) (n : Nat) (hn : n < h.bytes.length) :
    (Scan.init.feed (h.bytes.take n)).state.inHead ∧
      (Scan.init.feed (h.bytes.take n)).word = carried h.words n :=
  h.readsAll.take n hn

end RequestHead

end MuduoServer
