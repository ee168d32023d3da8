import MuduoServer.Http.ChunkStates

namespace MuduoServer

open HTTPContext

/-- A request that the server understands. -/
structure HTTPRequest.Understood (q : HTTPRequest) : Prop where
  method : q.method ≠ .invalid
  version : q.version ≠ .invalid
  protocol : q.protocol = bytes "HTTP"

instance (q : HTTPRequest) : Decidable q.Understood :=
  decidable_of_iff (q.method ≠ .invalid ∧ q.version ≠ .invalid ∧ q.protocol = bytes "HTTP")
    ⟨fun h => ⟨h.1, h.2.1, h.2.2⟩, fun h => ⟨h.method, h.version, h.protocol⟩⟩

namespace RequestHead

/-- The words of the request line, to the line feed that ends it. -/
def lineWords (h : RequestHead) : List Bytes :=
  h.lead.map (fun c => [c]) ++
  [h.method ++ [h.blank1], 47 :: h.url ++ [if h.params = [] then h.blank2 else 63]] ++
  paramWords h.blank2 h.params ++
  [h.protocol ++ [47], h.major :: h.minor ++ [CR], [LF]]

def line (h : RequestHead) : Bytes := h.lineWords.flatten

def MethodKnown (h : RequestHead) : Prop :=
  h.method ∈ [MuduoServer.bytes "GET", MuduoServer.bytes "HEAD", MuduoServer.bytes "POST",
    MuduoServer.bytes "OPTIONS"]

def ProtocolKnown (h : RequestHead) : Prop :=
  h.protocol = MuduoServer.bytes "HTTP" ∧
    h.major :: h.minor ∈ [MuduoServer.bytes "1.1", MuduoServer.bytes "1.0"]

instance (h : RequestHead) : Decidable h.MethodKnown := inferInstanceAs (Decidable (_ ∈ _))

instance (h : RequestHead) : Decidable h.ProtocolKnown := inferInstanceAs (Decidable (_ ∧ _))

theorem line_begins (h : RequestHead) : h.line <+: h.bytes := by
  refine ⟨(h.headers.flatMap headerWords ++ [[CR, LF]]).flatten, ?_⟩
  rw [line, bytes, ← List.flatten_append, words, lineWords]
  simp only [List.append_assoc]

/-- Behind the request line the automaton is at the first header line. -/
theorem scan_line (h : RequestHead) : Scan.init.feed h.line =
    Scan.between .crLf (((h.params.foldl (fun q p => q.addParam p.key p.value)
      ((HTTPRequest.new.setMethod h.method).setUrl (47 :: h.url))).setProtocol
        h.protocol).setVersion (h.major :: h.minor)) := by
  have hline := ((Scan.readsAll_lead HTTPRequest.new h.lead_ok).append (.cons
    (Scan.reads_method _ h.method_ne h.method_ok h.blank1_ok) (h.readsAll_url _))).append
    (h.readsAll_version _)
  have hwords : h.lineWords = h.lead.map (fun c => [c]) ++ (h.method ++ [h.blank1]) ::
      (47 :: h.url ++ [if h.params = [] then h.blank2 else 63]) ::
        paramWords h.blank2 h.params ++
      [h.protocol ++ [47], h.major :: h.minor ++ [CR], [LF]] := by
    simp [lineWords]
  rw [← hwords] at hline
  exact hline.feed

end RequestHead

namespace HTTPRequest

theorem setMethod_known (q : HTTPRequest) (w : Bytes) :
    (q.setMethod w).method ≠ .invalid ↔
      w ∈ [bytes "GET", bytes "HEAD", bytes "POST", bytes "OPTIONS"] := by
  unfold setMethod
  dsimp only
  split_ifs <;> simp [*]

theorem setVersion_known (q : HTTPRequest) (w : Bytes) :
    (q.setVersion w).version ≠ .invalid ↔ w ∈ [bytes "1.1", bytes "1.0"] := by
  unfold setVersion
  dsimp only
  split_ifs <;> simp [*]

end HTTPRequest

namespace RequestHead

variable (h : RequestHead)

/-- A request with the words of the line is understood when the line is. -/
theorem understood_iff {q : HTTPRequest}
    (hm : q.method = (HTTPRequest.new.setMethod h.method).method)
    (hv : q.version = (HTTPRequest.new.setVersion (h.major :: h.minor)).version)
    (hp : q.protocol = h.protocol) : q.Understood ↔ h.MethodKnown ∧ h.ProtocolKnown := by
  unfold MethodKnown ProtocolKnown
  rw [← HTTPRequest.setMethod_known .new, ← HTTPRequest.setVersion_known .new, ← hm, ← hv, ← hp]
  constructor
  · intro ⟨hmethod, hversion, hprotocol⟩
    exact ⟨hmethod, hprotocol, hversion⟩
  · intro ⟨hmethod, hprotocol, hversion⟩
    exact ⟨hmethod, hversion, hprotocol⟩

/-- Whether a head's request is understood can be told from its line. -/
theorem request_understood (body : Bytes) :
    (h.request.appendBody body).Understood ↔ h.MethodKnown ∧ h.ProtocolKnown := by
  rw [h.request_eq]
  exact h.understood_iff rfl rfl rfl

theorem line_understood :
    (Scan.init.feed h.line).request.Understood ↔ h.MethodKnown ∧ h.ProtocolKnown := by
  rw [h.scan_line, foldl_addParam]
  exact h.understood_iff rfl rfl rfl

end RequestHead

/-- The states behind a request line. -/
def ParseState.pastLine : ParseState → Bool
  | encounterCr | crLf | crLfCr | headerKey | beforeHeaderValue | headerValue | body
  | invalidHeader | invalidCrlf => true
  | _ => false

theorem ParseState.next_pastLine {st : ParseState} (h : st.pastLine) (c : UInt8) :
    (st.next c).pastLine := by
  revert h
  unfold next Scan.next
  cases st
  all_goals
    dsimp only
    (try split_ifs) <;> first | exact fun _ => rfl | exact fun h => absurd h (by decide)

/-- A text that begins with a request line is not refused for the line. -/
theorem RequestHead.pastLine_of_line (h : RequestHead) {t : Bytes} (hp : h.line <+: t) :
    (Scan.init.feed t).state.pastLine := by
  obtain ⟨rest, rfl⟩ := hp
  rw [Scan.feed_append, Scan.feed_state, h.scan_line]
  have hrun : ∀ (st : ParseState), st.pastLine → (rest.foldl ParseState.next st).pastLine := by
    induction rest with
    | nil => exact fun st hst => hst
    | cons c rest ih => exact fun st hst => ih _ (ParseState.next_pastLine hst c)
  exact hrun _ rfl

/-- A completed request is understood, and a request line that is not is answered with the code
for its method, or else for its protocol. -/
structure Judged (b : Buffer) (pieces : List Bytes) : Prop where
  complete : ∀ q, Answers b pieces .complete q → q.Understood
  method : ∀ h : RequestHead, h.line <+: pieces.flatten → ¬h.MethodKnown →
    ∃ q, Answers b pieces .invalidMethod q
  protocol : ∀ h : RequestHead, h.line <+: pieces.flatten → h.MethodKnown → ¬h.ProtocolKnown →
    ∃ q, Answers b pieces .invalidProtocol q

section Judged

variable {b : Buffer} (hb : b.Wf) (he : b.toString = []) {pieces : List Bytes}

include hb he

/-- No answer to a whole request line is about the line. -/
theorem not_answers_line {h : RequestHead} (hp : h.line <+: pieces.flatten) {s : ParseState}
    (hs : s.isInvalid) (hpast : s.pastLine = false) (q : HTTPRequest) : ¬Answers b pieces s q := by
  intro ha
  obtain ⟨ctx, b', hfed, rfl, -⟩ := ha.fed hb he
  have hscan := h.pastLine_of_line hp
  rw [hfed.isInvalid hs, hpast] at hscan
  cases hscan

/-- A completed request has its request line in the text. -/
theorem Answers.line {q : HTTPRequest} (ha : Answers b pieces .complete q) :
    ∃ h : RequestHead, h.line <+: pieces.flatten ∧
      (q.Understood ↔ h.MethodKnown ∧ h.ProtocolKnown) := by
  obtain ⟨ctx, b', hfed, hst, rfl⟩ := ha.fed hb he
  obtain ⟨h, part, hp, hreq⟩ := hfed.of_complete hst
  refine ⟨h, h.line_begins.trans hp, ?_⟩
  rw [hreq, h.request_understood]

end Judged

/-- The parser judges a text as it should exactly where a request line in it is one that the server
understands: the words of a line are never judged. -/
theorem judged_iff (b : Buffer) (hb : b.Wf) (he : b.toString = []) (pieces : List Bytes) :
    Judged b pieces ↔
      ∀ h : RequestHead, h.line <+: pieces.flatten → h.MethodKnown ∧ h.ProtocolKnown := by
  constructor
  · intro hj h hp
    have hm : h.MethodKnown := by
      by_contra hno
      obtain ⟨q, ha⟩ := hj.method h hp hno
      exact not_answers_line hb he hp rfl rfl q ha
    refine ⟨hm, ?_⟩
    by_contra hno
    obtain ⟨q, ha⟩ := hj.protocol h hp hm hno
    exact not_answers_line hb he hp rfl rfl q ha
  · intro hall
    refine ⟨?_, ?_, ?_⟩
    · intro q ha
      obtain ⟨h, hp, hiff⟩ := ha.line hb he
      exact hiff.mpr (hall h hp)
    · exact fun h hp hno => absurd (hall h hp).1 hno
    · exact fun h hp _ hno => absurd (hall h hp).2 hno

/-- Only one beginning of the text takes the automaton behind a request line. -/
theorem judged_get : Judged .default [bytes "GET / HTTP/1.1\r\n\r\n"] := by
  refine (judged_iff .default Buffer.default_wf Buffer.default_toString _).mpr ?_
  intro h hp
  have hscan : ∀ n < 19, (Scan.init.feed ((bytes "GET / HTTP/1.1\r\n\r\n").take n)).state = .crLf →
      (Scan.init.feed ((bytes "GET / HTTP/1.1\r\n\r\n").take n)).request.Understood := by
    decide +kernel
  have hline := List.prefix_iff_eq_take.mp hp
  rw [List.flatten_singleton] at hp hline
  have hstate : (Scan.init.feed h.line).state = .crLf := by
    rw [h.scan_line]
    rfl
  rw [hline] at hstate
  rw [← h.line_understood, hline]
  exact hscan h.line.length (Nat.lt_succ_of_le hp.length_le) hstate

/-- A method, and a protocol with a version, that the server does not know: the request is complete,
and handed over as one with an invalid method or version. -/
theorem unknown_words_complete :
    ¬Judged .default [bytes "BREW / HTTP/1.1\r\n\r\n"] ∧
      ¬Judged .default [bytes "GET / GOPHER/2.0\r\n\r\n"] := by
  have hbrew : (feedPieces .new .default [bytes "BREW / HTTP/1.1\r\n\r\n"]).map
      (fun r => (r.1, r.2.1.request.method)) = some ([.complete], .invalid) := by decide +kernel
  have hgopher : (feedPieces .new .default [bytes "GET / GOPHER/2.0\r\n\r\n"]).map
      (fun r => (r.1, r.2.1.request.version)) = some ([.complete], .invalid) := by decide +kernel
  simp only [Option.map_eq_some_iff, Prod.mk.injEq] at hbrew hgopher
  constructor
  · intro hj
    obtain ⟨⟨ss, ctx, b'⟩, hfeed, hss, hmethod⟩ := hbrew
    obtain rfl : ss = [.complete] := hss
    exact (hj.complete _ ⟨[], ctx, b', hfeed, rfl⟩).method hmethod
  · intro hj
    obtain ⟨⟨ss, ctx, b'⟩, hfeed, hss, hversion⟩ := hgopher
    obtain rfl : ss = [.complete] := hss
    exact (hj.complete _ ⟨[], ctx, b', hfeed, rfl⟩).version hversion

/-- A head with a length that `atoi` reads as a negative number. -/
structure NegativeHead where
  head : RequestHead
  hasLength : head.request.hasLength
  negative : head.request.declared < 0

namespace NegativeHead

/-- The head is refused in the call in which it ends, and no byte is stored as its body. -/
structure Refused (h : NegativeHead) (b : Buffer) (pieces : List Bytes) : Prop where
  refused : ∀ cs c, cs ++ [c] <+: pieces → ¬h.head.bytes <+: cs.flatten →
    h.head.bytes <+: (cs ++ [c]).flatten → ∃ q, Answers b (cs ++ [c]) .invalidHeader q
  empty : ∀ s q, Answers b pieces s q → q.body = []

/-- The negative number is stored as one near the top of the range. -/
theorem bodyBytes_eq (h : NegativeHead) :
    h.head.request.bodyBytes = sizeTop - h.head.request.declared.natAbs ∧ 2^63 <
      h.head.request.bodyBytes := by
  have hneg := h.negative
  have hbounds := atoi_bounds (h.head.request.getHeaderByKey (bytes "Content-Length"))
  rw [← HTTPRequest.declared] at hbounds
  have habs : h.head.request.declared = -(h.head.request.declared.natAbs : Int) := by omega
  have hstored : h.head.request.bodyBytes = sizeTop - h.head.request.declared.natAbs := by
    rw [HTTPRequest.bodyBytes, if_pos h.hasLength, habs, toSizeT_neg _ (by omega)
      (by rw [sizeTop]; omega), Int.natAbs_neg, Int.natAbs_natCast]
  refine ⟨hstored, ?_⟩
  rw [hstored, sizeTop]
  omega

/-- What follows the head is stored, and more is awaited. -/
theorem parseRequest_stores (h : NegativeHead) {b : Buffer} (hb : b.Wf) {rest : Bytes}
    (hs : b.toString = h.head.bytes ++ rest) (hlt : rest.length < 2^63) :
    ∃ ctx, parseRequest .new b = some (.body, ctx, b.retrieveAll) ∧
      ctx.request = h.head.request.appendBody rest := by
  obtain ⟨p, hp, hst, hreq⟩ := h.head.scan_end
  have hbytes := h.bodyBytes_eq.2
  obtain ⟨ctx, hparse, hin⟩ := parseRequest_waits resumes_new hb
    (show b.toString = p ++ LF :: rest by rw [hs, hp]; simp) hst (by rw [sizeTop]; omega)
    (fun _ => rfl) (by rw [hreq]; exact h.hasLength) (by rw [hreq]; omega)
  exact ⟨ctx, hparse, by rw [hin.request, hreq]⟩

/-- No head is refused for its negative length: `contentLength_ < 0` is never true of the unsigned
field in which the length has been stored. -/
theorem not_refused (h : NegativeHead) (b : Buffer) (hb : b.Wf) (he : b.toString = [])
    (pieces : List Bytes) (hp : h.head.bytes <+: pieces.flatten) : ¬h.Refused b pieces := by
  intro hr
  obtain ⟨cs, c, hcs, hbefore, hend⟩ := exists_lastChunk h.head.bytes_ne hp
  obtain ⟨q, ha⟩ := hr.refused cs c hcs hbefore hend
  obtain ⟨ctx, b', hfed, hst, -⟩ := ha.fed hb he
  have hscan := hfed.isInvalid (by rw [hst]; rfl)
  exact h.head.not_begins (by rw [hscan, hst]; decide) hend

def minusOne : NegativeHead :=
  ⟨getHead [lengthLine (bytes "-1") (by decide)], by decide +kernel, by decide +kernel⟩

theorem not_refused_minusOne : ¬minusOne.Refused .default [minusOne.head.bytes] :=
  minusOne.not_refused .default Buffer.default_wf Buffer.default_toString _
    ⟨[], by simp⟩

/-- The byte behind the head is stored, and 2^64 - 2 more are awaited. -/
theorem minusOne_stores :
    (feedPieces .new .default [minusOne.head.bytes ++ bytes "x"]).map
        (fun r => (r.1, r.2.1.request.body, r.2.1.contentLength)) =
      some ([.body], bytes "x", 2^64 - 2) ∧
      ¬minusOne.Refused .default [minusOne.head.bytes ++ bytes "x"] := by
  have hfeed : (feedPieces .new .default [minusOne.head.bytes ++ bytes "x"]).map
      (fun r => (r.1, r.2.1.request.body, r.2.1.contentLength)) =
        some ([.body], bytes "x", 2^64 - 2) := by decide +kernel
  refine ⟨hfeed, fun hr => ?_⟩
  rw [Option.map_eq_some_iff] at hfeed
  obtain ⟨⟨ss, ctx, b'⟩, hfeed, hout⟩ := hfeed
  simp only [Prod.mk.injEq] at hout
  obtain ⟨rfl, hbody, -⟩ := hout
  exact absurd ((hr.empty _ _ ⟨[], ctx, b', hfeed, rfl⟩).symm.trans hbody) (by decide)

end NegativeHead

end MuduoServer
