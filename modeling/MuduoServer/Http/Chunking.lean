import MuduoServer.Http.WireRequest

namespace MuduoServer

open HTTPContext

/-- The chunks as they arrive, each appended to the input buffer and parsed. -/
def feedPieces (ctx : HTTPContext) (b : Buffer) :
    List Bytes → Option (List ParseState × HTTPContext × Buffer)
  | [] => some ([], ctx, b)
  | c :: cs => do
    let (s, ctx, b) ← parseRequest ctx (b.append c)
    let (ss, ctx, b) ← feedPieces ctx b cs
    return (s :: ss, ctx, b)

/-- The chunks make up the request `q`: the last one completes it, each one before leaves it
unfinished, and the buffer is empty afterwards. -/
def Delivers (ctx : HTTPContext) (b : Buffer) (pieces : List Bytes) (q : HTTPRequest) : Prop :=
  ∃ ss ctx' b', feedPieces ctx b pieces = some (ss ++ [.complete], ctx', b') ∧
    (∀ s ∈ ss, s.unfinished) ∧ ctx'.request = q ∧ b'.toString = []

/-- The chunks deliver to a fresh context the same request as the text does in one piece. -/
def ChunkInvariant (b : Buffer) (text : Bytes) (pieces : List Bytes) : Prop :=
  ∃ q, Delivers .new b pieces q ∧ Delivers .new b [text] q

/-- Every chunk that holds the end of the head and a byte of the body begins where no word of the
head is cut; `off` is where the first chunk begins. -/
def CutsClean (h : RequestHead) : Nat → List Bytes → Prop
  | _, [] => True
  | off, c :: cs =>
    (off < h.bytes.length → h.bytes.length < off + c.length → carried h.words off = []) ∧
      CutsClean h (off + c.length) cs

instance (h : RequestHead) : (off : Nat) → (cs : List Bytes) → Decidable (CutsClean h off cs)
  | _, [] => isTrue trivial
  | off, c :: cs =>
    have : Decidable (CutsClean h (off + c.length) cs) := instDecidableCutsClean h _ cs
    inferInstanceAs (Decidable (_ ∧ _))

section Delivers

variable {ctx ctx' : HTTPContext} {b b' : Buffer} {c : Bytes} {cs : List Bytes} {q : HTTPRequest}
  {s : ParseState}

theorem feedPieces_cons {ss : List ParseState} : feedPieces ctx b (c :: cs) = some (ss, ctx', b') ↔
    ∃ s ctx1 b1 ss1, parseRequest ctx (b.append c) = some (s, ctx1, b1) ∧
      feedPieces ctx1 b1 cs = some (ss1, ctx', b') ∧ ss = s :: ss1 := by
  simp only [feedPieces, Option.bind_eq_bind, Option.bind_eq_some_iff, Option.pure_def,
    Option.some.injEq, Prod.mk.injEq]
  constructor
  · rintro ⟨⟨s, ctx1, b1⟩, hparse, ⟨ss1, ctx2, b2⟩, hrest, rfl, rfl, rfl⟩
    exact ⟨s, ctx1, b1, ss1, hparse, hrest, rfl⟩
  · rintro ⟨s, ctx1, b1, ss1, hparse, hrest, rfl⟩
    exact ⟨(s, ctx1, b1), hparse, (ss1, ctx', b'), hrest, rfl, rfl, rfl⟩

theorem delivers_unfinished (h : parseRequest ctx (b.append c) = some (s, ctx', b'))
    (hs : s.unfinished) : Delivers ctx b (c :: cs) q ↔ Delivers ctx' b' cs q := by
  constructor
  · intro ⟨ss, ctx2, b2, hfeed, hun, hq, hb⟩
    obtain ⟨s', ctx1, b1, ss', hparse, hrest, hss⟩ := feedPieces_cons.mp hfeed
    rw [h] at hparse
    cases hparse
    cases ss with
    | nil =>
      obtain ⟨rfl, -⟩ := List.cons.inj hss
      exact absurd hs (by decide)
    | cons s0 ss =>
      obtain ⟨-, rfl⟩ := List.cons.inj hss
      exact ⟨ss, ctx2, b2, hrest, fun s hs => hun s (by simp [hs]), hq, hb⟩
  · intro ⟨ss, ctx2, b2, hfeed, hun, hq, hb⟩
    refine ⟨s :: ss, ctx2, b2, ?_, ?_, hq, hb⟩
    · exact feedPieces_cons.mpr ⟨s, ctx', b', _, h, hfeed, rfl⟩
    · rintro s' (_ | ⟨_, hmem⟩)
      · exact hs
      · exact hun s' hmem

theorem delivers_complete (h : parseRequest ctx (b.append c) = some (.complete, ctx', b'))
    (hb : b'.toString = []) : Delivers ctx b [c] ctx'.request :=
  ⟨[], ctx', b', by simp [feedPieces, h], by simp, rfl, hb⟩

theorem not_delivers_none (h : parseRequest ctx (b.append c) = none) :
    ¬Delivers ctx b (c :: cs) q := by
  intro ⟨ss, ctx2, b2, hfeed, _⟩
  simp [feedPieces, h] at hfeed

theorem not_delivers_nil : ¬Delivers ctx b [] q := by
  intro ⟨ss, ctx2, b2, hfeed, _⟩
  simp [feedPieces] at hfeed

theorem delivers_unique {q' : HTTPRequest} (h : Delivers ctx b cs q) (h' : Delivers ctx b cs q') :
    q' = q := by
  obtain ⟨ss, ctx1, b1, hfeed, -, rfl, -⟩ := h
  obtain ⟨ss', ctx2, b2, hfeed', -, rfl, -⟩ := h'
  simp only [hfeed, Option.some.injEq, Prod.mk.injEq] at hfeed'
  rw [hfeed'.2.1]

theorem delivers_iff {q' : HTTPRequest} {p : Prop} (h : Delivers ctx b cs q) (hp : p) :
    Delivers ctx b cs q' ↔ q' = q ∧ p := by
  constructor
  · exact fun h' => ⟨delivers_unique h h', hp⟩
  · rintro ⟨rfl, -⟩
    exact h

theorem delivers_iff_of_not {q' : HTTPRequest} {p : Prop} (h : ¬Delivers ctx b cs q') (hp : ¬p) :
    Delivers ctx b cs q' ↔ q' = q ∧ p := iff_of_false h (fun hq => hp hq.2)

end Delivers

/-- An empty buffer after a chunk was appended. -/
theorem append_empty {b : Buffer} (hb : b.Wf) (he : b.toString = []) (c : Bytes) :
    (b.append c).Wf ∧ (b.append c).toString = c ∧
      (b.append c).retrieveAll.Wf ∧ (b.append c).retrieveAll.toString = [] := by
  obtain ⟨hwf, hs, -⟩ := b.append_spec hb c
  rw [he, List.nil_append] at hs
  exact ⟨hwf, hs, Buffer.retrieveAll_wf _ hwf, Buffer.retrieveAll_toString _⟩

/-- The chunks of the rest of a body complete the request. -/
theorem delivers_body (pieces : List Bytes) (hne : ∀ c ∈ pieces, c ≠ []) (hp : pieces ≠ [])
    (hlt : pieces.flatten.length < sizeTop) {ctx : HTTPContext} {b : Buffer} {q : HTTPRequest}
    (h : InBody ctx q pieces.flatten.length) (hb : b.Wf) (he : b.toString = []) :
    Delivers ctx b pieces (q.appendBody pieces.flatten) := by
  induction pieces generalizing ctx b q with
  | nil => exact absurd rfl hp
  | cons c cs ih =>
    obtain ⟨hwf, hs, hwf', he'⟩ := append_empty hb he c
    have hc : (b.append c).toString ≠ [] := by rw [hs]; exact hne c (by simp)
    rw [List.flatten_cons, List.length_append] at h hlt
    rw [List.flatten_cons, ← HTTPRequest.appendBody_append]
    by_cases hcs : cs = []
    · subst hcs
      obtain ⟨ctx', hparse, hreq⟩ := parseRequest_bodyLast h hwf (by rw [hs]; omega) hc
        (by rw [hs]; rfl)
      have hdel := delivers_complete hparse he'
      rw [hreq, hs] at hdel
      simpa using hdel
    · have hpos : 0 < cs.flatten.length := by
        obtain ⟨d, ds, rfl⟩ := List.exists_cons_of_ne_nil hcs
        have hd := List.length_pos_iff.mpr (hne d (by simp))
        rw [List.flatten_cons, List.length_append]
        omega
      obtain ⟨ctx', hparse, hin⟩ := parseRequest_bodyMore h hwf (by rw [hs]; omega) hc
        (by rw [hs]; omega)
      rw [hs, Nat.add_sub_cancel_left] at hin
      rw [delivers_unfinished hparse rfl]
      exact ih (fun d hd => hne d (by simp [hd])) hcs (by omega) hin hwf' he'

/-- A parser that waits for more bytes than are to come completes nothing. -/
theorem not_delivers_behind (pieces : List Bytes) (hne : ∀ c ∈ pieces, c ≠ [])
    (hlt : pieces.flatten.length < sizeTop) {ctx : HTTPContext} {b : Buffer} {q q' : HTTPRequest}
    {m : Nat} (h : InBody ctx q m) (hm : pieces.flatten.length < m) (hb : b.Wf)
    (he : b.toString = []) : ¬Delivers ctx b pieces q' := by
  induction pieces generalizing ctx b q m with
  | nil => exact not_delivers_nil
  | cons c cs ih =>
    obtain ⟨hwf, hs, hwf', he'⟩ := append_empty hb he c
    have hc : (b.append c).toString ≠ [] := by rw [hs]; exact hne c (by simp)
    rw [List.flatten_cons, List.length_append] at hm hlt
    obtain ⟨ctx', hparse, hin⟩ := parseRequest_bodyMore h hwf (by rw [hs]; omega) hc
      (by rw [hs]; omega)
    rw [hs] at hin
    rw [delivers_unfinished hparse rfl]
    exact ih (fun d hd => hne d (by simp [hd])) (by omega) hin (by omega) hwf' he'

theorem cutsClean_past (h : RequestHead) (off : Nat) (pieces : List Bytes)
    (hoff : h.bytes.length ≤ off) : CutsClean h off pieces := by
  induction pieces generalizing off with
  | nil => trivial
  | cons c cs ih => exact ⟨fun hlt => by omega, ih _ (by omega)⟩

theorem pieces_eq_nil {pieces : List Bytes} (hne : ∀ c ∈ pieces, c ≠ [])
    (h : pieces.flatten = []) : pieces = [] := by
  rw [List.eq_nil_iff_forall_not_mem]
  intro c hc
  exact hne c hc (List.flatten_eq_nil_iff.mp h c hc)

theorem carried_length (ws : List Bytes) (n : Nat) :
    (carried ws n).length ≤ ws.flatten.length := by
  induction ws generalizing n with
  | nil => simp [carried]
  | cons w ws ih =>
    rw [carried, List.flatten_cons, List.length_append]
    split_ifs with hlt
    · rw [List.length_take]
      omega
    · have h := ih (n - w.length)
      omega

section HeadEnd

variable (r : WireRequest) {pre t extra : Bytes} {cs : List Bytes} {ctx : HTTPContext} {b : Buffer}
  (hpre : pre ++ t = r.head.bytes) (ht : t ≠ []) (hne : ∀ c ∈ cs, c ≠ [])
  (hbody : r.body = extra ++ cs.flatten) (h : Resumes ctx (Scan.init.feed pre)) (hb : b.Wf)
  (he : b.toString = [])

include hpre ht in
/-- A part of the head, and what the automaton makes of it and of the rest. -/
theorem scan_part : (Scan.init.feed pre).word = carried r.head.words pre.length ∧
    ∃ t', t = t' ++ [LF] ∧ ((Scan.init.feed pre).feed t').state = .crLfCr ∧
      ((Scan.init.feed pre).feed t').request = r.head.request := by
  have hlen : pre.length < r.head.bytes.length := by
    have hpos := List.length_pos_iff.mpr ht
    rw [← hpre, List.length_append]
    omega
  have hword := (r.head.scan_take pre.length hlen).2
  rw [← hpre, List.take_left] at hword
  refine ⟨hword, ?_⟩
  obtain ⟨p, hp, hst, hreq⟩ := r.head.scan_end
  obtain ⟨t', c, rfl⟩ : ∃ t' c, t = t' ++ [c] := ⟨_, _, (List.dropLast_append_getLast ht).symm⟩
  rw [← hpre, ← List.append_assoc] at hp
  obtain ⟨rfl, hc⟩ := List.append_inj' hp rfl
  refine ⟨t', by rw [hc], ?_, ?_⟩
  all_goals rwa [← Scan.feed_append]

include hpre ht hne hbody h hb he in
/-- The chunk that brings the end of the head and nothing of the body. -/
theorem delivers_headOnly (q : HTTPRequest) (hnil : extra = []) :
    Delivers ctx b ((t ++ extra) :: cs) q ↔ q = r.request ∧ r.LengthRead := by
  obtain ⟨-, t', htl, hst, hreq⟩ := scan_part r hpre ht
  obtain ⟨hwf, hs, hwf', he'⟩ := append_empty hb he (t ++ extra)
  have hlf : (b.append (t ++ extra)).toString = t' ++ LF :: [] := by rw [hs, htl, hnil]; simp
  have hle : cs.flatten.length < 2^31 := by
    have hlt := r.body_length_lt
    rw [hbody, List.length_append] at hlt
    omega
  have hflat : r.body = cs.flatten := by rw [hbody, hnil, List.nil_append]
  by_cases hq : r.head.request.hasLength ∧ r.head.request.bodyBytes ≠ 0
  · obtain ⟨ctx', hparse, hin⟩ := parseRequest_awaitBody h hwf hlf hst rfl
      (by rw [hreq]; exact hq.1) (by rw [hreq]; exact hq.2)
    rw [hreq] at hin
    rw [delivers_unfinished hparse rfl]
    by_cases hempty : r.body = []
    · have hcs := pieces_eq_nil hne (hflat ▸ hempty)
      rw [hcs]
      exact delivers_iff_of_not not_delivers_nil
        (by rw [r.lengthRead_of_no_body hempty]; exact not_not_intro hq)
    · rw [(r.length_of_body hempty).2, hflat] at hin
      have hcs : cs ≠ [] := by rintro rfl; exact hempty hflat
      have hdel := delivers_body cs hne hcs (by unfold sizeTop; omega) hin hwf' he'
      rw [← hflat] at hdel
      exact delivers_iff hdel (r.lengthRead_of_body hempty)
  · have hempty : r.body = [] := by
      by_contra hno
      obtain ⟨hlen, hn⟩ := r.length_of_body hno
      exact hq ⟨hlen, by rw [hn]; exact (List.length_pos_iff.mpr hno).ne'⟩
    obtain ⟨ctx', hparse, hreq'⟩ := parseRequest_bodiless h hwf hlf hst rfl
      (by rw [hreq]; exact hq)
    have hcs := pieces_eq_nil hne (hflat ▸ hempty)
    have hdel := delivers_complete hparse he'
    have hwhole : r.request = ctx'.request := by
      rw [hreq', hreq, WireRequest.request, hempty, HTTPRequest.appendBody_nil]
    rw [hcs, hwhole]
    exact delivers_iff hdel ((r.lengthRead_of_no_body hempty).mpr hq)

include hpre ht hne hbody h hb he in
/-- The chunk that brings the end of the head and bytes of the body: they are found when nothing
of the head was carried over. -/
theorem delivers_headAndBody (q : HTTPRequest) (hnil : extra ≠ []) :
    Delivers ctx b ((t ++ extra) :: cs) q ↔
      q = r.request ∧ carried r.head.words pre.length = [] := by
  obtain ⟨hword, t', htl, hst, hreq⟩ := scan_part r hpre ht
  obtain ⟨hwf, hs, hwf', he'⟩ := append_empty hb he (t ++ extra)
  have hlf : (b.append (t ++ extra)).toString = t' ++ LF :: extra := by rw [hs, htl]; simp
  have hno : r.body ≠ [] := by rw [hbody]; simp [hnil]
  obtain ⟨hlen, hn⟩ := r.length_of_body hno
  have hbl : r.body.length = extra.length + cs.flatten.length := by
    rw [hbody, List.length_append]
  have hle := r.body_length_lt
  rw [← hword]
  by_cases hw : (Scan.init.feed pre).word = []
  · have hwhole : r.request = (r.head.request.appendBody extra).appendBody cs.flatten := by
      rw [WireRequest.request, hbody, HTTPRequest.appendBody_append]
    rw [hwhole]
    by_cases hcs : cs = []
    · obtain ⟨ctx', hparse, hreq'⟩ := parseRequest_bodyWhole h hwf hlf hst hw hnil
        (by unfold sizeTop; omega) (by rw [hreq, hn, hbl, hcs]; simp)
      have hdel := delivers_complete hparse he'
      rw [hreq', hreq] at hdel
      rw [hcs, List.flatten_nil, HTTPRequest.appendBody_nil]
      exact delivers_iff hdel hw
    · have hpos := List.length_pos_iff.mpr (fun hf => hcs (pieces_eq_nil hne hf))
      obtain ⟨ctx', hparse, hin⟩ := parseRequest_bodyPart h hwf hlf hst hw hnil
        (by unfold sizeTop; omega) (by rw [hreq, hn, hbl]; omega)
      rw [hreq, hn, hbl, Nat.add_sub_cancel_left] at hin
      rw [delivers_unfinished hparse rfl]
      exact delivers_iff (delivers_body cs hne hcs (by unfold sizeTop; omega) hin hwf' he') hw
  · have hwl := carried_length r.head.words pre.length
    rw [← hword] at hwl
    have hfit := r.bytes_length_lt
    rw [RequestHead.bytes] at hfit
    refine delivers_iff_of_not ?_ hw
    rcases parseRequest_split h hwf hlf hst hw hnil (by rw [hreq]; exact hlen)
      (by rw [hreq, hn]; omega) (by rw [hreq, hn]; unfold sizeTop; omega) with
      hnone | ⟨ctx', q', m, hparse, hin, hm⟩
    · exact not_delivers_none hnone
    · rw [delivers_unfinished hparse rfl]
      rw [hreq, hn, hbl, Nat.add_sub_cancel_left] at hm
      exact not_delivers_behind cs hne (by unfold sizeTop; omega) hin hm hwf' he'

include hpre ht hne hbody h hb he in
/-- The chunk in which the head ends: what follows depends on the bytes of the body it brings. -/
theorem delivers_headEnd (q : HTTPRequest) : Delivers ctx b ((t ++ extra) :: cs) q ↔
    q = r.request ∧ r.LengthRead ∧ (extra ≠ [] → carried r.head.words pre.length = []) := by
  by_cases hnil : extra = []
  · rw [delivers_headOnly r hpre ht hne hbody h hb he q hnil]
    simp [hnil]
  · have hno : r.body ≠ [] := by rw [hbody]; simp [hnil]
    rw [delivers_headAndBody r hpre ht hne hbody h hb he q hnil]
    simp [hnil, r.lengthRead_of_body hno]

end HeadEnd

/-- The chunks from one that begins in the head on. -/
theorem delivers_head (r : WireRequest) (q : HTTPRequest) (pieces : List Bytes)
    (hne : ∀ c ∈ pieces, c ≠ []) {pre t : Bytes} (hpre : pre ++ t = r.head.bytes) (ht : t ≠ [])
    (hcut : pieces.flatten = t ++ r.body) {ctx : HTTPContext} {b : Buffer}
    (h : Resumes ctx (Scan.init.feed pre)) (hb : b.Wf) (he : b.toString = []) :
    Delivers ctx b pieces q ↔
      q = r.request ∧ r.LengthRead ∧ CutsClean r.head pre.length pieces := by
  induction pieces generalizing pre t ctx b with
  | nil => simp [ht] at hcut
  | cons c cs ih =>
    have hne' : ∀ d ∈ cs, d ≠ [] := fun d hd => hne d (by simp [hd])
    have hlen : pre.length + t.length = r.head.bytes.length := by rw [← hpre, List.length_append]
    have hpos := List.length_pos_iff.mpr ht
    rw [List.flatten_cons, List.append_eq_append_iff] at hcut
    rcases hcut with ⟨t', rfl, hrest⟩ | ⟨extra, rfl, hbody⟩
    · by_cases ht' : t' = []
      · subst ht'
        rw [List.append_nil] at hpre hlen
        have hend := delivers_headEnd r hpre (hne c (by simp)) hne'
          (show r.body = [] ++ cs.flatten by simpa using hrest.symm) h hb he q
        rw [List.append_nil] at hend
        rw [hend, CutsClean]
        simp [hlen, cutsClean_past]
      · have hpre' : (pre ++ c) ++ t' = r.head.bytes := by rw [← hpre, List.append_assoc]
        have hpos' := List.length_pos_iff.mpr ht'
        rw [List.length_append] at hlen
        obtain ⟨hwf, hs, hwf', he'⟩ := append_empty hb he c
        have hin : ((Scan.init.feed pre).feed c).state.inHead := by
          have htake := (r.head.scan_take (pre ++ c).length
            (by rw [List.length_append]; omega)).1
          rwa [← hpre', List.take_left, Scan.feed_append] at htake
        obtain ⟨ctx', hparse, hres⟩ := parseRequest_head h (b := b.append c) (by rwa [hs])
        rw [hs, ← Scan.feed_append] at hres
        rw [delivers_unfinished hparse (by rw [hs]; exact ParseState.inHead_unfinished hin),
          ih hne' hpre' ht' hrest hres hwf' he', CutsClean, List.length_append]
        refine and_congr_right fun _ => and_congr_right fun _ => ?_
        rw [iff_and_self]
        intro _ _ hover
        omega
    · rw [delivers_headEnd r hpre ht hne' hbody h hb he q, CutsClean]
      refine and_congr_right fun _ => and_congr_right fun _ => ?_
      have hpast := cutsClean_past r.head (pre.length + (t ++ extra).length) cs
        (by rw [List.length_append]; omega)
      rw [and_iff_left hpast, List.length_append, ← List.length_pos_iff]
      constructor
      · exact fun hc _ hover => hc (by omega)
      · exact fun hc hover => hc (by omega) (by omega)

/-- What a fresh context makes of the chunks of a request. -/
theorem delivers_new (r : WireRequest) (q : HTTPRequest) (pieces : List Bytes)
    (hne : ∀ c ∈ pieces, c ≠ []) (hcut : pieces.flatten = r.bytes) {b : Buffer} (hb : b.Wf)
    (he : b.toString = []) :
    Delivers .new b pieces q ↔ q = r.request ∧ r.LengthRead ∧ CutsClean r.head 0 pieces :=
  delivers_head r q pieces hne (show [] ++ r.head.bytes = r.head.bytes from rfl) r.head.bytes_ne
    hcut resumes_new hb he

theorem cutsClean_whole (h : RequestHead) (c : Bytes) : CutsClean h 0 [c] :=
  ⟨fun _ _ => RequestHead.carried_zero _, trivial⟩

/-- The chunks of a request deliver what the request in one piece does exactly when `atoi` reads
its length and no word of the head is cut by the chunk that brings the first bytes of the body. -/
theorem parse_chunks_iff (r : WireRequest) (pieces : List Bytes) (hne : ∀ c ∈ pieces, c ≠ [])
    (hcut : pieces.flatten = r.bytes) (b : Buffer) (hb : b.Wf) (he : b.toString = []) :
    ChunkInvariant b r.bytes pieces ↔ r.LengthRead ∧ CutsClean r.head 0 pieces := by
  have hbytes : r.bytes ≠ [] := List.append_ne_nil_of_left_ne_nil r.head.bytes_ne _
  have hwhole : ∀ q, Delivers .new b [r.bytes] q ↔ q = r.request ∧ r.LengthRead := by
    intro q
    rw [delivers_new r q [r.bytes] (by simpa using hbytes) (by simp) hb he,
      and_iff_left (cutsClean_whole _ _)]
  rw [ChunkInvariant]
  simp only [hwhole, delivers_new r _ pieces hne hcut hb he]
  constructor
  · intro ⟨q, ⟨_, hlen, hclean⟩, _⟩
    exact ⟨hlen, hclean⟩
  · intro ⟨hlen, hclean⟩
    exact ⟨r.request, ⟨rfl, hlen, hclean⟩, rfl, hlen⟩

theorem parse_chunks_hello :
    ChunkInvariant .default WireRequest.hello.bytes
        [bytes "GET / HTTP/1.1\r\nContent-Length: 5\r\n", bytes "\r\nhel", bytes "lo"] :=
  (parse_chunks_iff .hello _ (by decide) (by decide +kernel) .default Buffer.default_wf
    Buffer.default_toString).mpr ⟨by decide +kernel, by decide +kernel⟩

/-- A cut between the two bytes of the blank line: the second chunk is one byte longer than what
the code takes for its part of the body, and the last byte of the body is awaited for ever. -/
theorem hello_cut_blankLine :
    WireRequest.hello.bytes =
        [bytes "GET / HTTP/1.1\r\nContent-Length: 5\r\n\r", bytes "\nhello"].flatten ∧
      ¬ChunkInvariant .default WireRequest.hello.bytes
        [bytes "GET / HTTP/1.1\r\nContent-Length: 5\r\n\r", bytes "\nhello"] := by
  refine ⟨by decide +kernel, ?_⟩
  intro ⟨q, ⟨ss, ctx, b, hfeed, _⟩, _⟩
  have hstates : (feedPieces .new .default
      [bytes "GET / HTTP/1.1\r\nContent-Length: 5\r\n\r", bytes "\nhello"]).map Prod.fst =
        some [.crLfCr, .body] := by decide +kernel
  rw [hfeed, Option.map_some, Option.some.injEq] at hstates
  have hlast := congrArg List.getLast? hstates
  simp at hlast

end MuduoServer
