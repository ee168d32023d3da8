import MuduoServer.Http.WireRequest

namespace MuduoServer

open HTTPContext

/-- The request that the bytes of `r` alone leave in a fresh context. -/
def Alone (r : WireRequest) (q : HTTPRequest) : Prop :=
  ∃ s ctx' b', parseRequest .new (Buffer.default.append r.bytes) = some (s, ctx', b') ∧
    ctx'.request = q

/-- From a buffer that holds two requests each call of `parseRequest` takes exactly one. -/
def Pipelined (ctx : HTTPContext) (b : Buffer) (r1 r2 : WireRequest) : Prop :=
  ∃ ctx1 b1, parseRequest ctx b = some (.complete, ctx1, b1) ∧ Alone r1 ctx1.request ∧
    b1.toString = r2.bytes ∧
    ∃ ctx2 b2, parseRequest ctx1.reset b1 = some (.complete, ctx2, b2) ∧ Alone r2 ctx2.request

/-- The bytes of the following request that the write-back puts over the body of the first. They
are copied to the front of the array, and the body lies behind the head and the bytes that were
retrieved before. -/
def overBody (b : Buffer) (r1 r2 : WireRequest) : Bytes :=
  (r2.bytes.drop (b.readerIndex - b.cheapPrepend + r1.head.bytes.length)).take r1.body.length

theorem alone_iff (r : WireRequest) (q : HTTPRequest) : Alone r q ↔ q = r.request := by
  obtain ⟨hb, hs, -⟩ := Buffer.default.append_spec Buffer.default_wf r.bytes
  obtain ⟨ctx', hparse, hreq⟩ := parseRequest_whole r resumes_new hb (by simpa using hs)
  rw [Alone]
  constructor
  · rintro ⟨s, ctx, b, hparse', rfl⟩
    rw [hparse] at hparse'
    cases hparse'
    exact hreq
  · rintro rfl
    exact ⟨_, ctx', _, hparse, hreq⟩

/-- A second request in the buffer is parsed after `reset` when `atoi` reads its length. -/
theorem parse_second_iff (r : WireRequest) (ctx : HTTPContext) {b : Buffer} (hb : b.Wf)
    (hs : b.toString = r.bytes) :
    (∃ ctx2 b2, parseRequest ctx.reset b = some (.complete, ctx2, b2) ∧ Alone r ctx2.request) ↔
      r.LengthRead := by
  obtain ⟨ctx', hparse, hreq⟩ := parseRequest_whole r (resumes_reset ctx) hb hs
  simp only [alone_iff, hparse, Option.some.injEq, Prod.mk.injEq]
  constructor
  · intro ⟨ctx2, b2, ⟨hc, _⟩, _⟩
    by_contra hno
    rw [if_neg hno] at hc
    cases hc
  · intro hlen
    exact ⟨ctx', _, ⟨by rw [if_pos hlen], rfl, rfl⟩, hreq⟩

/-- A fresh context reads its text where it lies in the buffer. -/
theorem enter_init {ctx : HTTPContext} (h : Resumes ctx Scan.init) (b : Buffer) :
    (enter ctx b).1 = .inBuffer b.readerIndex b.readableBytes := by
  have hcond : ¬ParseState.start.value < ctx.snapshot.parseState.value := by
    rw [h.saved]
    exact lt_irrefl _
  rw [enter]
  rw [if_neg hcond]

/-- A part of the text that is read in the array. -/
theorem Text.string_inBuffer {r size k n : Nat} {b : Buffer} (hk : k + n ≤ size)
    (hfit : r + size ≤ b.buffer.length) : (Text.inBuffer r size).string b k ((k : Int) + n) =
      some ((b.buffer.drop (r + k)).take n) := by
  have hbounds : (0 : Int) ≤ k ∧ (k : Int) ≤ k + n ∧ (k : Int) + n ≤
      ((b.buffer.drop r).take size).length := by
    simp only [List.length_take, List.length_drop]
    omega
  rw [Text.string, Text.bytes, Slice.range?, if_pos hbounds, List.drop_take, List.take_take,
    List.drop_drop, Int.toNat_natCast]
  congr 2
  omega

/-- The surplus fits in the array, and is written to its front. -/
theorem Buffer.retrieveAll_append_buffer (b : Buffer) (h : b.Wf) (d : Bytes)
    (hd : d.length ≤ b.readableBytes) :
    (b.retrieveAll.append d).buffer = Slice.overwrite b.buffer b.cheapPrepend d := by
  have hc := h.cheap_le
  have hr := h.reader_le
  have hw := h.writer_le
  unfold Buffer.readableBytes at hd
  rw [Buffer.append_in_place]
  · rfl
  · simp only [Buffer.writableBytes, Buffer.retrieveAll]
    omega

/-- What is read from the text after the surplus was written to the front of the array. -/
theorem string_after_append (b : Buffer) (h : b.Wf) (k n : Nat) (d : Bytes)
    (hk : k + n ≤ b.readableBytes) (hd : d.length ≤ b.readableBytes) :
    ∃ body, (Text.inBuffer b.readerIndex b.readableBytes).string (b.retrieveAll.append d) k
        ((k : Int) + n) = some body ∧ body.length = n ∧
      (body = (b.toString.drop k).take n ↔
        (d.drop (b.readerIndex - b.cheapPrepend + k)).take n <+: (b.toString.drop k).take n) := by
  have hc := h.cheap_le
  have hr := h.reader_le
  have hw := h.writer_le
  have hover := b.retrieveAll_append_buffer h d hd
  have hstring := @Text.string_inBuffer b.readerIndex b.readableBytes k n
    (b.retrieveAll.append d) hk
  unfold Buffer.readableBytes at hk hd
  have hlen := Slice.overwrite_length b.buffer d b.cheapPrepend (by omega)
  refine ⟨((Slice.overwrite b.buffer b.cheapPrepend d).drop (b.readerIndex + k)).take n, ?_, ?_, ?_⟩
  · rw [hstring, hover]
    rw [hover, hlen, Buffer.readableBytes]
    omega
  · simp only [List.length_take, List.length_drop, hlen]
    omega
  · have hle : n ≤ (b.buffer.drop (b.readerIndex + k)).length := by
      rw [List.length_drop]
      omega
    have hgap : b.readerIndex + k - b.cheapPrepend = b.readerIndex - b.cheapPrepend + k := by omega
    rw [Slice.overwrite_drop _ _ _ _ (by omega) (by omega), ← b.toString_range k n hk, hgap]
    exact Slice.overwrite_take_eq_iff _ _ _ hle

/-- A chunk that goes on after the body, in a fresh context: the surplus is written to the front of
the array, and then the body is read where it was. -/
theorem parseRequest_writeBack {ctx : HTTPContext} (h : Resumes ctx Scan.init) {b : Buffer}
    (hb : b.Wf) {cs extra : Bytes} (hcs : b.toString = cs ++ LF :: extra)
    (hs : (Scan.init.feed cs).state = .crLfCr) (hlt : extra.length < sizeTop) {n : Nat}
    (hlen : (Scan.init.feed cs).request.bodyBytes = n) (hn : n < extra.length) :
    ∃ ctx0 : HTTPContext, ctx0.request = (Scan.init.feed cs).request ∧
      parseRequest ctx b =
        ((Text.inBuffer b.readerIndex b.readableBytes).string (b.retrieveAll.append (extra.drop n))
          (cs.length + 1 : Nat) ((cs.length + 1 : Nat) + (n : Int))).map fun body =>
            (.complete, { ctx0 with
              state := .complete, request := ctx0.request.appendBody body },
              b.retrieveAll.append (extra.drop n)) := by
  have he : extra ≠ [] := List.length_pos_iff.mp (by omega)
  obtain ⟨l, hat, hbuf, hstate, hreq, hlenl, hleft, heq⟩ :=
    parseRequest_left h hb hcs hs rfl he hlt
  rw [hlen] at hlenl
  have hsize : b.readableBytes = cs.length + 1 + extra.length := by
    rw [← b.toString_length hb, hcs, List.length_append, List.length_cons]
    omega
  have hdrop : b.toString.drop (cs.length + 1) = extra := by
    rw [hcs, List.drop_append, List.drop_eq_nil_of_le (by omega)]
    simp
  have hstart : l.start = (cs.length + 1 : Nat) := by
    obtain ⟨pre, ht, -, hst⟩ := hat.place
    rw [enter_init h, hbuf] at ht
    have hl := congrArg List.length (show b.toString = pre ++ extra from ht)
    rw [b.toString_length hb, hsize, List.length_append] at hl
    rw [hst]
    omega
  have hsurplus : (b.toString.drop (cs.length + 1 + n)).take (extra.length - n) = extra.drop n := by
    rw [← List.drop_drop, hdrop, List.take_of_length_le (by simp)]
  have happ : (enter ctx b).1.appendTo l.buf (l.start + l.ctx.contentLength)
      (extra.length - l.ctx.contentLength) = some (b.retrieveAll.append (extra.drop n)) := by
    rw [enter_init h, hbuf, hlenl, hstart, Text.appendTo, ← Nat.cast_add,
      b.appendWithin_retrieveAll hb _ _ (by omega), hsurplus]
  have hparse := body_surplus hat hstate he hleft (by rw [hlenl]; exact hn)
  rw [happ, Option.bind_some, enter_init h, hlenl, hstart] at hparse
  rw [enter_init h] at heq
  exact ⟨l.ctx, hreq, heq.trans hparse⟩

theorem parseRequest_surplus {ctx : HTTPContext} (h : Resumes ctx Scan.init) {b : Buffer}
    (hb : b.Wf) {cs extra : Bytes} (hcs : b.toString = cs ++ LF :: extra)
    (hs : (Scan.init.feed cs).state = .crLfCr) (hlt : extra.length < sizeTop) {n : Nat}
    (hlen : (Scan.init.feed cs).request.bodyBytes = n) (hn : n < extra.length) :
    ∃ ctx' b' body, parseRequest ctx b = some (.complete, ctx', b') ∧
      ctx'.request = (Scan.init.feed cs).request.appendBody body ∧ body.length = n ∧
      (body = extra.take n ↔
        ((extra.drop n).drop (b.readerIndex - b.cheapPrepend + (cs.length + 1))).take n <+:
          extra.take n) ∧
      b'.Wf ∧ b'.toString = extra.drop n := by
  obtain ⟨ctx0, hreq, hparse⟩ := parseRequest_writeBack h hb hcs hs hlt hlen hn
  have hsize : b.readableBytes = cs.length + 1 + extra.length := by
    rw [← b.toString_length hb, hcs, List.length_append, List.length_cons]
    omega
  have hdrop : b.toString.drop (cs.length + 1) = extra := by
    rw [hcs, List.drop_append, List.drop_eq_nil_of_le (by omega)]
    simp
  obtain ⟨body, hbody, hbl, hiff⟩ := string_after_append b hb (cs.length + 1) n (extra.drop n)
    (by omega) (by rw [List.length_drop]; omega)
  obtain ⟨hwf, hstr, -⟩ := Buffer.append_spec _ (b.retrieveAll_wf hb) (extra.drop n)
  rw [hdrop] at hiff
  rw [hbody, Option.map_some] at hparse
  exact ⟨_, _, body, hparse, by rw [hreq], hbl, hiff, hwf, by simpa using hstr⟩

/-- Where bytes of a body are awaited and there are more bytes, some of them become the body. -/
theorem taken_is_body {ctx ctx1 : HTTPContext} (h : Resumes ctx Scan.init) {b b1 : Buffer}
    (hb : b.Wf) {cs extra : Bytes} (hcs : b.toString = cs ++ LF :: extra)
    (hs : (Scan.init.feed cs).state = .crLfCr) (hlt : extra.length < sizeTop) (he : extra ≠ [])
    (hpos : (Scan.init.feed cs).request.bodyBytes ≠ 0)
    (hparse : parseRequest ctx b = some (.complete, ctx1, b1)) :
    ctx1.request ≠ (Scan.init.feed cs).request := by
  have hnil : ∀ body, (Scan.init.feed cs).request.appendBody body = (Scan.init.feed cs).request →
      body = [] := by
    intro body hq
    rw [← HTTPRequest.appendBody_nil (Scan.init.feed cs).request,
      HTTPRequest.appendBody_append, List.nil_append] at hq
    exact (HTTPRequest.appendBody_inj _ _ _).mp hq
  rcases lt_trichotomy (Scan.init.feed cs).request.bodyBytes extra.length with hn | hn | hn
  · obtain ⟨ctx', b', body, hparse', hreq, hbl, -⟩ := parseRequest_surplus h hb hcs hs hlt rfl hn
    rw [hparse] at hparse'
    cases hparse'
    intro hq
    rw [hnil body (hreq.symm.trans hq), List.length_nil] at hbl
    exact hpos hbl.symm
  · obtain ⟨ctx', hparse', hreq⟩ := parseRequest_bodyWhole h hb hcs hs rfl he hlt hn
    rw [hparse] at hparse'
    cases hparse'
    intro hq
    exact he (hnil extra (hreq.symm.trans hq))
  · obtain ⟨ctx', hparse', -⟩ := parseRequest_bodyPart h hb hcs hs rfl he hlt hn
    rw [hparse] at hparse'
    cases hparse'

/-- The input under which the first call takes exactly the first request: a length is declared and
read, and the write-back leaves the body as it was. -/
def FirstIntact (b : Buffer) (r1 r2 : WireRequest) : Prop :=
  r1.head.request.hasLength ∧ r1.LengthRead ∧ overBody b r1 r2 <+: r1.body

instance (b : Buffer) (r1 r2 : WireRequest) : Decidable (FirstIntact b r1 r2) :=
  inferInstanceAs (Decidable (_ ∧ _))

section TwoRequests

variable (r1 r2 : WireRequest) {ctx : HTTPContext} (h : Resumes ctx Scan.init) {b : Buffer}
  (hb : b.Wf) (hs : b.toString = r1.bytes ++ r2.bytes)

theorem WireRequest.bytes_pos (r : WireRequest) : 0 < r.bytes.length :=
  List.length_pos_iff.mpr (List.append_ne_nil_of_left_ne_nil r.head.bytes_ne _)

theorem two_length_lt : (r1.body ++ r2.bytes).length < sizeTop := by
  have h1 := r1.bytes_length_lt
  have h2 := r2.bytes_length_lt
  rw [WireRequest.bytes, List.length_append, List.length_append]
  rw [sizeTop]
  omega

include hs in
theorem two_head_end : ∃ p : Bytes, b.toString = p ++ LF :: (r1.body ++ r2.bytes) ∧
    p.length + 1 = r1.head.bytes.length ∧ (Scan.init.feed p).state = .crLfCr ∧
    (Scan.init.feed p).request = r1.head.request := by
  obtain ⟨p, hp, hst, hreq⟩ := r1.head.scan_end
  refine ⟨p, ?_, by rw [hp]; simp, hst, hreq⟩
  rw [hs, WireRequest.bytes, hp]
  simp

include h hb hs in
/-- What the first call makes of a first request whose length is declared and read. -/
theorem parse_first (hlen : r1.head.request.hasLength) (hread : r1.LengthRead) :
    ∃ ctx1 b1, parseRequest ctx b = some (.complete, ctx1, b1) ∧
      (ctx1.request = r1.request ↔ overBody b r1 r2 <+: r1.body) ∧ b1.Wf ∧
      b1.toString = r2.bytes := by
  obtain ⟨p, hlf, hplen, hst, hreq⟩ := two_head_end r1 r2 hs
  have hn := HTTPRequest.bodyBytes_eq hlen (hread hlen)
  have hpos := r2.bytes_pos
  obtain ⟨ctx1, b1, body, hparse, hreq', -, hiff, hwf, hstr⟩ :=
    parseRequest_surplus h hb hlf hst (two_length_lt r1 r2) (hreq ▸ hn)
      (by rw [List.length_append]; omega)
  rw [List.take_left, List.drop_left, hplen] at hiff
  rw [List.drop_left] at hstr
  refine ⟨ctx1, b1, hparse, ?_, hwf, hstr⟩
  rw [hreq', hreq, WireRequest.request, HTTPRequest.appendBody_inj, hiff]
  rfl

include h hb hs in
/-- Without a length that is declared and read the first call does not end with the request. -/
theorem parse_first_only {ctx1 : HTTPContext} {b1 : Buffer}
    (hparse : parseRequest ctx b = some (.complete, ctx1, b1)) (hq : ctx1.request = r1.request) :
    r1.head.request.hasLength ∧ r1.LengthRead := by
  obtain ⟨p, hlf, -, hst, hreq⟩ := two_head_end r1 r2 hs
  have hlt := two_length_lt r1 r2
  have hne : r1.body ++ r2.bytes ≠ [] :=
    List.append_ne_nil_of_right_ne_nil _ (List.length_pos_iff.mp r2.bytes_pos)
  have hlen : r1.head.request.hasLength := by
    by_contra hno
    have hn : (Scan.init.feed p).request.bodyBytes = npos := by
      rw [hreq, HTTPRequest.bodyBytes, if_neg hno]
    have h1 := r1.bytes_length_lt
    have h2 := r2.bytes_length_lt
    obtain ⟨ctx', hbody, -⟩ := parseRequest_bodyPart h hb hlf hst rfl hne hlt (by
      rw [hn, WireRequest.bytes, List.length_append, List.length_append]
      unfold npos sizeTop
      omega)
    rw [hparse] at hbody
    cases hbody
  refine ⟨hlen, ?_⟩
  by_contra hno
  have hempty : r1.body = [] := by
    by_contra hbody
    exact hno (r1.lengthRead_of_body hbody)
  rw [r1.lengthRead_of_no_body hempty, not_not, ← hreq] at hno
  apply taken_is_body h hb hlf hst hlt hne hno.2 hparse
  rw [hq, hreq, WireRequest.request, hempty, HTTPRequest.appendBody_nil]

end TwoRequests

/-- Of two requests in the buffer each call takes exactly one when the first declares its length,
`atoi` reads the lengths of both, and the bytes that the write-back puts over the body of the first
are the bytes that stand there. -/
theorem parse_pipelined_iff (r1 r2 : WireRequest) (ctx : HTTPContext)
    (hctx : ctx = .new ∨ ∃ c : HTTPContext, ctx = c.reset) (b : Buffer) (hb : b.Wf)
    (hs : b.toString = r1.bytes ++ r2.bytes) :
    Pipelined ctx b r1 r2 ↔ FirstIntact b r1 r2 ∧ r2.LengthRead := by
  have h : Resumes ctx Scan.init := by
    rcases hctx with rfl | ⟨c, rfl⟩
    · exact resumes_new
    · exact resumes_reset c
  rw [Pipelined]
  simp only [alone_iff]
  constructor
  · intro ⟨ctx1, b1, hparse, hq, hstr, hsecond⟩
    obtain ⟨hlen, hread⟩ := parse_first_only r1 r2 h hb hs hparse hq
    obtain ⟨ctx', b', hparse', hiff, hwf, -⟩ := parse_first r1 r2 h hb hs hlen hread
    rw [hparse] at hparse'
    cases hparse'
    simp only [← alone_iff] at hsecond
    exact ⟨⟨hlen, hread, hiff.mp hq⟩, (parse_second_iff r2 ctx1 hwf hstr).mp hsecond⟩
  · intro ⟨⟨hlen, hread, hover⟩, hread2⟩
    obtain ⟨ctx1, b1, hparse, hiff, hwf, hstr⟩ := parse_first r1 r2 h hb hs hlen hread
    have hsecond := (parse_second_iff r2 ctx1 hwf hstr).mpr hread2
    simp only [alone_iff] at hsecond
    exact ⟨ctx1, b1, hparse, hiff.mpr hover, hstr, hsecond⟩

theorem parse_pipelined_empty :
    Pipelined .new (Buffer.default.append (WireRequest.empty.bytes ++ WireRequest.hello.bytes))
      .empty .hello :=
  (parse_pipelined_iff .empty .hello .new (.inl rfl) _
    (Buffer.default.append_spec Buffer.default_wf _).1
    (by simpa using (Buffer.default.append_spec Buffer.default_wf _).2.1)).mpr
    (by decide +kernel)

/-- A first request without a length takes the second one for its body, and goes on waiting. A
first request with a body has it partly overwritten by the second one. -/
theorem two_requests_lost :
    ¬Pipelined .new (Buffer.default.append (WireRequest.bare.bytes ++ WireRequest.bare.bytes))
        .bare .bare ∧
      ¬Pipelined .new
        (Buffer.default.append (WireRequest.hello.bytes ++ WireRequest.helloWorld.bytes))
        .hello .helloWorld := by
  constructor
  · intro ⟨ctx1, b1, hparse, _⟩
    have hstate : (parseRequest .new (Buffer.default.append
        (WireRequest.bare.bytes ++ WireRequest.bare.bytes))).map Prod.fst = some .body := by
      decide +kernel
    simp [hparse] at hstate
  · intro ⟨ctx1, b1, hparse, hq, _⟩
    have hbody : (parseRequest .new (Buffer.default.append
        (WireRequest.hello.bytes ++ WireRequest.helloWorld.bytes))).map (·.2.1.request.body) =
        some (bytes "\nhell") := by decide +kernel
    rw [alone_iff] at hq
    rw [hparse, Option.map_some, hq] at hbody
    exact absurd hbody (by decide)

end MuduoServer
