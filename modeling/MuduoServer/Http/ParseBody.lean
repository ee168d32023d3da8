import MuduoServer.Http.ParseRefinement

namespace MuduoServer

open HTTPContext

namespace HTTPRequest

/-- The head has a `Content-Length` line. -/
def hasLength (q : HTTPRequest) : Prop := q.headers.lookup (bytes "Content-Length") ≠ none

instance (q : HTTPRequest) : Decidable q.hasLength := inferInstanceAs (Decidable (¬_))

/-- What `atoi` makes of the last `Content-Length` value. -/
def declared (q : HTTPRequest) : Int := atoi (q.getHeaderByKey (bytes "Content-Length"))

/-- The content length with which the body of the request is begun. -/
def bodyBytes (q : HTTPRequest) : Nat := if q.hasLength then toSizeT q.declared else npos

/-- The state after the head, `more` telling whether the code sees more data. -/
def afterHead (q : HTTPRequest) (more : Prop) [Decidable more] : ParseState :=
  if more ∨ (q.hasLength ∧ q.bodyBytes ≠ 0) then .body else .complete

end HTTPRequest

theorem endOfHead_eq (size : Nat) (l : Locals) (hl : l.ctx.contentLength = npos) :
    endOfHead size l = { l with ctx := { l.ctx with
      state := l.ctx.request.afterHead (l.cur + 1 < (size : Int))
      contentLength := l.ctx.request.bodyBytes } } := by
  unfold endOfHead HTTPRequest.afterHead HTTPRequest.bodyBytes HTTPRequest.declared
  by_cases hlen : l.ctx.request.hasLength
  · have hlook : l.ctx.request.headers.lookup (bytes "Content-Length") ≠ none := hlen
    rw [if_pos hlook]
    simp only [hlen, if_true, true_and, Nat.not_lt_zero, if_false]
    by_cases hmore : l.cur + 1 < (size : Int)
    · simp only [hmore, if_true, true_or, Locals.goto]
    · by_cases hn : toSizeT (atoi (l.ctx.request.getHeaderByKey (bytes "Content-Length"))) = 0 <;>
        simp only [hmore, hn, if_true, if_false, false_or, ne_eq, not_true, not_false_iff,
          Locals.goto]
  · have hlook : ¬l.ctx.request.headers.lookup (bytes "Content-Length") ≠ none := hlen
    rw [if_neg hlook]
    by_cases hmore : l.cur + 1 < (size : Int) <;>
      simp only [hmore, hlen, if_true, if_false, true_or, false_or, false_and, Locals.goto, ← hl]

/-- The locals at the first byte after the head: `pre` is the text up to it. -/
structure AtBody (text extra : Bytes) (l : Locals) : Prop where
  place : ∃ pre : Bytes, text = pre ++ extra ∧ l.cur = pre.length ∧ l.start = pre.length

/-- The locals past the line feed of the blank line. -/
def Locals.pastHead (l : Locals) (q : HTTPRequest) (size : Nat) : Locals :=
  { l with
    ctx := { l.ctx with
      state := q.afterHead (l.cur + 1 < (size : Int))
      contentLength := q.bodyBytes }
    start := l.cur + 1
    cur := l.cur + 1 }

theorem parseLoop_endOfHead {t : Text} {extra : Bytes} {l : Locals} {s : Scan}
    (h : Tracks (t.bytes l.buf) (LF :: extra) l s) (hs : s.state = .crLfCr) (size fuel : Nat) :
    parseLoop t size (fuel + 1) l = parseLoop t size fuel (l.pastHead s.request size) ∧
      AtBody (t.bytes l.buf) extra (l.pastHead s.request size) := by
  obtain ⟨hlt, hget⟩ := h.cur_lt
  have hstate : l.ctx.state = .crLfCr := h.state.trans hs
  have hun : l.ctx.state.unfinished := by rw [hstate]; rfl
  refine ⟨?_, ?_⟩
  · have hchar : parseChar t size (t.bytes l.buf).length l LF =
        some (endOfHead size l).startNext := by
      rw [parseChar]
      rw [hstate]
      rfl
    rw [parseLoop_succ size fuel hun hlt hget, hchar, Option.bind_some,
      endOfHead_eq size l h.contentLength, h.request]
    rfl
  · obtain ⟨pre, ht, hc, -, -⟩ := h.place
    refine ⟨pre ++ s.word ++ [LF], ?_, ?_, ?_⟩
    · simp [ht]
    all_goals
      simp only [Locals.pastHead, hc, List.length_append, List.length_singleton]
      omega

/-- The loop over a chunk in which the head ends, up to the `extra` bytes after it. -/
theorem loop_endOfHead {ctx : HTTPContext} {s : Scan} (h : Resumes ctx s) {b : Buffer}
    (hb : b.Wf) {cs extra : Bytes} (hcs : b.toString = cs ++ LF :: extra)
    (hs : (s.feed cs).state = .crLfCr) :
    ∃ l : Locals, AtBody ((enter ctx b).1.bytes l.buf) extra l ∧ l.buf = b.retrieveAll ∧
      l.cur = (s.word.length + cs.length + 1 : Nat) ∧
      l.ctx.request = (s.feed cs).request ∧ l.ctx.contentLength = (s.feed cs).request.bodyBytes ∧
      l.ctx.state = (s.feed cs).request.afterHead (s.word.length < extra.length) ∧
      ∀ fuel, parseLoop (enter ctx b).1 b.readableBytes (cs.length + (fuel + 1)) (enter ctx b).2 =
        parseLoop (enter ctx b).1 b.readableBytes fuel l := by
  obtain ⟨hbuf, hcur, htext, htr⟩ := enter_tracks h b
  have hsize : b.readableBytes = cs.length + 1 + extra.length := by
    rw [← b.toString_length hb, hcs, List.length_append, List.length_cons]
    omega
  have hin : (s.feed cs).state.inHead := by rw [hs]; rfl
  rw [← hbuf, hcs] at htr
  obtain ⟨l1, hb1, htr1, hloop1⟩ := parseLoop_tracks (enter ctx b).1 b.readableBytes cs
    (LF :: extra) (enter ctx b).2 s htr h.ok hin
  rw [← hb1] at htr1
  have hat := (parseLoop_endOfHead htr1 hs b.readableBytes 0).2
  have hcur1 : l1.cur = (s.word.length + cs.length : Nat) := by
    obtain ⟨pre, ht, hc, -, -⟩ := htr1.place
    have hlen := congrArg List.length ht
    rw [hb1, hbuf, htext, hcs] at hlen
    simp only [List.length_append, List.length_cons] at hlen
    omega
  have hmore : (l1.cur + 1 < (b.readableBytes : Int)) ↔ s.word.length < extra.length := by
    rw [hcur1, hsize]
    omega
  refine ⟨l1.pastHead (s.feed cs).request b.readableBytes, hat, hb1.trans hbuf, ?_, htr1.request,
    rfl, ?_, fun fuel => ?_⟩
  · simp only [Locals.pastHead, hcur1]
    omega
  · simp only [Locals.pastHead, HTTPRequest.afterHead, hmore]
  · rw [hloop1, (parseLoop_endOfHead htr1 hs b.readableBytes fuel).1]

/-- A chunk in which the head ends: what is left to do with the `extra` bytes after it. -/
theorem parseRequest_endOfHead {ctx : HTTPContext} {s : Scan} (h : Resumes ctx s) {b : Buffer}
    (hb : b.Wf) {cs extra : Bytes} (hcs : b.toString = cs ++ LF :: extra)
    (hs : (s.feed cs).state = .crLfCr) :
    ∃ l : Locals, AtBody ((enter ctx b).1.bytes l.buf) extra l ∧ l.buf = b.retrieveAll ∧
      l.cur = (s.word.length + cs.length + 1 : Nat) ∧
      l.ctx.request = (s.feed cs).request ∧ l.ctx.contentLength = (s.feed cs).request.bodyBytes ∧
      l.ctx.state = (s.feed cs).request.afterHead (s.word.length < extra.length) ∧
      parseRequest ctx b =
        (parseLoop (enter ctx b).1 (cs.length + 1 + extra.length) extra.length l).bind
          (finish (enter ctx b).1) := by
  obtain ⟨hbuf, hcur, htext, -⟩ := enter_tracks h b
  obtain ⟨l, hat, hlbuf, hlcur, hreq, hn, hstate, hloop⟩ := loop_endOfHead h hb hcs hs
  have hlen : b.toString.length = cs.length + (extra.length + 1) := by
    rw [hcs, List.length_append, List.length_cons]
  have hsize : b.readableBytes = cs.length + 1 + extra.length := by
    rw [← b.toString_length hb, hlen]
    omega
  refine ⟨l, hat, hlbuf, hlcur, hreq, hn, hstate, ?_⟩
  rw [parseRequest_eq hbuf hcur htext, hlen, hloop, hsize]

/-- The loop stops at the end of the text and outside the unfinished states. -/
theorem parseLoop_stop {t : Text} {l : Locals} (size fuel : Nat)
    (h : l.ctx.state.unfinished = false ∨ (t.bytes l.buf).length ≤ l.cur) :
    parseLoop t size fuel l = some l := by
  cases fuel with
  | zero => rfl
  | succ fuel =>
    rw [parseLoop, if_neg]
    intro hrun
    obtain ⟨hun, hlt⟩ := hrun
    rcases h with h | h
    · simp [h] at hun
    · omega

theorem finish_complete {t : Text} {l : Locals} (h : l.ctx.state = .complete) :
    finish t l = some (.complete, l.ctx, l.buf) := by
  simp [finish, saveSnapshot, h, ParseState.unfinished]

/-- Outside the unfinished states `parseRequest` only empties the buffer. -/
theorem parseRequest_finished {ctx : HTTPContext} (h : ctx.state.unfinished = false) (b : Buffer) :
    parseRequest ctx b = some (ctx.state, ctx, b.retrieveAll) := by
  have hstop : (enter ctx b).2.ctx.state.unfinished = false := by rw [enter_ctx, h]
  rw [parseRequest_loop, parseLoop_stop _ _ (.inl hstop), Option.bind_some, finish, saveSnapshot,
    hstop, enter_ctx, enter_buf]
  rfl

/-- A context between two calls of `parseRequest` that waits for `m` more bytes of the body. -/
structure InBody (ctx : HTTPContext) (q : HTTPRequest) (m : Nat) : Prop where
  state : ctx.state = .body
  request : ctx.request = q
  contentLength : ctx.contentLength = m
  saved : ctx.snapshot.parseState = .body
  lastRequest : ctx.snapshot.lastRequest = []

theorem finish_body {t : Text} {l : Locals} (h : l.ctx.state = .body) :
    ∃ ctx, finish t l = some (.body, ctx, l.buf) ∧
      InBody ctx l.ctx.request l.ctx.contentLength := by
  refine ⟨{ l.ctx with snapshot := ⟨[], .body, 0⟩ }, ?_, h, rfl, rfl, rfl, rfl⟩
  have hun : ParseState.body.unfinished = true := rfl
  simp [finish, saveSnapshot, h, hun]

/-- One round in the body, as a computation on the number `left` of bytes the code sees. -/
theorem parseLoop_body {t : Text} {extra : Bytes} {l : Locals} (size : Nat)
    (hat : AtBody (t.bytes l.buf) extra l) (hs : l.ctx.state = .body) (he : extra ≠ []) :
    parseLoop t size extra.length l =
      (bodyStep t size (t.bytes l.buf).length l).bind
        fun l' => parseLoop t size (extra.length - 1) l'.advance := by
  obtain ⟨c, cs, rfl⟩ := List.exists_cons_of_ne_nil he
  obtain ⟨pre, ht, hc, -⟩ := hat.place
  have hlt : l.cur < (t.bytes l.buf).length := by
    rw [hc, ht, List.length_append, List.length_cons]
    omega
  have hget : (t.bytes l.buf)[l.cur.toNat]? = some c := by
    rw [hc, ht, Int.toNat_natCast, List.getElem?_append_right (le_refl _), Nat.sub_self]
    rfl
  have hchar : parseChar t size (t.bytes l.buf).length l c =
      bodyStep t size (t.bytes l.buf).length l := by
    rw [parseChar]
    rw [hs]
  rw [List.length_cons, parseLoop_succ size _ (by rw [hs]; rfl) hlt hget, hchar]
  rfl

/-- A round in the body adds to it, and ends the request or goes to the end of the text. -/
theorem bodyStep_cases {t : Text} {size : Nat} {fin : Int} {l l' : Locals}
    (h : bodyStep t size fin l = some l') :
    ∃ body, l'.ctx.request = l.ctx.request.appendBody body ∧
      (l'.ctx.state = .complete ∨
        l'.ctx.state = l.ctx.state ∧ l'.cur = fin - 1 ∧ l'.buf = l.buf) := by
  simp only [bodyStep, Option.bind_eq_bind, Option.pure_def] at h
  split_ifs at h <;> simp only [Option.bind_eq_some_iff, Option.some.injEq] at h
  · obtain ⟨-, rfl, body, -, rfl⟩ := h
    exact ⟨body, rfl, .inr ⟨rfl, rfl, rfl⟩⟩
  · obtain ⟨buf, -, -, rfl, body, -, rfl⟩ := h
    exact ⟨body, rfl, .inl rfl⟩
  · obtain ⟨-, rfl, body, -, rfl⟩ := h
    exact ⟨body, rfl, .inl rfl⟩

/-- After a head, a call that returns has some body for its request, which is complete, or awaited
with the buffer left empty. -/
theorem body_cases {t : Text} {extra : Bytes} {l : Locals} {size : Nat}
    (hat : AtBody (t.bytes l.buf) extra l) (hs : l.ctx.state = .body ∨ l.ctx.state = .complete)
    {st : ParseState} {ctx : HTTPContext} {b : Buffer}
    (h : (parseLoop t size extra.length l).bind (finish t) = some (st, ctx, b)) :
    ∃ body, ctx.request = l.ctx.request.appendBody body ∧
      (ctx.state = .complete ∨
        (∃ m, InBody ctx (l.ctx.request.appendBody body) m) ∧ b = l.buf) := by
  have hbody : ∀ l' : Locals, l'.ctx.state = .body → finish t l' = some (st, ctx, b) →
      (∃ m, InBody ctx l'.ctx.request m) ∧ b = l'.buf := by
    intro l' hst hfin
    obtain ⟨ctx', hfin', hin⟩ := finish_body (t := t) hst
    rw [hfin] at hfin'
    cases hfin'
    exact ⟨⟨_, hin⟩, rfl⟩
  have hdone : ∀ l' : Locals, l'.ctx.state = .complete → finish t l' = some (st, ctx, b) →
      ctx = l'.ctx := by
    intro l' hst hfin
    rw [finish_complete hst] at hfin
    cases hfin
    rfl
  rcases hs with hs | hs
  · by_cases he : extra = []
    · rw [he, List.length_nil, parseLoop, Option.bind_some] at h
      obtain ⟨⟨m, hin⟩, rfl⟩ := hbody l hs h
      exact ⟨[], by rw [hin.request, HTTPRequest.appendBody_nil],
        .inr ⟨⟨m, by rwa [HTTPRequest.appendBody_nil]⟩, rfl⟩⟩
    · rw [parseLoop_body size hat hs he, Option.bind_assoc] at h
      obtain ⟨l', hstep, hrest⟩ := Option.bind_eq_some_iff.mp h
      obtain ⟨body, hreq, hst | ⟨hst, hcur, hbuf⟩⟩ := bodyStep_cases hstep
      · rw [parseLoop_stop _ _ (.inl (show l'.advance.ctx.state.unfinished = false by
          rw [show l'.advance.ctx = l'.ctx from rfl, hst]; rfl)), Option.bind_some] at hrest
        obtain rfl := hdone l'.advance hst hrest
        exact ⟨body, hreq, .inl hst⟩
      · rw [parseLoop_stop _ _ (.inr (by
          rw [Locals.advance_buf, hbuf, Locals.advance]
          dsimp only
          omega)), Option.bind_some] at hrest
        obtain ⟨⟨m, hin⟩, rfl⟩ := hbody l'.advance (hst.trans hs) hrest
        have hin' : InBody ctx (l.ctx.request.appendBody body) m := hreq ▸ hin
        exact ⟨body, hin'.request, .inr ⟨⟨m, hin'⟩, hbuf⟩⟩
  · rw [parseLoop_stop _ _ (.inl (by rw [hs]; rfl)), Option.bind_some] at h
    obtain rfl := hdone l hs h
    exact ⟨[], by rw [HTTPRequest.appendBody_nil], .inl hs⟩

section Body

variable {t : Text} {extra : Bytes} {l : Locals} {size left : Nat}
  (hat : AtBody (t.bytes l.buf) extra l) (hs : l.ctx.state = .body) (he : extra ≠ [])
  (hleft : toSizeT ((size : Int) - l.cur) = left)

include hat in
theorem AtBody.string_take (n : Nat) (hn : n ≤ extra.length) :
    t.string l.buf l.start (l.start + n) = some (extra.take n) := by
  obtain ⟨pre, ht, -, hst⟩ := hat.place
  have h := Slice.range?_middle pre extra [] 0 n (Nat.zero_le _) hn
  simp only [List.append_nil, List.drop_zero, Nat.add_zero, Nat.cast_add] at h
  rw [Text.string, ht, hst, h]

include hat hs he hleft in
/-- More of the body is to come. -/
theorem body_more (hc : left < l.ctx.contentLength) (hin : left ≤ extra.length) :
    ∃ ctx, (parseLoop t size extra.length l).bind (finish t) = some (.body, ctx, l.buf) ∧
      InBody ctx (l.ctx.request.appendBody (extra.take left)) (l.ctx.contentLength - left) := by
  have hstr := hat.string_take left hin
  have hstep : bodyStep t size (t.bytes l.buf).length l = some { l with
      ctx := { l.ctx with
        contentLength := l.ctx.contentLength - left
        request := l.ctx.request.appendBody (extra.take left) }
      cur := (t.bytes l.buf).length - 1 } := by
    simp only [bodyStep, hleft, gt_iff_lt, if_pos hc, Option.pure_def, Option.bind_eq_bind,
      Option.bind_some, hstr, Locals.onRequest]
  rw [parseLoop_body size hat hs he, hstep, Option.bind_some, parseLoop_stop, Option.bind_some]
  · exact finish_body hs
  · right
    simp [Locals.advance]

include hat hs he hleft in
/-- The text ends with the body. -/
theorem body_exact (hc : l.ctx.contentLength = left) (hin : left ≤ extra.length) :
    ∃ ctx, (parseLoop t size extra.length l).bind (finish t) = some (.complete, ctx, l.buf) ∧
      ctx.request = l.ctx.request.appendBody (extra.take left) := by
  have hstr := hat.string_take left hin
  have hstep : bodyStep t size (t.bytes l.buf).length l = some { l with
      ctx := { l.ctx with
        state := .complete
        request := l.ctx.request.appendBody (extra.take left) } } := by
    simp only [bodyStep, hleft, hc, gt_iff_lt, lt_irrefl, if_false, Option.pure_def,
      Option.bind_eq_bind, Option.bind_some, Locals.goto, hstr, Locals.onRequest]
  rw [parseLoop_body size hat hs he, hstep, Option.bind_some, parseLoop_stop, Option.bind_some]
  · exact ⟨_, finish_complete rfl, rfl⟩
  · exact .inl rfl

include hat hs he hleft in
/-- The text goes on after the body: the surplus is written back before the body is read. -/
theorem body_surplus (hc : l.ctx.contentLength < left) :
    (parseLoop t size extra.length l).bind (finish t) =
      (t.appendTo l.buf (l.start + l.ctx.contentLength) (left - l.ctx.contentLength)).bind
        fun buf => (t.string buf l.start (l.start + l.ctx.contentLength)).map fun body =>
          (.complete, { l.ctx with
            state := .complete, request := l.ctx.request.appendBody body }, buf) := by
  have hnot : ¬left < l.ctx.contentLength := by omega
  rw [parseLoop_body size hat hs he]
  simp only [bodyStep, hleft, gt_iff_lt, if_neg hnot, if_pos hc, Option.pure_def,
    Option.bind_eq_bind, Locals.goto]
  cases t.appendTo l.buf (l.start + l.ctx.contentLength) (left - l.ctx.contentLength) with
  | none => rfl
  | some buf =>
    simp only [Option.bind_some]
    cases t.string buf l.start (l.start + l.ctx.contentLength) with
    | none => rfl
    | some body =>
      simp only [Option.bind_some, Option.map_some, Locals.onRequest]
      rw [parseLoop_stop _ _ (.inl rfl), Option.bind_some]
      exact finish_complete rfl

end Body

/-- What was carried over inside a head is joined with the chunk. -/
theorem enter_combined {ctx : HTTPContext} {s : Scan} (h : Resumes ctx s)
    (hs : s.state ≠ .start) (b : Buffer) : ∃ text, (enter ctx b).1 = .combined text := by
  have hcond : ParseState.start.value < ctx.snapshot.parseState.value := by
    rw [h.saved]
    have hin := h.inHead
    revert hs hin
    cases s.state <;> decide
  rw [enter]
  rw [if_pos hcond]
  exact ⟨_, rfl⟩

section HeadPiece

variable {ctx : HTTPContext} {s : Scan} (h : Resumes ctx s) {b : Buffer} (hb : b.Wf)
  {cs extra : Bytes} (hcs : b.toString = cs ++ LF :: extra) (hs : (s.feed cs).state = .crLfCr)

include h hb hcs hs

/-- The head ends with the chunk, and nothing is to follow it. -/
theorem parseRequest_bodiless (he : extra = [])
    (hq : ¬((s.feed cs).request.hasLength ∧ (s.feed cs).request.bodyBytes ≠ 0)) :
    ∃ ctx', parseRequest ctx b = some (.complete, ctx', b.retrieveAll) ∧
      ctx'.request = (s.feed cs).request := by
  obtain ⟨l, -, hbuf, -, hreq, -, hstate, heq⟩ := parseRequest_endOfHead h hb hcs hs
  subst he
  simp only [HTTPRequest.afterHead, List.length_nil, Nat.not_lt_zero, false_or, if_neg hq] at hstate
  refine ⟨l.ctx, ?_, hreq⟩
  rw [heq, List.length_nil, parseLoop, Option.bind_some, finish_complete hstate, hbuf]

/-- The head ends with the chunk, and a body is to follow it. -/
theorem parseRequest_awaitBody (he : extra = []) (hlen : (s.feed cs).request.hasLength)
    (hq : (s.feed cs).request.bodyBytes ≠ 0) :
    ∃ ctx', parseRequest ctx b = some (.body, ctx', b.retrieveAll) ∧
      InBody ctx' (s.feed cs).request (s.feed cs).request.bodyBytes := by
  obtain ⟨l, -, hbuf, -, hreq, hn, hstate, heq⟩ := parseRequest_endOfHead h hb hcs hs
  subst he
  have hbody : l.ctx.state = .body := by
    rw [hstate, HTTPRequest.afterHead, if_pos (.inr ⟨hlen, hq⟩)]
  obtain ⟨ctx', hfin, hin⟩ := finish_body (t := (enter ctx b).1) hbody
  rw [hreq, hn] at hin
  refine ⟨ctx', ?_, hin⟩
  rw [heq, List.length_nil, parseLoop, Option.bind_some, hfin, hbuf]

/-- Where nothing of a word was carried over, `left` counts the bytes after the head. -/
theorem parseRequest_left (hw : s.word = []) (he : extra ≠ []) (hlt : extra.length < sizeTop) :
    ∃ l : Locals, AtBody ((enter ctx b).1.bytes l.buf) extra l ∧ l.buf = b.retrieveAll ∧
      l.ctx.state = .body ∧ l.ctx.request = (s.feed cs).request ∧
      l.ctx.contentLength = (s.feed cs).request.bodyBytes ∧
      toSizeT (((cs.length + 1 + extra.length : Nat) : Int) - l.cur) = extra.length ∧
      parseRequest ctx b =
        (parseLoop (enter ctx b).1 (cs.length + 1 + extra.length) extra.length l).bind
          (finish (enter ctx b).1) := by
  obtain ⟨l, hat, hbuf, hcur, hreq, hn, hstate, heq⟩ := parseRequest_endOfHead h hb hcs hs
  have hpos : 0 < extra.length := List.length_pos_iff.mpr he
  refine ⟨l, hat, hbuf, ?_, hreq, hn, ?_, heq⟩
  · rw [hstate, HTTPRequest.afterHead, hw, List.length_nil, if_pos (.inl hpos)]
  · have hleft : ((cs.length + 1 + extra.length : Nat) : Int) - l.cur = extra.length := by
      rw [hcur, hw, List.length_nil]
      omega
    rw [hleft, toSizeT_natCast _ hlt]

/-- Part of the body follows the head in the chunk. -/
theorem parseRequest_bodyPart (hw : s.word = []) (he : extra ≠ []) (hlt : extra.length < sizeTop)
    (hn : extra.length < (s.feed cs).request.bodyBytes) :
    ∃ ctx', parseRequest ctx b = some (.body, ctx', b.retrieveAll) ∧
      InBody ctx' ((s.feed cs).request.appendBody extra)
        ((s.feed cs).request.bodyBytes - extra.length) := by
  obtain ⟨l, hat, hbuf, hstate, hreq, hlen, hleft, heq⟩ := parseRequest_left h hb hcs hs hw he hlt
  obtain ⟨ctx', hfin, hin⟩ := body_more hat hstate he hleft (by rw [hlen]; exact hn) (le_refl _)
  rw [hreq, hlen, List.take_length] at hin
  exact ⟨ctx', by rw [heq, hfin, hbuf], hin⟩

/-- Exactly the body follows the head in the chunk. -/
theorem parseRequest_bodyWhole (hw : s.word = []) (he : extra ≠ []) (hlt : extra.length < sizeTop)
    (hn : (s.feed cs).request.bodyBytes = extra.length) :
    ∃ ctx', parseRequest ctx b = some (.complete, ctx', b.retrieveAll) ∧
      ctx'.request = (s.feed cs).request.appendBody extra := by
  obtain ⟨l, hat, hbuf, hstate, hreq, hlen, hleft, heq⟩ := parseRequest_left h hb hcs hs hw he hlt
  obtain ⟨ctx', hfin, hq⟩ := body_exact hat hstate he hleft (by rw [hlen]; exact hn) (le_refl _)
  rw [hreq, List.take_length] at hq
  exact ⟨ctx', by rw [heq, hfin, hbuf], hq⟩

/-- Where part of a word was carried over, `left` misses as many bytes of the body, or wraps: the
call fails, or waits for more bytes than the body still has. -/
theorem parseRequest_split (hw : s.word ≠ []) (he : extra ≠ [])
    (hlen : (s.feed cs).request.hasLength)
    (hn : extra.length ≤ (s.feed cs).request.bodyBytes)
    (hfit : s.word.length + (s.feed cs).request.bodyBytes < sizeTop) :
    parseRequest ctx b = none ∨
      ∃ ctx' q' m, parseRequest ctx b = some (.body, ctx', b.retrieveAll) ∧ InBody ctx' q' m ∧
        (s.feed cs).request.bodyBytes - extra.length < m := by
  obtain ⟨l, hat, hbuf, hcur, hreq, hlenl, hstate, heq⟩ := parseRequest_endOfHead h hb hcs hs
  have hpos : 0 < extra.length := List.length_pos_iff.mpr he
  have hwpos : 0 < s.word.length := List.length_pos_iff.mpr hw
  have hbody : l.ctx.state = .body := by
    rw [hstate, HTTPRequest.afterHead, if_pos (.inr ⟨hlen, by omega⟩)]
  have hleft : ((cs.length + 1 + extra.length : Nat) : Int) - l.cur =
      (extra.length : Int) - s.word.length := by
    rw [hcur]
    omega
  rw [heq]
  by_cases hle : s.word.length ≤ extra.length
  · have hto : toSizeT (((cs.length + 1 + extra.length : Nat) : Int) - l.cur) =
        extra.length - s.word.length := by
      rw [hleft, ← Nat.cast_sub hle, toSizeT_natCast _ (by omega)]
    obtain ⟨ctx', hfin, hin⟩ := body_more hat hbody he hto (by rw [hlenl]; omega) (by omega)
    rw [hlenl] at hin
    exact .inr ⟨ctx', _, _, by rw [hfin, hbuf], hin, by omega⟩
  · have hto : toSizeT (((cs.length + 1 + extra.length : Nat) : Int) - l.cur) =
        sizeTop - (s.word.length - extra.length) := by
      rw [hleft, ← toSizeT_neg _ (by omega) (by omega)]
      congr 1
      omega
    left
    rw [body_surplus hat hbody he hto (by rw [hlenl]; omega)]
    have hout : (enter ctx b).1.appendTo l.buf (l.start + l.ctx.contentLength)
        (sizeTop - (s.word.length - extra.length) - l.ctx.contentLength) = none := by
      obtain ⟨text, htext⟩ := enter_combined h (fun hs => hw (h.ok.closed (.inl hs))) b
      obtain ⟨pre, ht, hc, hst⟩ := hat.place
      rw [htext] at ht ⊢
      have hend : (text.length : Int) < l.start + l.ctx.contentLength +
          (sizeTop - (s.word.length - extra.length) - l.ctx.contentLength : Nat) := by
        rw [show text = pre ++ extra from ht, hst, hlenl, List.length_append]
        omega
      rw [Text.appendTo, Slice.range?_eq_none _ _ _ hend]
      rfl
    rw [hout]
    rfl

end HeadPiece

/-- A chunk that comes while the body is read. -/
theorem enter_inBody {ctx : HTTPContext} {q : HTTPRequest} {m : Nat} (h : InBody ctx q m)
    (b : Buffer) :
    enter ctx b = (.combined b.toString, ⟨ctx, b.retrieveAll, 0, 0, ctx.snapshot.colon⟩) := by
  have hcond : ParseState.start.value < ctx.snapshot.parseState.value := by rw [h.saved]; decide
  rw [enter]
  rw [if_pos hcond, h.lastRequest]
  rfl

section BodyPiece

variable {ctx : HTTPContext} {q : HTTPRequest} {m : Nat} (h : InBody ctx q m) {b : Buffer}
  (hb : b.Wf) (hlt : b.toString.length < sizeTop)

include h in
/-- Inside the body the loop begins with the chunk. -/
theorem parseRequest_bodyLoop :
    ∃ l : Locals, AtBody b.toString b.toString l ∧ l.buf = b.retrieveAll ∧ l.ctx.state = .body ∧
      l.ctx.request = q ∧ l.ctx.contentLength = m ∧ l.cur = 0 ∧
      parseRequest ctx b =
        (parseLoop (.combined b.toString) b.readableBytes b.toString.length l).bind
          (finish (.combined b.toString)) := by
  have hent := enter_inBody h b
  refine ⟨⟨ctx, b.retrieveAll, 0, 0, ctx.snapshot.colon⟩, ⟨[], rfl, rfl, rfl⟩, rfl, h.state,
    h.request, h.contentLength, rfl, ?_⟩
  rw [parseRequest_eq (by rw [hent]) (by rw [hent]; rfl)
    (show (enter ctx b).1.bytes b.retrieveAll = [] ++ b.toString by rw [hent]; rfl), hent]

include h hb hlt

/-- All of the chunk counts as `left`. -/
theorem parseRequest_inBody :
    ∃ l : Locals, AtBody b.toString b.toString l ∧ l.buf = b.retrieveAll ∧ l.ctx.state = .body ∧
      l.ctx.request = q ∧ l.ctx.contentLength = m ∧
      toSizeT ((b.readableBytes : Int) - l.cur) = b.toString.length ∧
      parseRequest ctx b =
        (parseLoop (.combined b.toString) b.readableBytes b.toString.length l).bind
          (finish (.combined b.toString)) := by
  obtain ⟨l, hat, hbuf, hstate, hreq, hlen, hcur, heq⟩ := parseRequest_bodyLoop h (b := b)
  refine ⟨l, hat, hbuf, hstate, hreq, hlen, ?_, heq⟩
  rw [hcur, ← b.toString_length hb, Int.sub_zero, toSizeT_natCast _ hlt]

theorem parseRequest_bodyMore (hne : b.toString ≠ []) (hm : b.toString.length < m) :
    ∃ ctx', parseRequest ctx b = some (.body, ctx', b.retrieveAll) ∧
      InBody ctx' (q.appendBody b.toString) (m - b.toString.length) := by
  obtain ⟨l, hat, hbuf, hstate, hreq, hlen, hleft, heq⟩ := parseRequest_inBody h hb hlt
  obtain ⟨ctx', hfin, hin⟩ := body_more (t := .combined b.toString) hat hstate hne hleft
    (by rw [hlen]; exact hm) (le_refl _)
  rw [hreq, hlen, List.take_length] at hin
  exact ⟨ctx', by rw [heq, hfin, hbuf], hin⟩

theorem parseRequest_bodyLast (hne : b.toString ≠ []) (hm : b.toString.length = m) :
    ∃ ctx', parseRequest ctx b = some (.complete, ctx', b.retrieveAll) ∧
      ctx'.request = q.appendBody b.toString := by
  obtain ⟨l, hat, hbuf, hstate, hreq, hlen, hleft, heq⟩ := parseRequest_inBody h hb hlt
  obtain ⟨ctx', hfin, hq⟩ := body_exact (t := .combined b.toString) hat hstate hne hleft
    (by rw [hlen, hm]) (le_refl _)
  rw [hreq, List.take_length] at hq
  exact ⟨ctx', by rw [heq, hfin, hbuf], hq⟩

end BodyPiece

end MuduoServer
