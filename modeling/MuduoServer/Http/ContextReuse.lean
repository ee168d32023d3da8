import MuduoServer.Http.Chunking

namespace MuduoServer

open HTTPContext

/-- Two contexts that differ only in what nothing reads: in `lastRequest__` and `colon__` while the
saved state is not past the first one. -/
structure HTTPContext.Alike (ctx ctx' : HTTPContext) : Prop where
  contentLength : ctx.contentLength = ctx'.contentLength
  state : ctx.state = ctx'.state
  request : ctx.request = ctx'.request
  saved : ctx.snapshot.parseState = ctx'.snapshot.parseState
  snapshot : ParseState.start.value < ctx.snapshot.parseState.value → ctx.snapshot = ctx'.snapshot

/-- The locals with another snapshot in the context. -/
def Locals.withSnapshot (sn : ParsingSnapshot) (l : Locals) : Locals :=
  { l with ctx := { l.ctx with snapshot := sn } }

namespace HTTPContext

theorem Alike.refl (ctx : HTTPContext) : Alike ctx ctx := ⟨rfl, rfl, rfl, rfl, fun _ => rfl⟩

theorem Alike.symm {ctx ctx' : HTTPContext} (h : Alike ctx ctx') : Alike ctx' ctx :=
  ⟨h.contentLength.symm, h.state.symm, h.request.symm, h.saved.symm,
    fun hs => (h.snapshot (by rwa [h.saved])).symm⟩

theorem alike_reset (ctx : HTTPContext) : Alike ctx.reset .new :=
  ⟨rfl, rfl, rfl, rfl, fun h => absurd h (lt_irrefl _)⟩

theorem endOfHead_snapshot (size : Nat) (l : Locals) (sn : ParsingSnapshot) :
    endOfHead size (l.withSnapshot sn) = (endOfHead size l).withSnapshot sn := by
  obtain ⟨⟨contentLength, state, request, old⟩, buf, start, cur, colon⟩ := l
  unfold endOfHead Locals.withSnapshot
  dsimp only
  split_ifs <;> rfl

theorem bodyStep_snapshot (t : Text) (size : Nat) (fin : Int) (l : Locals)
    (sn : ParsingSnapshot) :
    bodyStep t size fin (l.withSnapshot sn) =
      (bodyStep t size fin l).map (Locals.withSnapshot sn) := by
  obtain ⟨⟨contentLength, state, request, old⟩, buf, start, cur, colon⟩ := l
  unfold bodyStep Locals.withSnapshot
  dsimp only [Option.bind_eq_bind, Option.pure_def]
  split_ifs
  all_goals
    simp only [Option.bind_some, Option.map_bind, Function.comp_def]
    rfl

theorem parseChar_snapshot (t : Text) (size : Nat) (fin : Int) (l : Locals) (c : UInt8)
    (sn : ParsingSnapshot) :
    parseChar t size fin (l.withSnapshot sn) c =
      (parseChar t size fin l c).map (Locals.withSnapshot sn) := by
  have hbody := bodyStep_snapshot t size fin l sn
  have hend := endOfHead_snapshot size l sn
  rw [parseChar, parseChar]
  rw [show (l.withSnapshot sn).ctx.state = l.ctx.state from rfl]
  cases l.ctx.state with
  | body => exact hbody
  | crLfCr =>
    dsimp only
    rw [hend]
    split_ifs <;> rfl
  | _ =>
    dsimp only
    (try split_ifs) <;> try rfl
    all_goals
      simp only [Option.bind_eq_bind, Option.map_bind, Function.comp_def]
      rfl

theorem parseLoop_snapshot (t : Text) (size fuel : Nat) (l : Locals) (sn : ParsingSnapshot) :
    parseLoop t size fuel (l.withSnapshot sn) =
      (parseLoop t size fuel l).map (Locals.withSnapshot sn) := by
  induction fuel generalizing l with
  | zero => rfl
  | succ fuel ih =>
    by_cases hrun : l.ctx.state.unfinished ∧ l.cur < (t.bytes l.buf).length
    · have hrun' : (l.withSnapshot sn).ctx.state.unfinished ∧
          (l.withSnapshot sn).cur < (t.bytes (l.withSnapshot sn).buf).length := hrun
      rw [parseLoop, if_pos hrun', parseLoop, if_pos hrun]
      simp only [Option.bind_eq_bind, Option.map_bind]
      congr 1
      funext c
      rw [Function.comp_apply, Option.map_bind]
      exact (congrArg (Option.bind · _) (parseChar_snapshot t size _ l c sn)).trans (by
        rw [Option.bind_map]
        congr 1
        funext l'
        exact ih { l' with cur := l'.cur + 1 })
    · have hrun' : ¬((l.withSnapshot sn).ctx.state.unfinished ∧
          (l.withSnapshot sn).cur < (t.bytes (l.withSnapshot sn).buf).length) := hrun
      rw [parseLoop, if_neg hrun', parseLoop, if_neg hrun]
      rfl

/-- The loop writes nothing to the snapshot. -/
theorem parseLoop_keeps {t : Text} {size fuel : Nat} {l l' : Locals}
    (h : parseLoop t size fuel l = some l') : l'.ctx.snapshot = l.ctx.snapshot := by
  have hsame := parseLoop_snapshot t size fuel l l.ctx.snapshot
  have hl : l.withSnapshot l.ctx.snapshot = l := rfl
  rw [hl, h, Option.map_some, Option.some.injEq] at hsame
  exact congrArg (·.ctx.snapshot) hsame

/-- What is saved after the loop does not depend on what was saved before. -/
theorem finish_alike {t : Text} {l : Locals} {sn : ParsingSnapshot}
    (h : Alike l.ctx (l.withSnapshot sn).ctx) {st : ParseState} {ctx : HTTPContext} {b : Buffer}
    (hf : finish t l = some (st, ctx, b)) :
    ∃ ctx', finish t (l.withSnapshot sn) = some (st, ctx', b) ∧ Alike ctx ctx' := by
  by_cases hun : l.ctx.state.unfinished
  · have hsame : finish t (l.withSnapshot sn) = finish t l := by
      obtain ⟨⟨contentLength, state, request, old⟩, buf, start, cur, colon⟩ := l
      unfold finish saveSnapshot Locals.withSnapshot
      dsimp only at hun ⊢
      rw [hun]
      rfl
    exact ⟨ctx, hsame.trans hf, .refl ctx⟩
  · have hdone : ∀ l' : Locals, l'.ctx.state = l.ctx.state →
        finish t l' = some (l'.ctx.state, l'.ctx, l'.buf) := by
      intro l' hst
      rw [finish, saveSnapshot, hst]
      simp [hun, hst]
    rw [hdone l rfl] at hf
    cases hf
    exact ⟨_, hdone _ rfl, h⟩

/-- One call of `parseRequest`. -/
theorem parseRequest_alike {ctx ctx' : HTTPContext} (h : Alike ctx ctx') {b b1 : Buffer}
    {st : ParseState} {ctx1 : HTTPContext} (hparse : parseRequest ctx b = some (st, ctx1, b1)) :
    ∃ ctx1', parseRequest ctx' b = some (st, ctx1', b1) ∧ Alike ctx1 ctx1' := by
  have hctx : ctx' = { ctx with snapshot := ctx'.snapshot } := by
    obtain ⟨hn, hst, hreq, -, -⟩ := h
    rw [hn, hst, hreq]
  by_cases hs : ParseState.start.value < ctx.snapshot.parseState.value
  · have hsame : ctx' = ctx := by rw [hctx, ← h.snapshot hs]
    exact ⟨ctx1, by rw [hsame, hparse], .refl ctx1⟩
  · have hs' : ¬ParseState.start.value < ctx'.snapshot.parseState.value := by rwa [← h.saved]
    have hentry : enter ctx' b =
        ((enter ctx b).1, (enter ctx b).2.withSnapshot ctx'.snapshot) := by
      rw [enter, enter]
      rw [if_neg hs, if_neg hs']
      conv_lhs => rw [hctx]
      rfl
    rw [parseRequest_loop] at hparse ⊢
    obtain ⟨l, hloop, hfin⟩ := Option.bind_eq_some_iff.mp hparse
    have hkept := parseLoop_keeps hloop
    rw [enter_ctx] at hkept
    have hl : Alike l.ctx (l.withSnapshot ctx'.snapshot).ctx := by
      refine ⟨rfl, rfl, rfl, ?_, fun hl => absurd hl (by rwa [hkept])⟩
      rw [hkept]
      exact h.saved
    obtain ⟨ctx1', hfin', halike⟩ := finish_alike hl hfin
    refine ⟨ctx1', ?_, halike⟩
    have hloop' := parseLoop_snapshot (enter ctx b).1 b.readableBytes
      (((enter ctx b).1.bytes (enter ctx b).2.buf).length - (enter ctx b).2.cur.toNat)
      (enter ctx b).2 ctx'.snapshot
    rw [hloop, Option.map_some] at hloop'
    rw [hentry]
    exact (congrArg (Option.bind · _) hloop').trans hfin'

/-- A run over chunks. -/
theorem feedPieces_alike {ctx ctx' : HTTPContext} (h : Alike ctx ctx') {b b1 : Buffer}
    {pieces : List Bytes} {ss : List ParseState} {ctx1 : HTTPContext}
    (hfeed : feedPieces ctx b pieces = some (ss, ctx1, b1)) :
    ∃ ctx1', feedPieces ctx' b pieces = some (ss, ctx1', b1) ∧ Alike ctx1 ctx1' := by
  induction pieces generalizing ctx ctx' b ss with
  | nil =>
    cases hfeed
    exact ⟨ctx', rfl, h⟩
  | cons c cs ih =>
    obtain ⟨st, ctx2, b2, ss2, hparse, hrest, rfl⟩ := feedPieces_cons.mp hfeed
    obtain ⟨ctx2', hparse', h2⟩ := parseRequest_alike h hparse
    obtain ⟨ctx3', hrest', h3⟩ := ih h2 hrest
    exact ⟨ctx3', feedPieces_cons.mpr ⟨st, ctx2', b2, ss2, hparse', hrest', rfl⟩, h3⟩

/-- What can be seen of a run: the states returned, the request, and the buffer. -/
def observe (r : List ParseState × HTTPContext × Buffer) :
    List ParseState × HTTPRequest × Buffer :=
  (r.1, r.2.1.request, r.2.2)

theorem observe_alike {ctx ctx' : HTTPContext} (h : Alike ctx ctx') (b : Buffer)
    (pieces : List Bytes) :
    (feedPieces ctx b pieces).map observe = (feedPieces ctx' b pieces).map observe := by
  cases hfeed : feedPieces ctx b pieces with
  | none =>
    cases hfeed' : feedPieces ctx' b pieces with
    | none => rfl
    | some r =>
      obtain ⟨ss, ctx1, b1⟩ := r
      obtain ⟨ctx1', hother, -⟩ := feedPieces_alike h.symm hfeed'
      rw [hfeed] at hother
      cases hother
  | some r =>
    obtain ⟨ss, ctx1, b1⟩ := r
    obtain ⟨ctx1', hother, h1⟩ := feedPieces_alike h hfeed
    rw [hother]
    simp only [Option.map_some, observe, h1.request]

/-- After `reset` a run over chunks shows nothing of what the context has been through: it is that
of a new context. -/
theorem reset_forgets (ctx : HTTPContext) (b : Buffer) (pieces : List Bytes) :
    (feedPieces ctx.reset b pieces).map observe = (feedPieces .new b pieces).map observe :=
  observe_alike (alike_reset ctx) b pieces

end HTTPContext

end MuduoServer
