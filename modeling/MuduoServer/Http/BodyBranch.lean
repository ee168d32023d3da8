import MuduoServer.Http.ChunkStates

namespace MuduoServer

open HTTPContext

/-- A call of `parseRequest` runs the branch `BODY` with the locals `l`. -/
structure RunsBody (ctx : HTTPContext) (b : Buffer) (l : Locals) : Prop where
  round : ∃ n, parseLoop (enter ctx b).1 b.readableBytes n (enter ctx b).2 = some l
  state : l.ctx.state = .body
  more : l.cur < ((enter ctx b).1.bytes l.buf).length

/-- After one round in the body the loop has no other. -/
theorem body_rounds {t : Text} {size n : Nat} {l l' : Locals} (hs : l.ctx.state = .body)
    (h : parseLoop t size n l = some l') (hs' : l'.ctx.state = .body)
    (hmore : l'.cur < (t.bytes l'.buf).length) : l' = l := by
  cases n with
  | zero =>
    cases h
    rfl
  | succ n =>
    rw [parseLoop] at h
    split_ifs at h with hrun
    · obtain ⟨c, -, hrest⟩ := Option.bind_eq_some_iff.mp h
      obtain ⟨l1, hchar, hloop⟩ := Option.bind_eq_some_iff.mp hrest
      have hloop : parseLoop t size n l1.advance = some l' := hloop
      rw [parseChar] at hchar
      rw [hs] at hchar
      obtain ⟨-, -, hdone | ⟨-, hcur, hbuf⟩⟩ := bodyStep_cases hchar
      · rw [parseLoop_stop (l := l1.advance) _ _ (.inl (by
          rw [show l1.advance.ctx = l1.ctx from rfl, hdone]; rfl))] at hloop
        cases hloop
        exact absurd (hdone.symm.trans hs') (by decide)
      · have hend : ((t.bytes l1.advance.buf).length : Int) ≤ l1.advance.cur := by
          rw [Locals.advance_buf, hbuf, Locals.advance]
          dsimp only
          omega
        rw [parseLoop_stop (l := l1.advance) _ _ (.inr hend)] at hloop
        cases hloop
        exact absurd hmore (not_lt.mpr hend)
    · cases h
      rfl

/-- As long as the text stays in the head, so does the loop. -/
theorem loop_inHead {t : Text} {size n : Nat} {u rest : Bytes} {l l' : Locals} {s : Scan}
    (h : Tracks (t.bytes l.buf) (u ++ rest) l s) (ok : s.Ok) (hn : n ≤ u.length)
    (hin : (s.feed u).state.inHead) (hloop : parseLoop t size n l = some l') :
    l'.ctx.state.inHead := by
  rw [← List.take_append_drop n u, List.append_assoc] at h
  have hpart : (s.feed (u.take n)).state.inHead := by
    rw [← List.take_append_drop n u, Scan.feed_append] at hin
    exact Scan.inHead_of_feed _ _ hin
  obtain ⟨l1, -, htr, hrun⟩ := parseLoop_tracks t size _ _ l s h ok hpart
  have hone := hrun 0
  rw [Nat.add_zero, List.length_take, Nat.min_eq_left hn, hloop, parseLoop] at hone
  cases hone
  rw [htr.state]
  exact hpart

section Head

variable {q : Bytes} {ctx : HTTPContext} (h : Resumes ctx (Scan.init.feed q)) {b : Buffer}

/-- Where a chunk leaves the head, `BODY` runs with the bytes that follow it, or not at all. -/
structure BehindHead (q : Bytes) (ctx : HTTPContext) (b : Buffer) (u extra : Bytes) (l : Locals) :
    Prop where
  text : b.toString = u ++ LF :: extra
  scan : ((Scan.init.feed q).feed u).state = .crLfCr
  atBody : AtBody ((enter ctx b).1.bytes l.buf) extra l
  buf : l.buf = b.retrieveAll
  cur : l.cur = ((Scan.init.feed q).word.length + u.length + 1 : Nat)
  contentLength : l.ctx.contentLength = ((Scan.init.feed q).feed u).request.bodyBytes
  state : l.ctx.state =
    ((Scan.init.feed q).feed u).request.afterHead ((Scan.init.feed q).word.length < extra.length)

include h in
/-- In a call that begins in a head, `BODY` runs behind the head. -/
theorem RunsBody.behindHead (hb : b.Wf) {l : Locals} (hr : RunsBody ctx b l) :
    ∃ u extra, BehindHead q ctx b u extra l := by
  obtain ⟨n, hn⟩ := hr.round
  obtain ⟨hbuf, -, -, htr⟩ := enter_tracks h b
  rw [← hbuf] at htr
  have hbody : ¬l.ctx.state.inHead := by rw [hr.state]; decide
  by_cases hin : ((Scan.init.feed q).feed b.toString).state.inHead
  · rw [← List.append_nil b.toString] at htr
    obtain ⟨l1, hb1, htr1, hrun⟩ := parseLoop_tracks _ b.readableBytes _ _ _ _ htr h.ok hin
    by_cases hle : n ≤ b.toString.length
    · exact absurd (loop_inHead htr h.ok hle hin hn) hbody
    · have hrest := hrun (n - b.toString.length)
      rw [Nat.add_sub_cancel' (by omega), hn, parseLoop_stop _ _ (.inr (by
        rw [hb1, htr1.cur_end]))] at hrest
      cases hrest
      rw [htr1.state] at hbody
      exact absurd hin hbody
  · obtain ⟨u, d, rest, hu, hlive, hout⟩ := Scan.exists_exit h.inHead hin
    rw [hu] at htr
    by_cases hle : n ≤ u.length
    · exact absurd (loop_inHead htr h.ok hle hlive hn) hbody
    · obtain ⟨k, rfl⟩ : ∃ k, n = u.length + (k + 1) := ⟨n - u.length - 1, by omega⟩
      rw [← Scan.feed_append] at hlive hout
      rcases Scan.exit_cases hlive hout with ⟨head, -, rfl, hst, -⟩ | hinvalid
      · rw [Scan.feed_append] at hst
        obtain ⟨l0, hat, hl0buf, hcur, -, hlen, hstate, hloop⟩ := loop_endOfHead h hb hu hst
        rw [hloop] at hn
        by_cases hs0 : l0.ctx.state = .body
        · obtain rfl := body_rounds hs0 hn hr.state hr.more
          exact ⟨u, rest, hu, hst, hat, hl0buf, hcur, hlen, hstate⟩
        · have hdone : l0.ctx.state = .complete := by
            rw [hstate, HTTPRequest.afterHead] at hs0 ⊢
            split_ifs at hs0 ⊢
            · exact absurd rfl hs0
            · rfl
          rw [parseLoop_stop _ _ (.inl (by rw [hdone]; rfl))] at hn
          cases hn
          exact absurd hr.state hs0
      · rw [Scan.feed_append] at hlive hinvalid
        obtain ⟨l1, hb1, htr1, hrun⟩ := parseLoop_tracks _ b.readableBytes _ _ _ _ htr h.ok hlive
        rw [← hb1] at htr1
        obtain ⟨hlt, hget⟩ := htr1.cur_lt
        have hun : l1.ctx.state.unfinished := by
          rw [htr1.state]
          exact ParseState.inHead_unfinished hlive
        rw [hrun, parseLoop_succ _ _ hun hlt hget, parseChar_refused htr1.state _ _ hlive hinvalid,
          Option.bind_some, parseLoop_stop _ _ (.inl (ParseState.isInvalid_finished hinvalid))]
          at hn
        cases hn
        exact absurd hr.state (ParseState.ne_of_isInvalid hinvalid rfl)

include h in
/-- A chunk with the end of a head and bytes behind it, after which a body is read. -/
theorem exists_runsBody (hb : b.Wf) {u extra : Bytes} (hu : b.toString = u ++ LF :: extra)
    (hst : ((Scan.init.feed q).feed u).state = .crLfCr) (he : extra ≠ [])
    (hafter : ((Scan.init.feed q).feed u).request.afterHead
      ((Scan.init.feed q).word.length < extra.length) = .body) :
    ∃ l, RunsBody ctx b l ∧ BehindHead q ctx b u extra l := by
  obtain ⟨l, hat, hbuf, hcur, -, hlen, hstate, hloop⟩ := loop_endOfHead h hb hu hst
  refine ⟨l, ⟨⟨_, hloop 0⟩, hstate.trans hafter, ?_⟩, hu, hst, hat, hbuf, hcur, hlen, hstate⟩
  obtain ⟨pre, ht, hc, -⟩ := hat.place
  have hpos := List.length_pos_iff.mpr he
  rw [hc, ht, List.length_append]
  omega

end Head

/-- In a call that begins in a body, `BODY` runs with the whole chunk. -/
theorem RunsBody.inBody {ctx : HTTPContext} {q : HTTPRequest} {m : Nat} (h : InBody ctx q m)
    {b : Buffer} {l : Locals} (hr : RunsBody ctx b l) :
    AtBody ((enter ctx b).1.bytes l.buf) b.toString l ∧ l.cur = 0 := by
  obtain ⟨n, hn⟩ := hr.round
  have hmore := hr.more
  have hent := enter_inBody h b
  rw [hent] at hn hmore ⊢
  have hl := body_rounds (show HTTPContext.state _ = ParseState.body from h.state) hn hr.state hmore
  rw [hl]
  exact ⟨⟨[], rfl, rfl, rfl⟩, rfl⟩

/-- A call that finds the request finished does not run `BODY`. -/
theorem not_runsBody {ctx : HTTPContext} (h : ctx.state.unfinished = false) (b : Buffer)
    (l : Locals) : ¬RunsBody ctx b l := by
  intro hr
  obtain ⟨n, hn⟩ := hr.round
  rw [parseLoop_stop _ _ (.inl (by rw [enter_ctx, h]))] at hn
  cases hn
  have hbody := hr.state
  rw [enter_ctx] at hbody
  rw [hbody] at h
  exact absurd h (by decide)

end MuduoServer
