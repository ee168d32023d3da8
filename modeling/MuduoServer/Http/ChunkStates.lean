import MuduoServer.Http.Chunking
import MuduoServer.Http.ParseStream

namespace MuduoServer

open HTTPContext

/-- Where a context stands that was new before the text `q`, whatever chunks brought it. -/
inductive Fed (q : Bytes) (ctx : HTTPContext) (b : Buffer) : Prop
  | head (h : Resumes ctx (Scan.init.feed q)) (hb : b.Wf) (he : b.toString = [])
  | body (head : RequestHead) (part : Bytes) (m : Nat) (hq : head.bytes <+: q)
      (h : InBody ctx (head.request.appendBody part) m) (hb : b.Wf) (he : b.toString = [])
  | complete (head : RequestHead) (part : Bytes) (hq : head.bytes <+: q)
      (h : ctx.state = .complete) (hreq : ctx.request = head.request.appendBody part)
  | refused (hq : (Scan.init.feed q).state.isInvalid) (h : ctx.state = (Scan.init.feed q).state)

namespace Fed

variable {q c : Bytes} {ctx ctx' : HTTPContext} {b b' : Buffer} {st : ParseState}

theorem new (hb : b.Wf) (he : b.toString = []) : Fed [] .new b := .head resumes_new hb he

theorem feed_refused (hq : (Scan.init.feed q).state.isInvalid) :
    Scan.init.feed (q ++ c) = Scan.init.feed q := by
  rw [Scan.feed_append, Scan.feed_of_not_inHead _ _ (ParseState.isInvalid_not_inHead hq)]

/-- The call in which a head ends. -/
theorem step_headEnd {u rest : Bytes} {head : RequestHead} (h : Resumes ctx (Scan.init.feed q))
    (hb : b.Wf) (hu : b.toString = u ++ LF :: rest)
    (hst : ((Scan.init.feed q).feed u).state = .crLfCr)
    (hreq : ((Scan.init.feed q).feed u).request = head.request) (hq : head.bytes <+: q ++ c)
    (hparse : parseRequest ctx b = some (st, ctx', b')) : Fed (q ++ c) ctx' b' := by
  obtain ⟨l, hat, hbuf, -, hlreq, -, hstate, heq⟩ := parseRequest_endOfHead h hb hu hst
  have hafter : l.ctx.state = .body ∨ l.ctx.state = .complete := by
    rw [hstate, HTTPRequest.afterHead]
    split_ifs
    · exact .inl rfl
    · exact .inr rfl
  rw [heq] at hparse
  obtain ⟨part, hpart, hdone | ⟨⟨m, hin⟩, rfl⟩⟩ := body_cases hat hafter hparse
  · exact .complete head part hq hdone (by rw [hpart, hlreq, hreq])
  · rw [hlreq, hreq] at hin
    rw [hbuf]
    exact .body head part m hq hin (b.retrieveAll_wf hb) b.retrieveAll_toString

/-- A chunk that begins in a head. -/
theorem step_head (h : Resumes ctx (Scan.init.feed q)) (hb : b.Wf) (he : b.toString = [])
    (hparse : parseRequest ctx (b.append c) = some (st, ctx', b')) : Fed (q ++ c) ctx' b' := by
  obtain ⟨hwf, hs, hwf', he'⟩ := append_empty hb he c
  by_cases hin : ((Scan.init.feed q).feed c).state.inHead
  · obtain ⟨ctx2, hparse2, hres⟩ := parseRequest_head h (b := b.append c) (by rwa [hs])
    rw [hparse] at hparse2
    cases hparse2
    rw [hs, ← Scan.feed_append] at hres
    exact .head hres hwf' he'
  · obtain ⟨u, d, rest, rfl, hlive, hout⟩ := Scan.exists_exit h.inHead hin
    rw [← Scan.feed_append] at hlive hout
    rcases Scan.exit_cases hlive hout with ⟨head, hhead, rfl, hst, hreq⟩ | hinvalid
    · rw [Scan.feed_append] at hst hreq
      exact step_headEnd h hwf hs hst hreq ⟨rest, by rw [hhead]; simp⟩ hparse
    · have hrefused : (Scan.init.feed (q ++ (u ++ d :: rest))).state =
          ((Scan.init.feed (q ++ u)).next d).state := by
        rw [← List.append_assoc, Scan.feed_append, Scan.feed_cons,
          Scan.feed_of_not_inHead _ _ (ParseState.isInvalid_not_inHead hinvalid)]
      rw [Scan.feed_append] at hlive hinvalid
      obtain ⟨ctx2, hparse2⟩ := parseRequest_error h hs hlive hinvalid
      rw [hparse] at hparse2
      cases hparse2
      rw [← Scan.feed_append] at hparse hinvalid
      exact .refused (by rwa [hrefused]) (by rw [parseRequest_state hparse, hrefused])

/-- One chunk more. -/
theorem step (h : Fed q ctx b) (hparse : parseRequest ctx (b.append c) = some (st, ctx', b')) :
    Fed (q ++ c) ctx' b' := by
  cases h with
  | head h hb he => exact step_head h hb he hparse
  | body head part m hq h hb he =>
    obtain ⟨hwf, hs, hwf', he'⟩ := append_empty hb he c
    obtain ⟨l, hat, hbuf, hstate, hreq, -, -, heq⟩ := parseRequest_bodyLoop h (b := b.append c)
    have hq' : head.bytes <+: q ++ c := hq.trans (List.prefix_append _ _)
    rw [heq] at hparse
    obtain ⟨more, hmore, hdone | ⟨⟨m', hin⟩, rfl⟩⟩ :=
      body_cases (t := .combined (b.append c).toString) hat (.inl hstate) hparse
    · exact .complete head (part ++ more) hq' hdone
        (by rw [hmore, hreq, HTTPRequest.appendBody_append])
    · rw [hreq, HTTPRequest.appendBody_append] at hin
      rw [hbuf]
      exact .body head (part ++ more) m' hq' hin hwf' he'
  | complete head part hq h hreq =>
    rw [parseRequest_finished (by rw [h]; rfl)] at hparse
    cases hparse
    exact .complete head part (hq.trans (List.prefix_append _ _)) h hreq
  | refused hq h =>
    have hun : ctx.state.unfinished = false := by
      rw [h]
      revert hq
      cases (Scan.init.feed q).state <;> decide
    rw [parseRequest_finished hun] at hparse
    cases hparse
    exact .refused (by rwa [feed_refused hq]) (by rw [feed_refused hq, h])

/-- A run over chunks, with the state returned for the last one. -/
theorem run {pieces : List Bytes} {ss : List ParseState} (h : Fed q ctx b)
    (hfeed : feedPieces ctx b pieces = some (ss, ctx', b')) :
    Fed (q ++ pieces.flatten) ctx' b' ∧ ss.length = pieces.length ∧
      ∀ s, ss.getLast? = some s → ctx'.state = s := by
  induction pieces generalizing q ctx b ss with
  | nil =>
    cases hfeed
    exact ⟨by simpa using h, rfl, by simp⟩
  | cons c cs ih =>
    obtain ⟨st, ctx1, b1, ss1, hparse, hrest, rfl⟩ := feedPieces_cons.mp hfeed
    obtain ⟨hfed, hlen, hlast⟩ := ih (h.step hparse) hrest
    rw [List.flatten_cons, ← List.append_assoc]
    refine ⟨hfed, by simp [hlen], ?_⟩
    intro s hs
    cases ss1 with
    | nil =>
      obtain rfl := List.eq_nil_of_length_eq_zero hlen.symm
      cases hrest
      obtain rfl := Option.some.inj hs
      exact parseRequest_state hparse
    | cons s1 ss1 => exact hlast s (by simpa using hs)

/-- A state that is returned is the state of the scan when it refuses the text. -/
theorem isInvalid (h : Fed q ctx b) (hst : ctx.state.isInvalid) :
    (Scan.init.feed q).state = ctx.state := by
  cases h with
  | head h => exact h.state.symm
  | body _ _ _ _ h => exact absurd hst (by rw [h.state]; decide)
  | complete _ _ _ h => exact absurd hst (by rw [h]; decide)
  | refused _ h => exact h.symm

/-- A request is complete only behind a head, and is that of the head with some body. -/
theorem of_complete (h : Fed q ctx b) (hst : ctx.state = .complete) :
    ∃ (head : RequestHead) (part : Bytes), head.bytes <+: q ∧
      ctx.request = head.request.appendBody part := by
  cases h with
  | head h => exact absurd (h.state.symm.trans hst) (ParseState.ne_of_inHead h.inHead rfl)
  | body _ _ _ _ h => exact absurd (h.state.symm.trans hst) (by decide)
  | complete head part hq _ hreq => exact ⟨head, part, hq, hreq⟩
  | refused hq h => exact absurd (h.symm.trans hst) (ParseState.ne_of_isInvalid hq rfl)

end Fed

/-- The chunks are fed to a fresh context, the last one is answered with `s`, and the request is
`q` then. -/
def Answers (b : Buffer) (pieces : List Bytes) (s : ParseState) (q : HTTPRequest) : Prop :=
  ∃ ss ctx b', feedPieces .new b pieces = some (ss ++ [s], ctx, b') ∧ ctx.request = q

theorem Answers.fed {b : Buffer} (hb : b.Wf) (he : b.toString = []) {pieces : List Bytes}
    {s : ParseState} {q : HTTPRequest} (h : Answers b pieces s q) :
    ∃ ctx b', Fed pieces.flatten ctx b' ∧ ctx.state = s ∧ ctx.request = q := by
  obtain ⟨ss, ctx, b', hfeed, hreq⟩ := h
  obtain ⟨hfed, -, hlast⟩ := (Fed.new hb he).run hfeed
  exact ⟨ctx, b', hfed, hlast s (by simp), hreq⟩

/-- A text that the chunks begin with ends in one of them. -/
theorem exists_lastChunk {w : Bytes} (hw : w ≠ []) {pieces : List Bytes}
    (hp : w <+: pieces.flatten) : ∃ cs c, cs ++ [c] <+: pieces ∧ ¬w <+: cs.flatten ∧
      w <+: (cs ++ [c]).flatten := by
  induction pieces using List.reverseRecOn with
  | nil => exact absurd (List.prefix_nil.mp hp) hw
  | append_singleton cs c ih =>
    by_cases hbefore : w <+: cs.flatten
    · obtain ⟨cs', c', hcs, hnot, hend⟩ := ih hbefore
      exact ⟨cs', c', hcs.trans (List.prefix_append _ _), hnot, hend⟩
    · exact ⟨cs, c, List.prefix_rfl, hbefore, hp⟩

end MuduoServer
