import MuduoServer.Http.BodyBranch

namespace MuduoServer

open HTTPContext

/-- `left` of the branch `BODY`. -/
def Locals.left (l : Locals) (size : Nat) : Nat := toSizeT ((size : Int) - l.cur)

/-- How many bytes the branch copies to the body. -/
def Locals.bodyLength (l : Locals) (size : Nat) : Nat :=
  if l.ctx.contentLength > l.left size then l.left size else l.ctx.contentLength

/-- The branch `BODY` stays in its text, of which `fin` is the end: the difference is not negative
and counts the bytes up to the end, and the body and the surplus lie in the text. -/
structure InText (size : Nat) (fin : Int) (l : Locals) : Prop where
  noWrap : 0 ≤ (size : Int) - l.cur
  left : (size : Int) - l.cur = fin - l.cur
  body : 0 ≤ l.start ∧ l.start + l.bodyLength size ≤ fin
  surplus : l.ctx.contentLength < l.left size →
    l.start + l.bodyLength size + (l.left size - l.ctx.contentLength : Nat) ≤ fin

/-- Whenever `BODY` runs on the chunks, it stays in its text. -/
def StaysInText (b : Buffer) (pieces : List Bytes) : Prop :=
  ∀ cs c, cs ++ [c] <+: pieces → ∀ ss ctx b1, feedPieces .new b cs = some (ss, ctx, b1) →
    ∀ l, RunsBody ctx (b1.append c) l → InText (b1.append c).readableBytes
      ((enter ctx (b1.append c)).1.bytes l.buf).length l

/-- The bytes from `off` to `stop` bring the end of the head and more, and the parser reads a body
then: it sees more data, or the head has a length. -/
def RequestHead.ReadsBody (h : RequestHead) (off stop : Nat) : Prop :=
  off < h.bytes.length ∧ h.bytes.length < stop ∧
    ((carried h.words off).length < stop - h.bytes.length ∨
      h.request.hasLength ∧ h.request.bodyBytes ≠ 0)

/-- No chunk in which a body is read begins inside a word of its head. -/
def BodyUncut (pieces : List Bytes) : Prop :=
  ∀ h : RequestHead, h.bytes <+: pieces.flatten → ∀ cs c, cs ++ [c] <+: pieces →
    h.ReadsBody cs.flatten.length (cs ++ [c]).flatten.length →
      carried h.words cs.flatten.length = []

theorem toSizeT_le (n : Nat) : toSizeT n ≤ n := by
  rw [toSizeT, sizeTop]
  omega

/-- The branch stays in its text when `left` counts the bytes that follow. -/
theorem AtBody.inText_iff {text extra : Bytes} {l : Locals} (hat : AtBody text extra l)
    (size : Nat) : InText size text.length l ↔ (size : Int) - l.cur = extra.length := by
  obtain ⟨pre, rfl, hcur, hstart⟩ := hat.place
  have hfin : ((pre ++ extra).length : Int) - l.cur = extra.length := by
    rw [hcur, List.length_append]
    omega
  constructor
  · intro h
    rw [h.left, hfin]
  · intro heq
    have hle : l.left size ≤ extra.length := by
      rw [Locals.left, heq]
      exact toSizeT_le _
    have hlen : l.bodyLength size ≤ l.left size := by
      rw [Locals.bodyLength]
      split_ifs
      · exact le_refl _
      · omega
    have hpre : ((pre ++ extra).length : Int) = pre.length + extra.length := by simp
    refine ⟨by omega, by rw [heq, hfin], ⟨by omega, by omega⟩, ?_⟩
    intro hmore
    have hbody : l.bodyLength size = l.ctx.contentLength := by
      rw [Locals.bodyLength, if_neg (by omega)]
    omega

section Runs

variable {q : Bytes} {ctx : HTTPContext} {b : Buffer}

/-- Behind a head, `BODY` stays in its text when no part of a word was carried over. -/
theorem BehindHead.inText_iff (hb : b.Wf) {u extra : Bytes} {l : Locals}
    (h : BehindHead q ctx b u extra l) :
    InText b.readableBytes ((enter ctx b).1.bytes l.buf).length l ↔
      (Scan.init.feed q).word = [] := by
  rw [h.atBody.inText_iff, ← b.toString_length hb, h.text, h.cur, ← List.length_eq_zero_iff]
  simp only [List.length_append, List.length_cons]
  omega

theorem inBody_inText {p : HTTPRequest} {m : Nat} (h : InBody ctx p m) (hb : b.Wf) {l : Locals}
    (hr : RunsBody ctx b l) :
    InText b.readableBytes ((enter ctx b).1.bytes l.buf).length l := by
  obtain ⟨hat, hcur⟩ := hr.inBody h
  rw [hat.inText_iff, hcur, ← b.toString_length hb]
  omega

end Runs

/-- Chunks that stay in a head are taken. -/
theorem feedPieces_head (cs : List Bytes) {ctx : HTTPContext} {s : Scan} (h : Resumes ctx s)
    {b : Buffer} (hb : b.Wf) (he : b.toString = []) (hin : (s.feed cs.flatten).state.inHead) :
    ∃ ss ctx' b', feedPieces ctx b cs = some (ss, ctx', b') ∧
      Resumes ctx' (s.feed cs.flatten) ∧ b'.Wf ∧ b'.toString = [] := by
  induction cs generalizing ctx s b with
  | nil => exact ⟨[], ctx, b, rfl, h, hb, he⟩
  | cons c cs ih =>
    obtain ⟨-, hs, hwf, he'⟩ := append_empty hb he c
    rw [List.flatten_cons, Scan.feed_append] at hin ⊢
    obtain ⟨ctx1, hparse, hres⟩ := parseRequest_head h (b := b.append c)
      (by rw [hs]; exact Scan.inHead_of_feed _ _ hin)
    rw [hs] at hparse hres
    obtain ⟨ss, ctx', b', hfeed, hres', hb', he2⟩ := ih hres hwf he' hin
    exact ⟨_, ctx', b', feedPieces_cons.mpr ⟨_, ctx1, _, ss, hparse, hfeed, rfl⟩, hres', hb', he2⟩

/-- What the scan takes for a head is one. -/
theorem RequestHead.of_scan {q : Bytes} (hst : (Scan.init.feed q).state = .crLfCr) :
    ∃ head : RequestHead, head.bytes = q ++ [LF] ∧ (Scan.init.feed q).request = head.request := by
  have hbody : ((Scan.init.feed q).next LF).state = .body := by
    rw [Scan.next]
    rw [hst]
    rfl
  obtain ⟨head, hhead, -, -, hreq⟩ | hinvalid :=
    Scan.exit_cases (c := LF) (by rw [hst]; rfl) (by rw [hbody]; decide)
  · exact ⟨head, hhead, hreq⟩
  · rw [hbody] at hinvalid
    cases hinvalid

/-- A chunk with the end of a head, cut there. -/
theorem RequestHead.cut_end (h : RequestHead) {q c : Bytes} (hp : h.bytes <+: q ++ c)
    (hq : q.length < h.bytes.length) :
    ∃ u extra, c = u ++ LF :: extra ∧ h.bytes = q ++ (u ++ [LF]) ∧
      ((Scan.init.feed q).feed u).state = .crLfCr ∧
      ((Scan.init.feed q).feed u).request = h.request ∧
      (Scan.init.feed q).word = carried h.words q.length ∧ (Scan.init.feed q).state.inHead := by
  obtain ⟨extra, hextra⟩ := hp
  obtain ⟨p, hend, hst, hreq⟩ := h.scan_end
  have hqp : q <+: p := by
    refine List.prefix_of_prefix_length_le (List.prefix_append q c) ⟨LF :: extra, ?_⟩ ?_
    · rw [← hextra, hend]
      simp
    · rw [hend, List.length_append, List.length_singleton] at hq
      omega
  obtain ⟨u, rfl⟩ := hqp
  have htake := h.scan_take q.length hq
  rw [hend, List.append_assoc, List.take_left] at htake
  rw [Scan.feed_append] at hst hreq
  refine ⟨u, extra, ?_, ?_, hst, hreq, htake.2, htake.1⟩
  · rw [hend] at hextra
    simpa using hextra.symm
  · rw [hend, List.append_assoc]

/-- A chunk in which a body is read stays in its text when it does not begin inside a word. -/
theorem StaysInText.uncut {b : Buffer} (hb : b.Wf) (he : b.toString = []) {pieces : List Bytes}
    (hstays : StaysInText b pieces) : BodyUncut pieces := by
  intro h hp cs c hcs ⟨hoff, hstop, hreads⟩
  have hflat : (cs ++ [c]).flatten = cs.flatten ++ c := by simp
  have htext : (cs ++ [c]).flatten <+: pieces.flatten := by
    obtain ⟨rest, rfl⟩ := hcs
    exact ⟨rest.flatten, List.flatten_append.symm⟩
  have hin := List.prefix_of_prefix_length_le hp htext hstop.le
  rw [hflat] at hin hstop hreads
  obtain ⟨u, extra, hc, hend, hst, hreq, hword, hlive⟩ := h.cut_end hin hoff
  obtain ⟨ss, ctx, b1, hfeed, hres, hb1, he1⟩ := feedPieces_head cs resumes_new hb he hlive
  obtain ⟨hwf, hs, -, -⟩ := append_empty hb1 he1 c
  have hextra : extra.length = (cs.flatten ++ c).length - h.bytes.length := by
    rw [hend, hc]
    simp only [List.length_append, List.length_cons, List.length_nil]
    omega
  obtain ⟨l, hr, hbehind⟩ := exists_runsBody hres hwf (by rw [hs, hc]) hst
    (List.length_pos_iff.mp (by omega))
    (by rw [hreq, hword, HTTPRequest.afterHead, hextra, if_pos hreads])
  have hinText := hstays cs c hcs ss ctx b1 hfeed l hr
  rw [← hword]
  exact (hbehind.inText_iff hwf).mp hinText

/-- `BODY` on a chunk that begins in a head. -/
theorem BodyUncut.inText {pieces : List Bytes} (hcut : BodyUncut pieces) {cs : List Bytes}
    {c : Bytes} (hcs : cs ++ [c] <+: pieces) {ctx : HTTPContext} {b : Buffer}
    (h : Resumes ctx (Scan.init.feed cs.flatten)) (hb : b.Wf) (he : b.toString = [])
    {l : Locals} (hr : RunsBody ctx (b.append c) l) : InText (b.append c).readableBytes
      ((enter ctx (b.append c)).1.bytes l.buf).length l := by
  obtain ⟨hwf, hs, -, -⟩ := append_empty hb he c
  obtain ⟨u, extra, hbehind⟩ := hr.behindHead h hwf
  have hc : c = u ++ LF :: extra := hs.symm.trans hbehind.text
  obtain ⟨head, hhead, hreq⟩ := RequestHead.of_scan (q := cs.flatten ++ u)
    (by rw [Scan.feed_append]; exact hbehind.scan)
  rw [Scan.feed_append] at hreq
  have hflat : (cs ++ [c]).flatten = head.bytes ++ extra := by rw [hhead, hc]; simp
  have hoff : cs.flatten.length < head.bytes.length := by
    rw [hhead]
    simp only [List.length_append, List.length_singleton]
    omega
  have hword := (head.scan_take cs.flatten.length hoff).2
  rw [hhead, List.append_assoc, List.take_left] at hword
  have hpos : extra ≠ [] := by
    rintro rfl
    obtain ⟨pre, ht, hcur, -⟩ := hbehind.atBody.place
    have hmore := hr.more
    rw [ht, hcur] at hmore
    simp at hmore
  have hafter := hbehind.state
  rw [hr.state, hreq, hword, HTTPRequest.afterHead] at hafter
  rw [hbehind.inText_iff hwf, hword]
  have hp : head.bytes <+: pieces.flatten := by
    obtain ⟨rest, rfl⟩ := hcs
    rw [List.flatten_append, hflat, List.append_assoc]
    exact List.prefix_append _ _
  apply hcut head hp cs c hcs
  refine ⟨hoff, ?_, ?_⟩
  · have := List.length_pos_iff.mpr hpos
    rw [hflat, List.length_append]
    omega
  · rw [hflat, List.length_append, Nat.add_sub_cancel_left]
    by_contra hno
    rw [if_neg hno] at hafter
    cases hafter

/-- On the chunks of a fresh context `BODY` stays in its text exactly when no chunk with the end of
a head and bytes behind it, of which a body is read, begins inside a word of that head: `size`
counts the bytes of the chunk, but `cur` is a place in the string that the part of the word and the
chunk were joined to. -/
theorem staysInText_iff (b : Buffer) (hb : b.Wf) (he : b.toString = []) (pieces : List Bytes) :
    StaysInText b pieces ↔ BodyUncut pieces := by
  constructor
  · exact StaysInText.uncut hb he
  · intro hcut cs c hcs ss ctx b1 hfeed l hr
    obtain ⟨hfed, -, -⟩ := (Fed.new hb he).run hfeed
    rw [List.nil_append] at hfed
    cases hfed with
    | head h hb1 he1 => exact hcut.inText hcs h hb1 he1 hr
    | body head part m hq h hb1 he1 => exact inBody_inText h (append_empty hb1 he1 c).1 hr
    | complete head part hq h hreq => exact absurd hr (not_runsBody (by rw [h]; rfl) _ _)
    | refused hq h =>
      exact absurd hr (not_runsBody (by rw [h]; exact ParseState.isInvalid_finished hq) _ _)

/-- A cut behind a header line is not inside a word. -/
theorem staysInText_hello :
    StaysInText .default
      [bytes "GET / HTTP/1.1\r\nContent-Length: 5\r\n", bytes "\r\nhello"] := by
  refine (staysInText_iff .default Buffer.default_wf Buffer.default_toString _).mpr ?_
  intro h hp cs c hcs ⟨hoff, _⟩
  rcases cs with _ | ⟨d, cs⟩
  · exact RequestHead.carried_zero h.words
  · rw [List.cons_append, List.cons_prefix_cons] at hcs
    obtain ⟨rfl, hcs⟩ := hcs
    obtain rfl : cs = [] := by simpa using hcs.length_le
    obtain ⟨_, _, _, _, _, _, hword, _⟩ := h.cut_end hp hoff
    rw [List.flatten_singleton, ← hword]
    decide +kernel

/-- A cut behind a header value: with the nine bytes of the second chunk joined to the seventeen of
the header line, the difference is nine less twenty-one, and wraps. -/
theorem cut_header_wraps :
    ¬StaysInText .default [bytes "GET / HTTP/1.1\r\nContent-Length: 5", bytes "\r\n\r\nhello"] := by
  intro hstays
  have hrun : ((feedPieces .new .default [bytes "GET / HTTP/1.1\r\nContent-Length: 5"]).bind
      fun r => (parseLoop (enter r.2.1 (r.2.2.append (bytes "\r\n\r\nhello"))).1
        (r.2.2.append (bytes "\r\n\r\nhello")).readableBytes 4
        (enter r.2.1 (r.2.2.append (bytes "\r\n\r\nhello"))).2).map fun l =>
          (l.ctx.state, l.cur, decide (l.cur <
            (((enter r.2.1 (r.2.2.append (bytes "\r\n\r\nhello"))).1.bytes l.buf).length : Int)),
            (r.2.2.append (bytes "\r\n\r\nhello")).readableBytes)) =
        some (.body, 21, true, 9) := by decide +kernel
  obtain ⟨⟨ss, ctx, b⟩, hfeed, hloop⟩ := Option.bind_eq_some_iff.mp hrun
  obtain ⟨l, hl, hout⟩ := Option.map_eq_some_iff.mp hloop
  simp only [Prod.mk.injEq, decide_eq_true_eq] at hout
  obtain ⟨hstate, hcur, hmore, hsize⟩ := hout
  have hinText := hstays _ _ (List.prefix_refl _) ss ctx b hfeed l ⟨⟨4, hl⟩, hstate, hmore⟩
  have hwrap := hinText.noWrap
  rw [hsize, hcur] at hwrap
  exact absurd hwrap (by decide)

end MuduoServer
