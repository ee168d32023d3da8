import MuduoServer.Framework.PrefixCode
import MuduoServer.Http.HeadErrors
import MuduoServer.Http.Recovery

namespace MuduoServer

open HTTPContext

/-- A text begins with one head at most. -/
theorem RequestHead.bytes_unique {h h' : RequestHead} {t : Bytes} (hp : h.bytes <+: t)
    (hp' : h'.bytes <+: t) : h.bytes = h'.bytes := by
  apply decides_heads.word_unique _ ⟨h, rfl⟩ ⟨h', rfl⟩ hp hp'
  exact fun st hbody hlive => ParseState.ne_of_inHead hlive rfl hbody

/-- The bytes of a head tell its request. -/
theorem RequestHead.request_of_bytes {h h' : RequestHead} (heq : h.bytes = h'.bytes) :
    h.request = h'.request := by
  have hscan := h.scan
  rw [heq, h'.scan] at hscan
  exact (congrArg Scan.request hscan).symm

/-- A text with which the scan has not left the head, or has failed, begins with no head. -/
theorem RequestHead.not_begins {x : Bytes} (hx : (Scan.init.feed x).state ≠ .body)
    (h : RequestHead) : ¬h.bytes <+: x := by
  rintro ⟨rest, rfl⟩
  rw [Scan.feed_append, h.scan, Scan.feed_of_not_inHead _ _ rfl] at hx
  exact hx rfl

namespace WireRequest

variable {r r' : WireRequest} {t : Bytes}

theorem head_begins (hp : r.bytes <+: t) : r.head.bytes <+: t :=
  (List.prefix_append _ _).trans hp

/-- A text begins with one request at most, and its bytes tell what is sent. -/
theorem unique (hp : r.bytes <+: t) (hp' : r'.bytes <+: t) :
    r.head.bytes = r'.head.bytes ∧ r.head.request = r'.head.request ∧ r.body = r'.body := by
  have hhead := RequestHead.bytes_unique (head_begins hp) (head_begins hp')
  have hreq := RequestHead.request_of_bytes hhead
  refine ⟨hhead, hreq, ?_⟩
  obtain ⟨x, hx⟩ := hp
  obtain ⟨x', hx'⟩ := hp'
  rw [← hx', bytes, bytes, hhead, List.append_assoc, List.append_assoc] at hx
  have hlen : r.body.length = r'.body.length := by rw [r.framed, r'.framed, hreq]
  exact (List.append_inj (List.append_cancel_left hx) hlen).1

theorem prefixCode : PrefixCode bytes := by
  intro r r' t hp hp'
  obtain ⟨hhead, -, hbody⟩ := unique hp hp'
  rw [bytes, bytes, hhead, hbody]

theorem request_of_bytes (heq : r.bytes = r'.bytes) : r.request = r'.request := by
  have hp : r'.bytes <+: r.bytes := heq ▸ List.prefix_rfl
  obtain ⟨-, hreq, hbody⟩ := unique List.prefix_rfl hp
  rw [request, hreq, hbody]
  rfl

theorem not_begins_nil (r : WireRequest) : ¬r.bytes <+: [] := by
  intro hp
  have hlen := hp.length_le
  have hpos := r.bytes_pos
  rw [List.length_nil] at hlen
  omega

end WireRequest

namespace Scan

/-- A text with which the scan leaves the head has a byte that leads out of it. -/
theorem exists_exit {s : Scan} {w : Bytes} (hs : s.state.inHead)
    (hw : ¬(s.feed w).state.inHead) : ∃ u c rest, w = u ++ c :: rest ∧
      (s.feed u).state.inHead ∧ ¬((s.feed u).next c).state.inHead := by
  induction w generalizing s with
  | nil => exact (hw hs).elim
  | cons c w ih =>
    by_cases hc : (s.next c).state.inHead
    · obtain ⟨u, d, rest, rfl, hin, hout⟩ := ih hc hw
      exact ⟨c :: u, d, rest, rfl, hin, hout⟩
    · exact ⟨[], c, w, rfl, hs, hc⟩

/-- A byte that leads out of the head is its last line feed, or is refused. -/
theorem exit_cases {q : Bytes} {c : UInt8} (hin : (init.feed q).state.inHead)
    (hout : ¬((init.feed q).next c).state.inHead) :
    (∃ h : RequestHead, h.bytes = q ++ [LF] ∧ c = LF ∧ (init.feed q).state = .crLfCr ∧
      (init.feed q).request = h.request) ∨ ((init.feed q).next c).state.isInvalid := by
  by_cases hbody : ((init.feed q).next c).state = .body
  · left
    obtain ⟨hst, rfl, hreq⟩ := next_body hin hbody
    rw [next_state, feed_state] at hbody
    rw [feed_state] at hin
    obtain ⟨h, hh⟩ := decides_heads.ends q LF hin hbody
    refine ⟨h, hh, rfl, hst, ?_⟩
    have hscan := h.scan
    rw [hh, feed_append, feed_cons, feed_nil] at hscan
    rw [← hreq, hscan]
    rfl
  · right
    rw [next_state] at hout hbody ⊢
    rw [ParseState.next_refusal hin hout hbody]
    exact ParseState.refusal_isInvalid hin

theorem next_start {s : Scan} {c : UInt8} (h : (s.next c).state = .start) : s.next c = s := by
  revert h
  rw [next]
  cases hs : s.state
  all_goals
    dsimp only
    (try split_ifs) <;> simp [keep, mark, cut, fail, hs]

/-- In the first state the scan has read nothing that it keeps. -/
theorem feed_start {q : Bytes} (h : (init.feed q).state = .start) : init.feed q = init := by
  induction q using List.reverseRecOn with
  | nil => rfl
  | append_singleton q c ih =>
    rw [feed_append, feed_cons, feed_nil] at h ⊢
    have hsame := next_start h
    rw [hsame] at h ⊢
    exact ih h

end Scan

/-- What follows a body in a joined text is written to the buffer, and the body is not touched. -/
theorem body_surplus_combined {text extra : Bytes} {l : Locals} {size : Nat}
    (hat : AtBody text extra l) (hs : l.ctx.state = .body)
    (hleft : toSizeT ((size : Int) - l.cur) = extra.length)
    (hc : l.ctx.contentLength < extra.length) :
    ∃ ctx, (parseLoop (.combined text) size extra.length l).bind (finish (.combined text)) =
        some (.complete, ctx, l.buf.append (extra.drop l.ctx.contentLength)) ∧
      ctx.request = l.ctx.request.appendBody (extra.take l.ctx.contentLength) := by
  have he : extra ≠ [] := List.length_pos_iff.mp (by omega)
  have hbody := AtBody.string_take (t := .combined text) hat l.ctx.contentLength hc.le
  have happ : (Text.combined text).appendTo l.buf (l.start + l.ctx.contentLength)
      (extra.length - l.ctx.contentLength) =
        some (l.buf.append (extra.drop l.ctx.contentLength)) := by
    obtain ⟨pre, rfl, -, hst⟩ := hat.place
    have hrange := Slice.range?_middle pre extra [] l.ctx.contentLength extra.length hc.le
      (le_refl _)
    rw [List.append_nil, List.take_length] at hrange
    have hend : l.start + l.ctx.contentLength + (extra.length - l.ctx.contentLength : Nat) =
        (pre.length + extra.length : Nat) := by
      rw [hst]
      omega
    rw [Text.appendTo, hend, hst, ← Nat.cast_add, hrange]
    rfl
  have hparse := body_surplus (t := .combined text) hat hs he hleft hc
  rw [happ, Option.bind_some] at hparse
  have hsame : (Text.combined text).string (l.buf.append (extra.drop l.ctx.contentLength)) l.start
      (l.start + l.ctx.contentLength) = some (extra.take l.ctx.contentLength) := hbody
  rw [hsame, Option.map_some] at hparse
  exact ⟨_, hparse, rfl⟩

section HeadEnds

variable {ctx : HTTPContext} {s : Scan} (h : Resumes ctx s) {b : Buffer} (hb : b.Wf)
  {cs extra : Bytes} (hcs : b.toString = cs ++ LF :: extra) (hs : (s.feed cs).state = .crLfCr)
  (hlt : extra.length < sizeTop)

include h hb hcs hs hlt in
/-- A head ends in the chunk, and bytes of its body are to come. -/
theorem parseRequest_waits (hw : extra ≠ [] → s.word = [])
    (hlen : (s.feed cs).request.hasLength)
    (hn : extra.length < (s.feed cs).request.bodyBytes) :
    ∃ ctx', parseRequest ctx b = some (.body, ctx', b.retrieveAll) ∧
      InBody ctx' ((s.feed cs).request.appendBody extra)
        ((s.feed cs).request.bodyBytes - extra.length) := by
  by_cases he : extra = []
  · obtain ⟨ctx', hparse, hin⟩ := parseRequest_awaitBody h hb hcs hs he hlen (by omega)
    refine ⟨ctx', hparse, ?_⟩
    rw [he, HTTPRequest.appendBody_nil, List.length_nil, Nat.sub_zero]
    exact hin
  · exact parseRequest_bodyPart h hb hcs hs (hw he) he hlt hn

include h hb hcs hs hlt in
/-- What follows the body, when the head was begun in an earlier chunk. -/
theorem parseRequest_surplusJoined (hstart : s.state ≠ .start) (hw : s.word = [])
    (hn : (s.feed cs).request.bodyBytes < extra.length) :
    ∃ ctx', parseRequest ctx b = some (.complete, ctx',
        b.retrieveAll.append (extra.drop (s.feed cs).request.bodyBytes)) ∧
      ctx'.request =
        (s.feed cs).request.appendBody (extra.take (s.feed cs).request.bodyBytes) := by
  have he : extra ≠ [] := List.length_pos_iff.mp (by omega)
  obtain ⟨l, hat, hbuf, hstate, hreq, hlen, hleft, heq⟩ := parseRequest_left h hb hcs hs hw he hlt
  obtain ⟨text, htext⟩ := enter_combined h hstart b
  rw [htext] at hat heq
  obtain ⟨ctx', hparse, hq⟩ := body_surplus_combined hat hstate hleft (by rw [hlen]; exact hn)
  rw [hbuf, hlen] at hparse
  rw [hreq, hlen] at hq
  exact ⟨ctx', heq.trans hparse, hq⟩

include h hb hs in
/-- A request ends in the chunk with whose head the scan is done there. -/
theorem parseRequest_takes (r : WireRequest) {rest : Bytes}
    (hcs : b.toString = cs ++ LF :: (r.body ++ rest))
    (hlt : (r.body ++ rest).length < sizeTop) (hreq : (s.feed cs).request = r.head.request)
    (hread : r.LengthRead) (hlen : rest ≠ [] → r.head.request.hasLength)
    (hw : r.body ++ rest ≠ [] → s.word = []) (hinit : s.state = .start → s = Scan.init)
    (hover : s.state = .start →
      (rest.drop (b.readerIndex - b.cheapPrepend + (cs.length + 1))).take r.body.length <+:
        r.body) :
    ∃ ctx' b', parseRequest ctx b = some (.complete, ctx', b') ∧ ctx'.request = r.request ∧
      b'.Wf ∧ b'.toString = rest := by
  have hretrieve := b.retrieveAll_wf hb
  by_cases hrest : rest = []
  · rw [hrest, List.append_nil] at hcs hlt hw
    rw [hrest]
    by_cases hbody : r.body = []
    · have hnone := (r.lengthRead_of_no_body hbody).mp hread
      obtain ⟨ctx', hparse, hq⟩ := parseRequest_bodiless h hb hcs hs hbody
        (by rw [hreq]; exact hnone)
      refine ⟨ctx', _, hparse, ?_, hretrieve, b.retrieveAll_toString⟩
      rw [hq, hreq, WireRequest.request, hbody, HTTPRequest.appendBody_nil]
    · obtain ⟨ctx', hparse, hq⟩ := parseRequest_bodyWhole h hb hcs hs (hw hbody) hbody hlt
        (by rw [hreq]; exact (r.length_of_body hbody).2)
      refine ⟨ctx', _, hparse, ?_, hretrieve, b.retrieveAll_toString⟩
      rw [hq, hreq]
      rfl
  · have hpos : 0 < rest.length := List.length_pos_iff.mpr hrest
    have hdeclared := hlen hrest
    have hn : (s.feed cs).request.bodyBytes = r.body.length := by
      rw [hreq]
      exact HTTPRequest.bodyBytes_eq hdeclared (hread hdeclared)
    have hmore : r.body.length < (r.body ++ rest).length := by
      rw [List.length_append]
      omega
    by_cases hstart : s.state = .start
    · obtain rfl := hinit hstart
      obtain ⟨ctx', b', body, hparse, hq, -, hiff, hwf, hstr⟩ :=
        parseRequest_surplus h hb hcs hs hlt hn hmore
      rw [List.drop_left] at hiff hstr
      rw [List.take_left] at hiff
      refine ⟨ctx', b', hparse, ?_, hwf, hstr⟩
      rw [hq, hreq, hiff.mpr (hover hstart)]
      rfl
    · obtain ⟨ctx', hparse, hq⟩ := parseRequest_surplusJoined h hb hcs hs hlt hstart
        (hw (List.append_ne_nil_of_right_ne_nil _ hrest)) (by rw [hn]; exact hmore)
      obtain ⟨hwf, hstr, -⟩ := Buffer.append_spec _ hretrieve rest
      rw [hn, List.drop_left] at hparse
      rw [hn, List.take_left, hreq] at hq
      refine ⟨ctx', _, hparse, hq, hwf, ?_⟩
      rw [hstr, Buffer.retrieveAll_toString, List.nil_append]

end HeadEnds

section BodyGoesOn

variable {ctx : HTTPContext} {q : HTTPRequest} {m : Nat} (h : InBody ctx q m) {b : Buffer}
  (hb : b.Wf) (hlt : b.toString.length < sizeTop)

include h hb hlt

/-- A chunk inside the body. -/
theorem parseRequest_bodyWaits (hm : b.toString.length < m) :
    ∃ ctx', parseRequest ctx b = some (.body, ctx', b.retrieveAll) ∧
      InBody ctx' (q.appendBody b.toString) (m - b.toString.length) := by
  by_cases hnil : b.toString = []
  · obtain ⟨l, -, hbuf, hstate, hreq, hlen, -, heq⟩ := parseRequest_inBody h hb hlt
    obtain ⟨ctx', hfin, hin⟩ := finish_body (t := .combined b.toString) hstate
    rw [hnil] at heq hfin ⊢
    rw [hreq, hlen] at hin
    rw [HTTPRequest.appendBody_nil, List.length_nil, Nat.sub_zero]
    refine ⟨ctx', ?_, hin⟩
    rw [heq, List.length_nil, parseLoop, Option.bind_some, hfin, hbuf]
  · exact parseRequest_bodyMore h hb hlt hnil hm

/-- A chunk in which the body ends. -/
theorem parseRequest_bodyTakes (hpos : 0 < m) (hm : m ≤ b.toString.length) :
    ∃ ctx' b', parseRequest ctx b = some (.complete, ctx', b') ∧
      ctx'.request = q.appendBody (b.toString.take m) ∧ b'.Wf ∧
      b'.toString = b.toString.drop m := by
  have hretrieve := b.retrieveAll_wf hb
  have hnil : b.toString ≠ [] := List.length_pos_iff.mp (by omega)
  rcases hm.eq_or_lt with hm | hm
  · obtain ⟨ctx', hparse, hq⟩ := parseRequest_bodyLast h hb hlt hnil hm.symm
    refine ⟨ctx', _, hparse, ?_, hretrieve, ?_⟩
    · rw [hq, hm, List.take_length]
    · rw [hm, List.drop_length, Buffer.retrieveAll_toString]
  · obtain ⟨l, hat, hbuf, hstate, hreq, hlen, hleft, heq⟩ := parseRequest_inBody h hb hlt
    obtain ⟨ctx', hfin, hq⟩ := body_surplus_combined hat hstate hleft (by rw [hlen]; exact hm)
    obtain ⟨hwf, hstr, -⟩ := Buffer.append_spec _ hretrieve (b.toString.drop m)
    rw [hlen, hbuf] at hfin
    rw [hlen, hreq] at hq
    refine ⟨ctx', _, heq.trans hfin, hq, hwf, ?_⟩
    rw [hstr, Buffer.retrieveAll_toString, List.nil_append]

end BodyGoesOn

/-- Where a parser stands between two reads: `p` is what has come behind the last request that was
handed over, and `held` is what the input buffer has of it. -/
inductive Stands (ctx : HTTPContext) (held p : Bytes) : Prop
  | fresh (h : Resumes ctx Scan.init) (hp : held = p)
  | head (h : Resumes ctx (Scan.init.feed p)) (hheld : held = [])
  | body (head : RequestHead) (part : Bytes) (m : Nat)
      (h : InBody ctx (head.request.appendBody part) m) (hm : 0 < m)
      (hlen : part.length + m = head.request.announced) (hp : p = head.bytes ++ part)
      (hheld : held = [])
  | refused (h : ctx.state.isInvalid) (hp : (Scan.init.feed p).state.isInvalid) (hheld : held = [])

/-- The bytes behind the request `r` in the text `x` that the write-back puts over the body of `r`,
when the buffer has the end of `x`. -/
def writtenOver (b : Buffer) (x : Bytes) (r : WireRequest) : Bytes :=
  ((x.drop r.bytes.length).drop (b.readerIndex - b.cheapPrepend +
    (r.head.bytes.length + b.readableBytes - x.length))).take r.body.length

/-- The input under which a call of `parseRequest` leaves no request behind. `x` is what has come
behind the last request that was handed over, and its end is in the buffer: it has no two requests,
no bytes behind a head in which the parser had read part of a word, and a request in it has a length
that `atoi` reads, which is declared if bytes follow, and a body that the write-back leaves as it
was. -/
structure TakesOne (ctx : HTTPContext) (b : Buffer) (x : Bytes) : Prop where
  fits : x.length < 2^63
  uncut : ∀ h : RequestHead, h.bytes <+: x → h.bytes ≠ x →
    ctx.state = .start ∨ ctx.snapshot.lastRequest = []
  read : ∀ r : WireRequest, r.bytes <+: x → r.LengthRead
  announced : ∀ r : WireRequest, r.bytes <+: x → r.bytes ≠ x → r.head.request.hasLength
  intact : ctx.state = .start → ∀ r : WireRequest, r.bytes <+: x → writtenOver b x r <+: r.body
  last : ∀ r r' : WireRequest, ¬r.bytes ++ r'.bytes <+: x

/-- What a call of `parseRequest` makes of `x`: it takes the request with which `x` begins, or there
is none, and the parser waits for more or has refused `x`. -/
def Advances (ctx : HTTPContext) (b : Buffer) (x : Bytes) : Prop :=
  ∃ st ctx' b', parseRequest ctx b = some (st, ctx', b') ∧ b'.Wf ∧
    ((st = .complete ∧ ∃ r : WireRequest, x = r.bytes ++ b'.toString ∧ ctx'.request = r.request) ∨
      (st ≠ .complete ∧ (∀ r : WireRequest, ¬r.bytes <+: x) ∧ Stands ctx' b'.toString x))

/-- The request with this head at the beginning of a text that has all of its body. -/
def RequestHead.wire (h : RequestHead) (extra : Bytes) (hn : h.request.announced ≤ extra.length)
    (hfits : (h.bytes ++ extra).length < 2^63) : WireRequest where
  head := h
  body := extra.take h.request.announced
  framed := by rw [List.length_take, Nat.min_eq_left hn]
  fits := by
    rw [List.length_append] at hfits ⊢
    rw [List.length_take]
    omega

/-- Without the whole body there is no request. -/
theorem not_begins_short {h : RequestHead} {extra : Bytes}
    (hless : extra.length < h.request.announced) (r : WireRequest) :
    ¬r.bytes <+: h.bytes ++ extra := by
  intro hp
  have hhead := RequestHead.bytes_unique (WireRequest.head_begins hp) (List.prefix_append _ _)
  have hlen := hp.length_le
  rw [WireRequest.bytes, List.length_append, List.length_append, hhead, r.framed,
    RequestHead.request_of_bytes hhead] at hlen
  omega

/-- Where bytes follow a head nothing of a word was carried over. -/
theorem TakesOne.word_nil {ctx : HTTPContext} {b : Buffer} {x rest : Bytes}
    (hc : TakesOne ctx b x) {s : Scan} (h : Resumes ctx s) {head : RequestHead}
    (hx : x = head.bytes ++ rest) (hrest : rest ≠ []) : s.word = [] := by
  by_cases hstart : s.state = .start
  · exact h.ok.closed (.inl hstart)
  · have hne : head.bytes ≠ x := by
      rw [hx]
      exact fun heq => hrest (List.append_right_eq_self.mp heq.symm)
    rcases hc.uncut head (hx ▸ List.prefix_append _ _) hne with hs | hlast
    · exact (hstart (h.state.symm.trans hs)).elim
    · rw [← h.lastRequest hstart, hlast]

section Advances

variable {ctx : HTTPContext} {b : Buffer} {x : Bytes} (hb : b.Wf) (hc : TakesOne ctx b x)

include hb

/-- A chunk after a refusal. -/
theorem advances_refused {p : Bytes} (h : ctx.state.isInvalid)
    (hp : (Scan.init.feed p).state.isInvalid) (hx : x = p ++ b.toString) : Advances ctx b x := by
  have hfeed : Scan.init.feed x = Scan.init.feed p := by
    rw [hx, Scan.feed_append,
      Scan.feed_of_not_inHead _ _ (ParseState.isInvalid_not_inHead hp)]
  rw [← hfeed] at hp
  refine ⟨_, ctx, _, parseRequest_refused h b, b.retrieveAll_wf hb,
    .inr ⟨ParseState.ne_of_isInvalid h rfl, ?_, ?_⟩⟩
  · intro r hr
    exact r.head.not_begins (ParseState.ne_of_isInvalid hp rfl) (WireRequest.head_begins hr)
  · exact .refused h hp b.retrieveAll_toString

include hc

/-- The head ends in the chunk, and so does its request. -/
theorem advances_whole {q u rest : Bytes} (r : WireRequest)
    (h : Resumes ctx (Scan.init.feed q)) (hu : b.toString = u ++ LF :: (r.body ++ rest))
    (hhead : r.head.bytes = q ++ u ++ [LF]) (hst : ((Scan.init.feed q).feed u).state = .crLfCr)
    (hreq : ((Scan.init.feed q).feed u).request = r.head.request)
    (hlt : (r.body ++ rest).length < sizeTop) (hx : x = r.bytes ++ rest) : Advances ctx b x := by
  have hp : r.bytes <+: x := hx ▸ List.prefix_append _ _
  have hword : r.body ++ rest ≠ [] → (Scan.init.feed q).word = [] :=
    hc.word_nil h (by rw [hx, WireRequest.bytes, List.append_assoc])
  have hdeclared : rest ≠ [] → r.head.request.hasLength := by
    intro hmore
    apply hc.announced r hp
    rw [hx]
    exact fun heq => hmore (List.append_right_eq_self.mp heq.symm)
  have hover : (Scan.init.feed q).state = .start →
      (rest.drop (b.readerIndex - b.cheapPrepend + (u.length + 1))).take r.body.length <+:
        r.body := by
    intro hstart
    have hintact := hc.intact (h.state.trans hstart) r hp
    have hlen : u.length + 1 = r.head.bytes.length + b.readableBytes - x.length := by
      rw [← b.toString_length hb, hu, hx, WireRequest.bytes, hhead]
      simp only [List.length_append, List.length_cons, List.length_nil]
      omega
    rw [writtenOver, ← hlen, hx, List.drop_left] at hintact
    exact hintact
  obtain ⟨ctx', b', hparse, hq, hwf, hstr⟩ := parseRequest_takes h hb hst r hu hlt hreq
    (hc.read r hp) hdeclared hword Scan.feed_start hover
  exact ⟨_, ctx', b', hparse, hwf, .inl ⟨rfl, r, by rw [hstr]; exact hx, hq⟩⟩

/-- The head ends in the chunk. -/
theorem advances_headEnd {q u rest : Bytes} {head : RequestHead}
    (h : Resumes ctx (Scan.init.feed q)) (hu : b.toString = u ++ LF :: rest)
    (hhead : head.bytes = q ++ u ++ [LF]) (hst : ((Scan.init.feed q).feed u).state = .crLfCr)
    (hreq : ((Scan.init.feed q).feed u).request = head.request) (hx : x = head.bytes ++ rest) :
    Advances ctx b x := by
  have hfits := hc.fits
  rw [hx] at hfits
  have hsum : head.bytes.length + rest.length < 2^63 := by rwa [List.length_append] at hfits
  have hlt : rest.length < sizeTop := by
    rw [sizeTop]
    omega
  by_cases hless : rest.length < head.request.announced
  · obtain ⟨hlen, hd⟩ := HTTPRequest.declared_of_announced (q := head.request) (by omega)
    have hn := HTTPRequest.bodyBytes_eq hlen hd
    obtain ⟨ctx', hparse, hin⟩ := parseRequest_waits h hb hu hst hlt (hc.word_nil h hx)
      (by rw [hreq]; exact hlen) (by rw [hreq, hn]; exact hless)
    rw [hreq, hn] at hin
    refine ⟨_, ctx', _, hparse, b.retrieveAll_wf hb, .inr ⟨by decide, ?_, ?_⟩⟩
    · rw [hx]
      exact not_begins_short hless
    · exact .body head rest _ hin (by omega) (by omega) hx b.retrieveAll_toString
  · let r := head.wire rest (by omega) hfits
    have hrest : rest = r.body ++ rest.drop head.request.announced :=
      (List.take_append_drop _ _).symm
    rw [hrest] at hu hlt
    apply advances_whole hb hc r h hu hhead hst hreq hlt
    rw [hx, WireRequest.bytes, List.append_assoc, ← hrest]
    rfl

/-- The chunk goes on in the head, or from its beginning. -/
theorem advances_head {q : Bytes} (h : Resumes ctx (Scan.init.feed q))
    (hx : x = q ++ b.toString) : Advances ctx b x := by
  by_cases hin : (Scan.init.feed x).state.inHead
  · have hfeed : (Scan.init.feed q).feed b.toString = Scan.init.feed x := by
      rw [hx, Scan.feed_append]
    obtain ⟨ctx', hparse, hres⟩ := parseRequest_head h (b := b) (by rw [hfeed]; exact hin)
    rw [hfeed] at hparse hres
    refine ⟨_, ctx', _, hparse, b.retrieveAll_wf hb,
      .inr ⟨ParseState.ne_of_inHead hin rfl, ?_, ?_⟩⟩
    · intro r hp
      exact r.head.not_begins (ParseState.ne_of_inHead hin rfl) (WireRequest.head_begins hp)
    · exact .head hres b.retrieveAll_toString
  · rw [hx, Scan.feed_append] at hin
    obtain ⟨u, c, rest, hu, hlive, hout⟩ := Scan.exists_exit h.inHead hin
    rw [← Scan.feed_append] at hlive hout
    rcases Scan.exit_cases hlive hout with ⟨head, hhead, rfl, hst, hreq⟩ | hinvalid
    · rw [Scan.feed_append] at hst hreq
      apply advances_headEnd hb hc h hu hhead hst hreq
      rw [hx, hu, hhead]
      simp
    · have hrefused : (Scan.init.feed x).state = ((Scan.init.feed (q ++ u)).next c).state := by
        rw [hx, hu, ← List.append_assoc, Scan.feed_append, Scan.feed_cons,
          Scan.feed_of_not_inHead _ _ (ParseState.isInvalid_not_inHead hinvalid)]
      rw [← hrefused] at hinvalid
      rw [Scan.feed_append] at hlive hrefused
      obtain ⟨ctx', hparse⟩ := parseRequest_error h hu hlive (by rw [← hrefused]; exact hinvalid)
      rw [← hrefused] at hparse
      refine ⟨_, ctx', _, hparse, b.retrieveAll_wf hb,
        .inr ⟨ParseState.ne_of_isInvalid hinvalid rfl, ?_, ?_⟩⟩
      · intro r hp
        exact r.head.not_begins (ParseState.ne_of_isInvalid hinvalid rfl)
          (WireRequest.head_begins hp)
      · refine .refused ?_ hinvalid b.retrieveAll_toString
        rw [parseRequest_state hparse]
        exact hinvalid

/-- The chunk goes on in the body. -/
theorem advances_body {head : RequestHead} {part : Bytes} {m : Nat}
    (h : InBody ctx (head.request.appendBody part) m) (hm : 0 < m)
    (hlen : part.length + m = head.request.announced)
    (hx : x = head.bytes ++ part ++ b.toString) : Advances ctx b x := by
  have hfits := hc.fits
  rw [hx, List.append_assoc] at hfits
  have hlt : b.toString.length < sizeTop := by
    rw [List.length_append, List.length_append] at hfits
    rw [sizeTop]
    omega
  by_cases hless : b.toString.length < m
  · obtain ⟨ctx', hparse, hin⟩ := parseRequest_bodyWaits h hb hlt hless
    rw [HTTPRequest.appendBody_append] at hin
    have hshort : (part ++ b.toString).length < head.request.announced := by
      rw [List.length_append]
      omega
    rw [List.append_assoc] at hx
    refine ⟨_, ctx', _, hparse, b.retrieveAll_wf hb, .inr ⟨by decide, ?_, ?_⟩⟩
    · rw [hx]
      exact not_begins_short hshort
    · refine .body head (part ++ b.toString) _ hin (by omega) ?_ hx b.retrieveAll_toString
      rw [List.length_append]
      omega
  · obtain ⟨ctx', b', hparse, hq, hwf, hstr⟩ := parseRequest_bodyTakes h hb hlt hm (by omega)
    have hall : head.request.announced ≤ (part ++ b.toString).length := by
      rw [List.length_append]
      omega
    let r := head.wire (part ++ b.toString) hall hfits
    have hbody : r.body = part ++ b.toString.take m := by
      rw [show r.body = (part ++ b.toString).take head.request.announced from rfl, ← hlen,
        List.take_length_add_append]
    refine ⟨_, ctx', b', hparse, hwf, .inl ⟨rfl, r, ?_, ?_⟩⟩
    · rw [hstr, WireRequest.bytes, hbody, show r.head = head from rfl, hx]
      simp
    · rw [hq, HTTPRequest.appendBody_append, WireRequest.request, hbody]
      rfl

end Advances

/-- One read: what the buffer held and the data are parsed. -/
theorem Stands.advances {ctx : HTTPContext} {held p data : Bytes} (h : Stands ctx held p)
    {b : Buffer} (hb : b.Wf) (hs : b.toString = held ++ data) (hc : TakesOne ctx b (p ++ data)) :
    Advances ctx b (p ++ data) := by
  cases h with
  | fresh h hp => exact advances_head hb hc (q := []) h (by rw [hs, hp, List.nil_append])
  | head h hheld => exact advances_head hb hc h (by rw [hs, hheld, List.nil_append])
  | body head part m h hm hlen hp hheld =>
    exact advances_body hb hc h hm hlen (by rw [hs, hp, hheld, List.nil_append])
  | refused h hp hheld =>
    exact advances_refused hb h hp (by rw [hs, hheld, List.nil_append])

/-- A text that begins with a request and has not a second one, where nothing was read of it. -/
theorem TakesOne.of_request {ctx : HTTPContext} {b : Buffer} (hstart : ctx.state = .start)
    (r : WireRequest) {rest : Bytes} (hfits : (r.bytes ++ rest).length < 2^63)
    (hread : r.LengthRead) (hlen : rest ≠ [] → r.head.request.hasLength)
    (hover : writtenOver b (r.bytes ++ rest) r <+: r.body)
    (hlast : ∀ r' : WireRequest, ¬r'.bytes <+: rest) : TakesOne ctx b (r.bytes ++ rest) := by
  have hp : r.bytes <+: r.bytes ++ rest := List.prefix_append _ _
  refine ⟨hfits, fun _ _ _ => .inl hstart, ?_, ?_, ?_, ?_⟩
  · intro r' hp'
    obtain ⟨-, hreq, hbody⟩ := WireRequest.unique hp' hp
    rw [WireRequest.LengthRead, hreq, hbody]
    exact hread
  · intro r' hp' hne
    obtain ⟨-, hreq, -⟩ := WireRequest.unique hp' hp
    rw [hreq]
    apply hlen
    rintro rfl
    rw [List.append_nil] at hp' hne
    exact hne (WireRequest.prefixCode r' r _ hp' List.prefix_rfl)
  · intro _ r' hp'
    obtain ⟨hhead, -, hbody⟩ := WireRequest.unique hp' hp
    have hbytes := WireRequest.prefixCode r' r _ hp' hp
    rw [writtenOver, hhead, hbody, hbytes]
    exact hover
  · intro r1 r2 htwo
    have hbytes := WireRequest.prefixCode r1 r _ ((List.prefix_append _ _).trans htwo) hp
    rw [hbytes] at htwo
    exact hlast r2 ((List.prefix_append_right_inj _).mp htwo)

/-- Between two reads the buffer holds no request, where none has come. -/
theorem Stands.held_begins {ctx : HTTPContext} {held p : Bytes} (h : Stands ctx held p)
    (hp : ∀ r : WireRequest, ¬r.bytes <+: p) (r : WireRequest) : ¬r.bytes <+: held := by
  cases h with
  | fresh h heq => exact heq ▸ hp r
  | head h hheld | body _ _ _ _ _ _ _ hheld | refused _ _ hheld =>
    rw [hheld]
    exact r.not_begins_nil

end MuduoServer
