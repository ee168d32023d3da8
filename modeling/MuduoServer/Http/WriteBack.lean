import MuduoServer.Framework.Accesses
import MuduoServer.Http.BodyBounds

namespace MuduoServer

open HTTPContext

/-- The accesses of the branch `BODY` to the array of the buffer, in which the text begins at `r`:
the surplus is copied to the writer, and then the body is read. -/
def Locals.bodyAccesses (l : Locals) (r size : Nat) : List Access :=
  (if l.ctx.contentLength < l.left size then
    Access.copy (r + l.start + l.ctx.contentLength).toNat l.buf.writerIndex
      (l.left size - l.ctx.contentLength)
    else []) ++ Access.loads (r + l.start).toNat (l.bodyLength size)

/-- A fresh context parses a head with its body and a rest where they lie in the buffer: the array
stays where it is, no byte is read after it was written over, and the request has the body and the
buffer the rest. -/
structure InPlace (b : Buffer) (h : RequestHead) (body rest : Bytes) : Prop where
  runs : ∃ l, RunsBody .new b l
  unmoved : ∀ l, RunsBody .new b l →
    l.buf.ensureWritableBytes (l.left b.readableBytes - l.ctx.contentLength) = l.buf
  loadsFirst : ∀ l, RunsBody .new b l →
    Access.LoadsFirst (l.bodyAccesses b.readerIndex b.readableBytes)
  result : ∃ ctx b', parseRequest .new b = some (.complete, ctx, b') ∧
    ctx.request = h.request.appendBody body ∧ b'.toString = rest

/-- Where no byte of the body is read after it was written over, it is read as it was. -/
theorem string_after_copy (b : Buffer) (hb : b.Wf) (k n m : Nat)
    (hk : k + n + m = b.readableBytes)
    (h : Access.LoadsFirst (Access.copy (b.readerIndex + k + n) b.cheapPrepend m ++
      Access.loads (b.readerIndex + k) n)) :
    (Text.inBuffer b.readerIndex b.readableBytes).string
        (b.retrieveAll.append ((b.toString.drop (k + n)).take m)) k ((k : Int) + n) =
      some ((b.toString.drop k).take n) := by
  have hc := hb.cheap_le
  have hr := hb.reader_le
  have hw := hb.writer_le
  have hsurplus : (b.buffer.drop (b.readerIndex + k + n)).take m =
      (b.toString.drop (k + n)).take m := by
    rw [← b.toString_range (k + n) m (by omega), Nat.add_assoc]
  have hlen : ((b.toString.drop (k + n)).take m).length = m := by
    rw [List.length_take, List.length_drop, b.toString_length hb]
    omega
  unfold Buffer.readableBytes at hk
  have hover : (b.retrieveAll.append ((b.toString.drop (k + n)).take m)).buffer =
      Access.exec b.buffer none (Access.copy (b.readerIndex + k + n) b.cheapPrepend m) := by
    rw [b.retrieveAll_append_buffer hb _ (by rw [hlen, Buffer.readableBytes]; omega),
      Access.exec_copy, Slice.copyForward_eq_overwrite _ _ _ _ (by omega) (by omega), hsurplus]
  have hfit : b.readerIndex + b.readableBytes ≤
      (b.retrieveAll.append ((b.toString.drop (k + n)).take m)).buffer.length := by
    rw [hover, Access.exec_copy, Slice.copyForward_length, Buffer.readableBytes]
    omega
  rw [Text.string_inBuffer (by rw [Buffer.readableBytes]; omega) hfit, hover, h.loads_eq,
    b.toString_range k n (by rw [Buffer.readableBytes]; omega)]

section InPlace

variable (h : RequestHead) {body rest : Bytes} {b : Buffer} (hb : b.Wf)
  (hs : b.toString = h.bytes ++ (body ++ rest)) (hlen : h.request.hasLength)
  (hd : h.request.declared = body.length) (hrest : rest ≠ []) (hfit : b.buffer.length < sizeTop)

include hb hs hfit in
theorem behind_length_lt : (body ++ rest).length < sizeTop := by
  have hw := hb.writer_le
  have hl := b.toString_length hb
  rw [hs, List.length_append, Buffer.readableBytes] at hl
  omega

include hb hs hlen hd hfit in
/-- The locals with which `BODY` runs. -/
theorem RunsBody.behind {l : Locals} (hr : RunsBody .new b l) :
    l.start = h.bytes.length ∧ l.buf = b.retrieveAll ∧ l.ctx.contentLength = body.length ∧
      l.left b.readableBytes = body.length + rest.length := by
  obtain ⟨u, extra, hbehind⟩ := hr.behindHead (q := []) resumes_new hb
  obtain ⟨head, hhead, hreq⟩ := RequestHead.of_scan hbehind.scan
  have hsame : head.bytes = h.bytes := by
    refine RequestHead.bytes_unique (t := b.toString) ⟨extra, ?_⟩ ⟨body ++ rest, hs.symm⟩
    rw [hbehind.text, hhead]
    simp
  have hextra : extra = body ++ rest := by
    have htext := hs.symm.trans hbehind.text
    rw [← hsame, hhead, List.append_assoc] at htext
    exact (List.cons.inj (List.append_cancel_left htext)).2.symm
  have hulen : u.length + 1 = h.bytes.length := by
    rw [← hsame, hhead]
    simp
  have hcur : l.cur = h.bytes.length := by
    rw [hbehind.cur, ← hulen]
    simp [Scan.init]
  have hlt := behind_length_lt h hb hs hfit
  have hleft : (b.readableBytes : Int) - l.cur = (body ++ rest).length := by
    rw [← b.toString_length hb, hs, hcur, List.length_append]
    omega
  refine ⟨?_, hbehind.buf, ?_, ?_⟩
  · obtain ⟨pre, -, hpre, hstart⟩ := hbehind.atBody.place
    rw [hstart, ← hpre, hcur]
  · rw [hbehind.contentLength, Scan.feed_nil, hreq, RequestHead.request_of_bytes hsame]
    exact HTTPRequest.bodyBytes_eq hlen hd
  · rw [Locals.left, hleft, toSizeT_natCast _ hlt, List.length_append]

include hb hs hlen hd hrest hfit in
/-- The accesses with which `BODY` runs. -/
theorem RunsBody.accesses {l : Locals} (hr : RunsBody .new b l) :
    l.bodyAccesses b.readerIndex b.readableBytes =
      Access.copy (b.readerIndex + h.bytes.length + body.length) b.cheapPrepend rest.length ++
        Access.loads (b.readerIndex + h.bytes.length) body.length := by
  obtain ⟨hstart, hbuf, hn, hleft⟩ := hr.behind h hb hs hlen hd hfit
  have hpos := List.length_pos_iff.mpr hrest
  have hlength : l.bodyLength b.readableBytes = body.length := by
    rw [Locals.bodyLength, hn, hleft, if_neg (by omega)]
  rw [Locals.bodyAccesses, hn, hleft, hlength, hstart, hbuf, if_pos (by omega),
    Nat.add_sub_cancel_left]
  rfl

include hb hs hlen hd hrest hfit in
theorem RunsBody.loadsFirst_iff {l : Locals} (hr : RunsBody .new b l) :
    Access.LoadsFirst (l.bodyAccesses b.readerIndex b.readableBytes) ↔
      body = [] ∨ rest.length ≤ b.readerIndex - b.cheapPrepend + h.bytes.length := by
  have hc := hb.cheap_le
  rw [hr.accesses h hb hs hlen hd hrest hfit,
    Access.loadsFirst_copy_loads_iff (by omega) (by omega), List.length_eq_zero_iff]
  exact or_congr_right (by omega)

omit hlen in
include hb hs hrest in
theorem exists_runs : ∃ l, RunsBody .new b l := by
  obtain ⟨p, hp, hst, hreq⟩ := h.scan_end
  have hpos := List.length_pos_iff.mpr hrest
  have hne : body ++ rest ≠ [] := List.append_ne_nil_of_right_ne_nil _ hrest
  obtain ⟨l, hr, -⟩ := exists_runsBody (q := []) resumes_new hb
    (show b.toString = p ++ LF :: (body ++ rest) by rw [hs, hp]; simp) hst hne
    (by
      rw [HTTPRequest.afterHead, if_pos]
      left
      rw [List.length_append]
      simp [Scan.init]
      omega)
  exact ⟨l, hr⟩

include hb hs hlen hd hfit in
/-- The array has room for the rest. -/
theorem RunsBody.unmoved {l : Locals} (hr : RunsBody .new b l) :
    l.buf.ensureWritableBytes (l.left b.readableBytes - l.ctx.contentLength) = l.buf := by
  obtain ⟨-, hbuf, hn, hleft⟩ := hr.behind h hb hs hlen hd hfit
  have hc := hb.cheap_le
  have hw := hb.writer_le
  have hl := b.toString_length hb
  rw [hs, List.length_append, List.length_append, Buffer.readableBytes] at hl
  rw [hn, hleft, hbuf, Nat.add_sub_cancel_left, Buffer.ensureWritableBytes, if_neg]
  simp only [Buffer.writableBytes, Buffer.retrieveAll]
  omega

include hb hs hlen hd hrest hfit in
/-- When the body is read before it is written over, the request and the rest come out right. -/
theorem result_of_loadsFirst
    (hfirst : body = [] ∨ rest.length ≤ b.readerIndex - b.cheapPrepend + h.bytes.length) :
    ∃ ctx b', parseRequest .new b = some (.complete, ctx, b') ∧
      ctx.request = h.request.appendBody body ∧ b'.toString = rest := by
  have hc := hb.cheap_le
  obtain ⟨p, hp, hst, hreq⟩ := h.scan_end
  have hplen : p.length + 1 = h.bytes.length := by rw [hp]; simp
  have hpos := List.length_pos_iff.mpr hrest
  have hu : b.toString = p ++ LF :: (body ++ rest) := by rw [hs, hp]; simp
  have hn : (Scan.init.feed p).request.bodyBytes = body.length := by
    rw [hreq]
    exact HTTPRequest.bodyBytes_eq hlen hd
  obtain ⟨ctx, hctx, hparse⟩ := parseRequest_writeBack resumes_new hb hu hst
    (behind_length_lt h hb hs hfit) hn (by rw [List.length_append]; omega)
  have hsize : b.readableBytes = h.bytes.length + body.length + rest.length := by
    rw [← b.toString_length hb, hs]
    simp [Nat.add_assoc]
  have hsurplus : (b.toString.drop (h.bytes.length + body.length)).take rest.length = rest := by
    rw [hs, ← List.append_assoc, ← List.length_append, List.drop_left, List.take_length]
  have hbody := string_after_copy b hb h.bytes.length body.length rest.length (by omega)
    ((Access.loadsFirst_copy_loads_iff (by omega) (by omega) _ _).mpr
      (hfirst.imp List.length_eq_zero_iff.mpr (by omega)))
  rw [hsurplus, hs, List.drop_left, List.take_left] at hbody
  rw [List.drop_left, hplen, hbody, Option.map_some] at hparse
  refine ⟨_, _, hparse, by rw [hctx, hreq], ?_⟩
  rw [(Buffer.append_spec _ (b.retrieveAll_wf hb) rest).2.1, Buffer.retrieveAll_toString,
    List.nil_append]

end InPlace

/-- The write-back is in place exactly when there is no body, or the rest is no longer than the head
with the bytes that were retrieved before it. -/
theorem inPlace_iff (h : RequestHead) (body rest : Bytes) (b : Buffer) (hb : b.Wf)
    (hs : b.toString = h.bytes ++ (body ++ rest)) (hlen : h.request.hasLength)
    (hd : h.request.declared = body.length) (hrest : rest ≠ []) (hfit : b.buffer.length < sizeTop) :
    InPlace b h body rest ↔
      body = [] ∨ rest.length ≤ b.readerIndex - b.cheapPrepend + h.bytes.length := by
  constructor
  · intro hin
    obtain ⟨l, hr⟩ := hin.runs
    exact (hr.loadsFirst_iff h hb hs hlen hd hrest hfit).mp (hin.loadsFirst l hr)
  · intro hcond
    exact ⟨exists_runs h hb hs hrest, fun l hr => hr.unmoved h hb hs hlen hd hfit,
      fun l hr => (hr.loadsFirst_iff h hb hs hlen hd hrest hfit).mpr hcond,
      result_of_loadsFirst h hb hs hlen hd hrest hfit hcond⟩

/-- A request with the body `hello` and then `rest`, in a buffer that nothing was read from. -/
theorem hello_toString (rest : Bytes) :
    (Buffer.default.append (WireRequest.hello.bytes ++ rest)).toString =
    WireRequest.hello.head.bytes ++ (bytes "hello" ++ rest) := by
  rw [(Buffer.append_spec _ Buffer.default_wf _).2.1, Buffer.default_toString, List.nil_append,
    WireRequest.bytes, List.append_assoc]
  rfl

theorem inPlace_hello :
    InPlace (Buffer.default.append (WireRequest.hello.bytes ++ bytes "x")) WireRequest.hello.head
        (bytes "hello") (bytes "x") :=
  (inPlace_iff WireRequest.hello.head (bytes "hello") (bytes "x") _
    (Buffer.append_spec _ Buffer.default_wf _).1 (hello_toString _) (by decide +kernel)
    (by decide +kernel) (by decide) (by decide +kernel)).mpr (.inr (by decide +kernel))

/-- A second request of fifty-one bytes is longer than the head of thirty-seven: its end lies over
the body when that is read. -/
theorem body_written_over :
    ¬InPlace (Buffer.default.append (WireRequest.hello.bytes ++ WireRequest.helloWorld.bytes))
      WireRequest.hello.head (bytes "hello") WireRequest.helloWorld.bytes := by
  intro hin
  obtain ⟨ctx, b', hparse, hreq, -⟩ := hin.result
  have hbody : (parseRequest .new (Buffer.default.append
      (WireRequest.hello.bytes ++ WireRequest.helloWorld.bytes))).map (·.2.1.request.body) =
      some (bytes "\nhell") := by decide +kernel
  rw [hparse, Option.map_some, hreq] at hbody
  exact absurd hbody (by decide)

end MuduoServer
