import MuduoServer.Http.AllHanded
import MuduoServer.Http.Replies

namespace MuduoServer

namespace HTTPServer

/-- The response to a request, as `on_response_callback_` leaves it. -/
def answer (onResponse : OnResponse) (q : HTTPRequest) : HTTPResponse :=
  (onResponse q
    (.new (toLower (q.getHeaderByKey (bytes "Connection")) = bytes "close") .ok)).1

/-- The bytes of the responses to requests. -/
def replies (onResponse : OnResponse) (qs : List HTTPRequest) : Bytes :=
  qs.flatMap fun q => (answer onResponse q).getResponse.toString

/-- A handler that fills in the response at once, without a big file. A response that leaves the
connection open can be told apart from the next one. -/
structure RespondsAtOnce (onResponse : OnResponse) : Prop where
  atOnce : ∀ q res, (onResponse q res).2 = none
  noFile : ∀ q, (answer onResponse q).bigFileFd < 0
  readable : ∀ q, (answer onResponse q).close = false → (answer onResponse q).Readable

theorem RespondsAtOnce.usesCalls {onResponse : OnResponse} (h : RespondsAtOnce onResponse) :
    UsesCalls onResponse := by
  intro q res res' callback e e' heq _
  have hnone := h.atOnce q res
  rw [heq] at hnone
  cases hnone

theorem replies_append (onResponse : OnResponse) (qs : List HTTPRequest) (q : HTTPRequest) :
    replies onResponse (qs ++ [q]) =
      replies onResponse qs ++ (answer onResponse q).getResponse.toString := by
  rw [replies, List.flatMap_append, List.flatMap_singleton]
  rfl

end HTTPServer

namespace Endpoint

variable {e e' : Endpoint} {payload : Bytes}

theorem queue_fileList (e : Endpoint) (left : Bytes) :
    (e.queue left).conn.fileList = e.conn.fileList := by
  unfold queue
  dsimp only
  split_ifs <;> rfl

theorem send_fileList {msg : Bytes} (h : e.send msg = .ok e') :
    e'.conn.fileList = e.conn.fileList := by
  obtain ⟨-, rfl⟩ | ⟨-, n, k, -, rfl⟩ | ⟨-, k, -, rfl⟩ | ⟨-, err, k, -, -, rfl⟩ := send_ok h
  · exact queue_fileList _ _
  · exact queue_fileList _ _
  · exact queue_fileList _ _
  · exact handleClose_fileList _

theorem writeCallback_fileList (hfiles : e.conn.fileList = []) (h : e.writeCallback = .ok e') :
    e'.conn.fileList = [] := by
  obtain ⟨-, rfl⟩ | ⟨-, flag, e1, goesOn, e2, hw, hs, hend⟩ := writeCallback_ok h
  · exact hfiles
  · have h1 : e1.conn.fileList = [] := by
      obtain ⟨n, k, -, rfl⟩ | ⟨err, k, -, -, rfl⟩ | ⟨k, -, rfl⟩ := writeNonBlocking_ok hw
      · exact hfiles
      · exact hfiles
      · rw [handleClose_fileList]
        exact hfiles
    rw [sendFiles_nil h1] at hs
    cases hs
    obtain ⟨-, -, -, rfl⟩ | ⟨-, rfl⟩ := hend
    · exact h1
    · exact h1

/-- The queue of messages is the only one in use, and what is sent and what waits is `payload`. -/
structure Orderly (e : Endpoint) (payload : Bytes) : Prop where
  inOrder : e.InOrder payload
  noFiles : e.conn.fileList = []

theorem Orderly.send (h : e.Orderly payload) {msg : Bytes} (hs : e.send msg = .ok e') :
    e'.Orderly (payload ++ msg) := by
  have hkeeps := keeps_send h.inOrder msg (.inr h.noFiles)
  rw [hs] at hkeeps
  exact ⟨hkeeps, (send_fileList hs).trans h.noFiles⟩

theorem Orderly.writeCallback (h : e.Orderly payload) (hs : e.writeCallback = .ok e') :
    e'.Orderly payload := by
  have hkeeps := keeps_writeCallback h.inOrder (.inl h.noFiles)
  rw [hs] at hkeeps
  exact ⟨hkeeps, writeCallback_fileList h.noFiles hs⟩

/-- All that is sent and that waits, when no file does. -/
theorem Orderly.bytes (h : e.Orderly payload) :
    e.socket ++ e.conn.outBuffer.toString = payload := by
  have hbytes := h.inOrder.bytes
  rw [pending, h.noFiles, List.flatMap_nil, List.append_nil] at hbytes
  exact hbytes

end Endpoint

/-- A text with which a request has begun is not refused. -/
theorem WireRequest.begun_not_refused {r : WireRequest} {p : Bytes} (hp : p <+: r.bytes) :
    ¬(Scan.init.feed p).state.isInvalid := by
  intro hinvalid
  have hin := ParseState.isInvalid_not_inHead hinvalid
  by_cases hlen : p.length < r.head.bytes.length
  · have hhead : p <+: r.head.bytes :=
      List.prefix_of_prefix_length_le hp (List.prefix_append _ _) hlen.le
    obtain ⟨hstate, -⟩ := r.head.scan_take p.length hlen
    rw [← List.prefix_iff_eq_take.mp hhead, hin] at hstate
    cases hstate
  · have hhead : r.head.bytes <+: p :=
      List.prefix_of_prefix_length_le (List.prefix_append _ _) hp (Nat.le_of_not_lt hlen)
    obtain ⟨rest, rfl⟩ := hhead
    rw [Scan.feed_append, r.head.scan, Scan.feed_of_not_inHead _ _ rfl] at hinvalid
    cases hinvalid

/-- A parser refuses only what no request begins with. -/
theorem Stands.refused_scan {ctx : HTTPContext} {held p : Bytes} (h : Stands ctx held p)
    (hinvalid : ctx.state.isInvalid) : (Scan.init.feed p).state.isInvalid := by
  cases h with
  | fresh h _ =>
    refine absurd h.inHead ?_
    rw [← h.state, ParseState.isInvalid_not_inHead hinvalid]
    decide
  | head h _ => exact h.state ▸ hinvalid
  | body _ _ _ h =>
    rw [h.state] at hinvalid
    cases hinvalid
  | refused _ hp _ => exact hp

namespace Endpoint

variable {e e' : Endpoint} {payload : Bytes}

theorem Orderly.setInBuffer (h : e.Orderly payload) (b : Buffer) :
    Orderly { e with conn := { e.conn with inBuffer := b } } payload :=
  ⟨⟨h.inOrder.wf, h.inOrder.connected, h.inOrder.obliging, h.inOrder.writing, h.inOrder.files,
    h.inOrder.bytes⟩, h.noFiles⟩

/-- The server sends a response, and closes the connection if the response says so. -/
theorem Orderly.respond {files : Nat → Bytes} {res : HTTPResponse} (h : e.Orderly payload)
    (hfile : res.bigFileFd < 0) (hs : HTTPServer.respond files res none e = .ok e') :
    if res.close then
      e'.conn.state = .disconnected ∧ e'.socket <+: payload ++ res.getResponse.toString
    else e'.Orderly (payload ++ res.getResponse.toString) := by
  obtain ⟨e1, hsend, hrest⟩ := HTTPServer.respond_ok hs
  have h1 := h.send hsend
  obtain ⟨-, rfl⟩ | ⟨hno, -⟩ := hrest
  · split_ifs with hclose
    · rw [HTTPServer.finish_socket]
      exact ⟨HTTPServer.finish_state hclose e1, h1.inOrder.socket_prefix⟩
    · rw [HTTPServer.finish, if_neg (fun hboth => hclose hboth.1)]
      exact h1
  · exact absurd hfile hno

end Endpoint

/-- While the parser waits for more, the server does nothing. -/
theorem HTTPServer.dispatch_waits {files : Nat → Bytes} {onResponse : OnResponse} (s : Session)
    {st : ParseState} (hcomplete : st ≠ .complete) (hinvalid : ¬st.isInvalid) :
    dispatch files onResponse s st = .ok s := by
  revert hcomplete hinvalid
  cases st <;> first | exact fun _ _ => rfl | simp [ParseState.isInvalid, ParseState.value]

namespace Traffic

open HTTPServer

/-- The client has sent nothing but requests, the last one perhaps not to its end. -/
def WellSent (x : Traffic) : Prop :=
  ∃ rs : List WireRequest, x.received <+: rs.flatMap WireRequest.bytes

/-- What can happen to a connection that the user leaves to the server. -/
def FromOutside : Event → Prop
  | .read _ => True
  | .handle event => event = .call .writable ∨ event = .handleClose

/-- The connection between two events: the requests that came are answered, or it is closed behind a
part of the answers. -/
inductive Exchanges (onResponse : OnResponse) (x : Traffic) : Prop
  | open (rs : List WireRequest) (p : Bytes) (h : x.Follows rs p)
      (hout : x.session.endpoint.Orderly (replies onResponse x.session.handed))
      (hstays : ∀ q ∈ x.session.handed, (answer onResponse q).close = false)
  | closed (hclosed : x.state = .disconnected)
      (hout : x.session.endpoint.socket <+: replies onResponse x.session.handed)

section Steps

variable {files : Nat → Bytes} {onResponse : OnResponse} {x x' : Traffic}

theorem step_received {event : Event} (hs : x.step files onResponse event = some x') :
    x.received <+: x'.received := by
  cases event with
  | read data =>
    rw [step] at hs
    split at hs
    · cases hs
      exact List.prefix_append _ _
    · cases hs
  | handle event =>
    obtain ⟨e, -, rfl⟩ := step_handle hs
    exact List.prefix_rfl

/-- What has come behind the last request is not refused, if the client sends only requests. -/
theorem WellSent.begins (hsent : x.WellSent) {rs : List WireRequest} {p : Bytes}
    (h : Remains WireRequest.bytes x.received rs p) : ¬(Scan.init.feed p).state.isInvalid := by
  obtain ⟨rs', hrs⟩ := hsent
  rcases WireRequest.prefixCode.rest_begins h hrs with rfl | ⟨r, hr⟩
  · decide
  · exact WireRequest.begun_not_refused hr

/-- A read on a closed connection only fills the input buffer. -/
theorem step_read_closed {data : Bytes} (hclosed : x.state = .disconnected)
    (hs : x.step files onResponse (.read data) = some x') :
    x' = ⟨x.session.setInBuffer (x.inBuffer.append data), x.received ++ data⟩ := by
  have hread : receive files onResponse x.session data =
      some (.ok (x.session.setInBuffer (x.inBuffer.append data))) := by
    have hnot : (x.session.setInBuffer (x.inBuffer.append data)).endpoint.conn.state ≠
        .connected := by
      have hstate : (x.session.setInBuffer (x.inBuffer.append data)).endpoint.conn.state =
        .disconnected := hclosed
      rw [hstate]
      decide
    rw [receive, onMessage]
    exact if_pos hnot
  rw [step, hread] at hs
  cases hs
  rfl

/-- A request that comes to its end is answered; before its end nothing is sent. -/
theorem Exchanges.read (h : RespondsAtOnce onResponse) {data : Bytes} (hx : x.Exchanges onResponse)
    (hone : x.OneAtATime (.read data)) (hs : x.step files onResponse (.read data) = some x')
    (hsent : x'.WellSent) : x'.Exchanges onResponse := by
  cases hx with
  | closed hclosed hout =>
    obtain rfl := step_read_closed hclosed hs
    exact .closed hclosed hout
  | «open» rs p hfollows hout hstays =>
    have hopen : x.state = .connected := hout.inOrder.connected
    have hc := hone hopen rs p hfollows.text
    obtain ⟨rs', p', hfollows'⟩ := hfollows.read h.usesCalls hopen hc hs
    obtain ⟨hwf, hstr, -⟩ := x.inBuffer.append_spec hfollows.wf data
    obtain ⟨st, ctx, b, hparse, -, hcases⟩ := hfollows.stands.advances hwf hstr hc
    obtain ⟨hd, hreceived⟩ := step_read hopen hs hparse
    rcases hcases with ⟨rfl, -⟩ | ⟨hst, hlast, hstands⟩
    · have hhanded := dispatch_complete files onResponse
        { x.session.setInBuffer b with context := ctx }
      rw [hd] at hhanded
      have hhanded' : x'.session.handed = x.session.handed ++ [ctx.request] := hhanded
      simp only [dispatch] at hd
      have hrespond := onEndpoint_ok hd
      rw [h.atOnce] at hrespond
      have hend := (hout.setInBuffer b).respond (h.noFile ctx.request) hrespond
      rw [← replies_append, ← hhanded'] at hend
      split_ifs at hend with hclose
      · exact .closed hend.1 hend.2
      · refine .open rs' p' hfollows' hend ?_
        intro q hq
        rw [hhanded', List.mem_append, List.mem_singleton] at hq
        rcases hq with hq | rfl
        · exact hstays q hq
        · simpa using hclose
    · have hinvalid : ¬st.isInvalid := by
        intro hinvalid
        rw [← HTTPContext.parseRequest_state hparse] at hinvalid
        have htext := hfollows.text.append data hlast
        rw [← hreceived] at htext
        exact hsent.begins htext (hstands.refused_scan hinvalid)
      rw [dispatch_waits _ hst hinvalid] at hd
      have hsession := Except.ok.inj hd
      refine .open rs' p' hfollows' ?_ ?_
      · rw [← hsession]
        exact hout.setInBuffer b
      · rw [← hsession]
        exact hstays

theorem Exchanges.handle {event : Endpoint.Event}
    (hevent : event = .call .writable ∨ event = .handleClose) (hx : x.Exchanges onResponse)
    (hs : x.step files onResponse (.handle event) = some x') : x'.Exchanges onResponse := by
  obtain ⟨e, he, rfl⟩ := step_handle hs
  cases hx with
  | closed hclosed hout =>
    have hstate : x.session.endpoint.conn.state = .disconnected := hclosed
    rcases hevent with rfl | rfl
    · rw [Endpoint.handle, Endpoint.step, Endpoint.writeCallback, if_pos hstate] at he
      cases he
      exact .closed hclosed hout
    · rw [Endpoint.handle, Endpoint.handleClose, if_pos hstate] at he
      cases he
      exact .closed hclosed hout
  | «open» rs p hfollows hout hstays =>
    have hfollows' := hfollows.handle hs
    rcases hevent with rfl | rfl
    · exact .open rs p hfollows' (hout.writeCallback he) hstays
    · cases he
      refine .closed (Endpoint.handleClose_state _) ?_
      have hsocket : x.session.endpoint.handleClose.socket = x.session.endpoint.socket := by
        rw [Endpoint.handleClose]
        split_ifs <;> rfl
      dsimp only
      rw [hsocket]
      exact hout.inOrder.socket_prefix

theorem Exchanges.step (h : RespondsAtOnce onResponse) {event : Event} (hx : x.Exchanges onResponse)
    (hone : x.OneAtATime event) (hevent : FromOutside event)
    (hs : x.step files onResponse event = some x') (hsent : x'.WellSent) :
    x'.Exchanges onResponse := by
  cases event with
  | read data => exact hx.read h hone hs hsent
  | handle event => exact hx.handle hevent hs

theorem new_exchanges (onResponse : OnResponse) (w : Workload) {k : List Answer}
    (hk : Obliging k) : (new w k).Exchanges onResponse :=
  .open [] [] (follows_new w k) ⟨Endpoint.connected_inOrder w hk, rfl⟩ (by simp [new, Session.new])

end Steps

/-- A client that sends requests and nothing else, at most one of which comes to its end in each
read, has them answered in their order. However the requests are cut into reads and whatever part of
the output the kernel takes at a time, the bytes that the socket has accepted, with those that wait,
are read by the client as the responses to the requests that came, one for each; and those of a
connection that was closed are a part of them. -/
theorem requests_answered (files : Nat → Bytes) (onResponse : OnResponse)
    (h : RespondsAtOnce onResponse) (w : Workload) (k : List Answer) (hk : Obliging k)
    (events : List Event) (x : Traffic)
    (hrun : Run (fun (x : Traffic) event x' => x.OneAtATime event ∧ FromOutside event ∧
      x.step files onResponse event = some x') (.new w k) events x) (hsent : x.WellSent) :
    x.session.endpoint.socket <+: replies onResponse x.session.handed ∧
      (x.state = .connected → ∃ rs p, Remains WireRequest.bytes x.received rs p ∧
        x.session.handed = rs.map WireRequest.request ∧
        ∃ rest, rest <+: CRLF ∧ Peer.readReplies rs.length
            (x.session.endpoint.socket ++ x.session.endpoint.conn.outBuffer.toString) =
          some (rs.map fun r => (answer onResponse r.request).message, rest)) := by
  have hx : x.WellSent → x.Exchanges onResponse := by
    refine hrun.preserves (fun x => x.WellSent → x.Exchanges onResponse)
      (fun _ => new_exchanges onResponse w hk) ?_
    rintro x event x' hinv ⟨hone, hevent, hs⟩ hsent'
    obtain ⟨rs, hrs⟩ := hsent'
    exact (hinv ⟨rs, (step_received hs).trans hrs⟩).step h hone hevent hs ⟨rs, hrs⟩
  cases hx hsent with
  | closed hclosed hout =>
    refine ⟨hout, ?_⟩
    intro hopen
    rw [hclosed] at hopen
    cases hopen
  | «open» rs p hfollows hout hstays =>
    refine ⟨hout.inOrder.socket_prefix, fun _ => ⟨rs, p, hfollows.text, hfollows.handed, ?_⟩⟩
    have hreadable : ∀ res ∈ x.session.handed.map (answer onResponse), res.Readable := by
      intro res hres
      obtain ⟨q, hq, rfl⟩ := List.mem_map.mp hres
      exact h.readable q (hstays q hq)
    obtain ⟨rest, hrest, hread⟩ := Peer.readReplies_flatMap hreadable (.inl rfl)
    refine ⟨rest, ?_, ?_⟩
    · rcases hrest with rfl | rfl
      · exact List.nil_prefix
      · exact List.prefix_rfl
    · rw [List.nil_append, List.flatMap_map, List.length_map, List.map_map, hfollows.handed,
        List.length_map, List.map_map] at hread
      rw [hout.bytes, replies, hfollows.handed]
      exact hread

/-- A handler that sends the body of each request back. -/
def echo : OnResponse := fun q res =>
  ({ res with body := some (Buffer.default.append q.body) }, none)

theorem echo_responds : RespondsAtOnce echo where
  atOnce _ _ := rfl
  noFile _ := show (-1 : Int) < 0 by decide
  readable q _ := by
    refine ⟨?_, ?_, ⟨_, rfl, (Buffer.default.append_spec Buffer.default_wf q.body).1⟩, ?_, rfl⟩
    · intro h hmem
      cases hmem
    · intro h hmem
      cases hmem
    · exact fun hstatus => by cases hstatus

/-- The kernel takes ten bytes of the first response at first. -/
theorem requests_answered_echo :
    ∃ (x : Traffic) (rs : List WireRequest) (rest : Bytes), x.state = .connected ∧
      x.session.handed.length = 2 ∧ rs.length = 2 ∧
      x.session.endpoint.conn.outBuffer.toString = [] ∧
      Peer.readReplies 2 x.session.endpoint.socket =
        some (rs.map fun r => (answer echo r.request).message, rest) := by
  let x0 := new ⟨1, 0⟩ [.accepts 10, .accepts 999]
  have hfirst : (x0.step (fun _ => []) echo (.read firstRead)).map
      (fun x => (x.received, x.session.context.state)) = some (firstRead, .start) := by
    decide +kernel
  have hrest : ((x0.step (fun _ => []) echo (.read firstRead)).bind fun x =>
      (x.step (fun _ => []) echo (.read secondRead)).bind fun x =>
      x.step (fun _ => []) echo (.handle (.call .writable))).map
      (fun x => (x.state, x.session.handed.length, x.received,
        x.session.endpoint.conn.outBuffer.toString)) =
        some (.connected, 2, firstRead ++ secondRead, []) := by
    decide +kernel
  obtain ⟨x1, hs1, heq1⟩ := Option.map_eq_some_iff.mp hfirst
  obtain ⟨hreceived, hstart⟩ := Prod.mk.inj heq1
  rw [hs1, Option.bind_some] at hrest
  obtain ⟨x3, hs, heq3⟩ := Option.map_eq_some_iff.mp hrest
  obtain ⟨x2, hs2, hs3⟩ := Option.bind_eq_some_iff.mp hs
  simp only [Prod.mk.injEq] at heq3
  obtain ⟨hopen, hhanded, hall, hout⟩ := heq3
  have hone1 : x0.OneAtATime (.read firstRead) := by
    intro _ rs p hp
    obtain rfl := WireRequest.prefixCode.rest_unique hp (.nil WireRequest.not_begins_nil)
    exact TakesOne.of_request rfl .empty (by decide) (by decide) (by decide +kernel)
      (by simp [writtenOver, show WireRequest.empty.body = [] from rfl]) firstRead_remains.last
  have hone2 : x1.OneAtATime (.read secondRead) := by
    intro _ rs p hp
    rw [hreceived] at hp
    obtain rfl := WireRequest.prefixCode.rest_unique hp firstRead_remains
    have hwhole : TakesOne x1.session.context (x1.inBuffer.append secondRead)
        (WireRequest.hello.bytes ++ []) :=
      .of_request hstart .hello (by decide) (by decide) (by decide) (by simp [writtenOver])
        WireRequest.not_begins_nil
    exact hwhole
  have hrun : Run (fun (x : Traffic) event x' => x.OneAtATime event ∧ FromOutside event ∧
      x.step (fun _ => []) echo event = some x') x0
      [.read firstRead, .read secondRead, .handle (.call .writable)] x3 :=
    .snoc (.snoc (.snoc (.nil x0) ⟨hone1, trivial, hs1⟩) ⟨hone2, trivial, hs2⟩)
      ⟨trivial, .inl rfl, hs3⟩
  have hsent : x3.WellSent := ⟨[.empty, .hello], by rw [hall]; decide +kernel⟩
  obtain ⟨-, hanswered⟩ := requests_answered (fun _ => []) echo echo_responds ⟨1, 0⟩ _
    (by simp [Obliging]) _ x3 hrun hsent
  obtain ⟨rs, p, -, hrs, rest, -, hread⟩ := hanswered hopen
  have hlen : rs.length = 2 := by rw [← hhanded, hrs, List.length_map]
  rw [hout, List.append_nil, hlen] at hread
  exact ⟨x3, rs, rest, hopen, hhanded, hlen, hout, hread⟩

end Traffic

end MuduoServer
