import MuduoServer.Http.GracefulClose
import MuduoServer.Http.ParseStream

namespace MuduoServer

open HTTPServer

theorem Endpoint.Acts.mayClose {e e' : Endpoint} (h : e.Acts e') : e.MayClose e' := by
  obtain ⟨events, hrun⟩ := h
  exact hrun.preserves e.MayClose (.refl e) fun _ _ _ hinv hs => hinv.trans (mayClose_handle hs)

/-- A connection of the server with the bytes that its socket has delivered. -/
structure Traffic where
  session : Session
  received : Bytes

namespace Traffic

/-- Data arrives, or something else happens on the connection. -/
inductive Event
  | read (data : Bytes)
  | handle (event : Endpoint.Event)

/-- A connection that has just been enabled. -/
def new (w : Workload) (k : List Answer) : Traffic := ⟨.new w k, []⟩

def state (x : Traffic) : TCPState := x.session.endpoint.conn.state

def inBuffer (x : Traffic) : Buffer := x.session.endpoint.conn.inBuffer

/-- A callback on the connection that returns. -/
def step (files : Nat → Bytes) (onResponse : OnResponse) (x : Traffic) : Event → Option Traffic
  | .read data =>
    match receive files onResponse x.session data with
    | some (.ok s) => some ⟨s, x.received ++ data⟩
    | _ => none
  | .handle event =>
    match x.session.endpoint.handle event with
    | .ok e => some ⟨{ x.session with endpoint := e }, x.received⟩
    | .error _ => none

/-- No complete request is left in the input buffer: the requests with which the received bytes
begin were handed over, in their order. -/
def AllHanded (x : Traffic) : Prop :=
  (∀ r : WireRequest, ¬r.bytes <+: x.inBuffer.toString) ∧
    ∀ rs : List WireRequest, rs.flatMap WireRequest.bytes <+: x.received →
      rs.map WireRequest.request <+: x.session.handed

/-- The reads under which no request is left: what each of them completes is taken by one call of
the parser. -/
def OneAtATime (x : Traffic) : Event → Prop
  | .read data => x.state = .connected → ∀ rs p, Remains WireRequest.bytes x.received rs p →
      TakesOne x.session.context (x.inBuffer.append data) (p ++ data)
  | .handle _ => True

/-- The requests `rs` were handed over, and `p` has come behind them. -/
structure Follows (x : Traffic) (rs : List WireRequest) (p : Bytes) : Prop where
  wf : x.inBuffer.Wf
  text : Remains WireRequest.bytes x.received rs p
  handed : x.session.handed = rs.map WireRequest.request
  stands : Stands x.session.context x.inBuffer.toString p

theorem follows_new (w : Workload) (k : List Answer) : (new w k).Follows [] [] :=
  ⟨Buffer.default_wf, .nil WireRequest.not_begins_nil, rfl,
    .fresh resumes_new Buffer.default_toString⟩

theorem Follows.allHanded {x : Traffic} {rs : List WireRequest} {p : Bytes}
    (h : x.Follows rs p) : x.AllHanded := by
  refine ⟨h.stands.held_begins h.text.last, ?_⟩
  intro rs' hrs
  rw [h.handed]
  exact WireRequest.prefixCode.map_prefixed (fun _ _ => WireRequest.request_of_bytes) h.text hrs

section Steps

variable {files : Nat → Bytes} {onResponse : OnResponse} {x x' : Traffic}

/-- A read on an open connection, with what the parser makes of it. -/
theorem step_read {data : Bytes} (hopen : x.state = .connected)
    (hs : x.step files onResponse (.read data) = some x') {st : ParseState} {ctx : HTTPContext}
    {b : Buffer}
    (hparse : x.session.context.parseRequest (x.inBuffer.append data) = some (st, ctx, b)) :
    dispatch files onResponse { x.session.setInBuffer b with context := ctx } st =
        .ok x'.session ∧ x'.received = x.received ++ data := by
  rw [step, receive_eq files onResponse hopen hparse] at hs
  dsimp only at hs
  split at hs
  · next s heq =>
    cases hs
    exact ⟨Option.some.inj heq, rfl⟩
  · cases hs

theorem step_handle {event : Endpoint.Event}
    (hs : x.step files onResponse (.handle event) = some x') :
    ∃ e, x.session.endpoint.handle event = .ok e ∧
      x' = ⟨{ x.session with endpoint := e }, x.received⟩ := by
  rw [step] at hs
  split at hs
  · next e heq =>
    cases hs
    exact ⟨e, heq, rfl⟩
  · cases hs

/-- A connection that is open after a step was open before it. -/
theorem step_open {event : Event} (hs : x.step files onResponse event = some x')
    (hopen : x'.state = .connected) : x.state = .connected := by
  by_contra hnot
  cases event with
  | read data =>
    have hread : receive files onResponse x.session data =
        some (.ok (x.session.setInBuffer (x.inBuffer.append data))) := by
      rw [receive, onMessage]
      exact if_pos hnot
    rw [step, hread] at hs
    cases hs
    exact hnot hopen
  | handle event =>
    obtain ⟨e, he, rfl⟩ := step_handle hs
    rcases (Endpoint.mayClose_handle he).state with hsame | hclosed
    · exact hnot (hsame.symm.trans hopen)
    · have hopen' : e.conn.state = .connected := hopen
      rw [hclosed] at hopen'
      cases hopen'

/-- The requests that were handed over are the ones that have come, after a read too. -/
theorem Follows.read (hcalls : UsesCalls onResponse) {rs : List WireRequest} {p data : Bytes}
    (h : x.Follows rs p) (hopen : x.state = .connected)
    (hc : TakesOne x.session.context (x.inBuffer.append data) (p ++ data))
    (hs : x.step files onResponse (.read data) = some x') : ∃ rs' p', x'.Follows rs' p' := by
  obtain ⟨hwf, hstr, -⟩ := x.inBuffer.append_spec h.wf data
  obtain ⟨st, ctx, b, hparse, hb, hcases⟩ := h.stands.advances hwf hstr hc
  obtain ⟨hd, hreceived⟩ := step_read hopen hs hparse
  have hbuf : x'.inBuffer = b := (dispatch_acts hcalls hd).mayClose.inBuffer
  rcases hcases with ⟨rfl, r, htext, hreq⟩ | ⟨hst, hlast, hstands⟩
  · have hrest : ∀ r' : WireRequest, ¬r'.bytes <+: b.toString := by
      intro r' hp
      apply hc.last r r'
      rw [htext]
      exact (List.prefix_append_right_inj _).mpr hp
    have hhanded := dispatch_complete files onResponse
      { x.session.setInBuffer b with context := ctx }
    have hreset := dispatch_reset files onResponse
      { x.session.setInBuffer b with context := ctx }
    rw [hd] at hhanded hreset
    refine ⟨rs ++ [r], b.toString, ?_, ?_, ?_, ?_⟩
    · rw [hbuf]
      exact hb
    · rw [hreceived]
      exact h.text.snoc htext hrest
    · rw [List.map_append, ← h.handed]
      exact hhanded.trans (by rw [hreq]; rfl)
    · refine .fresh ?_ (by rw [hbuf])
      rw [show x'.session.context = ctx.reset from hreset]
      exact resumes_reset ctx
  · obtain ⟨hhanded, hctx⟩ := dispatch_kept files onResponse
      { x.session.setInBuffer b with context := ctx } hst
    rw [hd] at hhanded hctx
    refine ⟨rs, p ++ data, ?_, ?_, hhanded.trans h.handed, ?_⟩
    · rw [hbuf]
      exact hb
    · rw [hreceived]
      exact h.text.append data hlast
    · rw [hbuf, show x'.session.context = ctx from hctx]
      exact hstands

theorem Follows.handle {rs : List WireRequest} {p : Bytes} (h : x.Follows rs p)
    {event : Endpoint.Event} (hs : x.step files onResponse (.handle event) = some x') :
    x'.Follows rs p := by
  obtain ⟨e, he, rfl⟩ := step_handle hs
  have hbuf : e.conn.inBuffer = x.inBuffer := (Endpoint.mayClose_handle he).inBuffer
  refine ⟨?_, h.text, h.handed, ?_⟩
  · show e.conn.inBuffer.Wf
    rw [hbuf]
    exact h.wf
  · show Stands x.session.context e.conn.inBuffer.toString p
    rw [hbuf]
    exact h.stands

/-- While a connection is open, each step keeps account of its requests. -/
theorem follows_step (hcalls : UsesCalls onResponse) {event : Event}
    (h : x.state = .connected → ∃ rs p, x.Follows rs p)
    (hs : x.OneAtATime event ∧ x.step files onResponse event = some x')
    (hopen : x'.state = .connected) : ∃ rs p, x'.Follows rs p := by
  obtain ⟨hone, hstep⟩ := hs
  have hbefore := step_open hstep hopen
  obtain ⟨rs, p, hfollows⟩ := h hbefore
  cases event with
  | read data => exact hfollows.read hcalls hbefore (hone hbefore rs p hfollows.text) hstep
  | handle event => exact ⟨rs, p, hfollows.handle hstep⟩

end Steps

/-- While at most one request is completed by each read, none is left when a callback returns. -/
theorem all_handed (files : Nat → Bytes) (onResponse : OnResponse)
    (hcalls : UsesCalls onResponse) (w : Workload) (k : List Answer) {events : List Event}
    {x : Traffic} (hrun : Run (fun (x : Traffic) event x' => x.OneAtATime event ∧
      x.step files onResponse event = some x') (.new w k) events x)
    (hopen : x.state = .connected) : x.AllHanded := by
  obtain ⟨rs, p, h⟩ := hrun.preserves
    (fun x : Traffic => x.state = .connected → ∃ rs p, x.Follows rs p)
    (fun _ => ⟨[], [], follows_new w k⟩) (fun _ _ _ hinv hs => follows_step hcalls hinv hs) hopen
  exact h.allHanded

/-- A request, and most of the head of another. -/
def firstRead : Bytes :=
  WireRequest.empty.bytes ++ bytes "GET / HTTP/1.1\r\nContent-Length: 5\r\n"

/-- The second request is `WireRequest.hello`. -/
def secondRead : Bytes := bytes "\r\nhello"

theorem firstRead_remains : Remains WireRequest.bytes firstRead [.empty]
    (bytes "GET / HTTP/1.1\r\nContent-Length: 5\r\n") := by
  refine ⟨rfl, ?_⟩
  intro r hp
  exact r.head.not_begins (by decide +kernel) (WireRequest.head_begins hp)

theorem all_handed_twoReads :
    ∃ x, Run (fun (x : Traffic) event x' => x.OneAtATime event ∧
        x.step (fun _ => []) plainResponse event = some x')
        (.new ⟨1, 0⟩ [.accepts 999, .accepts 999]) [.read firstRead, .read secondRead] x ∧
      x.AllHanded ∧ x.session.handed.length = 2 := by
  let x0 := new ⟨1, 0⟩ [.accepts 999, .accepts 999]
  have hfirst : (x0.step (fun _ => []) plainResponse (.read firstRead)).map
      (fun x => (x.received, x.session.context.state)) = some (firstRead, .start) := by
    decide +kernel
  have hsecond : ((x0.step (fun _ => []) plainResponse (.read firstRead)).bind fun x =>
      x.step (fun _ => []) plainResponse (.read secondRead)).map
      (fun x => (x.state, x.session.handed.length)) = some (.connected, 2) := by
    decide +kernel
  obtain ⟨x1, hs1, heq1⟩ := Option.map_eq_some_iff.mp hfirst
  obtain ⟨hreceived, hstart⟩ := Prod.mk.inj heq1
  rw [hs1, Option.bind_some] at hsecond
  obtain ⟨x2, hs2, heq2⟩ := Option.map_eq_some_iff.mp hsecond
  obtain ⟨hopen, hhanded⟩ := Prod.mk.inj heq2
  have hone1 : x0.OneAtATime (.read firstRead) := by
    intro _ rs p hp
    obtain rfl := WireRequest.prefixCode.rest_unique hp (.nil WireRequest.not_begins_nil)
    exact TakesOne.of_request rfl .empty (by decide) (by decide) (by decide +kernel)
      (by simp [writtenOver, show WireRequest.empty.body = [] from rfl]) firstRead_remains.last
  have hone2 : x1.OneAtATime (.read secondRead) := by
    intro _ rs p hp
    rw [hreceived] at hp
    obtain rfl := WireRequest.prefixCode.rest_unique hp firstRead_remains
    have hwhole : TakesOne x1.session.context (x1.inBuffer.append secondRead)
        (WireRequest.hello.bytes ++ []) :=
      .of_request hstart .hello (by decide) (by decide) (by decide) (by simp [writtenOver])
        WireRequest.not_begins_nil
    exact hwhole
  have hrun : Run (fun (x : Traffic) event x' => x.OneAtATime event ∧
      x.step (fun _ => []) plainResponse event = some x') x0
      [.read firstRead, .read secondRead] x2 :=
    .snoc (.snoc (.nil x0) ⟨hone1, hs1⟩) ⟨hone2, hs2⟩
  exact ⟨x2, hrun, all_handed (fun _ => []) plainResponse (fun _ _ _ _ _ _ h => by cases h) _ _
    hrun hopen, hhanded⟩

/-- Two requests in one read: the callback takes the first, and the second is left in the buffer. -/
theorem second_left_waiting :
    ∃ x, Run (fun (x : Traffic) event x' =>
        x.step (fun _ => []) plainResponse event = some x') (.new ⟨1, 0⟩ [.accepts 999])
        [.read (WireRequest.empty.bytes ++ WireRequest.empty.bytes)] x ∧
      x.state = .connected ∧ x.inBuffer.toString = WireRequest.empty.bytes ∧
      x.session.handed.length = 1 ∧ ¬x.AllHanded := by
  have hstep : ((new ⟨1, 0⟩ [.accepts 999]).step (fun _ => []) plainResponse
      (.read (WireRequest.empty.bytes ++ WireRequest.empty.bytes))).map
      (fun x => (x.state, x.inBuffer.toString, x.session.handed.length)) =
        some (.connected, WireRequest.empty.bytes, 1) := by decide +kernel
  obtain ⟨x, hs, heq⟩ := Option.map_eq_some_iff.mp hstep
  simp only [Prod.mk.injEq] at heq
  obtain ⟨hopen, hleft, hhanded⟩ := heq
  refine ⟨x, .snoc (.nil _) hs, hopen, hleft, hhanded, ?_⟩
  intro hall
  exact hall.1 .empty (hleft ▸ List.prefix_rfl)

end Traffic

end MuduoServer
