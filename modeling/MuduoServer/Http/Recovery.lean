import MuduoServer.Http.WireRequest
import MuduoServer.Http.Server
import MuduoServer.Tcp.OutputOrder

namespace MuduoServer

/-- The states in which the parser has refused a request and the connection is left open. -/
def ParseState.refused (s : ParseState) : Bool := s.isInvalid && s != .invalid

/-- After a refusal `parseRequest` only empties the buffer. -/
theorem HTTPContext.parseRequest_refused {ctx : HTTPContext} (h : ctx.state.isInvalid)
    (b : Buffer) :
    ctx.parseRequest b = some (ctx.state, ctx, b.retrieveAll) := by
  apply parseRequest_finished
  revert h
  cases ctx.state <;> decide

/-- `parseRequest` returns the state that the context is left in. -/
theorem HTTPContext.parseRequest_state {ctx ctx' : HTTPContext} {b b' : Buffer} {st : ParseState}
    (h : ctx.parseRequest b = some (st, ctx', b')) : ctx'.state = st := by
  simp only [parseRequest, Option.bind_eq_bind, Option.bind_eq_some_iff, Option.pure_def,
    Option.some.injEq, Prod.mk.injEq] at h
  obtain ⟨l, -, c, -, hst, rfl, -⟩ := h
  exact hst

namespace Session

/-- The session where a callback returned, or where it waits for the kernel. -/
def after : Except Session Session → Session
  | .ok s => s
  | .error s => s

@[simp] theorem after_ok (s : Session) : after (.ok s) = s := rfl

@[simp] theorem onEndpoint_handed (s : Session) (r : Except Endpoint Endpoint) :
    (after (s.onEndpoint r)).handed = s.handed := by
  cases r <;> rfl

@[simp] theorem onEndpoint_context (s : Session) (r : Except Endpoint Endpoint) :
    (after (s.onEndpoint r)).context = s.context := by
  cases r <;> rfl

end Session

namespace HTTPServer

variable (files : Nat → Bytes) (onResponse : OnResponse)

/-- The read callback hands the request `q` over, and nothing else. -/
def HandsOver (s : Session) (data : Bytes) (q : HTTPRequest) : Prop :=
  ∃ r, receive files onResponse s data = some r ∧ (Session.after r).handed = s.handed ++ [q]

/-- Only a completed request is handed over, and only then is the context reset. -/
theorem dispatch_kept (s : Session) {st : ParseState} (hst : st ≠ .complete) :
    (Session.after (dispatch files onResponse s st)).handed = s.handed ∧
      (Session.after (dispatch files onResponse s st)).context = s.context := by
  cases st <;> first | exact absurd rfl hst | simp [dispatch]

theorem dispatch_complete (s : Session) :
    (Session.after (dispatch files onResponse s .complete)).handed =
      s.handed ++ [s.context.request] := by
  simp [dispatch]

theorem dispatch_reset (s : Session) :
    (Session.after (dispatch files onResponse s .complete)).context = s.context.reset := by
  simp [dispatch]

/-- A read on an open connection. -/
theorem receive_eq {s : Session} (hopen : s.endpoint.conn.state = .connected) {data : Bytes}
    {st : ParseState} {ctx : HTTPContext} {b : Buffer}
    (hparse : s.context.parseRequest (s.endpoint.conn.inBuffer.append data) = some (st, ctx, b)) :
    receive files onResponse s data =
      some (dispatch files onResponse { s.setInBuffer b with context := ctx } st) := by
  have hnot : ¬(s.setInBuffer (s.endpoint.conn.inBuffer.append data)).endpoint.conn.state ≠
      .connected := not_not_intro hopen
  rw [receive, onMessage, if_neg hnot]
  dsimp only [Session.setInBuffer]
  rw [hparse]
  rfl

/-- A refused context stays refused, and nothing is handed over. -/
theorem receive_refused {s : Session} (h : s.context.state.isInvalid) (data : Bytes) :
    ∃ r, receive files onResponse s data = some r ∧ (Session.after r).handed = s.handed ∧
      (Session.after r).context = s.context := by
  by_cases hopen : s.endpoint.conn.state = .connected
  · have hst : s.context.state ≠ .complete := ParseState.ne_of_isInvalid h rfl
    have hread := receive_eq files onResponse hopen
      (HTTPContext.parseRequest_refused h (s.endpoint.conn.inBuffer.append data))
    exact ⟨_, hread, dispatch_kept files onResponse _ hst⟩
  · refine ⟨.ok (s.setInBuffer (s.endpoint.conn.inBuffer.append data)), ?_, rfl, rfl⟩
    rw [receive, onMessage]
    exact if_pos hopen

/-- What happens on a connection: data arrives, or the connection is written to. -/
inductive Event
  | read (data : Bytes)
  | call (c : Call)

def step (s : Session) : Event → Option (Except Session Session)
  | .read data => receive files onResponse s data
  | .call c => some (s.onEndpoint (s.endpoint.step c))

/-- The runs of a connection in which each callback returns. -/
abbrev Runs : Session → List Event → Session → Prop :=
  Run fun s event s' => step files onResponse s event = some (.ok s')

theorem step_refused {s s' : Session} (h : s.context.state.isInvalid) (event : Event)
    (hstep : step files onResponse s event = some (.ok s')) : s'.context = s.context := by
  cases event with
  | read data =>
    obtain ⟨r, hr, -, hctx⟩ := receive_refused files onResponse h data
    rw [step, hr] at hstep
    cases hstep
    exact hctx
  | call c =>
    simp only [step, Option.some.injEq] at hstep
    have hctx := Session.onEndpoint_context s (s.endpoint.step c)
    rw [hstep] at hctx
    exact hctx

theorem runs_refused {s s' : Session} {events : List Event} (h : s.context.state.isInvalid)
    (hrun : Runs files onResponse s events s') : s'.context = s.context :=
  hrun.preserves (fun s' => s'.context = s.context) rfl fun s1 event s2 hctx hstep =>
    (step_refused files onResponse (by rw [hctx]; exact h) event hstep).trans hctx

/-- A new connection hands a request over exactly when `atoi` reads its length. -/
theorem new_handsOver_iff (w : Workload) (k : List Answer) (r : WireRequest) :
    HandsOver files onResponse (.new w k) r.bytes r.request ↔ r.LengthRead := by
  obtain ⟨hb, hs, -⟩ := Buffer.default.append_spec Buffer.default_wf r.bytes
  obtain ⟨ctx, hparse, hreq⟩ := parseRequest_whole r resumes_new hb (by simpa using hs)
  have hread := receive_eq files onResponse (s := .new w k) rfl hparse
  rw [HandsOver]
  simp only [hread, Option.some.injEq, exists_eq_left']
  split_ifs with hlen
  · rw [dispatch_complete, ← hreq]
    exact iff_of_true rfl hlen
  · rw [(dispatch_kept files onResponse _ (by decide)).1]
    exact iff_of_false (by simp [Session.setInBuffer]) hlen

/-- After a refusal no request is handed over any more, whatever happens on the connection in
between. On a new connection the same bytes are handed over if `atoi` reads their length. -/
theorem refused_never_recovers {s s0 s' : Session} {data : Bytes} {st : ParseState}
    {ctx : HTTPContext} {b : Buffer} (hopen : s.endpoint.conn.state = .connected)
    (hparse : s.context.parseRequest (s.endpoint.conn.inBuffer.append data) = some (st, ctx, b))
    (hst : st.refused) (hread : receive files onResponse s data = some (.ok s0))
    {events : List Event} (hrun : Runs files onResponse s0 events s') (r : WireRequest) :
    ¬HandsOver files onResponse s' r.bytes r.request ∧
      ∀ w k, HandsOver files onResponse (.new w k) r.bytes r.request ↔ r.LengthRead := by
  refine ⟨?_, fun w k => new_handsOver_iff files onResponse w k r⟩
  have hinvalid : st.isInvalid := by
    revert hst
    cases st <;> decide
  have hnot : st ≠ .complete := ParseState.ne_of_isInvalid hinvalid rfl
  have hctx : s0.context = ctx := by
    rw [receive_eq files onResponse hopen hparse, Option.some.injEq] at hread
    have hkept := (dispatch_kept files onResponse { s.setInBuffer b with context := ctx } hnot).2
    rw [hread] at hkept
    exact hkept
  have hstate : ctx.state = st := HTTPContext.parseRequest_state hparse
  have hrefused : s'.context.state.isInvalid := by
    have hkept := runs_refused files onResponse (by rw [hctx, hstate]; exact hinvalid) hrun
    rw [hkept, hctx, hstate]
    exact hinvalid
  obtain ⟨out, hout, hhanded, -⟩ := receive_refused files onResponse hrefused r.bytes
  intro ⟨out', hout', hnew⟩
  rw [hout] at hout'
  cases hout'
  rw [hhanded] at hnew
  simp at hnew

/-- A user who sets nothing on the response. -/
def plainResponse : OnResponse := fun _ res => (res, none)

/-- A new connection whose socket takes all it is given. -/
def openSession : Session := .new ⟨1, 0⟩ [.accepts 9999, .accepts 9999]

def lowerCaseRequest : Bytes := bytes "get / HTTP/1.1\r\n\r\n"

theorem lowerCaseRequest_refused :
    ∃ ctx b s0, openSession.context.parseRequest
        (openSession.endpoint.conn.inBuffer.append lowerCaseRequest) =
          some (.invalidMethod, ctx, b) ∧
      receive (fun _ => []) plainResponse openSession lowerCaseRequest = some (.ok s0) := by
  have hst : (openSession.context.parseRequest
      (openSession.endpoint.conn.inBuffer.append lowerCaseRequest)).map Prod.fst =
        some .invalidMethod := by decide +kernel
  have hok : (receive (fun _ => []) plainResponse openSession lowerCaseRequest).map
      (·.toOption.isSome) = some true := by decide +kernel
  rw [Option.map_eq_some_iff] at hst hok
  obtain ⟨⟨st, ctx, b⟩, hparse, rfl⟩ := hst
  obtain ⟨r, hread, hr⟩ := hok
  cases r with
  | error s => simp [Except.toOption] at hr
  | ok s0 => exact ⟨ctx, b, s0, hparse, hread⟩

theorem refused_never_recovers_lowerCase :
    ∃ s0, receive (fun _ => []) plainResponse openSession lowerCaseRequest = some (.ok s0) ∧
      ¬HandsOver (fun _ => []) plainResponse s0 WireRequest.bare.bytes
        WireRequest.bare.request := by
  obtain ⟨ctx, b, s0, hparse, hread⟩ := lowerCaseRequest_refused
  exact ⟨s0, hread, (refused_never_recovers (fun _ => []) plainResponse rfl hparse rfl hread
    (.nil s0) .bare).1⟩

/-- A request that would be answered on a new connection is lost after one with a lower-case
method. -/
theorem lowerCase_then_bare :
    ∃ s0, receive (fun _ => []) plainResponse openSession lowerCaseRequest = some (.ok s0) ∧
      ¬HandsOver (fun _ => []) plainResponse s0 WireRequest.bare.bytes WireRequest.bare.request ∧
      HandsOver (fun _ => []) plainResponse openSession WireRequest.bare.bytes
        WireRequest.bare.request := by
  obtain ⟨ctx, b, s0, hparse, hread⟩ := lowerCaseRequest_refused
  refine ⟨s0, hread, ?_, (new_handsOver_iff _ _ _ _ .bare).mpr (by decide)⟩
  have hnone : ((receive (fun _ => []) plainResponse openSession lowerCaseRequest).bind fun r =>
      (receive (fun _ => []) plainResponse (Session.after r) WireRequest.bare.bytes).map fun r =>
        (Session.after r).handed.length) = some 0 := by decide +kernel
  intro ⟨r, hr, hhanded⟩
  rw [hread, Option.bind_some, Session.after_ok, hr, Option.map_some, hhanded] at hnone
  simp at hnone

end HTTPServer

end MuduoServer
