import MuduoServer.Http.Context
import MuduoServer.Http.Response
import MuduoServer.Tcp.Connection

namespace MuduoServer

/-- `util::toLower` in the C locale. -/
def toLower (s : Bytes) : Bytes := s.map fun c => if isupper c then c + 32 else c

/-- A callback set on the response: it decides when the response is sent. -/
abbrev DelayedSend := HTTPResponse → Endpoint → Except Endpoint Endpoint

/-- `on_response_callback_`: it fills in the response, and may set a callback. -/
abbrev OnResponse := HTTPRequest → HTTPResponse → HTTPResponse × Option DelayedSend

/-- A connection of the server with the context of its parser, and the requests that were handed to
`on_response_callback_` so far. -/
structure Session where
  endpoint : Endpoint
  context : HTTPContext
  handed : List HTTPRequest

namespace Session

/-- A connection that has just been enabled, with the context that `onConnection` gives it. -/
def new (w : Workload) (kernel : List Answer) : Session := ⟨.connected w kernel, .new, []⟩

def setInBuffer (s : Session) (b : Buffer) : Session :=
  { s with endpoint := { s.endpoint with conn := { s.endpoint.conn with inBuffer := b } } }

/-- The end of a call on the connection, or where it waits for the kernel. -/
def onEndpoint (s : Session) : Except Endpoint Endpoint → Except Session Session
  | .ok e => .ok { s with endpoint := e }
  | .error e => .error { s with endpoint := e }

end Session

namespace HTTPServer

/-- The response to a completed request, after `on_response_callback_`. `files` gives the bytes
behind a descriptor. -/
def respond (files : Nat → Bytes) (res : HTTPResponse) (callback : Option DelayedSend)
    (e : Endpoint) : Except Endpoint Endpoint :=
  match callback with
  | some callback => callback res e
  | none => do
    let e ← e.send res.getResponse.toString
    let e ←
      if res.bigFileFd < 0 then pure e
      else e.sendFile ⟨res.bigFileFd.toNat, files res.bigFileFd.toNat⟩
    return if res.close ∧ e.conn.state ≠ .disconnected then e.handleClose else e

/-- The response to a request that was not understood. -/
def refuse (status : HTTPResponse.Status) (e : Endpoint) : Except Endpoint Endpoint :=
  e.send (HTTPResponse.new false status).getResponse.toString

/-- The `switch` of the on-message callback over the state that the parser returned. -/
def dispatch (files : Nat → Bytes) (onResponse : OnResponse) (s : Session) :
    ParseState → Except Session Session
  | .complete =>
    let req := s.context.request
    let close := toLower (req.getHeaderByKey (bytes "Connection")) = bytes "close"
    let (res, callback) := onResponse req (.new close .ok)
    let s := { s with context := s.context.reset, handed := s.handed ++ [req] }
    s.onEndpoint (respond files res callback s.endpoint)
  | .invalidMethod => s.onEndpoint (refuse .notImplemented s.endpoint)
  | .invalidUrl => s.onEndpoint (refuse .notFound s.endpoint)
  | .invalidProtocol => s.onEndpoint (refuse .httpVersionNotSupported s.endpoint)
  | .invalidHeader => s.onEndpoint (refuse .forbidden s.endpoint)
  | .invalidCrlf => s.onEndpoint (refuse .badRequest s.endpoint)
  | .invalid => s.onEndpoint do
    let e ← s.endpoint.send (HTTPResponse.new true .badRequest).getResponse.toString
    return if e.conn.state = .disconnected then e else e.handleClose
  | _ => .ok s

/-- The on-message callback. `none` is a run of the parser without a defined end. -/
def onMessage (files : Nat → Bytes) (onResponse : OnResponse) (s : Session) :
    Option (Except Session Session) :=
  if s.endpoint.conn.state ≠ .connected then some (.ok s)
  else (s.context.parseRequest s.endpoint.conn.inBuffer).map fun (state, context, buffer) =>
    dispatch files onResponse { s.setInBuffer buffer with context := context } state

/-- The read callback, when `data` is what the socket had. -/
def receive (files : Nat → Bytes) (onResponse : OnResponse) (s : Session) (data : Bytes) :
    Option (Except Session Session) :=
  onMessage files onResponse (s.setInBuffer (s.endpoint.conn.inBuffer.append data))

end HTTPServer

end MuduoServer
