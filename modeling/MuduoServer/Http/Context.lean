import MuduoServer.Http.Request
import MuduoServer.Tcp.Buffer

namespace MuduoServer

/-- `HTTPContext::ParseState`, in the order of the enumeration. -/
inductive ParseState
  | invalid | invalidMethod | invalidUrl | invalidProtocol | invalidHeader | invalidCrlf
  | complete
  | start | method
  | beforeUrl | url
  | beforeUrlParamKey | urlParamKey | beforeUrlParamValue | urlParamValue
  | beforeProtocol | protocol
  | beforeVersion | version
  | header | headerKey | beforeHeaderValue | headerValue
  | encounterCr | crLf | crLfCr
  | body
  deriving DecidableEq, Repr

namespace ParseState

/-- The value of the enumerator, by which the source compares states. -/
def value : ParseState → Nat
  | invalid => 0 | invalidMethod => 1 | invalidUrl => 2 | invalidProtocol => 3
  | invalidHeader => 4 | invalidCrlf => 5 | complete => 6
  | start => 7 | method => 8 | beforeUrl => 9 | url => 10
  | beforeUrlParamKey => 11 | urlParamKey => 12 | beforeUrlParamValue => 13 | urlParamValue => 14
  | beforeProtocol => 15 | protocol => 16 | beforeVersion => 17 | version => 18
  | header => 19 | headerKey => 20 | beforeHeaderValue => 21 | headerValue => 22
  | encounterCr => 23 | crLf => 24 | crLfCr => 25 | body => 26

/-- `state > ParseState::COMPLETE`: the loop goes on, and a caller waits for more data. -/
def unfinished (s : ParseState) : Bool := complete.value < s.value

/-- One of the `INVALID` states. -/
def isInvalid (s : ParseState) : Bool := s.value < complete.value

end ParseState

def isInvalidURLChar (c : UInt8) : Bool :=
  c ≤ 0x1F || c == 0x7F || c ∈ bytes " !#$&()*+,:;<=>?@['\\\n\r]^`|"

def isInvalidHeaderKeyChar (c : UInt8) : Bool :=
  c ≤ 0x1F || c == 0x7F || c ∈ bytes " ,;<=>@\\^`|"

structure ParsingSnapshot where
  lastRequest : Bytes
  parseState : ParseState
  colon : Int

structure HTTPContext where
  contentLength : Nat
  state : ParseState
  request : HTTPRequest
  snapshot : ParsingSnapshot

/-- The text between `begin` and `end`: the readable bytes the input buffer had, read in the
buffer's own array, or the string joined from the snapshot and the new bytes. -/
inductive Text
  | inBuffer (readerIndex size : Nat)
  | combined (request : Bytes)

def Text.bytes (t : Text) (b : Buffer) : Bytes :=
  match t with
  | .inBuffer r n => (b.buffer.drop r).take n
  | .combined s => s

/-- `std::string(p, q)` for two pointers into the text. -/
def Text.string (t : Text) (b : Buffer) (p q : Int) : Option Bytes := Slice.range? (t.bytes b) p q

/-- `buffer->append(p, len)` for a pointer into the text. -/
def Text.appendTo (t : Text) (b : Buffer) (p : Int) (len : Nat) : Option Buffer :=
  match t with
  | .inBuffer r _ => b.appendWithin (r + p) len
  | .combined s => (Slice.range? s p (p + len)).map b.append

/-- The locals of `parseRequest`; pointers are offsets from `begin`. -/
structure Locals where
  ctx : HTTPContext
  buf : Buffer
  start : Int
  cur : Int
  colon : Int

namespace Locals

def goto (l : Locals) (s : ParseState) : Locals := { l with ctx := { l.ctx with state := s } }

/-- A call of one of the setters of `request_`. -/
def onRequest (l : Locals) (f : HTTPRequest → HTTPRequest) : Locals :=
  { l with ctx := { l.ctx with request := f l.ctx.request } }

/-- `start = cur + 1`. -/
def startNext (l : Locals) : Locals := { l with start := l.cur + 1 }

end Locals

namespace HTTPContext

/-- `HTTPContext()`. `make_unique<ParsingSnapshot>()` leaves `colon__` zero. -/
def new : HTTPContext := ⟨npos, .start, .new, ⟨[], .start, 0⟩⟩

def reset (c : HTTPContext) : HTTPContext :=
  ⟨npos, .start, .new, { c.snapshot with parseState := .start }⟩

/-- The branch for the line feed of the blank line. `size` counts the bytes of the newest chunk. -/
def endOfHead (size : Nat) (l : Locals) : Locals :=
  if l.ctx.request.headers.lookup (bytes "Content-Length") ≠ none then
    let n := toSizeT (atoi (l.ctx.request.getHeaderByKey (bytes "Content-Length")))
    let l := { l with ctx := { l.ctx with contentLength := n } }
    if n < 0 then l.goto .invalidHeader
    else if l.cur + 1 < (size : Int) then l.goto .body
    else if n = 0 then l.goto .complete
    else l.goto .body
  else if l.cur + 1 < (size : Int) then l.goto .body
  else l.goto .complete

/-- The branch `BODY`. -/
def bodyStep (t : Text) (size : Nat) (fin : Int) (l : Locals) : Option Locals := do
  let left := toSizeT ((size : Int) - l.cur)
  let contentLength := l.ctx.contentLength
  let (l, bodyLength) ←
    if contentLength > left then
      let ctx := { l.ctx with contentLength := contentLength - left }
      pure ({ l with ctx := ctx, cur := fin - 1 }, left)
    else if contentLength < left then
      let buf ← t.appendTo l.buf (l.start + contentLength) (left - contentLength)
      pure ({ l.goto .complete with buf := buf }, contentLength)
    else pure (l.goto .complete, contentLength)
  let body ← t.string l.buf l.start (l.start + bodyLength)
  pure (l.onRequest (·.appendBody body))

/-- The body of the loop for the current byte `c`, without the `++cur` at its end. -/
def parseChar (t : Text) (size : Nat) (fin : Int) (l : Locals) (c : UInt8) : Option Locals :=
  match l.ctx.state with
  | .start =>
    if isblank c || c == CR || c == LF then some l
    else if isupper c then some { l.goto .method with start := l.cur }
    else some (l.goto .invalidMethod)
  | .method =>
    if isupper c then some l
    else if isblank c then do
      let word ← t.string l.buf l.start l.cur
      return ((l.goto .beforeUrl).onRequest (·.setMethod word)).startNext
    else some (l.goto .invalidMethod)
  | .beforeUrl =>
    if c == 47 then some (l.goto .url) else some (l.goto .invalidUrl)
  | .url =>
    if c == 63 then do
      let word ← t.string l.buf l.start l.cur
      return ((l.goto .beforeUrlParamKey).onRequest (·.setUrl word)).startNext
    else if isblank c then do
      let word ← t.string l.buf l.start l.cur
      return ((l.goto .beforeProtocol).onRequest (·.setUrl word)).startNext
    else if isInvalidURLChar c then some (l.goto .invalidUrl)
    else some l
  | .beforeUrlParamKey =>
    if isInvalidURLChar c then some (l.goto .invalidUrl) else some (l.goto .urlParamKey)
  | .urlParamKey =>
    if c == 61 then some { l.goto .beforeUrlParamValue with colon := l.cur }
    else if isInvalidURLChar c then some (l.goto .invalidUrl)
    else some l
  | .beforeUrlParamValue =>
    if isInvalidURLChar c then some (l.goto .invalidUrl) else some (l.goto .urlParamValue)
  | .urlParamValue =>
    if c == 38 then do
      let key ← t.string l.buf l.start l.colon
      let value ← t.string l.buf (l.colon + 1) l.cur
      return ((l.goto .beforeUrlParamKey).onRequest (·.addParam key value)).startNext
    else if isblank c then do
      let key ← t.string l.buf l.start l.colon
      let value ← t.string l.buf (l.colon + 1) l.cur
      return ((l.goto .beforeProtocol).onRequest (·.addParam key value)).startNext
    else if isInvalidURLChar c then some (l.goto .invalidUrl)
    else some l
  | .beforeProtocol =>
    if isupper c then some { l.goto .protocol with start := l.cur }
    else some (l.goto .invalidProtocol)
  | .protocol =>
    if isupper c then some l
    else if c == 47 then do
      let word ← t.string l.buf l.start l.cur
      return ((l.goto .beforeVersion).onRequest (·.setProtocol word)).startNext
    else some (l.goto .invalidProtocol)
  | .beforeVersion =>
    if isdigit c then some (l.goto .version) else some (l.goto .invalidProtocol)
  | .version =>
    if c == CR then do
      let word ← t.string l.buf l.start l.cur
      return ((l.goto .encounterCr).onRequest (·.setVersion word)).startNext
    else if isdigit c || c == 46 then some l
    else some (l.goto .invalidProtocol)
  | .encounterCr =>
    if c == LF then some (l.goto .crLf).startNext else some (l.goto .invalidCrlf)
  | .crLf =>
    if c == CR then some (l.goto .crLfCr)
    else if isInvalidHeaderKeyChar c then some (l.goto .invalidHeader)
    else some (l.goto .headerKey)
  | .headerKey =>
    if c == 58 then some { l.goto .beforeHeaderValue with colon := l.cur }
    else if isInvalidHeaderKeyChar c then some (l.goto .invalidHeader)
    else some l
  | .beforeHeaderValue =>
    if !isblank c then some (l.goto .invalidHeader) else some (l.goto .headerValue)
  | .headerValue =>
    if c == CR then do
      let key ← t.string l.buf l.start l.colon
      let value ← t.string l.buf (l.colon + 2) l.cur
      return ((l.goto .encounterCr).onRequest (·.addHeader key value)).startNext
    else some l
  | .crLfCr =>
    if c == LF then some (endOfHead size l).startNext else some (l.goto .invalidCrlf)
  | .body => bodyStep t size fin l
  | _ => some (l.goto .invalid)

/-- `while (state_ > COMPLETE && cur < end)`. Each round moves `cur`, so `end - cur` rounds do. -/
def parseLoop (t : Text) (size : Nat) : Nat → Locals → Option Locals
  | 0, l => some l
  | fuel + 1, l =>
    let text := t.bytes l.buf
    if l.ctx.state.unfinished ∧ l.cur < text.length then do
      let c ← text[l.cur.toNat]?
      let l ← parseChar t size text.length l c
      parseLoop t size fuel { l with cur := l.cur + 1 }
    else some l

/-- The `switch` after the loop: an unfinished state is saved in the snapshot. -/
def saveSnapshot (t : Text) (l : Locals) : Option HTTPContext :=
  if !l.ctx.state.unfinished then some l.ctx
  else if l.ctx.state = .body then some { l.ctx with snapshot := ⟨[], .body, 0⟩ }
  else do
    let last ← t.string l.buf l.start l.cur
    let colon := if l.colon ≠ 0 then l.colon - l.start else 0
    return { l.ctx with snapshot := ⟨last, l.ctx.state, colon⟩ }

/-- The locals before the loop, and the text they point into. -/
def enter (ctx : HTTPContext) (b : Buffer) : Text × Locals :=
  if ParseState.start.value < ctx.snapshot.parseState.value then
    (.combined (ctx.snapshot.lastRequest ++ b.toString),
      ⟨ctx, b.retrieveAll, 0, ctx.snapshot.lastRequest.length, ctx.snapshot.colon⟩)
  else (.inBuffer b.readerIndex b.readableBytes, ⟨ctx, b.retrieveAll, 0, 0, 0⟩)

/-- `parseRequest(buffer)`: the state returned, the context and the buffer afterwards. `none` is a
run that reads or writes outside its memory, or one that an exception ends. -/
def parseRequest (ctx : HTTPContext) (b : Buffer) :
    Option (ParseState × HTTPContext × Buffer) := do
  let (t, l) := enter ctx b
  let l ← parseLoop t b.readableBytes ((t.bytes l.buf).length - l.cur.toNat) l
  let ctx ← saveSnapshot t l
  return (ctx.state, ctx, l.buf)

end HTTPContext

end MuduoServer
