import MuduoServer.Tcp.Buffer
import MuduoServer.Tcp.Channel

namespace MuduoServer

inductive TCPState
  | invalid | connected | disconnected | closing
  deriving DecidableEq, Repr

/-- The values of `errno` that the code tells apart. -/
inductive Errno
  | eagain | eintr | other
  deriving DecidableEq, Repr

/-- The kernel's answer to a `::write` or a `::sendfile`: it accepts at most `n` bytes, or fails. -/
inductive Answer
  | accepts (n : Nat)
  | fails (e : Errno)
  deriving DecidableEq, Repr

/-- A file descriptor and the bytes of the open file behind it. -/
structure OpenFile where
  fd : Nat
  content : Bytes
  deriving DecidableEq, Repr

/-- `TCPConnection::FileInfo`. -/
structure FileInfo where
  file : OpenFile
  size : Nat
  sent : Nat
  deriving DecidableEq, Repr

/-- The bytes that a `::sendfile` for the file offers. -/
def FileInfo.rest (f : FileInfo) : Bytes := (f.file.content.drop f.sent).take (f.size - f.sent)

theorem FileInfo.length_rest_le (f : FileInfo) : f.rest.length ≤ f.size - f.sent := by
  rw [FileInfo.rest]
  exact List.length_take_le _ _

/-- `EventLoop::Workload`. The arithmetic of its atomics wraps. -/
structure Workload where
  connections : Nat
  leftBytes : Int64
  deriving DecidableEq, Repr

structure TCPConnection where
  state : TCPState
  channel : Channel
  inBuffer : Buffer
  outBuffer : Buffer
  fileList : List FileInfo
  deriving DecidableEq, Repr

namespace TCPConnection

/-- The constructor: a channel for reading, edge-triggered. -/
def new : TCPConnection := ⟨.invalid, .new true false true, .default, .default, []⟩

/-- `enableConnection`, without the callback of the user. -/
def enableConnection (c : TCPConnection) : TCPConnection :=
  { c with state := .connected, channel := c.channel.flushEvent }

end TCPConnection

/-- A connection in its surroundings: the workload of its loop, the bytes that its socket has
accepted, the descriptors given to `::close`, how often `on_close_callback_` was called, and the
answers that the kernel will give. -/
structure Endpoint where
  conn : TCPConnection
  workload : Workload
  socket : Bytes
  closed : List OpenFile
  closeCalls : Nat
  kernel : List Answer
  deriving DecidableEq, Repr

namespace Endpoint

/-- A connection that has just been enabled. -/
def connected (w : Workload) (kernel : List Answer) : Endpoint :=
  ⟨TCPConnection.new.enableConnection, w, [], [], 0, kernel⟩

/-- `::write` or `::sendfile` of the bytes offered. A call that the kernel has not answered yet
ends the run of the code where it stands. -/
def write (e : Endpoint) (offered : Bytes) : Except Endpoint (Except Errno Nat × Endpoint) :=
  match e.kernel with
  | [] => .error e
  | .accepts n :: k =>
    .ok (.ok (min n offered.length), { e with kernel := k, socket := e.socket ++ offered.take n })
  | .fails err :: k => .ok (.error err, { e with kernel := k })

def setOutBuffer (e : Endpoint) (b : Buffer) : Endpoint :=
  { e with conn := { e.conn with outBuffer := b } }

def setChannel (e : Endpoint) (c : Channel) : Endpoint :=
  { e with conn := { e.conn with channel := c } }

def setFileList (e : Endpoint) (fs : List FileInfo) : Endpoint :=
  { e with conn := { e.conn with fileList := fs } }

/-- `::close` of a file. -/
def close (e : Endpoint) (f : OpenFile) : Endpoint := { e with closed := e.closed ++ [f] }

/-- `left_bytes_.fetch_add`. -/
def addLeftBytes (e : Endpoint) (n : Int) : Endpoint :=
  { e with workload := { e.workload with leftBytes := e.workload.leftBytes + Int64.ofInt n } }

def handleClose (e : Endpoint) : Endpoint :=
  if e.conn.state = .disconnected then e
  else
    let fs := e.conn.fileList
    { e with
      conn := { e.conn with state := .disconnected }
      workload := ⟨toSizeT (e.workload.connections - 1),
        e.workload.leftBytes - Int64.ofInt (fs.map fun f => (f.size : Int) - f.sent).sum⟩
      closed := e.closed ++ fs.map (·.file)
      closeCalls := e.closeCalls + 1 }

theorem handleClose_state (e : Endpoint) : e.handleClose.conn.state = .disconnected := by
  rw [handleClose]
  split_ifs with h
  · exact h
  · rfl

theorem handleClose_fileList (e : Endpoint) : e.handleClose.conn.fileList = e.conn.fileList := by
  rw [handleClose]
  split_ifs <;> rfl

theorem handleClose_inBuffer (e : Endpoint) : e.handleClose.conn.inBuffer = e.conn.inBuffer := by
  rw [handleClose]
  split_ifs <;> rfl

/-- The result is 1 after a write, 0 when the kernel takes nothing for now, -1 after an error. -/
def writeNonBlocking (e : Endpoint) : Except Endpoint (Int × Endpoint) := do
  let (r, e) ← e.write e.conn.outBuffer.toString
  match r with
  | .ok sent => return (1, e.setOutBuffer (e.conn.outBuffer.retrieve sent))
  | .error .eagain => return (0, e)
  | .error .eintr => return (0, e)
  | .error .other => return (-1, e.handleClose)

/-- After a `::sendfile` of the front file `f`: a sent file is closed and leaves the list. -/
def fileSent (e : Endpoint) (f : FileInfo) (fs : List FileInfo) (sentOnce : Nat) : Endpoint :=
  let f := { f with sent := f.sent + sentOnce }
  let e := if f.sent ≥ f.size then (e.close f.file).setFileList fs else e.setFileList (f :: fs)
  e.addLeftBytes (-sentOnce)

/-- The loop over `file_list_` in the write callback; the result tells whether the callback goes
on after it. A round takes one answer of the kernel, so as many rounds as answers are enough. -/
def sendFiles : Nat → Endpoint → Except Endpoint (Bool × Endpoint)
  | fuel, e =>
    match e.conn.fileList, fuel with
    | [], _ => .ok (true, e)
    | _ :: _, 0 => .error e
    | f :: fs, fuel + 1 => do
      let (r, e) ← e.write f.rest
      match r with
      | .error .eagain => return (true, e)
      | .error _ => return (false, e.handleClose)
      | .ok sentOnce => sendFiles fuel (e.fileSent f fs sentOnce)

/-- The channel's write callback. -/
def writeCallback (e : Endpoint) : Except Endpoint Endpoint := do
  if e.conn.state = .disconnected then return e
  let (_, e) ← e.writeNonBlocking
  let (goesOn, e) ← sendFiles e.kernel.length e
  if goesOn ∧ e.conn.outBuffer.readableBytes = 0 ∧ e.conn.fileList = [] then
    return e.setChannel e.conn.channel.disableWriting
  return e

/-- The end of `send`: what is left of the message goes to the output buffer. -/
def queue (e : Endpoint) (left : Bytes) : Endpoint :=
  if 0 < left.length then
    let e := e.setOutBuffer (e.conn.outBuffer.append left)
    if e.conn.channel.isWriting then e else e.setChannel e.conn.channel.enableWriting
  else e

def send (e : Endpoint) (msg : Bytes) : Except Endpoint Endpoint := do
  if !e.conn.channel.isWriting ∧ e.conn.outBuffer.readableBytes = 0 then
    let (r, e) ← e.write msg
    match r with
    | .ok sent => return e.queue (msg.drop sent)
    | .error .eagain => return e.queue msg
    | .error _ => return e.handleClose
  else return e.queue msg

/-- The end of `sendFile`: a file that is not sent yet is queued, any other is closed. -/
def queueFile (e : Endpoint) (f : OpenFile) (sentTotal : Nat) : Endpoint :=
  let size := f.content.length
  let e :=
    if sentTotal < size then
      (e.setFileList (e.conn.fileList ++ [⟨f, size, sentTotal⟩])).setChannel
        e.conn.channel.enableWriting
    else e.close f
  e.addLeftBytes (size - sentTotal)

def sendFile (e : Endpoint) (f : OpenFile) : Except Endpoint Endpoint := do
  if !e.conn.channel.isWriting ∧ e.conn.fileList = [] then
    let (r, e) ← e.write f.content
    match r with
    | .ok sent => return e.queueFile f sent
    | .error .eagain => return e.queueFile f 0
    | .error _ => return e.handleClose
  else return e.queueFile f 0

end Endpoint

end MuduoServer
