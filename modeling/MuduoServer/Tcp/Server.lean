import MuduoServer.Framework.Run
import MuduoServer.Tcp.Connection
import Mathlib.Logic.Function.Basic

namespace MuduoServer

/-- Who got a descriptor number from the kernel: a connection, or other code of the process. -/
inductive Owner
  | conn (i : Nat)
  | other
  deriving DecidableEq, Repr

/-- An open descriptor. `watched` is the channel that the epoll of a loop reports for it. -/
structure Descriptor where
  owner : Owner
  watched : Nat → Option Nat

/-- A call of `::close` by a connection or its channel, and whose descriptor it closed. -/
structure CloseCall where
  caller : Nat
  hit : Option Owner
  deriving DecidableEq, Repr

/-- What the server knows of a `TCPConnection` and its channel: `channelFd` is `Channel::fd_`, and
`none` stands for -1. `holders` counts the strong references that are neither in `conn_map_` nor
in a queued functor nor the lock of `handleEvent`. -/
structure ServerConn where
  loop : Nat
  fd : Nat
  channelFd : Option Nat
  inEpoll : Bool
  state : TCPState
  holders : Nat
  alive : Bool
  deriving DecidableEq, Repr

/-- The thread of a loop: what `epoll_wait` has returned and `Poll` has not visited yet,
`ready_channels`, and the channel whose `handleEvent` runs. -/
structure Reactor where
  events : List Nat
  ready : List Nat
  handling : Option Nat
  deriving DecidableEq, Repr

/-- A `TCPServer` with the loops of its connections and the descriptors of the process.
Connections are numbered as they were accepted. `functors` are the close functors that wait in the
main loop, and `dangling` the destroyed channels that a loop has used. -/
structure TCPServer where
  made : Nat
  conns : Nat → Option ServerConn
  connMap : Nat → Option Nat
  functors : List Nat
  reactors : Nat → Reactor
  fds : Nat → Option Descriptor
  closes : List CloseCall
  dangling : List Nat

/-- The steps of the threads of a server, and of the code around it. -/
inductive ServerStep
  /-- `accept4` returns a free number, and the callback enters a new connection of a loop. -/
  | accept (fd loop : Nat)
  /-- `Channel::flushEvent`, first in `enableConnection`. -/
  | flushEvent (i : Nat)
  /-- Other code opens a descriptor. -/
  | openOther (fd : Nat)
  /-- Other code closes a descriptor of its own. -/
  | closeOther (fd : Nat)
  /-- A strong reference to a connection is copied. -/
  | retain (i : Nat)
  /-- A strong reference that is not in `conn_map_` or a queued functor is dropped. -/
  | release (i : Nat)
  /-- `handleClose`, in the main thread or in another one. -/
  | handleClose (i : Nat) (isLocalThread : Bool)
  /-- The main loop calls the next close functor. -/
  | runFunctor
  /-- `epoll_wait` returns. -/
  | poll (loop : Nat) (batch : List Nat)
  /-- `Poll` visits the next event. -/
  | setReadyEvents (loop : Nat)
  /-- The loop calls `handleEvent` on the next ready channel. -/
  | handleEvent (loop : Nat)
  /-- `handleEvent` returns. -/
  | handled (loop : Nat)
  deriving DecidableEq, Repr

namespace TCPServer

def new : TCPServer :=
  ⟨0, fun _ => none, fun _ => none, [], fun _ => ⟨[], [], none⟩, fun _ => none, [], []⟩

def setConn (s : TCPServer) (i : Nat) (c : ServerConn) : TCPServer :=
  { s with conns := Function.update s.conns i (some c) }

def setReactor (s : TCPServer) (loop : Nat) (r : Reactor) : TCPServer :=
  { s with reactors := Function.update s.reactors loop r }

/-- The strong references to a connection; an entry of `conn_map_` has the connection's number as
its key. -/
def useCount (s : TCPServer) (i : Nat) (c : ServerConn) : Nat :=
  (s.connMap c.fd == some i).toNat + s.functors.count i + c.holders +
    ((s.reactors c.loop).handling == some i).toNat

/-- `::close` closes whatever has the number, and epoll forgets it. -/
def close (s : TCPServer) (i fd : Nat) : TCPServer :=
  { s with
    fds := Function.update s.fds fd none
    closes := s.closes ++ [⟨i, (s.fds fd).map Descriptor.owner⟩] }

/-- `~TCPConnection`, and after it `~Channel`. -/
def destroy (s : TCPServer) (i : Nat) (c : ServerConn) : TCPServer :=
  let s := (s.setConn i { c with channelFd := none, alive := false }).close i c.fd
  match c.channelFd with
  | some fd => s.close i fd
  | none => s

/-- After a reference was dropped: the last one destroys the connection. -/
def dropped (s : TCPServer) (i : Nat) : TCPServer :=
  match s.conns i with
  | some c => if c.alive ∧ s.useCount i c = 0 then s.destroy i c else s
  | none => s

/-- The channel that the epoll of a loop has for a number. -/
def watched (s : TCPServer) (loop fd : Nat) : Option Nat := (s.fds fd).bind fun d => d.watched loop

def setWatched (s : TCPServer) (loop fd : Nat) (channel : Option Nat) : TCPServer :=
  { s with
    fds := Function.update s.fds fd
      ((s.fds fd).map fun d => { d with watched := Function.update d.watched loop channel }) }

/-- `Channel::removeSelf`; `EPOLL_CTL_DEL` fails on a number that the epoll does not have. -/
def removeSelf (s : TCPServer) (i : Nat) (c : ServerConn) : TCPServer :=
  match c.channelFd with
  | some fd =>
    let inEpoll := if (s.watched c.loop fd).isSome then false else c.inEpoll
    ((s.setWatched c.loop fd none).close i fd).setConn i { c with channelFd := none, inEpoll }
  | none => s

/-- `Poller::updateChannel`: `EPOLL_CTL_ADD` fails on a number that is not open or that the epoll
has already, and `EPOLL_CTL_MOD` on one that it does not have. -/
def updateChannel (s : TCPServer) (i : Nat) (c : ServerConn) : TCPServer :=
  match c.channelFd with
  | none => s
  | some fd =>
    if (s.fds fd).isSome ∧ (s.watched c.loop fd).isSome = c.inEpoll then
      (s.setWatched c.loop fd (some i)).setConn i { c with inEpoll := true }
    else s

/-- The functor that closes a connection: it erases the entry under the connection's number. -/
def closeFunctor (s : TCPServer) (i : Nat) (c : ServerConn) : TCPServer :=
  match s.connMap c.fd with
  | none => s
  | some j =>
    let s := { s with connMap := Function.update s.connMap c.fd none }
    (s.dropped j).removeSelf i c

/-- The new-connection callback. The shared pointer of the callback is a holder. -/
def newConnection (s : TCPServer) (fd loop : Nat) : TCPServer :=
  let conn : ServerConn := ⟨loop, fd, some fd, false, .connected, 1, true⟩
  let s' := { s.setConn s.made conn with
    made := s.made + 1
    fds := Function.update s.fds fd (some ⟨.conn s.made, fun _ => none⟩)
    connMap := Function.update s.connMap fd (some s.made) }
  match s.connMap fd with
  | some j => s'.dropped j
  | none => s'

/-- `TCPConnection::handleClose` and the callback of the server. What `callOrQueue` calls at once
keeps its copy of the connection until that is released. -/
def handleClose (s : TCPServer) (i : Nat) (c : ServerConn) (isLocalThread : Bool) : TCPServer :=
  if c.state = .disconnected then s
  else
    let c := { c with state := .disconnected }
    if isLocalThread then
      let c := { c with holders := c.holders + 1 }
      (s.setConn i c).closeFunctor i c
    else { s.setConn i c with functors := s.functors ++ [i] }

/-- `epoll_wait` on a loop may report the channel. A channel registers under its connection's
number only. -/
def Reports (s : TCPServer) (loop i : Nat) : Prop :=
  ((s.conns i).bind fun c => s.watched loop c.fd) = some i

instance (s : TCPServer) (loop i : Nat) : Decidable (s.Reports loop i) :=
  inferInstanceAs (Decidable (_ = _))

def MAX_EVENTS : Nat := 1000

/-- A connection that is not destroyed. -/
def living (s : TCPServer) (i : Nat) : Option ServerConn := (s.conns i).filter ServerConn.alive

/-- A step, when it is possible. -/
def step (s : TCPServer) : ServerStep → Option TCPServer
  | .accept fd loop => if (s.fds fd).isNone then some (s.newConnection fd loop) else none
  | .flushEvent i => (s.living i).map fun c => s.updateChannel i c
  | .openOther fd =>
    if (s.fds fd).isNone then
      some { s with fds := Function.update s.fds fd (some ⟨.other, fun _ => none⟩) }
    else none
  | .closeOther fd =>
    if (s.fds fd).map Descriptor.owner = some .other then
      some { s with fds := Function.update s.fds fd none }
    else none
  | .retain i => (s.living i).map fun c => s.setConn i { c with holders := c.holders + 1 }
  | .release i =>
    (s.living i).bind fun c =>
      if 0 < c.holders then some ((s.setConn i { c with holders := c.holders - 1 }).dropped i)
      else none
  | .handleClose i isLocalThread =>
    (s.living i).map fun c => s.handleClose i c isLocalThread
  | .runFunctor =>
    match s.functors with
    | [] => none
    | i :: rest =>
      (s.conns i).map fun c =>
        -- the functor keeps its copy of the connection until the list of functors is destroyed
        let c := { c with holders := c.holders + 1 }
        ({ s with functors := rest }.setConn i c).closeFunctor i c
  | .poll loop batch =>
    if s.reactors loop = ⟨[], [], none⟩ ∧ batch.length ≤ MAX_EVENTS ∧ batch.Nodup ∧
        ∀ i ∈ batch, s.Reports loop i then
      some (s.setReactor loop ⟨batch, [], none⟩)
    else none
  | .setReadyEvents loop =>
    match s.reactors loop with
    | ⟨i :: events, ready, handling⟩ =>
      let s' := s.setReactor loop ⟨events, ready ++ [i], handling⟩
      if (s.living i).isSome then some s' else some { s' with dangling := s.dangling ++ [i] }
    | _ => none
  | .handleEvent loop =>
    match s.reactors loop with
    | ⟨[], i :: ready, none⟩ =>
      if (s.living i).isSome then some (s.setReactor loop ⟨[], ready, some i⟩)
      else some { s.setReactor loop ⟨[], ready, none⟩ with dangling := s.dangling ++ [i] }
    | _ => none
  | .handled loop =>
    match s.reactors loop with
    | ⟨events, ready, some i⟩ => some ((s.setReactor loop ⟨events, ready, none⟩).dropped i)
    | _ => none

variable {s : TCPServer} {i j : Nat} {c : ServerConn}

@[simp] theorem setConn_connMap (s : TCPServer) (i : Nat) (c : ServerConn) :
    (s.setConn i c).connMap = s.connMap := rfl

@[simp] theorem setConn_functors (s : TCPServer) (i : Nat) (c : ServerConn) :
    (s.setConn i c).functors = s.functors := rfl

@[simp] theorem setConn_reactors (s : TCPServer) (i : Nat) (c : ServerConn) :
    (s.setConn i c).reactors = s.reactors := rfl

@[simp] theorem setReactor_connMap (s : TCPServer) (loop : Nat) (r : Reactor) :
    (s.setReactor loop r).connMap = s.connMap := rfl

@[simp] theorem setReactor_functors (s : TCPServer) (loop : Nat) (r : Reactor) :
    (s.setReactor loop r).functors = s.functors := rfl

theorem setReactor_reactors (s : TCPServer) (loop : Nat) (r : Reactor) (k : Nat) :
    (s.setReactor loop r).reactors k = if k = loop then r else s.reactors k :=
  Function.update_apply ..

theorem setConn_conns (s : TCPServer) (i : Nat) (c : ServerConn) (k : Nat) :
    (s.setConn i c).conns k = if k = i then some c else s.conns k :=
  Function.update_apply ..

/-- A connection with another reference stays. -/
theorem dropped_conns (s : TCPServer) (hc : s.conns i = some c) (hheld : 0 < c.holders) :
    (s.dropped j).conns i = some c := by
  rw [TCPServer.dropped]
  cases hd : s.conns j with
  | none => exact hc
  | some d =>
    dsimp only
    split_ifs with hlast
    · have hne : i ≠ j := by
        rintro rfl
        rw [hc] at hd
        cases hd
        have hzero := hlast.2
        rw [useCount] at hzero
        omega
      have hconns : (s.destroy j d).conns i = s.conns i := by
        rw [TCPServer.destroy]
        cases d.channelFd <;> exact Function.update_of_ne hne _ _
      rw [hconns, hc]
    · exact hc

theorem living_spec (h : s.living i = some c) : s.conns i = some c ∧ c.alive = true :=
  Option.filter_eq_some_iff.mp h

/-- The connection that the new-connection callback makes. -/
def newConn (fd loop : Nat) : ServerConn := ⟨loop, fd, some fd, false, .connected, 1, true⟩

/-- The server after the callback has written the new connection over the entry of its number, and
before the reference of the old entry is dropped. -/
def entered (s : TCPServer) (fd loop : Nat) : TCPServer :=
  { s.setConn s.made (newConn fd loop) with
    made := s.made + 1
    fds := Function.update s.fds fd (some ⟨.conn s.made, fun _ => none⟩)
    connMap := Function.update s.connMap fd (some s.made) }

theorem newConnection_eq (s : TCPServer) (fd loop : Nat) :
    s.newConnection fd loop =
      (s.connMap fd).elim (s.entered fd loop) fun j => (s.entered fd loop).dropped j := by
  rw [newConnection]
  cases s.connMap fd <;> rfl

theorem entered_conns (s : TCPServer) (fd loop k : Nat) :
    (s.entered fd loop).conns k = if k = s.made then some (newConn fd loop) else s.conns k :=
  setConn_conns s s.made (newConn fd loop) k

section Inversion

variable {s' : TCPServer} {fd loop : Nat} {batch : List Nat}

/-- What the steps of the threads do, one statement for each kind of step that has a condition. -/
theorem step_accept (hs : s.step (.accept fd loop) = some s') :
    s.fds fd = none ∧ s' = s.newConnection fd loop := by
  simp only [step] at hs
  split_ifs at hs with hfree
  exact ⟨Option.isNone_iff_eq_none.mp hfree, (Option.some.inj hs).symm⟩

theorem step_openOther (hs : s.step (.openOther fd) = some s') :
    s.fds fd = none ∧
      s' = { s with fds := Function.update s.fds fd (some ⟨.other, fun _ => none⟩) } := by
  simp only [step] at hs
  split_ifs at hs with hfree
  exact ⟨Option.isNone_iff_eq_none.mp hfree, (Option.some.inj hs).symm⟩

theorem step_closeOther (hs : s.step (.closeOther fd) = some s') :
    (s.fds fd).map Descriptor.owner = some .other ∧
      s' = { s with fds := Function.update s.fds fd none } := by
  simp only [step] at hs
  split_ifs at hs with hother
  exact ⟨hother, (Option.some.inj hs).symm⟩

theorem step_release (hs : s.step (.release i) = some s') :
    ∃ c, s.conns i = some c ∧ 0 < c.holders ∧
      s' = (s.setConn i { c with holders := c.holders - 1 }).dropped i := by
  obtain ⟨c, hc, hs⟩ := Option.bind_eq_some_iff.mp hs
  split_ifs at hs with hheld
  exact ⟨c, (living_spec hc).1, hheld, (Option.some.inj hs).symm⟩

theorem step_runFunctor (hs : s.step .runFunctor = some s') :
    ∃ i rest c, s.functors = i :: rest ∧ s.conns i = some c ∧
      s' = ({ s with functors := rest }.setConn i { c with
        holders := c.holders + 1 }).closeFunctor i { c with holders := c.holders + 1 } := by
  simp only [step] at hs
  cases hf : s.functors with
  | nil =>
    rw [hf] at hs
    cases hs
  | cons i rest =>
    rw [hf] at hs
    obtain ⟨c, hc, rfl⟩ := Option.map_eq_some_iff.mp hs
    exact ⟨i, rest, c, rfl, hc, rfl⟩

theorem step_poll (hs : s.step (.poll loop batch) = some s') :
    (∀ i ∈ batch, s.Reports loop i) ∧ s' = s.setReactor loop ⟨batch, [], none⟩ := by
  simp only [step] at hs
  split_ifs at hs with hready
  exact ⟨hready.2.2.2, (Option.some.inj hs).symm⟩

/-- A visit of a destroyed channel is what `dangling` records. -/
theorem step_setReadyEvents (hs : s.step (.setReadyEvents loop) = some s') :
    ∃ i events ready handling, s.reactors loop = ⟨i :: events, ready, handling⟩ ∧
      ∃ dangling, s' = { s.setReactor loop ⟨events, ready ++ [i], handling⟩ with dangling } ∧
        ((s.living i).isSome → dangling = s.dangling) := by
  simp only [step] at hs
  split at hs
  · rename_i i events ready handling hr
    refine ⟨i, events, ready, handling, hr, ?_⟩
    split_ifs at hs with halive
    · exact ⟨s.dangling, (Option.some.inj hs).symm, fun _ => rfl⟩
    · exact ⟨_, (Option.some.inj hs).symm, fun h => absurd h halive⟩
  · cases hs

theorem step_handleEvent (hs : s.step (.handleEvent loop) = some s') :
    ∃ i ready, s.reactors loop = ⟨[], i :: ready, none⟩ ∧
      ∃ handling dangling, s' = { s.setReactor loop ⟨[], ready, handling⟩ with dangling } ∧
        ((s.living i).isSome → handling = some i ∧ dangling = s.dangling) := by
  simp only [step] at hs
  split at hs
  · rename_i i ready hr
    refine ⟨i, ready, hr, ?_⟩
    split_ifs at hs with halive
    · exact ⟨some i, s.dangling, (Option.some.inj hs).symm, fun _ => ⟨rfl, rfl⟩⟩
    · exact ⟨none, _, (Option.some.inj hs).symm, fun h => absurd h halive⟩
  · cases hs

theorem step_handled (hs : s.step (.handled loop) = some s') :
    ∃ events ready i, s.reactors loop = ⟨events, ready, some i⟩ ∧
      s' = (s.setReactor loop ⟨events, ready, none⟩).dropped i := by
  simp only [step] at hs
  split at hs
  · rename_i events ready i hr
    exact ⟨events, ready, i, hr, (Option.some.inj hs).symm⟩
  · cases hs

end Inversion

end TCPServer

end MuduoServer
