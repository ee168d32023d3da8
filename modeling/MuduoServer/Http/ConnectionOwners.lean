import MuduoServer.Tcp.Server
import MuduoServer.Timer.TimerLoop

namespace MuduoServer

namespace TCPServer

/-- From one state to another no connection appears, and none is destroyed to which there is a
strong reference outside of the server's map and functors. -/
structure Holds (s s' : TCPServer) : Prop where
  made : s'.made = s.made
  kept : ∀ i c, s.conns i = some c → c.alive = true → 0 < c.holders →
    ∃ c', s'.conns i = some c' ∧ c'.alive = true ∧ c.holders ≤ c'.holders
  back : ∀ i, s.conns i = none → s'.conns i = none

variable {s s' s'' : TCPServer} {i j : Nat} {c c' : ServerConn}

theorem Holds.of_conns (hmade : s'.made = s.made) (hconns : s'.conns = s.conns) : s.Holds s' where
  made := hmade
  kept := fun i c hc halive _ => ⟨c, by rw [hconns, hc], halive, Nat.le_refl _⟩
  back := fun i hi => by rw [hconns, hi]

theorem Holds.trans (h : s.Holds s') (h' : s'.Holds s'') : s.Holds s'' where
  made := h'.made.trans h.made
  kept := by
    intro i c hc halive hheld
    obtain ⟨c1, hc1, halive1, hle1⟩ := h.kept i c hc halive hheld
    obtain ⟨c2, hc2, halive2, hle2⟩ := h'.kept i c1 hc1 halive1 (hheld.trans_le hle1)
    exact ⟨c2, hc2, halive2, hle1.trans hle2⟩
  back := fun i hi => h'.back i (h.back i hi)

theorem Holds.setConn (hc : s.conns i = some c) (halive : c.alive = true → c'.alive = true)
    (hle : c.holders ≤ c'.holders) : s.Holds (s.setConn i c') where
  made := rfl
  kept := by
    intro k d hd hd' _
    rw [setConn_conns]
    by_cases hk : k = i
    · rw [hk, hc] at hd
      obtain rfl := Option.some.inj hd
      exact ⟨c', if_pos hk, halive hd', hle⟩
    · exact ⟨d, (if_neg hk).trans hd, hd', Nat.le_refl _⟩
  back := by
    intro k hk
    have hne : k ≠ i := by
      rintro rfl
      rw [hc] at hk
      cases hk
    rw [setConn_conns, if_neg hne, hk]

theorem destroy_conns (s : TCPServer) (i : Nat) (c : ServerConn) (k : Nat) :
    (s.destroy i c).conns k =
      if k = i then some { c with channelFd := none, alive := false } else s.conns k := by
  rw [destroy]
  cases c.channelFd <;> exact setConn_conns _ _ _ _

theorem Holds.dropped (s : TCPServer) (j : Nat) : s.Holds (s.dropped j) where
  made := by
    rw [TCPServer.dropped]
    cases s.conns j with
    | none => rfl
    | some d =>
      dsimp only
      split_ifs
      · rw [destroy]
        cases d.channelFd <;> rfl
      · rfl
  kept := fun i c hc halive hheld => ⟨c, dropped_conns s hc hheld, halive, Nat.le_refl _⟩
  back := by
    intro i hi
    rw [TCPServer.dropped]
    cases hj : s.conns j with
    | none => exact hi
    | some d =>
      dsimp only
      split_ifs
      · have hne : i ≠ j := by
          rintro rfl
          rw [hi] at hj
          cases hj
        rw [destroy_conns, if_neg hne, hi]
      · exact hi

theorem Holds.removeSelf (hc : s.conns i = some c) : s.Holds (s.removeSelf i c) := by
  rw [TCPServer.removeSelf]
  cases c.channelFd with
  | none => exact .of_conns rfl rfl
  | some fd =>
    have hclosed : s.Holds ((s.setWatched c.loop fd none).close i fd) := .of_conns rfl rfl
    exact hclosed.trans (Holds.setConn (c := c) hc id (Nat.le_refl _))

/-- A close functor holds its own connection, and another one loses its entry at most. -/
theorem Holds.closeFunctor (hc : s.conns i = some c) (hheld : 0 < c.holders) :
    s.Holds (s.closeFunctor i c) := by
  rw [TCPServer.closeFunctor]
  cases s.connMap c.fd with
  | none => exact .of_conns rfl rfl
  | some j =>
    have herased : s.Holds { s with connMap := Function.update s.connMap c.fd none } :=
      .of_conns rfl rfl
    exact (herased.trans (.dropped _ j)).trans (.removeSelf (dropped_conns _ hc hheld))

theorem Holds.handleClose (hc : s.conns i = some c) (isLocalThread : Bool) :
    s.Holds (s.handleClose i c isLocalThread) := by
  rw [TCPServer.handleClose]
  split_ifs
  · exact .of_conns rfl rfl
  · have hcopied : s.Holds (s.setConn i
        { c with state := .disconnected, holders := c.holders + 1 }) :=
      .setConn hc id (Nat.le_succ _)
    exact hcopied.trans (.closeFunctor (by rw [setConn_conns, if_pos rfl]) (Nat.succ_pos _))
  · have hclosed : s.Holds (s.setConn i { c with state := .disconnected }) :=
      .setConn hc id (Nat.le_refl _)
    exact hclosed.trans (.of_conns rfl rfl)

theorem Holds.updateChannel (hc : s.conns i = some c) : s.Holds (s.updateChannel i c) := by
  rw [TCPServer.updateChannel]
  cases c.channelFd with
  | none => exact .of_conns rfl rfl
  | some fd =>
    dsimp only
    split_ifs
    · have hwatched : s.Holds (s.setWatched c.loop fd (some i)) := .of_conns rfl rfl
      exact hwatched.trans (Holds.setConn (c := c) hc id (Nat.le_refl _))
    · exact .of_conns rfl rfl

/-- Every step that neither makes a connection nor drops a reference from a stack. -/
theorem Holds.step {a : ServerStep} (haccept : ∀ fd loop, a ≠ .accept fd loop)
    (hrelease : ∀ i, a ≠ .release i) (hs : s.step a = some s') : s.Holds s' := by
  cases a with
  | accept fd loop => exact (haccept fd loop rfl).elim
  | release i => exact (hrelease i rfl).elim
  | flushEvent i =>
    obtain ⟨c, hc, rfl⟩ := Option.map_eq_some_iff.mp hs
    exact .updateChannel (living_spec hc).1
  | openOther fd =>
    obtain ⟨-, rfl⟩ := step_openOther hs
    exact .of_conns rfl rfl
  | closeOther fd =>
    obtain ⟨-, rfl⟩ := step_closeOther hs
    exact .of_conns rfl rfl
  | retain i =>
    obtain ⟨c, hc, rfl⟩ := Option.map_eq_some_iff.mp hs
    exact .setConn (living_spec hc).1 id (Nat.le_succ _)
  | handleClose i isLocalThread =>
    obtain ⟨c, hc, rfl⟩ := Option.map_eq_some_iff.mp hs
    exact .handleClose (living_spec hc).1 isLocalThread
  | runFunctor =>
    obtain ⟨i, rest, c, hf, hc, rfl⟩ := step_runFunctor hs
    have hpopped : s.Holds { s with functors := rest } := .of_conns rfl rfl
    have hcopied : s.Holds ({ s with functors := rest }.setConn i
        { c with holders := c.holders + 1 }) :=
      hpopped.trans (.setConn hc id (Nat.le_succ _))
    exact hcopied.trans (.closeFunctor (by rw [setConn_conns, if_pos rfl]) (Nat.succ_pos _))
  | poll loop batch =>
    obtain ⟨-, rfl⟩ := step_poll hs
    exact .of_conns rfl rfl
  | setReadyEvents loop =>
    obtain ⟨i, events, ready, handling, -, dangling, rfl, -⟩ := step_setReadyEvents hs
    exact .of_conns rfl rfl
  | handleEvent loop =>
    obtain ⟨i, ready, -, handling, dangling, rfl, -⟩ := step_handleEvent hs
    exact .of_conns rfl rfl
  | handled loop =>
    obtain ⟨events, ready, i, -, rfl⟩ := step_handled hs
    have hreturned : s.Holds (s.setReactor loop ⟨events, ready, none⟩) := .of_conns rfl rfl
    exact hreturned.trans (.dropped _ i)

end TCPServer

/-- Who holds a strong reference to a connection. -/
inductive ConnHolder
  | connMap
  | functor
  | handleEvent
  | timerCallback (t : Nat)
  | stack
  deriving DecidableEq, Repr

/-- Who holds a strong reference to the timer of a connection. -/
inductive TimerHolder
  | connection (i : Nat)
  | timers
  | active_timers
  | cancelingTimers
  | expired
  | functor
  deriving DecidableEq, Repr

/-- `CONNECTION_TIMEOUT_SECOND`, in microseconds. -/
def CONNECTION_TIMEOUT : Int := 900 * SECOND2MICROSECOND

/-- The owners in an `HTTPServer`. `timer_` and `lastActive` are members of the connections, `cb`
is the connection that the callback of a timer has captured, until the timer is destroyed, and
`contexts` are the connections whose `HTTPContext` is not deleted. -/
structure OwningServer where
  tcp : TCPServer
  timers : TimerLoop Nat
  timer_ : Nat → Option Nat
  lastActive : Nat → Int
  cb : Nat → Option Nat
  contexts : List Nat

/-- The steps of an `HTTPServer`. `accept` is the new-connection callback of the `TCPServer` up to
the end of the on-connection callback, which makes the timer `t`. -/
inductive OwnerEvent
  | accept (fd loop t : Nat)
  | tcp (step : ServerStep)
  | refreshTimeStamp (i : Nat)
  | tick (d : Nat)
  | fire
  | run (t : Nat)
  | finish
  deriving DecidableEq

namespace OwningServer

def new (clock : Int) : OwningServer :=
  ⟨.new, .init clock, fun _ => none, fun _ => 0, fun _ => none, []⟩

/-- The timers whose callbacks hold the connection. -/
def captures (s : OwningServer) (i : Nat) : List Nat :=
  s.timers.created.filter fun t => s.cb t = some i

def holders (s : OwningServer) (i : Nat) (c : ServerConn) : List ConnHolder :=
  List.replicate (s.tcp.connMap c.fd == some i).toNat .connMap ++
    List.replicate (s.tcp.functors.count i) .functor ++
    List.replicate ((s.tcp.reactors c.loop).handling == some i).toNat .handleEvent ++
    (s.captures i).map .timerCallback ++
    List.replicate (c.holders - (s.captures i).length) .stack

def timerHolders (s : OwningServer) (t : Nat) : List TimerHolder :=
  ((List.range s.tcp.made).filter fun i => (s.tcp.living i).isSome ∧ s.timer_ i = some t).map
      .connection ++
    List.replicate (s.timers.queue.timers.elems.countP fun e => e.2 = some t) .timers ++
    List.replicate (s.timers.queue.active_timers.elems.count t) .active_timers ++
    List.replicate (s.timers.queue.cancelingTimers.elems.count t) .cancelingTimers ++
    List.replicate ((s.timers.batch.elim [] Batch.expired).countP fun e => e.2 = some t) .expired ++
    List.replicate (s.timers.pending.count t) .functor

/-- `~Timer`, with the callback and what it has captured. -/
def destroyTimer (s : OwningServer) (t : Nat) : OwningServer :=
  match s.cb t with
  | some i =>
    { s with
      cb := Function.update s.cb t none
      tcp := (s.tcp.step (.release i)).getD s.tcp }
  | none => s

/-- Timers without a strong reference are destroyed, and what this leaves without one. -/
def reap : Nat → OwningServer → OwningServer
  | 0, s => s
  | n + 1, s =>
    match s.timers.created.find? fun t => (s.cb t).isSome ∧ s.timerHolders t = [] with
    | some t => reap n (s.destroyTimer t)
    | none => s

/-- What the end of the last strong references does after a step: the destructor of a connection
deletes the context. -/
def settle (s : OwningServer) : OwningServer :=
  let s := s.reap s.timers.created.length
  { s with contexts := s.contexts.filter fun i => (s.tcp.living i).isSome }

/-- The timer that the on-connection callback makes. -/
def connectionTimer (now : Int) : Timer where
  expiration := now + CONNECTION_TIMEOUT
  isInterval := true
  interval := CONNECTION_TIMEOUT
  nonneg := fun _ => by decide

/-- The on-connection callback runs before the new-connection callback returns, on the thread of
the timers. -/
def accept (s : OwningServer) (fd loop t : Nat) : Option OwningServer := do
  let conn := s.tcp.made
  let tcp ← s.tcp.step (.accept fd loop)
  let tcp ← tcp.step (.retain conn)
  let timers ← s.timers.step (.create t (connectionTimer s.timers.clock))
  let timers ← timers.step (.add t)
  some {
    tcp := tcp
    timers := timers
    timer_ := Function.update s.timer_ conn (some t)
    lastActive := Function.update s.lastActive conn s.timers.clock
    cb := Function.update s.cb t (some conn)
    contexts := s.contexts ++ [conn] }

/-- `canelTimer(conn->timer())`, on the thread of the timers. -/
def cancelTimer (s : OwningServer) (i : Nat) : OwningServer :=
  match s.timer_ i with
  | some t => { s with timers := s.timers.cancelTimer t }
  | none => s

/-- `conn->handleClose()` on the thread of the server. -/
def handleClose (s : OwningServer) (i : Nat) (c : ServerConn) : OwningServer :=
  { s with tcp := s.tcp.handleClose i c true }

/-- The callback of a connection's timer. -/
def timerCallback (s : OwningServer) (i : Nat) (c : ServerConn) : OwningServer :=
  match c.state with
  | .connected =>
    if s.lastActive i + CONNECTION_TIMEOUT < s.timers.clock then
      (s.cancelTimer i).handleClose i c
    else s
  | .disconnected => s.cancelTimer i
  | _ => s

/-- The reference of a timer's callback is not one from a stack. -/
def Allowed (s : OwningServer) : ServerStep → Prop
  | .accept _ _ => False
  | .release i => ∀ c ∈ s.tcp.conns i, (s.captures i).length < c.holders
  | _ => True

instance (s : OwningServer) : DecidablePred s.Allowed
  | .accept _ _ => instDecidableFalse
  | .release i => inferInstanceAs (Decidable (∀ c ∈ s.tcp.conns i, _))
  | .flushEvent _ | .openOther _ | .closeOther _ | .retain _ | .handleClose _ _ | .runFunctor
  | .poll _ _ | .setReadyEvents _ | .handleEvent _ | .handled _ => instDecidableTrue

def step (s : OwningServer) : OwnerEvent → Option OwningServer
  | .accept fd loop t => s.accept fd loop t
  | .tcp step => if s.Allowed step then (s.tcp.step step).map fun tcp => { s with tcp } else none
  | .refreshTimeStamp i =>
    some { s with lastActive := Function.update s.lastActive i s.timers.clock }
  | .tick d => (s.timers.step (.tick d)).map fun timers => { s with timers }
  | .fire => (s.timers.step .fire).map fun timers => { s with timers }
  | .run t => do
    let timers ← s.timers.step (.start t)
    let i ← s.cb t
    let c ← s.tcp.conns i
    some ({ s with timers }.timerCallback i c)
  | .finish => (s.timers.step .finish).map fun timers => { s with timers }

def next (s : OwningServer) (event : OwnerEvent) : Option OwningServer :=
  (s.step event).map settle

/-- The connection is `Disconnected`, its close functor has run, `cancelTimer` has removed its
timer, and no call on it is active. -/
structure Closed (s : OwningServer) (i : Nat) (c : ServerConn) : Prop where
  found : s.tcp.conns i = some c
  disconnected : c.state = .disconnected
  erased : i ∉ s.tcp.functors ∧ s.tcp.connMap c.fd ≠ some i
  cancelled : ∀ t ∈ s.timer_ i, t ∉ s.timers.queue.active_timers.elems ∧
    ∀ e ∈ s.timers.queue.timers.elems, e.2 ≠ some t
  returned : (s.tcp.reactors c.loop).handling ≠ some i ∧ .stack ∉ s.holders i c ∧
    s.timers.batch = none

instance (s : OwningServer) (i : Nat) (c : ServerConn) : Decidable (s.Closed i c) :=
  decidable_of_iff
    (s.tcp.conns i = some c ∧ c.state = .disconnected ∧
      (i ∉ s.tcp.functors ∧ s.tcp.connMap c.fd ≠ some i) ∧
      (∀ t ∈ s.timer_ i, t ∉ s.timers.queue.active_timers.elems ∧
        ∀ e ∈ s.timers.queue.timers.elems, e.2 ≠ some t) ∧
      (s.tcp.reactors c.loop).handling ≠ some i ∧ .stack ∉ s.holders i c ∧ s.timers.batch = none)
    ⟨fun ⟨found, state, erased, cancelled, returned⟩ => ⟨found, state, erased, cancelled, returned⟩,
      fun h => ⟨h.found, h.disconnected, h.erased, h.cancelled, h.returned⟩⟩

/-- No strong reference to the connection is left, it is destroyed, and its context is deleted. -/
def Released (s : OwningServer) (i : Nat) (c : ServerConn) : Prop :=
  s.holders i c = [] ∧ c.alive = false ∧ i ∉ s.contexts

/-- Every connection and its timer hold each other. -/
structure Owned (s : OwningServer) : Prop where
  fresh : ∀ i, s.tcp.made ≤ i → s.tcp.conns i = none
  alive : ∀ i c, s.tcp.conns i = some c → c.alive = true
  counted : ∀ i c, s.tcp.conns i = some c → (s.captures i).length ≤ c.holders
  cycle : ∀ i, (s.tcp.conns i).isSome → ∃ t ∈ s.timers.created,
    s.timer_ i = some t ∧ s.cb t = some i
  captured : ∀ t i, s.cb t = some i → t ∈ s.timers.created ∧ (s.tcp.conns i).isSome ∧
    s.timer_ i = some t
  contexts : ∀ i, i ∈ s.contexts ↔ (s.tcp.conns i).isSome

variable {s s' : OwningServer} {i : Nat} {c : ServerConn}

/-- The holders are the strong references that the server counts. -/
theorem Owned.length_holders (h : s.Owned) (hc : s.tcp.conns i = some c) :
    (s.holders i c).length = s.tcp.useCount i c := by
  have hle := h.counted i c hc
  simp only [holders, TCPServer.useCount, List.length_append, List.length_replicate,
    List.length_map]
  omega

theorem Owned.captures_pos (h : s.Owned) (hi : (s.tcp.conns i).isSome) :
    0 < (s.captures i).length := by
  obtain ⟨t, ht, -, hcb⟩ := h.cycle i hi
  exact List.length_pos_of_mem (List.mem_filter.mpr ⟨ht, decide_eq_true hcb⟩)

theorem Owned.connection_holds (h : s.Owned) {t : Nat} (hcb : s.cb t = some i) :
    .connection i ∈ s.timerHolders t := by
  obtain ⟨-, hi, htimer⟩ := h.captured t i hcb
  obtain ⟨c, hc⟩ := Option.isSome_iff_exists.mp hi
  have hmade : i < s.tcp.made := by
    by_contra hge
    rw [h.fresh i (Nat.le_of_not_lt hge)] at hc
    cases hc
  have hlives : (s.tcp.living i).isSome = true := by
    rw [TCPServer.living, hc, Option.filter_some, if_pos (h.alive i c hc)]
    rfl
  simp only [timerHolders, List.mem_append]
  repeat' left
  exact List.mem_map_of_mem (List.mem_filter.mpr
    ⟨List.mem_range.mpr hmade, decide_eq_true ⟨hlives, htimer⟩⟩)

/-- Nothing is destroyed while each timer has its connection. -/
theorem Owned.settle_eq (h : s.Owned) : s.settle = s := by
  have hreap : ∀ n, s.reap n = s := by
    intro n
    cases n with
    | zero => rfl
    | succ n =>
      have hnone : (s.timers.created.find? fun t =>
          (s.cb t).isSome ∧ s.timerHolders t = []) = none := by
        apply List.find?_eq_none.mpr
        intro t _ ht
        obtain ⟨hcb, hnil⟩ := of_decide_eq_true ht
        obtain ⟨i, hi⟩ := Option.isSome_iff_exists.mp hcb
        have hmem := h.connection_holds hi
        rw [hnil] at hmem
        cases hmem
      rw [reap]
      simp only [hnone]
  have hcontexts : (s.contexts.filter fun i => (s.tcp.living i).isSome) = s.contexts := by
    apply List.filter_eq_self.mpr
    intro i hi
    obtain ⟨c, hc⟩ := Option.isSome_iff_exists.mp ((h.contexts i).mp hi)
    rw [TCPServer.living, hc, Option.filter_some, if_pos (h.alive i c hc)]
    rfl
  rw [settle]
  simp only [hreap, hcontexts]

/-- The invariant needs the timers for what was created only. -/
theorem Owned.setTimers (h : s.Owned) {timers : TimerLoop Nat}
    (hcreated : timers.created = s.timers.created) : Owned { s with timers } := by
  have hcaptures : ∀ i, captures { s with timers } i = s.captures i := by
    intro i
    rw [captures, hcreated]
    rfl
  refine ⟨h.fresh, h.alive, ?_, ?_, ?_, h.contexts⟩
  · intro i c hc
    rw [hcaptures]
    exact h.counted i c hc
  · intro i hi
    obtain ⟨t, ht, hrest⟩ := h.cycle i hi
    exact ⟨t, hcreated.symm ▸ ht, hrest⟩
  · intro t i hcb
    obtain ⟨ht, hrest⟩ := h.captured t i hcb
    exact ⟨hcreated.symm ▸ ht, hrest⟩

/-- A step of the server keeps the connections whose timers' callbacks it leaves alone. -/
theorem Owned.setTcp (h : s.Owned) {tcp : TCPServer} (hmade : tcp.made = s.tcp.made)
    (hback : ∀ i, s.tcp.conns i = none → tcp.conns i = none)
    (hkept : ∀ i c, s.tcp.conns i = some c →
      ∃ c', tcp.conns i = some c' ∧ c'.alive = true ∧ (s.captures i).length ≤ c'.holders) :
    Owned { s with tcp } := by
  have hsome : ∀ i, (tcp.conns i).isSome ↔ (s.tcp.conns i).isSome := by
    intro i
    cases hc : s.tcp.conns i with
    | none => rw [hback i hc]
    | some c =>
      obtain ⟨c', hc', -⟩ := hkept i c hc
      rw [hc']
      exact iff_of_true rfl rfl
  have hbefore : ∀ i c', tcp.conns i = some c' → c'.alive = true ∧
      (s.captures i).length ≤ c'.holders := by
    intro i c' hc'
    obtain ⟨c, hc⟩ := Option.isSome_iff_exists.mp ((hsome i).mp (by rw [hc']; rfl))
    obtain ⟨c'', hc'', hrest⟩ := hkept i c hc
    obtain rfl := Option.some.inj (hc''.symm.trans hc')
    exact hrest
  constructor
  · intro i hi
    exact hback i (h.fresh i (hmade ▸ hi))
  · exact fun i c' hc' => (hbefore i c' hc').1
  · exact fun i c' hc' => (hbefore i c' hc').2
  · exact fun i hi => h.cycle i ((hsome i).mp hi)
  · intro t i hcb
    obtain ⟨ht, hi, htimer⟩ := h.captured t i hcb
    exact ⟨ht, (hsome i).mpr hi, htimer⟩
  · exact fun i => (h.contexts i).trans (hsome i).symm

theorem Owned.holds (h : s.Owned) {tcp : TCPServer} (hh : s.tcp.Holds tcp) :
    Owned { s with tcp } := by
  apply h.setTcp hh.made hh.back
  intro i c hc
  have hpos := h.captures_pos (by rw [hc]; rfl)
  have hle := h.counted i c hc
  obtain ⟨c', hc', halive, hle'⟩ := hh.kept i c hc (h.alive i c hc) (by omega)
  exact ⟨c', hc', halive, hle.trans hle'⟩

/-- A reference from a stack is not the last one. -/
theorem Owned.release (h : s.Owned) (hallowed : s.Allowed (.release i)) {tcp : TCPServer}
    (hs : s.tcp.step (.release i) = some tcp) : Owned { s with tcp } := by
  obtain ⟨c, hc, -, rfl⟩ := TCPServer.step_release hs
  have hlt := hallowed c hc
  have hpos := h.captures_pos (by rw [hc]; rfl)
  have hdropped := TCPServer.Holds.dropped
    (s.tcp.setConn i { c with holders := c.holders - 1 }) i
  apply h.setTcp hdropped.made
  · intro k hk
    apply hdropped.back
    have hne : k ≠ i := by
      rintro rfl
      rw [hc] at hk
      cases hk
    rw [TCPServer.setConn_conns, if_neg hne, hk]
  · intro k d hd
    have hle := h.counted k d hd
    by_cases hk : k = i
    · subst hk
      obtain rfl := Option.some.inj (hc.symm.trans hd)
      refine ⟨{ c with holders := c.holders - 1 }, ?_, h.alive k c hc, by dsimp only; omega⟩
      apply TCPServer.dropped_conns
      · rw [TCPServer.setConn_conns, if_pos rfl]
      · dsimp only
        omega
    · have hposd := h.captures_pos (i := k) (by rw [hd]; rfl)
      refine ⟨d, ?_, h.alive k d hd, hle⟩
      apply TCPServer.dropped_conns
      · rw [TCPServer.setConn_conns, if_neg hk, hd]
      · omega

theorem Owned.tcpStep (h : s.Owned) {a : ServerStep} (hallowed : s.Allowed a) {tcp : TCPServer}
    (hs : s.tcp.step a = some tcp) : Owned { s with tcp } := by
  by_cases hrelease : ∃ i, a = .release i
  · obtain ⟨i, rfl⟩ := hrelease
    exact h.release hallowed hs
  · apply h.holds (TCPServer.Holds.step _ (fun i hi => hrelease ⟨i, hi⟩) hs)
    rintro fd loop rfl
    exact hallowed

theorem Owned.cancelTimer (h : s.Owned) (i : Nat) : (s.cancelTimer i).Owned := by
  rw [OwningServer.cancelTimer]
  cases s.timer_ i with
  | none => exact h
  | some t => exact h.setTimers rfl

theorem cancelTimer_tcp (s : OwningServer) (i : Nat) : (s.cancelTimer i).tcp = s.tcp := by
  rw [cancelTimer]
  cases s.timer_ i <;> rfl

theorem Owned.timerCallback (h : s.Owned) (hc : s.tcp.conns i = some c) :
    (s.timerCallback i c).Owned := by
  rw [OwningServer.timerCallback]
  cases c.state with
  | connected =>
    dsimp only
    split_ifs
    · apply (h.cancelTimer i).holds
      rw [← cancelTimer_tcp s i] at hc
      exact .handleClose hc true
    · exact h
  | disconnected => exact h.cancelTimer i
  | invalid => exact h
  | closing => exact h

/-- What the callbacks make of a new connection: an entry, a timer that holds it, and a reference
more for that. -/
theorem accept_spec {fd loop t : Nat} (hs : s.accept fd loop t = some s') :
    (s.tcp.entered fd loop).Holds s'.tcp ∧ t ∉ s.timers.created ∧
      s'.timers.created = t :: s.timers.created ∧
      s'.timer_ = Function.update s.timer_ s.tcp.made (some t) ∧
      s'.cb = Function.update s.cb t (some s.tcp.made) ∧
      s'.contexts = s.contexts ++ [s.tcp.made] := by
  simp only [accept, Option.bind_eq_bind, Option.bind_eq_some_iff] at hs
  obtain ⟨tcp, htcp, tcp', hretain, timers, hcreate, timers', hadd, hs⟩ := hs
  obtain rfl := Option.some.inj hs
  obtain ⟨-, rfl⟩ := TCPServer.step_accept htcp
  obtain ⟨hfree, rfl⟩ := TimerLoop.step_create hcreate
  obtain ⟨-, rfl⟩ := TimerLoop.step_add hadd
  obtain ⟨tfd, hadded⟩ := TimerLoop.addTimer_eq { s.timers with
    timer := Function.update s.timers.timer t (connectionTimer s.timers.clock)
    created := t :: s.timers.created
    pending := t :: s.timers.pending } t
  refine ⟨?_, hfree, by rw [hadded], rfl, rfl, rfl⟩
  have hnew : (s.tcp.entered fd loop).Holds (s.tcp.newConnection fd loop) := by
    rw [TCPServer.newConnection_eq]
    cases s.tcp.connMap fd with
    | none => exact .of_conns rfl rfl
    | some j => exact .dropped _ j
  exact hnew.trans (.step (by rintro fd loop ⟨⟩) (by rintro i ⟨⟩) hretain)

section Accept

variable (h : s.Owned) {fd loop t : Nat} (hs : s.accept fd loop t = some s')

include h

/-- Nothing holds a connection that is still to be made. -/
theorem Owned.cb_made (t' : Nat) : s.cb t' ≠ some s.tcp.made := by
  intro hcb
  have hsome := (h.captured t' _ hcb).2.1
  rw [h.fresh _ (Nat.le_refl _)] at hsome
  cases hsome

include hs

/-- The new timer is the only one that holds the new connection, and holds no other. -/
theorem Owned.accept_captures : s'.captures s.tcp.made = [t] ∧
    ∀ i, i ≠ s.tcp.made → s'.captures i = s.captures i := by
  obtain ⟨-, hfree, hcreated, -, hcb, -⟩ := accept_spec hs
  have hkeeps : ∀ t' ∈ s.timers.created, s'.cb t' = s.cb t' := by
    intro t' ht'
    have hne : t' ≠ t := fun heq => hfree (heq ▸ ht')
    rw [hcb, Function.update_of_ne hne]
  constructor
  · have hnil : s.captures s.tcp.made = [] :=
      List.filter_eq_nil_iff.mpr fun t' _ => by simpa using h.cb_made t'
    rw [captures, hcreated, List.filter_cons_of_pos (by rw [hcb, Function.update_self]; simp),
      ← hnil]
    exact congrArg (t :: ·) (List.filter_congr fun t' ht' => by rw [hkeeps t' ht'])
  · intro i hi
    rw [captures, hcreated, List.filter_cons_of_neg
      (by rw [hcb, Function.update_self]; simpa using Ne.symm hi)]
    exact List.filter_congr fun t' ht' => by rw [hkeeps t' ht']

/-- The new connection, and each one from before, with the references from the timers. -/
theorem Owned.accept_kept (hi : i = s.tcp.made ∨ (s.tcp.conns i).isSome) :
    ∃ c, s'.tcp.conns i = some c ∧ c.alive = true ∧ (s'.captures i).length ≤ c.holders := by
  obtain ⟨hh, -⟩ := accept_spec hs
  obtain ⟨hown, hothers⟩ := h.accept_captures hs
  by_cases hmk : i = s.tcp.made
  · rw [hmk, hown]
    exact hh.kept _ (TCPServer.newConn fd loop) (by rw [TCPServer.entered_conns, if_pos rfl]) rfl
      Nat.one_pos
  · obtain ⟨c, hc⟩ := Option.isSome_iff_exists.mp (hi.resolve_left hmk)
    have hle := h.counted i c hc
    have hpos := h.captures_pos (i := i) (by rw [hc]; rfl)
    obtain ⟨c', hc', halive, hle'⟩ := hh.kept i c
      (by rw [TCPServer.entered_conns, if_neg hmk, hc]) (h.alive i c hc) (by omega)
    rw [hothers i hmk]
    exact ⟨c', hc', halive, hle.trans hle'⟩

/-- The connections are the new one and those from before. -/
theorem Owned.accept_isSome (i : Nat) :
    (s'.tcp.conns i).isSome ↔ i = s.tcp.made ∨ (s.tcp.conns i).isSome := by
  constructor
  · obtain ⟨hh, -⟩ := accept_spec hs
    intro hsome
    by_contra hnot
    rw [not_or] at hnot
    have hnone := hh.back i (by rw [TCPServer.entered_conns, if_neg hnot.1]; simpa using hnot.2)
    rw [hnone] at hsome
    cases hsome
  · intro hi
    obtain ⟨c, hc, -⟩ := h.accept_kept hs hi
    rw [hc]
    rfl

theorem Owned.accept_conns (hc : s'.tcp.conns i = some c) :
    c.alive = true ∧ (s'.captures i).length ≤ c.holders := by
  obtain ⟨c', hc', hrest⟩ := h.accept_kept hs ((h.accept_isSome hs i).mp (by rw [hc]; rfl))
  obtain rfl := Option.some.inj (hc'.symm.trans hc)
  exact hrest

theorem Owned.accept : s'.Owned := by
  obtain ⟨hh, hfree, hcreated, htimer, hcb, hcontexts⟩ := accept_spec hs
  have hsome := h.accept_isSome hs
  constructor
  · intro i hi
    rw [hh.made] at hi
    have hlt : s.tcp.made < i := hi
    have hnone : ¬(s'.tcp.conns i).isSome := by
      rw [hsome, h.fresh i (Nat.le_of_lt hlt)]
      simpa using Nat.ne_of_gt hlt
    simpa using hnone
  · exact fun i c' hc' => (h.accept_conns hs hc').1
  · exact fun i c' hc' => (h.accept_conns hs hc').2
  · intro i hi
    rw [hcreated, htimer, hcb]
    by_cases hmk : i = s.tcp.made
    · rw [hmk]
      exact ⟨t, List.mem_cons_self, Function.update_self .., Function.update_self ..⟩
    · obtain ⟨t', ht', htimer', hcb'⟩ := h.cycle i (((hsome i).mp hi).resolve_left hmk)
      have hne : t' ≠ t := fun heq => hfree (heq ▸ ht')
      refine ⟨t', List.mem_cons_of_mem t ht', ?_, ?_⟩
      · rw [Function.update_of_ne hmk, htimer']
      · rw [Function.update_of_ne hne, hcb']
  · intro t' i hcb'
    rw [hcreated, htimer]
    rw [hcb] at hcb'
    by_cases ht' : t' = t
    · subst ht'
      rw [Function.update_self] at hcb'
      obtain rfl := Option.some.inj hcb'
      exact ⟨List.mem_cons_self, (hsome _).mpr (.inl rfl), Function.update_self ..⟩
    · rw [Function.update_of_ne ht'] at hcb'
      obtain ⟨hmem, hi, htimer'⟩ := h.captured t' i hcb'
      have hmk : i ≠ s.tcp.made := by
        rintro rfl
        exact h.cb_made t' hcb'
      refine ⟨List.mem_cons_of_mem t hmem, (hsome i).mpr (.inr hi), ?_⟩
      rw [Function.update_of_ne hmk, htimer']
  · intro i
    rw [hcontexts, List.mem_append, List.mem_singleton, h.contexts i, hsome i, or_comm]

end Accept

theorem Owned.step (h : s.Owned) {event : OwnerEvent} (hs : s.step event = some s') :
    s'.Owned := by
  cases event with
  | accept fd loop t => exact h.accept hs
  | tcp a =>
    rw [OwningServer.step] at hs
    split_ifs at hs with hallowed
    obtain ⟨tcp, htcp, rfl⟩ := Option.map_eq_some_iff.mp hs
    exact h.tcpStep hallowed htcp
  | refreshTimeStamp i =>
    obtain rfl := Option.some.inj hs
    exact ⟨h.fresh, h.alive, h.counted, h.cycle, h.captured, h.contexts⟩
  | tick d =>
    obtain rfl := Option.some.inj hs
    exact h.setTimers rfl
  | fire =>
    obtain ⟨timers, htimers, rfl⟩ := Option.map_eq_some_iff.mp hs
    exact h.setTimers (by rw [(TimerLoop.step_fire htimers).2]; rfl)
  | run t =>
    simp only [OwningServer.step, Option.bind_eq_bind, Option.bind_eq_some_iff] at hs
    obtain ⟨timers, htimers, i, -, c, hc, hs⟩ := hs
    have hcreated : timers.created = s.timers.created := by
      obtain ⟨now, expired, e, waiting, -, rfl⟩ := TimerLoop.step_start htimers
      rfl
    obtain rfl := Option.some.inj hs
    exact (h.setTimers hcreated).timerCallback hc
  | finish =>
    obtain ⟨timers, htimers, rfl⟩ := Option.map_eq_some_iff.mp hs
    obtain ⟨now, expired, -, rfl⟩ := TimerLoop.step_finish htimers
    exact h.setTimers (TimerLoop.reset_created ..)

theorem Owned.next (h : s.Owned) {event : OwnerEvent} (hs : s.next event = some s') :
    s'.Owned := by
  obtain ⟨s1, hs1, rfl⟩ := Option.map_eq_some_iff.mp hs
  have h1 := h.step hs1
  rw [h1.settle_eq]
  exact h1

theorem owned_new (clock : Int) : (new clock).Owned where
  fresh := fun _ _ => rfl
  alive := fun _ _ hc => by cases hc
  counted := fun _ _ hc => by cases hc
  cycle := fun _ hi => by cases hi
  captured := fun _ _ hcb => by cases hcb
  contexts := fun _ => iff_of_false List.not_mem_nil Bool.false_ne_true

/-- A connection is closed by its peer, the close functor runs, and 900 s later its timer is
cancelled; the timer of a second connection empties `cancelingTimers_` after that. -/
def closedRun : List OwnerEvent :=
  [.accept 5 0 7, .tcp (.flushEvent 0), .tcp (.release 0), .tick 1, .accept 6 0 8,
    .tcp (.flushEvent 1), .tcp (.release 1), .tcp (.poll 0 [0]), .tcp (.setReadyEvents 0),
    .tcp (.handleEvent 0), .tcp (.handleClose 0 false), .tcp (.handled 0), .tcp .runFunctor,
    .tcp (.release 0), .tick 899999999, .fire, .run 7, .finish, .tick 1, .fire, .run 8, .finish]

def closedConn : ServerConn := ⟨0, 5, none, false, .disconnected, 1, true⟩

/-- The callback of the timer is the only holder that is left. -/
theorem closedRun_reaches :
    ∃ s, Run (fun s event s' => next s event = some s') (new 0) closedRun s ∧
      s.Closed 0 closedConn ∧ s.holders 0 closedConn = [.timerCallback 7] := by
  obtain ⟨s, hrun, hs⟩ := Run.exists_of_guarded
    (f := fun s event => next s event) (p := fun _ _ => True) (s := new 0) (l := closedRun)
    (g := fun s => (decide (s.Closed 0 closedConn), s.holders 0 closedConn))
    (a := (true, [.timerCallback 7])) (by decide +kernel)
  obtain ⟨hclosed, hholders⟩ := Prod.mk.inj hs
  exact ⟨s, hrun.mono fun _ _ _ hs => hs.2, of_decide_eq_true hclosed, hholders⟩

/-- No connection is ever released, closed or not: it holds its timer, and the callback of the
timer holds the connection. -/
theorem connection_never_released {clock : Int} {events : List OwnerEvent}
    (hrun : Run (fun s event s' => s.next event = some s') (new clock) events s)
    (hc : s.tcp.conns i = some c) :
    (∃ t, .timerCallback t ∈ s.holders i c ∧ .connection i ∈ s.timerHolders t) ∧
      ¬ s.Released i c := by
  have h : s.Owned := hrun.preserves Owned (owned_new clock) fun _ _ _ h hs => h.next hs
  obtain ⟨t, ht, -, hcb⟩ := h.cycle i (by rw [hc]; rfl)
  refine ⟨⟨t, ?_, h.connection_holds hcb⟩, ?_⟩
  · simp only [holders, List.mem_append]
    exact .inl (.inr (List.mem_map_of_mem (List.mem_filter.mpr ⟨ht, decide_eq_true hcb⟩)))
  · intro hreleased
    have halive := h.alive i c hc
    rw [hreleased.2.1] at halive
    cases halive

theorem connection_never_released_closed :
    ∃ s : OwningServer, s.Closed 0 closedConn ∧
      (∃ t, .timerCallback t ∈ s.holders 0 closedConn ∧ .connection 0 ∈ s.timerHolders t) ∧
      ¬ s.Released 0 closedConn := by
  obtain ⟨s, hrun, hclosed, -⟩ := closedRun_reaches
  exact ⟨s, hclosed, connection_never_released hrun hclosed.found⟩

/-- The connection is closed for good, but its timer's callback holds it. -/
theorem closed_connection_leaks :
    ∃ (events : List OwnerEvent) (s : OwningServer) (i : Nat) (c : ServerConn),
      Run (fun s event s' => next s event = some s') (new 0) events s ∧ s.Closed i c ∧
        ¬ s.Released i c := by
  obtain ⟨s, hrun, hclosed, hholders⟩ := closedRun_reaches
  refine ⟨closedRun, s, 0, closedConn, hrun, hclosed, ?_⟩
  intro hreleased
  have hnil := hreleased.1
  rw [hholders] at hnil
  cases hnil

end OwningServer

end MuduoServer
