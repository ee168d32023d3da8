import MuduoServer.Http.ConnectionOwners
import MuduoServer.Timer.Discipline

namespace MuduoServer

namespace TCPServer

/-- The state of a connection, `none` for one that was not made yet. -/
def stateOf (s : TCPServer) (i : Nat) : Option TCPState := (s.conns i).map ServerConn.state

/-- What a step makes of the states of the connections. -/
def statesAfter (s : TCPServer) : ServerStep → Nat → Option TCPState
  | .accept _ _ => Function.update s.stateOf s.made (some .connected)
  | .handleClose i _ => Function.update s.stateOf i (some .disconnected)
  | _ => s.stateOf

variable {s s' : TCPServer} {i : Nat} {c : ServerConn}

theorem stateOf_conn (hc : s.conns i = some c) : s.stateOf i = some c.state := by
  rw [stateOf, hc]
  rfl

theorem setConn_stateOf (s : TCPServer) (i : Nat) (c : ServerConn) :
    (s.setConn i c).stateOf = Function.update s.stateOf i (some c.state) := by
  funext k
  rw [stateOf, setConn_conns, Function.update_apply]
  split_ifs
  · rfl
  · rfl

/-- A connection that is written back in the state it has. -/
theorem setConn_stateOf_self {c' : ServerConn} (h : s.stateOf i = some c.state)
    (hstate : c'.state = c.state) : (s.setConn i c').stateOf = s.stateOf := by
  rw [setConn_stateOf, hstate, ← h, Function.update_eq_self]

theorem dropped_stateOf (s : TCPServer) (j : Nat) : (s.dropped j).stateOf = s.stateOf := by
  rw [dropped]
  cases hj : s.conns j with
  | none => rfl
  | some d =>
    dsimp only
    split_ifs
    · have hset : (s.setConn j { d with channelFd := none, alive := false }).stateOf =
          s.stateOf := setConn_stateOf_self (stateOf_conn hj) rfl
      rw [← hset, destroy]
      cases d.channelFd <;> rfl
    · rfl

theorem removeSelf_stateOf (h : s.stateOf i = some c.state) :
    (s.removeSelf i c).stateOf = s.stateOf := by
  rw [removeSelf]
  cases c.channelFd with
  | none => rfl
  | some fd => exact setConn_stateOf_self h rfl

theorem updateChannel_stateOf (h : s.stateOf i = some c.state) :
    (s.updateChannel i c).stateOf = s.stateOf := by
  rw [updateChannel]
  cases c.channelFd with
  | none => rfl
  | some fd =>
    dsimp only
    split_ifs
    · exact setConn_stateOf_self h rfl
    · rfl

theorem closeFunctor_stateOf (h : s.stateOf i = some c.state) :
    (s.closeFunctor i c).stateOf = s.stateOf := by
  rw [closeFunctor]
  cases s.connMap c.fd with
  | none => rfl
  | some j =>
    dsimp only
    have hdropped := dropped_stateOf { s with connMap := Function.update s.connMap c.fd none } j
    rw [removeSelf_stateOf (by rw [hdropped]; exact h), hdropped]
    rfl

theorem handleClose_stateOf (hc : s.conns i = some c) (isLocalThread : Bool) :
    (s.handleClose i c isLocalThread).stateOf =
      Function.update s.stateOf i (some .disconnected) := by
  rw [handleClose]
  split_ifs with hstate
  · rw [← hstate, ← stateOf_conn hc, Function.update_eq_self]
  · rw [closeFunctor_stateOf (by rw [setConn_stateOf, Function.update_self]), setConn_stateOf]
  · exact setConn_stateOf s i { c with state := .disconnected }

theorem entered_stateOf (s : TCPServer) (fd loop : Nat) :
    (s.entered fd loop).stateOf = Function.update s.stateOf s.made (some .connected) :=
  setConn_stateOf s s.made (newConn fd loop)

/-- A connection is `Connected` when it is made and `Disconnected` from its `handleClose` on. -/
theorem step_stateOf {a : ServerStep} (hs : s.step a = some s') :
    s'.stateOf = s.statesAfter a := by
  cases a with
  | accept fd loop =>
    obtain ⟨-, rfl⟩ := step_accept hs
    rw [newConnection_eq, statesAfter, ← entered_stateOf s fd loop]
    cases s.connMap fd with
    | none => rfl
    | some j => exact dropped_stateOf _ j
  | flushEvent i =>
    obtain ⟨c, hc, rfl⟩ := Option.map_eq_some_iff.mp hs
    exact updateChannel_stateOf (stateOf_conn (living_spec hc).1)
  | openOther fd =>
    obtain ⟨-, rfl⟩ := step_openOther hs
    rfl
  | closeOther fd =>
    obtain ⟨-, rfl⟩ := step_closeOther hs
    rfl
  | retain i =>
    obtain ⟨c, hc, rfl⟩ := Option.map_eq_some_iff.mp hs
    exact setConn_stateOf_self (stateOf_conn (living_spec hc).1) rfl
  | release i =>
    obtain ⟨c, hc, -, rfl⟩ := step_release hs
    rw [dropped_stateOf]
    exact setConn_stateOf_self (stateOf_conn hc) rfl
  | handleClose i isLocalThread =>
    obtain ⟨c, hc, rfl⟩ := Option.map_eq_some_iff.mp hs
    exact handleClose_stateOf (living_spec hc).1 isLocalThread
  | runFunctor =>
    obtain ⟨i, rest, c, -, hc, rfl⟩ := step_runFunctor hs
    have hset : ({ s with functors := rest }.setConn i
        { c with holders := c.holders + 1 }).stateOf = s.stateOf :=
      setConn_stateOf_self (s := { s with functors := rest }) (stateOf_conn hc) rfl
    rw [closeFunctor_stateOf (by rw [hset, stateOf_conn hc]), hset]
    rfl
  | poll loop batch =>
    obtain ⟨-, rfl⟩ := step_poll hs
    rfl
  | setReadyEvents loop =>
    obtain ⟨i, events, ready, handling, -, dangling, rfl, -⟩ := step_setReadyEvents hs
    rfl
  | handleEvent loop =>
    obtain ⟨i, ready, -, handling, dangling, rfl, -⟩ := step_handleEvent hs
    rfl
  | handled loop =>
    obtain ⟨events, ready, i, -, rfl⟩ := step_handled hs
    exact dropped_stateOf _ i

end TCPServer

namespace TimerLoop

/-- The timer is one of those that the batch has taken out of the sets. -/
def InBatch (l : TimerLoop Nat) (t : Nat) : Prop := ∃ b ∈ l.batch, ∃ x ∈ b.expired, x.2 = some t

/-- What the timer `t` of a connection that was active last at `lastActive` promises. -/
structure Guards (l : TimerLoop Nat) (t : Nat) (lastActive : Int) (state : Option TCPState) :
    Prop where
  repeats : (l.timer t).isInterval = true
  interval : (l.timer t).interval = CONNECTION_TIMEOUT
  active_le : lastActive ≤ l.clock
  due : (l.timer t).expiration ≤ lastActive + 2 * CONNECTION_TIMEOUT
  /-- A callback that has run has found the connection active, or cancelled the timer. -/
  ran : ∀ b ∈ l.batch, (∃ x ∈ b.expired, x.2 = some t) → (∀ x ∈ b.waiting, x.2 ≠ some t) →
    t ∉ l.queue.cancelingTimers → b.now ≤ lastActive + CONNECTION_TIMEOUT
  /-- The timer of an open connection is not given up. -/
  kept : state = some .connected →
    t ∈ l.queue.active_timers ∨ l.InBatch t ∧ t ∉ l.queue.cancelingTimers

variable {l : TimerLoop Nat} {t t' : Nat} {lastActive : Int} {state : Option TCPState}

theorem Sound.inBatch (hs : l.Sound) (h : l.InBatch t) :
    t ∈ l.created ∧ t ∉ l.queue.active_timers ∧ ∃ b ∈ l.batch, b.now ≤ l.clock ∧
      (l.timer t).expiration ≤ b.now := by
  obtain ⟨b, hb, x, hx, hxt⟩ := h
  have hbs := hs.batch b hb
  obtain ⟨t', hxt', hcreated, hactive, -, hexp, hle⟩ := hbs.gone x hx
  obtain rfl : t' = t := Option.some.inj (hxt'.symm.trans hxt)
  exact ⟨hcreated, hactive, b, hb, hbs.now_le, hexp ▸ hle⟩

namespace Guards

theorem tick (h : l.Guards t lastActive state) (d : Nat) (fd : Timerfd) :
    Guards { l with clock := l.clock + d, fd := fd } t lastActive state where
  repeats := h.repeats
  interval := h.interval
  active_le := by
    have hle := h.active_le
    dsimp only
    omega
  due := h.due
  ran := h.ran
  kept := h.kept

/-- The connection is read from or written to. -/
theorem refresh (h : l.Guards t lastActive state) : l.Guards t l.clock state where
  repeats := h.repeats
  interval := h.interval
  active_le := le_refl _
  due := by
    have hle := h.active_le
    have hdue := h.due
    omega
  ran := by
    intro b hb hin hran hcancel
    have hle := h.active_le
    have hnow := h.ran b hb hin hran hcancel
    omega
  kept := h.kept

theorem close (h : l.Guards t lastActive state) : l.Guards t lastActive (some .disconnected) where
  repeats := h.repeats
  interval := h.interval
  active_le := h.active_le
  due := h.due
  ran := h.ran
  kept := nofun

/-- The timer of another connection is made and added. -/
theorem add (h : l.Guards t lastActive state) (hne : t ≠ t') (timer : Timer) (fd : Timerfd)
    (pending : List Nat) (when : Int) :
    Guards { l with
      timer := Function.update l.timer t' timer
      created := t' :: l.created
      queue := (l.queue.insert t' when).2
      pending := pending
      fd := fd } t lastActive state where
  repeats := by
    dsimp only
    rw [Function.update_of_ne hne]
    exact h.repeats
  interval := by
    dsimp only
    rw [Function.update_of_ne hne]
    exact h.interval
  active_le := h.active_le
  due := by
    dsimp only
    rw [Function.update_of_ne hne]
    exact h.due
  ran := h.ran
  kept := by
    intro hopen
    rcases h.kept hopen with hactive | hbatch
    · exact .inl (OrderedSet.mem_insert.mpr (.inr hactive))
    · exact .inr hbatch

/-- A timer that has expired goes from the sets to the batch. -/
theorem fire (hs : l.Sound) (hnone : l.batch = none) (h : l.Guards t lastActive state) :
    l.fire.Guards t lastActive state where
  repeats := h.repeats
  interval := h.interval
  active_le := h.active_le
  due := h.due
  ran := by
    intro b hb ⟨x, hx, hxt⟩ hran
    obtain rfl := Option.some.inj hb
    exact (hran x hx hxt).elim
  kept := by
    intro hopen
    have hactive : t ∈ l.queue.active_timers := by
      refine (h.kept hopen).resolve_right ?_
      rintro ⟨⟨b, hb, -⟩, -⟩
      rw [hnone] at hb
      cases hb
    by_cases hlt : l.clock < (l.timer t).expiration
    · exact .inl ((hs.active_iff l.clock).mpr ⟨hactive, hlt⟩)
    · have hentry := (hs.agree _ t).mpr ⟨hactive, rfl⟩
      refine .inr ⟨⟨_, rfl, _, (hs.expired_iff l.clock).1.mpr ⟨hentry, ?_⟩, rfl⟩, ?_⟩
      · exact Int.not_lt.mp hlt
      · exact OrderedSet.notMem_empty t

/-- The callback of another timer begins, or that of the timer finds the connection active. -/
theorem start {now : Int} {expired waiting : List (TimerEntry Nat)} {x : TimerEntry Nat}
    (hs : l.Sound) (h : l.Guards t lastActive state)
    (hb : l.batch = some ⟨now, expired, x :: waiting⟩)
    (hcase : x.2 ≠ some t ∨ l.clock ≤ lastActive + CONNECTION_TIMEOUT) :
    Guards { l with batch := some ⟨now, expired, waiting⟩ } t lastActive state where
  repeats := h.repeats
  interval := h.interval
  active_le := h.active_le
  due := h.due
  ran := by
    intro b hb' hin hran hcancel
    obtain rfl := Option.some.inj hb'
    rcases hcase with hne | hrecent
    · refine h.ran ⟨now, expired, x :: waiting⟩ hb hin ?_ hcancel
      intro y hy
      rcases List.mem_cons.mp hy with rfl | hy
      · exact hne
      · exact hran y hy
    · exact (hs.batch _ hb).now_le.trans hrecent
  kept := by
    intro hopen
    rcases h.kept hopen with hactive | ⟨⟨b, hb', hin⟩, hcancel⟩
    · exact .inl hactive
    · obtain rfl := Option.some.inj (hb.symm.trans hb')
      exact .inr ⟨⟨_, rfl, hin⟩, hcancel⟩

/-- The timer of another connection is cancelled. -/
theorem cancel (h : l.Guards t lastActive state) (hne : t ≠ t') :
    (l.cancelTimer t').Guards t lastActive state where
  repeats := h.repeats
  interval := h.interval
  active_le := h.active_le
  due := h.due
  ran := by
    intro b hb hin hran hcancel
    exact h.ran b hb hin hran fun hmem => hcancel (TimerQueue.canceling_cancelTimer hmem)
  kept := by
    intro hopen
    rw [cancelTimer]
    by_cases hactive' : t' ∈ l.queue.active_timers
    · rw [TimerQueue.cancelTimer_of_active hactive']
      rcases h.kept hopen with hactive | hbatch
      · exact .inl (OrderedSet.mem_erase.mpr ⟨hactive, hne⟩)
      · exact .inr hbatch
    · rw [TimerQueue.cancelTimer_of_inactive hactive']
      rcases h.kept hopen with hactive | ⟨hbatch, hcancel⟩
      · refine .inl ?_
        split_ifs
        · exact hactive
        · exact hactive
      · refine .inr ⟨hbatch, ?_⟩
        split_ifs
        · intro hmem
          rcases OrderedSet.mem_insert.mp hmem with rfl | hmem
          · exact hne rfl
          · exact hcancel hmem
        · exact hcancel

/-- The timer is cancelled by its own callback, and the connection is closed by then. -/
theorem stop {b : Batch Nat} (h : l.Guards t lastActive state)
    (hs : Sound { l with batch := some b }) :
    (cancelTimer { l with batch := some b } t).Guards t lastActive (some .disconnected) where
  repeats := h.repeats
  interval := h.interval
  active_le := h.active_le
  due := h.due
  ran := by
    intro b' hb' hin _ hcancel
    refine absurd ?_ hcancel
    have hactive := (hs.inBatch ⟨b', hb', hin⟩).2.1
    have hflag : l.queue.is_doing_timer_callback = true := hs.flag
    rw [cancelTimer, TimerQueue.cancelTimer_of_inactive hactive, if_pos hflag]
    exact OrderedSet.mem_insert.mpr (.inl rfl)
  kept := nofun

/-- The timers of the batch that repeat are put back, for one more timeout from its start. -/
theorem finish {now : Int} {expired : List (TimerEntry Nat)} (h : l.Guards t lastActive state)
    (hb : l.batch = some ⟨now, expired, []⟩) :
    (l.reset expired now).Guards t lastActive state := by
  obtain ⟨hr, ho, -, hactive, -, -⟩ := reset_spec l expired now
  have hclock : (l.reset expired now).clock = l.clock := by
    obtain ⟨fd, hreset⟩ := l.reset_eq now expired
    rw [hreset]
  by_cases hback : Back l expired t
  · have hrt : (l.reset expired now).timer t = (l.timer t).restart now := hr t hback
    have hnow := h.ran _ hb hback.1 (by simp) hback.2.2
    constructor
    · rw [hrt, Timer.restart_isInterval, h.repeats]
    · rw [hrt, Timer.restart_interval, h.interval]
    · rw [hclock]
      exact h.active_le
    · rw [hrt, Timer.restart_expiration h.repeats, h.interval]
      dsimp only at hnow
      omega
    · intro b hb'
      rw [reset_batch] at hb'
      cases hb'
    · exact fun _ => .inl ((hactive t).mpr (.inr hback))
  · have hrt : (l.reset expired now).timer t = l.timer t := ho t hback
    constructor
    · rw [hrt, h.repeats]
    · rw [hrt, h.interval]
    · rw [hclock]
      exact h.active_le
    · rw [hrt]
      exact h.due
    · intro b hb'
      rw [reset_batch] at hb'
      cases hb'
    · intro hopen
      rcases h.kept hopen with hin | ⟨⟨b, hb', hin⟩, hcancel⟩
      · exact .inl ((hactive t).mpr (.inl hin))
      · obtain rfl := Option.some.inj (hb.symm.trans hb')
        exact absurd ⟨hin, h.repeats, hcancel⟩ hback

end Guards

end TimerLoop

namespace OwningServer

/-- The main loop keeps up: each timer is taken out of the queue, and the callbacks that come with
it are done, in `late` microseconds. -/
def Prompt (late : Nat) (s : OwningServer) : Prop :=
  (∀ e ∈ s.timers.queue.timers.elems, s.timers.clock ≤ e.1 + late) ∧
    ∀ b ∈ s.timers.batch, s.timers.clock ≤ b.now + late

instance (late : Nat) : DecidablePred (Prompt late) := fun s =>
  inferInstanceAs (Decidable ((∀ e ∈ s.timers.queue.timers.elems, _) ∧ ∀ b ∈ s.timers.batch, _))

/-- Each connection has its timer, which promises to close it. -/
structure Timed (s : OwningServer) : Prop where
  owned : s.Owned
  sound : s.timers.Sound
  states : ∀ i state, s.tcp.stateOf i = some state → state = .connected ∨ state = .disconnected
  guards : ∀ t i, s.cb t = some i → s.timers.Guards t (s.lastActive i) (s.tcp.stateOf i)

variable {s s' : OwningServer} {i t : Nat} {c : ServerConn} {late : Nat}

theorem timed_new (clock : Int) : (new clock).Timed where
  owned := owned_new clock
  sound := TimerLoop.sound_init clock
  states := nofun
  guards := nofun

/-- What the on-connection callback does with the timers. -/
theorem accept_timed {fd loop : Nat} (hs : s.accept fd loop t = some s') :
    s'.tcp.stateOf = Function.update s.tcp.stateOf s.tcp.made (some .connected) ∧
      s'.lastActive = Function.update s.lastActive s.tcp.made s.timers.clock ∧
      (s.timers.Sound → s'.timers.Sound) ∧ ∃ when pending tfd, s'.timers = { s.timers with
        timer := Function.update s.timers.timer t (connectionTimer s.timers.clock)
        created := t :: s.timers.created
        queue := (s.timers.queue.insert t when).2
        pending := pending
        fd := tfd } := by
  simp only [accept, Option.bind_eq_bind, Option.bind_eq_some_iff] at hs
  obtain ⟨tcp, htcp, tcp', hretain, timers, hcreate, timers', hadd, hs⟩ := hs
  obtain rfl := Option.some.inj hs
  refine ⟨?_, rfl, fun hsound => (hsound.step hcreate).step hadd, ?_⟩
  · rw [TCPServer.step_stateOf hretain]
    exact TCPServer.step_stateOf htcp
  · obtain ⟨-, rfl⟩ := TimerLoop.step_create hcreate
    obtain ⟨-, rfl⟩ := TimerLoop.step_add hadd
    obtain ⟨tfd, hadded⟩ := TimerLoop.addTimer_eq { s.timers with
      timer := Function.update s.timers.timer t (connectionTimer s.timers.clock)
      created := t :: s.timers.created
      pending := t :: s.timers.pending } t
    exact ⟨_, _, tfd, hadded⟩

theorem states_update {f : Nat → Option TCPState}
    (h : ∀ i state, f i = some state → state = .connected ∨ state = .disconnected) (k : Nat)
    {state : TCPState} (hstate : state = .connected ∨ state = .disconnected) :
    ∀ i state', Function.update f k (some state) i = some state' →
      state' = .connected ∨ state' = .disconnected := by
  intro i state' hi
  rw [Function.update_apply] at hi
  split_ifs at hi
  · obtain rfl := Option.some.inj hi
    exact hstate
  · exact h i state' hi

theorem Timed.accept (h : s.Timed) {fd loop : Nat} (hs : s.accept fd loop t = some s') :
    s'.Timed := by
  obtain ⟨hstates, hactive, hsound, when, pending, tfd, htimers⟩ := accept_timed hs
  obtain ⟨-, hfree, -, -, hcb, -⟩ := accept_spec hs
  refine ⟨h.owned.accept hs, hsound h.sound, ?_, ?_⟩
  · rw [hstates]
    exact states_update h.states _ (.inl rfl)
  · intro t' i hi
    rw [hcb] at hi
    by_cases ht : t' = t
    · subst ht
      rw [Function.update_self] at hi
      obtain rfl := Option.some.inj hi
      have hout : ∀ b ∈ s.timers.batch, ∀ x ∈ b.expired, x.2 ≠ some t' := by
        intro b hb x hx hxt
        exact hfree (h.sound.inBatch ⟨b, hb, x, hx, hxt⟩).1
      rw [hstates, hactive, htimers, Function.update_self, Function.update_self]
      refine ⟨?_, ?_, le_refl _, ?_, ?_, ?_⟩
      · dsimp only
        rw [Function.update_self, connectionTimer]
      · dsimp only
        rw [Function.update_self, connectionTimer]
      · have hpos : 0 ≤ CONNECTION_TIMEOUT := by decide
        dsimp only
        rw [Function.update_self, connectionTimer]
        dsimp only
        omega
      · intro b hb ⟨x, hx, hxt⟩
        exact (hout b hb x hx hxt).elim
      · exact fun _ => .inl (OrderedSet.mem_insert.mpr (.inl rfl))
    · rw [Function.update_of_ne ht] at hi
      have hmade : i ≠ s.tcp.made := by
        rintro rfl
        exact h.owned.cb_made t' hi
      rw [hstates, hactive, htimers, Function.update_of_ne hmade, Function.update_of_ne hmade]
      exact (h.guards t' i hi).add ht _ tfd pending when

/-- The connections close; their timers stay as they are. -/
theorem Timed.setTcp (h : s.Timed) {tcp : TCPServer} (howned : Owned { s with tcp })
    (hstates : tcp.stateOf = s.tcp.stateOf ∨
      ∃ i, tcp.stateOf = Function.update s.tcp.stateOf i (some .disconnected)) :
    Timed { s with tcp } := by
  refine ⟨howned, h.sound, ?_, ?_⟩
  · rcases hstates with hsame | ⟨i, hclosed⟩
    · dsimp only
      rw [hsame]
      exact h.states
    · dsimp only
      rw [hclosed]
      exact states_update h.states i (.inr rfl)
  · intro t k hk
    have hguards := h.guards t k hk
    dsimp only
    rcases hstates with hsame | ⟨i, hclosed⟩
    · rw [hsame]
      exact hguards
    · rw [hclosed, Function.update_apply]
      split_ifs
      · exact hguards.close
      · exact hguards

/-- The callback of a connection's timer cancels it, and the connection is closed then. -/
theorem Timed.stopped (h : s.Timed) (hcb : s.cb t = some i) {b : Batch Nat} {tcp : TCPServer}
    (hsound : TimerLoop.Sound { s.timers with batch := some b })
    (hother : ∀ t' k, s.cb t' = some k → t' ≠ t →
      TimerLoop.Guards { s.timers with batch := some b } t' (s.lastActive k) (s.tcp.stateOf k))
    (howned : Owned { s with
      timers := TimerLoop.cancelTimer { s.timers with batch := some b } t
      tcp := tcp })
    (hstates : tcp.stateOf = Function.update s.tcp.stateOf i (some .disconnected)) :
    Timed { s with
      timers := TimerLoop.cancelTimer { s.timers with batch := some b } t
      tcp := tcp } := by
  refine ⟨howned, hsound.cancel t, ?_, ?_⟩
  · dsimp only
    rw [hstates]
    exact states_update h.states i (.inr rfl)
  · intro t' k hk
    dsimp only
    rw [hstates]
    by_cases ht : t' = t
    · subst ht
      obtain rfl : i = k := Option.some.inj (hcb.symm.trans hk)
      rw [Function.update_self]
      exact (h.guards t' i hk).stop hsound
    · have hguards := (hother t' k hk ht).cancel ht
      rw [Function.update_apply]
      split_ifs
      · exact hguards.close
      · exact hguards

theorem Timed.run (h : s.Timed) (hs : s.step (.run t) = some s') : s'.Timed := by
  have howned := h.owned.step hs
  simp only [OwningServer.step, Option.bind_eq_bind, Option.bind_eq_some_iff] at hs
  obtain ⟨timers, hstart, i, hcb, c, hc, hs⟩ := hs
  obtain rfl := Option.some.inj hs
  have hsound := h.sound.step hstart
  obtain ⟨now, expired, e, waiting, hb, rfl⟩ := TimerLoop.step_start hstart
  have hstate := TCPServer.stateOf_conn hc
  have hother : ∀ t' k, s.cb t' = some k → t' ≠ t →
      TimerLoop.Guards { s.timers with batch := some ⟨now, expired, waiting⟩ } t'
        (s.lastActive k) (s.tcp.stateOf k) := by
    intro t' k hk hne
    refine (h.guards t' k hk).start h.sound hb (.inl ?_)
    exact fun heq => hne (Option.some.inj heq).symm
  have hcancel : ∀ l, OwningServer.cancelTimer { s with timers := l } i =
      { s with timers := l.cancelTimer t } := by
    intro l
    simp only [OwningServer.cancelTimer, (h.owned.captured t i hcb).2.2]
  rw [timerCallback] at howned ⊢
  rcases h.states i _ hstate with hopen | hclosed
  · simp only [hopen] at howned ⊢
    split_ifs at howned ⊢ with hidle
    · rw [hcancel] at howned ⊢
      exact h.stopped hcb hsound hother howned (TCPServer.handleClose_stateOf hc true)
    · refine ⟨howned, hsound, h.states, ?_⟩
      intro t' k hk
      by_cases ht : t' = t
      · subst ht
        obtain rfl : i = k := Option.some.inj (hcb.symm.trans hk)
        exact (h.guards t' i hk).start h.sound hb (.inr (Int.not_lt.mp hidle))
      · exact hother t' k hk ht
  · simp only [hclosed] at howned ⊢
    rw [hcancel] at howned ⊢
    refine h.stopped hcb hsound hother howned ?_
    rw [← hclosed, ← hstate, Function.update_eq_self]

theorem Timed.step (h : s.Timed) {event : OwnerEvent} (hs : s.step event = some s') :
    s'.Timed := by
  have howned := h.owned.step hs
  cases event with
  | accept fd loop t => exact h.accept hs
  | tcp a =>
    rw [OwningServer.step] at hs
    split_ifs at hs with hallowed
    obtain ⟨tcp, htcp, rfl⟩ := Option.map_eq_some_iff.mp hs
    refine h.setTcp howned ?_
    rw [TCPServer.step_stateOf htcp]
    cases a with
    | accept fd loop => exact hallowed.elim
    | handleClose i isLocalThread => exact .inr ⟨i, rfl⟩
    | _ => exact .inl rfl
  | refreshTimeStamp i =>
    obtain rfl := Option.some.inj hs
    refine ⟨howned, h.sound, h.states, ?_⟩
    intro t k hk
    dsimp only
    rw [Function.update_apply]
    split_ifs
    · exact (h.guards t k hk).refresh
    · exact h.guards t k hk
  | tick d =>
    obtain rfl := Option.some.inj hs
    exact ⟨howned, h.sound.tick d _, h.states, fun t k hk => (h.guards t k hk).tick d _⟩
  | fire =>
    obtain ⟨timers, htimers, rfl⟩ := Option.map_eq_some_iff.mp hs
    obtain ⟨hnone, rfl⟩ := TimerLoop.step_fire htimers
    exact ⟨howned, h.sound.fire, h.states, fun t k hk => .fire h.sound hnone (h.guards t k hk)⟩
  | run t => exact h.run hs
  | finish =>
    obtain ⟨timers, htimers, rfl⟩ := Option.map_eq_some_iff.mp hs
    obtain ⟨now, expired, hb, rfl⟩ := TimerLoop.step_finish htimers
    exact ⟨howned, h.sound.finish hb, h.states, fun t k hk => (h.guards t k hk).finish hb⟩

theorem Timed.next (h : s.Timed) {event : OwnerEvent} (hs : s.next event = some s') :
    s.step event = some s' ∧ s'.Timed := by
  obtain ⟨s1, hs1, rfl⟩ := Option.map_eq_some_iff.mp hs
  have h1 := h.step hs1
  rw [h1.owned.settle_eq]
  exact ⟨hs1, h1⟩

theorem timerCallback_batch (s : OwningServer) (i : Nat) (c : ServerConn) :
    (s.timerCallback i c).timers.batch = s.timers.batch := by
  have hcancel : (s.cancelTimer i).timers.batch = s.timers.batch := by
    rw [cancelTimer]
    cases s.timer_ i <;> rfl
  rw [timerCallback]
  cases c.state with
  | connected =>
    dsimp only
    split_ifs
    · exact hcancel
    · rfl
  | disconnected => exact hcancel
  | invalid => rfl
  | closing => rfl

/-- The batch is the one of before, or the callback of the timerfd has just begun. -/
theorem step_batch {event : OwnerEvent} (hs : s.step event = some s') {b' : Batch Nat}
    (hb' : b' ∈ s'.timers.batch) :
    (∃ b ∈ s.timers.batch, b'.now = b.now ∧ b'.expired = b.expired) ∨
      b'.now = s.timers.clock ∧ b'.expired = (s.timers.queue.getExpired s.timers.clock).1 := by
  cases event with
  | accept fd loop t =>
    obtain ⟨-, -, -, when, pending, tfd, htimers⟩ := accept_timed hs
    rw [htimers] at hb'
    exact .inl ⟨b', hb', rfl, rfl⟩
  | tcp a =>
    rw [OwningServer.step] at hs
    split_ifs at hs
    obtain ⟨tcp, -, rfl⟩ := Option.map_eq_some_iff.mp hs
    exact .inl ⟨b', hb', rfl, rfl⟩
  | refreshTimeStamp i =>
    obtain rfl := Option.some.inj hs
    exact .inl ⟨b', hb', rfl, rfl⟩
  | tick d =>
    obtain rfl := Option.some.inj hs
    exact .inl ⟨b', hb', rfl, rfl⟩
  | fire =>
    obtain ⟨timers, htimers, rfl⟩ := Option.map_eq_some_iff.mp hs
    obtain ⟨-, rfl⟩ := TimerLoop.step_fire htimers
    obtain rfl := Option.some.inj hb'
    exact .inr ⟨rfl, rfl⟩
  | run t =>
    simp only [OwningServer.step, Option.bind_eq_bind, Option.bind_eq_some_iff] at hs
    obtain ⟨timers, hstart, i, -, c, -, hs⟩ := hs
    obtain rfl := Option.some.inj hs
    obtain ⟨now, expired, e, waiting, hb, rfl⟩ := TimerLoop.step_start hstart
    rw [timerCallback_batch] at hb'
    obtain rfl := Option.some.inj hb'
    exact .inl ⟨_, hb, rfl, rfl⟩
  | finish =>
    obtain ⟨timers, htimers, rfl⟩ := Option.map_eq_some_iff.mp hs
    obtain ⟨now, expired, -, rfl⟩ := TimerLoop.step_finish htimers
    rw [TimerLoop.reset_batch] at hb'
    cases hb'

/-- A loop that has kept up so far. -/
structure OnTime (late : Nat) (s : OwningServer) : Prop where
  prompt : s.Prompt late
  started : ∀ b ∈ s.timers.batch, ∀ x ∈ b.expired, b.now ≤ x.1 + late

theorem OnTime.step (h : s.OnTime late) (ht : s.Timed) {event : OwnerEvent}
    (hs : s.step event = some s') (hprompt : s'.Prompt late) : s'.OnTime late := by
  refine ⟨hprompt, ?_⟩
  intro b' hb' x hx
  rcases step_batch hs hb' with ⟨b, hb, hnow, hexpired⟩ | ⟨hnow, hexpired⟩
  · rw [hnow]
    exact h.started b hb x (hexpired ▸ hx)
  · rw [hexpired] at hx
    rw [hnow]
    exact h.prompt.1 x ((ht.sound.expired_iff s.timers.clock).1.mp hx).1

/-- The timer of a connection expires two timeouts after the connection was active last, or
before. -/
theorem OnTime.clock_le (h : s.OnTime late) (ht : s.Timed) (hcb : s.cb t = some i)
    (hwaits : t ∈ s.timers.queue.active_timers ∨ s.timers.InBatch t) :
    s.timers.clock ≤ s.lastActive i + 2 * CONNECTION_TIMEOUT + 2 * late := by
  have hdue := (ht.guards t i hcb).due
  rcases hwaits with hactive | ⟨b, hb, x, hx, hxt⟩
  · have hle := h.prompt.1 _ ((ht.sound.agree _ t).mpr ⟨hactive, rfl⟩)
    dsimp only at hle
    omega
  · obtain ⟨t', hxt', -, -, -, hexp, -⟩ := (ht.sound.batch b hb).gone x hx
    obtain rfl : t' = t := Option.some.inj (hxt'.symm.trans hxt)
    have hstarted := h.started b hb x hx
    have hclock := h.prompt.2 b hb
    omega

/-- The timer of a connection is in no set and no batch: its callback does not run again. -/
def TimerGone (s : OwningServer) (i : Nat) : Prop :=
  ∀ t ∈ s.timer_ i, t ∉ s.timers.queue.active_timers ∧
    (∀ e ∈ s.timers.queue.timers, e.2 ≠ some t) ∧ ¬s.timers.InBatch t

/-- An open connection is closed by a call of `handleClose`, or by its timer when it is idle. -/
theorem Timed.closes (h : s.Timed) {event : OwnerEvent} (hs : s.step event = some s')
    (hopen : s.tcp.stateOf i = some .connected) (hclosed : s'.tcp.stateOf i ≠ some .connected) :
    (∃ isLocalThread, event = .tcp (.handleClose i isLocalThread)) ∨
      ∃ t, event = .run t ∧ s.timer_ i = some t ∧
        s.lastActive i + CONNECTION_TIMEOUT < s.timers.clock := by
  cases event with
  | accept fd loop t =>
    obtain ⟨hstates, -⟩ := accept_timed hs
    rw [hstates, Function.update_apply] at hclosed
    split_ifs at hclosed
    · exact (hclosed rfl).elim
    · exact (hclosed hopen).elim
  | tcp a =>
    rw [OwningServer.step] at hs
    split_ifs at hs with hallowed
    obtain ⟨tcp, htcp, rfl⟩ := Option.map_eq_some_iff.mp hs
    dsimp only at hclosed
    rw [TCPServer.step_stateOf htcp] at hclosed
    cases a with
    | accept fd loop => exact hallowed.elim
    | handleClose j isLocalThread =>
      by_cases hj : i = j
      · exact .inl ⟨isLocalThread, by rw [hj]⟩
      · rw [TCPServer.statesAfter, Function.update_of_ne hj] at hclosed
        exact (hclosed hopen).elim
    | _ => exact (hclosed hopen).elim
  | refreshTimeStamp j =>
    obtain rfl := Option.some.inj hs
    exact (hclosed hopen).elim
  | tick d =>
    obtain rfl := Option.some.inj hs
    exact (hclosed hopen).elim
  | fire =>
    obtain ⟨timers, -, rfl⟩ := Option.map_eq_some_iff.mp hs
    exact (hclosed hopen).elim
  | run t =>
    simp only [OwningServer.step, Option.bind_eq_bind, Option.bind_eq_some_iff] at hs
    obtain ⟨timers, hstart, j, hcb, c, hc, hs⟩ := hs
    obtain rfl := Option.some.inj hs
    obtain ⟨now, expired, e, waiting, -, rfl⟩ := TimerLoop.step_start hstart
    have hcancel : ∀ s1 : OwningServer, (s1.cancelTimer j).tcp.stateOf = s1.tcp.stateOf :=
      fun s1 => by rw [cancelTimer_tcp]
    rw [timerCallback] at hclosed
    rcases h.states j _ (TCPServer.stateOf_conn hc) with hstate | hstate
    · simp only [hstate] at hclosed
      split_ifs at hclosed with hidle
      · rw [OwningServer.handleClose, cancelTimer_tcp] at hclosed
        dsimp only at hclosed
        rw [TCPServer.handleClose_stateOf hc, Function.update_apply] at hclosed
        split_ifs at hclosed with hj
        · subst hj
          exact .inr ⟨t, rfl, (h.owned.captured t i hcb).2.2, hidle⟩
        · exact (hclosed hopen).elim
      · exact (hclosed hopen).elim
    · simp only [hstate] at hclosed
      rw [hcancel] at hclosed
      exact (hclosed hopen).elim
  | finish =>
    obtain ⟨timers, -, rfl⟩ := Option.map_eq_some_iff.mp hs
    exact (hclosed hopen).elim

/-- The timer closes a connection only after 900 s without an event, and if the main loop keeps up,
every connection is closed, and its timer gone, after 1800 s and twice the delay of the loop. -/
theorem idle_connections_closed {clock : Int} {events : List OwnerEvent}
    (hrun : Run (fun s event s' => s.next event = some s') (new clock) events s)
    (hc : s.tcp.conns i = some c) :
    (∀ event s', s.next event = some s' → c.state = .connected →
      s'.tcp.stateOf i ≠ some .connected →
        (∃ isLocalThread, event = .tcp (.handleClose i isLocalThread)) ∨
          ∃ t, event = .run t ∧ s.timer_ i = some t ∧
            s.lastActive i + CONNECTION_TIMEOUT < s.timers.clock) ∧
      ∀ late : Nat, Run (fun s event s' => s.next event = some s' ∧ s'.Prompt late) (new clock)
          events s →
        s.lastActive i + 2 * CONNECTION_TIMEOUT + 2 * late < s.timers.clock →
          c.state = .disconnected ∧ s.TimerGone i := by
  have htimed : s.Timed :=
    hrun.preserves Timed (timed_new clock) fun _ _ _ h hs => (h.next hs).2
  have hstate := TCPServer.stateOf_conn hc
  constructor
  · intro event s' hs hopen hclosed
    obtain ⟨hs1, -⟩ := htimed.next hs
    exact htimed.closes hs1 (by rw [hstate, hopen]) hclosed
  · intro late hprompt hidle
    have hontime : s.Timed ∧ s.OnTime late := by
      refine hprompt.preserves (fun s => s.Timed ∧ s.OnTime late) ?_ ?_
      · exact ⟨timed_new clock, ⟨nofun, nofun⟩, nofun⟩
      · intro s event s' h hs
        obtain ⟨hs1, htimed'⟩ := h.1.next hs.1
        exact ⟨htimed', h.2.step h.1 hs1 hs.2⟩
    obtain ⟨t, -, htimer, hcb⟩ := htimed.owned.cycle i (by rw [hc]; rfl)
    have hgone : ¬(t ∈ s.timers.queue.active_timers ∨ s.timers.InBatch t) := by
      intro hwaits
      have hle := hontime.2.clock_le htimed hcb hwaits
      omega
    rw [not_or] at hgone
    constructor
    · refine (htimed.states i _ hstate).resolve_left ?_
      intro hopen
      rcases (htimed.guards t i hcb).kept (by rw [hstate, hopen]) with hactive | hbatch
      · exact hgone.1 hactive
      · exact hgone.2 hbatch.1
    · intro t' ht'
      obtain rfl : t = t' := Option.some.inj (htimer.symm.trans ht')
      refine ⟨hgone.1, ?_, hgone.2⟩
      intro e he het
      obtain ⟨t', hentry, hactive, -⟩ := htimed.sound.entry he
      rw [hentry] at het
      obtain rfl := Option.some.inj het
      exact hgone.1 hactive

/-- A client connects and sends nothing more; the loop is never late. -/
theorem idle_connections_closed_silent :
    ∃ (s : OwningServer) (c : ServerConn), s.timers.clock = 1800000001 ∧
      s.tcp.conns 0 = some c ∧ c.state = .disconnected ∧ s.TimerGone 0 := by
  obtain ⟨s, hrun, hs⟩ := Run.exists_of_guarded
    (f := fun s event => (next s event).filter fun s' => decide (s'.Prompt 0))
    (p := fun _ _ => True) (s := new 0)
    (l := [.accept 5 0 7, .tcp (.flushEvent 0), .tcp (.release 0), .tick 900000000, .fire, .run 7,
      .finish, .tick 900000000, .fire, .run 7, .finish, .tick 1])
    (g := fun s => (s.timers.clock, s.lastActive 0, (s.tcp.conns 0).isSome))
    (a := (1800000001, 0, true)) (by decide +kernel)
  obtain ⟨events, hprompt⟩ : ∃ events,
      Run (fun s event s' => next s event = some s' ∧ s'.Prompt 0) (new 0) events s := by
    refine ⟨_, hrun.mono fun _ _ _ hs => ?_⟩
    obtain ⟨hnext, hs⟩ := Option.filter_eq_some_iff.mp hs.2
    exact ⟨hnext, of_decide_eq_true hs⟩
  obtain ⟨hclock, hactive, hsome⟩ : s.timers.clock = 1800000001 ∧ s.lastActive 0 = 0 ∧
    (s.tcp.conns 0).isSome = true := by simpa using hs
  obtain ⟨c, hc⟩ := Option.isSome_iff_exists.mp hsome
  refine ⟨s, c, hclock, hc, ?_⟩
  refine (idle_connections_closed (hprompt.mono fun _ _ _ hs => hs.1) hc).2 0 hprompt ?_
  rw [hclock, hactive]
  decide

end OwningServer

end MuduoServer
