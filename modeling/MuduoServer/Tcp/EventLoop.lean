import MuduoServer.Framework.EventFd
import MuduoServer.Framework.Run

namespace MuduoServer

/-- Where the thread of a loop stands. -/
inductive LoopPc
  /-- At the test of `quit_`. -/
  | head
  /-- In `epoll_wait`. -/
  | polling
  /-- Handling the ready channels; `wake` while the wake channel is among those to come. -/
  | handling (wake : Bool)
  /-- In `doPendingFunctors`, before the swap. -/
  | swapping
  /-- In the loop over `tmp_list`. -/
  | running
  | exited
  deriving DecidableEq, Repr

/-- `EventLoop`, with its thread and the threads that queue functors. `owed` counts the other
threads between their push and their write, `owes` says that the loop's own thread is there. `ran`
are the functors that were called. -/
structure EventLoop (F : Type*) where
  pc : LoopPc
  quit : Bool
  wakefd : EventFd
  pendingFunctors : List F
  tmpList : List F
  owed : Nat
  owes : Bool
  ran : List F
  deriving DecidableEq, Repr

/-- The steps of a loop and of the threads around it. -/
inductive LoopStep (F : Type*)
  /-- Another thread pushes, in `queueFunctor` or in `callOrQueue`. -/
  | push (f : F)
  /-- Another thread writes to the eventfd after its push. -/
  | wake (again : Bool)
  /-- A write to the eventfd without a push, as in `quit`. -/
  | extraWake (again : Bool)
  /-- The loop's own thread pushes, from a callback or a functor, by `queueFunctor`. -/
  | pushHere (f : F)
  | wakeHere (again : Bool)
  /-- A functor or a callback sets `quit_`. -/
  | setQuit
  /-- The test of `quit_`. -/
  | test
  /-- `epoll_wait` drops the eventfd, whose counter is empty, and goes on waiting. -/
  | drop
  /-- `epoll_wait` returns channels; the wake channel is among them or not. -/
  | poll (wake : Bool)
  /-- The read callback of the wake channel. -/
  | readWake
  /-- The last ready channel was handled. -/
  | handled
  /-- `tmp_list.swap(pendingFunctors_)`. -/
  | swap
  /-- The next functor of `tmp_list` is called. -/
  | call
  | done
  deriving DecidableEq, Repr

/-- The functor that a step pushes. -/
def LoopStep.pushed {F : Type*} : LoopStep F → List F
  | .push f | .pushHere f => [f]
  | .wake _ | .extraWake _ | .wakeHere _ | .setQuit | .test | .drop | .poll _ | .readWake
  | .handled | .swap | .call | .done => []

namespace EventLoop

variable {F : Type*}

/-- The constructor. -/
def new : EventLoop F := ⟨.head, false, .new, [], [], 0, false, []⟩

def pushFunctor (l : EventLoop F) (f : F) : EventLoop F :=
  { l with pendingFunctors := l.pendingFunctors ++ [f] }

/-- `EventLoop::wake`. -/
def wake (l : EventLoop F) (again : Bool) : EventLoop F := { l with wakefd := l.wakefd.write again }

/-- The thread of the loop runs a callback or a functor. -/
def Local (l : EventLoop F) : Prop := (∃ wake, l.pc = .handling wake) ∨ l.pc = .running

instance (l : EventLoop F) : Decidable l.Local :=
  match h : l.pc with
  | .handling wake => isTrue (.inl ⟨wake, h⟩)
  | .running => isTrue (.inr h)
  | .head | .polling | .swapping | .exited => isFalse (by simp [Local, h])

/-- A step, when it is possible. A `callOrQueue` of the loop's own thread calls the functor itself
and touches neither the list nor the eventfd, so it is no step. -/
def step (l : EventLoop F) : LoopStep F → Option (EventLoop F)
  | .push f => some { l.pushFunctor f with owed := l.owed + 1 }
  | .wake again => if 0 < l.owed then some { l.wake again with owed := l.owed - 1 } else none
  | .extraWake again => some (l.wake again)
  | .pushHere f =>
    if l.Local ∧ l.owes = false then some { l.pushFunctor f with owes := true } else none
  | .wakeHere again => if l.owes then some { l.wake again with owes := false } else none
  | .setQuit => if l.Local then some { l with quit := true } else none
  | .test =>
    if l.pc = .head then some { l with pc := if l.quit then .exited else .polling } else none
  | .drop =>
    if l.pc = .polling ∧ ¬l.wakefd.Fires then some { l with wakefd := l.wakefd.collect } else none
  | .poll true =>
    if l.pc = .polling ∧ l.wakefd.Fires then
      some { l with pc := .handling true, wakefd := l.wakefd.collect }
    else none
  | .poll false => if l.pc = .polling then some { l with pc := .handling false } else none
  | .readWake =>
    if l.pc = .handling true ∧ l.owes = false then
      some { l with pc := .handling false, wakefd := l.wakefd.read }
    else none
  | .handled =>
    if l.pc = .handling false ∧ l.owes = false then some { l with pc := .swapping } else none
  | .swap =>
    if l.pc = .swapping then
      some { l with pc := .running, tmpList := l.pendingFunctors, pendingFunctors := [] }
    else none
  | .call =>
    match l.tmpList with
    | f :: fs =>
      if l.pc = .running ∧ l.owes = false then
        some { l with tmpList := fs, ran := l.ran ++ [f] }
      else none
    | [] => none
  | .done =>
    if l.pc = .running ∧ l.owes = false ∧ l.tmpList = [] then some { l with pc := .head } else none

/-- What holds in every reachable state, after the pushes of the functors `queued`. -/
structure Awake (queued : List F) (l : EventLoop F) : Prop where
  /-- A write that was not read is known to epoll, unless the wake channel is being handled. -/
  armed : l.pc ≠ .handling true → l.wakefd.Armed
  /-- A functor that waits has its write, made or owed, unless a swap is to come. -/
  owed : l.pendingFunctors ≠ [] → (∃ wake, l.pc = .handling wake) ∨ l.pc = .swapping ∨
    0 < l.wakefd.counter ∨ 0 < l.owed ∨ l.owes = true
  owesHere : l.owes = true → l.Local
  order : l.ran ++ l.tmpList ++ l.pendingFunctors = queued
  fresh : l.pc ≠ .running → l.tmpList = []

variable {queued : List F} {l l' : EventLoop F}

theorem new_awake : (new : EventLoop F).Awake [] :=
  ⟨fun _ => by simp [new, EventFd.new, EventFd.Armed], by simp [new], by simp [new],
    by simp [new], by simp [new]⟩

/-- A push leaves its write owed. -/
theorem Awake.push (h : l.Awake queued) (f : F) {owed : Nat} {owes : Bool}
    (hnew : 0 < owed ∨ owes = true) (hlocal : owes = true → l.Local) :
    Awake (queued ++ [f]) { l.pushFunctor f with owed := owed, owes := owes } := by
  refine ⟨h.armed, fun _ => .inr (.inr (.inr hnew)), hlocal, ?_, h.fresh⟩
  simp only [pushFunctor]
  rw [← h.order]
  simp only [List.append_assoc]

/-- A write is not lost, whoever makes it. -/
theorem Awake.wake (h : l.Awake queued) (again : Bool) {owed : Nat} {owes : Bool}
    (hlocal : owes = true → l.Local) :
    Awake queued { l.wake again with owed := owed, owes := owes } :=
  ⟨fun hpc => (h.armed hpc).write again,
    fun _ => .inr (.inr (.inl (l.wakefd.write_pos again))), hlocal, h.order, h.fresh⟩

/-- Where the thread waits or tests, nothing of its own is under way. -/
theorem Awake.settled (h : l.Awake queued) (hpc : ¬l.Local) : l.owes = false := by
  by_contra howes
  exact hpc (h.owesHere (by simpa using howes))

theorem Awake.test (h : l.Awake queued) (hpc : l.pc = .head) :
    Awake queued { l with pc := if l.quit then .exited else .polling } := by
  have howes := h.settled (by simp [Local, hpc])
  have hold := h.owed
  have hfresh := h.fresh (by simp [hpc])
  refine ⟨fun _ => h.armed (by simp [hpc]), ?_, by simp [howes], h.order, fun _ => hfresh⟩
  intro hpending
  have hcases := hold hpending
  simp only [hpc, reduceCtorEq, exists_false, false_or] at hcases
  exact .inr (.inr hcases)

/-- Only an empty counter is dropped without a report. -/
theorem Awake.drop (h : l.Awake queued) (hfires : ¬l.wakefd.Fires) :
    Awake queued { l with wakefd := l.wakefd.collect } :=
  ⟨fun hne => EventFd.collect_armed hfires (h.armed hne), h.owed, h.owesHere, h.order, h.fresh⟩

theorem Awake.poll (h : l.Awake queued) (hpc : l.pc = .polling) :
    Awake queued { l with pc := .handling true, wakefd := l.wakefd.collect } ∧
      Awake queued { l with pc := .handling false } := by
  have hfresh := h.fresh (by simp [hpc])
  constructor
  · exact ⟨by simp, fun _ => .inl ⟨true, rfl⟩, fun _ => .inl ⟨true, rfl⟩, h.order,
      fun _ => hfresh⟩
  · exact ⟨fun _ => h.armed (by simp [hpc]), fun _ => .inl ⟨false, rfl⟩,
      fun _ => .inl ⟨false, rfl⟩, h.order, fun _ => hfresh⟩

/-- The counter is read before the swap, so no functor whose write is read is left behind. -/
theorem Awake.readWake (h : l.Awake queued) (hpc : l.pc = .handling true) :
    Awake queued { l with pc := .handling false, wakefd := l.wakefd.read } :=
  ⟨fun _ => l.wakefd.read_armed, fun _ => .inl ⟨false, rfl⟩, fun _ => .inl ⟨false, rfl⟩, h.order,
    fun _ => h.fresh (by simp [hpc])⟩

theorem Awake.handled (h : l.Awake queued) (hpc : l.pc = .handling false) (howes : l.owes = false) :
    Awake queued { l with pc := .swapping } :=
  ⟨fun _ => h.armed (by simp [hpc]), fun _ => .inr (.inl rfl), by simp [howes], h.order,
    fun _ => h.fresh (by simp [hpc])⟩

theorem Awake.swap (h : l.Awake queued) (hpc : l.pc = .swapping) :
    Awake queued { l with
      pc := .running, tmpList := l.pendingFunctors, pendingFunctors := [] } := by
  have hfresh := h.fresh (by simp [hpc])
  have horder := h.order
  rw [hfresh, List.append_nil] at horder
  refine ⟨fun _ => h.armed (by simp [hpc]), by simp, fun _ => .inr rfl, ?_, by simp⟩
  simpa using horder

theorem Awake.call (h : l.Awake queued) (hpc : l.pc = .running) {f : F} {fs : List F}
    (htmp : l.tmpList = f :: fs) : Awake queued { l with tmpList := fs, ran := l.ran ++ [f] } := by
  have horder := h.order
  refine ⟨h.armed, h.owed, h.owesHere, ?_, fun hne => (hne hpc).elim⟩
  rw [htmp] at horder
  simpa using horder

theorem Awake.done (h : l.Awake queued) (hpc : l.pc = .running) (howes : l.owes = false)
    (htmp : l.tmpList = []) : Awake queued { l with pc := .head } := by
  have hold := h.owed
  refine ⟨fun _ => h.armed (by simp [hpc]), ?_, by simp [howes], h.order, fun _ => htmp⟩
  intro hpending
  have hcases := hold hpending
  simp only [hpc, reduceCtorEq, exists_false, false_or] at hcases
  exact .inr (.inr hcases)

/-- A step that pushes nothing. -/
theorem Awake.step_quiet (h : l.Awake queued) {a : LoopStep F} (hquiet : a.pushed = [])
    (hs : l.step a = some l') : l'.Awake queued := by
  cases a with
  | push | pushHere => cases hquiet
  | wake again =>
    simp only [EventLoop.step] at hs
    split_ifs at hs
    cases hs
    exact h.wake again h.owesHere
  | extraWake again =>
    cases hs
    exact h.wake again h.owesHere
  | wakeHere again =>
    simp only [EventLoop.step] at hs
    split_ifs at hs
    cases hs
    exact h.wake again (by simp)
  | setQuit =>
    simp only [EventLoop.step] at hs
    split_ifs at hs
    cases hs
    exact ⟨h.armed, h.owed, h.owesHere, h.order, h.fresh⟩
  | test =>
    simp only [EventLoop.step] at hs
    split_ifs at hs with hpc
    · cases hs
      simpa [*] using h.test hpc
    · cases hs
      simpa [*] using h.test hpc
  | drop =>
    simp only [EventLoop.step] at hs
    split_ifs at hs with hg
    cases hs
    exact h.drop hg.2
  | poll wake =>
    cases wake with
    | true =>
      simp only [EventLoop.step] at hs
      split_ifs at hs with hg
      cases hs
      exact (h.poll hg.1).1
    | false =>
      simp only [EventLoop.step] at hs
      split_ifs at hs with hpc
      cases hs
      exact (h.poll hpc).2
  | readWake =>
    simp only [EventLoop.step] at hs
    split_ifs at hs with hg
    cases hs
    exact h.readWake hg.1
  | handled =>
    simp only [EventLoop.step] at hs
    split_ifs at hs with hg
    cases hs
    exact h.handled hg.1 hg.2
  | swap =>
    simp only [EventLoop.step] at hs
    split_ifs at hs with hpc
    cases hs
    exact h.swap hpc
  | call =>
    simp only [EventLoop.step] at hs
    cases htmp : l.tmpList with
    | nil => simp [htmp] at hs
    | cons f fs =>
      rw [htmp] at hs
      dsimp only at hs
      split_ifs at hs with hg
      cases hs
      exact h.call hg.1 htmp
  | done =>
    simp only [EventLoop.step] at hs
    split_ifs at hs with hg
    cases hs
    exact h.done hg.1 hg.2.1 hg.2.2

theorem Awake.step (h : l.Awake queued) {a : LoopStep F} (hs : l.step a = some l') :
    l'.Awake (queued ++ a.pushed) := by
  cases a with
  | push f =>
    cases hs
    exact h.push f (.inl (Nat.succ_pos _)) h.owesHere
  | pushHere f =>
    simp only [EventLoop.step] at hs
    split_ifs at hs with hg
    cases hs
    exact h.push f (.inr rfl) fun _ => hg.1
  | _ =>
    rw [LoopStep.pushed, List.append_nil]
    exact h.step_quiet rfl hs

/-- In `epoll_wait` with functors pending, the loop is about to be woken. -/
theorem Awake.woken (h : l.Awake queued) (hpc : l.pc = .polling)
    (hpending : l.pendingFunctors ≠ []) : l.wakefd.Fires ∨ 0 < l.owed := by
  have hcases := h.owed hpending
  have howes := h.settled (by simp [Local, hpc])
  simp only [hpc, reduceCtorEq, exists_false, false_or, howes, Bool.false_eq_true,
    or_false] at hcases
  apply hcases.imp_left
  intro hpos
  exact (h.armed (by simp [hpc])).fires hpos

end EventLoop

open EventLoop in
/-- No wakeup and no functor is lost. A loop in `epoll_wait` with functors pending is about to be
woken, or some thread is between its push and its write; and the functors called so far are, in the
order of their pushes, the first of those that the steps have pushed, the others being in `tmp_list`
and `pendingFunctors_`. -/
theorem no_lost_wakeup {F : Type*} (steps : List (LoopStep F)) (l : EventLoop F)
    (h : Run (fun l a l' => l.step a = some l') new steps l) :
    (l.pc = .polling → l.pendingFunctors ≠ [] → l.wakefd.Fires ∨ 0 < l.owed) ∧
      l.ran ++ l.tmpList ++ l.pendingFunctors = steps.flatMap LoopStep.pushed := by
  have hawake : l.Awake (steps.flatMap LoopStep.pushed) := by
    apply h.invariant (fun steps l => l.Awake (steps.flatMap LoopStep.pushed)) new_awake
    intro steps l a l' hinv hs
    rw [List.flatMap_append, List.flatMap_singleton]
    exact hinv.step hs
  exact ⟨hawake.woken, hawake.order⟩

open EventLoop in
/-- A push while the counter is being read is run in the same round, and its write wakes the
next. -/
theorem no_lost_wakeup_race :
    ∃ l : EventLoop Nat, (l.pc = .polling ∧ l.ran = [1, 2] ∧ l.wakefd.Fires) ∧
      l.ran ++ l.tmpList ++ l.pendingFunctors = [1, 2] := by
  obtain ⟨l, hrun, hl⟩ := Run.exists_of_guarded (f := step (F := Nat)) (p := fun _ _ => True)
    (g := fun l => (l.pc, l.ran, decide l.wakefd.Fires)) (a := (.polling, [1, 2], true)) (s := new)
    (l := [.test, .push 1, .wake false, .poll true, .push 2, .readWake, .wake false, .handled,
      .swap, .call, .call, .done, .test]) (by decide +kernel)
  obtain ⟨hpc, hrest⟩ := Prod.mk.inj hl
  obtain ⟨hran, hfires⟩ := Prod.mk.inj hrest
  exact ⟨l, ⟨hpc, hran, by simpa using hfires⟩,
    (no_lost_wakeup _ l (hrun.mono fun _ _ _ hs => hs.2)).2⟩

end MuduoServer
