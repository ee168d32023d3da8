import MuduoServer.Tcp.EventLoop

namespace MuduoServer

/-- The steps of `loop` and `doPendingFunctors` themselves. What the callbacks, the functors, the
other threads and the kernel do is not among them. -/
def LoopStep.own {F : Type*} : LoopStep F → Bool
  | .test | .poll _ | .readWake | .handled | .swap | .call | .done => true
  | .push _ | .wake _ | .extraWake _ | .pushHere _ | .wakeHere _ | .setQuit | .drop => false

namespace EventLoop

variable {F : Type*} {quits : F → Bool} {queued : List F} {l l' : EventLoop F} {a : LoopStep F}

/-- `step`, where the functors in `quits` set `quit_`, as the one that `EventLoop::quit` passes to
`callOrQueue` does. -/
def stepQuit (quits : F → Bool) (l : EventLoop F) (a : LoopStep F) : Option (EventLoop F) :=
  match a, l.tmpList with
  | .call, f :: _ =>
    if quits f then (l.step .call).map fun l' => { l' with quit := true } else l.step .call
  | a, _ => l.step a

/-- `quit` was called: on the thread of the loop it has set `quit_`, on another one its functor is
among the `queued` ones. -/
def QuitCalled (quits : F → Bool) (queued : List F) (l : EventLoop F) : Prop :=
  l.quit = true ∨ ∃ f ∈ queued, quits f = true

/-- An upper bound of the steps of its own that a loop takes before it ends, once `quit` was
called; the calls of functors come on top. -/
def turnsLeft (quits : F → Bool) (l : EventLoop F) : Nat :=
  match l.pc with
  | .exited => 0
  | .head => if l.quit then 1 else 7
  | .running => if l.quit ∨ ∃ f ∈ l.tmpList, quits f then 2 else 8
  | .swapping => 3
  | .handling false => 4
  | .handling true => 5
  | .polling => 6

/-- What holds in every state of a loop, after the pushes of the functors `queued`. -/
structure Tested (quits : F → Bool) (queued : List F) (l : EventLoop F) : Prop where
  awake : l.Awake queued
  polls : l.pc = .polling → l.quit = false
  exits : l.pc = .exited → l.quit = true
  ran : ∀ f ∈ l.ran, quits f = true → l.quit = true

theorem new_tested : (new : EventLoop F).Tested quits [] := ⟨new_awake, nofun, nofun, nofun⟩

theorem stepQuit_eq (hcall : a ≠ .call) : l.stepQuit quits a = l.step a := by
  cases a with
  | call => exact (hcall rfl).elim
  | _ => rfl

theorem stepQuit_call (hs : l.stepQuit quits .call = some l') :
    ∃ f fs, l.pc = .running ∧ l.tmpList = f :: fs ∧
      l' = { l with tmpList := fs, ran := l.ran ++ [f], quit := l.quit || quits f } := by
  cases htmp : l.tmpList with
  | nil => simp [stepQuit, step, htmp] at hs
  | cons f fs =>
    simp only [stepQuit, step, htmp] at hs
    cases hf : quits f with
    | true =>
      simp only [hf, if_true] at hs
      split_ifs at hs with hg
      · obtain rfl := Option.some.inj hs
        exact ⟨f, fs, hg.1, rfl, by simp [hf]⟩
      · cases hs
    | false =>
      simp only [hf, Bool.false_eq_true, if_false] at hs
      split_ifs at hs with hg
      obtain rfl := Option.some.inj hs
      exact ⟨f, fs, hg.1, rfl, by simp [hf]⟩

/-- What is done outside of the loop leaves the loop where it is. -/
theorem step_outside (hown : a.own = false) (hs : l.step a = some l') :
    l'.pc = l.pc ∧ l'.tmpList = l.tmpList ∧ l'.ran = l.ran ∧
      (l'.quit = l.quit ∨ l'.quit = true ∧ l.Local) := by
  cases a with
  | push f =>
    cases hs
    exact ⟨rfl, rfl, rfl, .inl rfl⟩
  | wake again =>
    simp only [step] at hs
    split_ifs at hs
    cases hs
    exact ⟨rfl, rfl, rfl, .inl rfl⟩
  | extraWake again =>
    cases hs
    exact ⟨rfl, rfl, rfl, .inl rfl⟩
  | pushHere f =>
    simp only [step] at hs
    split_ifs at hs
    cases hs
    exact ⟨rfl, rfl, rfl, .inl rfl⟩
  | wakeHere again =>
    simp only [step] at hs
    split_ifs at hs
    cases hs
    exact ⟨rfl, rfl, rfl, .inl rfl⟩
  | setQuit =>
    simp only [step] at hs
    split_ifs at hs with hlocal
    cases hs
    exact ⟨rfl, rfl, rfl, .inr ⟨rfl, hlocal⟩⟩
  | drop =>
    simp only [step] at hs
    split_ifs at hs
    cases hs
    exact ⟨rfl, rfl, rfl, .inl rfl⟩
  | test | poll | readWake | handled | swap | call | done => cases hown

theorem quit_kept (hquit : l'.quit = l.quit ∨ l'.quit = true ∧ l.Local) (hset : l.quit = true) :
    l'.quit = true := by
  rcases hquit with heq | ⟨hset', -⟩
  · rw [heq, hset]
  · exact hset'

/-- A call of `quit` is not taken back. -/
theorem QuitCalled.mono (h : l.QuitCalled quits queued) (hkept : l.quit = true → l'.quit = true)
    (pushed : List F) : l'.QuitCalled quits (queued ++ pushed) := by
  rcases h with hset | ⟨f, hf, hquits⟩
  · exact .inl (hkept hset)
  · exact .inr ⟨f, List.mem_append_left _ hf, hquits⟩

/-- The way of a loop from one test of `quit_` to the next. -/
theorem step_own (hown : a.own = true) (hcall : a ≠ .call) (hs : l.step a = some l') :
    (l'.quit = l.quit ∧ l'.ran = l.ran) ∧
      (l.pc = .head ∧ l'.pc = (if l.quit then .exited else .polling) ∨
        l.pc = .polling ∧ (∃ wake, l'.pc = .handling wake) ∨
        l.pc = .handling true ∧ l'.pc = .handling false ∨
        l.pc = .handling false ∧ l'.pc = .swapping ∨
        l.pc = .swapping ∧ l'.pc = .running ∧ l'.tmpList = l.pendingFunctors ∨
        l.pc = .running ∧ l.tmpList = [] ∧ l'.pc = .head) := by
  cases a with
  | test =>
    simp only [step] at hs
    by_cases hpc : l.pc = .head
    · rw [if_pos hpc] at hs
      cases hs
      exact ⟨⟨rfl, rfl⟩, .inl ⟨hpc, rfl⟩⟩
    · rw [if_neg hpc] at hs
      cases hs
  | poll wake =>
    cases wake with
    | true =>
      simp only [step] at hs
      split_ifs at hs with hg
      cases hs
      exact ⟨⟨rfl, rfl⟩, .inr (.inl ⟨hg.1, true, rfl⟩)⟩
    | false =>
      simp only [step] at hs
      split_ifs at hs with hpc
      cases hs
      exact ⟨⟨rfl, rfl⟩, .inr (.inl ⟨hpc, false, rfl⟩)⟩
  | readWake =>
    simp only [step] at hs
    split_ifs at hs with hg
    cases hs
    exact ⟨⟨rfl, rfl⟩, .inr (.inr (.inl ⟨hg.1, rfl⟩))⟩
  | handled =>
    simp only [step] at hs
    split_ifs at hs with hg
    cases hs
    exact ⟨⟨rfl, rfl⟩, .inr (.inr (.inr (.inl ⟨hg.1, rfl⟩)))⟩
  | swap =>
    simp only [step] at hs
    split_ifs at hs with hpc
    cases hs
    exact ⟨⟨rfl, rfl⟩, .inr (.inr (.inr (.inr (.inl ⟨hpc, rfl, rfl⟩))))⟩
  | call => exact (hcall rfl).elim
  | done =>
    simp only [step] at hs
    split_ifs at hs with hg
    cases hs
    exact ⟨⟨rfl, rfl⟩, .inr (.inr (.inr (.inr (.inr ⟨hg.1, hg.2.2, rfl⟩))))⟩
  | push | wake | extraWake | pushHere | wakeHere | setQuit | drop => cases hown

/-- The functor that sets `quit_` is among those that are still to be called. -/
theorem Tested.waits (h : l.Tested quits queued) (hq : l.QuitCalled quits queued)
    (hquit : l.quit = false) :
    ∃ f ∈ l.tmpList ++ l.pendingFunctors, quits f = true := by
  rcases hq with hset | ⟨f, hf, hquits⟩
  · rw [hset] at hquit
    cases hquit
  · rw [← h.awake.order, List.append_assoc, List.mem_append] at hf
    refine ⟨f, hf.resolve_left ?_, hquits⟩
    intro hran
    rw [h.ran f hran hquits] at hquit
    cases hquit

theorem Tested.step (h : l.Tested quits queued) (hs : l.stepQuit quits a = some l') :
    l'.Tested quits (queued ++ a.pushed) := by
  by_cases hcall : a = .call
  · subst hcall
    rw [LoopStep.pushed, List.append_nil]
    obtain ⟨f, fs, hpc, htmp, rfl⟩ := stepQuit_call hs
    have hcalled := h.awake.call hpc htmp
    refine ⟨⟨hcalled.armed, hcalled.owed, hcalled.owesHere, hcalled.order, hcalled.fresh⟩, ?_, ?_,
      ?_⟩
    · intro hpc'
      rw [hpc] at hpc'
      cases hpc'
    · intro hpc'
      rw [hpc] at hpc'
      cases hpc'
    · intro g hg hquits
      rcases List.mem_append.mp hg with hran | hnew
      · simp [h.ran g hran hquits]
      · obtain rfl := List.mem_singleton.mp hnew
        simp [hquits]
  · rw [stepQuit_eq hcall] at hs
    have hawake := h.awake.step hs
    cases hown : a.own with
    | true =>
      obtain ⟨⟨hquit, hran⟩, hturn⟩ := step_own hown hcall hs
      have htest : l'.pc = .polling ∨ l'.pc = .exited →
          l'.pc = if l.quit then .exited else .polling := by
        intro hpc'
        rcases hturn with ⟨-, hto⟩ | ⟨-, wake, hto⟩ | ⟨-, hto⟩ | ⟨-, hto⟩ | ⟨-, hto, -⟩ |
          ⟨-, -, hto⟩
        · exact hto
        all_goals
          rw [hto] at hpc'
          rcases hpc' with hpc' | hpc' <;> cases hpc'
      refine ⟨hawake, ?_, ?_, by rw [hran, hquit]; exact h.ran⟩
      · intro hpc'
        have hto := htest (.inl hpc')
        rw [hpc'] at hto
        split_ifs at hto with hset
        rw [hquit]
        simpa using hset
      · intro hpc'
        have hto := htest (.inr hpc')
        rw [hpc'] at hto
        split_ifs at hto with hset
        rw [hquit]
        exact hset
    | false =>
      obtain ⟨hpc, -, hran, hquit⟩ := step_outside hown hs
      have hkept := quit_kept hquit
      refine ⟨hawake, ?_, fun hpc' => hkept (h.exits (hpc ▸ hpc')), ?_⟩
      · intro hpc'
        rw [hpc] at hpc'
        rcases hquit with heq | ⟨-, ⟨wake, hlocal⟩ | hlocal⟩
        · rw [heq]
          exact h.polls hpc'
        · rw [hpc'] at hlocal
          cases hlocal
        · rw [hpc'] at hlocal
          cases hlocal
      · rw [hran]
        exact fun f hf hquits => hkept (h.ran f hf hquits)

/-- Where the loop stands and what it has to call is the same, and `quit_` is not taken back. -/
theorem turnsLeft_le (quits : F → Bool) (hpc : l'.pc = l.pc) (htmp : l'.tmpList = l.tmpList)
    (hkept : l.quit = true → l'.quit = true) : l'.turnsLeft quits ≤ l.turnsLeft quits := by
  simp only [turnsLeft, hpc, htmp]
  cases hset : l.quit with
  | true =>
    cases hset' : l'.quit with
    | true => exact Nat.le_refl _
    | false =>
      rw [hkept hset] at hset'
      cases hset'
  | false =>
    cases l.pc with
    | head => cases l'.quit <;> simp
    | running =>
      by_cases htodo : ∃ f ∈ l.tmpList, quits f = true
      · simp [htodo]
      · cases l'.quit <;> simp [htodo]
    | handling wake => cases wake <;> exact Nat.le_refl _
    | _ => exact Nat.le_refl _

/-- A step of the loop's own that is no call brings it nearer to its end. -/
theorem Tested.turnsLeft_step (h : l.Tested quits queued) (hq : l.QuitCalled quits queued)
    (hs : l.stepQuit quits a = some l') : l'.QuitCalled quits (queued ++ a.pushed) ∧
      a.own.toNat + l'.turnsLeft quits + l.ran.length ≤ l.turnsLeft quits + l'.ran.length := by
  by_cases hcall : a = .call
  · subst hcall
    obtain ⟨f, fs, hpc, htmp, rfl⟩ := stepQuit_call hs
    refine ⟨hq.mono (fun hset => by simp [hset]) _, ?_⟩
    have hsame : turnsLeft quits { l with
        tmpList := fs, ran := l.ran ++ [f], quit := l.quit || quits f } = l.turnsLeft quits := by
      simp [turnsLeft, hpc, htmp, or_assoc]
    rw [hsame, List.length_append, List.length_singleton]
    simp only [LoopStep.own, Bool.toNat_true]
    omega
  · rw [stepQuit_eq hcall] at hs
    cases hown : a.own with
    | true =>
      obtain ⟨⟨hquit, hran⟩, hturn⟩ := step_own hown hcall hs
      refine ⟨hq.mono (fun hset => hquit.trans hset) _, ?_⟩
      have hlt : l'.turnsLeft quits + 1 ≤ l.turnsLeft quits := by
        rcases hturn with ⟨hpc, hto⟩ | ⟨hpc, wake, hto⟩ | ⟨hpc, hto⟩ | ⟨hpc, hto⟩ |
          ⟨hpc, hto, htmp⟩ | ⟨hpc, htmp, hto⟩
        · cases hset : l.quit <;> simp [turnsLeft, hpc, hto, hset]
        · cases wake <;> simp [turnsLeft, hpc, hto]
        · simp [turnsLeft, hpc, hto]
        · simp [turnsLeft, hpc, hto]
        · -- the functor that sets `quit_` is in the list that the swap has taken
          have htwo : l'.turnsLeft quits = 2 := by
            simp only [turnsLeft, hto, hquit, htmp]
            rw [if_pos]
            by_cases hset : l.quit = true
            · exact .inl hset
            · obtain ⟨f, hf, hquits⟩ := h.waits hq (by simpa using hset)
              rw [h.awake.fresh (by rw [hpc]; decide), List.nil_append] at hf
              exact .inr ⟨f, hf, hquits⟩
          rw [htwo]
          simp [turnsLeft, hpc]
        · cases hset : l.quit <;> simp [turnsLeft, hpc, hto, htmp, hquit, hset]
      rw [hran, Bool.toNat_true]
      omega
    | false =>
      obtain ⟨hpc, htmp, hran, hquit⟩ := step_outside hown hs
      have hkept := quit_kept hquit
      refine ⟨hq.mono hkept _, ?_⟩
      have hle := turnsLeft_le quits hpc htmp hkept
      rw [hran, Bool.toNat_false]
      omega

/-- A loop that has to end is woken from `epoll_wait`. -/
theorem Tested.woken (h : l.Tested quits queued) (hq : l.QuitCalled quits queued)
    (hpc : l.pc = .polling) : l.wakefd.Fires ∨ 0 < l.owed := by
  obtain ⟨f, hf, -⟩ := h.waits hq (h.polls hpc)
  rw [h.awake.fresh (by rw [hpc]; decide), List.nil_append] at hf
  exact h.awake.woken hpc (List.ne_nil_of_mem hf)

/-- Outside of `epoll_wait` the loop is never stuck. -/
theorem exists_own (quits : F → Bool) (hpoll : l.pc ≠ .polling) (hpc : l.pc ≠ .exited)
    (howes : l.owes = false) :
    ∃ a : LoopStep F, a.own = true ∧ (l.stepQuit quits a).isSome := by
  cases hpc' : l.pc with
  | head => exact ⟨.test, rfl, by simp [stepQuit, EventLoop.step, hpc']⟩
  | polling => exact (hpoll hpc').elim
  | handling wake =>
    cases wake with
    | true => exact ⟨.readWake, rfl, by simp [stepQuit, EventLoop.step, hpc', howes]⟩
    | false => exact ⟨.handled, rfl, by simp [stepQuit, EventLoop.step, hpc', howes]⟩
  | swapping => exact ⟨.swap, rfl, by simp [stepQuit, EventLoop.step, hpc']⟩
  | running =>
    cases htmp : l.tmpList with
    | nil => exact ⟨.done, rfl, by simp [stepQuit, EventLoop.step, hpc', howes, htmp]⟩
    | cons f fs =>
      refine ⟨.call, rfl, ?_⟩
      cases hf : quits f <;> simp [stepQuit, EventLoop.step, hpc', howes, htmp, hf]
  | exited => exact (hpc hpc').elim

theorem turnsLeft_le_eight (quits : F → Bool) (l : EventLoop F) : l.turnsLeft quits ≤ 8 := by
  rw [turnsLeft]
  split
  · omega
  · split_ifs <;> omega
  · split_ifs <;> omega
  all_goals omega

end EventLoop

open EventLoop in
/-- `quit` ends a loop, from whatever thread it is called and whatever else goes on. From then on
the loop takes at most eight steps of its own besides the calls of the functors; it never stays in
`epoll_wait`, as the eventfd wakes it or a thread is between its push and its write, and elsewhere
it has a step to take. The functors that it has not called at its end are still in
`pendingFunctors_`. -/
theorem quit_ends_loop {F : Type*} (quits : F → Bool) (before after : List (LoopStep F))
    (l l' : EventLoop F) (hrun : Run (fun l a l' => l.stepQuit quits a = some l') new before l)
    (hq : l.QuitCalled quits (before.flatMap LoopStep.pushed))
    (hmore : Run (fun l a l' => l.stepQuit quits a = some l') l after l') :
    after.countP LoopStep.own + l.ran.length ≤ 8 + l'.ran.length ∧
      (l'.pc = .exited →
        l'.ran ++ l'.pendingFunctors = (before ++ after).flatMap LoopStep.pushed) ∧
      (l'.pc = .polling → l'.wakefd.Fires ∨ 0 < l'.owed) ∧
      (l'.pc ≠ .polling → l'.pc = .exited ∨ l'.owes = true ∨
        ∃ a : LoopStep F, a.own = true ∧ (l'.stepQuit quits a).isSome) := by
  have htested : l.Tested quits (before.flatMap LoopStep.pushed) := by
    apply hrun.invariant (fun steps l => l.Tested quits (steps.flatMap LoopStep.pushed)) new_tested
    intro steps l a l' h hs
    rw [List.flatMap_append, List.flatMap_singleton]
    exact h.step hs
  obtain ⟨htested', hq', hle⟩ := hmore.invariant
    (fun after l' => l'.Tested quits ((before ++ after).flatMap LoopStep.pushed) ∧
      l'.QuitCalled quits ((before ++ after).flatMap LoopStep.pushed) ∧
      after.countP LoopStep.own + l'.turnsLeft quits + l.ran.length ≤
        l.turnsLeft quits + l'.ran.length)
    ⟨by rwa [List.append_nil], by rwa [List.append_nil], by simp⟩ (by
      rintro after mid a last ⟨hmid, hcalled, hle⟩ hs
      obtain ⟨hcalled', hturns⟩ := hmid.turnsLeft_step hcalled hs
      have hone : [a].countP LoopStep.own = a.own.toNat := by
        rw [List.countP_singleton]
        cases a.own <;> rfl
      rw [← List.append_assoc, List.flatMap_append, List.flatMap_singleton, List.countP_append,
        hone]
      exact ⟨hmid.step hs, hcalled', by omega⟩)
  refine ⟨?_, ?_, htested'.woken hq', ?_⟩
  · have height := l.turnsLeft_le_eight quits
    omega
  · intro hpc
    have horder := htested'.awake.order
    rwa [htested'.awake.fresh (by rw [hpc]; decide), List.append_nil] at horder
  · intro hpoll
    by_contra hnot
    simp only [not_or, Bool.not_eq_true] at hnot
    obtain ⟨hpc, howes, hnone⟩ := hnot
    exact hnone (exists_own quits hpoll hpc howes)

open EventLoop in
/-- A thread calls `quit` while the loop waits in `epoll_wait`, which its push and its write wake;
one functor is pushed in time to be called, and one is not. -/
theorem quit_ends_loop_waiting :
    ∃ (l l' : EventLoop Nat) (after : List (LoopStep Nat)),
      (l.pc = .polling ∧ l'.pc = .exited ∧ l'.ran = [0, 1]) ∧ (l.wakefd.Fires ∨ 0 < l.owed) ∧
        after.countP LoopStep.own + l.ran.length ≤ 8 + l'.ran.length ∧
        l'.ran ++ l'.pendingFunctors = [0, 1, 2] := by
  obtain ⟨l, hrun, hl⟩ := Run.exists_of_guarded (f := stepQuit (F := Nat) (· == 0))
    (p := fun _ _ => True) (g := id) (s := new)
    (a := ⟨.polling, false, ⟨1, true⟩, [0], [], 0, false, []⟩)
    (l := [.test, .push 0, .wake false]) (by decide +kernel)
  dsimp only [id] at hl
  subst hl
  obtain ⟨l', hmore, hl'⟩ := Run.exists_of_guarded (f := stepQuit (F := Nat) (· == 0))
    (p := fun _ _ => True) (g := fun l' => (l'.pc, l'.ran))
    (s := ⟨.polling, false, ⟨1, true⟩, [0], [], 0, false, []⟩) (a := (.exited, [0, 1]))
    (l := [.push 1, .extraWake false, .wake false, .poll true, .readWake, .handled, .swap, .push 2,
      .call, .call, .wake false, .done, .test]) (by decide +kernel)
  obtain ⟨hpc', hran⟩ := Prod.mk.inj hl'
  have hrun' := hrun.mono fun _ _ _ hs => hs.2
  obtain ⟨-, -, hwoken, -⟩ := quit_ends_loop (· == 0) _ [] _ _ hrun'
    (.inr ⟨0, List.mem_singleton_self 0, rfl⟩) (.nil _)
  obtain ⟨hcount, hleft, -⟩ := quit_ends_loop (· == 0) _ _ _ l' hrun'
    (.inr ⟨0, List.mem_singleton_self 0, rfl⟩) (hmore.mono fun _ _ _ hs => hs.2)
  exact ⟨_, l', _, ⟨rfl, hpc', hran⟩, hwoken rfl, hcount, hleft hpc'⟩

end MuduoServer
