import MuduoServer.Framework.Monitor

namespace MuduoServer

/-- The two sides of `Thread::startLoop`: the caller, which waits for the loop, and the thread. -/
inductive StartSide
  | caller | thread
  deriving DecidableEq, Repr

instance : Fintype StartSide := ⟨{.caller, .thread}, by intro s; cases s <;> decide⟩

variable {Loop : Type*}

/-- `Thread::startLoop` around `loop_`: the new thread makes `loop` and notifies, and the caller
waits until `loop_` is not null. -/
def startLoop (loop : Loop) : Protocol StartSide (Option Loop) where
  ready loop_ := loop_.isSome
  role
    | .caller => .wait
    | .thread => .change (fun _ => some loop) fun _ => .one

theorem startLoop_announces (loop : Loop) : (startLoop loop).Announces := by
  rintro (_ | _) loop_ hnot hready
  · dsimp only [Protocol.apply, startLoop] at hready
    rw [show loop_.isSome = false from hnot] at hready
    cases hready
  · refine ⟨_, _, rfl, .inr ⟨rfl, ?_⟩⟩
    rintro (_ | _) (_ | _) h h'
    · rfl
    · cases h'
    · cases h
    · cases h

namespace StartLoop

variable {loop : Loop} {as : List (MonitorStep StartSide)} {m : Monitor StartSide (Option Loop)}

/-- Only the new thread changes `loop_`. -/
theorem value_cases (h : m.Sound (startLoop loop) none) :
    m.changed = [] ∧ m.value = none ∨ m.value = some loop := by
  have hmem : ∀ t ∈ m.changed, t = .thread := by
    intro t ht
    cases t with
    | caller => exact (((h.changed _).mp ht).1 rfl).elim
    | thread => rfl
  have hvalue := h.value
  cases hchanged : m.changed using List.reverseRecOn with
  | nil =>
    rw [hchanged] at hvalue
    exact .inl ⟨rfl, hvalue⟩
  | append_singleton ts t =>
    obtain rfl := hmem t (by rw [hchanged]; simp)
    rw [hchanged, List.foldl_append] at hvalue
    exact .inr hvalue

/-- `startLoop` returns the loop of the new thread. -/
theorem returned (hrun : (Monitor.start none).Runs (startLoop loop) as m)
    (hpc : (m.pc .caller).passed = true) : m.value = some loop := by
  have hready := hrun.found_ready (startLoop_announces loop)
    (fun _ t _ hready _ => by cases t; exacts [hready, rfl]) (t := .caller) rfl hpc
  refine (value_cases (hrun.sound (startLoop_announces loop))).resolve_left ?_
  rintro ⟨-, hnone⟩
  rw [hnone] at hready
  cases hready

/-- Where nothing goes on, `startLoop` has returned. -/
theorem stuck_done (hrun : (Monitor.start none).Runs (startLoop loop) as m)
    (hstuck : m.Stuck (startLoop loop)) (t : StartSide) : m.pc t = .done := by
  have hsound := hrun.sound (startLoop_announces loop)
  have hthread : m.pc .thread = .done := by
    refine (hstuck.pc hsound _).resolve_right ?_
    intro hasleep
    cases hsound.sleepers _ (.inl hasleep.1)
  cases t with
  | thread => exact hthread
  | caller =>
    refine (hstuck.pc hsound _).resolve_right ?_
    intro hasleep
    have hmem : StartSide.thread ∈ m.changed :=
      (hsound.changed _).mpr ⟨nofun, by rw [hthread]; rfl⟩
    rcases value_cases hsound with ⟨hnil, -⟩ | hsome
    · rw [hnil] at hmem
      cases hmem
    · rw [hsome] at hasleep
      cases hasleep.2

end StartLoop

/-- `ThreadPool::init` under way: the threads of `threads_`, of which those up to the one being
started exist, what the last `startLoop` has returned, and `loops_`. -/
structure PoolStart (n : Nat) (Loop : Type*) where
  threads : Fin n → Monitor StartSide (Option Loop)
  returned : Option (Option Loop)
  loops : List (Option Loop)

inductive PoolStartStep (n : Nat)
  | thread (j : Fin n) (a : MonitorStep StartSide)
  | push
  deriving DecidableEq, Repr

def PoolStartStep.isSpurious {n : Nat} : PoolStartStep n → Bool
  | thread _ a => a.isSpurious
  | push => false

namespace PoolStart

variable {n : Nat} (newLoop : Nat → Loop)

def new (n : Nat) : PoolStart n Loop := ⟨fun _ => .start none, none, []⟩

/-- A step: `loop_` is returned under the lock, which is released then. -/
def step (st : PoolStart n Loop) : PoolStartStep n → Option (PoolStart n Loop)
  | .thread j a =>
    if j.val ≤ st.loops.length then
      ((st.threads j).step (startLoop (newLoop j)) a).map fun m =>
        { st with
          threads := Function.update st.threads j m
          returned := if a = .unlock .caller then some (st.threads j).value else st.returned }
    else none
  | .push => st.returned.map fun loop => { st with returned := none, loops := st.loops ++ [loop] }

abbrev Runs (st : PoolStart n Loop) : List (PoolStartStep n) → PoolStart n Loop → Prop :=
  Run (fun st a st' => st.step newLoop a = some st') st

/-- What holds in every reachable state. -/
structure Started (st : PoolStart n Loop) : Prop where
  runs : ∀ j : Fin n, ∃ as, (Monitor.start none).Runs (startLoop (newLoop j)) as (st.threads j)
  loops : st.loops = (List.range st.loops.length).map fun i => some (newLoop i)
  le : st.loops.length ≤ n
  before : ∀ j : Fin n, j.val < st.loops.length → (st.threads j).pc .caller = .done
  current : ∀ j : Fin n, j.val = st.loops.length →
    ((st.threads j).pc .caller = .done ↔ st.returned ≠ none)
  after : ∀ j : Fin n, st.loops.length < j.val → (st.threads j).pc .caller ≠ .done
  returned : ∀ loop, st.returned = some loop →
    st.loops.length < n ∧ loop = some (newLoop st.loops.length)

variable {newLoop} {st st' : PoolStart n Loop}

theorem new_started : (new n).Started newLoop where
  runs _ := ⟨[], .nil _⟩
  loops := rfl
  le := Nat.zero_le n
  before _ h := by cases h
  current _ _ := by simp [new, Monitor.start]
  after _ _ := by simp [new, Monitor.start]
  returned _ h := by cases h

theorem Started.thread (h : st.Started newLoop) {j : Fin n} {a : MonitorStep StartSide}
    {m : Monitor StartSide (Option Loop)} (hj : j.val ≤ st.loops.length)
    (hs : (st.threads j).step (startLoop (newLoop j)) a = some m) :
    Started newLoop { st with
      threads := Function.update st.threads j m
      returned := if a = .unlock .caller then some (st.threads j).value else st.returned } := by
  have hdone := Monitor.step_done hs .caller
  obtain ⟨as, hrun⟩ := h.runs j
  -- only the caller that is in a `startLoop` can return from it
  have hunlock : a = .unlock .caller → (st.threads j).pc .caller = .leaving := by
    rintro rfl
    cases Monitor.moves_of_step hs with
    | unlock _ hpc => exact hpc
  have hcurrent : a = .unlock .caller → j.val = st.loops.length := by
    intro ha
    refine Nat.le_antisymm hj (Nat.le_of_not_lt fun hlt => ?_)
    have hpc := hunlock ha
    rw [h.before j hlt] at hpc
    cases hpc
  refine ⟨?_, h.loops, h.le, ?_, ?_, ?_, ?_⟩
  · exact (Function.forall_update_iff st.threads (p := fun (k : Fin n) m => ∃ as,
      (Monitor.start none).Runs (startLoop (newLoop k)) as m)).mpr
        ⟨⟨as ++ [a], hrun.snoc hs⟩, fun k _ => h.runs k⟩
  · exact (Function.forall_update_iff st.threads (p := fun (k : Fin n) m =>
      k.val < st.loops.length → m.pc .caller = .done)).mpr
        ⟨fun hlt => hdone.mpr (.inl (h.before j hlt)), fun k _ => h.before k⟩
  · intro k hk
    dsimp only at hk ⊢
    by_cases hkj : k = j
    · subst hkj
      rw [Function.update_self, hdone, h.current k hk]
      split_ifs with ha <;> simp [ha]
    · have hne : a ≠ .unlock .caller := fun ha => hkj (Fin.ext (hk.trans (hcurrent ha).symm))
      rw [Function.update_of_ne hkj, if_neg hne]
      exact h.current k hk
  · intro k hk
    have hkj : k ≠ j := by
      rintro rfl
      exact absurd hk (Nat.not_lt.mpr hj)
    dsimp only
    rw [Function.update_of_ne hkj]
    exact h.after k hk
  · intro loop hloop
    dsimp only at hloop ⊢
    split_ifs at hloop with ha
    · have hvalue := StartLoop.returned hrun (by rw [hunlock ha]; rfl)
      rw [← hcurrent ha]
      exact ⟨j.isLt, (Option.some.inj hloop).symm.trans hvalue⟩
    · exact h.returned loop hloop

theorem Started.push (h : st.Started newLoop) {loop : Option Loop}
    (hloop : st.returned = some loop) :
    Started newLoop { st with returned := none, loops := st.loops ++ [loop] } := by
  obtain ⟨hlt, rfl⟩ := h.returned loop hloop
  have hlen : ∀ loop : Option Loop, (st.loops ++ [loop]).length = st.loops.length + 1 := by simp
  refine ⟨h.runs, ?_, ?_, ?_, ?_, ?_, nofun⟩
  · dsimp only
    rw [hlen, List.range_succ, List.map_append, ← h.loops]
    rfl
  · dsimp only
    rw [hlen]
    exact hlt
  · intro k hk
    dsimp only at hk
    rw [hlen] at hk
    rcases Nat.lt_succ_iff_lt_or_eq.mp hk with hk | hk
    · exact h.before k hk
    · exact (h.current k hk).mpr (by simp [hloop])
  · intro k hk
    dsimp only at hk ⊢
    rw [hlen] at hk
    exact iff_of_false (h.after k (by omega)) (by simp)
  · intro k hk
    dsimp only at hk
    rw [hlen] at hk
    exact h.after k (by omega)

theorem Started.step (h : st.Started newLoop) {a : PoolStartStep n}
    (hs : st.step newLoop a = some st') : st'.Started newLoop := by
  cases a with
  | thread j a =>
    rw [PoolStart.step] at hs
    by_cases hj : j.val ≤ st.loops.length
    swap
    · rw [if_neg hj] at hs
      cases hs
    rw [if_pos hj] at hs
    obtain ⟨m, hm, rfl⟩ := Option.map_eq_some_iff.mp hs
    exact h.thread hj hm
  | push =>
    obtain ⟨loop, hloop, rfl⟩ := Option.map_eq_some_iff.mp hs
    exact h.push hloop

/-- No thread can take a step, except by a wakeup without a notification. -/
def Stuck (newLoop : Nat → Loop) (st : PoolStart n Loop) : Prop :=
  ∀ a : PoolStartStep n, a.isSpurious = false → st.step newLoop a = none

/-- Where nothing goes on, all threads are started. -/
theorem Started.stuck (h : st.Started newLoop) (hstuck : st.Stuck newLoop) :
    st.loops.length = n ∧ ∀ j t, (st.threads j).pc t = .done := by
  have hthreads : ∀ j : Fin n, j.val ≤ st.loops.length →
      (st.threads j).Stuck (startLoop (newLoop j)) := by
    intro j hj a ha
    have hstep := hstuck (.thread j a) ha
    rw [PoolStart.step, if_pos hj] at hstep
    exact Option.map_eq_none_iff.mp hstep
  have hall : n ≤ st.loops.length := by
    by_contra hlt
    obtain ⟨as, hrun⟩ := h.runs ⟨st.loops.length, Nat.lt_of_not_le hlt⟩
    have hdone := StartLoop.stuck_done hrun (hthreads _ (le_refl _)) .caller
    obtain ⟨loop, hloop⟩ := Option.ne_none_iff_exists'.mp ((h.current _ rfl).mp hdone)
    have hpush := hstuck .push rfl
    rw [PoolStart.step, hloop] at hpush
    cases hpush
  refine ⟨Nat.le_antisymm h.le hall, fun j t => ?_⟩
  obtain ⟨as, hrun⟩ := h.runs j
  exact StartLoop.stuck_done hrun (hthreads j (j.isLt.le.trans hall)) t

/-- The steps that are left: those on the monitors, and the `push_back`s. -/
def stepsLeft (newLoop : Nat → Loop) (st : PoolStart n Loop) : Nat :=
  ∑ j, (st.threads j).work (startLoop (newLoop j)) + (n - st.loops.length)

theorem Started.stepsLeft_lt (h : st.Started newLoop) {a : PoolStartStep n}
    (hs : st.step newLoop a = some st') :
    st'.stepsLeft newLoop + 1 ≤ st.stepsLeft newLoop + if a.isSpurious then 4 else 0 := by
  cases a with
  | thread j a =>
    rw [PoolStart.step] at hs
    by_cases hj : j.val ≤ st.loops.length
    swap
    · rw [if_neg hj] at hs
      cases hs
    rw [if_pos hj] at hs
    obtain ⟨m, hm, rfl⟩ := Option.map_eq_some_iff.mp hs
    obtain ⟨as, hrun⟩ := h.runs j
    have hwork := (hrun.sound (startLoop_announces _)).work_lt hm
    have hsum := sum_update (fun (j : Fin n) m => m.work (startLoop (newLoop j))) st.threads j m
    have hspurious : (PoolStartStep.thread j a).isSpurious = a.isSpurious := rfl
    rw [hspurious, stepsLeft, stepsLeft]
    dsimp only
    omega
  | push =>
    obtain ⟨loop, hloop, rfl⟩ := Option.map_eq_some_iff.mp hs
    have hlt := (h.returned loop hloop).1
    simp only [stepsLeft, PoolStartStep.isSpurious, List.length_append, List.length_singleton]
    simp
    omega

theorem new_stepsLeft : (new n : PoolStart n Loop).stepsLeft newLoop = 14 * n := by
  have hwork : ∀ loop : Loop,
      (Monitor.start none : Monitor StartSide (Option Loop)).work (startLoop loop) = 13 :=
    fun _ => rfl
  simp only [stepsLeft, new, hwork, Finset.sum_const_nat fun _ _ => rfl, Finset.card_univ,
    Fintype.card_fin, List.length_nil]
  omega

end PoolStart

open PoolStart in
/-- `ThreadPool::init` with any number of threads, in every interleaving and with wakeups without a
notification: `loops_` has the loops of the first threads, each the loop that its own thread has
made; where nothing goes on `init` has returned, with the loops of all threads; and this comes to
pass unless the main thread wakes without a notification for ever. -/
theorem init_starts_all (n : Nat) (newLoop : Nat → Loop) (as : List (PoolStartStep n))
    (st : PoolStart n Loop) (hrun : (new n).Runs newLoop as st) :
    (st.loops = (List.range st.loops.length).map fun i => some (newLoop i)) ∧
      (st.Stuck newLoop → st.loops.length = n ∧ ∀ j t, (st.threads j).pc t = .done) ∧
      as.length ≤ 14 * n + 4 * as.countP (·.isSpurious) := by
  obtain ⟨hstarted, hlen⟩ := hrun.invariant (fun as st => st.Started newLoop ∧
    as.length + st.stepsLeft newLoop ≤ 14 * n + 4 * as.countP (·.isSpurious))
    ⟨new_started, by simp [new_stepsLeft]⟩ (by
      intro as st a st' ⟨hstarted, hlen⟩ hs
      have hlt := hstarted.stepsLeft_lt hs
      refine ⟨hstarted.step hs, ?_⟩
      rw [List.length_append, List.length_singleton, List.countP_append, List.countP_singleton]
      split_ifs at hlt ⊢ <;> omega)
  exact ⟨hstarted.loops, hstarted.stuck, by omega⟩

open PoolStart in
/-- Two threads, of which the first makes its loop before the main thread waits, and the second
wakes it. -/
theorem init_starts_all_two :
    ∃ st : PoolStart 2 Nat, st.loops = [some 70, some 71] ∧
      st.loops = (List.range st.loops.length).map fun i => some (70 + i) := by
  obtain ⟨st, hrun, hloops⟩ := Run.exists_of_guarded
    (f := fun st a => PoolStart.step (n := 2) (70 + ·) st a) (p := fun _ _ => True)
    (g := fun st => st.loops) (a := [some 70, some 71]) (s := new 2)
    (l := [.thread 0 (.lock .thread), .thread 0 (.act .thread), .thread 0 (.notify .thread none),
      .thread 0 (.unlock .thread), .thread 0 (.lock .caller), .thread 0 (.act .caller),
      .thread 0 (.unlock .caller), .push, .thread 1 (.lock .caller), .thread 1 (.act .caller),
      .thread 1 (.lock .thread), .thread 1 (.act .thread),
      .thread 1 (.notify .thread (some .caller)), .thread 1 (.unlock .thread),
      .thread 1 (.lock .caller), .thread 1 (.act .caller), .thread 1 (.unlock .caller), .push])
      (by decide +kernel)
  exact ⟨st, hloops,
    (init_starts_all 2 (70 + ·) _ st (hrun.mono fun _ _ _ hs => hs.2)).1⟩

end MuduoServer
