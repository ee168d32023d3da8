import Mathlib.Algebra.BigOperators.Group.Finset.Basic
import Mathlib.Algebra.Order.BigOperators.Group.Finset
import Mathlib.Data.Fintype.Basic
import Mathlib.Data.Fintype.Card
import MuduoServer.Framework.Run

namespace MuduoServer

/-- Where a thread stands in its operation on a monitor: a mutex, a condition variable, and a value
that is read and changed under the mutex. -/
inductive MonitorPc
  /-- In front of the lock. -/
  | entering
  /-- Holding the mutex, in front of the test or the change. -/
  | inside
  /-- Holding the mutex, behind the change. -/
  | notifying
  /-- Holding the mutex, at the end. -/
  | leaving
  /-- In the wait on the condition variable, without the mutex. -/
  | asleep
  /-- Woken, in front of the lock again. -/
  | woken
  | done
  deriving DecidableEq, Repr

/-- How many of the sleepers are notified. -/
inductive Wakes
  | none | one | all
  deriving DecidableEq, Repr

/-- The operation of a thread. -/
inductive MonitorRole (S : Type*)
  /-- Wait until the value is ready. -/
  | wait
  /-- Change the value, and notify according to what it is then. -/
  | change (f : S → S) (wakes : S → Wakes)

/-- The operations of the threads on one monitor. -/
structure Protocol (T S : Type*) where
  ready : S → Bool
  role : T → MonitorRole S

structure Monitor (T S : Type*) where
  value : S
  mutex : Option T
  pc : T → MonitorPc
  /-- The threads that have changed the value, in this order. -/
  changed : List T

inductive MonitorStep (T : Type*)
  | lock (t : T)
  /-- The test of a thread that waits, or the change. -/
  | act (t : T)
  /-- The notification, with the sleeper that `notify_one` wakes. -/
  | notify (t : T) (sleeper : Option T)
  | unlock (t : T)
  /-- A sleeper wakes without a notification. -/
  | spurious (t : T)
  deriving DecidableEq, Repr

namespace MonitorPc

def holds : MonitorPc → Bool
  | inside | notifying | leaving => true
  | _ => false

/-- The change is behind the thread. -/
def passed : MonitorPc → Bool
  | notifying | leaving | done => true
  | _ => false

def wake : MonitorPc → MonitorPc
  | asleep => woken
  | pc => pc

end MonitorPc

def MonitorStep.isSpurious {T : Type*} : MonitorStep T → Bool
  | spurious _ => true
  | _ => false

/-- A sum over all places, one of which changes. -/
theorem sum_update {ι σ : Type*} [DecidableEq ι] [Fintype ι] (w : ι → σ → Nat) (f : ι → σ) (i : ι)
    (x : σ) : ∑ j, w j (Function.update f i x j) + w i (f i) = ∑ j, w j (f j) + w i x := by
  have hothers : ∑ j ∈ Finset.univ.erase i, w j (Function.update f i x j) =
      ∑ j ∈ Finset.univ.erase i, w j (f j) :=
    Finset.sum_congr rfl fun j hj => by rw [Function.update_of_ne (Finset.ne_of_mem_erase hj)]
  rw [← Finset.add_sum_erase _ _ (Finset.mem_univ i), hothers,
    ← Finset.add_sum_erase Finset.univ (fun j => w j (f j)) (Finset.mem_univ i),
    Function.update_self]
  omega

namespace Monitor

variable {T S : Type*} [DecidableEq T] [Fintype T] (p : Protocol T S)

def start (v : S) : Monitor T S := ⟨v, none, fun _ => .entering, []⟩

def setPc (m : Monitor T S) (t : T) (pc : MonitorPc) : Monitor T S :=
  { m with pc := Function.update m.pc t pc }

/-- The threads behind a notification. -/
def notified (m : Monitor T S) : Wakes → Option T → Option (T → MonitorPc)
  | .none, none => some m.pc
  | .all, none => some fun t => (m.pc t).wake
  | .one, some t => if m.pc t = .asleep then some (Function.update m.pc t .woken) else none
  | .one, none => if ∀ t, m.pc t ≠ .asleep then some m.pc else none
  | _, _ => none

/-- A step, when it is possible. -/
def step (m : Monitor T S) : MonitorStep T → Option (Monitor T S)
  | .lock t =>
    if m.mutex = none ∧ (m.pc t = .entering ∨ m.pc t = .woken) then
      some { m.setPc t .inside with mutex := some t }
    else none
  | .act t =>
    if m.pc t = .inside then
      match p.role t with
      | .wait =>
        if p.ready m.value then some (m.setPc t .leaving)
        else some { m.setPc t .asleep with mutex := none }
      | .change f _ =>
        some { m.setPc t .notifying with value := f m.value, changed := m.changed ++ [t] }
    else none
  | .notify t sleeper =>
    match p.role t with
    | .wait => none
    | .change _ wakes =>
      if m.pc t = .notifying then
        (m.notified (wakes m.value) sleeper).map fun pc =>
          { m with pc := Function.update pc t .leaving }
      else none
  | .unlock t =>
    if m.pc t = .leaving then some { m.setPc t .done with mutex := none } else none
  | .spurious t => if m.pc t = .asleep then some (m.setPc t .woken) else none

abbrev Runs (m : Monitor T S) : List (MonitorStep T) → Monitor T S → Prop :=
  Run (fun m a m' => m.step p a = some m') m

/-- All that a step can do. -/
inductive Moves (m : Monitor T S) : MonitorStep T → Monitor T S → Prop
  | lock (t : T) (hfree : m.mutex = none) (hpc : m.pc t = .entering ∨ m.pc t = .woken) :
      Moves m (.lock t) { m.setPc t .inside with mutex := some t }
  | found (t : T) (hpc : m.pc t = .inside) (hrole : p.role t = .wait)
      (hready : p.ready m.value = true) : Moves m (.act t) (m.setPc t .leaving)
  | sleep (t : T) (hpc : m.pc t = .inside) (hrole : p.role t = .wait)
      (hready : p.ready m.value = false) :
      Moves m (.act t) { m.setPc t .asleep with mutex := none }
  | change (t : T) (f : S → S) (wakes : S → Wakes) (hpc : m.pc t = .inside)
      (hrole : p.role t = .change f wakes) :
      Moves m (.act t)
        { m.setPc t .notifying with value := f m.value, changed := m.changed ++ [t] }
  | notify (t : T) (sleeper : Option T) (f : S → S) (wakes : S → Wakes) (pc : T → MonitorPc)
      (hpc : m.pc t = .notifying) (hrole : p.role t = .change f wakes)
      (hnotified : m.notified (wakes m.value) sleeper = some pc) :
      Moves m (.notify t sleeper) { m with pc := Function.update pc t .leaving }
  | unlock (t : T) (hpc : m.pc t = .leaving) :
      Moves m (.unlock t) { m.setPc t .done with mutex := none }
  | spurious (t : T) (hpc : m.pc t = .asleep) : Moves m (.spurious t) (m.setPc t .woken)

variable {p} {m m' : Monitor T S}

theorem moves_of_step {a : MonitorStep T} (hs : m.step p a = some m') : m.Moves p a m' := by
  cases a with
  | lock t =>
    rw [step] at hs
    split_ifs at hs with hg
    cases hs
    exact .lock t hg.1 hg.2
  | act t =>
    rw [step] at hs
    by_cases hpc : m.pc t = .inside
    swap
    · rw [if_neg hpc] at hs
      cases hs
    rw [if_pos hpc] at hs
    cases hrole : p.role t with
    | wait =>
      rw [hrole] at hs
      dsimp only at hs
      split_ifs at hs with hready
      · cases hs
        exact .found t hpc hrole hready
      · cases hs
        exact .sleep t hpc hrole (by simpa using hready)
    | change f wakes =>
      rw [hrole] at hs
      cases hs
      exact .change t f wakes hpc hrole
  | notify t sleeper =>
    rw [step] at hs
    cases hrole : p.role t with
    | wait =>
      rw [hrole] at hs
      cases hs
    | change f wakes =>
      rw [hrole] at hs
      dsimp only at hs
      split_ifs at hs with hpc
      obtain ⟨pc, hnotified, rfl⟩ := Option.map_eq_some_iff.mp hs
      exact .notify t sleeper f wakes pc hpc hrole hnotified
  | unlock t =>
    rw [step] at hs
    split_ifs at hs with hpc
    cases hs
    exact .unlock t hpc
  | spurious t =>
    rw [step] at hs
    split_ifs at hs with hpc
    cases hs
    exact .spurious t hpc

/-- A notification moves sleepers only. -/
theorem notified_pc {wakes : Wakes} {sleeper : Option T} {pc : T → MonitorPc}
    (h : m.notified wakes sleeper = some pc) (t : T) :
    pc t = m.pc t ∨ m.pc t = .asleep ∧ pc t = .woken := by
  cases wakes <;> cases sleeper <;> simp only [notified, reduceCtorEq] at h
  case none.none =>
    cases h
    exact .inl rfl
  case one.none =>
    split_ifs at h
    cases h
    exact .inl rfl
  case one.some u =>
    split_ifs at h with hu
    cases h
    by_cases htu : t = u
    · subst htu
      exact .inr ⟨hu, Function.update_self ..⟩
    · exact .inl (Function.update_of_ne htu ..)
  case all.none =>
    cases h
    cases hpc : m.pc t <;> simp [MonitorPc.wake, hpc]

/-- `notify_all` leaves no sleeper, and `notify_one` none if there was one at most. -/
theorem notified_awake {wakes : Wakes} {sleeper : Option T} {pc : T → MonitorPc}
    (h : m.notified wakes sleeper = some pc)
    (hall : wakes = .all ∨
      wakes = .one ∧ ∀ t t', m.pc t = .asleep → m.pc t' = .asleep → t = t') (t : T) :
    pc t ≠ .asleep := by
  rcases hall with rfl | ⟨rfl, hone⟩
  · cases sleeper with
    | some u => cases h
    | none =>
      cases h
      cases hpc : m.pc t <;> simp [MonitorPc.wake, hpc]
  · cases sleeper with
    | none =>
      simp only [notified] at h
      split_ifs at h with hnobody
      cases h
      exact hnobody t
    | some u =>
      simp only [notified] at h
      split_ifs at h with hu
      cases h
      by_cases htu : t = u
      · subst htu
        rw [Function.update_self]
        decide
      · rw [Function.update_of_ne htu]
        exact fun ht => htu (hone t u ht hu)

end Monitor

namespace Protocol

variable {T S : Type*} (p : Protocol T S)

/-- What the operation of a thread makes of the value. -/
def apply (v : S) (t : T) : S :=
  match p.role t with
  | .wait => v
  | .change f _ => f v

/-- The notification of a thread reaches every sleeper there can be. -/
def WakesAll (t : T) (v : S) : Prop :=
  ∃ f wakes, p.role t = .change f wakes ∧ (wakes v = .all ∨
    wakes v = .one ∧ ∀ t t', p.role t = .wait → p.role t' = .wait → t = t')

/-- Whoever makes the value ready wakes the sleepers. -/
def Announces : Prop :=
  ∀ t v, p.ready v = false → p.ready (p.apply v t) = true → p.WakesAll t (p.apply v t)

end Protocol

namespace Monitor

variable {T S : Type*}

/-- What holds in every reachable state. -/
structure Sound (p : Protocol T S) (v : S) (m : Monitor T S) : Prop where
  held : ∀ t, m.mutex = some t ↔ (m.pc t).holds = true
  sleepers : ∀ t, m.pc t = .asleep ∨ m.pc t = .woken → p.role t = .wait
  notifiers : ∀ t, m.pc t = .notifying → p.role t ≠ .wait
  changed : ∀ t, t ∈ m.changed ↔ p.role t ≠ .wait ∧ (m.pc t).passed = true
  nodup : m.changed.Nodup
  value : m.value = m.changed.foldl p.apply v
  /-- While the value is ready nobody sleeps, or the notification is to come. -/
  awake : p.ready m.value = true →
    (∀ t, m.pc t ≠ .asleep) ∨ ∃ c, m.pc c = .notifying ∧ p.WakesAll c m.value

variable {p : Protocol T S} {v : S} {m m' : Monitor T S} {t u : T}

theorem start_sound (p : Protocol T S) (v : S) : (start v).Sound p v where
  held _ := by simp [start, MonitorPc.holds]
  sleepers _ h := by simp [start] at h
  notifiers _ h := by simp [start] at h
  changed _ := by simp [start, MonitorPc.passed]
  nodup := List.nodup_nil
  value := rfl
  awake _ := .inl (by simp [start])

theorem Sound.free (h : m.Sound p v) (hfree : m.mutex = none) (t : T) :
    (m.pc t).holds = false := by
  by_contra hholds
  rw [Bool.not_eq_false, ← h.held t, hfree] at hholds
  cases hholds

/-- The mutex has one holder. -/
theorem Sound.exclusive (h : m.Sound p v) (ht : (m.pc t).holds = true)
    (hu : (m.pc u).holds = true) : u = t := by
  rw [← h.held] at ht hu
  rw [ht] at hu
  exact (Option.some.inj hu).symm

theorem Sound.other (h : m.Sound p v) (ht : (m.pc t).holds = true) (hu : u ≠ t) :
    (m.pc u).holds = false := by
  by_contra hholds
  exact hu (h.exclusive ht (by simpa using hholds))

variable [DecidableEq T]

/-- Who holds the mutex, once one thread has moved and no other holds it. -/
theorem held_update (pc : MonitorPc) {f : T → MonitorPc}
    (hothers : ∀ u, u ≠ t → (f u).holds = false) (u : T) :
    (if pc.holds then some t else none) = some u ↔
      (Function.update f t pc u).holds = true := by
  by_cases hu : u = t
  · subst hu
    cases hpc : pc.holds <;> simp [hpc]
  · rw [Function.update_of_ne hu, hothers u hu]
    cases pc.holds <;> simp [Ne.symm hu]

/-- A step of one thread that keeps the value, and by which it neither falls asleep nor changes the
value. -/
theorem Sound.moved (h : m.Sound p v) (pc : MonitorPc) (mutex : Option T)
    (hheld : ∀ u, mutex = some u ↔ (Function.update m.pc t pc u).holds = true)
    (hpc : pc ≠ .asleep) (hnotifying : pc ≠ .notifying) (hwas : m.pc t ≠ .notifying)
    (hwoken : pc = .woken → p.role t = .wait)
    (hpassed : p.role t ≠ .wait → pc.passed = (m.pc t).passed) :
    Sound p v { m.setPc t pc with mutex := mutex } where
  held := hheld
  sleepers := (Function.forall_update_iff m.pc (p := fun u pc => pc = .asleep ∨ pc = .woken →
    p.role u = .wait)).mpr ⟨fun hor => hwoken (hor.resolve_left hpc), fun u _ => h.sleepers u⟩
  notifiers := (Function.forall_update_iff m.pc (p := fun u pc => pc = .notifying →
    p.role u ≠ .wait)).mpr ⟨fun heq => (hnotifying heq).elim, fun u _ => h.notifiers u⟩
  changed := by
    refine (Function.forall_update_iff m.pc (p := fun u pc => u ∈ m.changed ↔
      p.role u ≠ .wait ∧ pc.passed = true)).mpr ⟨?_, fun u _ => h.changed u⟩
    refine (h.changed t).trans (and_congr_right fun hrole => ?_)
    rw [hpassed hrole]
  nodup := h.nodup
  value := h.value
  awake hready := by
    rcases h.awake hready with hnobody | ⟨c, hc, hwakes⟩
    · exact .inl ((Function.forall_update_iff m.pc (p := fun _ pc => pc ≠ .asleep)).mpr
        ⟨hpc, fun u _ => hnobody u⟩)
    · have hct : c ≠ t := by
        rintro rfl
        exact hwas hc
      exact .inr ⟨c, (Function.update_of_ne hct ..).trans hc, hwakes⟩

/-- A thread that has found the value not ready falls asleep. -/
theorem Sound.slept (h : m.Sound p v) (hpc : m.pc t = .inside) (hrole : p.role t = .wait)
    (hready : p.ready m.value = false) :
    Sound p v { m.setPc t .asleep with mutex := none } where
  held := held_update .asleep fun u hu => h.other (by rw [hpc]; rfl) hu
  sleepers := (Function.forall_update_iff m.pc (p := fun u pc => pc = .asleep ∨ pc = .woken →
    p.role u = .wait)).mpr ⟨fun _ => hrole, fun u _ => h.sleepers u⟩
  notifiers := (Function.forall_update_iff m.pc (p := fun u pc => pc = .notifying →
    p.role u ≠ .wait)).mpr ⟨nofun, fun u _ => h.notifiers u⟩
  changed := (Function.forall_update_iff m.pc (p := fun u pc => u ∈ m.changed ↔
    p.role u ≠ .wait ∧ pc.passed = true)).mpr
      ⟨(h.changed t).trans (by simp [hrole]), fun u _ => h.changed u⟩
  nodup := h.nodup
  value := h.value
  awake hready' := by
    dsimp only [setPc] at hready'
    rw [hready] at hready'
    cases hready'

/-- A change is notified to all who may sleep, if it makes the value ready. -/
theorem Sound.changes (h : m.Sound p v) (hann : p.Announces) {f : S → S} {wakes : S → Wakes}
    (hpc : m.pc t = .inside) (hrole : p.role t = .change f wakes) :
    Sound p v
      { m.setPc t .notifying with value := f m.value, changed := m.changed ++ [t] } := by
  have hwait : p.role t ≠ .wait := by rw [hrole]; exact nofun
  have happly : p.apply m.value t = f m.value := by rw [Protocol.apply, hrole]
  have hnew : t ∉ m.changed := by
    intro hmem
    have hpassed := ((h.changed t).mp hmem).2
    rw [hpc] at hpassed
    cases hpassed
  refine ⟨?_, ?_, ?_, ?_, ?_, ?_, ?_⟩
  · intro u
    have hmutex : m.mutex = some t := (h.held t).mpr (by rw [hpc]; rfl)
    dsimp only [setPc]
    rw [hmutex]
    exact held_update .notifying (fun u hu => h.other (by rw [hpc]; rfl) hu) u
  · exact (Function.forall_update_iff m.pc (p := fun u pc => pc = .asleep ∨ pc = .woken →
      p.role u = .wait)).mpr ⟨by simp, fun u _ => h.sleepers u⟩
  · exact (Function.forall_update_iff m.pc (p := fun u pc => pc = .notifying →
      p.role u ≠ .wait)).mpr ⟨fun _ => hwait, fun u _ => h.notifiers u⟩
  · refine (Function.forall_update_iff m.pc (p := fun u pc => u ∈ m.changed ++ [t] ↔
      p.role u ≠ .wait ∧ pc.passed = true)).mpr ⟨?_, ?_⟩
    · simp [hwait, MonitorPc.passed]
    · intro u hu
      rw [List.mem_append, List.mem_singleton, or_iff_left hu]
      exact h.changed u
  · exact h.nodup.append (List.nodup_singleton t) (by simpa using hnew)
  · dsimp only
    rw [List.foldl_append, ← h.value, List.foldl_cons, List.foldl_nil, happly]
  · intro hready
    dsimp only [setPc] at hready ⊢
    cases hbefore : p.ready m.value with
    | false =>
      refine .inr ⟨t, Function.update_self .., ?_⟩
      rw [← happly] at hready ⊢
      exact hann t m.value hbefore hready
    | true =>
      left
      refine (Function.forall_update_iff m.pc (p := fun _ pc => pc ≠ .asleep)).mpr
        ⟨by decide, fun u _ => ?_⟩
      rcases h.awake hbefore with hnobody | ⟨c, hc, -⟩
      · exact hnobody u
      · -- the notification to come would be by another holder of the mutex
        obtain rfl := h.exclusive (t := t) (u := c) (by rw [hpc]; rfl) (by rw [hc]; rfl)
        rw [hpc] at hc
        cases hc

/-- After the notification nobody sleeps, if the value is ready. -/
theorem Sound.notifies [Fintype T] (h : m.Sound p v) {f : S → S} {wakes : S → Wakes}
    {sleeper : Option T} {pc : T → MonitorPc} (hpc : m.pc t = .notifying)
    (hrole : p.role t = .change f wakes)
    (hnotified : m.notified (wakes m.value) sleeper = some pc) :
    Sound p v { m with pc := Function.update pc t .leaving } := by
  have hmoved := notified_pc hnotified
  have hwait : p.role t ≠ .wait := by rw [hrole]; exact nofun
  have hholds : (m.pc t).holds = true := by rw [hpc]; rfl
  refine ⟨?_, ?_, ?_, ?_, h.nodup, h.value, ?_⟩
  · intro u
    have hmutex : m.mutex = some t := (h.held t).mpr hholds
    dsimp only
    rw [hmutex]
    refine held_update .leaving (fun u hu => ?_) u
    rcases hmoved u with heq | ⟨-, heq⟩
    · rw [heq]
      exact h.other hholds hu
    · rw [heq]
      rfl
  · refine (Function.forall_update_iff pc (p := fun u pc => pc = .asleep ∨ pc = .woken →
      p.role u = .wait)).mpr ⟨by simp, fun u _ hu => ?_⟩
    rcases hmoved u with heq | ⟨hasleep, -⟩
    · rw [heq] at hu
      exact h.sleepers u hu
    · exact h.sleepers u (.inl hasleep)
  · refine (Function.forall_update_iff pc (p := fun u pc => pc = .notifying →
      p.role u ≠ .wait)).mpr ⟨nofun, fun u _ hu => ?_⟩
    rcases hmoved u with heq | ⟨-, heq⟩
    · rw [heq] at hu
      exact h.notifiers u hu
    · rw [heq] at hu
      cases hu
  · refine (Function.forall_update_iff pc (p := fun u pc => u ∈ m.changed ↔
      p.role u ≠ .wait ∧ pc.passed = true)).mpr ⟨?_, fun u _ => ?_⟩
    · rw [h.changed t, hpc]
      rfl
    · rw [h.changed u]
      rcases hmoved u with heq | ⟨hasleep, heq⟩
      · rw [heq]
      · rw [heq, hasleep]
        rfl
  · intro hready
    left
    refine (Function.forall_update_iff pc (p := fun _ pc => pc ≠ .asleep)).mpr
      ⟨by decide, fun u _ => ?_⟩
    rcases h.awake hready with hnobody | ⟨c, hc, f', wakes', hrole', hall⟩
    · rcases hmoved u with heq | ⟨-, heq⟩
      · rw [heq]
        exact hnobody u
      · rw [heq]
        decide
    · obtain rfl := h.exclusive hholds (u := c) (by rw [hc]; rfl)
      rw [hrole] at hrole'
      cases hrole'
      refine notified_awake hnotified (hall.imp_right fun hone => ⟨hone.1, ?_⟩) u
      intro s s' hs hs'
      exact hone.2 s s' (h.sleepers s (.inl hs)) (h.sleepers s' (.inl hs'))

theorem Sound.step [Fintype T] (h : m.Sound p v) (hann : p.Announces) {a : MonitorStep T}
    (hs : m.step p a = some m') : m'.Sound p v := by
  cases moves_of_step hs with
  | lock t hfree hpc =>
    refine h.moved .inside (some t) (held_update .inside fun u _ => h.free hfree u) (by decide)
      (by decide) ?_ nofun ?_
    · rcases hpc with hpc | hpc <;> rw [hpc] <;> decide
    · rcases hpc with hpc | hpc <;> rw [hpc] <;> exact fun _ => rfl
  | found t hpc hrole =>
    have hmutex : m.mutex = some t := (h.held t).mpr (by rw [hpc]; rfl)
    refine h.moved .leaving m.mutex ?_ (by decide) (by decide) (by rw [hpc]; decide) nofun
      fun hne => (hne hrole).elim
    rw [hmutex]
    exact held_update .leaving fun u hu => h.other (by rw [hpc]; rfl) hu
  | sleep t hpc hrole hready => exact h.slept hpc hrole hready
  | change t f wakes hpc hrole => exact h.changes hann hpc hrole
  | notify t sleeper f wakes pc hpc hrole hnotified => exact h.notifies hpc hrole hnotified
  | unlock t hpc =>
    exact h.moved .done none (held_update .done fun u hu => h.other (by rw [hpc]; rfl) hu)
      (by decide) (by decide) (by rw [hpc]; decide) nofun fun _ => by rw [hpc]; rfl
  | spurious t hpc =>
    refine h.moved .woken m.mutex ?_ (by decide) (by decide) (by rw [hpc]; decide)
      (fun _ => h.sleepers t (.inl hpc)) fun _ => by rw [hpc]; rfl
    refine (Function.forall_update_iff m.pc (p := fun u pc => m.mutex = some u ↔
      pc.holds = true)).mpr ⟨(h.held t).trans (by rw [hpc]; rfl), fun u _ => h.held u⟩

theorem Runs.sound [Fintype T] (hann : p.Announces) {as : List (MonitorStep T)}
    (hrun : (start v).Runs p as m) : m.Sound p v :=
  hrun.preserves (Sound p v) (start_sound p v) fun _ _ _ h hs => h.step hann hs

theorem exists_notified [Fintype T] (m : Monitor T S) (wakes : Wakes) :
    ∃ sleeper pc, m.notified wakes sleeper = some pc := by
  cases wakes with
  | none => exact ⟨none, _, rfl⟩
  | all => exact ⟨none, _, rfl⟩
  | one =>
    by_cases hnobody : ∀ t, m.pc t ≠ .asleep
    · exact ⟨none, _, if_pos hnobody⟩
    · push Not at hnobody
      obtain ⟨t, ht⟩ := hnobody
      exact ⟨some t, _, if_pos ht⟩

/-- Whoever has found the value ready can rely on it, as long as no change makes it unready. -/
theorem Runs.found_ready [Fintype T] (hann : p.Announces)
    (hkeeps : ∀ (m : Monitor T S) t, m.Sound p v → p.ready m.value = true → m.pc t = .inside →
      p.ready (p.apply m.value t) = true) {as : List (MonitorStep T)}
    (hrun : (start v).Runs p as m) (hrole : p.role t = .wait) (hpassed : (m.pc t).passed = true) :
    p.ready m.value = true := by
  have hinv := hrun.preserves (fun m => m.Sound p v ∧
    ((m.pc t).passed = true → p.ready m.value = true))
    ⟨start_sound p v, by simp [start, MonitorPc.passed]⟩ ?_
  · exact hinv.2 hpassed
  · intro m a m' ⟨hsound, hready⟩ hs
    refine ⟨hsound.step hann hs, ?_⟩
    cases moves_of_step hs with
    | lock u | sleep u | spurious u =>
      by_cases htu : t = u
      · subst htu
        simp [setPc, MonitorPc.passed]
      · simpa only [setPc, Function.update_of_ne htu] using hready
    | found u _ _ hfound => exact fun _ => hfound
    | unlock u hpc =>
      by_cases htu : t = u
      · subst htu
        exact fun _ => hready (by rw [hpc]; rfl)
      · simpa only [setPc, Function.update_of_ne htu] using hready
    | change u f wakes hpc hchange =>
      have htu : t ≠ u := by
        rintro rfl
        rw [hrole] at hchange
        cases hchange
      intro hpassed'
      dsimp only [setPc] at hpassed' ⊢
      rw [Function.update_of_ne htu] at hpassed'
      have hnext := hkeeps m u hsound (hready hpassed') hpc
      rw [Protocol.apply, hchange] at hnext
      exact hnext
    | notify u sleeper f wakes pc hpc hchange hnotified =>
      have htu : t ≠ u := by
        rintro rfl
        rw [hrole] at hchange
        cases hchange
      intro hpassed'
      dsimp only at hpassed' ⊢
      rw [Function.update_of_ne htu] at hpassed'
      rcases notified_pc hnotified t with heq | ⟨-, heq⟩
      · exact hready (heq ▸ hpassed')
      · rw [heq] at hpassed'
        cases hpassed'

/-- An operation ends with its unlock. -/
theorem step_done [Fintype T] {a : MonitorStep T} (hs : m.step p a = some m') (t : T) :
    m'.pc t = .done ↔ m.pc t = .done ∨ a = .unlock t := by
  cases moves_of_step hs with
  | lock u hfree hpc =>
    by_cases htu : t = u
    · subst htu
      rcases hpc with hpc | hpc <;> simp [setPc, hpc]
    · simp [setPc, htu]
  | found u hpc | sleep u hpc | change u f wakes hpc | spurious u hpc =>
    by_cases htu : t = u
    · subst htu
      simp [setPc, hpc]
    · simp [setPc, htu]
  | notify u sleeper f wakes pc hpc hrole hnotified =>
    by_cases htu : t = u
    · subst htu
      simp [hpc]
    · rcases notified_pc hnotified t with heq | ⟨hasleep, heq⟩
      · simp [htu, heq]
      · simp [htu, heq, hasleep]
  | unlock u hpc =>
    by_cases htu : t = u
    · subst htu
      simp [setPc]
    · simp [setPc, htu, Ne.symm htu]

/-- Nobody is left who could make the value ready. -/
structure Starved (p : Protocol T S) (m : Monitor T S) : Prop where
  unready : p.ready m.value = false
  done : ∀ t, p.role t ≠ .wait → m.pc t = .done
  waits : ∀ t, p.role t = .wait → (m.pc t).passed = false

/-- It stays so, and whoever waits waits for ever. -/
theorem Starved.step [Fintype T] (h : m.Starved p) {a : MonitorStep T}
    (hs : m.step p a = some m') : m'.Starved p := by
  have hwaits : ∀ t, m.pc t ≠ .done → p.role t = .wait := by
    intro t hpc
    by_contra hrole
    exact hpc (h.done t hrole)
  have hmoved : ∀ t pc mutex, m.pc t ≠ .done → pc.passed = false →
      Starved p { m.setPc t pc with mutex := mutex } := by
    intro t pc mutex hpc hpassed
    refine ⟨h.unready, ?_, ?_⟩
    · intro u hrole
      have hut : u ≠ t := by
        rintro rfl
        exact hrole (hwaits u hpc)
      exact (Function.update_of_ne hut ..).trans (h.done u hrole)
    · exact (Function.forall_update_iff m.pc (p := fun u pc => p.role u = .wait →
        pc.passed = false)).mpr ⟨fun _ => hpassed, fun u _ => h.waits u⟩
  cases moves_of_step hs with
  | lock t hfree hpc =>
    exact hmoved t .inside _ (by rcases hpc with hpc | hpc <;> rw [hpc] <;> decide) rfl
  | found t hpc hrole hready =>
    rw [h.unready] at hready
    cases hready
  | sleep t hpc => exact hmoved t .asleep _ (by rw [hpc]; decide) rfl
  | spurious t hpc => exact hmoved t .woken m.mutex (by rw [hpc]; decide) rfl
  | change t f wakes hpc hrole | notify t sleeper f wakes pc hpc hrole =>
    rw [h.done t (by rw [hrole]; exact nofun)] at hpc
    cases hpc
  | unlock t hpc =>
    have hpassed := h.waits t (hwaits t (by rw [hpc]; decide))
    rw [hpc] at hpassed
    cases hpassed

/-- While nobody sleeps and the mutex is free, a thread can make its change at one go. -/
theorem exists_change [Fintype T] (hfree : m.mutex = none) (hpc : m.pc t = .entering)
    (hrole : p.role t ≠ .wait) (hnobody : ∀ u, m.pc u ≠ .asleep) :
    ∃ as m', m.Runs p as m' ∧ m'.mutex = none ∧ m'.pc = Function.update m.pc t .done := by
  obtain ⟨f, wakes, hrole⟩ : ∃ f wakes, p.role t = .change f wakes := by
    cases hr : p.role t with
    | wait => exact (hrole hr).elim
    | change f wakes => exact ⟨f, wakes, rfl⟩
  let m1 : Monitor T S := { m.setPc t .inside with mutex := some t }
  let m2 : Monitor T S :=
    { m1.setPc t .notifying with value := f m1.value, changed := m1.changed ++ [t] }
  have hlock : m.step p (.lock t) = some m1 := if_pos ⟨hfree, .inl hpc⟩
  have hpc1 : m1.pc t = .inside := Function.update_self ..
  have hpc2 : m2.pc t = .notifying := Function.update_self ..
  have hact : m1.step p (.act t) = some m2 := by
    rw [step, if_pos hpc1, hrole]
  have hnobody2 : ∀ u, m2.pc u ≠ .asleep :=
    (Function.forall_update_iff m1.pc (p := fun _ pc => pc ≠ .asleep)).mpr ⟨by decide,
      fun u _ => (Function.forall_update_iff m.pc (p := fun _ pc => pc ≠ .asleep)).mpr
        ⟨by decide, fun u _ => hnobody u⟩ u⟩
  obtain ⟨sleeper, pc, hnotified⟩ := m2.exists_notified (wakes m2.value)
  have hsame : pc = m2.pc := by
    funext u
    exact (notified_pc hnotified u).resolve_right fun hasleep => hnobody2 u hasleep.1
  let m3 : Monitor T S := { m2 with pc := Function.update pc t .leaving }
  have hnotify : m2.step p (.notify t sleeper) = some m3 := by
    rw [step, hrole]
    dsimp only
    rw [if_pos hpc2, hnotified, Option.map_some]
  have hunlock : m3.step p (.unlock t) = some { m3.setPc t .done with mutex := none } :=
    if_pos (Function.update_self ..)
  refine ⟨[.lock t, .act t, .notify t sleeper, .unlock t], _,
    .snoc (.snoc (.snoc (.snoc (.nil m) hlock) hact) hnotify) hunlock, rfl, ?_⟩
  simp only [setPc, m3, hsame, m2, m1, Function.update_idem]

/-- No thread can take a step, except by a wakeup without a notification. -/
def Stuck [Fintype T] (p : Protocol T S) (m : Monitor T S) : Prop :=
  ∀ a : MonitorStep T, a.isSpurious = false → m.step p a = none

/-- The holder of the mutex can take a step. -/
theorem Stuck.unlocked [Fintype T] (hstuck : m.Stuck p) (h : m.Sound p v) (t : T) :
    (m.pc t).holds = false := by
  by_contra hholds
  cases hpc : m.pc t <;> rw [hpc] at hholds <;> try exact hholds rfl
  case inside =>
    have hact := hstuck (.act t) rfl
    rw [step, if_pos hpc] at hact
    cases hrole : p.role t with
    | wait =>
      rw [hrole] at hact
      dsimp only at hact
      split_ifs at hact
    | change f wakes =>
      rw [hrole] at hact
      cases hact
  case notifying =>
    cases hrole : p.role t with
    | wait => exact h.notifiers t hpc hrole
    | change f wakes =>
      obtain ⟨sleeper, pc, hnotified⟩ := m.exists_notified (wakes m.value)
      have hnotify := hstuck (.notify t sleeper) rfl
      rw [step, hrole] at hnotify
      dsimp only at hnotify
      rw [if_pos hpc, hnotified] at hnotify
      cases hnotify
  case leaving =>
    have hunlock := hstuck (.unlock t) rfl
    rw [step, if_pos hpc] at hunlock
    cases hunlock

/-- Where nothing goes on, a thread is done, or it sleeps and the value is not ready. -/
theorem Stuck.pc [Fintype T] (hstuck : m.Stuck p) (h : m.Sound p v) (t : T) :
    m.pc t = .done ∨ m.pc t = .asleep ∧ p.ready m.value = false := by
  have hunlocked := hstuck.unlocked h
  have hfree : m.mutex = none := by
    cases hmutex : m.mutex with
    | none => rfl
    | some u =>
      have hholds := (h.held u).mp hmutex
      rw [hunlocked u] at hholds
      cases hholds
  have hlock : ∀ pc, pc = .entering ∨ pc = .woken → m.pc t ≠ pc := by
    rintro pc hor hpc
    have hstep := hstuck (.lock t) rfl
    rw [step, if_pos ⟨hfree, hpc ▸ hor⟩] at hstep
    cases hstep
  have hunheld := hunlocked t
  cases hpc : m.pc t <;> rw [hpc] at hunheld <;> try cases hunheld
  case entering => exact (hlock _ (.inl rfl) hpc).elim
  case woken => exact (hlock _ (.inr rfl) hpc).elim
  case done => exact .inl rfl
  case asleep =>
    refine .inr ⟨rfl, ?_⟩
    by_contra hready
    rcases h.awake (by simpa using hready) with hnobody | ⟨c, hc, -⟩
    · exact hnobody t hpc
    · have hholds := hunlocked c
      rw [hc] at hholds
      cases hholds

/-- The steps that are left to a thread on a monitor of `n` threads: a change may wake them all, and
one that is woken has three steps to the end or to the next sleep. -/
def stepsLeft (n : Nat) : MonitorRole S → MonitorPc → Nat
  | .wait, .entering | .wait, .woken => 3
  | .wait, .inside => 2
  | .change .., .entering | .change .., .woken => 3 * n + 4
  | .change .., .inside => 3 * n + 3
  | .change .., .notifying => 3 * n + 2
  | _, .leaving => 1
  | _, _ => 0

variable [Fintype T]

def work (p : Protocol T S) (m : Monitor T S) : Nat :=
  ∑ t, stepsLeft (Fintype.card T) (p.role t) (m.pc t)

/-- What one thread does changes its own share. -/
theorem work_moved {pc : MonitorPc} {n : Nat} (hpc : m'.pc = Function.update m.pc t pc)
    (hle : stepsLeft (Fintype.card T) (p.role t) pc + 1 ≤
      stepsLeft (Fintype.card T) (p.role t) (m.pc t) + n) :
    m'.work p + 1 ≤ m.work p + n := by
  have hsum := sum_update (fun u => stepsLeft (Fintype.card T) (p.role u)) m.pc t pc
  rw [← hpc] at hsum
  rw [work, work]
  omega

/-- A notification gives each sleeper three steps at most. -/
theorem work_notified {wakes : Wakes} {sleeper : Option T} {pc : T → MonitorPc}
    (hsleepers : ∀ u, m.pc u = .asleep → p.role u = .wait)
    (h : m.notified wakes sleeper = some pc) (hawake : m.pc t ≠ .asleep) :
    work p { m with pc := Function.update pc t .leaving } +
        stepsLeft (Fintype.card T) (p.role t) (m.pc t) ≤
      m.work p + 3 * Fintype.card T + 1 := by
  have hsum := sum_update (fun u => stepsLeft (Fintype.card T) (p.role u)) pc t .leaving
  have hpc : ∑ u, stepsLeft (Fintype.card T) (p.role u) (pc u) ≤
      ∑ u, (stepsLeft (Fintype.card T) (p.role u) (m.pc u) + 3) := by
    refine Finset.sum_le_sum fun u _ => ?_
    rcases notified_pc h u with heq | ⟨hasleep, heq⟩
    · rw [heq]
      omega
    · rw [heq, hsleepers u hasleep]
      exact Nat.le_add_left _ _
  rw [Finset.sum_add_distrib, Finset.sum_const_nat fun _ _ => rfl, Finset.card_univ] at hpc
  have hleaving : stepsLeft (Fintype.card T) (p.role t) .leaving = 1 := by
    cases p.role t <;> rfl
  have hself : pc t = m.pc t := (notified_pc h t).resolve_right fun hasleep => hawake hasleep.1
  rw [hleaving, hself] at hsum
  rw [work, work]
  dsimp only
  omega

theorem Sound.work_lt (h : m.Sound p v) {a : MonitorStep T} (hs : m.step p a = some m') :
    m'.work p + 1 ≤ m.work p + if a.isSpurious then 4 else 0 := by
  cases moves_of_step hs with
  | lock t hfree hpc =>
    refine work_moved rfl ?_
    rcases hpc with hpc | hpc <;> rw [hpc] <;> cases p.role t <;> exact le_refl _
  | found t hpc hrole | sleep t hpc hrole =>
    refine work_moved rfl ?_
    simp [hpc, hrole, stepsLeft, MonitorStep.isSpurious]
  | change t f wakes hpc hrole =>
    refine work_moved rfl ?_
    rw [hpc, hrole]
    exact le_refl _
  | notify t sleeper f wakes pc hpc hrole hnotified =>
    have hwork := work_notified (fun u hu => h.sleepers u (.inl hu)) hnotified
      (t := t) (by rw [hpc]; decide)
    rw [hpc, hrole] at hwork
    simp only [stepsLeft] at hwork
    simp only [MonitorStep.isSpurious]
    omega
  | unlock t hpc =>
    refine work_moved rfl ?_
    rw [hpc]
    cases p.role t <;> exact le_refl _
  | spurious t hpc =>
    refine work_moved rfl ?_
    simp [hpc, h.sleepers t (.inl hpc), stepsLeft, MonitorStep.isSpurious]

/-- A run ends, unless threads wake without a notification for ever. -/
theorem Runs.length_le (hann : p.Announces) {as : List (MonitorStep T)}
    (hrun : (start v).Runs p as m) :
    as.length + m.work p ≤ (start v : Monitor T S).work p + 4 * as.countP (·.isSpurious) := by
  have hinv := hrun.invariant (fun as m => m.Sound p v ∧
    as.length + m.work p ≤ (start v : Monitor T S).work p + 4 * as.countP (·.isSpurious))
    ⟨start_sound p v, by simp⟩ ?_
  · exact hinv.2
  · intro as m a m' ⟨hsound, hlen⟩ hs
    have hwork := hsound.work_lt hs
    refine ⟨hsound.step hann hs, ?_⟩
    rw [List.length_append, List.length_singleton, List.countP_append, List.countP_singleton]
    split_ifs at hwork ⊢ <;> omega

/-- Every run can be brought to a state in which nothing goes on. -/
theorem Sound.exists_stuck (h : m.Sound p v) (hann : p.Announces) :
    ∃ as m', m.Runs p as m' ∧ m'.Stuck p := by
  induction hwork : m.work p using Nat.strong_induction_on generalizing m with
  | _ n ih =>
    by_cases hstuck : m.Stuck p
    · exact ⟨[], m, .nil m, hstuck⟩
    · rw [Stuck] at hstuck
      push Not at hstuck
      obtain ⟨a, hspurious, hstep⟩ := hstuck
      obtain ⟨mid, hmid⟩ := Option.ne_none_iff_exists'.mp hstep
      have hlt := h.work_lt hmid
      rw [hspurious] at hlt
      obtain ⟨as, m', hrun, hend⟩ := ih (mid.work p) (by simp at hlt; omega) (h.step hann hmid) rfl
      exact ⟨a :: as, m', hrun.cons hmid, hend⟩

end Monitor

end MuduoServer
