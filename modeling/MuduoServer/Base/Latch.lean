import Mathlib.Data.Fintype.Sum
import MuduoServer.Framework.Monitor

namespace MuduoServer

/-- The threads around a `Latch`: those that call `wait` and those that call `countDown`. -/
abbrev LatchThread (waiters n : Nat) := Fin waiters ⊕ Fin n

namespace Latch

variable {waiters n : Nat}

/-- `Latch::wait` and `Latch::countDown`, each called once by each of its threads. -/
def protocol (waiters n : Nat) : Protocol (LatchThread waiters n) Int where
  ready count := count == 0
  role
    | .inl _ => .wait
    | .inr _ => .change (· - 1) fun count => if count = 0 then .all else .none

theorem announces : (protocol waiters n).Announces := by
  rintro (w | c) count hnot hready
  · dsimp only [Protocol.apply, protocol] at hready
    rw [show (count == 0) = false from hnot] at hready
    cases hready
  · refine ⟨_, _, rfl, .inl ?_⟩
    have hzero : (protocol waiters n).apply count (.inr c) = 0 := by
      simpa [protocol] using hready
    rw [hzero]
    rfl

theorem role_inr (t : LatchThread waiters n) (h : (protocol waiters n).role t ≠ .wait) :
    ∃ c, t = .inr c := by
  cases t with
  | inl w => exact (h rfl).elim
  | inr c => exact ⟨c, rfl⟩

/-- The count is what is left when each call of `countDown` has taken one off. -/
theorem foldl_apply (count : Int) (changed : List (LatchThread waiters n))
    (h : ∀ t ∈ changed, (protocol waiters n).role t ≠ .wait) :
    changed.foldl (protocol waiters n).apply count = count - changed.length := by
  induction changed generalizing count with
  | nil => simp
  | cons t changed ih =>
    obtain ⟨c, rfl⟩ := role_inr t (h t List.mem_cons_self)
    rw [List.foldl_cons, ih _ fun t ht => h t (List.mem_cons_of_mem _ ht), List.length_cons]
    simp only [Protocol.apply, protocol]
    omega

variable {count : Int} {m : Monitor (LatchThread waiters n) Int}

theorem value_eq (h : m.Sound (protocol waiters n) count) : m.value = count - m.changed.length := by
  rw [h.value]
  exact foldl_apply count m.changed fun t ht => ((h.changed t).mp ht).1

/-- There are `n` threads that count down. -/
theorem length_le {ts : List (LatchThread waiters n)} (hnodup : ts.Nodup)
    (h : ∀ t ∈ ts, (protocol waiters n).role t ≠ .wait) : ts.length ≤ n := by
  have hsub : ts ⊆ (List.finRange n).map .inr := by
    intro t ht
    obtain ⟨c, rfl⟩ := role_inr t (h t ht)
    exact List.mem_map_of_mem (List.mem_finRange c)
  simpa using (hnodup.subperm hsub).length_le

theorem changed_length_le (h : m.Sound (protocol waiters n) count) : m.changed.length ≤ n :=
  length_le h.nodup fun t ht => ((h.changed t).mp ht).1

theorem changed_length_lt (h : m.Sound (protocol waiters n) count) {c : Fin n}
    (hc : (m.pc (.inr c)).passed = false) : m.changed.length < n := by
  have hnot : Sum.inr c ∉ m.changed := by
    intro hmem
    rw [((h.changed _).mp hmem).2] at hc
    cases hc
  refine length_le (List.nodup_cons.mpr ⟨hnot, h.nodup⟩) ?_
  intro t ht
  rcases List.mem_cons.mp ht with rfl | ht
  · exact nofun
  · exact ((h.changed t).mp ht).1

/-- When all have counted down, the value tells how many there are. -/
theorem changed_length_eq (h : m.Sound (protocol waiters n) count)
    (hall : ∀ c : Fin n, (m.pc (.inr c)).passed = true) : m.changed.length = n := by
  refine Nat.le_antisymm (changed_length_le h) ?_
  have hsub : (List.finRange n).map .inr ⊆ m.changed := by
    intro t ht
    obtain ⟨c, -, rfl⟩ := List.mem_map.mp ht
    exact (h.changed _).mpr ⟨nofun, hall c⟩
  have hnodup : ((List.finRange n).map (Sum.inr : Fin n → LatchThread waiters n)).Nodup :=
    (List.nodup_finRange n).map Sum.inr_injective
  simpa using (hnodup.subperm hsub).length_le

theorem ready_iff (h : m.Sound (protocol waiters n) count) :
    (protocol waiters n).ready m.value = true ↔ count = m.changed.length := by
  rw [value_eq h]
  simp only [protocol, beq_iff_eq]
  omega

/-- The threads that count down do so first. -/
theorem exists_counted (waiters : Nat) (count : Int) (cs : List (Fin n)) (hcs : cs.Nodup) :
    ∃ as, ∃ m : Monitor (LatchThread waiters n) Int,
      (Monitor.start count).Runs (protocol waiters n) as m ∧ m.mutex = none ∧
        (∀ w, m.pc (.inl w) = .entering) ∧
        ∀ c, m.pc (.inr c) = if c ∈ cs then .done else .entering := by
  induction cs with
  | nil => exact ⟨[], _, .nil _, rfl, fun _ => rfl, fun _ => by simp [Monitor.start]⟩
  | cons c cs ih =>
    obtain ⟨hc, hcs⟩ := List.nodup_cons.mp hcs
    obtain ⟨as, m, hrun, hfree, hwaiters, hcounters⟩ := ih hcs
    have hnobody : ∀ t, m.pc t ≠ .asleep := by
      rintro (w | c)
      · rw [hwaiters]
        decide
      · rw [hcounters]
        split_ifs <;> decide
    have hrole : (protocol waiters n).role (.inr c) ≠ .wait := by
      intro h
      cases h
    obtain ⟨bs, m', hmore, hfree', hpc⟩ := Monitor.exists_change (p := protocol waiters n)
      (t := .inr c) hfree (by rw [hcounters, if_neg hc]) hrole hnobody
    refine ⟨as ++ bs, m', hrun.append hmore, hfree', ?_, ?_⟩
    · intro w
      rw [hpc, Function.update_of_ne (by simp), hwaiters]
    · intro d
      by_cases hdc : d = c
      · subst hdc
        rw [hpc, Function.update_self, if_pos List.mem_cons_self]
      · rw [hpc, Function.update_of_ne (by simpa using hdc), hcounters]
        simp [hdc]

end Latch

open Latch

/-- A latch does its work: in every interleaving, with wakeups without a notification, `wait`
returns only when every thread has counted down; where nothing goes on, every call has returned;
and this comes to pass unless threads wake without a notification for ever. -/
structure Latch.Opens (waiters n : Nat) (count : Int) : Prop where
  behind : ∀ as (m : Monitor (LatchThread waiters n) Int),
    (Monitor.start count).Runs (protocol waiters n) as m →
      ∀ w, (m.pc (.inl w)).passed = true → ∀ c, (m.pc (.inr c)).passed = true
  returns : ∀ as (m : Monitor (LatchThread waiters n) Int),
    (Monitor.start count).Runs (protocol waiters n) as m →
      m.Stuck (protocol waiters n) → ∀ t, m.pc t = .done
  ends : ∀ as (m : Monitor (LatchThread waiters n) Int),
    (Monitor.start count).Runs (protocol waiters n) as m →
      as.length ≤ (Monitor.start count : Monitor (LatchThread waiters n) Int).work
        (protocol waiters n) + 4 * as.countP (·.isSpurious)

theorem Latch.opens_of_eq (waiters n : Nat) : Opens waiters n n := by
  refine ⟨?_, ?_, ?_⟩
  · intro as m hrun w hw c
    have hready := hrun.found_ready announces (t := .inl w) ?_ rfl hw
    · by_contra hc
      have hsound := hrun.sound announces
      have hlt := changed_length_lt hsound (by simpa using hc)
      have heq := (ready_iff hsound).mp hready
      omega
    · intro m t hsound hready hpc
      cases t with
      | inl w => exact hready
      | inr c =>
        -- a thread has not counted down, so the count is not zero
        have hlt := changed_length_lt hsound (c := c) (by rw [hpc]; rfl)
        have heq := (ready_iff hsound).mp hready
        omega
  · intro as m hrun hstuck
    have hsound := hrun.sound announces
    have hcounted : ∀ c, m.pc (.inr c) = .done := by
      intro c
      refine (hstuck.pc hsound _).resolve_right ?_
      intro hasleep
      cases hsound.sleepers _ (.inl hasleep.1)
    rintro (w | c)
    · refine (hstuck.pc hsound _).resolve_right ?_
      intro hasleep
      have hready := (ready_iff hsound).mpr (by
        rw [changed_length_eq hsound fun c => by rw [hcounted c]; rfl])
      rw [hasleep.2] at hready
      cases hready
    · exact hcounted c
  · intro as m hrun
    have hlen := hrun.length_le announces
    omega

/-- Where the count is not the number of threads that count down, a thread that calls `wait` after
them waits for ever. -/
theorem Latch.late_waits (waiters n : Nat) {count : Int} (hne : count ≠ n) :
    ∃ as, ∃ m : Monitor (LatchThread waiters n) Int,
      (Monitor.start count).Runs (protocol waiters n) as m ∧ (∀ c, m.pc (.inr c) = .done) ∧
        ∀ bs m', m.Runs (protocol waiters n) bs m' → ∀ w, (m'.pc (.inl w)).passed = false := by
  obtain ⟨as, m, hrun, -, hwaiters, hcounters⟩ :=
    exists_counted waiters count (List.finRange n) (List.nodup_finRange n)
  have hdone : ∀ c, m.pc (.inr c) = .done := by
    intro c
    rw [hcounters, if_pos (List.mem_finRange c)]
  have hsound := hrun.sound announces
  have hstarved : m.Starved (protocol waiters n) := by
    refine ⟨?_, ?_, ?_⟩
    · by_contra hready
      have heq := (ready_iff hsound).mp (by simpa using hready)
      rw [changed_length_eq hsound fun c => by rw [hdone c]; rfl] at heq
      exact hne heq
    · intro t ht
      obtain ⟨c, rfl⟩ := role_inr t ht
      exact hdone c
    · rintro (w | c) ht
      · rw [hwaiters]
        rfl
      · cases ht
  refine ⟨as, m, hrun, hdone, ?_⟩
  intro bs m' hmore w
  have hstarved' : m'.Starved (protocol waiters n) :=
    hmore.preserves (·.Starved (protocol waiters n)) hstarved fun _ _ _ hinv hs => hinv.step hs
  exact hstarved'.waits (.inl w) rfl

/-- A latch for one thread at least does its work exactly when as many threads count down as it was
made for. When more do, the count falls below zero, and a thread that comes late waits for ever
(`Latch.late_waits`). -/
theorem latch_opens_iff (waiters n : Nat) (hw : 0 < waiters) (count : Int) :
    Opens waiters n count ↔ count = n := by
  constructor
  · intro h
    by_contra hne
    obtain ⟨as, m, hrun, -, hlate⟩ := late_waits waiters n hne
    obtain ⟨bs, m', hmore, hstuck⟩ := (hrun.sound announces).exists_stuck announces
    have hreturned := h.returns (as ++ bs) m' (hrun.append hmore) hstuck (.inl ⟨0, hw⟩)
    have hpassed := hlate bs m' hmore ⟨0, hw⟩
    rw [hreturned] at hpassed
    cases hpassed
  · rintro rfl
    exact opens_of_eq waiters n

/-- The latch of `AsyncLogging`: `start` waits for its thread. -/
theorem latch_opens_start : Opens 1 1 1 :=
  (latch_opens_iff 1 1 (by decide) 1).mpr rfl

end MuduoServer
