import Mathlib.Algebra.Group.Action.Defs
import Mathlib.Algebra.Order.BigOperators.Group.Finset

namespace MuduoServer

/-- The counts of members of some groups. -/
abbrev Counts (ι : Type*) := ι → Nat

namespace Counts

variable {ι : Type*} [Fintype ι]

/-- A member joins a group that has at most `d` members more than any other, or members leave. -/
inductive Step [DecidableEq ι] (d : Nat) : Counts ι → Counts ι → Prop
  | join (c : Counts ι) (j : ι) (h : ∀ i, c j ≤ c i + d) :
      Step d c (Function.update c j (c j + 1))
  | leave (c c' : Counts ι) (h : ∀ i, c' i ≤ c i) : Step d c c'

/-- No group has more than its share of `peak` members, up to what the choices are off. -/
def Balanced (d peak : Nat) (c : Counts ι) : Prop :=
  ∀ j, Fintype.card ι * c j ≤ peak + (Fintype.card ι - 1) * (d + 1)

variable {d peak : Nat} {c c' : Counts ι} {j : ι}

/-- A group that has at most `d` members more than any other has its share of all of them. -/
theorem card_mul_le (h : ∀ i, i ≠ j → c j ≤ c i + d) :
    Fintype.card ι * c j ≤ ∑ i, c i + (Fintype.card ι - 1) * d := by
  classical
  have hrest : ∑ i ∈ Finset.univ.erase j, c j ≤ ∑ i ∈ Finset.univ.erase j, (c i + d) :=
    Finset.sum_le_sum fun i hi => h i (Finset.ne_of_mem_erase hi)
  have hcard : (Finset.univ.erase j).card = Fintype.card ι - 1 :=
    Finset.card_erase_of_mem (Finset.mem_univ j)
  rw [Finset.sum_add_distrib, Finset.sum_const, Finset.sum_const, hcard, smul_eq_mul,
    smul_eq_mul] at hrest
  have hpos : 0 < Fintype.card ι := Fintype.card_pos_iff.mpr ⟨j⟩
  calc Fintype.card ι * c j
      = c j + (Fintype.card ι - 1) * c j := by
        rw [Nat.add_comm, ← Nat.succ_mul, Nat.succ_eq_add_one, Nat.sub_add_cancel hpos]
    _ ≤ c j + (∑ i ∈ Finset.univ.erase j, c i + (Fintype.card ι - 1) * d) :=
        Nat.add_le_add_left hrest _
    _ = ∑ i, c i + (Fintype.card ι - 1) * d := by
        rw [← Nat.add_assoc, Finset.add_sum_erase _ _ (Finset.mem_univ j)]

theorem balanced_zero : Balanced d peak (fun _ : ι => 0) := by
  intro j
  rw [Nat.mul_zero]
  exact Nat.zero_le _

/-- The choices keep the balance, however many members leave in between. -/
theorem Balanced.step [DecidableEq ι] (h : Balanced d peak c) (hs : Step d c c')
    (hpeak : ∑ i, c' i ≤ peak) : Balanced d peak c' := by
  intro k
  cases hs with
  | join j hleast =>
    by_cases hk : k = j
    · subst hk
      have hshare : Fintype.card ι * Function.update c k (c k + 1) k ≤
          ∑ i, Function.update c k (c k + 1) i + (Fintype.card ι - 1) * (d + 1) := by
        apply card_mul_le
        intro i hi
        have hle := hleast i
        rw [Function.update_self, Function.update_of_ne hi]
        omega
      exact hshare.trans (Nat.add_le_add_right hpeak _)
    · rw [Function.update_of_ne hk]
      exact h k
  | leave _ hle => exact (Nat.mul_le_mul_left _ (hle k)).trans (h k)

end Counts

end MuduoServer
