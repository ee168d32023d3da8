import Mathlib.Algebra.BigOperators.Group.List.Basic
import Mathlib.Algebra.Order.Ring.Nat
import Mathlib.Data.Stream.Init

namespace MuduoServer

/-! A fixed amount that is carried in parts, of which any may be empty. -/

namespace Transfer

/-- What the first `n` parts carry. -/
def carried (parts : Stream' Nat) (n : Nat) : Nat := (parts.take n).sum

/-- Finitely many parts carry the whole amount. -/
def Completes (parts : Stream' Nat) (total : Nat) : Prop := ∃ n, total ≤ carried parts n

/-- From some part on all are empty, and those before it carry less than the whole. -/
def Stalls (parts : Stream' Nat) (total : Nat) : Prop :=
  ∃ n, carried parts n < total ∧ ∀ i, n ≤ i → parts.get i = 0

variable {parts : Stream' Nat} {total n m : Nat}

theorem carried_succ (parts : Stream' Nat) (n : Nat) :
    carried parts (n + 1) = carried parts n + parts.get n := by
  rw [carried]
  rw [Stream'.take_succ', List.sum_append, List.sum_singleton]
  rfl

theorem carried_mono (h : n ≤ m) : carried parts n ≤ carried parts m := by
  induction m, h using Nat.le_induction with
  | base => exact le_refl _
  | succ m _ ih =>
    rw [carried_succ]
    omega

/-- Empty parts add nothing. -/
theorem carried_le_of_empty (hempty : ∀ i, n ≤ i → parts.get i = 0) (m : Nat) :
    carried parts m ≤ carried parts n := by
  rcases Nat.le_total m n with hle | hle
  · exact carried_mono hle
  · induction m, hle using Nat.le_induction with
    | base => exact le_refl _
    | succ m hle ih =>
      rw [carried_succ, hempty m hle]
      exact ih

/-- Parts that are not empty again and again carry any amount: each adds at least one. -/
theorem completes_of_frequently (h : ∀ n, ∃ i, n ≤ i ∧ parts.get i ≠ 0) (total : Nat) :
    Completes parts total := by
  induction total with
  | zero => exact ⟨0, Nat.zero_le _⟩
  | succ total ih =>
    obtain ⟨n, hn⟩ := ih
    obtain ⟨i, hni, hi⟩ := h n
    refine ⟨i + 1, ?_⟩
    have hmono : carried parts n ≤ carried parts i := carried_mono hni
    rw [carried_succ]
    omega

theorem completes_iff : Completes parts total ↔ ¬Stalls parts total := by
  constructor
  · rintro ⟨m, hm⟩ ⟨n, hlt, hempty⟩
    have hle := carried_le_of_empty hempty m
    omega
  · intro hstalls
    by_contra hnot
    refine hnot (completes_of_frequently ?_ total)
    intro n
    by_contra hempty
    push Not at hempty
    rw [Completes] at hnot
    push Not at hnot
    exact hstalls ⟨n, hnot n, hempty⟩

end Transfer

end MuduoServer
