import Mathlib.Data.List.Basic
import Mathlib.Order.Defs.Unbundled

namespace MuduoServer

/-- The elements of a `std::set` in the order that its comparator gives them. -/
structure OrderedSet {α : Type*} (lt : α → α → Prop) where
  elems : List α
  sorted : elems.Pairwise lt

namespace OrderedSet

section List

variable {α : Type*} (lt : α → α → Prop) [DecidableRel lt]

/-- An element that is equivalent to one of the list is not put in. -/
def insertList (x : α) : List α → List α
  | [] => [x]
  | y :: ys => if lt x y then x :: y :: ys else if lt y x then y :: insertList x ys else y :: ys

variable [IsStrictTotalOrder α lt] {lt} {x y : α} {l : List α}

theorem mem_insertList : y ∈ insertList lt x l ↔ y = x ∨ y ∈ l := by
  induction l with
  | nil => simp [insertList]
  | cons z l ih =>
    rw [insertList]
    split_ifs with hxz hzx
    · simp
    · simp only [List.mem_cons, ih]
      tauto
    · have heq : x = z := by
        rcases trichotomous_of lt x z with h | h | h
        · exact absurd h hxz
        · exact h
        · exact absurd h hzx
      simp [heq]

theorem insertList_sorted (h : l.Pairwise lt) : (insertList lt x l).Pairwise lt := by
  induction l with
  | nil => simp [insertList]
  | cons z l ih =>
    obtain ⟨hz, hl⟩ := List.pairwise_cons.mp h
    rw [insertList]
    split_ifs with hxz hzx
    · refine List.pairwise_cons.mpr ⟨?_, h⟩
      intro w hw
      rcases List.mem_cons.mp hw with rfl | hw
      · exact hxz
      · exact trans_of lt hxz (hz w hw)
    · refine List.pairwise_cons.mpr ⟨?_, ih hl⟩
      intro w hw
      rcases mem_insertList.mp hw with rfl | hw
      · exact hzx
      · exact hz w hw
    · exact h

/-- On a sorted list the elements below a bound come first. -/
theorem mem_takeWhile_lt (h : l.Pairwise lt) :
    y ∈ l.takeWhile (fun z => lt z x) ↔ y ∈ l ∧ lt y x := by
  induction l with
  | nil => simp
  | cons z l ih =>
    obtain ⟨hz, hl⟩ := List.pairwise_cons.mp h
    by_cases hzx : lt z x
    · rw [List.takeWhile_cons_of_pos (by simpa using hzx), List.mem_cons, List.mem_cons, ih hl]
      constructor
      · intro hy
        rcases hy with rfl | ⟨hy, hyx⟩
        · exact ⟨.inl rfl, hzx⟩
        · exact ⟨.inr hy, hyx⟩
      · intro ⟨hy, hyx⟩
        exact hy.imp_right fun hy => ⟨hy, hyx⟩
    · rw [List.takeWhile_cons_of_neg (by simpa using hzx)]
      constructor
      · intro hy
        cases hy
      · intro ⟨hy, hyx⟩
        rcases List.mem_cons.mp hy with rfl | hy
        · exact absurd hyx hzx
        · exact absurd (trans_of lt (hz y hy) hyx) hzx

theorem mem_dropWhile_lt (h : l.Pairwise lt) :
    y ∈ l.dropWhile (fun z => lt z x) ↔ y ∈ l ∧ ¬ lt y x := by
  induction l with
  | nil => simp
  | cons z l ih =>
    obtain ⟨hz, hl⟩ := List.pairwise_cons.mp h
    by_cases hzx : lt z x
    · rw [List.dropWhile_cons_of_pos (by simpa using hzx), List.mem_cons, ih hl]
      constructor
      · intro ⟨hy, hyx⟩
        exact ⟨.inr hy, hyx⟩
      · intro ⟨hy, hyx⟩
        rcases hy with rfl | hy
        · exact absurd hzx hyx
        · exact ⟨hy, hyx⟩
    · rw [List.dropWhile_cons_of_neg (by simpa using hzx)]
      constructor
      · intro hy
        refine ⟨hy, fun hyx => ?_⟩
        rcases List.mem_cons.mp hy with rfl | hy
        · exact hzx hyx
        · exact hzx (trans_of lt (hz y hy) hyx)
      · exact fun hy => hy.1

end List

variable {α : Type*} {lt : α → α → Prop}

instance : Membership α (OrderedSet lt) := ⟨fun s x => x ∈ s.elems⟩

instance [DecidableEq α] (s : OrderedSet lt) (x : α) : Decidable (x ∈ s) :=
  inferInstanceAs (Decidable (x ∈ s.elems))

def empty (lt : α → α → Prop) : OrderedSet lt := ⟨[], .nil⟩

/-- `begin()`. -/
def first? (s : OrderedSet lt) : Option α := s.elems.head?

variable {s : OrderedSet lt} {x y : α}

theorem notMem_empty (x : α) : x ∉ empty lt := List.not_mem_nil

theorem first?_mem (h : s.first? = some x) : x ∈ s := List.mem_of_mem_head? h

/-- No element comes before the first one. -/
theorem first?_le (h : s.first? = some x) (hy : y ∈ s) : y = x ∨ lt x y := by
  have hy' : y ∈ s.elems := hy
  have hs := s.sorted
  rw [first?] at h
  cases hl : s.elems with
  | nil =>
    rw [hl] at h
    cases h
  | cons z l =>
    rw [hl] at h hy' hs
    cases h
    rcases List.mem_cons.mp hy' with rfl | hm
    · exact .inl rfl
    · exact .inr (List.rel_of_pairwise_cons hs hm)

theorem first?_eq_none : s.first? = none ↔ ∀ y, y ∉ s := by
  rw [first?, List.head?_eq_none_iff, List.eq_nil_iff_forall_not_mem]
  rfl

variable [IsStrictTotalOrder α lt]

theorem nodup (s : OrderedSet lt) : s.elems.Nodup := by
  apply s.sorted.imp
  intro x y h heq
  subst heq
  exact irrefl_of lt x h

variable [DecidableRel lt]

def insert (s : OrderedSet lt) (x : α) : OrderedSet lt :=
  ⟨insertList lt x s.elems, insertList_sorted s.sorted⟩

/-- `erase(x)`, which takes out the element that is equivalent to `x`. -/
def erase (s : OrderedSet lt) (x : α) : OrderedSet lt :=
  ⟨s.elems.filter fun y => lt x y ∨ lt y x, s.sorted.filter _⟩

/-- The elements before `lower_bound(x)`. -/
def below (s : OrderedSet lt) (x : α) : List α := s.elems.takeWhile fun y => lt y x

/-- What is left when they are erased. -/
def notBelow (s : OrderedSet lt) (x : α) : OrderedSet lt :=
  ⟨s.elems.dropWhile fun y => lt y x, s.sorted.sublist (List.dropWhile_sublist _)⟩

theorem mem_insert : y ∈ s.insert x ↔ y = x ∨ y ∈ s := mem_insertList

theorem mem_erase : y ∈ s.erase x ↔ y ∈ s ∧ y ≠ x := by
  have hne : (lt x y ∨ lt y x) ↔ y ≠ x := by
    constructor
    · intro h heq
      subst heq
      exact irrefl_of lt y (h.elim id id)
    · intro h
      rcases trichotomous_of lt x y with hlt | heq | hlt
      · exact .inl hlt
      · exact absurd heq.symm h
      · exact .inr hlt
  show y ∈ s.elems.filter _ ↔ y ∈ s.elems ∧ y ≠ x
  rw [List.mem_filter, decide_eq_true_iff, hne]

theorem mem_below : y ∈ s.below x ↔ y ∈ s ∧ lt y x := mem_takeWhile_lt s.sorted

theorem mem_notBelow : y ∈ s.notBelow x ↔ y ∈ s ∧ ¬ lt y x := mem_dropWhile_lt s.sorted

theorem below_nodup (s : OrderedSet lt) (x : α) : (s.below x).Nodup :=
  s.nodup.sublist (List.takeWhile_sublist _)

end OrderedSet

end MuduoServer
