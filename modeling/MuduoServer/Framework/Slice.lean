import Mathlib.Data.List.Basic
import Mathlib.Data.List.Induction
import Mathlib.Tactic.Ring

namespace MuduoServer.Slice

variable {α : Type*}

/-- The range `[i, j)` of a block of memory, when it lies inside the block. -/
def range? (xs : List α) (i j : Int) : Option (List α) :=
  if 0 ≤ i ∧ i ≤ j ∧ j ≤ xs.length then some ((xs.drop i.toNat).take (j - i).toNat) else none

/-- Copying `d` into a block of memory from position `i` on. -/
def overwrite (xs : List α) (i : Nat) (d : List α) : List α :=
  xs.take i ++ d ++ xs.drop (i + d.length)

/-- `std::copy` of `n` elements inside a block: one after the other, from the front. -/
def copyForward (xs : List α) (i dest : Nat) : Nat → List α
  | 0 => xs
  | n + 1 =>
    match xs[i]? with
    | none => xs
    | some x => copyForward (xs.set dest x) (i + 1) (dest + 1) n

/-- `n` elements copied inside a block one after the other, from the back, from position `i` to
`dest` and downwards. `none` is an access outside the block. -/
def copyBackward (xs : List α) (dest i : Nat) : Nat → Option (List α)
  | 0 => some xs
  | n + 1 => do
    let x ← xs[i]?
    if dest < xs.length then copyBackward (xs.set dest x) (dest - 1) (i - 1) n else none

theorem range?_eq_none (xs : List α) (i j : Int) (h : (xs.length : Int) < j) :
    range? xs i j = none := by
  simp only [range?, ite_eq_right_iff, reduceCtorEq, imp_false]
  omega

/-- A range between two positions of the middle part of a block. -/
theorem range?_middle (pre mid post : List α) (i j : Nat) (hij : i ≤ j) (hj : j ≤ mid.length) :
    range? (pre ++ mid ++ post) (pre.length + i : Nat) (pre.length + j : Nat) =
      some ((mid.take j).drop i) := by
  have hin : (0 : Int) ≤ (pre.length + i : Nat) ∧
      ((pre.length + i : Nat) : Int) ≤ (pre.length + j : Nat) ∧
      ((pre.length + j : Nat) : Int) ≤ (pre ++ mid ++ post).length := by
    simp only [List.length_append]
    omega
  have hlen : (((pre.length + j : Nat) : Int) - (pre.length + i : Nat)).toNat = j - i := by omega
  rw [range?, if_pos hin, hlen, Int.toNat_natCast, List.append_assoc, List.drop_append]
  simp only [List.drop_eq_nil_of_le (Nat.le_add_right _ _), List.nil_append,
    Nat.add_sub_cancel_left]
  rw [List.drop_append_of_le_length (by omega), List.take_append_of_le_length (by simp; omega),
    List.take_drop, Nat.add_sub_cancel' hij]

theorem range?_whole (pre mid post : List α) :
    range? (pre ++ mid ++ post) pre.length (pre.length + mid.length : Nat) = some mid := by
  simpa using range?_middle pre mid post 0 mid.length (Nat.zero_le _) (le_refl _)

theorem overwrite_length (xs d : List α) (i : Nat) (h : i + d.length ≤ xs.length) :
    (overwrite xs i d).length = xs.length := by
  simp only [overwrite, List.length_append, List.length_take, List.length_drop]
  omega

/-- A copy that goes on where one has ended. -/
theorem overwrite_append (xs d e : List α) (i : Nat) (hi : i ≤ xs.length) :
    overwrite (overwrite xs i d) (i + d.length) e = overwrite xs i (d ++ e) := by
  have hlen : (xs.take i ++ d).length = i + d.length := by
    rw [List.length_append, List.length_take_of_le hi]
  have htake : (overwrite xs i d).take (i + d.length) = xs.take i ++ d := by
    rw [overwrite]
    rw [← hlen, List.take_left]
  have hdrop : (overwrite xs i d).drop (i + d.length + e.length) =
      xs.drop (i + (d.length + e.length)) := by
    rw [overwrite]
    rw [← hlen, ← List.drop_drop, List.drop_left, List.drop_drop, hlen, Nat.add_assoc]
  conv_lhs => rw [overwrite]
  rw [htake, hdrop, overwrite]
  simp only [List.append_assoc, List.length_append]

/-- What is read from `r` up to the end of freshly copied bytes: what was there, and the copy. -/
theorem read_overwrite (xs d : List α) (r w : Nat) (hrw : r ≤ w) (hw : w ≤ xs.length) :
    ((overwrite xs w d).drop r).take (w + d.length - r) =
      (xs.drop r).take (w - r) ++ d := by
  have hlen : (xs.take w).length = w := by simp; omega
  rw [overwrite]
  rw [List.append_assoc, List.drop_append_of_le_length (by omega), List.take_append,
    List.drop_take]
  have hl : ((xs.drop r).take (w - r)).length = w - r := by simp; omega
  rw [List.take_of_length_le (by omega), hl,
    show w + d.length - r - (w - r) = d.length by omega, List.take_left]

theorem copyForward_length (xs : List α) (i dest n : Nat) :
    (copyForward xs i dest n).length = xs.length := by
  induction n generalizing xs i dest with
  | zero => rfl
  | succ n ih =>
    rw [copyForward]
    cases xs[i]? with
    | none => rfl
    | some x => exact (ih _ _ _).trans List.length_set

/-- Copying towards the front reads no element that was written before. -/
theorem copyForward_eq_overwrite (xs : List α) (i dest n : Nat) (hd : dest ≤ i)
    (h : i + n ≤ xs.length) :
    copyForward xs i dest n = overwrite xs dest ((xs.drop i).take n) := by
  induction n generalizing xs i dest with
  | zero => simp [copyForward, overwrite]
  | succ n ih =>
    have hi : i < xs.length := by omega
    have hdrop : (xs.set dest xs[i]).drop (i + 1) = xs.drop (i + 1) := by
      rw [List.drop_set, if_pos (by omega)]
    have hlen : ((xs.drop (i + 1)).take n).length = n := by simp; omega
    have hset : (xs.set dest xs[i]).take (dest + 1) = xs.take dest ++ [xs[i]] := by
      rw [List.take_set, List.take_succ_eq_append_getElem (by omega),
        List.set_append_right _ _ (by simp)]
      simp [Nat.min_eq_left (show dest ≤ xs.length by omega)]
    rw [copyForward, List.getElem?_eq_getElem hi]
    dsimp only
    rw [ih _ _ _ (by omega) (by rw [List.length_set]; omega), hdrop, List.drop_eq_getElem_cons hi,
      List.take_succ_cons]
    unfold overwrite
    rw [hset, List.length_cons, hlen, List.drop_set, if_pos (by omega)]
    simp only [List.append_assoc, List.singleton_append, Nat.add_assoc, Nat.add_comm 1 n]

/-- Behind the position of a copy, what was copied lies over the old bytes. -/
theorem overwrite_drop (xs d : List α) (i r : Nat) (hir : i ≤ r) (h : i + d.length ≤ xs.length) :
    (overwrite xs i d).drop r = overwrite (xs.drop r) 0 (d.drop (r - i)) := by
  have hi : (xs.take i).length = i := by simp; omega
  unfold overwrite
  rw [List.append_assoc, List.drop_append, List.drop_eq_nil_of_le (by omega), List.nil_append, hi,
    List.drop_append, List.drop_drop, List.take_zero, List.nil_append, List.drop_drop,
    List.length_drop]
  congr 2
  omega

/-- The first `m` bytes survive a copy over them exactly when they were its first `m` bytes. -/
theorem overwrite_take_eq_iff (xs d : List α) (m : Nat) (hm : m ≤ xs.length) :
    (overwrite xs 0 d).take m = xs.take m ↔ d.take m <+: xs.take m := by
  simp only [overwrite, List.take_zero, List.nil_append, Nat.zero_add]
  rw [List.take_append]
  constructor
  · intro h
    exact ⟨_, h⟩
  · intro ⟨e, he⟩
    have hlen := congrArg List.length he
    simp only [List.length_append, List.length_take] at hlen
    by_cases hd : m ≤ d.length
    · have hnil : e = [] := List.eq_nil_of_length_eq_zero (by omega)
      rw [Nat.sub_eq_zero_of_le hd, List.take_zero, List.append_nil, ← he, hnil, List.append_nil]
    · have htake : d.take m = d := List.take_of_length_le (by omega)
      have hrest : (xs.drop d.length).take (m - d.length) = (xs.take m).drop d.length := by
        rw [List.drop_take]
      rw [hrest, ← he, htake, List.drop_left]

/-- Moving the elements `b` towards the back by `k` places: no element is read that was written
before. -/
theorem copyBackward_append (a b rest : List α) {k : Nat} (hk : 0 < k) (hrest : k ≤ rest.length) :
    copyBackward (a ++ (b ++ rest)) (a.length + b.length + k - 1) (a.length + b.length - 1)
      b.length = some (a ++ ((b ++ rest).take k ++ (b ++ rest.drop k))) := by
  induction b using List.reverseRecOn generalizing rest with
  | nil =>
    rw [List.length_nil, copyBackward, List.nil_append, List.nil_append, List.take_append_drop]
  | append_singleton b x ih =>
    have hlen : (b ++ [x]).length = b.length + 1 := List.length_append
    have hread : (a ++ (b ++ [x] ++ rest))[a.length + (b.length + 1) - 1]? = some x := by
      rw [List.getElem?_append_right (by omega), List.append_assoc,
        List.getElem?_append_right (by omega)]
      have hzero : a.length + (b.length + 1) - 1 - a.length - b.length = 0 := by omega
      rw [hzero]
      rfl
    have hset : (a ++ (b ++ [x] ++ rest)).set (a.length + (b.length + 1) + k - 1) x =
        a ++ (b ++ (x :: rest).set k x) := by
      rw [List.set_append_right _ _ (by omega), List.append_assoc,
        List.set_append_right _ _ (by omega)]
      have hk' : a.length + (b.length + 1) + k - 1 - a.length - b.length = k := by omega
      rw [hk']
      rfl
    have htake : (b ++ (x :: rest).set k x).take k = (b ++ [x] ++ rest).take k := by
      rw [List.append_assoc, List.take_append, List.take_append,
        List.take_set_of_le (Nat.sub_le _ _)]
      rfl
    have hdrop : ((x :: rest).set k x).drop k = x :: rest.drop k := by
      have hlt : k < ((x :: rest).set k x).length := by
        rw [List.length_set, List.length_cons]
        omega
      rw [List.drop_eq_getElem_cons hlt, List.getElem_set_self, List.drop_set_of_lt (by omega)]
      rfl
    rw [hlen, copyBackward, hread, Option.bind_eq_bind, Option.bind_some, if_pos (by
      simp only [List.length_append, List.length_singleton]
      omega), hset]
    have hih := ih ((x :: rest).set k x) (by
      rw [List.length_set, List.length_cons]
      omega)
    rw [htake, hdrop] at hih
    have hdest : a.length + (b.length + 1) + k - 1 - 1 = a.length + b.length + k - 1 := by omega
    have hsrc : a.length + (b.length + 1) - 1 - 1 = a.length + b.length - 1 := by omega
    rw [hdest, hsrc, hih]
    simp only [List.append_assoc, List.singleton_append]

end MuduoServer.Slice
