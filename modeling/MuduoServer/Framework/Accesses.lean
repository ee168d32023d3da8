import MuduoServer.Framework.Slice

namespace MuduoServer

/-- An access to a place in a block of memory. -/
inductive Access
  | load (p : Nat)
  | store (p : Nat)
  deriving DecidableEq, Repr

namespace Access

variable {α : Type*}

/-- The block after the accesses: each one stores what was loaded last. -/
def exec (xs : List α) : Option α → List Access → List α
  | _, [] => xs
  | _, load p :: as => exec xs xs[p]? as
  | none, store _ :: _ => xs
  | some x, store p :: as => exec (xs.set p x) (some x) as

/-- The accesses of `std::copy` inside a block. -/
def copy (i dest : Nat) : Nat → List Access
  | 0 => []
  | n + 1 => load i :: store dest :: copy (i + 1) (dest + 1) n

def loads (i : Nat) : Nat → List Access
  | 0 => []
  | n + 1 => load i :: loads (i + 1) n

/-- No place is loaded from after it was stored to. -/
def LoadsFirst (as : List Access) : Prop :=
  as.Pairwise fun a a' => ∀ p, a = store p → a' ≠ load p

theorem exec_copy (xs : List α) (r : Option α) (i dest n : Nat) :
    exec xs r (copy i dest n) = Slice.copyForward xs i dest n := by
  induction n generalizing xs r i dest with
  | zero => rfl
  | succ n ih =>
    rw [copy, exec, Slice.copyForward]
    cases xs[i]? with
    | none => rfl
    | some x => exact ih _ _ _ _

/-- A place that is not stored to keeps what it holds. -/
theorem exec_getElem? (xs : List α) (r : Option α) (as : List Access) (p : Nat)
    (h : store p ∉ as) : (exec xs r as)[p]? = xs[p]? := by
  induction as generalizing xs r with
  | nil => rfl
  | cons a as ih =>
    have hrest : store p ∉ as := fun hmem => h (by simp [hmem])
    cases a with
    | load i => exact ih _ _ hrest
    | store i =>
      cases r with
      | none => rfl
      | some x =>
        have hne : i ≠ p := by
          rintro rfl
          exact h (by simp)
        rw [exec, ih _ _ hrest, List.getElem?_set_ne hne]

theorem store_mem_copy (i dest n p : Nat) : store p ∈ copy i dest n ↔ dest ≤ p ∧ p < dest + n := by
  induction n generalizing i dest with
  | zero =>
    simp only [copy, List.not_mem_nil, false_iff]
    omega
  | succ n ih =>
    simp only [copy, List.mem_cons, reduceCtorEq, false_or, store.injEq, ih]
    omega

theorem load_mem_copy (i dest n p : Nat) : load p ∈ copy i dest n ↔ i ≤ p ∧ p < i + n := by
  induction n generalizing i dest with
  | zero =>
    simp only [copy, List.not_mem_nil, false_iff]
    omega
  | succ n ih =>
    simp only [copy, List.mem_cons, reduceCtorEq, false_or, load.injEq, ih]
    omega

theorem load_mem_loads (i n p : Nat) : load p ∈ loads i n ↔ i ≤ p ∧ p < i + n := by
  induction n generalizing i with
  | zero =>
    simp only [loads, List.not_mem_nil, false_iff]
    omega
  | succ n ih =>
    simp only [loads, List.mem_cons, load.injEq, ih]
    omega

theorem loadsFirst_append {as bs : List Access} : LoadsFirst (as ++ bs) ↔
    LoadsFirst as ∧ LoadsFirst bs ∧ ∀ p, store p ∈ as → load p ∉ bs := by
  rw [LoadsFirst, List.pairwise_append]
  refine and_congr_right fun _ => and_congr_right fun _ => ?_
  constructor
  · intro h p hs hl
    exact h _ hs _ hl p rfl rfl
  · intro h a ha a' ha' p hs hl
    exact h p (hs ▸ ha) (hl ▸ ha')

theorem loadsFirst_loads (i n : Nat) : LoadsFirst (loads i n) := by
  induction n generalizing i with
  | zero => exact .nil
  | succ n ih => exact .cons (fun a _ p hs => absurd hs (by simp)) (ih _)

/-- Copying towards the front. -/
theorem loadsFirst_copy {i dest : Nat} (h : dest ≤ i) (n : Nat) : LoadsFirst (copy i dest n) := by
  induction n generalizing i dest with
  | zero => exact .nil
  | succ n ih =>
    refine .cons (fun a _ p hs => absurd hs (by simp)) (.cons ?_ (ih (by omega)))
    intro a ha p hs hl
    obtain rfl : dest = p := by simpa using hs
    rw [hl, load_mem_copy] at ha
    omega

/-- Loads after a copy towards the front, from a place at its target or behind: there are none, or
the copy ends before them. -/
theorem loadsFirst_copy_loads_iff {i dest p : Nat} (hi : dest ≤ i) (hp : dest ≤ p) (n m : Nat) :
    LoadsFirst (copy i dest n ++ loads p m) ↔ m = 0 ∨ dest + n ≤ p := by
  rw [loadsFirst_append, and_iff_right (loadsFirst_copy hi n),
    and_iff_right (loadsFirst_loads p m)]
  simp only [store_mem_copy, load_mem_loads]
  constructor
  · intro h
    by_contra hno
    exact h p (by omega) (by omega)
  · intro h k hk
    omega

/-- Loads that come before any store to their places see what the block held at first. -/
theorem LoadsFirst.loads_eq {xs : List α} {r : Option α} {as : List Access} {p m : Nat}
    (h : LoadsFirst (as ++ loads p m)) :
    ((exec xs r as).drop p).take m = (xs.drop p).take m := by
  have hkept := (loadsFirst_append.mp h).2.2
  apply List.ext_getElem?
  intro k
  rw [List.getElem?_take, List.getElem?_take]
  split_ifs with hk
  · rw [List.getElem?_drop, List.getElem?_drop, exec_getElem?]
    intro hs
    exact hkept _ hs ((load_mem_loads p m _).mpr (by omega))
  · rfl

end Access

end MuduoServer
