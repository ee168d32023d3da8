import MuduoServer.Base.Bytes
import Mathlib.Data.List.Induction
import Mathlib.Data.List.TakeWhile

namespace MuduoServer

/-- A `fs::path` as the names between its slashes; absolute, and free of symbolic links. -/
abbrev Path := List Bytes

def slash : UInt8 := 47

namespace Path

/-- `fs::path::string` of a path that starts at no root. -/
def string (p : Path) : Bytes := [slash].intercalate p

/-- `fs::relative(p, base)`: behind the names they share, one `..` for each that `base` has left. -/
def relative : Path → Path → Path
  | n :: p, b :: base =>
    if n = b then relative p base else (b :: base).map (fun _ => bytes "..") ++ n :: p
  | p, base =>
    match base.map (fun _ => bytes "..") ++ p with
    | [] => [bytes "."]
    | q => q

/-- `fs::path(s).relative_path()`: the names in a string, less the slashes it starts with. A slash
at the end is kept, as an empty last name. -/
def components (s : Bytes) : Path :=
  let names := (s.dropWhile (· = slash)).splitOn slash
  names.dropLast.filter (· ≠ []) ++ names.getLast?.toList

/-- `p / q.filename()`. -/
def joinFilename (p q : Path) : Path := p ++ [q.getLastD []]

/-- A path to something below a directory, as it is written when it has no superfluous slash. -/
structure Canonical (p : Path) : Prop where
  nonempty : p ≠ []
  named : ∀ n ∈ p, n ≠ [] ∧ slash ∉ n

theorem relative_append (root p : Path) (hp : p ≠ []) : relative (root ++ p) root = p := by
  induction root with
  | nil =>
    obtain ⟨n, p, rfl⟩ := List.exists_cons_of_ne_nil hp
    simp [relative]
  | cons b root ih => simpa [relative] using ih

variable {p : Path}

theorem string_head (hp : Canonical p) : ∃ c cs, string p = c :: cs ∧ c ≠ slash := by
  obtain ⟨n, p, rfl⟩ := List.exists_cons_of_ne_nil hp.nonempty
  obtain ⟨hne, hns⟩ := hp.named n (by simp)
  obtain ⟨c, cs, rfl⟩ := List.exists_cons_of_ne_nil hne
  have hc : c ≠ slash := fun h => hns (by simp [h])
  cases p with
  | nil => exact ⟨c, cs, List.intercalate_singleton, hc⟩
  | cons m p => exact ⟨c, _, List.intercalate_cons_cons, hc⟩

/-- The names of a canonical path are read back from its string. -/
theorem components_string (hp : Canonical p) : components (slash :: string p) = p := by
  obtain ⟨c, cs, hs, hc⟩ := string_head hp
  have hdrop : (slash :: string p).dropWhile (· = slash) = string p := by
    simp [hs, hc]
  have hsplit : (string p).splitOn slash = p :=
    List.splitOn_intercalate slash (fun n hn => (hp.named n hn).2) hp.nonempty
  have hkeep : p.dropLast.filter (· ≠ []) = p.dropLast := by
    apply List.filter_eq_self.mpr
    intro n hn
    simpa using (hp.named n (List.dropLast_subset _ hn)).1
  obtain ⟨q, n, rfl⟩ : ∃ q n, p = q ++ [n] :=
    ⟨p.dropLast, p.getLast hp.nonempty, (List.dropLast_append_getLast hp.nonempty).symm⟩
  simp only [components, hdrop, hsplit, hkeep]
  simp

section Normal

/-- One more name of a path, with `..` for the directory above. -/
def enter (p : Path) (n : Bytes) : Path :=
  if n = [] ∨ n = bytes "." then p else if n = bytes ".." then p.dropLast else p ++ [n]

/-- `fs::path::lexically_normal` of an absolute path; `/..` is `/`. -/
def normal (p : Path) : Path := p.foldl enter []

/-- At or below the directory `root`. -/
def Within (root p : Path) : Prop := root.normal <+: p.normal

instance (root p : Path) : Decidable (Within root p) :=
  inferInstanceAs (Decidable (root.normal <+: p.normal))

/-- Where a path leads from wherever it starts: so many directories up, and down to the names. -/
structure Climb where
  up : Nat
  down : Path

namespace Climb

def step (w : Climb) (n : Bytes) : Climb :=
  if n = [] ∨ n = bytes "." then w
  else if n = bytes ".." then (if w.down = [] then ⟨w.up + 1, []⟩ else ⟨w.up, w.down.dropLast⟩)
  else ⟨w.up, w.down ++ [n]⟩

def apply (w : Climb) (p : Path) : Path := p.take (p.length - w.up) ++ w.down

theorem apply_step (w : Climb) (p : Path) (n : Bytes) :
    (w.step n).apply p = (w.apply p).enter n := by
  rw [step, enter]
  split_ifs with hskip hup hdown
  · rfl
  · have hone : p.length - (w.up + 1) = p.length - w.up - 1 := (Nat.sub_sub _ _ _).symm
    simp only [Climb.apply, hdown, List.append_nil, hone, List.dropLast_eq_take, List.take_take,
      List.length_take]
    congr 1
    omega
  · rw [Climb.apply, Climb.apply, List.dropLast_append_of_ne_nil hdown]
  · rw [Climb.apply, Climb.apply, List.append_assoc]

end Climb

def climb (p : Path) : Climb := p.foldl Climb.step ⟨0, []⟩

theorem normal_append (root p : Path) : (root ++ p).normal = p.climb.apply root.normal := by
  rw [normal, List.foldl_append, ← normal, climb]
  induction p using List.reverseRecOn with
  | nil => simp [Climb.apply]
  | append_singleton p n ih =>
    rw [List.foldl_append, ih, List.foldl_append]
    exact (Climb.apply_step _ _ n).symm

/-- A path leads out of a directory unless it goes straight back by the names that it left. -/
theorem within_append_iff (root p : Path) :
    Within root (root ++ p) ↔
      root.normal.drop (root.normal.length - p.climb.up) <+: p.climb.down := by
  rw [Within, normal_append, Climb.apply]
  conv_lhs => lhs; rw [← List.take_append_drop (root.normal.length - p.climb.up) root.normal]
  exact List.prefix_append_right_inj _

/-- A path without `..` leads down. -/
theorem climb_up_eq_zero {p : Path} (hp : bytes ".." ∉ p) : p.climb.up = 0 := by
  induction p using List.reverseRecOn with
  | nil => rfl
  | append_singleton p n ih =>
    rw [List.mem_append, not_or, List.mem_singleton] at hp
    rw [climb, List.foldl_append, ← climb, List.foldl_cons, List.foldl_nil, Climb.step,
      if_neg (Ne.symm hp.2)]
    split_ifs
    · exact ih hp.1
    · exact ih hp.1

end Normal

end Path

end MuduoServer
