import MuduoServer.Base.Path
import Mathlib.Data.List.AList

namespace MuduoServer

/-- A tree of directories, with all that are between one of them and the static path. -/
structure IsTree (root : Path) (dirs : AList (fun _ : Int => Path)) : Prop where
  below : ∀ wd p, dirs.lookup wd = some p → root <+: p
  unique : ∀ wd wd' p, dirs.lookup wd = some p → dirs.lookup wd' = some p → wd = wd'
  closed : ∀ wd p n, dirs.lookup wd = some (p ++ [n]) → p ++ [n] ≠ root →
    ∃ wd', dirs.lookup wd' = some p

/-- The directories after what was at or below `old` went to `new`. -/
def relocate (old new : Path) (dirs : AList (fun _ : Int => Path)) :
    AList (fun _ : Int => Path) :=
  ⟨dirs.entries.map (.map id fun _ p => if old <+: p then new ++ p.drop old.length else p),
    dirs.nodupKeys.map₂ _ _⟩

variable {root : Path} {dirs : AList (fun _ : Int => Path)} {p q : Path} {n : Bytes}

theorem lookup_relocate (old new : Path) (dirs : AList (fun _ : Int => Path)) (wd : Int) :
    (relocate old new dirs).lookup wd = (dirs.lookup wd).map fun p =>
      if old <+: p then new ++ p.drop old.length else p :=
  List.dlookup_map₂ wd

theorem relocate_cases {old new a : Path} {wd : Int}
    (h : (relocate old new dirs).lookup wd = some a) :
    (∃ r, dirs.lookup wd = some (old ++ r) ∧ a = new ++ r) ∨
      (¬ old <+: a ∧ dirs.lookup wd = some a) := by
  rw [lookup_relocate] at h
  obtain ⟨b, hb, rfl⟩ := Option.map_eq_some_iff.mp h
  split_ifs with hin
  · obtain ⟨r, rfl⟩ := hin
    exact .inl ⟨r, hb, by rw [List.drop_left]⟩
  · exact .inr ⟨hin, hb⟩

theorem relocate_stays {old a : Path} {wd : Int} (new : Path) (hout : ¬ old <+: a)
    (h : dirs.lookup wd = some a) : (relocate old new dirs).lookup wd = some a := by
  rw [lookup_relocate, h, Option.map_some, if_neg hout]

theorem relocate_goes {old r : Path} {wd : Int} (new : Path)
    (h : dirs.lookup wd = some (old ++ r)) :
    (relocate old new dirs).lookup wd = some (new ++ r) := by
  rw [lookup_relocate, h, Option.map_some, if_pos (List.prefix_append old r), List.drop_left]

theorem IsTree.ne_root {wd : Int} (ht : IsTree root dirs) (hp : dirs.lookup wd = some p)
    (r : Path) : p ++ n :: r ≠ root := by
  intro heq
  have hle := (ht.below wd p hp).length_le
  rw [← heq, List.length_append, List.length_cons] at hle
  omega

/-- A directory above one of the tree, and not above the static path, is one of the tree. -/
theorem IsTree.ancestor {wd : Int} (ht : IsTree root dirs) (hq : root <+: q) (r : Path)
    (hlook : dirs.lookup wd = some (q ++ r)) : ∃ wd', dirs.lookup wd' = some q := by
  induction r using List.reverseRecOn generalizing wd with
  | nil => exact ⟨wd, by rwa [List.append_nil] at hlook⟩
  | append_singleton r n ih =>
    rw [← List.append_assoc] at hlook
    obtain ⟨wd', hwd'⟩ := ht.closed wd (q ++ r) n hlook (by
      intro heq
      have hle := hq.length_le
      rw [← heq, List.length_append, List.length_append, List.length_singleton] at hle
      omega)
    exact ih hwd'

theorem IsTree.insert {wd wd' : Int} (ht : IsTree root dirs) (hp : dirs.lookup wd = some p)
    (hnew : wd' ∉ dirs) (hfree : ∀ w, dirs.lookup w ≠ some (p ++ [n])) :
    IsTree root (dirs.insert wd' (p ++ [n])) := by
  have hlook : ∀ w q, (dirs.insert wd' (p ++ [n])).lookup w = some q →
      (w = wd' ∧ q = p ++ [n]) ∨ (w ≠ wd' ∧ dirs.lookup w = some q) := by
    intro w q hw
    by_cases heq : w = wd'
    · rw [heq, AList.lookup_insert] at hw
      exact .inl ⟨heq, (Option.some.inj hw).symm⟩
    · rw [AList.lookup_insert_ne heq] at hw
      exact .inr ⟨heq, hw⟩
  have hold : ∀ w q, dirs.lookup w = some q →
      (dirs.insert wd' (p ++ [n])).lookup w = some q := by
    intro w q hw
    rw [AList.lookup_insert_ne, hw]
    rintro rfl
    exact hnew (AList.lookup_isSome.mp (by rw [hw]; rfl))
  refine ⟨?_, ?_, ?_⟩
  · intro w q hw
    rcases hlook w q hw with ⟨-, rfl⟩ | ⟨-, hw⟩
    · exact (ht.below wd p hp).trans (List.prefix_append p [n])
    · exact ht.below w q hw
  · intro w w' q hw hw'
    rcases hlook w q hw with ⟨rfl, rfl⟩ | ⟨-, hw⟩
    · rcases hlook w' _ hw' with ⟨rfl, -⟩ | ⟨-, hw'⟩
      · rfl
      · exact absurd hw' (hfree w')
    · rcases hlook w' _ hw' with ⟨-, rfl⟩ | ⟨-, hw'⟩
      · exact absurd hw (hfree w)
      · exact ht.unique w w' q hw hw'
  · intro w q m hw hne
    rcases hlook w _ hw with ⟨-, heq⟩ | ⟨-, hw⟩
    · rw [List.append_inj_left' heq rfl]
      exact ⟨wd, hold wd p hp⟩
    · obtain ⟨w', hw'⟩ := ht.closed w q m hw hne
      exact ⟨w', hold w' q hw'⟩

/-- What is below the directory that gets another name goes with it, and all else stays. -/
theorem IsTree.relocate {wd wd' : Int} {m : Bytes} (ht : IsTree root dirs)
    (hp : dirs.lookup wd = some p) (hq : dirs.lookup wd' = some q)
    (hfree : ∀ w, dirs.lookup w ≠ some (q ++ [m])) (hinto : ¬ p ++ [n] <+: q ++ [m]) :
    IsTree root (MuduoServer.relocate (p ++ [n]) (q ++ [m]) dirs) := by
  have hrootq : root <+: q ++ [m] := (ht.below wd' q hq).trans (List.prefix_append q [m])
  refine ⟨?_, ?_, ?_⟩
  · intro w a hw
    rcases relocate_cases hw with ⟨r, -, rfl⟩ | ⟨-, hw⟩
    · exact hrootq.trans (List.prefix_append _ r)
    · exact ht.below w a hw
  · intro w w' a hw hw'
    rcases relocate_cases hw with ⟨r, hr, rfl⟩ | ⟨-, hout⟩
    · rcases relocate_cases hw' with ⟨r', hr', heq⟩ | ⟨-, hout'⟩
      · rw [← List.append_cancel_left heq] at hr'
        exact ht.unique w w' _ hr hr'
      · obtain ⟨w'', hw''⟩ := ht.ancestor hrootq r hout'
        exact absurd hw'' (hfree w'')
    · rcases relocate_cases hw' with ⟨r', hr', rfl⟩ | ⟨-, hout'⟩
      · obtain ⟨w'', hw''⟩ := ht.ancestor hrootq r' hout
        exact absurd hw'' (hfree w'')
      · exact ht.unique w w' a hout hout'
  · intro w a k hw hne
    rcases relocate_cases hw with ⟨r, hr, heq⟩ | ⟨hout, hw⟩
    · rcases List.eq_nil_or_concat r with rfl | ⟨r, k', rfl⟩
      · rw [List.append_nil] at heq
        rw [List.append_inj_left' heq rfl]
        have hout : ¬ p ++ [n] <+: q := fun h => hinto (h.trans (List.prefix_append q [m]))
        exact ⟨wd', relocate_stays _ hout hq⟩
      · rw [List.concat_eq_append, ← List.append_assoc] at hr heq
        rw [List.append_inj_left' heq rfl]
        obtain ⟨w', hw'⟩ := ht.closed w _ k' hr (by
          rw [List.append_assoc, List.append_assoc]
          exact ht.ne_root hp _)
        exact ⟨w', relocate_goes _ hw'⟩
    · obtain ⟨w', hw'⟩ := ht.closed w a k hw hne
      have hstays : ¬ p ++ [n] <+: a := fun h => hout (h.trans (List.prefix_append a [k]))
      exact ⟨w', relocate_stays _ hstays hw'⟩

end MuduoServer
