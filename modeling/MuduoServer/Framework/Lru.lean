import Mathlib.Algebra.GroupWithZero.Nat
import Mathlib.Data.List.Dedup
import Mathlib.Logic.Function.Basic

namespace MuduoServer

section Nodup

variable {α β : Type*}

/-- Where no two elements agree, one of them is taken out by what it has. -/
theorem filter_ne_of_nodup [DecidableEq β] {f : α → β} {l r : List α} {a : α}
    (hnd : ((l ++ a :: r).map f).Nodup) : (l ++ a :: r).filter (fun x => f x ≠ f a) = l ++ r := by
  have hne : ∀ x ∈ l ++ r, f x ≠ f a := by
    intro x hx heq
    rw [List.map_append, List.map_cons, List.nodup_middle, ← List.map_append] at hnd
    exact (List.nodup_cons.mp hnd).1 (heq ▸ List.mem_map_of_mem hx)
  have hkeep : ∀ m : List α, m ⊆ l ++ r → m.filter (fun x => f x ≠ f a) = m := by
    intro m hm
    apply List.filter_eq_self.mpr
    intro x hx
    simpa using hne x (hm hx)
  rw [List.filter_append, List.filter_cons_of_neg (by simp), hkeep l (List.subset_append_left l r),
    hkeep r (List.subset_append_right l r)]

/-- A sublist is known by its elements. -/
theorem sublist_eq_filter [DecidableEq α] {l m : List α} (hsub : l.Sublist m) (hnd : m.Nodup) :
    l = m.filter fun a => a ∈ l := by
  induction hsub with
  | slnil => rfl
  | @cons l m a hsub ih =>
    obtain ⟨ha, hnd'⟩ := List.nodup_cons.mp hnd
    rw [List.filter_cons_of_neg (by simpa using fun h => ha (hsub.subset h)), ← ih hnd']
  | @cons_cons l m a hsub ih =>
    obtain ⟨ha, hnd'⟩ := List.nodup_cons.mp hnd
    rw [List.filter_cons_of_pos (by simp)]
    congr 1
    conv_lhs => rw [ih hnd']
    apply List.filter_congr
    intro b hb
    simp [ne_of_mem_of_not_mem hb ha]

end Nodup

/-- A cache that forgets what was used least recently: its keys with their values, in the order of
their last uses. -/
abbrev Lru (K V : Type*) := List (K × V)

namespace Lru

variable {K V : Type*}

def keys (l : Lru K V) : List K := l.map Prod.fst

def remove (l : Lru K V) (p : K → Bool) : Lru K V := l.filter fun e => !p e.1

section Room

variable (size : V → Nat) (capacity n : Nat)

def total (l : Lru K V) : Nat := (l.map fun e => size e.2).sum

theorem total_append (l l' : Lru K V) : total size (l ++ l') = total size l + total size l' := by
  rw [total, List.map_append, List.sum_append]
  rfl

theorem le_total {l : Lru K V} {e : K × V} (he : e ∈ l) : size e.2 ≤ total size l := by
  obtain ⟨r, s, rfl⟩ := List.append_of_mem he
  have hcons : total size (e :: s) = size e.2 + total size s := rfl
  rw [total_append, hcons]
  omega

theorem total_remove_le (l : Lru K V) (p : K → Bool) : total size (l.remove p) ≤ total size l := by
  induction l with
  | nil => exact Nat.le_refl _
  | cons e l ih =>
    have hcons : total size (e :: l) = size e.2 + total size l := rfl
    rw [hcons, remove, List.filter_cons]
    split_ifs
    · exact Nat.add_le_add_left ih _
    · exact Nat.le_trans ih (Nat.le_add_left _ _)

/-- Entries are forgotten, least recently used first, until there is room for `n`. -/
def makeRoom : Lru K V → Lru K V
  | [] => []
  | e :: l => if total size (e :: l) + n ≤ capacity then e :: l else makeRoom l

theorem makeRoom_suffix (l : Lru K V) : makeRoom size capacity n l <:+ l := by
  induction l with
  | nil => exact List.suffix_refl []
  | cons e l ih =>
    rw [makeRoom]
    split_ifs
    · exact List.suffix_refl _
    · exact ih.trans (List.suffix_cons e l)

/-- The run that is forgotten is the shortest that makes room for `n`. -/
theorem makeRoom_shortest {n : Nat} (hn : n ≤ capacity) (l : Lru K V) :
    ∃ m ≤ l.length, makeRoom size capacity n l = l.drop m ∧
      total size (l.drop m) + n ≤ capacity ∧
      ∀ i < m, capacity < total size (l.drop i) + n := by
  induction l with
  | nil => exact ⟨0, Nat.le_refl _, rfl, by simpa [total] using hn, by simp⟩
  | cons e l ih =>
    rw [makeRoom]
    split_ifs with hroom
    · exact ⟨0, Nat.zero_le _, rfl, hroom, by simp⟩
    · obtain ⟨m, hm, heq, hfits, hshort⟩ := ih
      refine ⟨m + 1, Nat.succ_le_succ hm, heq, hfits, ?_⟩
      intro i hi
      cases i with
      | zero => exact Nat.lt_of_not_le hroom
      | succ i => exact hshort i (Nat.lt_of_succ_lt_succ hi)

end Room

/-- What happened to a cache: the keys in the order of their uses, and the value last put under
each key. -/
structure History (K V : Type*) where
  uses : List K
  written : K → Option V

variable [DecidableEq K]

/-- A use of a key, which has the value `v` from then on. -/
def use (l : Lru K V) (k : K) (v : V) : Lru K V := (l.filter fun e => e.1 ≠ k) ++ [(k, v)]

def get (l : Lru K V) (k : K) : Option V × Lru K V :=
  match l.lookup k with
  | some v => (some v, l.use k v)
  | none => (none, l)

def put (size : V → Nat) (capacity : Nat) (l : Lru K V) (k : K) (v : V) : Lru K V :=
  if k ∈ l.keys then l.use k v else makeRoom size capacity (size v) l ++ [(k, v)]

namespace History

def new : History K V := ⟨[], fun _ => none⟩

def use (h : History K V) (k : K) : History K V := { h with uses := h.uses ++ [k] }

def put (h : History K V) (k : K) (v : V) : History K V :=
  ⟨h.uses ++ [k], Function.update h.written k (some v)⟩

end History

/-- The keys are in the order of their last uses, each with the value last put under it. -/
structure Follows (l : Lru K V) (h : History K V) : Prop where
  ordered : l.keys.Sublist h.uses.dedup
  current : ∀ e ∈ l, h.written e.1 = some e.2

variable {l : Lru K V} {h : History K V} {k : K} {v : V}

/-- Of a key that is used once more only the last use counts. -/
theorem dedup_snoc (ks : List K) (k : K) :
    (ks ++ [k]).dedup = (ks.dedup.filter fun k' => k' ≠ k) ++ [k] := by
  induction ks with
  | nil => simp
  | cons a ks ih =>
    rw [List.cons_append]
    by_cases ha : a ∈ ks
    · rw [List.dedup_cons_of_mem ha, List.dedup_cons_of_mem (by simp [ha]), ih]
    · rw [List.dedup_cons_of_notMem ha]
      by_cases hk : a = k
      · rw [List.dedup_cons_of_mem (by simp [hk]), ih, List.filter_cons_of_neg (by simpa using hk)]
      · rw [List.dedup_cons_of_notMem (by simp [ha, hk]), ih,
          List.filter_cons_of_pos (by simpa using hk), List.cons_append]

theorem Follows.nil : Follows ([] : Lru K V) History.new :=
  ⟨List.nil_sublist _, fun _ he => absurd he List.not_mem_nil⟩

/-- Forgetting keeps the order. -/
theorem Follows.sublist {l' : Lru K V} (hf : Follows l h) (hsub : l'.Sublist l) :
    Follows l' h :=
  ⟨(hsub.map Prod.fst).trans hf.ordered, fun e he => hf.current e (hsub.subset he)⟩

theorem Follows.remove (hf : Follows l h) (p : K → Bool) : Follows (l.remove p) h :=
  hf.sublist List.filter_sublist

theorem keys_use : (l.use k v).keys = (l.keys.filter fun k' => k' ≠ k) ++ [k] := by
  rw [keys, use, List.map_append, keys, List.filter_map]
  rfl

/-- The key that is used goes to the end, where its last use is. -/
theorem keys_use_sublist (hsub : l.keys.Sublist h.uses.dedup) :
    (l.use k v).keys.Sublist (h.uses ++ [k]).dedup := by
  rw [dedup_snoc, keys_use]
  exact (hsub.filter _).append_right _

theorem mem_use {e : K × V} : e ∈ l.use k v ↔ (e ∈ l ∧ e.1 ≠ k) ∨ e = (k, v) := by
  rw [use, List.mem_append, List.mem_filter, List.mem_singleton, decide_eq_true_iff]

/-- The entry that is used goes to the end. -/
theorem use_split {l r : Lru K V} {v v' : V} (hnd : (l ++ (k, v) :: r).keys.Nodup) :
    (l ++ (k, v) :: r).use k v' = l ++ r ++ [(k, v')] := by
  rw [use, filter_ne_of_nodup hnd]

theorem lookup_of_mem (hnd : l.keys.Nodup) (hv : (k, v) ∈ l) : l.lookup k = some v := by
  induction l with
  | nil => cases hv
  | cons e l ih =>
    obtain ⟨hnot, hnd'⟩ := List.nodup_cons.mp hnd
    rcases List.mem_cons.mp hv with rfl | hv
    · exact List.lookup_cons_self
    · have hne : k ≠ e.1 := ne_of_mem_of_not_mem (List.mem_map_of_mem (f := Prod.fst) hv) hnot
      rw [List.lookup_cons, beq_false_of_ne hne]
      exact ih hnd' hv

theorem get_of_mem (hnd : l.keys.Nodup) (hv : (k, v) ∈ l) : l.get k = (some v, l.use k v) := by
  rw [get, lookup_of_mem hnd hv]

theorem get_of_notMem (hk : k ∉ l.keys) : l.get k = (none, l) := by
  have hnone : l.lookup k = none := by
    rw [List.lookup_eq_none_iff]
    intro e he
    simpa using (ne_of_mem_of_not_mem (List.mem_map_of_mem (f := Prod.fst) he) hk).symm
  rw [get, hnone]

theorem Follows.nodup (hf : Follows l h) : l.keys.Nodup := hf.ordered.nodup (List.nodup_dedup _)

/-- The keys are those used, in the order of their last uses, less those forgotten. -/
theorem Follows.keys_eq (hf : Follows l h) : l.keys = h.uses.dedup.filter fun k => k ∈ l.keys :=
  sublist_eq_filter hf.ordered (List.nodup_dedup _)

theorem Follows.use (hf : Follows l h) (hv : (k, v) ∈ l) : Follows (l.use k v) (h.use k) := by
  refine ⟨keys_use_sublist hf.ordered, ?_⟩
  intro e he
  rcases mem_use.mp he with ⟨hold, -⟩ | rfl
  · exact hf.current e hold
  · exact hf.current _ hv

/-- What is got is what was put last, as long as it is there. -/
theorem Follows.get (hf : Follows l h) (k : K) [Decidable (k ∈ l.keys)] :
    (l.get k).1 = (if k ∈ l.keys then h.written k else none) ∧
      Follows (l.get k).2 (if k ∈ l.keys then h.use k else h) := by
  by_cases hk : k ∈ l.keys
  · obtain ⟨⟨k, v⟩, hv, rfl⟩ := List.mem_map.mp hk
    rw [get_of_mem hf.nodup hv, if_pos hk, if_pos hk]
    exact ⟨(hf.current _ hv).symm, hf.use hv⟩
  · rw [get_of_notMem hk, if_neg hk, if_neg hk]
    exact ⟨rfl, hf⟩

theorem Follows.write (hf : Follows l h) : Follows (l.use k v) (h.put k v) := by
  refine ⟨keys_use_sublist hf.ordered, ?_⟩
  intro e he
  rcases mem_use.mp he with ⟨hold, hne⟩ | rfl
  · exact (Function.update_of_ne hne _ _).trans (hf.current e hold)
  · exact Function.update_self _ _ _

theorem use_of_notMem (hk : k ∉ l.keys) : l.use k v = l ++ [(k, v)] := by
  rw [Lru.use, List.filter_eq_self.mpr]
  intro e he
  simpa using ne_of_mem_of_not_mem (List.mem_map_of_mem he) hk

theorem Follows.put (hf : Follows l h) (size : V → Nat) (capacity : Nat) :
    Follows (l.put size capacity k v) (h.put k v) := by
  rw [Lru.put]
  split_ifs with hk
  · exact hf.write
  · have hsub := (makeRoom_suffix size capacity (size v) l).sublist
    have hnew : k ∉ keys (makeRoom size capacity (size v) l) :=
      fun hmem => hk ((hsub.map Prod.fst).subset hmem)
    rw [← use_of_notMem hnew]
    exact (hf.sublist hsub).write

section Total

variable (size : V → Nat)

/-- What is used with another value counts with that one. -/
theorem total_use (hnd : l.keys.Nodup) (hv : (k, v) ∈ l) (v' : V) :
    (l.use k v').total size + size v = l.total size + size v' := by
  obtain ⟨r, s, rfl⟩ := List.append_of_mem hv
  rw [use_split hnd]
  simp only [total, List.map_append, List.map_cons, List.map_nil, List.sum_append, List.sum_cons,
    List.sum_nil]
  omega

theorem total_get (hnd : l.keys.Nodup) (k : K) : (l.get k).2.total size = l.total size := by
  by_cases hk : k ∈ l.keys
  · obtain ⟨⟨k, v⟩, hv, rfl⟩ := List.mem_map.mp hk
    rw [get_of_mem hnd hv]
    exact Nat.add_right_cancel (total_use size hnd hv v)
  · rw [get_of_notMem hk]

theorem total_put_le {capacity : Nat} (hfit : size v ≤ capacity) (hk : k ∉ l.keys) :
    (l.put size capacity k v).total size ≤ capacity := by
  obtain ⟨m, -, heq, hroom, -⟩ := makeRoom_shortest size capacity hfit l
  rw [put, if_neg hk, total_append, heq]
  simpa [total] using hroom

end Total

end Lru

end MuduoServer
