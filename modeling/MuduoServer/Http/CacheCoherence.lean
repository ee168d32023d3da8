import MuduoServer.Http.CacheStale
import MuduoServer.Framework.Run
import Mathlib.Algebra.Order.BigOperators.Group.List

namespace MuduoServer

namespace Site

variable {root : Path} {s : Site}

theorem lookup_watches {watches : List (Int × Path)} {m : AList (fun _ : Int => Path)} {wd : Int}
    {d : Path} (h : (watches.foldl (fun m w => m.insert w.1 w.2) m).lookup wd = some d) :
    m.lookup wd = some d ∨ (wd, d) ∈ watches := by
  induction watches generalizing m with
  | nil => exact .inl h
  | cons w watches ih =>
    rcases ih h with h | h
    · by_cases heq : wd = w.1
      · rw [heq, AList.lookup_insert] at h
        exact .inr (by simp [heq, ← Option.some.inj h])
      · rw [AList.lookup_insert_ne heq] at h
        exact .inl h
    · exact .inr (by simp [h])

theorem tracks_start {capacity head tail : Nat} {watches : List (Int × Path)}
    {files : AList (fun _ : Path => Bytes)} (hne : head ≠ tail)
    (hbelow : ∀ w ∈ watches, ∃ r, w.2 = root ++ r ∧ Named r)
    (hfits : ∀ p content, files.lookup p = some content → content.length ≤ capacity) :
    Tracks root (start root capacity head tail watches files) [] := by
  refine ⟨rfl, ⟨[], (FileLRU.consistent_new root capacity hne).held⟩, ?_, hfits, ?_⟩
  · intro wd d hd
    rcases lookup_watches hd with h | h
    · cases h
    · exact hbelow (wd, d) h
  · intro k content hk
    rw [FileLRU.cached_eq_none (AList.lookup_empty k)] at hk
    cases hk

/-- Through operations that the cache follows, every request is answered as it should be; and after
the first operation that it does not follow, some request is not. -/
theorem getFile_coherent {capacity head tail : Nat} {watches : List (Int × Path)}
    {files : AList (fun _ : Path => Bytes)} (hne : head ≠ tail)
    (hbelow : ∀ w ∈ watches, ∃ r, w.2 = root ++ r ∧ Named r)
    (hfits : ∀ p content, files.lookup p = some content → content.length ≤ capacity)
    {ops : List (SiteOp × Allocator)}
    (h : Run (fun s op s' => (op.1.Possible s ∧ op.1.Followed s) ∧ op.1.apply op.2 s = some s')
      (start root capacity head tail watches files) ops s) :
    Coherent root s ∧ ∀ (op : SiteOp) (alloc : Allocator), op.Possible s →
      ∃ s', op.apply alloc s = some s' ∧ (Coherent root s' ↔ op.Followed s) := by
  have ht : Tracks root s [] := by
    apply h.preserves (fun s => Tracks root s [])
    · exact tracks_start hne hbelow hfits
    · intro s op s' ht ⟨⟨hp, hf⟩, happly⟩
      obtain ⟨s'', happly', ht'⟩ := ht.step op.1 op.2 hp hf
      rw [Option.some.inj (happly.symm.trans happly')]
      exact ht'
  exact ⟨coherent_of_tracks ht, fun op alloc hp => ht.step_iff op alloc hp⟩

/-- An allocator that returns the sum of the addresses in use, and one more. -/
def nextFree : Allocator where
  address h := h.keys.sum + 1
  fresh _ hm := Nat.not_succ_le_self _ (List.le_sum_of_mem (AList.mem_keys.mp hm))

/-- `/a` is created, requested and renamed. -/
theorem getFile_coherent_renamed :
    ∃ s : Site, (Coherent [bytes "www"] s ∧ ∀ (op : SiteOp) (alloc : Allocator), op.Possible s →
        ∃ s', op.apply alloc s = some s' ∧ (Coherent [bytes "www"] s' ↔ op.Followed s)) ∧
      s.files.lookup [bytes "www", bytes "b"] = some (bytes "hello") := by
  obtain ⟨s, hrun, hfile⟩ := Run.exists_of_guarded
    (g := fun s : Site => s.files.lookup [bytes "www", bytes "b"])
    (f := fun s (op : SiteOp × Allocator) => op.1.apply op.2 s)
    (p := fun s (op : SiteOp × Allocator) => op.1.Possible s ∧ op.1.Followed s)
    (s := start [bytes "www"] 16 0 1 [(1, [bytes "www"])] ∅)
    (l := [(.create ⟨1, bytes "a"⟩ (bytes "hello") 1, nextFree),
      (.getFile [bytes "a"], nextFree),
      (.rename ⟨1, bytes "a"⟩ ⟨1, bytes "b"⟩ 7, nextFree)])
    (a := some (bytes "hello")) (by decide +kernel)
  have hbelow : ∀ w ∈ [((1 : Int), [bytes "www"])], ∃ r, w.2 = [bytes "www"] ++ r ∧ Named r := by
    intro w hw
    rw [List.mem_singleton.mp hw]
    exact ⟨[], rfl, fun n hn => absurd hn List.not_mem_nil⟩
  refine ⟨s, getFile_coherent (by decide) hbelow ?_ hrun, hfile⟩
  intro p content hp
  cases hp

/-- `/b` is created, and cached with it; then `/a`, which nobody has asked for, is renamed to `/b`.
A request for `/b` is still answered with the bytes of the file that was replaced. -/
theorem replaced_file_is_served :
    ∃ (ops : List (SiteOp × Allocator)) (s : Site),
      Run (fun s op s' => op.1.Possible s ∧ op.1.apply op.2 s = some s')
        (start [bytes "www"] 16 0 1 [(1, [bytes "www"])]
          (AList.singleton [bytes "www", bytes "a"] (bytes "new"))) ops s ∧
      ∃ u : Path, u.Canonical ∧ s.files.lookup ([bytes "www"] ++ u) = some (bytes "new") ∧
        (s.getFile nextFree u).map Prod.fst = some (.ok (some (bytes "old"))) ∧
        ¬ ∃ c, s.getFile nextFree u = some (.ok (s.files.lookup ([bytes "www"] ++ u)), c) := by
  obtain ⟨s, hrun, hs⟩ := Run.exists_of_guarded
    (g := fun s : Site => (s.files.lookup [bytes "www", bytes "b"],
      (s.getFile nextFree [bytes "b"]).map Prod.fst))
    (f := fun s (op : SiteOp × Allocator) => op.1.apply op.2 s)
    (p := fun s (op : SiteOp × Allocator) => op.1.Possible s)
    (s := start [bytes "www"] 16 0 1 [(1, [bytes "www"])]
      (AList.singleton [bytes "www", bytes "a"] (bytes "new")))
    (l := [(.create ⟨1, bytes "b"⟩ (bytes "old") 1, nextFree),
      (.rename ⟨1, bytes "a"⟩ ⟨1, bytes "b"⟩ 7, nextFree)])
    (a := (some (bytes "new"), some (.ok (some (bytes "old"))))) (by decide +kernel)
  obtain ⟨hfile, hget⟩ := Prod.mk.inj hs
  refine ⟨_, s, hrun, [bytes "b"], by decide, hfile, hget, ?_⟩
  intro ⟨c, hc⟩
  have hnew : s.files.lookup ([bytes "www"] ++ [bytes "b"]) = some (bytes "new") := hfile
  rw [hc, hnew] at hget
  have hbytes : bytes "new" = bytes "old" :=
    Option.some.inj (Except.ok.inj (Option.some.inj hget))
  exact absurd hbytes (by decide)

end Site

end MuduoServer
