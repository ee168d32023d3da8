import MuduoServer.Base.CacheContents
import MuduoServer.Base.CacheLru

namespace MuduoServer

namespace FileLRU

/-- A file that is put under a key that is cached does not fill the cache beyond its capacity. -/
def FitsInPlace (c : FileLRU) (disk : Disk) (k : Bytes) : Prop :=
  ∀ b ∈ c.cached k, ∀ value ∈ (c.load disk k).toOption,
    c.size - b.length + value.length ≤ c.capacity

instance (c : FileLRU) (disk : Disk) (k : Bytes) : Decidable (c.FitsInPlace disk k) :=
  inferInstanceAs (Decidable (∀ b ∈ c.cached k, ∀ value ∈ (c.load disk k).toOption,
    c.size - b.length + value.length ≤ c.capacity))

end FileLRU

namespace CacheOp

/-- `addFile` and `put` are the calls that read a file that is cached; `getFile` does not. -/
def Fits (c : FileLRU) : CacheOp → Prop
  | .put disk _ k => c.FitsInPlace disk k
  | .addFile disk _ path => c.FitsInPlace disk (c.key path)
  | _ => True

instance (c : FileLRU) : (op : CacheOp) → Decidable (op.Fits c)
  | .put disk _ k => inferInstanceAs (Decidable (c.FitsInPlace disk k))
  | .addFile disk _ path => inferInstanceAs (Decidable (c.FitsInPlace disk (c.key path)))
  | .get _ | .getFile _ _ _ | .delFile _ | .delDir _ | .moveFile _ _ | .moveDir _ _ =>
    instDecidableTrue

end CacheOp

namespace FileLRU

variable {c : FileLRU} {es : List Entry}

theorem Consistent.size_eq (hc : c.Consistent es) : c.size = (recency es).total List.length := by
  rw [total_recency, hc.size]

theorem Consistent.cached_mem {k b : Bytes} (hc : c.Consistent es) (hk : c.cached k = some b) :
    (k, b) ∈ recency es := by
  obtain ⟨l, e, r, rfl, hp, rfl⟩ := hc.held.split hk
  obtain ⟨e', he', hnode, rfl⟩ := (hc.agree k e.node).mp hp
  rw [hc.holds.eq_of_node he' (by simp) hnode]
  simp [recency_split]

/-- A `put` keeps to the capacity unless it writes to an entry that gets too large. -/
theorem putLru_total_le_iff (disk : Disk) (k : Bytes) (hc : c.Consistent es)
    (hfull : c.size ≤ c.capacity) :
    (CacheOp.putLru c disk k (recency es)).total List.length ≤ c.capacity ↔
      c.FitsInPlace disk k := by
  rw [hc.size_eq] at hfull
  rw [CacheOp.putLru, FitsInPlace, hc.size_eq]
  cases hload : c.load disk k with
  | error err => simpa [Except.toOption] using hfull
  | ok value =>
    cases hb : c.cached k with
    | none =>
      have hnot : k ∉ (recency es).keys := by
        rw [← hc.mem_recency, hc.held.mem_iff, hb]
        simp
      simpa using Lru.total_put_le List.length (load_fits hload) hnot
    | some b =>
      have hmem := hc.cached_mem hb
      have hkey : k ∈ (recency es).keys := List.mem_map_of_mem (f := Prod.fst) hmem
      have hle : b.length ≤ _ := Lru.le_total List.length hmem
      have htotal := Lru.total_use List.length hc.recency_nodup hmem value
      simp only [Lru.put, if_pos hkey, Except.toOption, Option.mem_def, Option.some.injEq,
        forall_eq']
      omega

/-- Of the calls that move nothing, those that fit keep to the capacity, and no others. -/
theorem applyLru_total_le_iff (op : CacheOp) (hop : ¬ op.Moves) (hc : c.Consistent es)
    (hfull : c.size ≤ c.capacity) :
    (op.applyLru c (recency es)).total List.length ≤ c.capacity ↔ op.Fits c := by
  have hremove : ∀ p, ((recency es).remove p).total List.length ≤ c.capacity := by
    intro p
    apply Nat.le_trans (Lru.total_remove_le List.length _ p)
    rwa [← hc.size_eq]
  have hget : ∀ k, ((recency es).get k).2.total List.length ≤ c.capacity := by
    intro k
    rwa [Lru.total_get List.length hc.recency_nodup, ← hc.size_eq]
  cases op with
  | get k => exact iff_of_true (hget k) trivial
  | put disk node k => exact putLru_total_le_iff disk k hc hfull
  | getFile disk node k =>
    apply iff_of_true _ trivial
    rw [CacheOp.applyLru]
    split_ifs with hk
    · exact hget k
    · rw [putLru_total_le_iff disk k hc hfull]
      intro b hb
      exact absurd (List.mem_map_of_mem (hc.cached_mem hb)) hk
  | addFile disk node path => exact putLru_total_le_iff disk (c.key path) hc hfull
  | delFile path =>
    rw [CacheOp.applyLru]
    exact iff_of_true (hremove _) trivial
  | delDir path =>
    rw [CacheOp.applyLru]
    exact iff_of_true (hremove _) trivial
  | moveFile old_path new_path => exact absurd trivial hop
  | moveDir old_path new_path => exact absurd trivial hop

theorem apply_size_le_iff (op : CacheOp) (hop : ¬ op.Moves) (hc : c.Consistent es)
    (hnode : op.Fresh c) (hfull : c.size ≤ c.capacity) :
    ∃ c', op.apply c = some c' ∧ c'.capacity = c.capacity ∧ (∃ es', c'.Consistent es') ∧
      (c'.size ≤ c.capacity ↔ op.Fits c) := by
  obtain ⟨c', es', heq, hcap, hc', hlru⟩ := apply_refines op hop hc hnode
  refine ⟨c', heq, hcap, ⟨es', hc'⟩, ?_⟩
  rw [hc'.size_eq, hlru]
  exact applyLru_total_le_iff op hop hc hfull

/-- As long as no file that is put again fills the cache beyond its capacity, the cache stays
within it, and up to the first call that puts such a file. -/
theorem cache_within_capacity (path : Path) (capacity : Nat) {head tail : Nat} (hne : head ≠ tail)
    {ops : List CacheOp}
    (hrun : Run (fun c op c' => (¬ op.Moves ∧ op.Fresh c ∧ op.Fits c) ∧ op.apply c = some c')
      (FileLRU.new path capacity head tail) ops c) :
    c.size ≤ capacity ∧
      ∀ op : CacheOp, ¬ op.Moves → op.Fresh c →
        ∃ c', op.apply c = some c' ∧ (c'.size ≤ capacity ↔ op.Fits c) := by
  have hreach : c.capacity = capacity ∧ c.size ≤ c.capacity ∧ ∃ es, c.Consistent es := by
    apply hrun.preserves
      (fun c => c.capacity = capacity ∧ c.size ≤ c.capacity ∧ ∃ es, c.Consistent es)
    · exact ⟨rfl, Nat.zero_le _, [], consistent_new path capacity hne⟩
    · intro c op c' ⟨hcap, hfull, es, hc⟩ ⟨⟨hop, hfresh, hfits⟩, happly⟩
      obtain ⟨c'', heq, hcap', hc', hiff⟩ := apply_size_le_iff op hop hc hfresh hfull
      obtain rfl := Option.some.inj (heq.symm.trans happly)
      exact ⟨hcap'.trans hcap, hcap' ▸ hiff.mpr hfits, hc'⟩
  obtain ⟨rfl, hfull, es, hc⟩ := hreach
  refine ⟨hfull, ?_⟩
  intro op hop hfresh
  obtain ⟨c', heq, -, -, hiff⟩ := apply_size_le_iff op hop hc hfresh hfull
  exact ⟨c', heq, hiff⟩

/-- A file that grows within the capacity. -/
theorem cache_within_capacity_grown :
    ∃ c : FileLRU, (c.size ≤ 16 ∧
      ∀ op : CacheOp, ¬ op.Moves → op.Fresh c →
        ∃ c', op.apply c = some c' ∧ (c'.size ≤ 16 ↔ op.Fits c)) ∧ c.size = 16 := by
  obtain ⟨c, hrun, hsize⟩ := Run.exists_of_guarded (g := FileLRU.size)
    (f := fun c op => CacheOp.apply c op)
    (p := fun c op => ¬ CacheOp.Moves op ∧ CacheOp.Fresh c op ∧ CacheOp.Fits c op)
    (s := FileLRU.new [] 16 0 1)
    (l := [.addFile (fun _ => .regular (bytes "hello")) 2 [bytes "a"],
      .addFile (fun _ => .regular (bytes "hello")) 3 [bytes "b"],
      .addFile (fun _ => .regular (bytes "hello again")) 4 [bytes "a"]])
    (a := 16) (by decide +kernel)
  exact ⟨c, cache_within_capacity [] 16 (by decide) hrun, hsize⟩

/-- Two files fill the cache, and one of them grows. -/
theorem grown_file_overfills :
    ∃ ops c, Run (fun c op c' => (¬ CacheOp.Moves op ∧ CacheOp.Fresh c op) ∧ op.apply c = some c')
        (FileLRU.new [] 16 0 1) ops c ∧
      (∀ op ∈ ops, ∃ disk node path, op = .addFile disk node path) ∧ c.size = 21 := by
  obtain ⟨c, hrun, hsize⟩ := Run.exists_of_guarded (g := FileLRU.size)
    (f := fun c op => CacheOp.apply c op)
    (p := fun c op => ¬ CacheOp.Moves op ∧ CacheOp.Fresh c op)
    (s := FileLRU.new [] 16 0 1)
    (l := [.addFile (fun _ => .regular (bytes "hello")) 2 [bytes "a"],
      .addFile (fun _ => .regular (bytes "hello")) 3 [bytes "b"],
      .addFile (fun _ => .regular (bytes "hello, hello all")) 4 [bytes "a"]])
    (a := 21) (by decide +kernel)
  refine ⟨_, c, hrun, ?_, hsize⟩
  intro op hop
  simp only [List.mem_cons, List.not_mem_nil, or_false] at hop
  rcases hop with rfl | rfl | rfl
  · exact ⟨_, _, _, rfl⟩
  · exact ⟨_, _, _, rfl⟩
  · exact ⟨_, _, _, rfl⟩

end FileLRU

end MuduoServer
