import MuduoServer.Base.CacheInvariant

namespace MuduoServer

/-- What the list of the cache is: keys with their contents, from the least recently used on. -/
def recency (es : List Entry) : Lru Bytes Bytes := es.map fun e => (e.key, e.content)

theorem keys_recency (es : List Entry) : (recency es).keys = es.map Entry.key := List.map_map

theorem recency_append (es es' : List Entry) : recency (es ++ es') = recency es ++ recency es' :=
  List.map_append

theorem total_recency (es : List Entry) : (recency es).total List.length = total es := by
  rw [Lru.total, recency, List.map_map]
  rfl

theorem recency_filter (es : List Entry) (p : Bytes → Bool) :
    recency (es.filter fun e => !p e.key) = (recency es).remove p := by
  rw [recency, Lru.remove, recency, List.filter_map]
  rfl

theorem recency_kept (capacity n : Nat) (es : List Entry) :
    recency (kept capacity n es) = Lru.makeRoom List.length capacity n (recency es) := by
  induction es with
  | nil => rfl
  | cons e es ih =>
    have hcons : recency (e :: es) = (e.key, e.content) :: recency es := rfl
    rw [kept, hcons, Lru.makeRoom, ← hcons, total_recency, ← ih]
    split_ifs
    · exact hcons
    · rfl

/-- The entries that are kept are those behind the shortest run that makes room. -/
theorem kept_eq_drop {capacity n : Nat} (hn : n ≤ capacity) (es : List Entry) :
    ∃ m ≤ es.length, evicted capacity n es = es.take m ∧ kept capacity n es = es.drop m ∧
      total (es.drop m) + n ≤ capacity ∧ ∀ i < m, capacity < total (es.drop i) + n := by
  have hdrop : ∀ i, (recency es).drop i = recency (es.drop i) := fun i => List.map_drop.symm
  obtain ⟨m, hm, heq, hfits, hshort⟩ := Lru.makeRoom_shortest List.length capacity hn (recency es)
  rw [hdrop, ← recency_kept] at heq
  rw [hdrop, total_recency] at hfits
  have hsuffix : kept capacity n es <:+ es := ⟨_, evicted_append_kept capacity n es⟩
  have hlen : (kept capacity n es).length = (es.drop m).length := by
    simpa [recency] using congrArg List.length heq
  have hkept : kept capacity n es = es.drop m :=
    (List.suffix_of_suffix_length_le hsuffix (List.drop_suffix m es) hlen.le).eq_of_length hlen
  refine ⟨m, by simpa [recency] using hm, ?_, hkept, hfits, ?_⟩
  · have happ := evicted_append_kept capacity n es
    rw [hkept] at happ
    exact List.append_cancel_right (happ.trans (List.take_append_drop m es).symm)
  · intro i hi
    have hmore := hshort i hi
    rwa [hdrop, total_recency] at hmore

namespace FileLRU

variable {c c' : FileLRU} {k value : Bytes} {node : Nat} {disk : Disk}

/-- The two have the same directory and the same capacity. -/
def SameRoot (c c' : FileLRU) : Prop := c'.path = c.path ∧ c'.capacity = c.capacity

theorem SameRoot.refl (c : FileLRU) : c.SameRoot c := ⟨rfl, rfl⟩

theorem SameRoot.trans {c'' : FileLRU} (h : c.SameRoot c') (h' : c'.SameRoot c'') :
    c.SameRoot c'' :=
  ⟨h'.1.trans h.1, h'.2.trans h.2⟩

/-- What is read of a file depends on the path and the capacity alone. -/
theorem load_congr (hpath : c'.path = c.path) (hcap : c'.capacity = c.capacity) :
    c'.load disk k = c.load disk k := by
  rw [load, load, fullPath, fullPath, hpath, hcap]

theorem push_back_root (h : c.push_back node = some c') : c.SameRoot c' := by
  obtain ⟨h', -, heq⟩ := Option.bind_eq_some_iff.mp h
  cases heq
  exact ⟨rfl, rfl⟩

theorem remove_root (h : c.remove node = some c') : c.SameRoot c' := by
  obtain ⟨h', -, heq⟩ := Option.bind_eq_some_iff.mp h
  cases heq
  exact ⟨rfl, rfl⟩

theorem touch_root (h : c.touch node = some c') : c.SameRoot c' := by
  obtain ⟨mid, hmid, hlast⟩ := Option.bind_eq_some_iff.mp h
  exact (remove_root hmid).trans (push_back_root hlast)

theorem get_root {v : Option Bytes} (h : c.get k = some (v, c')) : c.SameRoot c' := by
  rw [get] at h
  cases hk : c.map.lookup k with
  | none =>
    rw [hk] at h
    cases h
    exact .refl c
  | some p =>
    rw [hk] at h
    obtain ⟨mid, hmid, h⟩ := Option.bind_eq_some_iff.mp h
    obtain ⟨n, -, heq⟩ := Option.bind_eq_some_iff.mp h
    cases heq
    exact touch_root hmid

theorem evictStep_root (h : c.evictStep = some c') : c.SameRoot c' := by
  obtain ⟨p, -, h⟩ := Option.bind_eq_some_iff.mp h
  obtain ⟨n, -, h⟩ := Option.bind_eq_some_iff.mp h
  obtain ⟨mid, hmid, h⟩ := Option.bind_eq_some_iff.mp h
  obtain ⟨m, -, heq⟩ := Option.bind_eq_some_iff.mp h
  cases heq
  have hroot := remove_root hmid
  exact ⟨hroot.1, hroot.2⟩

theorem evict_root {rounds : Nat} (h : c.evict rounds = some c') : c.SameRoot c' := by
  induction rounds generalizing c with
  | zero => cases h
  | succ rounds ih =>
    obtain ⟨mid, hmid, h⟩ := Option.bind_eq_some_iff.mp h
    split_ifs at h
    · exact (evictStep_root hmid).trans (ih h)
    · cases h
      exact evictStep_root hmid

theorem putCached_root (h : c.putCached node value = some c') : c.SameRoot c' := by
  obtain ⟨m, -, h⟩ := Option.bind_eq_some_iff.mp h
  obtain ⟨n, -, h⟩ := Option.bind_eq_some_iff.mp h
  obtain ⟨heap, -, h⟩ := Option.bind_eq_some_iff.mp h
  dsimp only at h
  have hroot := touch_root h
  exact ⟨hroot.1, hroot.2⟩

theorem putNew_root (h : c.putNew node k value = some c') : c.SameRoot c' := by
  simp only [putNew] at h
  split_ifs at h
  · obtain ⟨mid, hmid, h⟩ := Option.bind_eq_some_iff.mp h
    have hevict := evict_root hmid
    have hpush := push_back_root h
    exact ⟨hpush.1.trans hevict.1, hpush.2.trans hevict.2⟩
  · have hpush := push_back_root h
    exact ⟨hpush.1, hpush.2⟩

theorem put_root {r : Except FileError Bytes} (h : c.put disk node k = some (r, c')) :
    c.SameRoot c' := by
  cases hload : c.load disk k with
  | error e =>
    simp only [put, hload] at h
    cases h
    exact .refl c
  | ok value =>
    cases hk : c.map.lookup k with
    | none =>
      simp only [put, hload, hk] at h
      obtain ⟨mid, hmid, heq⟩ := Option.bind_eq_some_iff.mp h
      cases heq
      exact putNew_root hmid
    | some p =>
      simp only [put, hload, hk] at h
      obtain ⟨mid, hmid, heq⟩ := Option.bind_eq_some_iff.mp h
      cases heq
      exact putCached_root hmid

theorem getFile_root {r : Except FileError (Option Bytes)}
    (h : c.getFile disk node k = some (r, c')) : c.SameRoot c' := by
  obtain ⟨⟨v, mid⟩, hget, h⟩ := Option.bind_eq_some_iff.mp h
  cases v with
  | some value =>
    cases h
    exact get_root hget
  | none =>
    obtain ⟨⟨r', last⟩, hput, h⟩ := Option.bind_eq_some_iff.mp h
    have hroot := (get_root hget).trans (put_root hput)
    rcases r' with (_ | _) | value <;> cases h <;> exact hroot

theorem addFile_root {path : Path} {r : Except FileError Unit}
    (h : c.addFile disk node path = some (r, c')) : c.SameRoot c' := by
  obtain ⟨⟨r', last⟩, hput, h⟩ := Option.bind_eq_some_iff.mp h
  have hroot := put_root hput
  rcases r' with (_ | _) | value <;> cases h <;> exact hroot

theorem drop_root (h : c.drop k = some c') : c.SameRoot c' := by
  obtain ⟨p, -, h⟩ := Option.bind_eq_some_iff.mp h
  obtain ⟨m, -, h⟩ := Option.bind_eq_some_iff.mp h
  obtain ⟨mid, hmid, heq⟩ := Option.bind_eq_some_iff.mp h
  cases heq
  have hroot := remove_root hmid
  exact ⟨hroot.1, hroot.2⟩

theorem drops_root {ks : List Bytes} (h : ks.foldlM drop c = some c') : c.SameRoot c' := by
  induction ks generalizing c with
  | nil =>
    cases h
    exact .refl _
  | cons k ks ih =>
    obtain ⟨mid, hmid, h⟩ := Option.bind_eq_some_iff.mp h
    exact (drop_root hmid).trans (ih h)

theorem delFile_root {path : Path} (h : c.delFile path = some c') : c.SameRoot c' := by
  rw [delFile] at h
  split_ifs at h
  · exact drop_root h
  · cases h
    exact .refl _

theorem moveFile_root (c : FileLRU) (old_path new_path : Path) :
    c.SameRoot (c.moveFile old_path new_path) := by
  rw [moveFile]
  split <;> exact ⟨rfl, rfl⟩

/-- No call gives the cache another directory or another capacity. -/
theorem apply_root {op : CacheOp} (h : op.apply c = some c') : c.SameRoot c' := by
  cases op with
  | get k =>
    obtain ⟨⟨v, last⟩, hget, rfl⟩ := Option.map_eq_some_iff.mp h
    exact get_root hget
  | put disk node k =>
    obtain ⟨⟨r, last⟩, hput, rfl⟩ := Option.map_eq_some_iff.mp h
    exact put_root hput
  | getFile disk node k =>
    obtain ⟨⟨r, last⟩, hget, rfl⟩ := Option.map_eq_some_iff.mp h
    exact getFile_root hget
  | addFile disk node path =>
    obtain ⟨⟨r, last⟩, hadd, rfl⟩ := Option.map_eq_some_iff.mp h
    exact addFile_root hadd
  | delFile path => exact delFile_root h
  | delDir path => exact drops_root h
  | moveFile old_path new_path =>
    cases h
    exact moveFile_root _ old_path new_path
  | moveDir old_path new_path =>
    cases h
    exact ⟨rfl, rfl⟩

end FileLRU

namespace CacheOp

/-- The calls that give a cached entry another key. -/
def Moves : CacheOp → Prop
  | .moveFile _ _ | .moveDir _ _ => True
  | _ => False

instance : (op : CacheOp) → Decidable op.Moves
  | .moveFile _ _ | .moveDir _ _ => instDecidableTrue
  | .get _ | .put _ _ _ | .getFile _ _ _ | .addFile _ _ _ | .delFile _ | .delDir _ =>
    instDecidableFalse

/-- A `put`, of what the file has if it can be read. -/
def putLru (c : FileLRU) (disk : Disk) (k : Bytes) (l : Lru Bytes Bytes) : Lru Bytes Bytes :=
  match c.load disk k with
  | .ok value => l.put List.length c.capacity k value
  | .error _ => l

/-- What a call that moves nothing does to the list, as one of the cache `c`. -/
def applyLru (c : FileLRU) (l : Lru Bytes Bytes) : CacheOp → Lru Bytes Bytes
  | .get k => (l.get k).2
  | .put disk _ k => putLru c disk k l
  | .getFile disk _ k => if k ∈ l.keys then (l.get k).2 else putLru c disk k l
  | .addFile disk _ path => putLru c disk (c.key path) l
  | .delFile path => l.remove fun k => k = c.key path
  | .delDir path => l.remove fun k => (c.key path).isPrefixOf k
  | .moveFile _ _ | .moveDir _ _ => l

def recordPut (c : FileLRU) (disk : Disk) (k : Bytes) (h : Lru.History Bytes Bytes) :
    Lru.History Bytes Bytes :=
  match c.load disk k with
  | .ok value => h.put k value
  | .error _ => h

/-- A `get` that finds its key is a use of it, and so is a `put` that can read its file. -/
def record (c : FileLRU) (h : Lru.History Bytes Bytes) : CacheOp → Lru.History Bytes Bytes
  | .get k => if k ∈ c.map then h.use k else h
  | .put disk _ k => recordPut c disk k h
  | .getFile disk _ k => if k ∈ c.map then h.use k else recordPut c disk k h
  | .addFile disk _ path => recordPut c disk (c.key path) h
  | .delFile _ | .delDir _ | .moveFile _ _ | .moveDir _ _ => h

variable {c c' : FileLRU} {l : Lru Bytes Bytes} {h : Lru.History Bytes Bytes}

/-- Of the cache only its directory and its capacity matter. -/
theorem applyLru_congr (hroot : c.SameRoot c') (op : CacheOp) :
    op.applyLru c' l = op.applyLru c l := by
  obtain ⟨hpath, hcap⟩ := hroot
  have hkey : ∀ path, c'.key path = c.key path := fun path => by
    rw [FileLRU.key, FileLRU.key, hpath]
  have hput : ∀ disk k, putLru c' disk k l = putLru c disk k l := fun disk k => by
    rw [putLru, putLru, FileLRU.load_congr hpath hcap, hcap]
  cases op with
  | get k => rfl
  | put disk node k => exact hput disk k
  | getFile disk node k => simp only [applyLru, hput]
  | addFile disk node path => simp only [applyLru, hput, hkey]
  | delFile path => simp only [applyLru, hkey]
  | delDir path => simp only [applyLru, hkey]
  | moveFile old_path new_path => rfl
  | moveDir old_path new_path => rfl

theorem putLru_follows (hf : l.Follows h) (disk : Disk) (k : Bytes) :
    (putLru c disk k l).Follows (recordPut c disk k h) := by
  rw [putLru, recordPut]
  cases c.load disk k with
  | ok value => exact hf.put List.length c.capacity
  | error err => exact hf

theorem applyLru_follows (hf : l.Follows h) (hkeys : ∀ k, k ∈ c.map ↔ k ∈ l.keys) (op : CacheOp) :
    (op.applyLru c l).Follows (op.record c h) := by
  cases op with
  | get k =>
    simp only [applyLru, record, hkeys]
    exact (hf.get k).2
  | put disk node k => exact putLru_follows hf disk k
  | getFile disk node k =>
    simp only [applyLru, record, hkeys]
    split_ifs with hk
    · have hget := (hf.get k).2
      rwa [if_pos hk] at hget
    · exact putLru_follows hf disk k
  | addFile disk node path => exact putLru_follows hf disk (c.key path)
  | delFile path =>
    rw [applyLru, record]
    exact hf.remove _
  | delDir path =>
    rw [applyLru, record]
    exact hf.remove _
  | moveFile old_path new_path => exact hf
  | moveDir old_path new_path => exact hf

end CacheOp

namespace FileLRU

variable {c : FileLRU} {es : List Entry}

theorem recency_split (l r : List Entry) (e : Entry) :
    recency (l ++ e :: r) = recency l ++ (e.key, e.content) :: recency r := by
  rw [recency_append]
  rfl

theorem Consistent.recency_nodup (hc : c.Consistent es) : (recency es).keys.Nodup := by
  rw [keys_recency]
  exact hc.keys_nodup

theorem Consistent.mem_recency (hc : c.Consistent es) (k : Bytes) :
    k ∈ c.map ↔ k ∈ (recency es).keys := by
  rw [keys_recency]
  exact hc.mem_map_iff

/-- The entry that is used or written to is the one at the end. -/
theorem recency_use {l r : List Entry} {e : Entry} (hc : c.Consistent (l ++ e :: r))
    (value : Bytes) :
    recency (l ++ r ++ [{ e with content := value }]) =
      (recency (l ++ e :: r)).use e.key value := by
  have hnd := hc.recency_nodup
  rw [recency_split] at hnd
  rw [recency_split l r e, Lru.use_split hnd, recency_append, recency_append]
  rfl

theorem get_refines (hc : c.Consistent es) (k : Bytes) :
    ∃ v c' es', c.get k = some (v, c') ∧ c'.capacity = c.capacity ∧ c'.Consistent es' ∧
      (recency es).get k = (v, recency es') := by
  cases hk : c.map.lookup k with
  | none =>
    refine ⟨none, c, es, get_miss hk, rfl, hc, Lru.get_of_notMem ?_⟩
    rw [← hc.mem_recency]
    exact AList.lookup_eq_none.mp hk
  | some p =>
    obtain ⟨l, e, r, rfl, rfl, rfl⟩ := hc.split hk
    obtain ⟨c', heq, hcap, hc'⟩ := get_consistent hc
    refine ⟨some e.content, c', _, heq, hcap, hc', ?_⟩
    have hmem : (e.key, e.content) ∈ recency (l ++ e :: r) := by simp [recency_split]
    rw [Lru.get_of_mem hc.recency_nodup hmem, ← recency_use hc]

theorem put_refines (disk : Disk) {node : Nat} (k : Bytes) (hc : c.Consistent es)
    (hnode : node ∉ c.heap) :
    ∃ c' es', c.put disk node k = some (c.load disk k, c') ∧ c'.capacity = c.capacity ∧
      c'.Consistent es' ∧ recency es' = CacheOp.putLru c disk k (recency es) := by
  rw [CacheOp.putLru]
  cases hload : c.load disk k with
  | error err => exact ⟨c, es, by simp only [put, hload], rfl, hc, rfl⟩
  | ok value =>
    cases hk : c.map.lookup k with
    | some p =>
      obtain ⟨l, e, r, rfl, rfl, rfl⟩ := hc.split hk
      obtain ⟨c', heq, hcap, hc'⟩ := putCached_consistent hc value
      refine ⟨c', _, ?_, hcap, hc', ?_⟩
      · simp only [put, hload, hk, heq, Option.bind_eq_bind, Option.bind_some]
      · have hmem : e.key ∈ c.map := AList.lookup_isSome.mp (by rw [hk]; rfl)
        show _ = (recency _).put List.length c.capacity e.key value
        rw [recency_use hc, Lru.put, if_pos ((hc.mem_recency _).mp hmem)]
    | none =>
      obtain ⟨c', heq, hcap, hc'⟩ := putNew_consistent hc hk (load_fits hload) hnode
      refine ⟨c', _, ?_, hcap, hc', ?_⟩
      · simp only [put, hload, hk, heq, Option.bind_eq_bind, Option.bind_some]
      · have hnot : k ∉ (recency es).keys :=
          fun hmem => AList.lookup_eq_none.mp hk ((hc.mem_recency k).mpr hmem)
        show _ = (recency _).put List.length c.capacity k value
        rw [Lru.put, if_neg hnot, recency_append, recency_kept]
        rfl

/-- A call that moves nothing does to the list of the cache what it does to an LRU list. -/
theorem apply_refines (op : CacheOp) (hop : ¬ op.Moves) (hc : c.Consistent es)
    (hnode : op.Fresh c) :
    ∃ c' es', op.apply c = some c' ∧ c'.capacity = c.capacity ∧ c'.Consistent es' ∧
      recency es' = op.applyLru c (recency es) := by
  cases op with
  | get k =>
    obtain ⟨v, c', es', heq, hcap, hc', hget⟩ := get_refines hc k
    refine ⟨c', es', by rw [CacheOp.apply, heq]; rfl, hcap, hc', ?_⟩
    rw [CacheOp.applyLru, hget]
  | put disk node k =>
    obtain ⟨c', es', heq, hcap, hc', hput⟩ := put_refines disk k hc hnode
    exact ⟨c', es', by rw [CacheOp.apply, heq]; rfl, hcap, hc', hput⟩
  | getFile disk node k =>
    rw [CacheOp.applyLru]
    cases hk : c.map.lookup k with
    | some p =>
      have hmem : k ∈ c.map := AList.lookup_isSome.mp (by rw [hk]; rfl)
      obtain ⟨l, e, r, rfl, rfl, rfl⟩ := hc.split hk
      obtain ⟨c', heq, hcap, hc'⟩ := get_consistent hc
      have hlru : (e.key, e.content) ∈ recency (l ++ e :: r) := by simp [recency_split]
      refine ⟨c', _, by rw [CacheOp.apply, getFile_hit disk node heq]; rfl, hcap, hc', ?_⟩
      rw [if_pos ((hc.mem_recency _).mp hmem), Lru.get_of_mem hc.recency_nodup hlru,
        ← recency_use hc]
    | none =>
      have hnot : k ∉ (recency es).keys :=
        fun hmem => AList.lookup_eq_none.mp hk ((hc.mem_recency k).mpr hmem)
      obtain ⟨c', es', heq, hcap, hc', hput⟩ := put_refines disk k hc hnode
      obtain ⟨r, hr⟩ := getFile_miss (get_miss hk) heq
      rw [if_neg hnot]
      exact ⟨c', es', by rw [CacheOp.apply, hr]; rfl, hcap, hc', hput⟩
  | addFile disk node path =>
    obtain ⟨c', es', heq, hcap, hc', hput⟩ := put_refines disk (c.key path) hc hnode
    obtain ⟨r, hr⟩ := addFile_put heq
    exact ⟨c', es', by rw [CacheOp.apply, hr]; rfl, hcap, hc', hput⟩
  | delFile path =>
    obtain ⟨c', heq, hcap, hc'⟩ := delFile_consistent path hc
    refine ⟨c', _, heq, hcap, hc', ?_⟩
    rw [CacheOp.applyLru]
    simpa using recency_filter es fun k => k = c.key path
  | delDir path =>
    obtain ⟨c', heq, hcap, hc'⟩ := delDir_consistent path hc
    refine ⟨c', _, heq, hcap, hc', ?_⟩
    exact recency_filter es _
  | moveFile old_path new_path => exact absurd trivial hop
  | moveDir old_path new_path => exact absurd trivial hop

/-- A call that moves nothing, with what it adds to the history. -/
def LruStep (s : FileLRU × Lru.History Bytes Bytes) (op : CacheOp)
    (s' : FileLRU × Lru.History Bytes Bytes) : Prop :=
  (¬ op.Moves ∧ op.Fresh s.1) ∧ op.apply s.1 = some s'.1 ∧ s'.2 = op.record s.1 s.2

/-- The list after the calls, none of which moves anything, on a cache that was empty at first. -/
def lruOf (c : FileLRU) (ops : List CacheOp) : Lru Bytes Bytes :=
  ops.foldl (fun l op => op.applyLru c l) []

theorem follows_of_run (path : Path) (capacity : Nat) {head tail : Nat} (hne : head ≠ tail)
    {ops : List CacheOp} {s : FileLRU × Lru.History Bytes Bytes}
    (hrun : Run LruStep (FileLRU.new path capacity head tail, .new) ops s) :
    ∃ es, s.1.Consistent es ∧ (recency es).Follows s.2 ∧
      recency es = (FileLRU.new path capacity head tail).lruOf ops := by
  refine (hrun.invariant
    (fun ops (s : FileLRU × Lru.History Bytes Bytes) =>
      (FileLRU.new path capacity head tail).SameRoot s.1 ∧
      ∃ es, s.1.Consistent es ∧ (recency es).Follows s.2 ∧
        recency es = (FileLRU.new path capacity head tail).lruOf ops)
    ?_ ?_).2
  · exact ⟨.refl _, [], consistent_new path capacity hne, .nil, rfl⟩
  · intro ops s op s' ⟨hroot, es, hc, hf, hlist⟩ ⟨⟨hop, hfresh⟩, happly, hrec⟩
    obtain ⟨c', es', heq, -, hc', hlru⟩ := apply_refines op hop hc hfresh
    obtain rfl : c' = s'.1 := Option.some.inj (heq.symm.trans happly)
    refine ⟨hroot.trans (apply_root happly), es', hc', ?_, ?_⟩
    · rw [hlru, hrec]
      exact CacheOp.applyLru_follows hf hc.mem_recency op
    · rw [hlru, hlist, lruOf, lruOf, List.foldl_append]
      exact CacheOp.applyLru_congr hroot op

/-- The nodes that the loop in `put` takes from behind `head_`. -/
def taken : Nat → FileLRU → List Nat
  | 0, _ => []
  | rounds + 1, c =>
    match c.heap.next? c.head, c.evictStep with
    | some node, some c => node :: if c.capacity < c.size then taken rounds c else []
    | _, _ => []

/-- `put` for a key that is not cached, when it comes to the loop. -/
def added (c : FileLRU) (node : Nat) (k value : Bytes) : FileLRU :=
  { c with size := c.size + value.length, heap := c.heap.alloc node ⟨k, some value⟩ }

theorem taken_eq (n rounds : Nat) (hh : Holds c.heap c.head c.tail es)
    (hsize : c.size = total es + n) (hn : n ≤ c.capacity) (hfull : c.capacity < c.size)
    (hrounds : es.length ≤ rounds) :
    taken rounds c = (evicted c.capacity n es).map Entry.node := by
  induction es generalizing c rounds with
  | nil =>
    rw [total_nil] at hsize
    omega
  | cons e es ih =>
    obtain ⟨rounds, rfl⟩ : ∃ m, rounds = m + 1 := ⟨rounds - 1, by simp at hrounds; omega⟩
    obtain ⟨h, heq, -, -, hh'⟩ := evictStep_spec hh
    have hbig : ¬ total (e :: es) + n ≤ c.capacity := by omega
    have hsize' : c.size - e.content.length = total es + n := by rw [hsize, total_cons]; omega
    simp only [taken, hh.linked.next?, heq, evicted, if_neg hbig, hsize', List.map_cons]
    by_cases hfull' : c.capacity < total es + n
    · rw [if_pos hfull', ih (c := { c with
        map := c.map.erase e.key, size := total es + n, heap := h }) rounds hh' rfl hn hfull'
        (by simpa using hrounds)]
    · rw [if_neg hfull', evicted_eq_nil (by omega)]
      rfl

/-- The cache `c` after the uses and puts in `h`, with the entries `es` between `head_` and
`tail_`. -/
structure IsLru (c : FileLRU) (h : Lru.History Bytes Bytes) (es : List Entry) : Prop where
  consistent : c.Consistent es
  recent : es.map Entry.key = h.uses.dedup.filter fun k => k ∈ c.map
  current : ∀ e ∈ es, h.written e.key = some e.content
  got : ∀ k, ∃ c', c.get k = some (if k ∈ c.map then h.written k else none, c')
  evicts : ∀ disk node k value, k ∉ c.map → node ∉ c.heap → c.load disk k = .ok value →
    ∃ c' m, c.put disk node k = some (.ok value, c') ∧
      c'.Consistent (es.drop m ++ [⟨node, k, value⟩]) ∧ m ≤ es.length ∧
      total (es.drop m) + value.length ≤ c.capacity ∧
      (∀ i < m, c.capacity < total (es.drop i) + value.length) ∧
      (c.capacity < c.size + value.length →
        ∀ rounds, es.length ≤ rounds →
          taken rounds (c.added node k value) = (es.take m).map Entry.node ∧
          c.tail ∉ taken rounds (c.added node k value))
  safe : ∀ op : CacheOp, ¬ op.Moves → op.Fresh c → ∃ c', op.apply c = some c'

theorem isLru_of_follows {h : Lru.History Bytes Bytes} (hc : c.Consistent es)
    (hf : (recency es).Follows h) : c.IsLru h es := by
  refine ⟨hc, ?_, ?_, ?_, ?_, ?_⟩
  · have hkeys := hf.keys_eq
    rw [keys_recency] at hkeys
    rw [hkeys]
    apply List.filter_congr
    intro k _
    rw [decide_eq_decide]
    exact hc.mem_map_iff.symm
  · intro e he
    exact hf.current _ (List.mem_map_of_mem he)
  · intro k
    obtain ⟨v, c', es', heq, -, -, hget⟩ := get_refines hc k
    have hvalue := (hf.get k).1
    simp only [hget, ← hc.mem_recency] at hvalue
    exact ⟨c', by rw [heq, hvalue]⟩
  · intro disk node k value hk hnode hload
    obtain ⟨c', heq, -, hc'⟩ := putNew_consistent hc (AList.lookup_eq_none.mpr hk)
      (load_fits hload) hnode
    obtain ⟨m, hm, hevicted, hkept, hfits, hshort⟩ := kept_eq_drop (load_fits hload) es
    rw [hkept] at hc'
    refine ⟨c', m, ?_, hc', hm, hfits, hshort, ?_⟩
    · simp only [put, hload, AList.lookup_eq_none.mpr hk, heq, Option.bind_eq_bind,
        Option.bind_some]
    · intro hfull rounds hrounds
      have htaken := taken_eq (c := c.added node k value) value.length rounds
        (hc.holds.alloc hnode ⟨k, some value⟩) (by rw [added, hc.size]) (load_fits hload) hfull
        hrounds
      rw [show (c.added node k value).capacity = c.capacity from rfl, hevicted] at htaken
      refine ⟨htaken, ?_⟩
      rw [htaken]
      intro hmem
      obtain ⟨e, he, hnode'⟩ := List.mem_map.mp hmem
      obtain ⟨l, r, hes⟩ := List.append_of_mem (List.take_subset m es he)
      exact (Holds.notMem_of_split (hes ▸ hc.holds)).2.2 hnode'
  · intro op hop hfresh
    obtain ⟨c', _, heq, -⟩ := apply_refines op hop hc hfresh
    exact ⟨c', heq⟩

/-- The cache refines an LRU list: after every run its list is what the calls make of an LRU list.
So it has the cached keys in the order of their last uses, with what was put last under each, which
is what `get` returns; a `put` of another key takes the shortest run of entries from the front of
the list that makes room, and its loop never comes to the sentinel behind the list; and no call goes
through a null or a dangling pointer. -/
theorem cache_is_lru (path : Path) (capacity : Nat) {head tail : Nat} (hne : head ≠ tail)
    {ops : List CacheOp} {h : Lru.History Bytes Bytes}
    (hrun : Run LruStep (FileLRU.new path capacity head tail, .new) ops (c, h)) :
    ∃ es, recency es = (FileLRU.new path capacity head tail).lruOf ops ∧ c.IsLru h es := by
  obtain ⟨es, hc, hf, hlist⟩ := follows_of_run path capacity hne hrun
  exact ⟨es, hlist, isLru_of_follows hc hf⟩

/-- `/a` is used after `/b`, grows when it is put again, and stays when `/b` makes room for `/c`;
`/a` goes when its file does. -/
theorem cache_is_lru_grown :
    ∃ c h es, recency es = [(bytes "/c", bytes "hello")] ∧ FileLRU.IsLru c h es ∧
      h.uses = [bytes "/a", bytes "/b", bytes "/a", bytes "/a", bytes "/c"] := by
  obtain ⟨⟨c, h⟩, hrun, huses⟩ := Run.exists_of_guarded
    (g := fun s : FileLRU × Lru.History Bytes Bytes => s.2.uses)
    (f := fun s op => (CacheOp.apply s.1 op).map fun c => (c, CacheOp.record s.1 s.2 op))
    (p := fun s op => ¬ CacheOp.Moves op ∧ CacheOp.Fresh s.1 op)
    (s := (FileLRU.new [] 16 0 1, Lru.History.new))
    (l := [.put (fun _ => .regular (bytes "hello")) 2 (bytes "/a"),
      .put (fun _ => .regular (bytes "hello")) 3 (bytes "/b"), .get (bytes "/a"),
      .put (fun _ => .regular (bytes "hello again")) 4 (bytes "/a"),
      .put (fun _ => .regular (bytes "hello")) 5 (bytes "/c"), .delFile [bytes "a"]])
    (a := [bytes "/a", bytes "/b", bytes "/a", bytes "/a", bytes "/c"]) (by decide +kernel)
  obtain ⟨es, hlist, hlru⟩ := cache_is_lru [] 16 Nat.zero_ne_one (hrun.mono (by
    intro s op s' ⟨hok, happly⟩
    obtain ⟨c', hc', rfl⟩ := Option.map_eq_some_iff.mp happly
    exact ⟨hok, hc', rfl⟩))
  exact ⟨c, h, es, hlist.trans (by decide +kernel), hlru, huses⟩

end FileLRU

end MuduoServer
