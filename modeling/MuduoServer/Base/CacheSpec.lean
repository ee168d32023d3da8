import MuduoServer.Base.FileLRU
import Mathlib.Data.List.Perm.Subperm

namespace MuduoServer

/-- A node of the cache's list, with its address. -/
structure Entry where
  node : Nat
  key : Bytes
  content : Bytes

/-- The sum of `readableBytes` over a part of the list. -/
def total (es : List Entry) : Nat := (es.map fun e => e.content.length).sum

/-- The memory holds the entries `es`, from the least recently used on, from `head` to `tail`. -/
structure Holds (h : Heap Nat CacheNode) (head tail : Nat) (es : List Entry) : Prop where
  linked : h.Between head (es.map Entry.node) tail
  stored : ∀ e ∈ es, h.value? e.node = some ⟨e.key, some e.content⟩

/-- The entries that make room for `n` more bytes: as few as possible, least recently used first. -/
def evicted (capacity n : Nat) : List Entry → List Entry
  | [] => []
  | e :: es => if total (e :: es) + n ≤ capacity then [] else e :: evicted capacity n es

def kept (capacity n : Nat) : List Entry → List Entry
  | [] => []
  | e :: es => if total (e :: es) + n ≤ capacity then e :: es else kept capacity n es

def eraseAll (m : AList (fun _ : Bytes => Nat)) (ks : List Bytes) : AList (fun _ : Bytes => Nat) :=
  ks.foldl (fun m k => m.erase k) m

theorem total_nil : total [] = 0 := rfl

theorem total_cons (e : Entry) (es : List Entry) :
    total (e :: es) = e.content.length + total es := by
  simp [total]

theorem total_append (es es' : List Entry) : total (es ++ es') = total es + total es' := by
  simp [total]

theorem evicted_append_kept (capacity n : Nat) (es : List Entry) :
    evicted capacity n es ++ kept capacity n es = es := by
  induction es with
  | nil => rfl
  | cons e es ih =>
    rw [evicted, kept]
    split_ifs with h
    · rfl
    · rw [List.cons_append, ih]

theorem evicted_eq_nil {capacity n : Nat} {es : List Entry} (h : total es + n ≤ capacity) :
    evicted capacity n es = [] := by
  cases es with
  | nil => rfl
  | cons e es => rw [evicted, if_pos h]

theorem kept_eq_self {capacity n : Nat} {es : List Entry} (h : total es + n ≤ capacity) :
    kept capacity n es = es := by
  have happ := evicted_append_kept capacity n es
  rwa [evicted_eq_nil h, List.nil_append] at happ

theorem lookup_eraseAll (m : AList (fun _ : Bytes => Nat)) (ks : List Bytes) (k : Bytes) :
    (eraseAll m ks).lookup k = if k ∈ ks then none else m.lookup k := by
  induction ks generalizing m with
  | nil => simp [eraseAll]
  | cons k' ks ih =>
    have hstep : eraseAll m (k' :: ks) = eraseAll (m.erase k') ks := rfl
    rw [hstep, ih]
    by_cases hk : k = k'
    · subst hk
      simp
    · simp [AList.lookup_erase_ne hk, hk]

namespace Holds

variable {h : Heap Nat CacheNode} {head tail : Nat} {es l r : List Entry} {e : Entry} {node : Nat}

theorem mem (hh : Holds h head tail es) (he : e ∈ es) : e.node ∈ h :=
  hh.linked.mem (List.mem_map_of_mem he)

theorem sentinels (hh : Holds h head tail es) : head ∈ h ∧ tail ∈ h := by
  obtain ⟨b, r, hr⟩ : ∃ b r, es.map Entry.node ++ [tail] = b :: r :=
    List.exists_cons_of_ne_nil (by simp)
  have hl : h.Linked (head :: b :: r) := hr ▸ hh.linked
  refine ⟨hl.mem (by simp), hl.mem ?_⟩
  rw [← hr]
  simp

theorem nodup (hh : Holds h head tail es) : (es.map Entry.node).Nodup := by
  have hnd := hh.linked.nodup
  simp only [List.nodup_cons, List.nodup_append] at hnd
  exact hnd.2.1

theorem fresh (hh : Holds h head tail es) (hn : node ∉ h) :
    node ∉ es.map Entry.node ∧ node ≠ head ∧ node ≠ tail := by
  refine ⟨fun hm => hn (hh.linked.mem hm), ?_, ?_⟩
  · exact fun heq => hn (heq ▸ hh.sentinels.1)
  · exact fun heq => hn (heq ▸ hh.sentinels.2)

/-- Two entries of one node are the same. -/
theorem eq_of_node {e' : Entry} (hh : Holds h head tail es) (he : e ∈ es) (he' : e' ∈ es)
    (heq : e.node = e'.node) : e = e' := by
  have h₁ := hh.stored e he
  have h₂ := hh.stored e' he'
  rw [heq, h₂] at h₁
  cases e
  cases e'
  simp only [Option.some.injEq, CacheNode.mk.injEq] at h₁ heq
  simp [heq, h₁.1, h₁.2]

theorem notMem_of_split (hh : Holds h head tail (l ++ e :: r)) :
    e.node ∉ (l ++ r).map Entry.node ∧ e.node ≠ head ∧ e.node ≠ tail := by
  have hnd := hh.linked.nodup
  simp only [List.map_append, List.map_cons, List.nodup_cons, List.nodup_append, List.mem_append,
    List.mem_cons] at hnd
  refine ⟨?_, ?_, ?_⟩
  · intro hm
    simp only [List.map_append, List.mem_append] at hm
    rcases hm with hm | hm
    · exact hnd.2.1.2.2 _ hm _ (Or.inl rfl) rfl
    · exact hnd.2.1.2.1.1 hm
  · intro heq
    exact hnd.1 (by simp [heq])
  · intro heq
    exact hnd.2.2.2 e.node (by simp) tail (by simp) heq

theorem length_le (hh : Holds h head tail es) : es.length ≤ h.keys.length := by
  have hsub : es.map Entry.node ⊆ h.keys := by
    intro p hp
    exact AList.mem_keys.mp (hh.linked.mem hp)
  simpa using (List.subperm_of_subset hh.nodup hsub).length_le

theorem unlink (hh : Holds h head tail (l ++ e :: r)) :
    ∃ h', h.unlink e.node = some h' ∧ h'.value? = h.value? ∧ Holds h' head tail (l ++ r) := by
  have hl := hh.linked
  rw [List.map_append, List.map_cons] at hl
  obtain ⟨h', heq, hv, hl'⟩ := hl.remove
  refine ⟨h', heq, hv, by simpa using hl', ?_⟩
  intro e' he'
  rw [hv]
  exact hh.stored e' (by simp at he' ⊢; tauto)

theorem push (hh : Holds h head tail es) (hnew : e.node ∉ es.map Entry.node)
    (hhead : e.node ≠ head) (htail : e.node ≠ tail)
    (hv : h.value? e.node = some ⟨e.key, some e.content⟩) :
    ∃ h', h.insertBefore tail e.node = some h' ∧ h'.value? = h.value? ∧
      Holds h' head tail (es ++ [e]) := by
  have hmem : e.node ∈ h := Heap.value?_isSome.mp (by rw [hv]; rfl)
  obtain ⟨h', heq, hv', hl'⟩ := hh.linked.push hmem hhead htail hnew
  refine ⟨h', heq, hv', by simpa using hl', ?_⟩
  intro e' he'
  rw [hv']
  rcases List.mem_append.mp he' with he' | he'
  · exact hh.stored e' he'
  · rw [List.mem_singleton.mp he', hv]

theorem alloc (hh : Holds h head tail es) (hn : node ∉ h) (v : CacheNode) :
    Holds (h.alloc node v) head tail es := by
  obtain ⟨hv, hp, hx⟩ := Heap.alloc_spec v hn
  refine ⟨hh.linked.of_eq hp hx, ?_⟩
  intro e he
  have hne : e.node ≠ node := fun heq => hn (heq ▸ hh.mem he)
  rw [hv, Function.update_of_ne hne]
  exact hh.stored e he

theorem free (hh : Holds h head tail es) (hn : node ∉ es.map Entry.node) (hhead : node ≠ head)
    (htail : node ≠ tail) : Holds (h.free node) head tail es := by
  refine ⟨hh.linked.free (by simp at hn ⊢; tauto), ?_⟩
  intro e he
  have hne : e.node ≠ node := fun heq => hn (heq ▸ List.mem_map_of_mem he)
  rw [(Heap.free_spec h node).1, Function.update_of_ne hne]
  exact hh.stored e he

end Holds

namespace FileLRU

variable {c : FileLRU} {es l r : List Entry} {e : Entry} {k value : Bytes} {node : Nat}

theorem touch_spec (hh : Holds c.heap c.head c.tail (l ++ e :: r)) :
    ∃ h, c.touch e.node = some { c with heap := h } ∧ h.value? = c.heap.value? ∧
      Holds h c.head c.tail (l ++ r ++ [e]) := by
  obtain ⟨hnew, hhead, htail⟩ := hh.notMem_of_split
  have hv := hh.stored e (by simp)
  obtain ⟨h₁, heq₁, hv₁, hh₁⟩ := hh.unlink
  obtain ⟨h₂, heq₂, hv₂, hh₂⟩ := hh₁.push hnew hhead htail (by rw [hv₁, hv])
  refine ⟨h₂, ?_, hv₂.trans hv₁, hh₂⟩
  simp only [touch, remove, push_back, heq₁, heq₂, Option.bind_eq_bind, Option.bind_some]

theorem get_hit (hh : Holds c.heap c.head c.tail (l ++ e :: r))
    (hk : c.map.lookup k = some e.node) :
    ∃ h, c.get k = some (some e.content, { c with heap := h }) ∧
      Holds h c.head c.tail (l ++ r ++ [e]) := by
  obtain ⟨h, heq, hv, hh'⟩ := touch_spec hh
  have hread : h.value? e.node = some ⟨e.key, some e.content⟩ := by
    rw [hv]
    exact hh.stored e (by simp)
  refine ⟨h, ?_, hh'⟩
  simp only [get, hk, heq, hread, Option.bind_eq_bind, Option.bind_some]

theorem get_miss (hk : c.map.lookup k = none) : c.get k = some (none, c) := by
  simp only [get, hk]

/-- The least recently used entry goes, with whatever the map has under the key of its node. -/
theorem evictStep_spec (hh : Holds c.heap c.head c.tail (e :: es)) :
    ∃ h, c.evictStep = some { c with
        map := c.map.erase e.key, size := c.size - e.content.length, heap := h } ∧
      (∀ p, p ≠ e.node → h.value? p = c.heap.value? p) ∧ e.node ∉ h ∧
      Holds h c.head c.tail es := by
  obtain ⟨hnew, hhead, htail⟩ := hh.notMem_of_split (l := [])
  have hnext : c.heap.next? c.head = some e.node := hh.linked.next?
  have hv := hh.stored e (by simp)
  obtain ⟨h, heq, hv', hh'⟩ := hh.unlink (l := [])
  have hread : h.value? e.node = some ⟨e.key, some e.content⟩ := by rw [hv', hv]
  refine ⟨h.free e.node, ?_, ?_, Heap.notMem_free, hh'.free hnew hhead htail⟩
  · simp only [evictStep, hnext, hv, remove, heq, readableBytes, hread, Option.bind_eq_bind,
      Option.bind_some]
  · intro p hp
    rw [(Heap.free_spec h e.node).1, Function.update_of_ne hp, hv']

/-- With room for `n` bytes to be made, and room for `n` bytes at all, the loop ends. -/
theorem evict_spec (n rounds : Nat) (hh : Holds c.heap c.head c.tail es)
    (hsize : c.size = total es + n) (hn : n ≤ c.capacity) (hfull : c.capacity < c.size)
    (hrounds : es.length ≤ rounds) :
    ∃ h, c.evict rounds = some { c with
        map := eraseAll c.map ((evicted c.capacity n es).map Entry.key),
        size := total (kept c.capacity n es) + n, heap := h } ∧
      (∀ p, p ∉ es.map Entry.node → h.value? p = c.heap.value? p) ∧
      (∀ e ∈ evicted c.capacity n es, e.node ∉ h) ∧
      Holds h c.head c.tail (kept c.capacity n es) := by
  induction es generalizing c rounds with
  | nil =>
    simp only [total, List.map_nil, List.sum_nil] at hsize
    omega
  | cons e es ih =>
    obtain ⟨rounds, rfl⟩ : ∃ m, rounds = m + 1 := ⟨rounds - 1, by simp at hrounds; omega⟩
    obtain ⟨h, heq, hframe, hgone, hh'⟩ := evictStep_spec hh
    have hnew := (hh.notMem_of_split (l := [])).1
    have hbig : ¬ total (e :: es) + n ≤ c.capacity := by omega
    have hsize' : c.size - e.content.length = total es + n := by rw [hsize, total_cons]; omega
    rw [evict, heq, evicted, if_neg hbig, kept, if_neg hbig]
    simp only [Option.bind_eq_bind, Option.bind_some, hsize']
    by_cases hfull' : c.capacity < total es + n
    · obtain ⟨h', heq', hframe', hgone', hh''⟩ :=
        ih (c := { c with map := c.map.erase e.key, size := total es + n, heap := h }) rounds hh'
          rfl hn hfull' (by simpa using hrounds)
      refine ⟨h', by rw [if_pos hfull', heq']; rfl, ?_, ?_, hh''⟩
      · intro p hp
        simp only [List.map_cons, List.mem_cons, not_or] at hp
        rw [hframe' p hp.2, hframe p hp.1]
      · intro e' he'
        rcases List.mem_cons.mp he' with rfl | he'
        · rw [← Heap.value?_isSome, hframe' _ hnew, Heap.value?_isSome]
          exact hgone
        · exact hgone' e' he'
    · rw [if_neg hfull', evicted_eq_nil (by omega), kept_eq_self (by omega)]
      refine ⟨h, rfl, ?_, ?_, hh'⟩
      · intro p hp
        exact hframe p (by simp at hp; tauto)
      · intro e' he'
        rwa [List.mem_singleton.mp he']

theorem putCached_spec (hh : Holds c.heap c.head c.tail (l ++ e :: r)) (value : Bytes) :
    ∃ h, c.putCached e.node value = some { c with
        size := c.size - e.content.length + value.length, heap := h } ∧
      (∀ p, p ≠ e.node → h.value? p = c.heap.value? p) ∧
      Holds h c.head c.tail (l ++ r ++ [{ e with content := value }]) := by
  have hv := hh.stored e (by simp)
  have hmem : e.node ∈ c.heap := hh.mem (by simp)
  obtain ⟨h₁, heq₁, hv₁, hp₁, hn₁⟩ :=
    Heap.setValue_spec (⟨e.key, some value⟩ : CacheNode) hmem
  have hh₁ : Holds h₁ c.head c.tail (l ++ { e with content := value } :: r) := by
    constructor
    · have hl := hh.linked.of_eq hp₁ hn₁
      simpa [Heap.Between] using hl
    · intro e' he'
      rw [hv₁]
      by_cases heq : e'.node = e.node
      · -- the entry that was written, as its node lies at no other place
        have he : e' = { e with content := value } := by
          have hnotin := hh.notMem_of_split.1
          rcases List.mem_append.mp he' with hm | hm
          · exact absurd (heq ▸ List.mem_map_of_mem (List.mem_append_left r hm)) hnotin
          · rcases List.mem_cons.mp hm with hm | hm
            · exact hm
            · exact absurd (heq ▸ List.mem_map_of_mem (List.mem_append_right l hm)) hnotin
        rw [he, Function.update_self]
      · rw [Function.update_of_ne heq]
        apply hh.stored e'
        rcases List.mem_append.mp he' with hm | hm
        · exact List.mem_append_left _ hm
        · rcases List.mem_cons.mp hm with hm | hm
          · exact absurd (congrArg Entry.node hm) heq
          · exact List.mem_append_right _ (List.mem_cons_of_mem _ hm)
  obtain ⟨h₂, heq₂, hv₂, hh₂⟩ := touch_spec
    (c := { c with size := c.size - e.content.length + value.length, heap := h₁ }) hh₁
  refine ⟨h₂, ?_, fun p hp => by rw [hv₂, hv₁, Function.update_of_ne hp], hh₂⟩
  simp only [putCached, readableBytes, hv, heq₁, Option.bind_eq_bind, Option.bind_some]
  exact heq₂

theorem putNew_spec (hh : Holds c.heap c.head c.tail es) (hsize : c.size = total es)
    (hfit : value.length ≤ c.capacity) (hnode : node ∉ c.heap) (k : Bytes) :
    ∃ h, c.putNew node k value = some { c with
        map := (eraseAll c.map ((evicted c.capacity value.length es).map Entry.key)).insert k node,
        size := total (kept c.capacity value.length es) + value.length, heap := h } ∧
      (∀ e ∈ evicted c.capacity value.length es, e.node ∉ h) ∧
      Holds h c.head c.tail (kept c.capacity value.length es ++ [⟨node, k, value⟩]) := by
  obtain ⟨hnew, hhead, htail⟩ := hh.fresh hnode
  have hh₁ := hh.alloc hnode ⟨k, some value⟩
  have hv₁ : (c.heap.alloc node ⟨k, some value⟩).value? node = some ⟨k, some value⟩ := by
    rw [(Heap.alloc_spec _ hnode).1, Function.update_self]
  have hkept : node ∉ (kept c.capacity value.length es).map Entry.node := by
    intro hm
    rw [← evicted_append_kept c.capacity value.length es, List.map_append] at hnew
    exact hnew (List.mem_append_right _ hm)
  by_cases hfull : c.capacity < total es + value.length
  · obtain ⟨h₂, heq₂, hframe, hgone, hh₂⟩ := evict_spec
      (c := { c with size := c.size + value.length, heap := c.heap.alloc node ⟨k, some value⟩ })
      value.length _ hh₁ (by simp [hsize]) hfit (by simpa [hsize] using hfull) hh₁.length_le
    obtain ⟨h₃, heq₃, hv₃, hh₃⟩ := hh₂.push (e := ⟨node, k, value⟩) hkept hhead htail
      (by rw [hframe node hnew]; exact hv₁)
    refine ⟨h₃, ?_, ?_, hh₃⟩
    · simp only [putNew, hsize, if_pos hfull] at heq₂ ⊢
      rw [heq₂]
      simp only [push_back, Option.bind_eq_bind, Option.bind_some, heq₃]
    · intro e he
      rw [← Heap.value?_isSome, hv₃, Heap.value?_isSome]
      exact hgone e he
  · rw [evicted_eq_nil (by omega), kept_eq_self (by omega)] at *
    obtain ⟨h₃, heq₃, -, hh₃⟩ := hh₁.push (e := ⟨node, k, value⟩) hnew hhead htail hv₁
    refine ⟨h₃, ?_, fun e he => absurd he List.not_mem_nil, hh₃⟩
    simp only [putNew, hsize, if_neg hfull, push_back, Option.bind_eq_bind, Option.bind_some, heq₃]
    rfl

theorem drop_spec (hh : Holds c.heap c.head c.tail (l ++ e :: r))
    (hk : c.map.lookup k = some e.node) :
    ∃ h, c.drop k = some { c with
        size := c.size - e.content.length, map := c.map.erase k, heap := h } ∧
      Holds h c.head c.tail (l ++ r) := by
  obtain ⟨hnew, hhead, htail⟩ := hh.notMem_of_split
  have hv := hh.stored e (by simp)
  obtain ⟨h, heq, -, hh'⟩ := hh.unlink
  refine ⟨h.free e.node, ?_, hh'.free hnew hhead htail⟩
  simp only [drop, hk, readableBytes, hv, remove, heq, Option.bind_eq_bind, Option.bind_some]

theorem lookup_moveFile {old_path : Path} (new_path : Path) {p : Nat}
    (hp : c.map.lookup (c.key old_path) = some p) (k : Bytes) :
    (c.moveFile old_path new_path).map.lookup k =
      if k = c.key new_path then some p
      else if k = c.key old_path then none else c.map.lookup k := by
  simp only [moveFile, hp]
  by_cases hn : k = c.key new_path
  · rw [if_pos hn, hn, AList.lookup_insert]
  · rw [if_neg hn, AList.lookup_insert_ne hn]
    by_cases ho : k = c.key old_path
    · rw [if_pos ho, ho, AList.lookup_erase]
    · rw [if_neg ho, AList.lookup_erase_ne ho]

theorem moveFile_miss {old_path : Path} (new_path : Path) (hk : c.key old_path ∉ c.map) :
    c.moveFile old_path new_path = c := by
  simp only [moveFile, AList.lookup_eq_none.mpr hk]

end FileLRU

end MuduoServer
