import MuduoServer.Base.CacheContents
import MuduoServer.Base.CacheLru

namespace MuduoServer.FileLRU

variable {c : FileLRU} {es : List Entry} {k k' value : Bytes} {node : Nat} {disk : Disk}

/-- The key leads to a node that was deleted. -/
def Dangles (c : FileLRU) (k : Bytes) : Prop := ∃ p, c.map.lookup k = some p ∧ p ∉ c.heap

/-- The key leads to a node of the list, which is whole. -/
def Lives (c : FileLRU) (k : Bytes) : Prop :=
  ∃ l e r, Holds c.heap c.head c.tail (l ++ e :: r) ∧ c.map.lookup k = some e.node

/-- A request for it goes through the dangling pointer. -/
theorem getFile_of_dangles (h : c.Dangles k) : c.getFile disk node k = none := by
  obtain ⟨p, hp, hgone⟩ := h
  have hprev : c.heap.prev? p = none := by
    cases hq : c.heap.prev? p with
    | none => rfl
    | some q => exact absurd (Heap.mem_of_prev? hq) hgone
  have hget : c.get k = none := by
    simp only [get, hp, touch, remove, Heap.unlink, hprev, Option.bind_eq_bind, Option.bind_none]
  simp only [getFile, hget, Option.bind_eq_bind, Option.bind_none]

/-- Where a node that is evicted is stored under another key as well, that key dangles. -/
theorem putNew_dangles (hc : c.Held es) (hfit : value.length ≤ c.capacity) (hnode : node ∉ c.heap)
    (hk : k ∉ c.map) (hown : ¬ c.EvictsOwn value.length) :
    ∃ c', c.putNew node k value = some c' ∧ c'.path = c.path ∧ c'.capacity = c.capacity ∧
      c'.Lives k ∧ ∃ k' ∈ c.map, c'.Dangles k' := by
  obtain ⟨h, heq, hgone, hh⟩ := putNew_spec hc.holds hc.size hfit hnode k
  refine ⟨_, heq, rfl, rfl, ⟨_, ⟨node, k, value⟩, [], hh, AList.lookup_insert _⟩, ?_⟩
  rw [EvictsOwn, hc.entries_eq] at hown
  simp only [not_forall] at hown
  obtain ⟨k', hk', p, hp, hevicted, hnot⟩ := hown
  obtain ⟨e, he, rfl⟩ := List.mem_map.mp hevicted
  have hne : k' ≠ k := fun heq => hk (heq ▸ AList.mem_keys.mpr hk')
  refine ⟨k', AList.mem_keys.mpr hk', e.node, ?_, hgone e he⟩
  apply (AList.lookup_insert_ne hne).trans
  rw [lookup_eraseAll, if_neg hnot]
  exact hp

/-- A `put` of a key that lives leaves what dangles. -/
theorem put_lives (hl : c.Lives k) (hload : c.load disk k = .ok value) :
    ∃ c', c.put disk node k = some (.ok value, c') ∧ c'.path = c.path ∧
      c'.capacity = c.capacity ∧ c'.Lives k ∧ ∀ k', c.Dangles k' → c'.Dangles k' := by
  obtain ⟨l, e, r, hh, hp⟩ := hl
  obtain ⟨h, heq, hframe, hh'⟩ := putCached_spec hh value
  refine ⟨{ c with size := c.size - e.content.length + value.length, heap := h }, ?_, rfl, rfl,
    ⟨l ++ r, { e with content := value }, [], hh', hp⟩, ?_⟩
  · simp only [put, hload, hp, heq, Option.bind_eq_bind, Option.bind_some]
  · intro k' hd
    obtain ⟨p, hp', hgone⟩ := hd
    have hne : p ≠ e.node := fun heq => hgone (heq ▸ hh.mem (by simp))
    refine ⟨p, hp', ?_⟩
    show p ∉ h
    rw [← Heap.value?_isSome, hframe p hne, Heap.value?_isSome]
    exact hgone

end MuduoServer.FileLRU
