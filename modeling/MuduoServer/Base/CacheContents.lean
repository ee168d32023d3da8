import MuduoServer.Base.CacheInvariant

namespace MuduoServer.FileLRU

/-- What the cache has under a key. -/
def cached (c : FileLRU) (k : Bytes) : Option Bytes := do
  let p ← c.map.lookup k
  let n ← c.heap.value? p
  n.buf

/-- The list as the pointers have it from the node behind `p` on. -/
def walk (h : Heap Nat CacheNode) (tail : Nat) : Nat → Nat → List Entry
  | 0, _ => []
  | rounds + 1, p =>
    match h.next? p with
    | none => []
    | some q =>
      if q = tail then []
      else
        match h.value? q with
        | some ⟨k, some content⟩ => ⟨q, k, content⟩ :: walk h tail rounds q
        | _ => []

def entries (c : FileLRU) : List Entry := walk c.heap c.tail c.heap.keys.length c.head

/-- Room is made for `n` more bytes by evicting nodes that no key leads to but their own ones. -/
def EvictsOwn (c : FileLRU) (n : Nat) : Prop :=
  ∀ k ∈ c.map.keys, ∀ p ∈ c.map.lookup k,
    p ∈ (evicted c.capacity n c.entries).map Entry.node →
      k ∈ (evicted c.capacity n c.entries).map Entry.key

instance (c : FileLRU) (n : Nat) : Decidable (c.EvictsOwn n) :=
  inferInstanceAs (Decidable (∀ k ∈ c.map.keys, ∀ p ∈ c.map.lookup k,
    p ∈ (evicted c.capacity n c.entries).map Entry.node →
      k ∈ (evicted c.capacity n c.entries).map Entry.key))

/-- What the list and the map still have in common when nodes may be stored under other keys than
they carry, and nodes that nothing leads to any more may be in the list. -/
structure Held (c : FileLRU) (es : List Entry) : Prop where
  holds : Holds c.heap c.head c.tail es
  size : c.size = total es
  within : ∀ k p, c.map.lookup k = some p → ∃ e ∈ es, e.node = p
  injective : ∀ k k' p, c.map.lookup k = some p → c.map.lookup k' = some p → k = k'

variable {c : FileLRU} {es l r : List Entry} {e : Entry} {k value : Bytes} {node : Nat}

theorem Consistent.held (hc : c.Consistent es) : c.Held es := by
  refine ⟨hc.holds, hc.size, ?_, ?_⟩
  · intro k p hk
    obtain ⟨e, he, hp, -⟩ := (hc.agree k p).mp hk
    exact ⟨e, he, hp⟩
  · intro k k' p hk hk'
    obtain ⟨_, hv⟩ := hc.stored hk
    obtain ⟨_, hv'⟩ := hc.stored hk'
    exact (CacheNode.mk.inj (Option.some.inj (hv.symm.trans hv'))).1

theorem walk_eq {h : Heap Nat CacheNode} {head tail : Nat} (rounds : Nat)
    (hh : Holds h head tail es) (hr : es.length ≤ rounds) : walk h tail rounds head = es := by
  induction es generalizing head rounds with
  | nil =>
    cases rounds with
    | zero => rfl
    | succ rounds =>
      have hnext : h.next? head = some tail := (Heap.Linked.links (l := []) hh.linked).1
      simp only [walk, hnext, if_true]
  | cons e es ih =>
    obtain ⟨rounds, rfl⟩ : ∃ m, rounds = m + 1 := ⟨rounds - 1, by simp at hr; omega⟩
    have hnext : h.next? head = some e.node := hh.linked.next?
    have htail := (hh.notMem_of_split (l := [])).2.2
    have hv := hh.stored e (by simp)
    have hrest : Holds h e.node tail es :=
      ⟨⟨hh.linked.nodup.of_cons, (List.isChain_cons_cons.mp hh.linked.chain).2⟩,
        fun e' he' => hh.stored e' (by simp [he'])⟩
    simp only [walk, hnext, if_neg htail, hv, ih rounds hrest (by simpa using hr)]

theorem Held.entries_eq (hc : c.Held es) : c.entries = es :=
  walk_eq _ hc.holds hc.holds.length_le

theorem Held.cached_eq (hc : c.Held es) (he : e ∈ es) (hk : c.map.lookup k = some e.node) :
    c.cached k = some e.content := by
  simp only [cached, hk, hc.holds.stored e he, Option.bind_eq_bind, Option.bind_some]

theorem cached_eq_none (hk : c.map.lookup k = none) : c.cached k = none := by
  simp only [cached, hk, Option.bind_eq_bind, Option.bind_none]

theorem Held.lookup_eq_none (hc : c.Held es) (hk : c.cached k = none) :
    c.map.lookup k = none := by
  cases hp : c.map.lookup k with
  | none => rfl
  | some p =>
    obtain ⟨e, he, rfl⟩ := hc.within k p hp
    rw [hc.cached_eq he hp] at hk
    cases hk

theorem Held.mem_iff (hc : c.Held es) : k ∈ c.map ↔ c.cached k ≠ none := by
  rw [← AList.lookup_isSome, Option.isSome_iff_ne_none, not_iff_not]
  exact ⟨cached_eq_none, hc.lookup_eq_none⟩

/-- The entry of a key that is cached, in its place in the list. -/
theorem Held.split {b : Bytes} (hc : c.Held es) (hk : c.cached k = some b) :
    ∃ l e r, es = l ++ e :: r ∧ c.map.lookup k = some e.node ∧ e.content = b := by
  cases hp : c.map.lookup k with
  | none =>
    rw [cached_eq_none hp] at hk
    cases hk
  | some p =>
    obtain ⟨e, he, rfl⟩ := hc.within k p hp
    obtain ⟨l, r, hes⟩ := List.append_of_mem he
    rw [hc.cached_eq he hp] at hk
    exact ⟨l, e, r, hes, rfl, Option.some.inj hk⟩

/-- After the nodes of `es'` took the place of those of `es`, one for one. -/
theorem Held.replace {c' : FileLRU} {es' : List Entry} (hc : c.Held es)
    (hh : Holds c'.heap c'.head c'.tail es') (hsize : c'.size = total es')
    (hmap : c'.map = c.map) (hnodes : ∀ e ∈ es, ∃ e' ∈ es', e'.node = e.node) :
    c'.Held es' := by
  refine ⟨hh, hsize, ?_, ?_⟩
  · intro k p hp
    rw [hmap] at hp
    obtain ⟨e, he, rfl⟩ := hc.within k p hp
    exact hnodes e he
  · rw [hmap]
    exact hc.injective

theorem get_held {b : Bytes} (hc : c.Held es) (hk : c.cached k = some b) :
    ∃ c' es', c.get k = some (some b, c') ∧ c'.path = c.path ∧ c'.capacity = c.capacity ∧
      c'.Held es' ∧ ∀ k', c'.cached k' = c.cached k' := by
  obtain ⟨l, e, r, rfl, hp, rfl⟩ := hc.split hk
  obtain ⟨h, heq, hh⟩ := get_hit hc.holds hp
  have hmem : ∀ e', e' ∈ l ++ e :: r ↔ e' ∈ l ++ r ++ [e] := by
    intro e'
    simp only [List.mem_append, List.mem_cons, List.not_mem_nil]
    tauto
  have hsize : c.size = total (l ++ r ++ [e]) := by
    rw [hc.size]
    simp only [total_append, total_cons, total_nil]
    omega
  have hc' : FileLRU.Held { c with heap := h } (l ++ r ++ [e]) :=
    hc.replace hh hsize rfl fun e' he' => ⟨e', (hmem e').mp he', rfl⟩
  refine ⟨{ c with heap := h }, _, heq, rfl, rfl, hc', ?_⟩
  intro k'
  cases hp' : c.map.lookup k' with
  | none => rw [cached_eq_none hp', cached_eq_none (c := { c with heap := h }) hp']
  | some p =>
    obtain ⟨e', he', rfl⟩ := hc.within k' p hp'
    rw [hc.cached_eq he' hp', hc'.cached_eq ((hmem e').mp he') hp']

theorem putCached_held {b : Bytes} (hc : c.Held es) (hk : c.cached k = some b) (value : Bytes) :
    ∃ p c' es', c.map.lookup k = some p ∧ c.putCached p value = some c' ∧ c'.path = c.path ∧
      c'.capacity = c.capacity ∧ c'.Held es' ∧ c'.cached k = some value ∧
      ∀ k', k' ≠ k → c'.cached k' = c.cached k' := by
  obtain ⟨l, e, r, rfl, hp, rfl⟩ := hc.split hk
  obtain ⟨h, heq, -, hh⟩ := putCached_spec hc.holds value
  have hsize : c.size - e.content.length + value.length =
      total (l ++ r ++ [{ e with content := value }]) := by
    rw [hc.size]
    simp only [total_append, total_cons, total_nil]
    omega
  have hkeep : ∀ e' ∈ l ++ e :: r, e'.node ≠ e.node →
      e' ∈ l ++ r ++ [{ e with content := value }] := by
    intro e' he' hne
    have hne' : e' ≠ e := fun h => hne (congrArg Entry.node h)
    simp only [List.mem_append, List.mem_cons] at he' ⊢
    tauto
  have hlast : { e with content := value } ∈ l ++ r ++ [{ e with content := value }] := by simp
  have hc' : FileLRU.Held { c with
      size := c.size - e.content.length + value.length, heap := h }
      (l ++ r ++ [{ e with content := value }]) := by
    refine hc.replace hh hsize rfl ?_
    intro e' he'
    by_cases hne : e'.node = e.node
    · exact ⟨{ e with content := value }, hlast, hne.symm⟩
    · exact ⟨e', hkeep e' he' hne, rfl⟩
  refine ⟨e.node, _, _, hp, heq, rfl, rfl, hc', hc'.cached_eq hlast hp, ?_⟩
  intro k' hk'
  cases hp' : c.map.lookup k' with
  | none => rw [cached_eq_none hp', cached_eq_none]; exact hp'
  | some p =>
    obtain ⟨e', he', rfl⟩ := hc.within k' p hp'
    have hne : e'.node ≠ e.node := fun h => hk' (hc.injective _ _ _ (h ▸ hp') hp)
    rw [hc.cached_eq he' hp', hc'.cached_eq (hkeep e' he' hne) hp']

/-- A key that evictions leave in the map leads to an entry that is kept. -/
theorem Held.kept_of_lookup {n p : Nat} (hc : c.Held es) (hown : c.EvictsOwn n)
    (hp : (eraseAll c.map ((evicted c.capacity n es).map Entry.key)).lookup k = some p) :
    c.map.lookup k = some p ∧ ∃ e ∈ kept c.capacity n es, e.node = p := by
  rw [EvictsOwn, hc.entries_eq] at hown
  rw [lookup_eraseAll] at hp
  split at hp
  · cases hp
  · rename_i hnot
    refine ⟨hp, ?_⟩
    obtain ⟨e, he, rfl⟩ := hc.within k p hp
    rw [← evicted_append_kept c.capacity n es, List.mem_append] at he
    rcases he with he | he
    · have hmem : k ∈ c.map.keys :=
        AList.mem_keys.mp (AList.lookup_isSome.mp (by rw [hp]; rfl))
      exact absurd (hown k hmem _ hp (List.mem_map_of_mem he)) hnot
    · exact ⟨e, he, rfl⟩

/-- A new key: it is cached, and no other key has got another content. -/
theorem putNew_held (k : Bytes) (hc : c.Held es) (hfit : value.length ≤ c.capacity)
    (hnode : node ∉ c.heap) :
    ∃ c', c.putNew node k value = some c' ∧ c'.path = c.path ∧ c'.capacity = c.capacity ∧
      (c.EvictsOwn value.length → (∃ es', c'.Held es') ∧ c'.cached k = some value ∧
        ∀ k', k' ≠ k → c'.cached k' = c.cached k' ∨ c'.cached k' = none) := by
  obtain ⟨h, heq, -, hh⟩ := putNew_spec hc.holds hc.size hfit hnode k
  refine ⟨_, heq, rfl, rfl, ?_⟩
  intro hown
  have hsplit := evicted_append_kept c.capacity value.length es
  have hleft : ∀ k' p, k' ≠ k →
      ((eraseAll c.map ((evicted c.capacity value.length es).map Entry.key)).insert k node).lookup
        k' = some p →
      c.map.lookup k' = some p ∧ ∃ e ∈ kept c.capacity value.length es, e.node = p := by
    intro k' p hne hp
    rw [AList.lookup_insert_ne hne] at hp
    exact hc.kept_of_lookup hown hp
  have hnew := (hc.holds.fresh hnode).1
  have hout : ∀ e ∈ kept c.capacity value.length es, e.node ≠ node := by
    intro e he heq'
    apply hnew
    rw [← hsplit, List.map_append, ← heq']
    exact List.mem_append_right _ (List.mem_map_of_mem he)
  obtain ⟨c', hdef⟩ : ∃ c', c' = { c with
      map := (eraseAll c.map ((evicted c.capacity value.length es).map Entry.key)).insert k node,
      size := total (kept c.capacity value.length es) + value.length, heap := h } := ⟨_, rfl⟩
  have hmap : c'.map =
      (eraseAll c.map ((evicted c.capacity value.length es).map Entry.key)).insert k node := by
    rw [hdef]
  have hself : c'.map.lookup k = some node := by rw [hmap, AList.lookup_insert]
  have hc' : c'.Held (kept c.capacity value.length es ++ [⟨node, k, value⟩]) := by
    refine ⟨by rw [hdef]; exact hh, by rw [hdef]; simp [total], ?_, ?_⟩
    · intro k' p hp
      by_cases hne : k' = k
      · rw [hne, hself] at hp
        exact ⟨⟨node, k, value⟩, by simp, Option.some.inj hp⟩
      · rw [hmap] at hp
        obtain ⟨-, e, he, rfl⟩ := hleft k' p hne hp
        exact ⟨e, by simp [he], rfl⟩
    · intro k₁ k₂ p h₁ h₂
      rw [hmap] at h₁ h₂
      by_cases hk₁ : k₁ = k
      · by_cases hk₂ : k₂ = k
        · rw [hk₁, hk₂]
        · obtain ⟨-, e, he, rfl⟩ := hleft k₂ p hk₂ h₂
          rw [hk₁, AList.lookup_insert] at h₁
          exact absurd (Option.some.inj h₁).symm (hout e he)
      · obtain ⟨hl₁, e, he, rfl⟩ := hleft k₁ p hk₁ h₁
        by_cases hk₂ : k₂ = k
        · rw [hk₂, AList.lookup_insert] at h₂
          exact absurd (Option.some.inj h₂).symm (hout e he)
        · exact hc.injective _ _ _ hl₁ (hleft k₂ _ hk₂ h₂).1
  rw [← hdef]
  refine ⟨⟨_, hc'⟩, hc'.cached_eq (e := ⟨node, k, value⟩) (by simp) hself, ?_⟩
  intro k' hne
  cases hp : c'.map.lookup k' with
  | none => exact .inr (cached_eq_none hp)
  | some p =>
    obtain ⟨hl, e, he, rfl⟩ := hleft k' p hne (hmap ▸ hp)
    left
    rw [hc'.cached_eq (by simp [he]) hp,
      hc.cached_eq (by rw [← hsplit]; exact List.mem_append_right _ he) hl]

/-- A `put` of a file that can be read: what it finds is cached, and what else is cached stays or
is evicted, unless a node is evicted that some other key leads to. -/
theorem put_held {disk : Disk} (hc : c.Held es) (hload : c.load disk k = .ok value)
    (hfit : value.length ≤ c.capacity) (hnode : node ∉ c.heap) :
    ∃ c', c.put disk node k = some (.ok value, c') ∧ c'.path = c.path ∧
      c'.capacity = c.capacity ∧
      ((k ∉ c.map → c.EvictsOwn value.length) → (∃ es', c'.Held es') ∧
        c'.cached k = some value ∧
        ∀ k', k' ≠ k → c'.cached k' = c.cached k' ∨ c'.cached k' = none) := by
  cases hb : c.cached k with
  | some b =>
    obtain ⟨p, c', es', hp, heq, hpath, hcap, hc', hself, hother⟩ := putCached_held hc hb value
    refine ⟨c', ?_, hpath, hcap, fun _ => ⟨⟨es', hc'⟩, hself, fun k' hne => .inl (hother k' hne)⟩⟩
    simp only [put, hload, hp, heq, Option.bind_eq_bind, Option.bind_some]
  | none =>
    have hk := hc.lookup_eq_none hb
    obtain ⟨c', heq, hpath, hcap, hsafe⟩ := putNew_held k hc hfit hnode
    refine ⟨c', ?_, hpath, hcap, fun hown => hsafe (hown (AList.lookup_eq_none.mp hk))⟩
    simp only [put, hload, hk, heq, Option.bind_eq_bind, Option.bind_some]

theorem drop_held {b : Bytes} (hc : c.Held es) (hk : c.cached k = some b) :
    ∃ c' es', c.drop k = some c' ∧ c'.path = c.path ∧ c'.capacity = c.capacity ∧ c'.Held es' ∧
      c'.cached k = none ∧ ∀ k', k' ≠ k → c'.cached k' = c.cached k' := by
  obtain ⟨l, e, r, rfl, hp, rfl⟩ := hc.split hk
  obtain ⟨h, heq, hh⟩ := drop_spec hc.holds hp
  have hleft : ∀ k' p, (c.map.erase k).lookup k' = some p →
      k' ≠ k ∧ c.map.lookup k' = some p ∧ ∃ e' ∈ l ++ r, e'.node = p := by
    intro k' p hp'
    by_cases hne : k' = k
    · rw [hne, AList.lookup_erase] at hp'
      cases hp'
    · rw [AList.lookup_erase_ne hne] at hp'
      obtain ⟨e', he', rfl⟩ := hc.within k' p hp'
      have hne' : e' ≠ e := fun h => hne (hc.injective _ _ _ hp' (h ▸ hp))
      refine ⟨hne, hp', e', ?_, rfl⟩
      simp only [List.mem_append, List.mem_cons] at he' ⊢
      tauto
  have hc' : FileLRU.Held { c with
      size := c.size - e.content.length, map := c.map.erase k, heap := h } (l ++ r) := by
    refine ⟨hh, ?_, fun k' p hp' => (hleft k' p hp').2.2, ?_⟩
    · show c.size - e.content.length = _
      rw [hc.size]
      simp only [total_append, total_cons]
      omega
    · intro k₁ k₂ p h₁ h₂
      exact hc.injective _ _ _ (hleft k₁ p h₁).2.1 (hleft k₂ p h₂).2.1
  refine ⟨_, _, heq, rfl, rfl, hc', cached_eq_none (AList.lookup_erase k c.map), ?_⟩
  intro k' hne
  cases hp' : c.map.lookup k' with
  | none =>
    rw [cached_eq_none hp', cached_eq_none]
    exact (AList.lookup_erase_ne hne).trans hp'
  | some p =>
    have hp'' := (AList.lookup_erase_ne hne).trans hp'
    obtain ⟨-, -, e', he', rfl⟩ := hleft k' p hp''
    have hmem : e' ∈ l ++ e :: r := by
      simp only [List.mem_append, List.mem_cons] at he' ⊢
      tauto
    rw [hc.cached_eq hmem hp', hc'.cached_eq he' hp'']

theorem moveFile_path (c : FileLRU) (old_path new_path : Path) :
    (c.moveFile old_path new_path).path = c.path := by
  rw [moveFile]
  split
  · rfl
  · rfl

theorem moveFile_capacity (c : FileLRU) (old_path new_path : Path) :
    (c.moveFile old_path new_path).capacity = c.capacity := by
  rw [moveFile]
  split
  · rfl
  · rfl

/-- A file that is renamed keeps its node, and takes the place of one that had the name. -/
theorem moveFile_held {old_path : Path} (new_path : Path) (hc : c.Held es)
    (hk : c.key old_path ∈ c.map) :
    (c.moveFile old_path new_path).Held es ∧
      ∀ k, (c.moveFile old_path new_path).cached k =
        if k = c.key new_path then c.cached (c.key old_path)
        else if k = c.key old_path then none else c.cached k := by
  obtain ⟨p, hp⟩ := Option.isSome_iff_exists.mp (AList.lookup_isSome.mpr hk)
  have hlook := lookup_moveFile new_path hp
  have hmove : (c.moveFile old_path new_path).heap = c.heap := by simp only [moveFile, hp]
  refine ⟨⟨?_, ?_, ?_, ?_⟩, ?_⟩
  · simpa only [moveFile, hp] using hc.holds
  · simpa only [moveFile, hp] using hc.size
  · intro k q hq
    rw [hlook] at hq
    split_ifs at hq
    · exact Option.some.inj hq ▸ hc.within _ _ hp
    · exact hc.within _ _ hq
  · intro k₁ k₂ q h₁ h₂
    rw [hlook] at h₁ h₂
    split_ifs at h₁ h₂ with hk₁ hk₂ ho₂ ho₁ hk₂ ho₂
    · rw [hk₁, hk₂]
    · exact absurd (hc.injective _ _ _ h₂ (h₁ ▸ hp)) ho₂
    · exact absurd (hc.injective _ _ _ h₁ (h₂ ▸ hp)) ho₁
    · exact hc.injective _ _ _ h₁ h₂
  · intro k
    simp only [cached, hlook, hmove]
    split_ifs
    · rw [hp]
    · rfl
    · rfl

end MuduoServer.FileLRU
