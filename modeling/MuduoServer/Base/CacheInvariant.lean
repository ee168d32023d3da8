import MuduoServer.Base.CacheSpec
import MuduoServer.Framework.Lru
import MuduoServer.Framework.Run
import Mathlib.Data.Set.Function

namespace MuduoServer

/-- The calls of a `FileLRU`: `disk` is the file system at the time of the call, and `node` the
address that `new Node` returns if the call gets there. -/
inductive CacheOp where
  | get (k : Bytes)
  | put (disk : Disk) (node : Nat) (k : Bytes)
  | getFile (disk : Disk) (node : Nat) (request_path : Bytes)
  | addFile (disk : Disk) (node : Nat) (path : Path)
  | delFile (path : Path)
  | delDir (path : Path)
  | moveFile (old_path new_path : Path)
  | moveDir (old_path new_path : Path)

namespace CacheOp

/-- The state after a call, `none` when it went through a null or a dangling pointer. -/
def apply (c : FileLRU) : CacheOp → Option FileLRU
  | .get k => (c.get k).map Prod.snd
  | .put disk node k => (c.put disk node k).map Prod.snd
  | .getFile disk node k => (c.getFile disk node k).map Prod.snd
  | .addFile disk node path => (c.addFile disk node path).map Prod.snd
  | .delFile path => c.delFile path
  | .delDir path => c.delDir path
  | .moveFile old_path new_path => some (c.moveFile old_path new_path)
  | .moveDir old_path new_path => some (c.moveDir old_path new_path)

/-- `new` returns no address that is in use. -/
def Fresh (c : FileLRU) : CacheOp → Prop
  | .put _ node _ | .getFile _ node _ | .addFile _ node _ => node ∉ c.heap
  | _ => True

/-- A rename finds nothing in the cache that has to change its key. -/
def KeepsKeys (c : FileLRU) : CacheOp → Prop
  | .moveFile old_path new_path => c.key old_path ∈ c.map → c.key old_path = c.key new_path
  | .moveDir old_path new_path =>
    ∀ k ∈ c.matched (c.key old_path), k = FileLRU.movedKey old_path new_path
  | _ => True

instance (c : FileLRU) : (op : CacheOp) → Decidable (op.Fresh c)
  | .put _ node _ | .getFile _ node _ | .addFile _ node _ =>
    inferInstanceAs (Decidable (node ∉ c.heap))
  | .get _ | .delFile _ | .delDir _ | .moveFile _ _ | .moveDir _ _ => instDecidableTrue

instance (c : FileLRU) : (op : CacheOp) → Decidable (op.KeepsKeys c)
  | .moveFile old_path new_path =>
    inferInstanceAs (Decidable (c.key old_path ∈ c.map → c.key old_path = c.key new_path))
  | .moveDir old_path new_path =>
    inferInstanceAs (Decidable
      (∀ k ∈ c.matched (c.key old_path), k = FileLRU.movedKey old_path new_path))
  | .get _ | .put _ _ _ | .getFile _ _ _ | .addFile _ _ _ | .delFile _ | .delDir _ =>
    instDecidableTrue

end CacheOp

/-- A map that has each entry under its own key, and nothing else. -/
def Agree (m : AList (fun _ : Bytes => Nat)) (es : List Entry) : Prop :=
  ∀ k p, m.lookup k = some p ↔ ∃ e ∈ es, e.node = p ∧ e.key = k

namespace Agree

variable {m : AList (fun _ : Bytes => Nat)} {es l r : List Entry} {e : Entry} {k : Bytes}
  {node : Nat}

theorem listed (ha : Agree m es) (he : e ∈ es) : m.lookup e.key = some e.node :=
  (ha e.key e.node).mpr ⟨e, he, rfl, rfl⟩

theorem of_mem (ha : Agree m es) (hk : k ∈ m) : ∃ e ∈ es, e.key = k := by
  obtain ⟨p, hp⟩ := Option.isSome_iff_exists.mp (AList.lookup_isSome.mpr hk)
  obtain ⟨e, he, -, hke⟩ := (ha k p).mp hp
  exact ⟨e, he, hke⟩

/-- The entry last used goes to the back, perhaps with another content. -/
theorem touch (ha : Agree m (l ++ e :: r)) (content : Bytes) :
    Agree m (l ++ r ++ [{ e with content := content }]) := by
  intro k p
  rw [ha k p]
  constructor
  · intro ⟨e', he', hp, hk⟩
    rcases List.mem_append.mp he' with hm | hm
    · exact ⟨e', by simp [hm], hp, hk⟩
    · rcases List.mem_cons.mp hm with rfl | hm
      · exact ⟨{ e' with content := content }, by simp, hp, hk⟩
      · exact ⟨e', by simp [hm], hp, hk⟩
  · intro ⟨e', he', hp, hk⟩
    rcases List.mem_append.mp he' with hm | hm
    · exact ⟨e', by simp at hm ⊢; tauto, hp, hk⟩
    · rw [List.mem_singleton.mp hm] at hp hk
      exact ⟨e, by simp, hp, hk⟩

theorem erase (ha : Agree m (l ++ e :: r)) (hnd : ((l ++ e :: r).map Entry.node).Nodup) :
    Agree (m.erase e.key) (l ++ r) := by
  have hnode : e.node ∉ (l ++ r).map Entry.node := by
    rw [List.map_append, List.map_cons, List.nodup_middle, ← List.map_append] at hnd
    exact (List.nodup_cons.mp hnd).1
  have hother : ∀ e' ∈ l ++ r, e'.key ≠ e.key := by
    intro e' he' hkey
    have hm := ha.listed (e := e') (by simp at he' ⊢; tauto)
    rw [hkey, ha.listed (e := e) (by simp)] at hm
    exact hnode (Option.some.inj hm ▸ List.mem_map_of_mem he')
  intro k p
  by_cases hk : k = e.key
  · subst hk
    rw [AList.lookup_erase]
    constructor
    · intro h
      cases h
    · intro ⟨e', he', _, hkey⟩
      exact absurd hkey (hother e' he')
  · rw [AList.lookup_erase_ne hk, ha k p]
    constructor
    · intro ⟨e', he', hp, hkey⟩
      refine ⟨e', ?_, hp, hkey⟩
      have hne : e' ≠ e := fun heq => hk (heq ▸ hkey.symm)
      simp only [List.mem_append, List.mem_cons] at he' ⊢
      tauto
    · intro ⟨e', he', hp, hkey⟩
      exact ⟨e', by simp at he' ⊢; tauto, hp, hkey⟩

theorem eraseAll (ha : Agree m (l ++ r)) (hnd : ((l ++ r).map Entry.node).Nodup) :
    Agree (eraseAll m (l.map Entry.key)) r := by
  induction l generalizing m with
  | nil => exact ha
  | cons e l ih =>
    have hrest := erase (l := []) ha hnd
    exact ih hrest hnd.of_cons

theorem insert (ha : Agree m es) (hk : m.lookup k = none) (content : Bytes) :
    Agree (m.insert k node) (es ++ [⟨node, k, content⟩]) := by
  intro k' p
  by_cases heq : k' = k
  · subst heq
    rw [AList.lookup_insert]
    constructor
    · intro h
      exact ⟨⟨node, k', content⟩, by simp, Option.some.inj h, rfl⟩
    · intro ⟨e, he, hp, hkey⟩
      rcases List.mem_append.mp he with hm | hm
      · rw [← hkey, ha.listed hm] at hk
        cases hk
      · rw [List.mem_singleton.mp hm] at hp
        exact congrArg some hp
  · rw [AList.lookup_insert_ne heq, ha k' p]
    constructor
    · intro ⟨e, he, hp, hkey⟩
      exact ⟨e, by simp [he], hp, hkey⟩
    · intro ⟨e, he, hp, hkey⟩
      rcases List.mem_append.mp he with hm | hm
      · exact ⟨e, hm, hp, hkey⟩
      · rw [List.mem_singleton.mp hm] at hkey
        exact absurd hkey.symm heq

theorem congr {m' : AList (fun _ : Bytes => Nat)} (ha : Agree m es)
    (heq : ∀ k, m'.lookup k = m.lookup k) : Agree m' es := by
  intro k p
  rw [heq, ha k p]

end Agree

namespace FileLRU

/-- The structural invariant: the list is linked in both directions between the sentinels, `map_`
has each of its nodes under the key it carries and nothing else, and `size_` is the sum of the
bytes in it. -/
structure Consistent (c : FileLRU) (es : List Entry) : Prop where
  holds : Holds c.heap c.head c.tail es
  agree : Agree c.map es
  size : c.size = total es

variable {c : FileLRU} {es : List Entry}

/-- Between its keys and the nodes of the list, `map_` is a bijection. -/
theorem Consistent.bijOn (hc : c.Consistent es) :
    Set.BijOn (fun k => c.map.lookup k) {k | k ∈ c.map} {q | ∃ e ∈ es, q = some e.node} := by
  refine ⟨?_, ?_, ?_⟩
  · intro k hk
    obtain ⟨e, he, rfl⟩ := hc.agree.of_mem hk
    exact ⟨e, he, hc.agree.listed he⟩
  · intro k hk k' hk' heq
    obtain ⟨e, he, rfl⟩ := hc.agree.of_mem hk
    obtain ⟨e', he', rfl⟩ := hc.agree.of_mem hk'
    simp only [] at heq
    rw [hc.agree.listed he, hc.agree.listed he'] at heq
    rw [hc.holds.eq_of_node he he' (Option.some.inj heq)]
  · intro q ⟨e, he, hq⟩
    refine ⟨e.key, ?_, ?_⟩
    · exact AList.lookup_isSome.mp (by rw [hc.agree.listed he]; rfl)
    · exact (hc.agree.listed he).trans hq.symm

/-- No key leads to a node that is gone, or to one that carries another key. -/
theorem Consistent.stored {k : Bytes} {p : Nat} (hc : c.Consistent es)
    (hk : c.map.lookup k = some p) : ∃ content, c.heap.value? p = some ⟨k, some content⟩ := by
  obtain ⟨e, he, rfl, rfl⟩ := (hc.agree k p).mp hk
  exact ⟨e.content, hc.holds.stored e he⟩

theorem consistent_new (path : Path) (capacity : Nat) {head tail : Nat} (hne : head ≠ tail) :
    (FileLRU.new path capacity head tail).Consistent [] := by
  have hnext : (FileLRU.new path capacity head tail).heap.next? head = some tail := by
    simp only [FileLRU.new, Heap.next?, AList.lookup_insert_ne hne, AList.lookup_insert,
      Option.bind_some]
  have hprev : (FileLRU.new path capacity head tail).heap.prev? tail = some head := by
    simp [FileLRU.new, Heap.prev?]
  refine ⟨⟨⟨?_, ?_⟩, ?_⟩, ?_, rfl⟩
  · simpa [FileLRU.new] using hne
  · exact .cons_cons ⟨hnext, hprev⟩ (.singleton _)
  · intro e he
    cases he
  · intro k p
    simp [FileLRU.new]

/-- The entry of a key that is cached, in its place in the list. -/
theorem Consistent.split {k : Bytes} {p : Nat} (hc : c.Consistent es)
    (hk : c.map.lookup k = some p) :
    ∃ l e r, es = l ++ e :: r ∧ e.node = p ∧ e.key = k := by
  obtain ⟨e, he, hp, hkey⟩ := (hc.agree k p).mp hk
  obtain ⟨l, r, rfl⟩ := List.append_of_mem he
  exact ⟨l, e, r, rfl, hp, hkey⟩

/-- No key is listed twice. -/
theorem Consistent.keys_nodup (hc : c.Consistent es) : (es.map Entry.key).Nodup := by
  apply List.Nodup.map_on _ (List.Nodup.of_map _ hc.holds.nodup)
  intro e he e' he' hkey
  have hlook := hc.agree.listed he
  rw [hkey, hc.agree.listed he'] at hlook
  exact hc.holds.eq_of_node he he' (Option.some.inj hlook).symm

theorem Consistent.mem_map_iff (hc : c.Consistent es) {k : Bytes} :
    k ∈ c.map ↔ k ∈ es.map Entry.key := by
  constructor
  · intro hk
    obtain ⟨e, he, rfl⟩ := hc.agree.of_mem hk
    exact List.mem_map_of_mem he
  · intro hk
    obtain ⟨e, he, rfl⟩ := List.mem_map.mp hk
    exact AList.lookup_isSome.mp (by rw [hc.agree.listed he]; rfl)

/-- An entry that is found goes to the back. -/
theorem get_consistent {l r : List Entry} {e : Entry} (hc : c.Consistent (l ++ e :: r)) :
    ∃ c', c.get e.key = some (some e.content, c') ∧ c'.capacity = c.capacity ∧
      c'.Consistent (l ++ r ++ [e]) := by
  obtain ⟨h, heq, hh⟩ := get_hit hc.holds (hc.agree.listed (by simp))
  refine ⟨_, heq, rfl, hh, hc.agree.touch e.content, ?_⟩
  show c.size = _
  rw [hc.size]
  simp only [total_append, total_cons, total_nil]
  omega

theorem get_keeps (hc : c.Consistent es) (k : Bytes) :
    ∃ v c' es', c.get k = some (v, c') ∧ c'.Consistent es' := by
  cases hk : c.map.lookup k with
  | none => exact ⟨none, c, es, get_miss hk, hc⟩
  | some p =>
    obtain ⟨l, e, r, rfl, rfl, rfl⟩ := hc.split hk
    obtain ⟨c', heq, -, hc'⟩ := get_consistent hc
    exact ⟨_, c', _, heq, hc'⟩

/-- An entry that is written to goes to the back, and nothing is evicted. -/
theorem putCached_consistent {l r : List Entry} {e : Entry} (hc : c.Consistent (l ++ e :: r))
    (value : Bytes) :
    ∃ c', c.putCached e.node value = some c' ∧ c'.capacity = c.capacity ∧
      c'.Consistent (l ++ r ++ [{ e with content := value }]) := by
  obtain ⟨h, heq, -, hh⟩ := putCached_spec hc.holds value
  refine ⟨_, heq, rfl, hh, hc.agree.touch value, ?_⟩
  show c.size - e.content.length + value.length = _
  rw [hc.size]
  simp only [total_append, total_cons, total_nil]
  omega

theorem putCached_keeps {l r : List Entry} {e : Entry} (hc : c.Consistent (l ++ e :: r))
    (value : Bytes) : ∃ c' es', c.putCached e.node value = some c' ∧ c'.Consistent es' := by
  obtain ⟨c', heq, -, hc'⟩ := putCached_consistent hc value
  exact ⟨c', _, heq, hc'⟩

/-- A new entry goes to the back of those that are kept. -/
theorem putNew_consistent {k value : Bytes} {node : Nat} (hc : c.Consistent es)
    (hk : c.map.lookup k = none) (hfit : value.length ≤ c.capacity) (hnode : node ∉ c.heap) :
    ∃ c', c.putNew node k value = some c' ∧ c'.capacity = c.capacity ∧
      c'.Consistent (kept c.capacity value.length es ++ [⟨node, k, value⟩]) := by
  obtain ⟨h, heq, -, hh⟩ := putNew_spec hc.holds hc.size hfit hnode k
  refine ⟨_, heq, rfl, hh, ?_, ?_⟩
  · have hsplit := evicted_append_kept c.capacity value.length es
    have hrest : Agree (eraseAll c.map ((evicted c.capacity value.length es).map Entry.key))
        (kept c.capacity value.length es) :=
      Agree.eraseAll (hsplit.symm ▸ hc.agree) (hsplit.symm ▸ hc.holds.nodup)
    refine hrest.insert ?_ value
    rw [lookup_eraseAll, hk, ite_self]
  · simp [total]

theorem putNew_keeps {k value : Bytes} {node : Nat} (hc : c.Consistent es)
    (hk : c.map.lookup k = none) (hfit : value.length ≤ c.capacity) (hnode : node ∉ c.heap) :
    ∃ c' es', c.putNew node k value = some c' ∧ c'.Consistent es' := by
  obtain ⟨c', heq, -, hc'⟩ := putNew_consistent hc hk hfit hnode
  exact ⟨c', _, heq, hc'⟩

theorem load_fits {disk : Disk} {k value : Bytes} (h : c.load disk k = .ok value) :
    value.length ≤ c.capacity := by
  simp only [load] at h
  split at h
  · cases h
  · cases h
  · cases h
  · split at h
    · cases h
    · cases h
      omega

theorem put_keeps (disk : Disk) {node : Nat} (k : Bytes) (hc : c.Consistent es)
    (hnode : node ∉ c.heap) :
    ∃ v c' es', c.put disk node k = some (v, c') ∧ c'.Consistent es' := by
  cases hload : c.load disk k with
  | error err => exact ⟨.error err, c, es, by simp only [put, hload], hc⟩
  | ok value =>
    cases hk : c.map.lookup k with
    | some p =>
      obtain ⟨l, e, r, rfl, rfl, rfl⟩ := hc.split hk
      obtain ⟨c', es', heq, hc'⟩ := putCached_keeps hc value
      refine ⟨.ok value, c', es', ?_, hc'⟩
      simp only [put, hload, hk, heq, Option.bind_eq_bind, Option.bind_some]
    | none =>
      obtain ⟨c', es', heq, hc'⟩ := putNew_keeps hc hk (load_fits hload) hnode
      refine ⟨.ok value, c', es', ?_, hc'⟩
      simp only [put, hload, hk, heq, Option.bind_eq_bind, Option.bind_some]

theorem getFile_hit {k value : Bytes} {c' : FileLRU} (disk : Disk) (node : Nat)
    (hget : c.get k = some (some value, c')) :
    c.getFile disk node k = some (.ok (some value), c') := by
  simp only [getFile, hget, Option.bind_eq_bind, Option.bind_some]

/-- Whatever `put` throws, its state is the one that `getFile` leaves. -/
theorem getFile_miss {disk : Disk} {node : Nat} {k : Bytes} {v : Except FileError Bytes}
    {c' : FileLRU} (hget : c.get k = some (none, c)) (hput : c.put disk node k = some (v, c')) :
    ∃ r, c.getFile disk node k = some (r, c') := by
  simp only [getFile, hget, hput, Option.bind_eq_bind, Option.bind_some]
  rcases v with (_ | _) | value
  · exact ⟨_, rfl⟩
  · exact ⟨_, rfl⟩
  · exact ⟨_, rfl⟩

theorem addFile_put {disk : Disk} {node : Nat} {path : Path} {v : Except FileError Bytes}
    {c' : FileLRU} (hput : c.put disk node (c.key path) = some (v, c')) :
    ∃ r, c.addFile disk node path = some (r, c') := by
  rw [addFile, hput]
  rcases v with (_ | _) | value
  · exact ⟨_, rfl⟩
  · exact ⟨_, rfl⟩
  · exact ⟨_, rfl⟩

theorem getFile_keeps (disk : Disk) {node : Nat} (k : Bytes) (hc : c.Consistent es)
    (hnode : node ∉ c.heap) :
    ∃ v c' es', c.getFile disk node k = some (v, c') ∧ c'.Consistent es' := by
  cases hk : c.map.lookup k with
  | some p =>
    obtain ⟨l, e, r, rfl, rfl, rfl⟩ := hc.split hk
    obtain ⟨c', heq, -, hc'⟩ := get_consistent hc
    exact ⟨_, c', _, getFile_hit disk node heq, hc'⟩
  | none =>
    obtain ⟨v, c', es', heq, hc'⟩ := put_keeps disk k hc hnode
    obtain ⟨r, hr⟩ := getFile_miss (get_miss hk) heq
    exact ⟨r, c', es', hr, hc'⟩

theorem addFile_keeps (disk : Disk) {node : Nat} (path : Path) (hc : c.Consistent es)
    (hnode : node ∉ c.heap) :
    ∃ v c' es', c.addFile disk node path = some (v, c') ∧ c'.Consistent es' := by
  obtain ⟨v, c', es', heq, hc'⟩ := put_keeps disk (c.key path) hc hnode
  obtain ⟨r, hr⟩ := addFile_put heq
  exact ⟨r, c', es', hr, hc'⟩

/-- The entry of a key is dropped, and the others stay in their places. -/
theorem drop_consistent {k : Bytes} (hc : c.Consistent es) (hk : k ∈ c.map) :
    ∃ c', c.drop k = some c' ∧ c'.capacity = c.capacity ∧ c'.map = c.map.erase k ∧
      c'.Consistent (es.filter fun e => e.key ≠ k) := by
  obtain ⟨p, hp⟩ := Option.isSome_iff_exists.mp (AList.lookup_isSome.mpr hk)
  obtain ⟨l, e, r, rfl, rfl, rfl⟩ := hc.split hp
  obtain ⟨h, heq, hh⟩ := drop_spec hc.holds hp
  rw [filter_ne_of_nodup hc.keys_nodup]
  refine ⟨_, heq, rfl, rfl, hh, hc.agree.erase hc.holds.nodup, ?_⟩
  show c.size - e.content.length = _
  rw [hc.size]
  simp only [total_append, total_cons]
  omega

theorem delFile_consistent (path : Path) (hc : c.Consistent es) :
    ∃ c', c.delFile path = some c' ∧ c'.capacity = c.capacity ∧
      c'.Consistent (es.filter fun e => e.key ≠ c.key path) := by
  by_cases hk : c.key path ∈ c.map
  · obtain ⟨c', heq, hcap, -, hc'⟩ := drop_consistent hc hk
    exact ⟨c', by rw [delFile, if_pos hk, heq], hcap, hc'⟩
  · refine ⟨c, by rw [delFile, if_neg hk], rfl, ?_⟩
    rw [List.filter_eq_self.mpr]
    · exact hc
    · intro e he
      have hmem : e.key ∈ c.map := hc.mem_map_iff.mpr (List.mem_map_of_mem he)
      simpa using ne_of_mem_of_not_mem hmem hk

theorem delFile_keeps (path : Path) (hc : c.Consistent es) :
    ∃ c' es', c.delFile path = some c' ∧ c'.Consistent es' := by
  obtain ⟨c', heq, -, hc'⟩ := delFile_consistent path hc
  exact ⟨c', _, heq, hc'⟩

theorem drops_consistent (ks : List Bytes) (hnd : ks.Nodup) (hks : ∀ k ∈ ks, k ∈ c.map)
    (hc : c.Consistent es) :
    ∃ c', ks.foldlM drop c = some c' ∧ c'.capacity = c.capacity ∧
      c'.Consistent (es.filter fun e => e.key ∉ ks) := by
  induction ks generalizing c es with
  | nil => exact ⟨c, rfl, rfl, by simpa using hc⟩
  | cons k ks ih =>
    obtain ⟨hk, hnd'⟩ := List.nodup_cons.mp hnd
    obtain ⟨c₁, heq, hcap, hmap, hc₁⟩ := drop_consistent hc (hks k (by simp))
    have hks₁ : ∀ k' ∈ ks, k' ∈ c₁.map := by
      intro k' hk'
      rw [hmap, AList.mem_erase]
      exact ⟨ne_of_mem_of_not_mem hk' hk, hks k' (by simp [hk'])⟩
    obtain ⟨c', heq', hcap', hc'⟩ := ih hnd' hks₁ hc₁
    refine ⟨c', ?_, hcap'.trans hcap, ?_⟩
    · rw [List.foldlM_cons, heq]
      exact heq'
    · have hboth : ∀ e : Entry, (decide (e.key ∉ ks) && decide (e.key ≠ k)) =
          decide (e.key ∉ k :: ks) := by
        intro e
        by_cases h : e.key = k
        · simp [h]
        · simp [h]
      simpa only [List.filter_filter, hboth] using hc'

theorem mem_matched {k k' : Bytes} : k' ∈ c.matched k ↔ k' ∈ c.map ∧ k <+: k' := by
  rw [matched, List.mem_filter, List.isPrefixOf_iff_prefix, AList.mem_keys]

theorem matched_nodup (c : FileLRU) (k : Bytes) : (c.matched k).Nodup := c.map.keys_nodup.filter _

theorem delDir_consistent (path : Path) (hc : c.Consistent es) :
    ∃ c', c.delDir path = some c' ∧ c'.capacity = c.capacity ∧
      c'.Consistent (es.filter fun e => !(c.key path).isPrefixOf e.key) := by
  obtain ⟨c', heq, hcap, hc'⟩ := drops_consistent (c.matched (c.key path)) (c.matched_nodup _)
    (fun _ hk => (mem_matched.mp hk).1) hc
  refine ⟨c', heq, hcap, ?_⟩
  have hsame : es.filter (fun e => e.key ∉ c.matched (c.key path)) =
      es.filter fun e => !(c.key path).isPrefixOf e.key := by
    apply List.filter_congr
    intro e he
    have hmem : e.key ∈ c.map := hc.mem_map_iff.mpr (List.mem_map_of_mem he)
    simp only [mem_matched, hmem, true_and, ← List.isPrefixOf_iff_prefix, Bool.not_eq_true,
      Bool.decide_eq_false]
  rwa [hsame] at hc'

theorem delDir_keeps (path : Path) (hc : c.Consistent es) :
    ∃ c' es', c.delDir path = some c' ∧ c'.Consistent es' := by
  obtain ⟨c', heq, -, hc'⟩ := delDir_consistent path hc
  exact ⟨c', _, heq, hc'⟩

theorem moveFile_keeps_iff (old_path new_path : Path) (hc : c.Consistent es) :
    (∃ es', (c.moveFile old_path new_path).Consistent es') ↔
      (CacheOp.moveFile old_path new_path).KeepsKeys c := by
  show _ ↔ (c.key old_path ∈ c.map → c.key old_path = c.key new_path)
  by_cases hk : c.key old_path ∈ c.map
  · obtain ⟨p, hp⟩ := Option.isSome_iff_exists.mp (AList.lookup_isSome.mpr hk)
    have hlook := lookup_moveFile new_path hp
    have hheap : (c.moveFile old_path new_path).heap = c.heap := by simp only [moveFile, hp]
    constructor
    · intro hex _
      obtain ⟨es', hc'⟩ := hex
      -- the node of the entry moved still carries the old key
      obtain ⟨_, hold⟩ := hc.stored hp
      obtain ⟨_, hnew⟩ := hc'.stored ((hlook (c.key new_path)).trans (if_pos rfl))
      rw [hheap, hold] at hnew
      exact (CacheNode.mk.inj (Option.some.inj hnew)).1
    · intro hkey
      refine ⟨es, ?_, hc.agree.congr ?_, ?_⟩
      · simpa only [moveFile, hp] using hc.holds
      · intro k
        rw [hlook, ← hkey hk]
        split_ifs with h
        · rw [h, hp]
        · rfl
      · simpa only [moveFile, hp] using hc.size
  · rw [moveFile_miss new_path hk]
    exact ⟨fun _ h => absurd h hk, fun _ => ⟨es, hc⟩⟩

theorem lookup_insertAll (m : AList (fun _ : Bytes => Nat)) (target : Bytes) (ps : List Nat)
    (k : Bytes) : (ps.foldl (fun m p => m.insert target p) m).lookup k =
      if k = target then ps.getLast?.or (m.lookup k) else m.lookup k := by
  induction ps using List.reverseRecOn with
  | nil => simp
  | append_singleton ps p ih =>
    rw [List.foldl_append]
    by_cases hk : k = target
    · subst hk
      simp only [List.foldl_cons, List.foldl_nil, AList.lookup_insert, if_true,
        List.getLast?_append, List.getLast?_singleton, Option.some_or]
    · simpa [AList.lookup_insert_ne hk, hk] using ih

theorem lookup_moveDir (c : FileLRU) (old_path new_path : Path) (k : Bytes) :
    (c.moveDir old_path new_path).map.lookup k =
      if k = movedKey old_path new_path
      then (((c.matched (c.key old_path)).filterMap c.map.lookup).getLast?).or
        (if k ∈ c.matched (c.key old_path) then none else c.map.lookup k)
      else if k ∈ c.matched (c.key old_path) then none else c.map.lookup k := by
  rw [← lookup_eraseAll]
  exact lookup_insertAll _ _ _ _

theorem moveDir_keeps_iff (old_path new_path : Path) (hc : c.Consistent es) :
    (∃ es', (c.moveDir old_path new_path).Consistent es') ↔
      (CacheOp.moveDir old_path new_path).KeepsKeys c := by
  show _ ↔ ∀ k ∈ c.matched (c.key old_path), k = movedKey old_path new_path
  constructor
  · intro ⟨es', hc'⟩ k hk
    by_contra hne
    -- the list still has the entry of `k`, which no key leads to any more
    obtain ⟨e, he, rfl⟩ := hc.agree.of_mem (mem_matched.mp hk).1
    have hnodes : es.map Entry.node = es'.map Entry.node :=
      hc.holds.linked.unique hc'.holds.linked
    obtain ⟨e', he', hnode⟩ := List.mem_map.mp (hnodes ▸ List.mem_map_of_mem he)
    have hkey : some (⟨e.key, some e.content⟩ : CacheNode) = some ⟨e'.key, some e'.content⟩ := by
      rw [← hc.holds.stored e he, ← hc'.holds.stored e' he', hnode]
      rfl
    have hfound := hc'.agree.listed he'
    rw [← (CacheNode.mk.inj (Option.some.inj hkey)).1, lookup_moveDir, if_neg hne,
      if_pos hk] at hfound
    cases hfound
  · intro hall
    refine ⟨es, hc.holds, hc.agree.congr ?_, hc.size⟩
    intro k
    rw [lookup_moveDir]
    by_cases hm : k ∈ c.matched (c.key old_path)
    · have hk := hall k hm
      have hone : c.matched (c.key old_path) = [k] := by
        have hrep := List.eq_replicate_of_mem fun k' hk' => (hall k' hk').trans hk.symm
        have hlen := List.nodup_replicate.mp (hrep ▸ c.matched_nodup (c.key old_path))
        have hpos := List.length_pos_of_mem hm
        rw [hrep, show (c.matched (c.key old_path)).length = 1 by omega]
        rfl
      obtain ⟨p, hp⟩ := Option.isSome_iff_exists.mp
        (AList.lookup_isSome.mpr (mem_matched.mp hm).1)
      simp [hone, hp, ← hk]
    · rw [if_neg hm]
      split_ifs with ht
      · have hnone : c.matched (c.key old_path) = [] := by
          apply List.eq_nil_iff_forall_not_mem.mpr
          intro k' hk'
          rw [ht, ← hall k' hk'] at hm
          exact hm hk'
        simp [hnone]
      · rfl

/-- No call goes through a dangling pointer, and what it leaves is as it should be exactly when it
is no rename that has a key to change. -/
theorem apply_keeps_iff (op : CacheOp) (hc : c.Consistent es) (hnode : op.Fresh c) :
    ∃ c', op.apply c = some c' ∧ ((∃ es', c'.Consistent es') ↔ op.KeepsKeys c) := by
  cases op with
  | get k =>
    obtain ⟨v, c', es', heq, hc'⟩ := get_keeps hc k
    exact ⟨c', by rw [CacheOp.apply, heq]; rfl, iff_of_true ⟨es', hc'⟩ trivial⟩
  | put disk node k =>
    obtain ⟨v, c', es', heq, hc'⟩ := put_keeps disk k hc hnode
    exact ⟨c', by rw [CacheOp.apply, heq]; rfl, iff_of_true ⟨es', hc'⟩ trivial⟩
  | getFile disk node k =>
    obtain ⟨v, c', es', heq, hc'⟩ := getFile_keeps disk k hc hnode
    exact ⟨c', by rw [CacheOp.apply, heq]; rfl, iff_of_true ⟨es', hc'⟩ trivial⟩
  | addFile disk node path =>
    obtain ⟨v, c', es', heq, hc'⟩ := addFile_keeps disk path hc hnode
    exact ⟨c', by rw [CacheOp.apply, heq]; rfl, iff_of_true ⟨es', hc'⟩ trivial⟩
  | delFile path =>
    obtain ⟨c', es', heq, hc'⟩ := delFile_keeps path hc
    exact ⟨c', heq, iff_of_true ⟨es', hc'⟩ trivial⟩
  | delDir path =>
    obtain ⟨c', es', heq, hc'⟩ := delDir_keeps path hc
    exact ⟨c', heq, iff_of_true ⟨es', hc'⟩ trivial⟩
  | moveFile old_path new_path => exact ⟨_, rfl, moveFile_keeps_iff old_path new_path hc⟩
  | moveDir old_path new_path => exact ⟨_, rfl, moveDir_keeps_iff old_path new_path hc⟩

/-- Calls of which no rename has a key to change. -/
theorem consistent_of_run (path : Path) (capacity : Nat) {head tail : Nat} (hne : head ≠ tail)
    {ops : List CacheOp}
    (h : Run (fun c op c' => (op.Fresh c ∧ op.KeepsKeys c) ∧ op.apply c = some c')
      (FileLRU.new path capacity head tail) ops c) : ∃ es, c.Consistent es := by
  apply h.preserves (fun c => ∃ es, c.Consistent es)
  · exact ⟨[], consistent_new path capacity hne⟩
  · intro c op c' ⟨es, hc⟩ ⟨⟨hfresh, hkeys⟩, happly⟩
    obtain ⟨c'', happly', hiff⟩ := apply_keeps_iff op hc hfresh
    rw [Option.some.inj (happly.symm.trans happly')]
    exact hiff.mpr hkeys

/-- Through calls of which no rename has a key to change, the cache stays consistent, and up to the
first one that has. -/
theorem cache_consistent (path : Path) (capacity : Nat) {head tail : Nat} (hne : head ≠ tail)
    {ops : List CacheOp}
    (h : Run (fun c op c' => (op.Fresh c ∧ op.KeepsKeys c) ∧ op.apply c = some c')
      (FileLRU.new path capacity head tail) ops c) :
    (∃ es, c.Consistent es) ∧
      ∀ op : CacheOp, op.Fresh c →
        ∃ c', op.apply c = some c' ∧ ((∃ es, c'.Consistent es) ↔ op.KeepsKeys c) := by
  obtain ⟨es, hc⟩ := consistent_of_run path capacity hne h
  exact ⟨⟨es, hc⟩, fun op hfresh => apply_keeps_iff op hc hfresh⟩

/-- A file is cached and deleted. -/
theorem cache_consistent_delFile :
    ∃ c, ((∃ es, c.Consistent es) ∧
      ∀ op : CacheOp, op.Fresh c →
        ∃ c', op.apply c = some c' ∧ ((∃ es, c'.Consistent es) ↔ op.KeepsKeys c)) ∧
      c.size = 0 := by
  obtain ⟨c, hrun, hsize⟩ := Run.exists_of_guarded (g := FileLRU.size)
    (f := fun c op => CacheOp.apply c op)
    (p := fun c op => CacheOp.Fresh c op ∧ CacheOp.KeepsKeys c op)
    (s := FileLRU.new [] 16 0 1)
    (l := [.put (fun _ => .regular (bytes "hi")) 2 (bytes "/a"), .delFile [bytes "a"]])
    (a := 0) (by decide +kernel)
  exact ⟨c, cache_consistent [] 16 (by decide) hrun, hsize⟩

/-- `/a` is renamed to `/b` and then evicted: the key that is erased is `/a`, and `/b` leads to the
node that was deleted. -/
theorem renamed_then_evicted_dangles :
    ∃ ops c, Run (fun c op c' => CacheOp.Fresh c op ∧ op.apply c = some c')
        (FileLRU.new [] 16 0 1) ops c ∧
      c.map.lookup (bytes "/b") = some 2 ∧ 2 ∉ c.heap ∧ ¬ ∃ es, c.Consistent es := by
  obtain ⟨c, hrun, hc⟩ := Run.exists_of_guarded
    (g := fun c : FileLRU => (c.map.lookup (bytes "/b"), decide (2 ∈ c.heap)))
    (f := fun c op => CacheOp.apply c op) (p := fun c op => CacheOp.Fresh c op)
    (s := FileLRU.new [] 16 0 1)
    (l := [.put (fun _ => .regular (bytes "hello, world")) 2 (bytes "/a"),
      .moveFile [bytes "a"] [bytes "b"],
      .put (fun _ => .regular (bytes "hello, world")) 3 (bytes "/c")])
    (a := (some 2, false)) (by decide +kernel)
  obtain ⟨hb, hgone⟩ := Prod.mk.inj hc
  have hdead : 2 ∉ c.heap := of_decide_eq_false hgone
  refine ⟨_, c, hrun, hb, hdead, ?_⟩
  intro ⟨es, hcons⟩
  obtain ⟨content, hv⟩ := hcons.stored hb
  exact hdead (Heap.value?_isSome.mp (by rw [hv]; rfl))

end FileLRU

end MuduoServer
