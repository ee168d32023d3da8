import MuduoServer.Base.CacheInvariant

namespace MuduoServer

/-- A key of something in the directory with the key `d`: a slash follows. -/
def below (d k : Bytes) : Bool := (d ++ [slash]).isPrefixOf k

theorem below_iff_prefixed {d k : Bytes} : below d k = true ↔ d ++ [slash] <+: k :=
  List.isPrefixOf_iff_prefix

theorem below_iff {d k : Bytes} : below d k = true ↔ ∃ rest, k = d ++ slash :: rest := by
  rw [below_iff_prefixed]
  constructor
  · intro ⟨rest, hrest⟩
    exact ⟨rest, by rw [← hrest, List.append_assoc, List.singleton_append]⟩
  · intro ⟨rest, hrest⟩
    exact ⟨rest, by rw [hrest, List.append_assoc, List.singleton_append]⟩

theorem prefix_of_below {d k : Bytes} (h : below d k = true) : d <+: k := by
  obtain ⟨rest, rfl⟩ := below_iff.mp h
  exact List.prefix_append d _

/-- An entry that changes its key. -/
theorem length_keys_rekey {α : Type*} {β : α → Type*} [DecidableEq α] {m : AList β} {a a' : α}
    (b : β a') (ha : a ∈ m) (ha' : a' ∉ m.erase a) :
    ((m.erase a).insert a' b).keys.length = m.keys.length := by
  have hpos := List.length_pos_of_mem (AList.mem_keys.mp ha)
  rw [AList.keys_insert, List.erase_of_not_mem (AList.mem_keys.not.mp ha'), List.length_cons,
    AList.keys_erase, List.length_erase_of_mem (AList.mem_keys.mp ha)]
  omega

/-- The key of what had the key `k`, after the directory with the key `d` got the key `d'`. -/
def rebase (d d' k : Bytes) : Bytes := if below d k then d' ++ k.drop d.length else k

theorem rebase_below (d d' rest : Bytes) :
    rebase d d' (d ++ slash :: rest) = d' ++ slash :: rest := by
  rw [rebase, if_pos (below_iff.mpr ⟨rest, rfl⟩), List.drop_left]

theorem rebase_of_not_below {d k : Bytes} (d' : Bytes) (h : below d k = false) :
    rebase d d' k = k := by
  rw [rebase, h]
  rfl

namespace FileLRU

variable {c : FileLRU} {es : List Entry}

/-- `c'` is the cache `c` with the entries `es` less those in the directory with the key `d`. -/
structure RemovesSubtree (c c' : FileLRU) (es : List Entry) (d : Bytes) : Prop where
  left : c'.Consistent (es.filter fun e => !below d e.key)
  size : c'.size + total (es.filter fun e => below d e.key) = c.size

theorem total_filter_add (es : List Entry) (p : Entry → Bool) :
    total (es.filter fun e => !p e) + total (es.filter p) = total es := by
  induction es with
  | nil => rfl
  | cons e es ih =>
    rw [total_cons, ← ih]
    cases hp : p e with
    | true =>
      rw [List.filter_cons_of_neg (by simp [hp]), List.filter_cons_of_pos hp, total_cons]
      omega
    | false =>
      rw [List.filter_cons_of_pos (by simp [hp]), List.filter_cons_of_neg (by simp [hp]),
        total_cons]
      omega

/-- What is not in the directory is left. -/
theorem RemovesSubtree.mem_map {c' : FileLRU} {d k : Bytes} (h : c.RemovesSubtree c' es d)
    (hc : c.Consistent es) (hk : k ∈ c.map) (hbelow : below d k = false) : k ∈ c'.map := by
  obtain ⟨e, he, rfl⟩ := hc.agree.of_mem hk
  rw [h.left.mem_map_iff]
  exact List.mem_map_of_mem (List.mem_filter.mpr ⟨he, by simp [hbelow]⟩)

/-- `delDir` removes the entries of a directory and no others exactly when each key that starts
with the key of the directory goes on with a slash. -/
theorem delDir_subtree_iff (path : Path) (hc : c.Consistent es) :
    ∃ c', c.delDir path = some c' ∧
      (c.RemovesSubtree c' es (c.key path) ↔
        ∀ k ∈ c.map, c.key path <+: k → c.key path ++ [slash] <+: k) := by
  obtain ⟨c', heq, -, hc'⟩ := delDir_consistent path hc
  refine ⟨c', heq, ?_⟩
  constructor
  · intro hremoves k hk hprefix
    by_contra hslash
    -- the key has to be left, but the loop has erased it
    have hleft : k ∈ c'.map :=
      hremoves.mem_map hc hk (Bool.eq_false_iff.mpr fun h => hslash (below_iff_prefixed.mp h))
    obtain ⟨e, he, rfl⟩ := hc'.agree.of_mem hleft
    have hkept := (List.mem_filter.mp he).2
    rw [List.isPrefixOf_iff_prefix.mpr hprefix] at hkept
    cases hkept
  · intro hall
    have hsame : es.filter (fun e => !(c.key path).isPrefixOf e.key) =
        es.filter fun e => !below (c.key path) e.key := by
      apply List.filter_congr
      intro e he
      have hmem : e.key ∈ c.map := hc.mem_map_iff.mpr (List.mem_map_of_mem he)
      congr 1
      rw [Bool.eq_iff_iff, List.isPrefixOf_iff_prefix]
      constructor
      · intro hprefix
        exact below_iff_prefixed.mpr (hall e.key hmem hprefix)
      · exact prefix_of_below
    rw [hsame] at hc'
    refine ⟨hc', ?_⟩
    rw [hc'.size, hc.size]
    exact total_filter_add es _

/-- A cache with one file in a directory. -/
theorem delDir_subtree_iff_one :
    ∃ (c : FileLRU) (es : List Entry), c.map.keys = [bytes "/foo/a"] ∧
      ∃ c', c.delDir [bytes "foo"] = some c' ∧
        c.RemovesSubtree c' es (c.key [bytes "foo"]) := by
  obtain ⟨c, hrun, hc⟩ := Run.exists_of_guarded
    (g := fun c : FileLRU => (c.map.keys, c.path))
    (f := fun c op => CacheOp.apply c op)
    (p := fun c op => CacheOp.Fresh c op ∧ CacheOp.KeepsKeys c op)
    (s := FileLRU.new [] 16 0 1)
    (l := [.put (fun _ => .regular (bytes "hi")) 2 (bytes "/foo/a")])
    (a := ([bytes "/foo/a"], [])) (by decide +kernel)
  obtain ⟨hkeys, hpath⟩ := Prod.mk.inj hc
  have hkey : c.key [bytes "foo"] = bytes "/foo" := by rw [key, hpath]; decide +kernel
  obtain ⟨es, hcons⟩ := consistent_of_run [] 16 (by decide) hrun
  obtain ⟨c', hdel, hiff⟩ := delDir_subtree_iff [bytes "foo"] hcons
  refine ⟨c, es, hkeys, c', hdel, hiff.mpr ?_⟩
  intro k hk _
  rw [AList.mem_keys, hkeys, List.mem_singleton] at hk
  rw [hk, hkey]
  decide +kernel

/-- `/foobar` goes with the directory `/foo`. -/
theorem delDir_takes_sibling :
    ∃ (c : FileLRU) (es : List Entry) (c' : FileLRU),
      c.Consistent es ∧ c.delDir [bytes "foo"] = some c' ∧
      bytes "/foobar" ∈ c.map ∧ bytes "/foobar" ∉ c'.map ∧
      ¬ c.RemovesSubtree c' es (c.key [bytes "foo"]) := by
  obtain ⟨c, hrun, hc⟩ := Run.exists_of_guarded
    (g := fun c : FileLRU => (decide (bytes "/foobar" ∈ c.map), below (c.key [bytes "foo"])
      (bytes "/foobar"),
      (c.delDir [bytes "foo"]).map fun c' : FileLRU => decide (bytes "/foobar" ∈ c'.map)))
    (f := fun c op => CacheOp.apply c op)
    (p := fun c op => CacheOp.Fresh c op ∧ CacheOp.KeepsKeys c op)
    (s := FileLRU.new [] 16 0 1)
    (l := [.put (fun _ => .regular (bytes "hi")) 2 (bytes "/foobar")])
    (a := (true, false, some false)) (by decide +kernel)
  obtain ⟨hin, hbelow, hdel⟩ : decide (bytes "/foobar" ∈ c.map) = true ∧
      below (c.key [bytes "foo"]) (bytes "/foobar") = false ∧
      (c.delDir [bytes "foo"]).map (fun c' : FileLRU => decide (bytes "/foobar" ∈ c'.map)) =
        some false := by
    simpa only [Prod.mk.injEq] using hc
  obtain ⟨es, hcons⟩ := consistent_of_run [] 16 (by decide) hrun
  obtain ⟨c', heq, hgone⟩ := Option.map_eq_some_iff.mp hdel
  have hout : bytes "/foobar" ∉ c'.map := of_decide_eq_false hgone
  refine ⟨c, es, c', hcons, heq, of_decide_eq_true hin, hout, ?_⟩
  intro h
  exact hout (h.mem_map hcons (of_decide_eq_true hin) hbelow)

/-- `c'` is the cache `c` with what was in the directory with the key `d` in the one with the key
`d'`. The nodes keep their buffers, as the memory is the same. -/
structure MovesSubtree (c c' : FileLRU) (d d' : Bytes) : Prop where
  moved : ∀ rest, c'.map.lookup (d' ++ slash :: rest) = c.map.lookup (d ++ slash :: rest)
  gone : ∀ k ∈ c'.map, below d k = false
  others : ∀ k, below d k = false → below d' k = false → c'.map.lookup k = c.map.lookup k
  heap : c'.heap = c.heap
  count : c'.map.keys.length = c.map.keys.length
  size : c'.size = c.size

theorem matched_of_below {d k : Bytes} (hk : k ∈ c.map) (h : below d k = true) :
    k ∈ c.matched d :=
  mem_matched.mpr ⟨hk, prefix_of_below h⟩

/-- A key that starts otherwise than those matched is not that of anything in the directory. -/
theorem lookup_of_unmatched {d k : Bytes} (hk : k ∉ c.matched d) (h : below d k = true) :
    c.map.lookup k = none :=
  AList.lookup_eq_none.mpr fun hmem => hk (matched_of_below hmem h)

theorem lookup_of_free {d rest : Bytes} (hfree : ∀ k ∈ c.map, below d k = false) :
    c.map.lookup (d ++ slash :: rest) = none := by
  rw [AList.lookup_eq_none]
  intro hmem
  exact Bool.false_ne_true ((hfree _ hmem).symm.trans (below_iff.mpr ⟨rest, rfl⟩))

/-- All that is matched goes under one key. -/
theorem moveDir_count_le (c : FileLRU) (old_path new_path : Path) :
    (c.moveDir old_path new_path).map.keys.length + (c.matched (c.key old_path)).length ≤
      c.map.keys.length + 1 := by
  have hsub : (c.moveDir old_path new_path).map.keys ⊆ movedKey old_path new_path ::
      c.map.keys.filter fun k => !(c.key old_path).isPrefixOf k := by
    intro k hk
    rw [List.mem_cons, or_iff_not_imp_left]
    intro hne
    have hlook := lookup_moveDir c old_path new_path k
    rw [if_neg hne] at hlook
    have hsome := AList.lookup_isSome.mpr (AList.mem_keys.mpr hk)
    rw [hlook] at hsome
    split_ifs at hsome with hm
    · cases hsome
    · have hin := AList.lookup_isSome.mp hsome
      rw [List.mem_filter]
      refine ⟨AList.mem_keys.mp hin, ?_⟩
      rw [mem_matched, not_and, ← List.isPrefixOf_iff_prefix, Bool.not_eq_true] at hm
      rw [hm hin]
      rfl
  have hle := (List.subperm_of_subset (AList.keys_nodup _) hsub).length_le
  have hsplit := List.length_eq_length_filter_add (l := c.map.keys)
    (fun k => (c.key old_path).isPrefixOf k)
  rw [List.length_cons] at hle
  rw [matched]
  omega

theorem moveDir_single {old_path new_path : Path} {k : Bytes} {p : Nat}
    (hone : c.matched (c.key old_path) = [k]) (hp : c.map.lookup k = some p) :
    (c.moveDir old_path new_path).map =
      (c.map.erase k).insert (movedKey old_path new_path) p := by
  simp only [moveDir, hone, List.filterMap_cons, hp, List.filterMap_nil, List.foldl_cons,
    List.foldl_nil]

theorem moveDir_none {old_path new_path : Path} (hnone : c.matched (c.key old_path) = []) :
    c.moveDir old_path new_path = c := by
  simp only [moveDir, hnone, List.filterMap_nil, List.foldl_nil]

theorem lookup_moveDir_single {old_path : Path} (new_path : Path) {k : Bytes} {p : Nat}
    (hone : c.matched (c.key old_path) = [k]) (hp : c.map.lookup k = some p) (k' : Bytes) :
    (c.moveDir old_path new_path).map.lookup k' =
      if k' = movedKey old_path new_path then some p
      else if k' = k then none else c.map.lookup k' := by
  rw [lookup_moveDir, hone]
  simp [hp]

/-- Where nothing is in the directory, and nothing in the one that it becomes, no key changes. -/
theorem movesSubtree_of_empty {c' : FileLRU} {d d' : Bytes}
    (hempty : ∀ k, below d k = true → c.map.lookup k = none)
    (hfree : ∀ k ∈ c.map, below d' k = false) (hlook : ∀ k, c'.map.lookup k = c.map.lookup k)
    (hheap : c'.heap = c.heap) (hcount : c'.map.keys.length = c.map.keys.length)
    (hsize : c'.size = c.size) : c.MovesSubtree c' d d' := by
  refine ⟨?_, ?_, fun k _ _ => hlook k, hheap, hcount, hsize⟩
  · intro rest
    rw [hlook, hempty _ (below_iff.mpr ⟨rest, rfl⟩), lookup_of_free hfree]
  · intro k hk
    by_contra hbelow
    have hsome := AList.lookup_isSome.mpr hk
    rw [hlook, hempty k (by simpa using hbelow)] at hsome
    cases hsome

theorem movesSubtree_none {old_path new_path : Path}
    (hfree : ∀ k ∈ c.map, below (c.key new_path) k = false)
    (hnone : c.matched (c.key old_path) = []) :
    c.MovesSubtree (c.moveDir old_path new_path) (c.key old_path) (c.key new_path) := by
  rw [moveDir_none hnone]
  refine movesSubtree_of_empty ?_ hfree (fun _ => rfl) rfl rfl rfl
  intro k hk
  exact lookup_of_unmatched (by rw [hnone]; exact List.not_mem_nil) hk

section Single

variable {old_path new_path : Path} {k : Bytes}
  (hfree : ∀ k ∈ c.map, below (c.key new_path) k = false)
  (hone : c.matched (c.key old_path) = [k])

include hone in
theorem mem_of_matched : k ∈ c.map :=
  (mem_matched.mp (by rw [hone]; exact List.mem_singleton_self k)).1

include hone in
/-- Nothing but the key that is matched can be in the directory. -/
theorem lookup_of_ne_matched {k' : Bytes} (hne : k' ≠ k)
    (hbelow : below (c.key old_path) k' = true) : c.map.lookup k' = none :=
  lookup_of_unmatched (by rw [hone, List.mem_singleton]; exact hne) hbelow

include hfree hone

/-- What is matched lies beside the directory, and keeps its key. -/
theorem movesSubtree_beside (hbelow : below (c.key old_path) k = false)
    (hkey : movedKey old_path new_path = k) :
    c.MovesSubtree (c.moveDir old_path new_path) (c.key old_path) (c.key new_path) := by
  have hk := mem_of_matched hone
  obtain ⟨p, hp⟩ := Option.isSome_iff_exists.mp (AList.lookup_isSome.mpr hk)
  refine movesSubtree_of_empty ?_ hfree ?_ rfl ?_ rfl
  · intro k' hk'
    refine lookup_of_ne_matched hone ?_ hk'
    rintro rfl
    rw [hbelow] at hk'
    cases hk'
  · intro k'
    rw [lookup_moveDir_single new_path hone hp, hkey]
    split_ifs with hsame
    · rw [hsame, hp]
    · rfl
  · rw [moveDir_single hone hp, hkey]
    exact length_keys_rekey p hk fun hmem => (AList.mem_erase.mp hmem).1 rfl

/-- What is matched is all that is in the directory, and gets the key it should. -/
theorem movesSubtree_inside {rest : Bytes} (hk : k = c.key old_path ++ slash :: rest)
    (hkey : movedKey old_path new_path = c.key new_path ++ slash :: rest)
    (hout : below (c.key old_path) (movedKey old_path new_path) = false) :
    c.MovesSubtree (c.moveDir old_path new_path) (c.key old_path) (c.key new_path) := by
  have hmem := mem_of_matched hone
  obtain ⟨p, hp⟩ := Option.isSome_iff_exists.mp (AList.lookup_isSome.mpr hmem)
  have hlook := lookup_moveDir_single new_path hone hp
  refine ⟨?_, ?_, ?_, rfl, ?_, rfl⟩
  · intro rest'
    have hinj : ∀ d : Bytes, d ++ slash :: rest' = d ++ slash :: rest ↔ rest' = rest := by
      intro d
      rw [List.append_cancel_left_eq, List.cons.injEq, and_iff_right rfl]
    rw [hlook, lookup_of_free hfree, ite_self, hkey]
    by_cases hsame : rest' = rest
    · rw [if_pos ((hinj _).mpr hsame), hsame, ← hk, hp]
    · have hne : c.key old_path ++ slash :: rest' ≠ k := by
        rw [hk]
        exact fun h => hsame ((hinj _).mp h)
      rw [if_neg fun h => hsame ((hinj _).mp h),
        lookup_of_ne_matched hone hne (below_iff.mpr ⟨rest', rfl⟩)]
  · intro k' hk'
    by_contra hbelow
    rw [Bool.not_eq_false] at hbelow
    have hsome := AList.lookup_isSome.mpr hk'
    rw [hlook] at hsome
    split_ifs at hsome with hT hK
    · rw [hT, hout] at hbelow
      cases hbelow
    · cases hsome
    · rw [lookup_of_ne_matched hone hK hbelow] at hsome
      cases hsome
  · intro k' hold hnew
    rw [hlook, if_neg, if_neg]
    · rintro rfl
      rw [hk, below_iff.mpr ⟨rest, rfl⟩] at hold
      cases hold
    · rintro rfl
      rw [hkey, below_iff.mpr ⟨rest, rfl⟩] at hnew
      cases hnew
  · rw [moveDir_single hone hp]
    refine length_keys_rekey p hmem ?_
    intro hmem'
    rw [hkey] at hmem'
    have hbelow := hfree _ (AList.mem_erase.mp hmem').2
    rw [below_iff.mpr ⟨rest, rfl⟩] at hbelow
    cases hbelow

theorem movesSubtree_single
    (hkey : movedKey old_path new_path = rebase (c.key old_path) (c.key new_path) k)
    (hout : below (c.key old_path) (movedKey old_path new_path) = false) :
    c.MovesSubtree (c.moveDir old_path new_path) (c.key old_path) (c.key new_path) := by
  cases hbelow : below (c.key old_path) k with
  | true =>
    obtain ⟨rest, hk⟩ := below_iff.mp hbelow
    rw [hk, rebase_below] at hkey
    exact movesSubtree_inside hfree hone hk hkey hout
  | false =>
    rw [rebase_of_not_below _ hbelow] at hkey
    exact movesSubtree_beside hfree hone hbelow hkey

end Single

/-- `moveDir` moves what is in a directory exactly when it finds at most one key that starts with
the key of the directory, and the string that it makes of `new_path / old_path.filename()` is the
key that has to become of it. -/
theorem moveDir_subtree_iff {old_path new_path : Path}
    (hfree : ∀ k ∈ c.map, below (c.key new_path) k = false) :
    c.MovesSubtree (c.moveDir old_path new_path) (c.key old_path) (c.key new_path) ↔
      c.matched (c.key old_path) = [] ∨
        ∃ k, c.matched (c.key old_path) = [k] ∧
          slash :: Path.string (new_path.joinFilename old_path) =
            rebase (c.key old_path) (c.key new_path) k ∧
          below (c.key old_path) (slash :: Path.string (new_path.joinFilename old_path)) =
            false := by
  constructor
  · intro hmoves
    have hcount := moveDir_count_le c old_path new_path
    rw [hmoves.count] at hcount
    cases hm : c.matched (c.key old_path) with
    | nil => exact .inl rfl
    | cons k ks =>
      rw [hm, List.length_cons] at hcount
      obtain rfl : ks = [] := List.eq_nil_of_length_eq_zero (by omega)
      have hk := mem_of_matched hm
      obtain ⟨p, hp⟩ := Option.isSome_iff_exists.mp (AList.lookup_isSome.mpr hk)
      have hlook := lookup_moveDir_single new_path hm hp
      refine .inr ⟨k, rfl, ?_, ?_⟩
      · show movedKey old_path new_path = _
        by_contra hne
        cases hbelow : below (c.key old_path) k with
        | true =>
          -- the key it should have was free and stays so
          obtain ⟨rest, rfl⟩ := below_iff.mp hbelow
          rw [rebase_below] at hne
          have hmoved := hmoves.moved rest
          rw [hp, hlook, if_neg (Ne.symm hne), lookup_of_free hfree, ite_self] at hmoved
          cases hmoved
        | false =>
          -- the entry lies beside the directory and loses its key
          rw [rebase_of_not_below _ hbelow] at hne
          have hother := hmoves.others k hbelow (hfree k hk)
          rw [hp, hlook, if_neg (Ne.symm hne), if_pos rfl] at hother
          cases hother
      · apply hmoves.gone
        apply AList.lookup_isSome.mp
        show ((c.moveDir old_path new_path).map.lookup (movedKey old_path new_path)).isSome = true
        rw [hlook, if_pos rfl]
        rfl
  · intro hcond
    rcases hcond with hnone | ⟨k, hone, hkey, hout⟩
    · exact movesSubtree_none hfree hnone
    · exact movesSubtree_single hfree hone hkey hout

/-- Under the root `/`, a directory that has one file, of its own name. -/
theorem moveDir_subtree_iff_one :
    ∃ c : FileLRU, c.matched (c.key [bytes "a"]) = [bytes "/a/a"] ∧
      c.MovesSubtree (c.moveDir [bytes "a"] [bytes "b"]) (c.key [bytes "a"])
        (c.key [bytes "b"]) := by
  obtain ⟨c, -, hc⟩ := Run.exists_of_guarded
    (g := fun c : FileLRU => (c.map.keys, c.matched (c.key [bytes "a"]), c.path))
    (f := fun c op => CacheOp.apply c op) (p := fun c op => CacheOp.Fresh c op)
    (s := FileLRU.new [] 16 0 1)
    (l := [.put (fun _ => .regular (bytes "hi")) 2 (bytes "/a/a")])
    (a := ([bytes "/a/a"], [bytes "/a/a"], [])) (by decide +kernel)
  simp only [Prod.mk.injEq] at hc
  obtain ⟨hkeys, hone, hpath⟩ := hc
  have hold : c.key [bytes "a"] = bytes "/a" := by rw [key, hpath]; decide +kernel
  have hnew : c.key [bytes "b"] = bytes "/b" := by rw [key, hpath]; decide +kernel
  refine ⟨c, hone, (moveDir_subtree_iff ?_).mpr (.inr ⟨_, hone, ?_, ?_⟩)⟩
  · intro k hk
    rw [AList.mem_keys, hkeys, List.mem_singleton] at hk
    rw [hk, hnew]
    decide +kernel
  · rw [hold, hnew]
    decide +kernel
  · rw [hold]
    decide +kernel

/-- Under the root `/r`, of two files in `/a` one is left when `/a` is renamed to `/b`, and that
under the key `/r/b/a`. -/
theorem moveDir_loses_files :
    ∃ (c : FileLRU) (es : List Entry), c.Consistent es ∧
      (∀ k ∈ c.map, below (c.key [bytes "r", bytes "b"]) k = false) ∧
      c.matched (c.key [bytes "r", bytes "a"]) = [bytes "/a/y", bytes "/a/x"] ∧
      (c.moveDir [bytes "r", bytes "a"] [bytes "r", bytes "b"]).map.keys = [bytes "/r/b/a"] ∧
      ¬ c.MovesSubtree (c.moveDir [bytes "r", bytes "a"] [bytes "r", bytes "b"])
        (c.key [bytes "r", bytes "a"]) (c.key [bytes "r", bytes "b"]) := by
  obtain ⟨c, hrun, hc⟩ := Run.exists_of_guarded
    (g := fun c : FileLRU => (c.map.keys, c.matched (c.key [bytes "r", bytes "a"]),
      c.map.keys.all (fun k => !below (c.key [bytes "r", bytes "b"]) k),
      (c.moveDir [bytes "r", bytes "a"] [bytes "r", bytes "b"]).map.keys))
    (f := fun c op => CacheOp.apply c op)
    (p := fun c op => CacheOp.Fresh c op ∧ CacheOp.KeepsKeys c op)
    (s := FileLRU.new [bytes "r"] 16 0 1)
    (l := [.put (fun _ => .regular (bytes "hi")) 2 (bytes "/a/x"),
      .put (fun _ => .regular (bytes "ho")) 3 (bytes "/a/y")])
    (a := ([bytes "/a/y", bytes "/a/x"], [bytes "/a/y", bytes "/a/x"], true, [bytes "/r/b/a"]))
    (by decide +kernel)
  simp only [Prod.mk.injEq] at hc
  obtain ⟨hkeys, hmatched, hfree, hmoved⟩ := hc
  obtain ⟨es, hcons⟩ := consistent_of_run [bytes "r"] 16 (by decide) hrun
  refine ⟨c, es, hcons, ?_, hmatched, hmoved, ?_⟩
  · intro k hk
    simpa using List.all_eq_true.mp hfree k (AList.mem_keys.mp hk)
  · intro h
    have hcount := h.count
    rw [hkeys, hmoved] at hcount
    cases hcount

end FileLRU

end MuduoServer
