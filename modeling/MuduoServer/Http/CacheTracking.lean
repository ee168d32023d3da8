import MuduoServer.Http.StaticFiles

namespace MuduoServer

namespace Path

theorem string_injective {u v : Path} (hu : u.Canonical) (hv : v.Canonical)
    (h : u.string = v.string) : u = v := by
  rw [← components_string hu, h, components_string hv]

end Path

namespace Site

variable {root : Path} {s : Site} {u v : Path} {place : Place}

/-- The names of the paths below the static directory. -/
def Named (u : Path) : Prop := ∀ n ∈ u, n ≠ [] ∧ slash ∉ n

/-- What the cache and the disk have in common between operations; while the events of one are
still to be handled, the keys that are `dirty` are excepted. -/
structure Tracks (root : Path) (s : Site) (dirty : List Bytes) : Prop where
  rooted : s.cache.path = root
  held : ∃ es, s.cache.Held es
  below : ∀ wd d, s.inotify.watch_map.lookup wd = some d → ∃ r, d = root ++ r ∧ Named r
  fits : ∀ p content, s.files.lookup p = some content → content.length ≤ s.cache.capacity
  coherent : ∀ k content, s.cache.cached k = some content → k ∉ dirty →
    ∃ u : Path, u.Canonical ∧ k = slash :: u.string ∧ s.files.lookup (root ++ u) = some content

theorem key_of_path (hroot : s.cache.path = root) (hu : u.Canonical) :
    s.cache.key (root ++ u) = slash :: u.string := by
  rw [FileLRU.key, hroot, Path.relative_append root u hu.nonempty]

theorem Tracks.watched {dirty : List Bytes} (ht : Tracks root s dirty)
    (hw : SiteOp.Watched s place) :
    ∃ u : Path, u.Canonical ∧ s.path place = root ++ u ∧ s.key place = slash :: u.string := by
  obtain ⟨d, hd⟩ := Option.isSome_iff_exists.mp (AList.lookup_isSome.mpr hw.1)
  obtain ⟨r, rfl, hr⟩ := ht.below _ _ hd
  have hu : Path.Canonical (r ++ [place.name]) := by
    refine ⟨by simp, ?_⟩
    intro n hn
    rcases List.mem_append.mp hn with hn | hn
    · exact hr n hn
    · rw [List.mem_singleton.mp hn]
      exact hw.2
  have hpath : s.path place = root ++ (r ++ [place.name]) := by
    simp [Site.path, Inotify.parentPath, hd]
  refine ⟨_, hu, hpath, ?_⟩
  rw [Site.key, hpath, key_of_path ht.rooted hu]

theorem Tracks.key_eq_iff {dirty : List Bytes} (ht : Tracks root s dirty)
    (hw : SiteOp.Watched s place) (hu : u.Canonical) :
    slash :: u.string = s.key place ↔ root ++ u = s.path place := by
  obtain ⟨v, hv, hpath, hkey⟩ := ht.watched hw
  rw [hpath, hkey]
  constructor
  · intro h
    rw [Path.string_injective hu hv (List.cons.inj h).2]
  · intro h
    rw [List.append_cancel_left h]

/-- What is cached of a file is what the file has. -/
theorem Tracks.file_of_cached {dirty : List Bytes} {content : Bytes}
    (ht : Tracks root s dirty) (hw : SiteOp.Watched s place)
    (hk : s.cache.cached (s.key place) = some content) (hd : s.key place ∉ dirty) :
    s.files.lookup (s.path place) = some content := by
  obtain ⟨u, hu, hkey, hf⟩ := ht.coherent _ content hk hd
  rw [(ht.key_eq_iff hw hu).mp hkey.symm] at hf
  exact hf

/-- The key of a place does not depend on what is cached. -/
theorem Tracks.key_withCache {dirty dirty' : List Bytes} {c : FileLRU}
    (ht : Tracks root s dirty) (ht' : Tracks root (s.withCache c) dirty')
    (hw : SiteOp.Watched s place) : (s.withCache c).key place = s.key place := by
  obtain ⟨u, hu, hpath, hkey⟩ := ht.watched hw
  have hsame : (s.withCache c).path place = s.path place := rfl
  rw [hkey, Site.key, hsame, hpath]
  exact key_of_path ht'.rooted hu

theorem entryPath_event {i : Inotify} (mask : Mask) (cookie : Nat) (hname : place.name ≠ []) :
    i.entryPath (place.event mask cookie) = i.parentPath place.wd ++ [place.name] :=
  if_neg hname

section Dispatch

variable {i : Inotify} {disk : Disk} {alloc : Allocator} {cookie : Nat}

theorem dispatch_write {mask : Mask} {content : Bytes} {c : FileLRU}
    (hmask : mask = .IN_CREATE ∨ mask = .IN_MODIFY) (hname : place.name ≠ [])
    (hput : i.fileCache.put disk (alloc.address i.fileCache.heap)
      (i.fileCache.key (i.parentPath place.wd ++ [place.name])) = some (.ok content, c)) :
    Inotify.dispatch disk alloc (fun _ => []) i (place.event mask 0) =
      some { i with fileCache := c } := by
  have hadd : i.addFile disk alloc (i.entryPath (place.event mask 0)) =
      some { i with fileCache := c } := by
    rw [entryPath_event mask 0 hname]
    simp only [Inotify.addFile, FileLRU.addFile, hput, Option.bind_eq_bind, Option.bind_some]
  rcases hmask with rfl | rfl
  · exact hadd
  · exact hadd

theorem dispatch_delete {c : FileLRU} (hname : place.name ≠ [])
    (hdel : i.fileCache.delFile (i.parentPath place.wd ++ [place.name]) = some c) :
    Inotify.dispatch disk alloc (fun _ => []) i (place.event .IN_DELETE 0) =
      some { i with fileCache := c } := by
  have hdel' : i.fileCache.delFile (i.entryPath (place.event .IN_DELETE 0)) = some c := by
    rw [entryPath_event .IN_DELETE 0 hname]
    exact hdel
  show (do
    let c ← i.fileCache.delFile (i.entryPath (place.event .IN_DELETE 0))
    some { i with fileCache := c }) = _
  rw [hdel']
  rfl

theorem dispatch_movedFrom (hname : place.name ≠ []) (hcookie : cookie ∉ i.move_file_storage) :
    Inotify.dispatch disk alloc (fun _ => []) i (place.event .IN_MOVED_FROM cookie) =
      some { i with move_file_storage :=
        i.move_file_storage.insert cookie (i.parentPath place.wd ++ [place.name]) } := by
  have hentry := entryPath_event (i := i) .IN_MOVED_FROM cookie hname
  simp only [Inotify.dispatch, Inotify.fileMovedFrom, hentry]
  simp only [Place.event, AList.lookup_eq_none.mpr hcookie]

theorem dispatch_movedTo (hname : place.name ≠ []) (hcookie : cookie ∉ i.move_file_storage) :
    Inotify.dispatch disk alloc (fun _ => []) i (place.event .IN_MOVED_TO cookie) =
      some { i with move_file_storage :=
        i.move_file_storage.insert cookie (i.parentPath place.wd ++ [place.name]) } := by
  have hentry := entryPath_event (i := i) .IN_MOVED_TO cookie hname
  simp only [Inotify.dispatch, Inotify.fileMovedTo, hentry]
  simp only [Place.event, AList.lookup_eq_none.mpr hcookie]

/-- A cookie that is seen for the first time and then once more: the file is moved in the cache. -/
theorem foldlM_moved {old new : Place} (hold : old.name ≠ []) (hnew : new.name ≠ [])
    (hcookie : cookie ∉ i.move_file_storage) :
    [old.event .IN_MOVED_FROM cookie, new.event .IN_MOVED_TO cookie].foldlM
        (Inotify.dispatch disk alloc fun _ => []) i =
      some { i with
        fileCache := i.fileCache.moveFile (i.parentPath old.wd ++ [old.name])
          (i.parentPath new.wd ++ [new.name])
        move_file_storage := (i.move_file_storage.insert cookie
          (i.parentPath old.wd ++ [old.name])).erase cookie } := by
  rw [List.foldlM_cons, dispatch_movedFrom hold hcookie]
  have hentry : ∀ j : Inotify, j.entryPath (new.event .IN_MOVED_TO cookie) =
      j.parentPath new.wd ++ [new.name] := fun _ => entryPath_event .IN_MOVED_TO cookie hnew
  simp only [Option.bind_eq_bind, Option.bind_some, List.foldlM_cons, List.foldlM_nil,
    Inotify.dispatch, Inotify.fileMovedTo, hentry]
  simp only [Place.event, AList.lookup_insert]
  rfl

end Dispatch

/-- At a path below the static directory `put` reads the file that is there. -/
theorem Tracks.load {dirty : List Bytes} (ht : Tracks root s dirty) (hu : u.Canonical) :
    s.cache.load s.disk (slash :: u.string) =
      match s.files.lookup (root ++ u) with
      | some content => .ok content
      | none => .error .filesystem_error := by
  have hfull : s.cache.fullPath (slash :: u.string) = root ++ u := by
    rw [FileLRU.fullPath, ht.rooted, Path.components_string hu]
  rw [FileLRU.load, hfull, Site.disk]
  cases hf : s.files.lookup (root ++ u) with
  | some content =>
    have hfit := ht.fits _ _ hf
    simp only [if_neg (Nat.not_lt.mpr hfit)]
  | none =>
    by_cases hd : root ++ u ∈ s.inotify.watch_map.entries.map Sigma.snd
    · simp only [if_pos hd]
    · simp only [if_neg hd]

/-- Keys that are no longer excepted. -/
theorem Tracks.clean {dirty : List Bytes} (ht : Tracks root s dirty)
    (hclean : ∀ k ∈ dirty, ∀ content, s.cache.cached k = some content →
      ∃ u : Path, u.Canonical ∧ k = slash :: u.string ∧
        s.files.lookup (root ++ u) = some content) :
    Tracks root s [] := by
  refine ⟨ht.rooted, ht.held, ht.below, ht.fits, ?_⟩
  intro k content hk _
  by_cases hd : k ∈ dirty
  · exact hclean k hd content hk
  · exact ht.coherent k content hk hd

theorem Tracks.mono {dirty dirty' : List Bytes} (ht : Tracks root s dirty)
    (hsub : dirty ⊆ dirty') : Tracks root s dirty' :=
  ⟨ht.rooted, ht.held, ht.below, ht.fits,
    fun k content hk hd => ht.coherent k content hk (fun h => hd (hsub h))⟩

/-- Files that are the same but at some paths, whose keys are dirty. -/
theorem Tracks.of_files {dirty : List Bytes} (ht : Tracks root s dirty)
    (files : AList (fun _ : Path => Bytes))
    (hfits : ∀ p content, files.lookup p = some content → content.length ≤ s.cache.capacity)
    (hsame : ∀ u : Path, u.Canonical → (slash :: u.string) ∉ dirty →
      files.lookup (root ++ u) = s.files.lookup (root ++ u)) :
    Tracks root { s with files := files } dirty := by
  refine ⟨ht.rooted, ht.held, ht.below, hfits, ?_⟩
  intro k content hk hd
  obtain ⟨u, hu, rfl, hf⟩ := ht.coherent k content hk hd
  exact ⟨u, hu, rfl, (hsame u hu hd).trans hf⟩

theorem Tracks.insert {content : Bytes} (ht : Tracks root s []) (u : Path)
    (hfit : content.length ≤ s.cache.capacity) :
    Tracks root { s with files := s.files.insert (root ++ u) content } [slash :: u.string] := by
  apply (ht.mono (by simp)).of_files
  · intro p b hp
    by_cases heq : p = root ++ u
    · rw [heq, AList.lookup_insert] at hp
      exact Option.some.inj hp ▸ hfit
    · rw [AList.lookup_insert_ne heq] at hp
      exact ht.fits p b hp
  · intro v hv hne
    apply AList.lookup_insert_ne
    intro heq
    rw [List.append_cancel_left heq] at hne
    simp at hne

theorem Tracks.erase (ht : Tracks root s []) (u : Path) :
    Tracks root { s with files := s.files.erase (root ++ u) } [slash :: u.string] := by
  apply (ht.mono (by simp)).of_files
  · intro p b hp
    by_cases heq : p = root ++ u
    · rw [heq, AList.lookup_erase] at hp
      cases hp
    · rw [AList.lookup_erase_ne heq] at hp
      exact ht.fits p b hp
  · intro v hv hne
    apply AList.lookup_erase_ne
    intro heq
    rw [List.append_cancel_left heq] at hne
    simp at hne

/-- A cache that has, apart from what its files have, only what it had. -/
theorem Tracks.of_cache {dirty : List Bytes} {c : FileLRU} (ht : Tracks root s dirty)
    (hroot : c.path = s.cache.path) (hcap : c.capacity = s.cache.capacity)
    (hheld : ∃ es, c.Held es)
    (hkeys : ∀ k content, c.cached k = some content →
      (s.cache.cached k = some content ∧ k ∉ dirty) ∨
        ∃ u : Path, u.Canonical ∧ k = slash :: u.string ∧
          s.files.lookup (root ++ u) = some content) :
    Tracks root (s.withCache c) [] := by
  refine ⟨hroot.trans ht.rooted, hheld, ht.below, ?_, ?_⟩
  · intro p content hp
    exact (ht.fits p content hp).trans hcap.ge
  · intro k content hk _
    rcases hkeys k content hk with ⟨hold, hclean⟩ | hfile
    · exact ht.coherent k content hold hclean
    · exact hfile

/-- An event that makes the callback read the file again. -/
theorem Tracks.addFile {content : Bytes} {dirty : List Bytes} (mask : Mask) (alloc : Allocator)
    (ht : Tracks root s dirty) (hw : SiteOp.Watched s place)
    (hmask : mask = .IN_CREATE ∨ mask = .IN_MODIFY)
    (hdirty : ∀ k ∈ dirty, k = s.key place)
    (hfile : s.files.lookup (s.path place) = some content)
    (hown : s.key place ∉ s.cache.map → s.cache.EvictsOwn content.length) :
    ∃ c, Inotify.dispatch s.disk alloc (fun _ => []) s.inotify (place.event mask 0) =
        some { s.inotify with fileCache := c } ∧
      c.capacity = s.cache.capacity ∧ Tracks root (s.withCache c) [] ∧ s.key place ∈ c.map := by
  obtain ⟨u, hu, hpath, hkey⟩ := ht.watched hw
  obtain ⟨es, hc⟩ := ht.held
  have hload : s.cache.load s.disk (s.key place) = .ok content := by
    rw [hkey, ht.load hu, ← hpath, hfile]
  obtain ⟨c, hput, hroot, hcap, hsafe⟩ :=
    FileLRU.put_held hc hload (ht.fits _ _ hfile) (alloc.fresh s.cache.heap)
  obtain ⟨⟨es', hc'⟩, hself, hother⟩ := hsafe hown
  refine ⟨c, ?_, hcap, ht.of_cache hroot hcap ⟨es', hc'⟩ ?_, ?_⟩
  · exact dispatch_write hmask hw.2.1 hput
  · intro k b hk
    by_cases heq : k = s.key place
    · rw [heq, hself] at hk
      exact .inr ⟨u, hu, heq.trans hkey, by rw [← Option.some.inj hk, ← hpath, hfile]⟩
    · rcases hother k heq with hsame | hnone
      · exact .inl ⟨hsame.symm.trans hk, fun hd => heq (hdirty k hd)⟩
      · rw [hnone] at hk
        cases hk
  · rw [hc'.mem_iff, hself]
    simp

/-- However often the file was written to. -/
theorem Tracks.modify {content : Bytes} (alloc : Allocator) (writes : Nat)
    (ht : Tracks root s []) (hw : SiteOp.Watched s place)
    (hfile : s.files.lookup (s.path place) = some content) (hk : s.key place ∈ s.cache.map) :
    ∃ c, (List.replicate writes (place.event .IN_MODIFY 0)).foldlM
        (Inotify.dispatch s.disk alloc fun _ => []) s.inotify =
          some { s.inotify with fileCache := c } ∧
      Tracks root (s.withCache c) [] := by
  induction writes generalizing s with
  | zero => exact ⟨s.cache, rfl, ht⟩
  | succ writes ih =>
    obtain ⟨c, heq, -, ht', hmem⟩ := ht.addFile .IN_MODIFY alloc hw (.inr rfl) (by simp) hfile
      (fun hnot => absurd hk hnot)
    have hkey := ht.key_withCache ht' hw
    obtain ⟨c', heq', ht''⟩ := ih ht' hw hfile (hkey.symm ▸ hmem)
    refine ⟨c', ?_, ht''⟩
    rw [List.replicate_succ, List.foldlM_cons, heq]
    exact heq'

/-- The events of a file that has been written. -/
theorem Tracks.written {content : Bytes} {dirty : List Bytes} (mask : Mask) (alloc : Allocator)
    (writes : Nat) (ht : Tracks root s dirty) (hw : SiteOp.Watched s place)
    (hmask : mask = .IN_CREATE ∨ mask = .IN_MODIFY) (hdirty : ∀ k ∈ dirty, k = s.key place)
    (hfile : s.files.lookup (s.path place) = some content)
    (hown : s.key place ∉ s.cache.map → s.cache.EvictsOwn content.length) :
    ∃ c, (place.event mask 0 :: List.replicate writes (place.event .IN_MODIFY 0)).foldlM
        (Inotify.dispatch s.disk alloc fun _ => []) s.inotify =
          some { s.inotify with fileCache := c } ∧
      Tracks root (s.withCache c) [] := by
  obtain ⟨c, heq, -, ht', hmem⟩ := ht.addFile mask alloc hw hmask hdirty hfile hown
  have hkey := ht.key_withCache ht' hw
  obtain ⟨c', heq', ht''⟩ := ht'.modify alloc writes hw hfile (hkey.symm ▸ hmem)
  refine ⟨c', ?_, ht''⟩
  rw [List.foldlM_cons, heq]
  exact heq'

theorem notify_eq {alloc : Allocator} {events : List InotifyEvent} {i : Inotify}
    (h : events.foldlM (Inotify.dispatch s.disk alloc fun _ => []) s.inotify = some i) :
    s.notify alloc events = some { s with inotify := i } := by
  simp only [notify, h, Option.bind_eq_bind, Option.bind_some]

theorem notify_one {alloc : Allocator} {event : InotifyEvent} {i : Inotify}
    (h : Inotify.dispatch s.disk alloc (fun _ => []) s.inotify event = some i) :
    s.notify alloc [event] = some { s with inotify := i } := by
  apply notify_eq
  rw [List.foldlM_cons, h]
  rfl

theorem Tracks.create {content : Bytes} {writes : Nat} (alloc : Allocator)
    (ht : Tracks root s []) (hp : (SiteOp.create place content writes).Possible s)
    (hf : (SiteOp.create place content writes).Followed s) :
    ∃ s', (SiteOp.create place content writes).apply alloc s = some s' ∧ Tracks root s' [] := by
  obtain ⟨hw, -, hfit⟩ := hp
  obtain ⟨u, hu, hpath, hkey⟩ := ht.watched hw
  have ht₁ := ht.insert u hfit
  rw [← hpath] at ht₁
  have hfile : (s.files.insert (s.path place) content).lookup (s.path place) = some content :=
    AList.lookup_insert _
  have hdirty : ∀ k ∈ [slash :: u.string], k = s.key place := by
    intro k hk
    rw [List.mem_singleton.mp hk, hkey]
  obtain ⟨c, heq, ht₂⟩ := ht₁.written .IN_CREATE alloc writes hw (.inl rfl) hdirty hfile hf
  exact ⟨_, notify_eq heq, ht₂⟩

theorem Tracks.overwrite {content : Bytes} {writes : Nat} (alloc : Allocator)
    (ht : Tracks root s []) (hp : (SiteOp.overwrite place content writes).Possible s)
    (hf : (SiteOp.overwrite place content writes).Followed s) :
    ∃ s', (SiteOp.overwrite place content writes).apply alloc s = some s' ∧
      Tracks root s' [] := by
  obtain ⟨hw, -, hfit, hsame⟩ := hp
  obtain ⟨u, hu, hpath, hkey⟩ := ht.watched hw
  have ht₁ := ht.insert u hfit
  rw [← hpath] at ht₁
  have hfile : (s.files.insert (s.path place) content).lookup (s.path place) = some content :=
    AList.lookup_insert _
  cases writes with
  | zero =>
    refine ⟨_, notify_eq rfl, ht₁.clean ?_⟩
    intro k hk b hb
    obtain ⟨v, hv, rfl, hf⟩ := ht.coherent k b hb (by simp)
    refine ⟨v, hv, rfl, ?_⟩
    -- nothing was written: the file has the bytes it had
    by_cases heq : root ++ v = s.path place
    · rw [heq] at hf ⊢
      rw [AList.lookup_insert, ← hsame rfl, hf]
    · rw [AList.lookup_insert_ne heq, hf]
  | succ writes =>
    have hdirty : ∀ k ∈ [slash :: u.string], k = s.key place := by
      intro k hk
      rw [List.mem_singleton.mp hk, hkey]
    obtain ⟨c, heq, ht₂⟩ := ht₁.written .IN_MODIFY alloc writes hw (.inr rfl) hdirty hfile
      (hf (Nat.succ_pos writes))
    refine ⟨_, notify_eq ?_, ht₂⟩
    rw [List.replicate_succ]
    exact heq

theorem Tracks.delete (alloc : Allocator) (ht : Tracks root s [])
    (hp : (SiteOp.delete place).Possible s) :
    ∃ s', (SiteOp.delete place).apply alloc s = some s' ∧ Tracks root s' [] := by
  obtain ⟨hw, -⟩ := hp
  obtain ⟨u, hu, hpath, hkey⟩ := ht.watched hw
  obtain ⟨es, hc⟩ := ht.held
  have ht₁ := ht.erase u
  rw [← hpath] at ht₁
  cases hb : s.cache.cached (s.key place) with
  | none =>
    have hdel : s.cache.delFile (s.path place) = some s.cache := by
      rw [FileLRU.delFile, if_neg]
      rw [hc.mem_iff, not_not]
      exact hb
    refine ⟨_, notify_one (dispatch_delete hw.2.1 hdel), ht₁.clean ?_⟩
    intro k hk b hkb
    rw [List.mem_singleton.mp hk, ← hkey] at hkb
    have hnone : s.cache.cached (s.key place) = some b := hkb
    rw [hb] at hnone
    cases hnone
  | some b =>
    obtain ⟨c, es', hdrop, hroot, hcap, hc', hself, hother⟩ := FileLRU.drop_held hc hb
    have hdel : s.cache.delFile (s.path place) = some c := by
      rw [FileLRU.delFile, if_pos]
      · exact hdrop
      · rw [hc.mem_iff]
        intro hnone
        rw [Site.key, hnone] at hb
        cases hb
    refine ⟨_, notify_one (dispatch_delete hw.2.1 hdel), ?_⟩
    refine ht₁.of_cache hroot hcap ⟨es', hc'⟩ ?_
    intro k content hk
    by_cases heq : k = s.key place
    · rw [heq, hself] at hk
      cases hk
    · exact .inl ⟨(hother k heq).symm.trans hk, by simpa [← hkey] using heq⟩

theorem lookup_renamed (m : AList (fun _ : Path => Bytes)) (old new p : Path) (content : Bytes) :
    ((m.erase old).insert new content).lookup p =
      if p = new then some content else if p = old then none else m.lookup p := by
  by_cases hn : p = new
  · rw [if_pos hn, hn, AList.lookup_insert]
  · rw [if_neg hn, AList.lookup_insert_ne hn]
    by_cases ho : p = old
    · rw [if_pos ho, ho, AList.lookup_erase]
    · rw [if_neg ho, AList.lookup_erase_ne ho]

theorem rename_apply {old new : Place} {content : Bytes} {cookie : Nat} (alloc : Allocator)
    (hold : old.name ≠ []) (hnew : new.name ≠ [])
    (hfile : s.files.lookup (s.path old) = some content)
    (hcookie : cookie ∉ s.inotify.move_file_storage) :
    (SiteOp.rename old new cookie).apply alloc s = some { s with
      files := (s.files.erase (s.path old)).insert (s.path new) content
      inotify := { s.inotify with
        fileCache := s.cache.moveFile (s.path old) (s.path new)
        move_file_storage :=
          (s.inotify.move_file_storage.insert cookie (s.path old)).erase cookie } } := by
  rw [SiteOp.apply, hfile]
  exact notify_eq (foldlM_moved hold hnew hcookie)

theorem Tracks.rename {old new : Place} {cookie : Nat} (alloc : Allocator)
    (ht : Tracks root s []) (hp : (SiteOp.rename old new cookie).Possible s)
    (hf : (SiteOp.rename old new cookie).Followed s) :
    ∃ s', (SiteOp.rename old new cookie).apply alloc s = some s' ∧ Tracks root s' [] := by
  obtain ⟨hwo, hwn, hfile, -, hcookie⟩ := hp
  obtain ⟨v, hv, hvpath, hvkey⟩ := ht.watched hwn
  obtain ⟨es, hc⟩ := ht.held
  obtain ⟨content, hcontent⟩ := Option.isSome_iff_exists.mp (AList.lookup_isSome.mpr hfile)
  obtain ⟨files, hfiles⟩ : ∃ files, files =
      (s.files.erase (s.path old)).insert (s.path new) content := ⟨_, rfl⟩
  have hlook : ∀ p, files.lookup p = if p = s.path new then some content
      else if p = s.path old then none else s.files.lookup p := by
    intro p
    rw [hfiles, lookup_renamed]
  have hfits : ∀ p b, files.lookup p = some b → b.length ≤ s.cache.capacity := by
    intro p b hb
    rw [hlook] at hb
    split_ifs at hb
    · exact Option.some.inj hb ▸ ht.fits _ _ hcontent
    · exact ht.fits p b hb
  -- a key of neither file: its file is where it was
  have hother : ∀ k b, s.cache.cached k = some b → k ≠ s.key new → k ≠ s.key old →
      ∃ w : Path, w.Canonical ∧ k = slash :: w.string ∧ files.lookup (root ++ w) = some b := by
    intro k b hk hkn hko
    obtain ⟨w, hw, rfl, hwf⟩ := ht.coherent k b hk (by simp)
    refine ⟨w, hw, rfl, ?_⟩
    rw [hlook, if_neg, if_neg, hwf]
    · exact fun heq => hko ((ht.key_eq_iff hwo hw).mpr heq)
    · exact fun heq => hkn ((ht.key_eq_iff hwn hw).mpr heq)
  have hnewfile : files.lookup (root ++ v) = some content := by rw [hlook, ← hvpath, if_pos rfl]
  refine ⟨_, rename_apply alloc hwo.2.1 hwn.2.1 hcontent hcookie, ?_⟩
  rw [← hfiles]
  by_cases hk : s.key old ∈ s.cache.map
  · obtain ⟨hheld, hcached⟩ := FileLRU.moveFile_held (s.path new) hc hk
    refine ⟨(FileLRU.moveFile_path ..).trans ht.rooted, ⟨es, hheld⟩, ht.below, ?_, ?_⟩
    · intro p b hb
      exact (hfits p b hb).trans (FileLRU.moveFile_capacity ..).ge
    · intro k b hkb _
      have hkb' : (s.cache.moveFile (s.path old) (s.path new)).cached k = some b := hkb
      rw [hcached] at hkb'
      split_ifs at hkb' with hkn hko
      · -- the entry moved has the bytes of the file moved
        have hold := ht.file_of_cached hwo hkb' (by simp)
        exact ⟨v, hv, hkn.trans hvkey, by rw [hnewfile, ← hcontent, hold]⟩
      · exact hother k b hkb' hkn hko
  · rw [show s.cache.moveFile (s.path old) (s.path new) = s.cache from
      FileLRU.moveFile_miss _ hk]
    refine ⟨ht.rooted, ⟨es, hc⟩, ht.below, hfits, ?_⟩
    intro k b hkb _
    have hkb' : s.cache.cached k = some b := hkb
    have hmem : k ∈ s.cache.map := by
      rw [hc.mem_iff, hkb']
      simp
    by_cases hkn : k = s.key new
    · -- the file that was replaced was cached, with the same bytes
      have hreplaced := ht.file_of_cached hwn (hkn ▸ hkb') (by simp)
      have hsame := hf hk (hkn ▸ hmem)
      rw [hreplaced, hcontent] at hsame
      exact ⟨v, hv, hkn.trans hvkey, by rw [hnewfile, hsame]⟩
    · exact hother k b hkb' hkn (fun hko => hk (hko ▸ hmem))

theorem Tracks.moveIn {new : Place} {content : Bytes} {cookie : Nat} (alloc : Allocator)
    (ht : Tracks root s []) (hp : (SiteOp.moveIn new content cookie).Possible s)
    (hf : (SiteOp.moveIn new content cookie).Followed s) :
    ∃ s', (SiteOp.moveIn new content cookie).apply alloc s = some s' ∧ Tracks root s' [] := by
  obtain ⟨hw, hfit, hcookie⟩ := hp
  obtain ⟨u, hu, hpath, hkey⟩ := ht.watched hw
  obtain ⟨es, hc⟩ := ht.held
  have ht₁ := ht.insert u hfit
  rw [← hpath] at ht₁
  refine ⟨_, notify_one (dispatch_movedTo hw.2.1 hcookie), ?_⟩
  have ht₂ : Tracks root { s with files := s.files.insert (s.path new) content } [] := by
    apply ht₁.clean
    intro k hk b hkb
    rw [List.mem_singleton.mp hk] at hkb ⊢
    have hkb' : s.cache.cached (s.key new) = some b := by rw [hkey]; exact hkb
    have hmem : s.key new ∈ s.cache.map := by
      rw [hc.mem_iff, hkb']
      simp
    have hsame := hf hmem
    rw [ht.file_of_cached hw hkb' (by simp)] at hsame
    refine ⟨u, hu, rfl, ?_⟩
    rw [← hpath, hsame]
    exact AList.lookup_insert _
  exact ⟨ht₂.rooted, ht₂.held, ht₂.below, ht₂.fits, ht₂.coherent⟩

theorem Tracks.moveOut {old : Place} {cookie : Nat} (alloc : Allocator) (ht : Tracks root s [])
    (hp : (SiteOp.moveOut old cookie).Possible s) (hf : (SiteOp.moveOut old cookie).Followed s) :
    ∃ s', (SiteOp.moveOut old cookie).apply alloc s = some s' ∧ Tracks root s' [] := by
  obtain ⟨hw, -, hcookie⟩ := hp
  obtain ⟨u, hu, hpath, hkey⟩ := ht.watched hw
  obtain ⟨es, hc⟩ := ht.held
  have ht₁ := ht.erase u
  rw [← hpath] at ht₁
  refine ⟨_, notify_one (dispatch_movedFrom hw.2.1 hcookie), ?_⟩
  have ht₂ : Tracks root { s with files := s.files.erase (s.path old) } [] := by
    apply ht₁.clean
    intro k hk b hkb
    have hkb' : s.cache.cached (s.key old) = some b := by
      rw [hkey, ← List.mem_singleton.mp hk]
      exact hkb
    exact absurd (hc.mem_iff.mpr (by rw [hkb']; simp)) hf
  exact ⟨ht₂.rooted, ht₂.held, ht₂.below, ht₂.fits, ht₂.coherent⟩

/-- A request for a path below the static directory is answered with the file that is there. -/
theorem Tracks.getFile (alloc : Allocator) (ht : Tracks root s []) (hu : u.Canonical) :
    ∃ c, s.getFile alloc u = some (.ok (s.files.lookup (root ++ u)), c) ∧
      ((SiteOp.getFile u).Followed s → Tracks root (s.withCache c) []) := by
  obtain ⟨es, hc⟩ := ht.held
  cases hb : s.cache.cached (slash :: u.string) with
  | some b =>
    obtain ⟨c, es', heq, hroot, hcap, hc', hcached⟩ := FileLRU.get_held hc hb
    obtain ⟨w, hw, hwk, hwf⟩ := ht.coherent _ b hb (by simp)
    obtain rfl : u = w := Path.string_injective hu hw (List.cons.inj hwk).2
    refine ⟨c, ?_, fun _ => ht.of_cache hroot hcap ⟨es', hc'⟩ fun k content hk => ?_⟩
    · simp only [Site.getFile, FileLRU.getFile, heq, Option.bind_eq_bind, Option.bind_some, hwf]
    · exact .inl ⟨(hcached k).symm.trans hk, by simp⟩
  | none =>
    have hmiss := FileLRU.get_miss (hc.lookup_eq_none hb)
    have hload := ht.load hu
    cases hf : s.files.lookup (root ++ u) with
    | none =>
      rw [hf] at hload
      refine ⟨s.cache, ?_, fun _ => ht⟩
      simp only [Site.getFile, FileLRU.getFile, hmiss, FileLRU.put, hload, Option.bind_eq_bind,
        Option.bind_some]
    | some content =>
      rw [hf] at hload
      obtain ⟨c, hput, hroot, hcap, hsafe⟩ :=
        FileLRU.put_held hc hload (ht.fits _ _ hf) (alloc.fresh s.cache.heap)
      refine ⟨c, ?_, ?_⟩
      · simp only [Site.getFile, FileLRU.getFile, hmiss, hput, Option.bind_eq_bind,
          Option.bind_some]
      · intro hfollow
        obtain ⟨⟨es', hc'⟩, hself, hother⟩ :=
          hsafe fun hnot => hfollow hnot content (by rw [ht.rooted]; exact hf)
        refine ht.of_cache hroot hcap ⟨es', hc'⟩ fun k b hk => ?_
        by_cases heq : k = slash :: u.string
        · rw [heq, hself] at hk
          exact .inr ⟨u, hu, heq, hf.trans hk⟩
        · rcases hother k heq with hsame | hnone
          · exact .inl ⟨hsame.symm.trans hk, by simp⟩
          · rw [hnone] at hk
            cases hk

/-- Every operation that the cache follows. -/
theorem Tracks.step (op : SiteOp) (alloc : Allocator) (ht : Tracks root s [])
    (hp : op.Possible s) (hf : op.Followed s) :
    ∃ s', op.apply alloc s = some s' ∧ Tracks root s' [] := by
  cases op with
  | create place content writes => exact ht.create alloc hp hf
  | overwrite place content writes => exact ht.overwrite alloc hp hf
  | delete place => exact ht.delete alloc hp
  | rename old new cookie => exact ht.rename alloc hp hf
  | moveIn new content cookie => exact ht.moveIn alloc hp hf
  | moveOut old cookie => exact ht.moveOut alloc hp hf
  | getFile u =>
    obtain ⟨c, heq, hkeep⟩ := ht.getFile alloc hp
    refine ⟨s.withCache c, ?_, hkeep hf⟩
    simp only [SiteOp.apply, heq, Option.bind_eq_bind, Option.bind_some]

end Site

end MuduoServer
