import MuduoServer.Http.CacheTracking
import MuduoServer.Base.CacheDangling

namespace MuduoServer.Site

variable {root : Path} {s s' : Site} {u : Path} {place : Place} {content : Bytes}

/-- A request for any path below the static directory is answered with the bytes of the file that
is there, or with nothing where there is none. -/
def Coherent (root : Path) (s : Site) : Prop :=
  ∀ (alloc : Allocator) (u : Path), u.Canonical →
    ∃ c, s.getFile alloc u = some (.ok (s.files.lookup (root ++ u)), c)

theorem coherent_of_tracks (ht : Tracks root s []) : Coherent root s := by
  intro alloc u hu
  obtain ⟨c, heq, -⟩ := ht.getFile alloc hu
  exact ⟨c, heq⟩

/-- An entry that its file has left behind. -/
theorem Tracks.not_coherent_of_stale (alloc : Allocator) (ht : Tracks root s [])
    (hw : SiteOp.Watched s place) (hk : s.cache.cached (s.key place) = some content)
    (hcache : s'.cache = s.cache) (hfile : s'.files.lookup (s.path place) ≠ some content) :
    ¬ Coherent root s' := by
  intro h
  obtain ⟨es, hc⟩ := ht.held
  obtain ⟨u, hu, hpath, hkey⟩ := ht.watched hw
  obtain ⟨c, hget⟩ := h alloc u hu
  rw [hkey] at hk
  obtain ⟨c', es', heq, -⟩ := FileLRU.get_held hc hk
  simp only [Site.getFile, FileLRU.getFile, hcache, heq, Option.bind_eq_bind,
    Option.bind_some] at hget
  rw [hpath] at hfile
  exact hfile (Except.ok.inj (Prod.mk.inj (Option.some.inj hget)).1).symm

theorem Tracks.rename_stale {old new : Place} {cookie : Nat} (alloc : Allocator)
    (ht : Tracks root s []) (hp : (SiteOp.rename old new cookie).Possible s)
    (hf : ¬ (SiteOp.rename old new cookie).Followed s) :
    ∃ s', (SiteOp.rename old new cookie).apply alloc s = some s' ∧ ¬ Coherent root s' := by
  obtain ⟨hwo, hwn, hfile, -, hcookie⟩ := hp
  obtain ⟨es, hc⟩ := ht.held
  obtain ⟨content, hcontent⟩ := Option.isSome_iff_exists.mp (AList.lookup_isSome.mpr hfile)
  simp only [SiteOp.Followed, not_forall] at hf
  obtain ⟨hold, hnew, hne⟩ := hf
  obtain ⟨b, hb⟩ := Option.ne_none_iff_exists'.mp (hc.mem_iff.mp hnew)
  refine ⟨_, rename_apply alloc hwo.2.1 hwn.2.1 hcontent hcookie, ?_⟩
  refine ht.not_coherent_of_stale alloc hwn hb (FileLRU.moveFile_miss _ hold) ?_
  -- the key of the new name still leads to what was replaced
  rw [AList.lookup_insert]
  intro heq
  apply hne
  rw [ht.file_of_cached hwn hb (by simp), hcontent, heq]

theorem Tracks.moveIn_stale {new : Place} {cookie : Nat} (alloc : Allocator)
    (ht : Tracks root s []) (hp : (SiteOp.moveIn new content cookie).Possible s)
    (hf : ¬ (SiteOp.moveIn new content cookie).Followed s) :
    ∃ s', (SiteOp.moveIn new content cookie).apply alloc s = some s' ∧ ¬ Coherent root s' := by
  obtain ⟨hw, -, hcookie⟩ := hp
  obtain ⟨es, hc⟩ := ht.held
  simp only [SiteOp.Followed, not_forall] at hf
  obtain ⟨hnew, hne⟩ := hf
  obtain ⟨b, hb⟩ := Option.ne_none_iff_exists'.mp (hc.mem_iff.mp hnew)
  refine ⟨_, notify_one (dispatch_movedTo hw.2.1 hcookie), ?_⟩
  refine ht.not_coherent_of_stale alloc hw hb rfl ?_
  rw [AList.lookup_insert]
  intro heq
  apply hne
  rw [ht.file_of_cached hw hb (by simp), heq]

theorem Tracks.moveOut_stale {old : Place} {cookie : Nat} (alloc : Allocator)
    (ht : Tracks root s []) (hp : (SiteOp.moveOut old cookie).Possible s)
    (hf : ¬ (SiteOp.moveOut old cookie).Followed s) :
    ∃ s', (SiteOp.moveOut old cookie).apply alloc s = some s' ∧ ¬ Coherent root s' := by
  obtain ⟨hw, -, hcookie⟩ := hp
  obtain ⟨es, hc⟩ := ht.held
  simp only [SiteOp.Followed, not_not] at hf
  obtain ⟨b, hb⟩ := Option.ne_none_iff_exists'.mp (hc.mem_iff.mp hf)
  refine ⟨_, notify_one (dispatch_movedFrom hw.2.1 hcookie), ?_⟩
  refine ht.not_coherent_of_stale alloc hw hb rfl ?_
  rw [AList.lookup_erase]
  simp

/-- A key that was cached and now leads to a node that was deleted. -/
theorem Tracks.not_coherent_of_dangles {k : Bytes} (alloc : Allocator) (ht : Tracks root s [])
    (hk : k ∈ s.cache.map) (hd : s'.cache.Dangles k) : ¬ Coherent root s' := by
  intro h
  obtain ⟨es, hc⟩ := ht.held
  obtain ⟨b, hb⟩ := Option.ne_none_iff_exists'.mp (hc.mem_iff.mp hk)
  obtain ⟨u, hu, rfl, -⟩ := ht.coherent k b hb (by simp)
  obtain ⟨c, hget⟩ := h alloc u hu
  rw [Site.getFile, FileLRU.getFile_of_dangles hd] at hget
  cases hget

/-- A file that is put into the cache in place of a node that some other key leads to. -/
theorem Tracks.put_dangles {dirty : List Bytes} (alloc : Allocator) (ht : Tracks root s dirty)
    (hu : u.Canonical) (hfile : s.files.lookup (root ++ u) = some content)
    (hk : slash :: u.string ∉ s.cache.map) (hown : ¬ s.cache.EvictsOwn content.length) :
    ∃ c, s.cache.put s.disk (alloc.address s.cache.heap) (slash :: u.string) =
        some (.ok content, c) ∧ c.path = s.cache.path ∧ c.capacity = s.cache.capacity ∧
      c.Lives (slash :: u.string) ∧ ∃ k ∈ s.cache.map, c.Dangles k := by
  obtain ⟨es, hc⟩ := ht.held
  have hload := ht.load hu
  rw [hfile] at hload
  obtain ⟨c, heq, hpath, hcap, hlives, hdangles⟩ :=
    FileLRU.putNew_dangles hc (ht.fits _ _ hfile) (alloc.fresh s.cache.heap) hk hown
  refine ⟨c, ?_, hpath, hcap, hlives, hdangles⟩
  simp only [FileLRU.put, hload, AList.lookup_eq_none.mpr hk, heq, Option.bind_eq_bind,
    Option.bind_some]

/-- However often the file is written to, what dangles stays. -/
theorem foldlM_modify_lives {i : Inotify} {disk : Disk} (alloc : Allocator) (writes : Nat)
    (hname : place.name ≠ [])
    (hload : i.fileCache.load disk (i.fileCache.key (i.parentPath place.wd ++ [place.name])) =
      .ok content)
    (hl : i.fileCache.Lives (i.fileCache.key (i.parentPath place.wd ++ [place.name]))) :
    ∃ c, (List.replicate writes (place.event .IN_MODIFY 0)).foldlM
        (Inotify.dispatch disk alloc fun _ => []) i = some { i with fileCache := c } ∧
      ∀ k, i.fileCache.Dangles k → c.Dangles k := by
  induction writes generalizing i with
  | zero => exact ⟨i.fileCache, rfl, fun _ => id⟩
  | succ writes ih =>
    obtain ⟨c, hput, hpath, hcap, hl', hd⟩ := FileLRU.put_lives hl hload
    have hkey : ∀ p, c.key p = i.fileCache.key p := fun p => by rw [FileLRU.key, hpath]; rfl
    obtain ⟨c', heq, hd'⟩ := ih (i := { i with fileCache := c })
      (by
        show c.load disk (c.key (i.parentPath place.wd ++ [place.name])) = _
        rw [hkey, FileLRU.load_congr hpath hcap, hload])
      (by
        show c.Lives (c.key (i.parentPath place.wd ++ [place.name]))
        rw [hkey]
        exact hl')
    refine ⟨c', ?_, fun k hk => hd' k (hd k hk)⟩
    rw [List.replicate_succ, List.foldlM_cons, dispatch_write (.inr rfl) hname hput]
    exact heq

/-- The events of a file that has been written, when its entry evicts a node that some other key
leads to. -/
theorem Tracks.written_dangles {dirty : List Bytes} {mask : Mask} (alloc : Allocator)
    (writes : Nat) (ht : Tracks root s dirty) (hw : SiteOp.Watched s place)
    (hmask : mask = .IN_CREATE ∨ mask = .IN_MODIFY)
    (hfile : s.files.lookup (s.path place) = some content) (hk : s.key place ∉ s.cache.map)
    (hown : ¬ s.cache.EvictsOwn content.length) :
    ∃ c, (place.event mask 0 :: List.replicate writes (place.event .IN_MODIFY 0)).foldlM
        (Inotify.dispatch s.disk alloc fun _ => []) s.inotify =
          some { s.inotify with fileCache := c } ∧
      ∃ k ∈ s.cache.map, c.Dangles k := by
  obtain ⟨u, hu, hpath, hkey⟩ := ht.watched hw
  rw [hpath] at hfile
  rw [hkey] at hk
  obtain ⟨c, hput, hroot, hcap, hlives, k, hmem, hd⟩ := ht.put_dangles alloc hu hfile hk hown
  have hload : s.cache.load s.disk (slash :: u.string) = .ok content := by rw [ht.load hu, hfile]
  have hckey : c.key (s.path place) = slash :: u.string := by
    rw [hpath]
    exact key_of_path (s := s.withCache c) (hroot.trans ht.rooted) hu
  have hload' : c.load s.disk (c.key (s.path place)) = .ok content := by
    rw [hckey, FileLRU.load_congr hroot hcap, hload]
  have hlives' : c.Lives (c.key (s.path place)) := by
    rw [hckey]
    exact hlives
  obtain ⟨c', heq, hd'⟩ := foldlM_modify_lives (i := { s.inotify with fileCache := c }) alloc
    writes hw.2.1 hload' hlives'
  refine ⟨c', ?_, k, hmem, hd' k hd⟩
  rw [List.foldlM_cons, dispatch_write (c := c) hmask hw.2.1 (hkey ▸ hput)]
  exact heq

theorem Tracks.create_stale {writes : Nat} (alloc : Allocator) (ht : Tracks root s [])
    (hp : (SiteOp.create place content writes).Possible s)
    (hf : ¬ (SiteOp.create place content writes).Followed s) :
    ∃ s', (SiteOp.create place content writes).apply alloc s = some s' ∧ ¬ Coherent root s' := by
  obtain ⟨hw, -, hfit⟩ := hp
  obtain ⟨u, hu, hpath, -⟩ := ht.watched hw
  simp only [SiteOp.Followed, not_forall] at hf
  obtain ⟨hk, hown⟩ := hf
  have ht₁ := ht.insert u hfit
  rw [← hpath] at ht₁
  obtain ⟨c, heq, k, hmem, hd⟩ := ht₁.written_dangles alloc writes hw (.inl rfl)
    (AList.lookup_insert _) hk hown
  exact ⟨_, notify_eq heq, ht.not_coherent_of_dangles alloc hmem hd⟩

theorem Tracks.overwrite_stale {writes : Nat} (alloc : Allocator) (ht : Tracks root s [])
    (hp : (SiteOp.overwrite place content writes).Possible s)
    (hf : ¬ (SiteOp.overwrite place content writes).Followed s) :
    ∃ s', (SiteOp.overwrite place content writes).apply alloc s = some s' ∧
      ¬ Coherent root s' := by
  obtain ⟨hw, -, hfit, -⟩ := hp
  obtain ⟨u, hu, hpath, -⟩ := ht.watched hw
  simp only [SiteOp.Followed, not_forall] at hf
  obtain ⟨hpos, hk, hown⟩ := hf
  obtain ⟨writes, rfl⟩ : ∃ n, writes = n + 1 := ⟨writes - 1, by omega⟩
  have ht₁ := ht.insert u hfit
  rw [← hpath] at ht₁
  obtain ⟨c, heq, k, hmem, hd⟩ := ht₁.written_dangles alloc writes hw (.inr rfl)
    (AList.lookup_insert _) hk hown
  exact ⟨_, notify_eq heq, ht.not_coherent_of_dangles alloc hmem hd⟩

theorem Tracks.getFile_stale (alloc : Allocator) (ht : Tracks root s [])
    (hp : (SiteOp.getFile u).Possible s) (hf : ¬ (SiteOp.getFile u).Followed s) :
    ∃ s', (SiteOp.getFile u).apply alloc s = some s' ∧ ¬ Coherent root s' := by
  simp only [SiteOp.Followed, not_forall] at hf
  obtain ⟨hk, content, hfile, hown⟩ := hf
  rw [ht.rooted] at hfile
  obtain ⟨c, hput, -, -, -, k, hmem, hd⟩ := ht.put_dangles alloc hp hfile hk hown
  refine ⟨s.withCache c, ?_, ht.not_coherent_of_dangles alloc hmem hd⟩
  simp only [SiteOp.apply, Site.getFile, FileLRU.getFile,
    FileLRU.get_miss (AList.lookup_eq_none.mpr hk), hput, Option.bind_eq_bind, Option.bind_some]

/-- After an operation the requests are answered as they should be exactly when the cache has
followed it. -/
theorem Tracks.step_iff (op : SiteOp) (alloc : Allocator) (ht : Tracks root s [])
    (hp : op.Possible s) :
    ∃ s', op.apply alloc s = some s' ∧ (Coherent root s' ↔ op.Followed s) := by
  by_cases hf : op.Followed s
  · obtain ⟨s', heq, ht'⟩ := ht.step op alloc hp hf
    exact ⟨s', heq, iff_of_true (coherent_of_tracks ht') hf⟩
  · have hstale : ∃ s', op.apply alloc s = some s' ∧ ¬ Coherent root s' := by
      cases op with
      | create place content writes => exact ht.create_stale alloc hp hf
      | overwrite place content writes => exact ht.overwrite_stale alloc hp hf
      | delete place => exact absurd trivial hf
      | rename old new cookie => exact ht.rename_stale alloc hp hf
      | moveIn new content cookie => exact ht.moveIn_stale alloc hp hf
      | moveOut old cookie => exact ht.moveOut_stale alloc hp hf
      | getFile u => exact ht.getFile_stale alloc hp hf
    obtain ⟨s', heq, hnot⟩ := hstale
    exact ⟨s', heq, iff_of_false hnot hf⟩

end MuduoServer.Site
