import MuduoServer.Base.DirTree
import MuduoServer.Http.CacheCoherence

namespace MuduoServer

/-- The directories below the static path, each with the descriptor that `inotify_add_watch` gave
to it, and the server's account of them. -/
structure WatchedTree where
  inotify : Inotify
  dirs : AList (fun _ : Int => Path)

/-- What happens to the directories: `wd` is the descriptor that a new one gets when it is watched,
and `self` that of the one that gets another name. -/
inductive TreeOp where
  | create (place : Place) (wd : Int)
  | rename (self : Int) (old new : Place) (cookie : Nat)

namespace WatchedTree

def path (s : WatchedTree) (place : Place) : Path :=
  (s.dirs.lookup place.wd).getD [] ++ [place.name]

def paths (s : WatchedTree) : List Path := s.dirs.entries.map Sigma.snd

/-- What `inotify_add_watch` returns for the directories at and below a path. -/
def watches (dirs : AList (fun _ : Int => Path)) (p : Path) : List (Int × Path) :=
  (dirs.entries.map fun d => (d.1, d.2)).filter fun w => p <+: w.2

/-- The server has begun to watch the directories `dirs` at and below the static path. -/
def start (root : Path) (capacity head tail : Nat) (dirs : AList (fun _ : Int => Path)) :
    WatchedTree where
  inotify := Inotify.add_watches_recursive ⟨∅, ∅, [], FileLRU.new root capacity head tail⟩
    (watches dirs root)
  dirs := dirs

/-- The callback, on the events of one operation. -/
def notify (disk : Disk) (alloc : Allocator) (s : WatchedTree) (events : List InotifyEvent) :
    Option WatchedTree := do
  let i ← events.foldlM (Inotify.dispatch disk alloc (watches s.dirs)) s.inotify
  some { s with inotify := i }

/-- `watch_map` has each watched directory with the path it has now, and nothing is on its way. -/
structure Kept (s : WatchedTree) : Prop where
  current : ∀ wd p, s.dirs.lookup wd = some p → s.inotify.watch_map.lookup wd = some p
  dirs_empty : s.inotify.move_dir_storage = []
  files_empty : s.inotify.move_file_storage = ∅

end WatchedTree

def Place.dirEvent (place : Place) (mask : Mask) (cookie : Nat) : InotifyEvent :=
  { place.event mask cookie with isDir := true }

namespace TreeOp

/-- The operation, and then the callback with the events that the kernel emits for it. -/
def apply (disk : Disk) (alloc : Allocator) (s : WatchedTree) : TreeOp → Option WatchedTree
  | .create place wd =>
    WatchedTree.notify disk alloc { s with dirs := s.dirs.insert wd (s.path place) }
      [place.dirEvent .IN_CREATE 0]
  | .rename self old new cookie =>
    WatchedTree.notify disk alloc { s with dirs := relocate (s.path old) (s.path new) s.dirs }
      [old.dirEvent .IN_MOVED_FROM cookie, new.dirEvent .IN_MOVED_TO cookie,
        ⟨self, .IN_MOVE_SELF, false, 0, []⟩]

/-- A name below a directory of the tree that no directory has. -/
def Free (s : WatchedTree) (place : Place) : Prop :=
  place.wd ∈ s.dirs ∧ place.name ≠ [] ∧ slash ∉ place.name ∧ s.path place ∉ s.paths

/-- What the operations start from; no directory is moved into itself. -/
def Possible (s : WatchedTree) : TreeOp → Prop
  | .create place wd => Free s place ∧ wd ∉ s.dirs
  | .rename self old new _ =>
    old.wd ∈ s.dirs ∧ old.name ≠ [] ∧ s.dirs.lookup self = some (s.path old) ∧ Free s new ∧
      ¬ s.path old <+: s.path new

/-- A directory that gets another name has no directories in it. -/
def Flat (s : WatchedTree) : TreeOp → Prop
  | .create _ _ => True
  | .rename _ old _ _ => ∀ p ∈ s.paths, s.path old <+: p → p = s.path old

instance (s : WatchedTree) (place : Place) : Decidable (Free s place) :=
  inferInstanceAs (Decidable (_ ∧ _ ∧ _ ∧ _))

instance (s : WatchedTree) : (op : TreeOp) → Decidable (op.Possible s)
  | .create _ _ => inferInstanceAs (Decidable (_ ∧ _))
  | .rename _ _ _ _ => inferInstanceAs (Decidable (_ ∧ _ ∧ _ ∧ _ ∧ _))

instance (s : WatchedTree) : (op : TreeOp) → Decidable (op.Flat s)
  | .create _ _ => instDecidableTrue
  | .rename _ old _ _ =>
    inferInstanceAs (Decidable (∀ p ∈ s.paths, s.path old <+: p → p = s.path old))

end TreeOp

namespace WatchedTree

variable {s : WatchedTree}

theorem mem_paths {p : Path} : p ∈ s.paths ↔ ∃ wd, s.dirs.lookup wd = some p := by
  rw [paths, List.mem_map]
  constructor
  · intro ⟨d, hd, hp⟩
    exact ⟨d.1, by rw [← hp]; exact AList.mem_lookup_iff.mpr hd⟩
  · intro ⟨wd, hwd⟩
    exact ⟨⟨wd, p⟩, AList.mem_lookup_iff.mp hwd, rfl⟩

theorem mem_watches {dirs : AList (fun _ : Int => Path)} {p : Path} {w : Int × Path} :
    w ∈ watches dirs p ↔ dirs.lookup w.1 = some w.2 ∧ p <+: w.2 := by
  rw [watches, List.mem_filter, List.mem_map, decide_eq_true_iff, and_congr_left_iff]
  intro _
  constructor
  · intro ⟨d, hd, hw⟩
    rw [← hw]
    exact AList.mem_lookup_iff.mpr hd
  · intro hw
    exact ⟨⟨w.1, w.2⟩, AList.mem_lookup_iff.mp hw, rfl⟩

/-- Watches that are added with their own paths. -/
theorem lookup_add_watches {ws : List (Int × Path)} {m : AList (fun _ : Int => Path)} {wd : Int}
    {p : Path} (hws : ∀ w ∈ ws, w.1 = wd → w.2 = p)
    (h : m.lookup wd = some p ∨ (wd, p) ∈ ws) :
    (ws.foldl (fun m w => m.insert w.1 w.2) m).lookup wd = some p := by
  induction ws generalizing m with
  | nil => simpa using h
  | cons w ws ih =>
    apply ih
    · exact fun w' hw' => hws w' (List.mem_cons_of_mem _ hw')
    · by_cases heq : w.1 = wd
      · left
        rw [← heq, AList.lookup_insert, hws w List.mem_cons_self heq]
      · rw [AList.lookup_insert_ne (Ne.symm heq)]
        rcases h with h | h
        · exact .inl h
        · rcases List.mem_cons.mp h with rfl | h
          · exact absurd rfl heq
          · exact .inr h

theorem kept_start {root : Path} {capacity head tail : Nat} {dirs : AList (fun _ : Int => Path)}
    (ht : IsTree root dirs) :
    (start root capacity head tail dirs).Kept := by
  refine ⟨?_, rfl, rfl⟩
  intro wd p hwd
  apply lookup_add_watches
  · intro w hw heq
    have hlook := (mem_watches.mp hw).1
    rw [heq] at hlook
    exact Option.some.inj (hlook.symm.trans hwd)
  · exact .inr (mem_watches.mpr ⟨hwd, ht.below wd p hwd⟩)

theorem Kept.parentPath {wd : Int} (hk : s.Kept) (hwd : wd ∈ s.dirs) :
    s.inotify.parentPath wd = (s.dirs.lookup wd).getD [] := by
  obtain ⟨p, hp⟩ := Option.isSome_iff_exists.mp (AList.lookup_isSome.mpr hwd)
  rw [Inotify.parentPath, hk.current wd p hp, hp]

theorem Kept.entryPath {place : Place} {mask : Mask} {cookie : Nat} (hk : s.Kept)
    (hwd : place.wd ∈ s.dirs) (hname : place.name ≠ []) :
    s.inotify.entryPath (place.dirEvent mask cookie) = s.path place := by
  rw [path, ← hk.parentPath hwd]
  exact if_neg hname

theorem notify_eq {disk : Disk} {alloc : Allocator} {events : List InotifyEvent} {i : Inotify}
    (h : events.foldlM (Inotify.dispatch disk alloc (watches s.dirs)) s.inotify = some i) :
    s.notify disk alloc events = some { s with inotify := i } := by
  rw [notify, h]
  rfl

/-- A new directory is watched under its path. -/
theorem Kept.create {place : Place} {wd : Int} (disk : Disk) (alloc : Allocator) (hk : s.Kept)
    (hp : (TreeOp.create place wd).Possible s) :
    ∃ s', (TreeOp.create place wd).apply disk alloc s = some s' ∧
      s'.dirs = s.dirs.insert wd (s.path place) ∧ s'.Kept := by
  obtain ⟨⟨hwd, hname, -, -⟩, hnew⟩ := hp
  have hentry : s.inotify.entryPath (place.dirEvent .IN_CREATE 0) = s.path place :=
    hk.entryPath hwd hname
  have hadd : Inotify.dispatch disk alloc (watches (s.dirs.insert wd (s.path place))) s.inotify
      (place.dirEvent .IN_CREATE 0) = some (s.inotify.add_watches_recursive
        (watches (s.dirs.insert wd (s.path place)) (s.path place))) := by
    rw [← hentry]
    rfl
  refine ⟨_, notify_eq (s := { s with dirs := s.dirs.insert wd (s.path place) })
    (by rw [List.foldlM_cons, hadd]; rfl), rfl, ?_⟩
  refine ⟨?_, hk.dirs_empty, hk.files_empty⟩
  intro wd' p hlook
  apply lookup_add_watches
  · intro w hw heq
    have hlook' := (mem_watches.mp hw).1
    rw [heq] at hlook'
    exact Option.some.inj (hlook'.symm.trans hlook)
  · by_cases heq : wd' = wd
    · right
      rw [heq, AList.lookup_insert] at hlook
      rw [heq, mem_watches, AList.lookup_insert, ← Option.some.inj hlook]
      exact ⟨rfl, List.prefix_refl _⟩
    · left
      rw [AList.lookup_insert_ne heq] at hlook
      exact hk.current wd' p hlook

theorem foldlM_three {α β : Type*} {f : α → β → Option α} {a₀ a₁ a₂ a₃ : α} {b₁ b₂ b₃ : β}
    (h₁ : f a₀ b₁ = some a₁) (h₂ : f a₁ b₂ = some a₂) (h₃ : f a₂ b₃ = some a₃) :
    [b₁, b₂, b₃].foldlM f a₀ = some a₃ := by
  simp only [List.foldlM_cons, List.foldlM_nil, h₁, h₂, h₃, Option.bind_eq_bind, Option.bind_some,
    Option.pure_def]

section Rename

variable {i : Inotify} (disk : Disk) (alloc : Allocator) (ws : Path → List (Int × Path))
  {self : Int} {old new : Place} {cookie : Nat} {p q : Path}

/-- The directory is on its way, with its cookie. -/
theorem dispatch_from (hdirs : i.move_dir_storage = []) (hfiles : i.move_file_storage = ∅)
    (hold : old.name ≠ []) (hp : i.parentPath old.wd ++ [old.name] = p) :
    Inotify.dispatch disk alloc ws i (old.dirEvent .IN_MOVED_FROM cookie) =
      some { i with move_dir_storage := [{ cookie := cookie, old_path := p }] } := by
  have hentry : i.entryPath (old.dirEvent .IN_MOVED_FROM cookie) = p := (if_neg hold).trans hp
  show some (i.dirMovedFrom cookie (i.entryPath _)) = _
  rw [hentry]
  simp only [Inotify.dirMovedFrom, hdirs, hfiles, List.findIdx?_nil, AList.lookup_empty,
    List.nil_append, Option.getD_none]

/-- It has its new path, but its descriptor is not known yet. -/
theorem dispatch_to (hdirs : i.move_dir_storage = [{ cookie := cookie, old_path := p }])
    (hfiles : i.move_file_storage = ∅) (hnew : new.name ≠ [])
    (hq : i.parentPath new.wd ++ [new.name] = q) :
    Inotify.dispatch disk alloc ws i (new.dirEvent .IN_MOVED_TO cookie) =
      some { i with
        move_dir_storage := [{ cookie := cookie, old_path := p, new_path := q }]
        move_file_storage := AList.insert cookie q ∅ } := by
  have hentry : i.entryPath (new.dirEvent .IN_MOVED_TO cookie) = q := (if_neg hnew).trans hq
  show some (i.dirMovedTo cookie (i.entryPath _)) = _
  rw [hentry]
  simp [Inotify.dirMovedTo, hdirs, hfiles, Inotify.arrive]

/-- Its descriptor gets the new path, and both tables are empty again. -/
theorem dispatch_self
    (hdirs : i.move_dir_storage = [{ cookie := cookie, old_path := p, new_path := q }])
    (hfiles : i.move_file_storage = AList.insert cookie q ∅) (hp : i.parentPath self = p) :
    Inotify.dispatch disk alloc ws i ⟨self, .IN_MOVE_SELF, false, 0, []⟩ =
      some { i with
        move_dir_storage := []
        move_file_storage := ∅
        watch_map := i.watch_map.insert self q
        fileCache := i.fileCache.moveDir p q } := by
  have hgone : (AList.insert cookie q ∅).erase cookie = (∅ : AList (fun _ : Nat => Path)) :=
    AList.ext (List.kerase_cons_eq rfl)
  have hin : cookie ∈ (AList.insert cookie q ∅ : AList (fun _ : Nat => Path)) :=
    (AList.mem_insert _).mpr (.inl rfl)
  show some (i.dirMovedSelf self (i.parentPath self)) = _
  rw [hp]
  simp only [Inotify.dirMovedSelf, hdirs, hfiles, List.findIdx?_cons, decide_true, if_true,
    List.getElem?_cons_zero, if_pos hin, hgone, List.eraseIdx_cons_zero]

end Rename

/-- The events of a rename leave the new path under the descriptor of the directory. -/
theorem Kept.rename_apply {self : Int} {old new : Place} {cookie : Nat} (disk : Disk)
    (alloc : Allocator) (hk : s.Kept) (hp : (TreeOp.rename self old new cookie).Possible s) :
    ∃ c, (TreeOp.rename self old new cookie).apply disk alloc s =
      some ⟨⟨s.inotify.watch_map.insert self (s.path new), ∅, [], c⟩,
        relocate (s.path old) (s.path new) s.dirs⟩ := by
  obtain ⟨hwd, hold, hself, ⟨hwd', hnew, -, -⟩, -⟩ := hp
  let ws := watches (relocate (s.path old) (s.path new) s.dirs)
  have hfrom : Inotify.dispatch disk alloc ws s.inotify (old.dirEvent .IN_MOVED_FROM cookie) = _ :=
    dispatch_from disk alloc ws hk.dirs_empty hk.files_empty hold
      (show _ = s.path old by rw [hk.parentPath hwd, path])
  have hto := dispatch_to disk alloc ws
    (i := { s.inotify with move_dir_storage := [{ cookie := cookie, old_path := s.path old }] })
    rfl hk.files_empty hnew (show _ = s.path new by
      show s.inotify.parentPath new.wd ++ _ = _
      rw [hk.parentPath hwd', path])
  have hmoved := dispatch_self disk alloc ws
    (i := { s.inotify with
      move_dir_storage := [{ cookie := cookie, old_path := s.path old, new_path := s.path new }]
      move_file_storage := AList.insert cookie (s.path new) ∅ })
    rfl rfl (show s.inotify.parentPath self = s.path old by
      rw [hk.parentPath (AList.lookup_isSome.mp (by rw [hself]; rfl)), hself, Option.getD_some])
  exact ⟨s.inotify.fileCache.moveDir (s.path old) (s.path new), notify_eq
    (s := { s with dirs := relocate (s.path old) (s.path new) s.dirs })
    (foldlM_three hfrom hto hmoved)⟩

/-- A rename is followed exactly when no other directory lies in the one that is renamed. -/
theorem Kept.rename_iff {root : Path} {self : Int} {old new : Place} {cookie : Nat} (disk : Disk)
    (alloc : Allocator) (ht : IsTree root s.dirs) (hk : s.Kept)
    (hp : (TreeOp.rename self old new cookie).Possible s) :
    ∃ s', (TreeOp.rename self old new cookie).apply disk alloc s = some s' ∧
      s'.dirs = relocate (s.path old) (s.path new) s.dirs ∧
      (s'.Kept ↔ (TreeOp.rename self old new cookie).Flat s) := by
  obtain ⟨c, happly⟩ := hk.rename_apply disk alloc hp
  obtain ⟨-, -, hself, ⟨-, -, -, hfree⟩, -⟩ := hp
  refine ⟨_, happly, rfl, ?_⟩
  show _ ↔ ∀ p ∈ s.paths, s.path old <+: p → p = s.path old
  constructor
  · intro hk' p hmem hin
    obtain ⟨wd, hwd⟩ := mem_paths.mp hmem
    obtain ⟨r, rfl⟩ := hin
    by_contra hne
    -- the map has the path as it was, and the directory has gone
    have hother : wd ≠ self := by
      rintro rfl
      exact hne (Option.some.inj (hwd.symm.trans hself))
    have hnow := hk'.current wd (s.path new ++ r) (relocate_goes (s.path new) hwd)
    rw [AList.lookup_insert_ne hother, hk.current wd _ hwd] at hnow
    have hsame := List.append_cancel_right (Option.some.inj hnow)
    exact hfree (mem_paths.mpr ⟨self, hsame ▸ hself⟩)
  · intro hflat
    refine ⟨?_, rfl, rfl⟩
    intro wd p hlook
    rcases relocate_cases hlook with ⟨r, hr, rfl⟩ | ⟨hout, hb⟩
    · have hwhole := hflat _ (mem_paths.mpr ⟨wd, hr⟩) (List.prefix_append _ r)
      have hwd : wd = self := ht.unique wd self _ (hwhole ▸ hr) hself
      rw [hwd, AList.lookup_insert, List.append_right_eq_self.mp hwhole, List.append_nil]
    · rw [AList.lookup_insert_ne, hk.current wd p hb]
      rintro rfl
      exact hout (Option.some.inj (hself.symm.trans hb) ▸ List.prefix_refl _)

theorem Kept.step_iff {root : Path} (op : TreeOp) (disk : Disk) (alloc : Allocator)
    (ht : IsTree root s.dirs) (hk : s.Kept) (hp : op.Possible s) :
    ∃ s', op.apply disk alloc s = some s' ∧ IsTree root s'.dirs ∧ (s'.Kept ↔ op.Flat s) := by
  have hlook : ∀ {wd : Int}, wd ∈ s.dirs →
      s.dirs.lookup wd = some ((s.dirs.lookup wd).getD []) := by
    intro wd hwd
    obtain ⟨p, hp⟩ := Option.isSome_iff_exists.mp (AList.lookup_isSome.mpr hwd)
    rw [hp, Option.getD_some]
  cases op with
  | create place wd =>
    obtain ⟨s', happly, hdirs, hk'⟩ := hk.create disk alloc hp
    refine ⟨s', happly, ?_, iff_of_true hk' trivial⟩
    rw [hdirs]
    exact ht.insert (hlook hp.1.1) hp.2 fun w hw => hp.1.2.2.2 (mem_paths.mpr ⟨w, hw⟩)
  | rename self old new cookie =>
    obtain ⟨s', happly, hdirs, hiff⟩ := hk.rename_iff disk alloc ht hp
    obtain ⟨hwd, -, -, ⟨hwd', -, -, hfree⟩, hinto⟩ := hp
    refine ⟨s', happly, ?_, hiff⟩
    rw [hdirs]
    exact ht.relocate (hlook hwd) (hlook hwd') (fun w hw => hfree (mem_paths.mpr ⟨w, hw⟩)) hinto

/-- As long as no directory is renamed that has directories in it, `watch_map` has the path of each
directory, and up to the first rename of one that has. -/
theorem watches_kept {root : Path} {capacity head tail : Nat}
    {dirs : AList (fun _ : Int => Path)} (ht : IsTree root dirs)
    {ops : List (TreeOp × Disk × Allocator)}
    (hrun : Run (fun s op s' => (op.1.Possible s ∧ op.1.Flat s) ∧
      op.1.apply op.2.1 op.2.2 s = some s') (start root capacity head tail dirs) ops s) :
    s.Kept ∧ ∀ (op : TreeOp) (disk : Disk) (alloc : Allocator), op.Possible s →
      ∃ s', op.apply disk alloc s = some s' ∧ (s'.Kept ↔ op.Flat s) := by
  have hreach : IsTree root s.dirs ∧ s.Kept := by
    apply hrun.preserves (fun s => IsTree root s.dirs ∧ s.Kept)
    · exact ⟨ht, kept_start ht⟩
    · intro s op s' ⟨ht, hk⟩ ⟨⟨hp, hflat⟩, happly⟩
      obtain ⟨s'', happly', ht', hiff⟩ := hk.step_iff op.1 op.2.1 op.2.2 ht hp
      obtain rfl := Option.some.inj (happly'.symm.trans happly)
      exact ⟨ht', hiff.mpr hflat⟩
  obtain ⟨ht', hk⟩ := hreach
  refine ⟨hk, ?_⟩
  intro op disk alloc hp
  obtain ⟨s', happly, -, hiff⟩ := hk.step_iff op disk alloc ht' hp
  exact ⟨s', happly, hiff⟩

/-- The static directory alone. -/
theorem isTree_root (root : Path) (wd : Int) : IsTree root (AList.singleton wd root) := by
  have hlook : ∀ w p, (AList.singleton wd root : AList fun _ : Int => Path).lookup w = some p →
      w = wd ∧ p = root := by
    intro w p hw
    have hmem := AList.mem_lookup_iff.mp hw
    rw [AList.singleton_entries, List.mem_singleton] at hmem
    cases hmem
    exact ⟨rfl, rfl⟩
  refine ⟨?_, ?_, ?_⟩
  · intro w p hw
    obtain rfl := (hlook w p hw).2
    exact List.prefix_refl p
  · intro w w' p hw hw'
    rw [(hlook w p hw).1, (hlook w' p hw').1]
  · intro w p n hw hne
    exact absurd (hlook w _ hw).2 hne

/-- `/a/b` is created and renamed to `/c`. -/
theorem watches_kept_renamed :
    ∃ s : WatchedTree, (s.Kept ∧ ∀ (op : TreeOp) (disk : Disk) (alloc : Allocator),
        op.Possible s → ∃ s', op.apply disk alloc s = some s' ∧ (s'.Kept ↔ op.Flat s)) ∧
      s.inotify.watch_map.lookup 3 = some [bytes "www", bytes "c"] := by
  obtain ⟨s, hrun, hwatch⟩ := Run.exists_of_guarded
    (g := fun s : WatchedTree => s.inotify.watch_map.lookup 3)
    (f := fun s (op : TreeOp × Disk × Allocator) => op.1.apply op.2.1 op.2.2 s)
    (p := fun s (op : TreeOp × Disk × Allocator) => op.1.Possible s ∧ op.1.Flat s)
    (s := start [bytes "www"] 16 0 1 (AList.singleton 1 [bytes "www"]))
    (l := [(.create ⟨1, bytes "a"⟩ 2, fun _ => .missing, Site.nextFree),
      (.create ⟨2, bytes "b"⟩ 3, fun _ => .missing, Site.nextFree),
      (.rename 3 ⟨2, bytes "b"⟩ ⟨1, bytes "c"⟩ 7, fun _ => .missing, Site.nextFree)])
    (a := some [bytes "www", bytes "c"]) (by decide +kernel)
  exact ⟨s, watches_kept (isTree_root [bytes "www"] 1) hrun, hwatch⟩

/-- `/a` is renamed to `/c`, and `/a/b` goes with it, but not in `watch_map`. -/
theorem nested_watch_is_stale :
    ∃ (ops : List (TreeOp × Disk × Allocator)) (s : WatchedTree),
      Run (fun s op s' => op.1.Possible s ∧ op.1.apply op.2.1 op.2.2 s = some s')
        (start [bytes "www"] 16 0 1 (AList.singleton 1 [bytes "www"])) ops s ∧
      s.dirs.lookup 3 = some [bytes "www", bytes "c", bytes "b"] ∧
      s.inotify.watch_map.lookup 3 = some [bytes "www", bytes "a", bytes "b"] ∧ ¬ s.Kept := by
  obtain ⟨s, hrun, hs⟩ := Run.exists_of_guarded
    (g := fun s : WatchedTree => (s.dirs.lookup 3, s.inotify.watch_map.lookup 3))
    (f := fun s (op : TreeOp × Disk × Allocator) => op.1.apply op.2.1 op.2.2 s)
    (p := fun s (op : TreeOp × Disk × Allocator) => op.1.Possible s)
    (s := start [bytes "www"] 16 0 1 (AList.singleton 1 [bytes "www"]))
    (l := [(.create ⟨1, bytes "a"⟩ 2, fun _ => .missing, Site.nextFree),
      (.create ⟨2, bytes "b"⟩ 3, fun _ => .missing, Site.nextFree),
      (.rename 2 ⟨1, bytes "a"⟩ ⟨1, bytes "c"⟩ 7, fun _ => .missing, Site.nextFree)])
    (a := (some [bytes "www", bytes "c", bytes "b"], some [bytes "www", bytes "a", bytes "b"]))
    (by decide +kernel)
  obtain ⟨hdir, hwatch⟩ := Prod.mk.inj hs
  refine ⟨_, s, hrun, hdir, hwatch, ?_⟩
  intro hk
  have hcurrent := hk.current 3 _ hdir
  rw [hwatch] at hcurrent
  exact absurd (Option.some.inj hcurrent) (by decide)

end WatchedTree

end MuduoServer
