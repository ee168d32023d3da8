import MuduoServer.Http.Inotify
import MuduoServer.Base.CacheContents

namespace MuduoServer

/-- The static directory and the part of the server that keeps its cache. -/
structure Site where
  inotify : Inotify
  files : AList (fun _ : Path => Bytes)

/-- A name in a watched directory. -/
structure Place where
  wd : Int
  name : Bytes

/-- What happens to a site: operations on regular files, and requests for them. -/
inductive SiteOp where
  | create (place : Place) (content : Bytes) (writes : Nat)
  | overwrite (place : Place) (content : Bytes) (writes : Nat)
  | delete (place : Place)
  | rename (old new : Place) (cookie : Nat)
  | moveIn (new : Place) (content : Bytes) (cookie : Nat)
  | moveOut (old : Place) (cookie : Nat)
  | getFile (u : Path)

namespace Site

def start (root : Path) (capacity head tail : Nat) (watches : List (Int × Path))
    (files : AList (fun _ : Path => Bytes)) : Site where
  inotify := Inotify.add_watches_recursive
    ⟨∅, ∅, [], FileLRU.new root capacity head tail⟩ watches
  files := files

def cache (s : Site) : FileLRU := s.inotify.fileCache

def withCache (s : Site) (c : FileLRU) : Site :=
  { s with inotify := { s.inotify with fileCache := c } }

/-- Regular files, and the directories that are watched. -/
def disk (s : Site) : Disk := fun p =>
  match s.files.lookup p with
  | some content => .regular content
  | none =>
    if p ∈ s.inotify.watch_map.entries.map Sigma.snd then .directory else .missing

def path (s : Site) (place : Place) : Path := s.inotify.parentPath place.wd ++ [place.name]

def key (s : Site) (place : Place) : Bytes := s.cache.key (s.path place)

/-- `getFile(u)`, for a path `u` below the static directory. -/
def getFile (s : Site) (alloc : Allocator) (u : Path) :
    Option (Except FileError (Option Bytes) × FileLRU) :=
  s.cache.getFile s.disk (alloc.address s.cache.heap) (slash :: u.string)

/-- The callback, on the events of one operation. -/
def notify (alloc : Allocator) (s : Site) (events : List InotifyEvent) : Option Site := do
  let i ← events.foldlM (Inotify.dispatch s.disk alloc fun _ => []) s.inotify
  some { s with inotify := i }

end Site

def Place.event (place : Place) (mask : Mask) (cookie : Nat) : InotifyEvent where
  wd := place.wd
  mask := mask
  isDir := false
  cookie := cookie
  name := place.name

namespace SiteOp

/-- The operation, and then the callback with the events that the kernel emits for it. -/
def apply (alloc : Allocator) (s : Site) : SiteOp → Option Site
  | .create place content writes =>
    Site.notify alloc { s with files := s.files.insert (s.path place) content }
      (place.event .IN_CREATE 0 :: List.replicate writes (place.event .IN_MODIFY 0))
  | .overwrite place content writes =>
    Site.notify alloc { s with files := s.files.insert (s.path place) content }
      (List.replicate writes (place.event .IN_MODIFY 0))
  | .delete place =>
    Site.notify alloc { s with files := s.files.erase (s.path place) } [place.event .IN_DELETE 0]
  | .rename old new cookie =>
    let files := s.files.erase (s.path old)
    Site.notify alloc
      { s with files := (s.files.lookup (s.path old)).elim files (files.insert (s.path new)) }
      [old.event .IN_MOVED_FROM cookie, new.event .IN_MOVED_TO cookie]
  | .moveIn new content cookie =>
    Site.notify alloc { s with files := s.files.insert (s.path new) content }
      [new.event .IN_MOVED_TO cookie]
  | .moveOut old cookie =>
    Site.notify alloc { s with files := s.files.erase (s.path old) }
      [old.event .IN_MOVED_FROM cookie]
  | .getFile u => do
    let (_, c) ← s.getFile alloc u
    some (s.withCache c)

/-- A place the kernel reports events for. -/
def Watched (s : Site) (place : Place) : Prop :=
  place.wd ∈ s.inotify.watch_map ∧ place.name ≠ [] ∧ slash ∉ place.name

/-- What the operations start from, with no file larger than the cache, and with cookies that the
kernel uses once. -/
def Possible (s : Site) : SiteOp → Prop
  | .create place content _ =>
    Watched s place ∧ s.path place ∉ s.files ∧ content.length ≤ s.cache.capacity
  | .overwrite place content writes =>
    Watched s place ∧ s.path place ∈ s.files ∧ content.length ≤ s.cache.capacity ∧
      (writes = 0 → s.files.lookup (s.path place) = some content)
  | .delete place => Watched s place ∧ s.path place ∈ s.files
  | .rename old new cookie =>
    Watched s old ∧ Watched s new ∧ s.path old ∈ s.files ∧ s.path old ≠ s.path new ∧
      cookie ∉ s.inotify.move_file_storage
  | .moveIn new content cookie =>
    Watched s new ∧ content.length ≤ s.cache.capacity ∧ cookie ∉ s.inotify.move_file_storage
  | .moveOut old cookie =>
    Watched s old ∧ s.path old ∈ s.files ∧ cookie ∉ s.inotify.move_file_storage
  | .getFile u => u.Canonical

/-- The cache follows: nothing that is not cached is renamed over a cached file of another content,
nothing is moved from outside over a cached file of another content, no cached file is moved out,
and what a new entry evicts is stored under its own key. -/
def Followed (s : Site) : SiteOp → Prop
  | .create place content _ => s.key place ∉ s.cache.map → s.cache.EvictsOwn content.length
  | .overwrite place content writes =>
    0 < writes → s.key place ∉ s.cache.map → s.cache.EvictsOwn content.length
  | .delete _ => True
  | .rename old new _ =>
    s.key old ∉ s.cache.map → s.key new ∈ s.cache.map →
      s.files.lookup (s.path new) = s.files.lookup (s.path old)
  | .moveIn new content _ =>
    s.key new ∈ s.cache.map → s.files.lookup (s.path new) = some content
  | .moveOut old _ => s.key old ∉ s.cache.map
  | .getFile u =>
    (slash :: u.string) ∉ s.cache.map →
      ∀ content ∈ s.files.lookup (s.cache.path ++ u), s.cache.EvictsOwn content.length

instance (u : Path) : Decidable u.Canonical :=
  decidable_of_iff (u ≠ [] ∧ ∀ n ∈ u, n ≠ [] ∧ slash ∉ n)
    ⟨fun h => ⟨h.1, h.2⟩, fun h => ⟨h.nonempty, h.named⟩⟩

instance (s : Site) (place : Place) : Decidable (Watched s place) :=
  inferInstanceAs (Decidable (_ ∧ _ ∧ _))

instance (s : Site) : (op : SiteOp) → Decidable (op.Possible s)
  | .create _ _ _ => inferInstanceAs (Decidable (_ ∧ _ ∧ _))
  | .overwrite _ _ _ => inferInstanceAs (Decidable (_ ∧ _ ∧ _ ∧ (_ → _)))
  | .delete _ => inferInstanceAs (Decidable (_ ∧ _))
  | .rename _ _ _ => inferInstanceAs (Decidable (_ ∧ _ ∧ _ ∧ _ ∧ _))
  | .moveIn _ _ _ => inferInstanceAs (Decidable (_ ∧ _ ∧ _))
  | .moveOut _ _ => inferInstanceAs (Decidable (_ ∧ _ ∧ _))
  | .getFile u => inferInstanceAs (Decidable u.Canonical)

instance (s : Site) : (op : SiteOp) → Decidable (op.Followed s)
  | .create _ _ _ => inferInstanceAs (Decidable (_ → _))
  | .overwrite _ _ _ => inferInstanceAs (Decidable (_ → _ → _))
  | .delete _ => instDecidableTrue
  | .rename _ _ _ => inferInstanceAs (Decidable (_ → _ → _))
  | .moveIn _ _ _ => inferInstanceAs (Decidable (_ → _))
  | .moveOut _ _ => inferInstanceAs (Decidable (¬ _))
  | .getFile _ => inferInstanceAs (Decidable (_ → ∀ _ ∈ _, _))

end SiteOp

end MuduoServer
