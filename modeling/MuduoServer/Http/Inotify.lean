import MuduoServer.Base.FileLRU

namespace MuduoServer

/-- The bit of `inotify_event::mask` that says what happened; `IN_ISDIR` is apart. -/
inductive Mask where
  | IN_CREATE
  | IN_DELETE
  | IN_MODIFY
  | IN_MOVED_FROM
  | IN_MOVED_TO
  | IN_MOVE_SELF
  | IN_IGNORED

/-- A record that `read` takes from the inotify descriptor; `name` is empty when `len` is zero. -/
structure InotifyEvent where
  wd : Int
  mask : Mask
  isDir : Bool
  cookie : Nat
  name : Bytes

structure MoveDirStorage where
  wd : Int := -1
  cookie : Nat := 0
  old_path : Path
  new_path : Path := []

/-- An address for the next node, one that is not in use. -/
structure Allocator where
  address : Heap Nat CacheNode → Nat
  fresh : ∀ h, address h ∉ h

/-- What the callback of the inotify channel works on. -/
structure Inotify where
  watch_map : AList (fun _ : Int => Path)
  move_file_storage : AList (fun _ : Nat => Path)
  move_dir_storage : List MoveDirStorage
  fileCache : FileLRU

namespace Inotify

/-- `watch_map[wd]`, which is an empty path for a descriptor that is not in the map. -/
def parentPath (s : Inotify) (wd : Int) : Path := (s.watch_map.lookup wd).getD []

def entryPath (s : Inotify) (event : InotifyEvent) : Path :=
  if event.name = [] then s.parentPath event.wd else s.parentPath event.wd ++ [event.name]

/-- `add_watches_recursive`, for the descriptors that `inotify_add_watch` gives to the directory
and to those below it. -/
def add_watches_recursive (s : Inotify) (watches : List (Int × Path)) : Inotify :=
  { s with watch_map := watches.foldl (fun m w => m.insert w.1 w.2) s.watch_map }

/-- A `bigfile_error` leaves the callback and ends the server. -/
def addFile (s : Inotify) (disk : Disk) (alloc : Allocator) (path : Path) : Option Inotify := do
  match ← s.fileCache.addFile disk (alloc.address s.fileCache.heap) path with
  | (.ok _, c) => some { s with fileCache := c }
  | (.error _, _) => none

/-- What `IN_MOVED_TO` finds among the directories that are on their way: each that carries the
cookie learns its new path, up to the first whose descriptor is known, which is taken out. -/
def arrive (cookie : Nat) (path : Path) :
    List MoveDirStorage → List MoveDirStorage × Option MoveDirStorage
  | [] => ([], none)
  | it :: rest =>
    if it.cookie = cookie then
      if 0 < it.wd then (rest, some { it with new_path := path })
      else ({ it with new_path := path } :: (arrive cookie path rest).1,
        (arrive cookie path rest).2)
    else (it :: (arrive cookie path rest).1, (arrive cookie path rest).2)

def dirMovedFrom (s : Inotify) (cookie : Nat) (path : Path) : Inotify :=
  match s.move_dir_storage.findIdx? (fun it => it.old_path = path) with
  | some i =>
    match s.move_file_storage.lookup cookie, s.move_dir_storage[i]? with
    | some new_path, some it => { s with
        fileCache := s.fileCache.moveDir path new_path
        watch_map := s.watch_map.insert it.wd new_path
        move_file_storage := s.move_file_storage.erase cookie
        move_dir_storage := s.move_dir_storage.eraseIdx i }
    | _, _ => { s with move_dir_storage :=
        s.move_dir_storage.modify i fun it => { it with cookie := cookie } }
  | none => { s with move_dir_storage := s.move_dir_storage ++
      [{ cookie := cookie, old_path := path,
         new_path := (s.move_file_storage.lookup cookie).getD [] }] }

def dirMovedTo (s : Inotify) (cookie : Nat) (path : Path) : Inotify :=
  match arrive cookie path s.move_dir_storage with
  | (rest, some it) => { s with
      watch_map := s.watch_map.insert it.wd path
      fileCache := s.fileCache.moveDir it.old_path path
      move_dir_storage := rest }
  | (rest, none) => { s with
      move_dir_storage := rest
      move_file_storage := s.move_file_storage.insert cookie path }

def fileMovedFrom (s : Inotify) (cookie : Nat) (path : Path) : Inotify :=
  match s.move_file_storage.lookup cookie with
  | some new_path => { s with
      fileCache := s.fileCache.moveFile path new_path
      move_file_storage := s.move_file_storage.erase cookie }
  | none => { s with move_file_storage := s.move_file_storage.insert cookie path }

def fileMovedTo (s : Inotify) (cookie : Nat) (path : Path) : Inotify :=
  match s.move_file_storage.lookup cookie with
  | some old_path => { s with
      fileCache := s.fileCache.moveFile old_path path
      move_file_storage := s.move_file_storage.erase cookie }
  | none => { s with move_file_storage := s.move_file_storage.insert cookie path }

def dirMovedSelf (s : Inotify) (wd : Int) (path : Path) : Inotify :=
  match s.move_dir_storage.findIdx? (fun it => it.old_path = path) with
  | some i =>
    match s.move_dir_storage[i]? with
    | some it =>
      if it.cookie ∈ s.move_file_storage then { s with
        move_file_storage := s.move_file_storage.erase it.cookie
        watch_map := s.watch_map.insert wd it.new_path
        fileCache := s.fileCache.moveDir it.old_path it.new_path
        move_dir_storage := s.move_dir_storage.eraseIdx i }
      else { s with move_dir_storage :=
        s.move_dir_storage.modify i fun it => { it with wd := wd } }
    | none => s
  | none => { s with move_dir_storage := s.move_dir_storage ++ [{ wd := wd, old_path := path }] }

/-- One round of the loop over the events that were read. `watches` gives the descriptors of the
directories at and below a path. -/
def dispatch (disk : Disk) (alloc : Allocator) (watches : Path → List (Int × Path)) (s : Inotify)
    (event : InotifyEvent) : Option Inotify :=
  let entry_path := s.entryPath event
  match event.mask, event.isDir with
  | .IN_CREATE, true => some (s.add_watches_recursive (watches entry_path))
  | .IN_CREATE, false => s.addFile disk alloc entry_path
  | .IN_DELETE, true => do
    let c ← s.fileCache.delDir entry_path
    some { s with fileCache := c }
  | .IN_DELETE, false => do
    let c ← s.fileCache.delFile entry_path
    some { s with fileCache := c }
  | .IN_MODIFY, _ => s.addFile disk alloc entry_path
  | .IN_MOVED_FROM, true => some (s.dirMovedFrom event.cookie entry_path)
  | .IN_MOVED_FROM, false => some (s.fileMovedFrom event.cookie entry_path)
  | .IN_MOVED_TO, true => some (s.dirMovedTo event.cookie entry_path)
  | .IN_MOVED_TO, false => some (s.fileMovedTo event.cookie entry_path)
  | .IN_MOVE_SELF, _ => some (s.dirMovedSelf event.wd (s.parentPath event.wd))
  | .IN_IGNORED, _ => some { s with watch_map := s.watch_map.erase event.wd }

end Inotify

end MuduoServer
