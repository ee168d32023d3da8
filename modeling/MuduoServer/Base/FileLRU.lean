import MuduoServer.Base.Path
import MuduoServer.Framework.LinkedList

namespace MuduoServer

/-- What `fs::exists`, `fs::file_size` and opening a path find there. -/
inductive FileState where
  | missing
  | directory
  | unreadable (size : Nat)
  | regular (content : Bytes)

abbrev Disk := Path → FileState

inductive FileError where
  | filesystem_error
  | bigfile_error
  deriving DecidableEq

/-- `FileLRU::Node` without its two pointers; `buf` is `none` in the sentinels. -/
structure CacheNode where
  key : Bytes
  buf : Option Bytes

structure FileLRU where
  path : Path
  size : Nat
  capacity : Nat
  map : AList (fun _ : Bytes => Nat)
  heap : Heap Nat CacheNode
  head : Nat
  tail : Nat

namespace FileLRU

/-- The constructor, for two addresses that `new` hands out. -/
def new (path : Path) (capacity : Nat) (head tail : Nat) : FileLRU where
  path := path
  size := 0
  capacity := capacity
  map := ∅
  heap := AList.insert tail ⟨⟨[], none⟩, some head, none⟩
    (AList.insert head ⟨⟨[], none⟩, none, some tail⟩ ∅)
  head := head
  tail := tail

/-- `'/' + fs::relative(p, path_).string()`. -/
def key (c : FileLRU) (p : Path) : Bytes := slash :: (p.relative c.path).string

def push_back (c : FileLRU) (node : Nat) : Option FileLRU := do
  let h ← c.heap.insertBefore c.tail node
  some { c with heap := h }

def remove (c : FileLRU) (node : Nat) : Option FileLRU := do
  let h ← c.heap.unlink node
  some { c with heap := h }

/-- `node->buf__->readableBytes()`. -/
def readableBytes (c : FileLRU) (node : Nat) : Option Nat := do
  let n ← c.heap.value? node
  let buf ← n.buf
  some buf.length

/-- `push_back(remove(node))`. -/
def touch (c : FileLRU) (node : Nat) : Option FileLRU := do
  let c ← c.remove node
  c.push_back node

def get (c : FileLRU) (k : Bytes) : Option (Option Bytes × FileLRU) :=
  match c.map.lookup k with
  | some node => do
    let c ← c.touch node
    let n ← c.heap.value? node
    some (n.buf, c)
  | none => some (none, c)

/-- The body of the loop in `put`: the node behind `head_` goes, and the key it carries. -/
def evictStep (c : FileLRU) : Option FileLRU := do
  let node ← c.heap.next? c.head
  let n ← c.heap.value? node
  let c := { c with map := c.map.erase n.key }
  let c ← c.remove node
  let bytes ← c.readableBytes node
  some { c with size := c.size - bytes, heap := c.heap.free node }

/-- The `do … while (size_ > capacity_)`, in no more rounds than there are nodes. -/
def evict : Nat → FileLRU → Option FileLRU
  | 0, _ => none
  | rounds + 1, c => do
    let c ← c.evictStep
    if c.capacity < c.size then evict rounds c else some c

/-- The branch of `put` for a key that is cached. -/
def putCached (c : FileLRU) (node : Nat) (value : Bytes) : Option FileLRU := do
  let bytes ← c.readableBytes node
  let n ← c.heap.value? node
  let h ← c.heap.setValue node { n with buf := some value }
  let c := { c with size := c.size - bytes + value.length, heap := h }
  c.touch node

/-- The branch of `put` for a key that is not; `node` is the address of `new Node{key, value}`. -/
def putNew (c : FileLRU) (node : Nat) (k value : Bytes) : Option FileLRU := do
  let c := { c with size := c.size + value.length, heap := c.heap.alloc node ⟨k, some value⟩ }
  let c ← if c.capacity < c.size then c.evict c.heap.keys.length else some c
  let c := { c with map := c.map.insert k node }
  c.push_back node

def fullPath (c : FileLRU) (k : Bytes) : Path := c.path ++ Path.components k

/-- What `put` reads of a file, or what it throws. -/
def load (c : FileLRU) (disk : Disk) (k : Bytes) : Except FileError Bytes :=
  match disk (c.fullPath k) with
  | .missing => .error .filesystem_error
  | .directory => .error .filesystem_error
  | .unreadable size => .error (if c.capacity < size then .bigfile_error else .filesystem_error)
  | .regular content =>
    if c.capacity < content.length then .error .bigfile_error else .ok content

def put (c : FileLRU) (disk : Disk) (node : Nat) (k : Bytes) :
    Option (Except FileError Bytes × FileLRU) :=
  match c.load disk k with
  | .error e => some (.error e, c)
  | .ok value => do
    let c ← match c.map.lookup k with
      | some cached => c.putCached cached value
      | none => c.putNew node k value
    some (.ok value, c)

/-- A `filesystem_error` is caught and logged here; a `bigfile_error` is not. -/
def getFile (c : FileLRU) (disk : Disk) (node : Nat) (request_path : Bytes) :
    Option (Except FileError (Option Bytes) × FileLRU) := do
  let (value, c) ← c.get request_path
  match value with
  | some value => some (.ok (some value), c)
  | none =>
    match ← c.put disk node request_path with
    | (.ok value, c) => some (.ok (some value), c)
    | (.error .filesystem_error, c) => some (.ok none, c)
    | (.error .bigfile_error, c) => some (.error .bigfile_error, c)

def addFile (c : FileLRU) (disk : Disk) (node : Nat) (path : Path) :
    Option (Except FileError Unit × FileLRU) := do
  match ← c.put disk node (c.key path) with
  | (.ok _, c) => some (.ok (), c)
  | (.error .filesystem_error, c) => some (.ok (), c)
  | (.error .bigfile_error, c) => some (.error .bigfile_error, c)

/-- What `delFile` does to an entry that it finds, and `delDir` to each that it matches. -/
def drop (c : FileLRU) (k : Bytes) : Option FileLRU := do
  let node ← c.map.lookup k
  let bytes ← c.readableBytes node
  let c := { c with size := c.size - bytes }
  let c ← c.remove node
  some { c with heap := c.heap.free node, map := c.map.erase k }

def delFile (c : FileLRU) (path : Path) : Option FileLRU :=
  if c.key path ∈ c.map then c.drop (c.key path) else some c

/-- The keys at which `it->first.find(key)` is zero. -/
def matched (c : FileLRU) (k : Bytes) : List Bytes := c.map.keys.filter fun k' => k.isPrefixOf k'

def delDir (c : FileLRU) (path : Path) : Option FileLRU :=
  (c.matched (c.key path)).foldlM drop c

def moveFile (c : FileLRU) (old_path new_path : Path) : FileLRU :=
  match c.map.lookup (c.key old_path) with
  | some node => { c with map := (c.map.erase (c.key old_path)).insert (c.key new_path) node }
  | none => c

/-- The string that `new_path / old_path.filename()` turns into as the key of every entry moved. -/
def movedKey (old_path new_path : Path) : Bytes :=
  slash :: (new_path.joinFilename old_path).string

def moveDir (c : FileLRU) (old_path new_path : Path) : FileLRU :=
  let moved := c.matched (c.key old_path)
  let adding_list := moved.filterMap c.map.lookup
  let map := moved.foldl (fun m k => m.erase k) c.map
  { c with map := adding_list.foldl (fun m node => m.insert (movedKey old_path new_path) node) map }

end FileLRU

end MuduoServer
