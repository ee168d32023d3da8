import MuduoServer.Http.CacheCoherence

namespace MuduoServer

/-- A word in memory, its lowest byte first. -/
def le32 (v : UInt32) : Bytes :=
  [UInt8.ofNat v.toNat, UInt8.ofNat (v.toNat / 2^8), UInt8.ofNat (v.toNat / 2^16),
    UInt8.ofNat (v.toNat / 2^24)]

/-- The word at the start of the memory. -/
def load32 : Bytes → Option UInt32
  | b₀ :: b₁ :: b₂ :: b₃ :: _ =>
    some (UInt32.ofNat (b₀.toNat + 2^8 * b₁.toNat + 2^16 * b₂.toNat + 2^24 * b₃.toNat))
  | _ => none

theorem load32_le32 (v : UInt32) (memory : Bytes) : load32 (le32 v ++ memory) = some v := by
  have hv := v.toNat_lt
  have hsum : v.toNat % 2^8 + 2^8 * (v.toNat / 2^8 % 2^8) + 2^16 * (v.toNat / 2^16 % 2^8) +
      2^24 * (v.toNat / 2^24 % 2^8) = v.toNat := by
    omega
  simp only [le32, List.cons_append, List.nil_append, load32, UInt8.toNat_ofNat']
  rw [hsum, UInt32.ofNat_toNat]

def IN_ISDIR : UInt32 := 0x40000000

namespace Mask

def bit : Mask → UInt32
  | IN_CREATE => 0x100
  | IN_DELETE => 0x200
  | IN_MODIFY => 0x2
  | IN_MOVED_FROM => 0x40
  | IN_MOVED_TO => 0x80
  | IN_MOVE_SELF => 0x800
  | IN_IGNORED => 0x8000

/-- The bits in the order in which the callback asks for them. -/
def tested : List Mask :=
  [IN_CREATE, IN_DELETE, IN_MODIFY, IN_MOVED_FROM, IN_MOVED_TO, IN_MOVE_SELF, IN_IGNORED]

/-- The branch that is taken, if there is one. -/
def ofBits (mask : UInt32) : Option Mask := tested.find? (fun m => mask &&& m.bit ≠ 0)

end Mask

/-- A `struct inotify_event`, with its name as a C string. -/
structure RawEvent where
  wd : Int32
  mask : UInt32
  cookie : UInt32
  len : UInt32
  name : Bytes

namespace RawEvent

/-- `sizeof(struct inotify_event) + event->len`. -/
def size (event : RawEvent) : Nat := 16 + event.len.toNat

def isDir (event : RawEvent) : Bool := event.mask &&& IN_ISDIR != 0

/-- The event at the start of the memory. -/
def load (memory : Bytes) : Option RawEvent := do
  let wd ← load32 memory
  let mask ← load32 (memory.drop 4)
  let cookie ← load32 (memory.drop 8)
  let len ← load32 (memory.drop 12)
  some ⟨wd.toInt32, mask, cookie, len, if 0 < len then cText (memory.drop 16) else []⟩

end RawEvent

/-- An event in the queue: a name is filled up with at least one NUL, and `len` counts these too. -/
structure InotifyRecord extends RawEvent where
  no_nul : 0 ∉ name
  len_le : len.toNat ≤ 256
  name_lt : 0 < len → name.length < len.toNat
  no_name : len = 0 → name = []

namespace InotifyRecord

def encode (r : InotifyRecord) : Bytes :=
  le32 r.wd.toUInt32 ++ (le32 r.mask ++ (le32 r.cookie ++ (le32 r.len ++
    (r.name ++ List.replicate (r.len.toNat - r.name.length) 0))))

variable {r : InotifyRecord}

theorem name_le : r.name.length ≤ r.len.toNat := by
  by_cases h : r.len = 0
  · rw [r.no_name h]
    exact Nat.zero_le _
  · exact le_of_lt (r.name_lt (UInt32.pos_iff_ne_zero.mpr h))

theorem encode_length : r.encode.length = r.size := by
  have hle := name_le (r := r)
  simp only [encode, le32, RawEvent.size, List.length_append, List.length_cons, List.length_nil,
    List.length_replicate]
  omega

theorem cText_name (h : 0 < r.len) (memory : Bytes) :
    cText (r.name ++ List.replicate (r.len.toNat - r.name.length) 0 ++ memory) = r.name := by
  have hlt := r.name_lt h
  obtain ⟨k, hk⟩ := Nat.exists_eq_add_of_lt hlt
  rw [show r.len.toNat - r.name.length = k + 1 by omega, List.replicate_succ, cText]
  rw [List.append_assoc, List.takeWhile_append_of_pos]
  · simp
  · intro c hc
    exact decide_eq_true (fun h0 => r.no_nul (h0 ▸ hc))

/-- The callback finds in the buffer the event that was queued. -/
theorem load_encode (r : InotifyRecord) (memory : Bytes) :
    RawEvent.load (r.encode ++ memory) = some r.toRawEvent := by
  set name := r.name ++ List.replicate (r.len.toNat - r.name.length) 0 ++ memory with hname
  have hmem : r.encode ++ memory =
      le32 r.wd.toUInt32 ++ (le32 r.mask ++ (le32 r.cookie ++ (le32 r.len ++ name))) := by
    simp only [encode, hname, List.append_assoc]
  have hdrop4 : (r.encode ++ memory).drop 4 = le32 r.mask ++ (le32 r.cookie ++
      (le32 r.len ++ name)) := congrArg (List.drop 4) hmem
  have hdrop8 : (r.encode ++ memory).drop 8 = le32 r.cookie ++ (le32 r.len ++ name) :=
    congrArg (List.drop 8) hmem
  have hdrop12 : (r.encode ++ memory).drop 12 = le32 r.len ++ name :=
    congrArg (List.drop 12) hmem
  have hdrop16 : (r.encode ++ memory).drop 16 = name := congrArg (List.drop 16) hmem
  rw [RawEvent.load]
  rw [hdrop4, hdrop8, hdrop12, hdrop16, hmem]
  simp only [load32_le32]
  have hread : (if 0 < r.len then cText name else []) = r.name := by
    by_cases hlen : 0 < r.len
    · rw [if_pos hlen]
      exact cText_name hlen memory
    · rw [if_neg hlen]
      exact (r.no_name (not_not.mp (mt UInt32.pos_iff_ne_zero.mpr hlen))).symm
  simp [hread]

end InotifyRecord

namespace Inotify

/-- The branches of the callback, on the event as it lies in the buffer. -/
def handle (disk : Disk) (alloc : Allocator) (watches : Path → List (Int × Path)) (s : Inotify)
    (event : RawEvent) : Option Inotify :=
  match Mask.ofBits event.mask with
  | some mask => s.dispatch disk alloc watches
    ⟨event.wd.toInt, mask, event.isDir, event.cookie.toNat, event.name⟩
  | none => some s

/-- The loop over the bytes that were read, from the index `i` on. -/
def eventLoop (disk : Disk) (alloc : Allocator) (watches : Path → List (Int × Path))
    (buffer : Bytes) (i : Nat) (s : Inotify) : Option Inotify :=
  if i < buffer.length then do
    let event ← RawEvent.load (buffer.drop i)
    let s ← s.handle disk alloc watches event
    eventLoop disk alloc watches buffer (i + event.size) s
  else some s
termination_by buffer.length - i
decreasing_by
  rw [RawEvent.size]
  omega

/-- As many whole events of the queue as there is room for, and those that stay in it. -/
def fitting (room : Nat) : List InotifyRecord → List InotifyRecord × List InotifyRecord
  | [] => ([], [])
  | r :: queue =>
    if r.size ≤ room then
      (r :: (fitting (room - r.size) queue).1, (fitting (room - r.size) queue).2)
    else ([], r :: queue)

/-- The read callback: the state and the queue that it leaves. It does not return from `read` while
the queue is empty, nor when an exception leaves one of its branches. -/
def readCallback (disk : Disk) (alloc : Allocator) (watches : Path → List (Int × Path))
    (queue : List InotifyRecord) (s : Inotify) : Option (Inotify × List InotifyRecord) :=
  match queue with
  | [] => none
  | _ :: _ => do
    let (events, left) := fitting 4096 queue
    let s ← s.eventLoop disk alloc watches (events.flatMap InotifyRecord.encode) 0
    some (s, left)

/-- How many bytes the queue takes in a buffer. -/
def queueSize (queue : List InotifyRecord) : Nat := (queue.map fun r => r.size).sum

variable {disk : Disk} {alloc : Allocator} {watches : Path → List (Int × Path)}

theorem fitting_append (room : Nat) (queue : List InotifyRecord) :
    (fitting room queue).1 ++ (fitting room queue).2 = queue := by
  induction queue generalizing room with
  | nil => rfl
  | cons r queue ih =>
    rw [fitting]
    by_cases hfits : r.size ≤ room
    · rw [if_pos hfits, List.cons_append, ih]
    · rw [if_neg hfits, List.nil_append]

theorem fitting_left_iff {room : Nat} {queue : List InotifyRecord} :
    (fitting room queue).2 = [] ↔ queueSize queue ≤ room := by
  induction queue generalizing room with
  | nil => simp [fitting, queueSize]
  | cons r queue ih =>
    rw [fitting, queueSize, List.map_cons, List.sum_cons]
    by_cases hfits : r.size ≤ room
    · rw [if_pos hfits, ih, queueSize]
      omega
    · rw [if_neg hfits]
      simp only [reduceCtorEq, false_iff]
      omega

/-- The loop applies the events that lie in the buffer behind `front`, each once and in order. -/
theorem eventLoop_encode (disk : Disk) (alloc : Allocator) (watches : Path → List (Int × Path))
    (events : List InotifyRecord) (front : Bytes) (s : Inotify) :
    s.eventLoop disk alloc watches (front ++ events.flatMap InotifyRecord.encode) front.length =
      events.foldlM (fun s r => s.handle disk alloc watches r.toRawEvent) s := by
  induction events generalizing front s with
  | nil =>
    rw [eventLoop]
    simp
  | cons r events ih =>
    have hlen := InotifyRecord.encode_length (r := r)
    have hlt : front.length <
        (front ++ (r :: events).flatMap InotifyRecord.encode).length := by
      rw [List.flatMap_cons, List.length_append, List.length_append, hlen, RawEvent.size]
      omega
    rw [eventLoop]
    rw [if_pos hlt, List.drop_left, List.flatMap_cons, InotifyRecord.load_encode]
    rw [List.foldlM_cons, Option.bind_eq_bind, Option.bind_some]
    -- the index moves on by what the event takes
    have hnext := ih (front ++ r.encode)
    rw [List.append_assoc, List.length_append, hlen] at hnext
    simp only [hnext]

/-- What the callback has applied and what it leaves are the queue. -/
theorem readCallback_spec {queue left : List InotifyRecord} {s s' : Inotify}
    (h : s.readCallback disk alloc watches queue = some (s', left)) :
    left = (fitting 4096 queue).2 ∧ (fitting 4096 queue).1.foldlM
      (fun s r => s.handle disk alloc watches r.toRawEvent) s = some s' := by
  cases queue with
  | nil => cases h
  | cons r queue =>
    have hloop := eventLoop_encode disk alloc watches (fitting 4096 (r :: queue)).1 [] s
    rw [List.nil_append, List.length_nil] at hloop
    simp only [readCallback, hloop, Option.bind_eq_bind, Option.bind_eq_some_iff,
      Option.some.injEq, Prod.mk.injEq] at h
    obtain ⟨s₁, hfold, rfl, rfl⟩ := h
    exact ⟨rfl, hfold⟩

/-- When the callback returns, it has applied all events that were queued exactly when they fit
together into its buffer. It reads once, and the channel is told of an edge only once. -/
theorem readCallback_drains_iff (disk : Disk) (alloc : Allocator)
    (watches : Path → List (Int × Path)) {queue left : List InotifyRecord} {s s' : Inotify}
    (h : s.readCallback disk alloc watches queue = some (s', left)) :
    (left = [] ∧
      queue.foldlM (fun s r => s.handle disk alloc watches r.toRawEvent) s = some s') ↔
      queueSize queue ≤ 4096 := by
  obtain ⟨hleft, hfold⟩ := readCallback_spec h
  have happend := fitting_append 4096 queue
  constructor
  · rintro ⟨hnil, -⟩
    exact fitting_left_iff.mp (hleft ▸ hnil)
  · intro hle
    have hnil := fitting_left_iff.mpr hle
    rw [hnil, List.append_nil] at happend
    rw [happend] at hfold
    exact ⟨hleft.trans hnil, hfold⟩

/-- The callback returns if every round of the loop does. -/
theorem readCallback_returns {queue : List InotifyRecord} (hne : queue ≠ [])
    (hrounds : ∀ r ∈ queue, ∀ s : Inotify, ∃ s', s.handle disk alloc watches r.toRawEvent = some s')
    (s : Inotify) :
    ∃ s', s.readCallback disk alloc watches queue = some (s', (fitting 4096 queue).2) := by
  have happend := fitting_append 4096 queue
  have hsub : ∀ r ∈ (fitting 4096 queue).1, r ∈ queue := by
    intro r hr
    rw [← happend]
    exact List.mem_append_left _ hr
  have hloop := eventLoop_encode disk alloc watches (fitting 4096 queue).1 [] s
  rw [List.nil_append, List.length_nil] at hloop
  obtain ⟨s', hs'⟩ := foldlM_returns (fun r hr => hrounds r (hsub r hr)) s
  obtain ⟨r, rest, rfl⟩ := List.exists_cons_of_ne_nil hne
  refine ⟨s', ?_⟩
  simp only [readCallback, hloop, hs']
  rfl

/-- The event of a new directory, with a name of two letters. -/
def created (i : Nat) : InotifyRecord where
  wd := 1
  mask := 0x40000100
  cookie := 0
  len := 16
  name := [UInt8.ofNat (97 + i / 16 % 16), UInt8.ofNat (97 + i % 16)]
  no_nul := by
    simp only [List.mem_cons, List.not_mem_nil, or_false, ← UInt8.toNat_inj, UInt8.toNat_ofNat']
    simp only [UInt8.toNat_zero]
    omega
  len_le := by decide
  name_lt _ := show 2 < 16 by decide
  no_name h := by cases h

theorem handle_created (i : Nat) (s : Inotify) :
    ∃ s', s.handle disk alloc watches (created i).toRawEvent = some s' := by
  have hmask : Mask.ofBits (created i).mask = some .IN_CREATE :=
    List.find?_cons_of_pos (show decide ((0x40000100 : UInt32) &&& 0x100 ≠ 0) = true by decide)
  have hdir : (created i).isDir = true :=
    show ((0x40000100 : UInt32) &&& 0x40000000 != 0) = true by decide
  simp only [handle, hmask, hdir, dispatch]
  exact ⟨_, rfl⟩

theorem queueSize_created (n : Nat) : queueSize ((List.range n).map created) = 32 * n := by
  have hsize : (fun r : InotifyRecord => r.size) ∘ created = fun _ => 32 := rfl
  rw [queueSize, List.map_map, hsize, List.map_const', List.sum_replicate, List.length_range]
  exact Nat.mul_comm n 32

theorem created_returns (disk : Disk) (alloc : Allocator) (watches : Path → List (Int × Path))
    (n : Nat) (s : Inotify) :
    ∃ s', s.readCallback disk alloc watches ((List.range (n + 1)).map created) =
      some (s', (fitting 4096 ((List.range (n + 1)).map created)).2) := by
  refine readCallback_returns (by simp) (fun r hr s => ?_) s
  obtain ⟨i, -, rfl⟩ := List.mem_map.mp hr
  exact handle_created i s

/-- The server's state when only the root is watched. -/
def rootWatched : Inotify :=
  ⟨AList.singleton 1 [bytes "www"], ∅, [], .new [bytes "www"] 1024 0 1⟩

/-- The events of 128 new directories fill the buffer. -/
theorem new_directories_drained :
    ∃ s', rootWatched.readCallback (fun _ => .missing) Site.nextFree (fun _ => [])
        ((List.range 128).map created) = some (s', []) ∧
      ((List.range 128).map created).foldlM (fun s r =>
        s.handle (fun _ => .missing) Site.nextFree (fun _ => []) r.toRawEvent) rootWatched =
          some s' := by
  obtain ⟨s', h⟩ := created_returns (fun _ => .missing) Site.nextFree (fun _ => []) 127 rootWatched
  obtain ⟨hnil, hfold⟩ := (readCallback_drains_iff _ _ _ h).mpr (queueSize_created 128).le
  exact ⟨s', hnil ▸ h, hfold⟩

/-- One more stays in the queue. -/
theorem new_directories_left :
    ∃ s' left, rootWatched.readCallback (fun _ => .missing) Site.nextFree (fun _ => [])
        ((List.range 129).map created) = some (s', left) ∧ left ≠ [] := by
  obtain ⟨s', h⟩ := created_returns (fun _ => .missing) Site.nextFree (fun _ => []) 128 rootWatched
  refine ⟨s', _, h, fun hnil => ?_⟩
  have hle := fitting_left_iff.mp hnil
  rw [queueSize_created] at hle
  omega

end Inotify

end MuduoServer
