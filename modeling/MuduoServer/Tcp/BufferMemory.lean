import MuduoServer.Tcp.Buffer

namespace MuduoServer

/-- What can go wrong in an operation on the array of a buffer. -/
inductive BufferFault
  | underflow | outOfRange | lengthError
  deriving DecidableEq, Repr

namespace Buffer

abbrev Checked (α : Type) := Except BufferFault α

namespace Checked

-- The operations as the machine computes them: a `size_t` wraps at `sizeTop`, a difference must not
-- be negative, and an access must lie in the array.

/-- `std::vector<char>::max_size()`; `resize` throws `std::length_error` above it. -/
def maxSize : Nat := 2^63 - 1

def add (a b : Nat) : Nat := (a + b) % sizeTop

def sub (a b : Nat) : Checked Nat := if b ≤ a then .ok (a - b) else .error .underflow

def resize (xs : Bytes) (n : Nat) : Checked Bytes :=
  if n ≤ maxSize then .ok (Buffer.resize xs n) else .error .lengthError

def read (xs : Bytes) (i n : Nat) : Checked Bytes :=
  if i + n ≤ xs.length then .ok ((xs.drop i).take n) else .error .outOfRange

/-- `std::copy` of other bytes into the array. -/
def write (xs : Bytes) (i : Nat) (data : Bytes) : Checked Bytes :=
  if i + data.length ≤ xs.length then .ok (Slice.overwrite xs i data) else .error .outOfRange

/-- `std::copy` from the array into the array. -/
def move (xs : Bytes) (i dest n : Nat) : Checked Bytes :=
  if i + n ≤ xs.length ∧ dest + n ≤ xs.length then .ok (Slice.copyForward xs i dest n)
  else .error .outOfRange

def new (initSize : Nat) (cheapPrepend : Nat) : Checked Buffer := do
  let xs ← resize [] (add initSize cheapPrepend)
  return ⟨cheapPrepend, xs, cheapPrepend, cheapPrepend⟩

/-- `Buffer(const std::string& str)`. -/
def ofString (str : Bytes) : Checked Buffer := do
  let cheapPrepend := 0
  let xs ← resize [] (add str.length cheapPrepend)
  let xs ← write xs cheapPrepend str
  return ⟨cheapPrepend, xs, cheapPrepend, add cheapPrepend str.length⟩

def readableBytes (b : Buffer) : Checked Nat := sub b.writerIndex b.readerIndex
def writableBytes (b : Buffer) : Checked Nat := sub b.buffer.length b.writerIndex

def toString (b : Buffer) : Checked Bytes := do
  let n ← readableBytes b
  read b.buffer b.readerIndex n

def retrieve (b : Buffer) (len : Nat) : Checked Buffer := do
  let n ← readableBytes b
  if len < n then return { b with readerIndex := add b.readerIndex len }
  else return b.retrieveAll

def retrieveAsString (b : Buffer) (len : Nat) : Checked (Bytes × Buffer) := do
  let result ← read b.buffer b.readerIndex len
  let b ← retrieve b len
  return (result, b)

def retrieveAllAsString (b : Buffer) : Checked (Bytes × Buffer) := do
  let result ← toString b
  return (result, b.retrieveAll)

def makeSpace (b : Buffer) (len : Nat) : Checked Buffer := do
  let writable ← writableBytes b
  if add writable b.prependableBytes < add len b.cheapPrepend then
    let xs ← resize b.buffer (add b.writerIndex len)
    return { b with buffer := xs }
  else
    let readable ← readableBytes b
    let xs ← move b.buffer b.readerIndex b.cheapPrepend readable
    return { b with
      buffer := xs
      readerIndex := b.cheapPrepend
      writerIndex := add b.cheapPrepend readable }

def ensureWritableBytes (b : Buffer) (len : Nat) : Checked Buffer := do
  let writable ← writableBytes b
  if writable < len then makeSpace b len else return b

def append (b : Buffer) (data : Bytes) : Checked Buffer := do
  let b ← ensureWritableBytes b data.length
  let xs ← write b.buffer b.writerIndex data
  return { b with buffer := xs, writerIndex := add b.writerIndex data.length }

/-- The writer does not move past the end of the array. -/
def hasWritten (b : Buffer) (len : Nat) : Checked Buffer := do
  let writable ← writableBytes b
  if len > writable then return b
  else return { b with writerIndex := add b.writerIndex len }

def prepend (b : Buffer) (data : Bytes) : Checked Buffer := do
  let reader ← sub b.readerIndex data.length
  let xs ← write b.buffer reader data
  return { b with buffer := xs, readerIndex := reader }

end Checked

/-- The bounds, and an array that a vector can hold. -/
structure Sized (b : Buffer) : Prop where
  bounds : b.Bounds
  size_le : b.buffer.length ≤ Checked.maxSize

/-- The same where the writer may be below `cheapPrepend`: what an exchange may leave. -/
structure Held (b : Buffer) : Prop where
  indexed : b.Indexed
  size_le : b.buffer.length ≤ Checked.maxSize

theorem Sized.held {b : Buffer} (h : b.Sized) : b.Held := ⟨h.bounds.indexed, h.size_le⟩

theorem Held.sized {b : Buffer} (h : b.Held) (hc : b.cheapPrepend ≤ b.writerIndex) : b.Sized :=
  ⟨h.indexed.bounds hc, h.size_le⟩

namespace Checked

theorem add_eq {a b : Nat} (h : a + b < sizeTop) : add a b = a + b := Nat.mod_eq_of_lt h

theorem sub_eq {a b : Nat} (h : b ≤ a) : sub a b = .ok (a - b) := if_pos h

theorem readableBytes_eq {b : Buffer} (h : b.Indexed) : readableBytes b = .ok b.readableBytes :=
  sub_eq h.reader_le

theorem writableBytes_eq {b : Buffer} (h : b.Indexed) : writableBytes b = .ok b.writableBytes :=
  sub_eq h.writer_le

theorem toString_eq {b : Buffer} (h : b.Indexed) : toString b = .ok b.toString := by
  have hr := h.reader_le
  have hw := h.writer_le
  have hin : b.readerIndex + b.readableBytes ≤ b.buffer.length := by
    rw [Buffer.readableBytes]
    omega
  rw [toString]
  rw [readableBytes_eq h]
  exact if_pos hin

theorem retrieve_eq {b : Buffer} (h : b.Held) (len : Nat) :
    retrieve b len = .ok (b.retrieve len) := by
  have hw := h.indexed.writer_le
  have hs := h.size_le
  unfold retrieve Buffer.retrieve
  rw [readableBytes_eq h.indexed]
  simp only [bind, Except.bind]
  split_ifs with hlt
  · rw [Buffer.readableBytes] at hlt
    rw [add_eq (by unfold maxSize at hs; unfold sizeTop; omega)]
    rfl
  · rfl

/-- Making room is what the operation on unbounded numbers does, or the vector throws. -/
theorem makeSpace_eq {b : Buffer} (h : b.Held) {len : Nat} (hlt : b.writableBytes < len)
    (hlen : b.writerIndex + len < sizeTop) (hcheap : b.cheapPrepend + len < sizeTop) :
    makeSpace b len = .error .lengthError ∧ maxSize < b.writerIndex + len ∨
      makeSpace b len = .ok (b.makeSpace len) ∧ (b.makeSpace len).buffer.length ≤ maxSize := by
  have hr := h.indexed.reader_le
  have hw := h.indexed.writer_le
  have hc := h.indexed.cheap_le
  have hs := h.size_le
  have htop : maxSize + maxSize < sizeTop := by decide
  rw [makeSpace]
  rw [writableBytes_eq h.indexed]
  simp only [bind, Except.bind]
  rw [add_eq (by unfold Buffer.writableBytes prependableBytes; omega), add_eq (by omega)]
  rw [Buffer.makeSpace]
  split_ifs with hgrow
  · rw [add_eq hlen]
    rw [resize]
    split_ifs with hmax
    · exact .inr ⟨rfl, by rw [resize_length]; exact hmax⟩
    · exact .inl ⟨rfl, Nat.not_le.mp hmax⟩
  · have hdown := b.slide_down len hlt hgrow
    have hread : b.readerIndex + b.readableBytes = b.writerIndex := by
      rw [Buffer.readableBytes]
      omega
    have hin : b.readerIndex + b.readableBytes ≤ b.buffer.length ∧
        b.cheapPrepend + b.readableBytes ≤ b.buffer.length := by omega
    have hl := h.indexed.toString_length
    rw [readableBytes_eq h.indexed]
    simp only [move, if_pos hin]
    rw [add_eq (by omega), Slice.copyForward_eq_overwrite _ _ _ _ hdown.le hin.1]
    refine .inr ⟨rfl, ?_⟩
    rw [Slice.overwrite_length _ _ _ (by omega)]
    exact hs

theorem ensureWritableBytes_eq {b : Buffer} (h : b.Held) {len : Nat}
    (hlen : b.writerIndex + len < sizeTop) (hcheap : b.cheapPrepend + len < sizeTop) :
    ensureWritableBytes b len = .error .lengthError ∧ maxSize < b.writerIndex + len ∨
      ensureWritableBytes b len = .ok (b.ensureWritableBytes len) ∧
        (b.ensureWritableBytes len).buffer.length ≤ maxSize := by
  unfold ensureWritableBytes Buffer.ensureWritableBytes
  rw [writableBytes_eq h.indexed]
  simp only [bind, Except.bind]
  split_ifs with hlt
  · exact makeSpace_eq h hlt hlen hcheap
  · exact .inr ⟨rfl, h.size_le⟩

/-- When the position asked for wraps, the vector does not throw, and no array has the room. -/
theorem ensureWritableBytes_wraps {b : Buffer} (h : b.Held) {len : Nat} (hlen : len < sizeTop)
    (hwrap : sizeTop ≤ b.writerIndex + len) :
    ensureWritableBytes b len ≠ .error .lengthError ∧
      ∀ b', ensureWritableBytes b len = .ok b' → b'.buffer.length < len := by
  have hr := h.indexed.reader_le
  have hw := h.indexed.writer_le
  have hs := h.size_le
  have htop : maxSize + maxSize < sizeTop := by decide
  have hlt : b.writableBytes < len := by
    rw [Buffer.writableBytes]
    omega
  have hresize : resize b.buffer (add b.writerIndex len) =
      .ok (Buffer.resize b.buffer (b.writerIndex + len - sizeTop)) := by
    have hsum : add b.writerIndex len = b.writerIndex + len - sizeTop := by
      rw [add]
      rw [Nat.mod_eq_sub_mod hwrap, Nat.mod_eq_of_lt (by omega)]
    rw [resize]
    rw [hsum, if_pos (by omega)]
  unfold ensureWritableBytes makeSpace
  simp only [writableBytes_eq h.indexed, readableBytes_eq h.indexed, bind, Except.bind, if_pos hlt,
    hresize, move]
  split_ifs with hgrow hin
  · refine ⟨by simp [pure, Except.pure], ?_⟩
    intro b' hb'
    injection hb' with hb'
    obtain rfl := hb'
    have hl := resize_length b.buffer (b.writerIndex + len - sizeTop)
    dsimp only
    omega
  · refine ⟨by simp [pure, Except.pure], ?_⟩
    intro b' hb'
    injection hb' with hb'
    obtain rfl := hb'
    have hl := Slice.copyForward_length b.buffer b.readerIndex b.cheapPrepend b.readableBytes
    dsimp only
    omega
  · exact ⟨by simp, by simp⟩

/-- An operation that succeeds computes what `append` on unbounded numbers computes. -/
theorem append_eq {b : Buffer} (h : b.Held) {data : Bytes}
    (hlen : b.writerIndex + data.length < sizeTop)
    (hcheap : b.cheapPrepend + data.length < sizeTop) :
    append b data = .error .lengthError ∧ maxSize < b.writerIndex + data.length ∨
      append b data = .ok (b.append data) ∧ (b.append data).buffer.length ≤ maxSize := by
  rw [append]
  rcases ensureWritableBytes_eq h hlen hcheap with ⟨herr, hlarge⟩ | ⟨hok, hmax⟩
  · rw [herr]
    exact .inl ⟨rfl, hlarge⟩
  · obtain ⟨hb, -, hroom, -⟩ := h.indexed.ensureWritableBytes data.length
    have hw := hb.writer_le
    have htop : maxSize < sizeTop := by decide
    rw [Buffer.writableBytes] at hroom
    have hin : (b.ensureWritableBytes data.length).writerIndex + data.length ≤
        (b.ensureWritableBytes data.length).buffer.length := by omega
    rw [hok]
    simp only [bind, Except.bind, write, if_pos hin]
    rw [add_eq (by omega)]
    refine .inr ⟨rfl, ?_⟩
    simp only [Buffer.append]
    rw [Slice.overwrite_length _ _ _ hin]
    exact hmax

end Checked

namespace Held

theorem retrieveAll {b : Buffer} (h : b.Held) : b.retrieveAll.Held :=
  ⟨h.indexed.retrieveAll, h.size_le⟩

theorem retrieve {b : Buffer} (h : b.Held) (len : Nat) : (b.retrieve len).Held := by
  refine ⟨h.indexed.retrieve len, ?_⟩
  rw [Buffer.retrieve]
  split_ifs
  · exact h.size_le
  · exact h.size_le

/-- Bytes written behind the writer join the readable part once the writer moves over them. -/
theorem hasWritten {b : Buffer} (h : b.Held) {data : Bytes} {len : Nat}
    (hroom : data.length ≤ b.writableBytes) (hlen : len ≤ data.length) :
    ∃ xs b', Checked.write b.buffer b.writerIndex data = .ok xs ∧
      Checked.hasWritten { b with buffer := xs } len = .ok b' ∧ b'.Held ∧
      b'.toString = b.toString ++ data.take len ∧
      (b.cheapPrepend ≤ b.writerIndex → b'.cheapPrepend ≤ b'.writerIndex) := by
  have hr := h.indexed.reader_le
  have hw := h.indexed.writer_le
  have hc := h.indexed.cheap_le
  have hs := h.size_le
  have htop : Checked.maxSize < sizeTop := by decide
  rw [writableBytes] at hroom
  have hin : b.writerIndex + data.length ≤ b.buffer.length := by omega
  have hl := Slice.overwrite_length b.buffer data b.writerIndex hin
  have hwritten : Checked.hasWritten
      { b with buffer := Slice.overwrite b.buffer b.writerIndex data } len =
      .ok { b with
        buffer := Slice.overwrite b.buffer b.writerIndex data
        writerIndex := b.writerIndex + len } := by
    have hfits : ¬len > b.buffer.length - b.writerIndex := by omega
    simp only [Checked.hasWritten, Checked.writableBytes, hl, Checked.sub_eq hw, bind,
      Except.bind, if_neg hfits, Checked.add_eq (show b.writerIndex + len < sizeTop by omega)]
    rfl
  refine ⟨_, _, if_pos hin, hwritten, ⟨⟨?_, ?_, ?_⟩, ?_⟩, ?_,
    fun hcw => hcw.trans (Nat.le_add_right _ _)⟩
  · dsimp only; omega
  · dsimp only; omega
  · dsimp only; omega
  · dsimp only; omega
  · have hread := Slice.read_overwrite b.buffer data b.readerIndex b.writerIndex hr hw
    have hold := h.indexed.toString_length
    rw [readableBytes] at hold
    simp only [toString, readableBytes] at hold ⊢
    have htake := congrArg (List.take (b.writerIndex + len - b.readerIndex)) hread
    rw [List.take_take, Nat.min_eq_left (by omega)] at htake
    rw [htake, List.take_append, hold, List.take_of_length_le (by omega)]
    congr 2
    omega

/-- Prepending adds at the front. -/
theorem prepend {b : Buffer} (h : b.Held) {data : Bytes}
    (hroom : data.length ≤ b.prependableBytes) :
    ∃ b', Checked.prepend b data = .ok b' ∧ b'.Held ∧ b'.toString = data ++ b.toString ∧
      (b.cheapPrepend ≤ b.writerIndex → b'.cheapPrepend ≤ b'.writerIndex) := by
  have hr := h.indexed.reader_le
  have hw := h.indexed.writer_le
  have hc := h.indexed.cheap_le
  have hs := h.size_le
  rw [prependableBytes] at hroom
  have hin : b.readerIndex - data.length + data.length ≤ b.buffer.length := by omega
  have hl := Slice.overwrite_length b.buffer data (b.readerIndex - data.length) hin
  have hpre : Checked.prepend b data = .ok { b with
      buffer := Slice.overwrite b.buffer (b.readerIndex - data.length) data
      readerIndex := b.readerIndex - data.length } := by
    simp only [Checked.prepend, Checked.sub_eq hroom, bind, Except.bind, Checked.write, if_pos hin]
    rfl
  refine ⟨_, hpre, ⟨⟨?_, ?_, ?_⟩, ?_⟩, ?_, id⟩
  · dsimp only; omega
  · dsimp only; omega
  · dsimp only; omega
  · dsimp only; omega
  · simp only [toString, readableBytes]
    rw [Slice.overwrite_drop _ _ _ _ (le_refl _) hin, Nat.sub_self, List.drop_zero]
    simp only [Slice.overwrite, List.take_zero, List.nil_append, Nat.zero_add, List.drop_drop,
      Nat.sub_add_cancel hroom]
    rw [List.take_append, List.take_of_length_le (by omega)]
    congr 2
    omega

end Held

end Buffer

end MuduoServer
