import MuduoServer.Base.Bytes
import MuduoServer.Framework.Slice

namespace MuduoServer

/-- `Buffer`: a vector of bytes whose readable part is `[readerIndex, writerIndex)`. -/
structure Buffer where
  cheapPrepend : Nat
  buffer : Bytes
  readerIndex : Nat
  writerIndex : Nat
  deriving DecidableEq, Repr

namespace Buffer

/-- `Buffer(initSize = 1024, cheapPrepend = 8)`. -/
def new (initSize : Nat) (cheapPrepend : Nat) : Buffer :=
  ⟨cheapPrepend, List.replicate (initSize + cheapPrepend) 0, cheapPrepend, cheapPrepend⟩

def initSize : Nat := 1024

/-- The default-constructed buffer, as a connection's `inBuffer_` and `outBuffer_` are. -/
def default : Buffer := new initSize 8

def readableBytes (b : Buffer) : Nat := b.writerIndex - b.readerIndex
def writableBytes (b : Buffer) : Nat := b.buffer.length - b.writerIndex
def prependableBytes (b : Buffer) : Nat := b.readerIndex

def toString (b : Buffer) : Bytes := (b.buffer.drop b.readerIndex).take b.readableBytes

def retrieveAll (b : Buffer) : Buffer :=
  { b with readerIndex := b.cheapPrepend, writerIndex := b.cheapPrepend }

def retrieve (b : Buffer) (len : Nat) : Buffer :=
  if len < b.readableBytes then { b with readerIndex := b.readerIndex + len } else b.retrieveAll

/-- `std::vector::resize`: new bytes are zero. -/
def resize (xs : Bytes) (n : Nat) : Bytes := xs.take n ++ List.replicate (n - xs.length) 0

def makeSpace (b : Buffer) (len : Nat) : Buffer :=
  if b.writableBytes + b.prependableBytes < len + b.cheapPrepend then
    { b with buffer := resize b.buffer (b.writerIndex + len) }
  else
    { b with
      buffer := Slice.overwrite b.buffer b.cheapPrepend b.toString
      readerIndex := b.cheapPrepend
      writerIndex := b.cheapPrepend + b.readableBytes }

def ensureWritableBytes (b : Buffer) (len : Nat) : Buffer :=
  if b.writableBytes < len then b.makeSpace len else b

def append (b : Buffer) (data : Bytes) : Buffer :=
  let b := b.ensureWritableBytes data.length
  { b with
    buffer := Slice.overwrite b.buffer b.writerIndex data
    writerIndex := b.writerIndex + data.length }

/-- `append(p, len)` for a `p` that points into the buffer's own array at offset `off`. Moving or
sliding the array would leave `p` dangling, and a range outside the array cannot be read. -/
def appendWithin (b : Buffer) (off : Int) (len : Nat) : Option Buffer :=
  if b.writableBytes < len then none
  else (Slice.range? b.buffer off (off + len)).map b.append

/-- The indices of a buffer that was never prepended to. -/
structure Wf (b : Buffer) : Prop where
  cheap_le : b.cheapPrepend ≤ b.readerIndex
  reader_le : b.readerIndex ≤ b.writerIndex
  writer_le : b.writerIndex ≤ b.buffer.length

/-- The indices of any buffer: a prepend may move the reader below `cheapPrepend`. -/
structure Bounds (b : Buffer) : Prop where
  reader_le : b.readerIndex ≤ b.writerIndex
  writer_le : b.writerIndex ≤ b.buffer.length
  cheap_le : b.cheapPrepend ≤ b.writerIndex

/-- The indices of any buffer, also when `cheapPrepend` is that of another one. -/
structure Indexed (b : Buffer) : Prop where
  reader_le : b.readerIndex ≤ b.writerIndex
  writer_le : b.writerIndex ≤ b.buffer.length
  cheap_le : b.cheapPrepend ≤ b.buffer.length

theorem Bounds.indexed {b : Buffer} (h : b.Bounds) : b.Indexed :=
  ⟨h.reader_le, h.writer_le, h.cheap_le.trans h.writer_le⟩

theorem Indexed.bounds {b : Buffer} (h : b.Indexed) (hc : b.cheapPrepend ≤ b.writerIndex) :
    b.Bounds :=
  ⟨h.reader_le, h.writer_le, hc⟩

theorem Wf.bounds {b : Buffer} (h : b.Wf) : b.Bounds :=
  ⟨h.reader_le, h.writer_le, h.cheap_le.trans h.reader_le⟩

theorem Bounds.wf {b : Buffer} (h : b.Bounds) (hc : b.cheapPrepend ≤ b.readerIndex) : b.Wf :=
  ⟨hc, h.reader_le, h.writer_le⟩

theorem default_wf : default.Wf := by
  refine ⟨le_refl _, le_refl _, ?_⟩
  simp [default, new]

@[simp] theorem default_toString : default.toString = [] := by
  simp [default, new, toString, readableBytes]

@[simp] theorem retrieveAll_buffer (b : Buffer) : b.retrieveAll.buffer = b.buffer := rfl

@[simp] theorem retrieveAll_toString (b : Buffer) : b.retrieveAll.toString = [] := by
  simp [retrieveAll, toString, readableBytes]

theorem Indexed.retrieveAll {b : Buffer} (h : b.Indexed) : b.retrieveAll.Indexed :=
  ⟨le_refl _, h.cheap_le, h.cheap_le⟩

theorem Bounds.retrieveAll {b : Buffer} (h : b.Bounds) : b.retrieveAll.Bounds :=
  h.indexed.retrieveAll.bounds (le_refl _)

theorem retrieveAll_wf (b : Buffer) (h : b.Wf) : b.retrieveAll.Wf :=
  h.bounds.retrieveAll.wf (le_refl _)

theorem Indexed.toString_length {b : Buffer} (h : b.Indexed) :
    b.toString.length = b.readableBytes := by
  have hw := h.writer_le
  simp only [toString, readableBytes, List.length_take, List.length_drop]
  omega

theorem toString_length (b : Buffer) (h : b.Wf) : b.toString.length = b.readableBytes :=
  h.bounds.indexed.toString_length

theorem Indexed.retrieve {b : Buffer} (h : b.Indexed) (len : Nat) : (b.retrieve len).Indexed := by
  rw [Buffer.retrieve]
  split_ifs with hlt
  · rw [readableBytes] at hlt
    exact ⟨by dsimp only; omega, h.writer_le, h.cheap_le⟩
  · exact h.retrieveAll

theorem retrieve_wf (b : Buffer) (h : b.Wf) (len : Nat) : (b.retrieve len).Wf := by
  have hb := h.bounds.indexed.retrieve len
  have hc := h.cheap_le
  refine ⟨?_, hb.reader_le, hb.writer_le⟩
  rw [retrieve]
  split_ifs
  · dsimp only
    omega
  · exact le_refl _

/-- Retrieving drops from the front. -/
theorem Indexed.retrieve_toString {b : Buffer} (h : b.Indexed) (len : Nat) :
    (b.retrieve len).toString = b.toString.drop len := by
  rw [Buffer.retrieve]
  split_ifs with hlt
  · simp only [toString, readableBytes, List.drop_take, List.drop_drop]
    congr 1
    omega
  · have hl := h.toString_length
    rw [retrieveAll_toString, List.drop_eq_nil_of_le (by omega)]

theorem retrieve_toString (b : Buffer) (h : b.Wf) (len : Nat) :
    (b.retrieve len).toString = b.toString.drop len :=
  h.bounds.indexed.retrieve_toString len

theorem resize_length (xs : Bytes) (n : Nat) : (resize xs n).length = n := by
  simp only [resize, List.length_append, List.length_take, List.length_replicate]
  omega

/-- The bytes slide only towards the front: when they do, the reader is above `cheapPrepend`. -/
theorem slide_down (b : Buffer) (len : Nat) (hlt : b.writableBytes < len)
    (h : ¬b.writableBytes + b.prependableBytes < len + b.cheapPrepend) :
    b.cheapPrepend < b.readerIndex := by
  rw [prependableBytes] at h
  omega

theorem Indexed.makeSpace {b : Buffer} (h : b.Indexed) (len : Nat)
    (hlt : b.writableBytes < len) :
    (b.makeSpace len).Indexed ∧ (b.makeSpace len).toString = b.toString ∧
      len ≤ (b.makeSpace len).writableBytes ∧
      (b.makeSpace len).cheapPrepend = b.cheapPrepend := by
  have hc := h.cheap_le
  have hr := h.reader_le
  have hw := h.writer_le
  rw [Buffer.makeSpace]
  split_ifs with hgrow
  · have hl := resize_length b.buffer (b.writerIndex + len)
    rw [writableBytes] at hlt
    refine ⟨⟨hr, by dsimp only; omega, by dsimp only; omega⟩, ?_, ?_, rfl⟩
    · simp only [toString, readableBytes, resize]
      rw [List.take_of_length_le (l := b.buffer) (by omega),
        List.drop_append_of_le_length (by omega), List.take_append_of_le_length (by simp; omega)]
    · simp only [writableBytes, hl]
      omega
  · have hdown := b.slide_down len hlt hgrow
    have hs := h.toString_length
    have hfit : b.cheapPrepend + b.toString.length ≤ b.buffer.length := by
      rw [hs]; unfold readableBytes; omega
    have hl := Slice.overwrite_length b.buffer b.toString b.cheapPrepend hfit
    unfold writableBytes prependableBytes at hgrow
    unfold readableBytes at hs hfit
    refine ⟨⟨by dsimp only; omega, ?_, by dsimp only; omega⟩, ?_, ?_, rfl⟩
    · simp only [hl, readableBytes]; omega
    · have hread := Slice.read_overwrite b.buffer b.toString b.cheapPrepend b.cheapPrepend
        (le_refl _) (by omega)
      rw [hs, Nat.sub_self, List.take_zero, List.nil_append] at hread
      exact hread
    · simp only [writableBytes, hl, readableBytes]; omega

theorem Indexed.ensureWritableBytes {b : Buffer} (h : b.Indexed) (len : Nat) :
    (b.ensureWritableBytes len).Indexed ∧ (b.ensureWritableBytes len).toString = b.toString ∧
      len ≤ (b.ensureWritableBytes len).writableBytes ∧
      (b.ensureWritableBytes len).cheapPrepend = b.cheapPrepend := by
  rw [Buffer.ensureWritableBytes]
  split_ifs with hlt
  · exact h.makeSpace len hlt
  · exact ⟨h, rfl, by omega, rfl⟩

/-- Appending adds at the back, whichever way room is made. -/
theorem Indexed.append {b : Buffer} (h : b.Indexed) (data : Bytes) :
    (b.append data).Indexed ∧ (b.append data).toString = b.toString ++ data ∧
      (b.append data).cheapPrepend = b.cheapPrepend := by
  obtain ⟨he, hs, hroom, hp⟩ := h.ensureWritableBytes data.length
  have hr := he.reader_le
  have hw := he.writer_le
  have hc := he.cheap_le
  rw [writableBytes] at hroom
  have hl := Slice.overwrite_length (b.ensureWritableBytes data.length).buffer data
    (b.ensureWritableBytes data.length).writerIndex (by omega)
  refine ⟨⟨?_, ?_, ?_⟩, ?_, hp⟩
  · simp only [Buffer.append]
    omega
  · simp only [Buffer.append, hl]
    omega
  · simp only [Buffer.append]
    omega
  · rw [← hs]
    exact Slice.read_overwrite _ data _ _ hr hw

/-- Whichever way room is made, the writer stays where it is or is set behind `cheapPrepend`. -/
theorem ensureWritableBytes_cheap {b : Buffer} (h : b.cheapPrepend ≤ b.writerIndex) (len : Nat) :
    (b.ensureWritableBytes len).cheapPrepend ≤ (b.ensureWritableBytes len).writerIndex := by
  simp only [Buffer.ensureWritableBytes, Buffer.makeSpace]
  split_ifs
  · exact h
  · exact Nat.le_add_right _ _
  · exact h

theorem append_cheap {b : Buffer} (h : b.cheapPrepend ≤ b.writerIndex) (data : Bytes) :
    (b.append data).cheapPrepend ≤ (b.append data).writerIndex :=
  (ensureWritableBytes_cheap h data.length).trans (Nat.le_add_right _ _)

theorem retrieve_cheap {b : Buffer} (h : b.cheapPrepend ≤ b.writerIndex) (len : Nat) :
    (b.retrieve len).cheapPrepend ≤ (b.retrieve len).writerIndex := by
  rw [retrieve]
  split_ifs
  · exact h
  · exact le_refl _

theorem Bounds.append {b : Buffer} (h : b.Bounds) (data : Bytes) :
    (b.append data).Bounds ∧ (b.append data).toString = b.toString ++ data ∧
      (b.append data).cheapPrepend = b.cheapPrepend := by
  obtain ⟨hb, hs, hp⟩ := h.indexed.append data
  exact ⟨hb.bounds (append_cheap h.cheap_le data), hs, hp⟩

theorem append_cheap_le (b : Buffer) (h : b.Wf) (data : Bytes) :
    (b.append data).cheapPrepend ≤ (b.append data).readerIndex := by
  have hc := h.cheap_le
  simp only [append, ensureWritableBytes, makeSpace]
  split_ifs
  · exact hc
  · exact le_refl _
  · exact hc

theorem append_spec (b : Buffer) (h : b.Wf) (data : Bytes) :
    (b.append data).Wf ∧ (b.append data).toString = b.toString ++ data ∧
      (b.append data).cheapPrepend = b.cheapPrepend := by
  obtain ⟨hb, hs, hp⟩ := h.bounds.append data
  exact ⟨hb.wf (b.append_cheap_le h data), hs, hp⟩

/-- Bytes of the readable part, read from the array. -/
theorem toString_range (b : Buffer) (k n : Nat) (hn : k + n ≤ b.readableBytes) :
    (b.buffer.drop (b.readerIndex + k)).take n = (b.toString.drop k).take n := by
  rw [toString, List.drop_take, List.drop_drop, List.take_take, Nat.min_eq_left (by omega)]

/-- A part of the array that was retrieved but not yet written over is appended in place. -/
theorem appendWithin_retrieveAll (b : Buffer) (h : b.Wf) (k n : Nat)
    (hn : k + n ≤ b.readableBytes) :
    b.retrieveAll.appendWithin ((b.readerIndex : Int) + k) n =
      some (b.retrieveAll.append ((b.toString.drop k).take n)) := by
  have hr := h.reader_le
  have hw := h.writer_le
  have hc := h.cheap_le
  rw [readableBytes] at hn
  have hroom : ¬b.retrieveAll.writableBytes < n := by
    simp only [writableBytes, retrieveAll]
    omega
  have hrange : Slice.range? b.buffer ((b.readerIndex : Int) + k) ((b.readerIndex : Int) + k + n) =
      some ((b.toString.drop k).take n) := by
    rw [Slice.range?, if_pos (by omega), ← b.toString_range k n hn]
    congr 2
    omega
  rw [appendWithin, if_neg hroom, retrieveAll_buffer, hrange]
  rfl

/-- With room enough the array is written in place. -/
theorem append_in_place (b : Buffer) (data : Bytes) (hroom : data.length ≤ b.writableBytes) :
    b.append data = { b with
      buffer := Slice.overwrite b.buffer b.writerIndex data
      writerIndex := b.writerIndex + data.length } := by
  simp only [append, ensureWritableBytes, if_neg (Nat.not_lt.mpr hroom)]

end Buffer

end MuduoServer
