import MuduoServer.Base.Bytes
import MuduoServer.Framework.Slice

namespace MuduoServer

/-- `FixedBuffer<SIZE>`: the bytes before `cur_`. -/
structure FixedBuffer (SIZE : Nat) where
  data : Bytes
  fits : data.length ≤ SIZE
  deriving DecidableEq

namespace FixedBuffer

variable {SIZE : Nat}

def new : FixedBuffer SIZE := ⟨[], Nat.zero_le _⟩

def avail (b : FixedBuffer SIZE) : Nat := SIZE - b.data.length

/-- What does not fit is not copied. -/
def append (b : FixedBuffer SIZE) (buf : Bytes) : FixedBuffer SIZE :=
  if h : b.avail > buf.length then
    ⟨b.data ++ buf, by unfold avail at h; rw [List.length_append]; omega⟩
  else b

def reset (_ : FixedBuffer SIZE) : FixedBuffer SIZE := new

@[simp] theorem new_data : (new : FixedBuffer SIZE).data = [] := rfl

theorem append_data {b : FixedBuffer SIZE} {buf : Bytes} (h : b.avail > buf.length) :
    (b.append buf).data = b.data ++ buf := by
  rw [append, dif_pos h]

theorem empty_avail {b : FixedBuffer SIZE} (h : b.data = []) : b.avail = SIZE := by
  rw [avail, h, List.length_nil, Nat.sub_zero]

end FixedBuffer

/-- The array `data_`, whatever it holds, with `cur_` as an index. -/
structure FixedMemory (SIZE : Nat) where
  data : Bytes
  size_eq : data.length = SIZE
  cur : Nat

namespace FixedMemory

variable {SIZE : Nat}

def avail (b : FixedMemory SIZE) : Int := (SIZE : Int) - b.cur

def reset (b : FixedMemory SIZE) : FixedMemory SIZE := { b with cur := 0 }

def add (b : FixedMemory SIZE) (len : Nat) : FixedMemory SIZE := { b with cur := b.cur + len }

/-- Bytes written from `cur_` on. `none` is a write outside `data_`. -/
def store (b : FixedMemory SIZE) (bs : Bytes) : Option (FixedMemory SIZE) :=
  if h : b.cur + bs.length ≤ SIZE then
    some { b with
      data := Slice.overwrite b.data b.cur bs
      size_eq := (Slice.overwrite_length _ _ _ (b.size_eq.symm ▸ h)).trans b.size_eq }
  else none

def append (b : FixedMemory SIZE) (buf : Bytes) : Option (FixedMemory SIZE) :=
  if toSizeT b.avail > buf.length then do
    let b ← b.store buf
    some (b.add buf.length)
  else some b

/-- The bytes before `cur_`. -/
def text (b : FixedMemory SIZE) : Bytes := b.data.take b.cur

@[simp] theorem reset_cur (b : FixedMemory SIZE) : b.reset.cur = 0 := rfl

@[simp] theorem reset_text (b : FixedMemory SIZE) : b.reset.text = [] := rfl

variable {b : FixedMemory SIZE}

theorem text_length (h : b.cur ≤ SIZE) : b.text.length = b.cur := by
  rw [text, List.length_take, b.size_eq]
  omega

/-- Bytes that are stored become part of the text as far as `cur_` is moved over them. -/
theorem store_add (bs : Bytes) (len : Nat) (hfit : b.cur + bs.length ≤ SIZE)
    (hlen : len ≤ bs.length) :
    ∃ b', b.store bs = some b' ∧ (b'.add len).cur = b.cur + len ∧
      (b'.add len).text = b.text ++ bs.take len := by
  refine ⟨_, dif_pos hfit, rfl, ?_⟩
  have hsize := b.size_eq
  have hread := Slice.read_overwrite b.data bs 0 b.cur (Nat.zero_le _) (by omega)
  rw [List.drop_zero, List.drop_zero, Nat.sub_zero, Nat.sub_zero] at hread
  have htake := congrArg (List.take (b.cur + len)) hread
  rw [List.take_take, Nat.min_eq_left (by omega)] at htake
  have hcur := text_length (b := b) (by omega)
  rw [text] at hcur
  simp only [add, text]
  rw [htake, List.take_append, hcur, List.take_of_length_le (by omega), Nat.add_sub_cancel_left]

/-- What leaves at least one byte free behind it is appended, and other bytes are dropped. -/
theorem append_spec (hsize : SIZE < sizeTop) (h : b.cur ≤ SIZE) (buf : Bytes) :
    ∃ b', b.append buf = some b' ∧ b'.cur ≤ SIZE ∧
      b'.text = b.text ++ if b.cur + (buf.length + 1) ≤ SIZE then buf else [] := by
  have havail : toSizeT b.avail = SIZE - b.cur := by
    rw [avail, ← Nat.cast_sub h]
    exact toSizeT_natCast _ (by omega)
  rw [append]
  rw [havail]
  by_cases hroom : SIZE - b.cur > buf.length
  · obtain ⟨b', hstore, hcur, htext⟩ := store_add (b := b) buf _ (by omega) (le_refl _)
    rw [if_pos hroom, hstore, if_pos (by omega)]
    rw [List.take_length] at htext
    exact ⟨_, rfl, by omega, htext⟩
  · rw [if_neg hroom, if_neg (by omega), List.append_nil]
    exact ⟨b, rfl, h, rfl⟩

/-- The bytes before `cur_` as a buffer. -/
def toFixed (b : FixedMemory SIZE) (h : b.cur ≤ SIZE) : FixedBuffer SIZE :=
  ⟨b.text, by rw [text_length h]; exact h⟩

/-- Appending to the array does what appending to the bytes before `cur_` does. -/
theorem append_refines (hsize : SIZE < sizeTop) (h : b.cur ≤ SIZE) (buf : Bytes) :
    ∃ b', b.append buf = some b' ∧ b'.cur ≤ SIZE ∧
      b'.text = ((b.toFixed h).append buf).data := by
  obtain ⟨b', happend, h', htext⟩ := append_spec hsize h buf
  refine ⟨b', happend, h', ?_⟩
  have havail : (b.toFixed h).avail = SIZE - b.cur := by
    rw [FixedBuffer.avail, toFixed, text_length h]
  by_cases hroom : b.cur + (buf.length + 1) ≤ SIZE
  · rw [htext, if_pos hroom, FixedBuffer.append_data (by rw [havail]; omega)]
    rfl
  · rw [htext, if_neg hroom, FixedBuffer.append, dif_neg (by rw [havail]; omega), List.append_nil]
    rfl

end FixedMemory

end MuduoServer
