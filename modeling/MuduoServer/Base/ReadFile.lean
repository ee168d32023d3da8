import MuduoServer.Tcp.BufferQueue

namespace MuduoServer

open Buffer (Checked)

namespace ReadFile

def bufferSize : Nat := 64 * 1024

/-- How the stores of `ifs.read` are checked: an array, a position, and what the stream has for it,
at most `bufferSize` bytes. -/
abbrev Store := Bytes → Nat → Bytes → Checked Bytes

/-- Each byte that the stream stores must lie in the array. -/
def stored : Store := Checked.write

/-- All that the stream is asked to fill must lie in the array. -/
def asked : Store := fun xs i got =>
  if i + bufferSize ≤ xs.length then Checked.write xs i got else .error .outOfRange

/-- The loop over `ifs.read`, for a stream with `content` ahead, and the rest that is read behind
it: the array and `bytesRead`. -/
def fill (store : Store) (data : Buffer) (xs : Bytes) (bytesRead : Nat) (content : Bytes) :
    Checked (Bytes × Nat) := do
  let got := content.take bufferSize
  let xs ← store xs (data.writerIndex + bytesRead) got
  if got.length = bufferSize then
    fill store data xs (bytesRead + got.length) (content.drop bufferSize)
  else return (xs, bytesRead + got.length)
termination_by content.length
decreasing_by
  have hpos : 0 < bufferSize := by decide
  rename_i h
  rw [List.length_take] at h
  rw [List.length_drop]
  omega

/-- `ReadFile::read`, for the size that `fs::file_size` gives and the content that is read. -/
def read (store : Store) (fileSize : Nat) (content : Bytes) : Checked Buffer := do
  let data ← Checked.new fileSize 0
  let (xs, bytesRead) ← fill store data data.buffer 0 content
  Checked.hasWritten { data with buffer := xs } bytesRead

/-- The size is enough for what is read: no store lies outside the array, and the buffer holds the
content as far as the size goes. -/
def Reads (store : Store) (fileSize : Nat) (content : Bytes) : Prop :=
  ∃ data, read store fileSize content = .ok data ∧ data.toString = content.take fileSize

/-- How far a store of some bytes reaches. A full one reaches as far as it was asked to. -/
structure Reaches (store : Store) (extent : Nat → Nat) : Prop where
  store_eq : ∀ xs i got, store xs i got = if i + extent got.length ≤ xs.length
    then .ok (Slice.overwrite xs i got) else .error .outOfRange
  le : ∀ n, n ≤ extent n
  full : extent bufferSize = bufferSize

theorem stored_reaches : Reaches stored id where
  store_eq _ _ _ := rfl
  le _ := le_refl _
  full := rfl

theorem asked_reaches : Reaches asked (fun n => max n bufferSize) where
  store_eq xs i got := by
    rw [asked]
    rw [Checked.write]
    split_ifs <;> first | rfl | omega
  le n := le_max_left _ _
  full := max_self _

/-- How far all the stores reach, for a file of some length. -/
def reach (extent : Nat → Nat) (length : Nat) : Nat :=
  length / bufferSize * bufferSize + extent (length % bufferSize)

theorem reach_of_lt {extent : Nat → Nat} {length : Nat} (h : length < bufferSize) :
    reach extent length = extent length := by
  rw [reach]
  rw [Nat.div_eq_of_lt h, Nat.mod_eq_of_lt h, Nat.zero_mul, Nat.zero_add]

theorem reach_of_le {extent : Nat → Nat} {length : Nat} (h : bufferSize ≤ length) :
    reach extent length = bufferSize + reach extent (length - bufferSize) := by
  have hpos : 0 < bufferSize := by decide
  rw [reach]
  rw [reach]
  rw [Nat.div_eq_sub_div hpos h, Nat.mod_eq_sub_mod h, Nat.succ_mul]
  omega

/-- The loop stores the whole content, or it stops at the first store that reaches too far. -/
theorem fill_eq {store : Store} {extent : Nat → Nat} (h : Reaches store extent) (data : Buffer)
    (content xs : Bytes) (bytesRead : Nat) (hin : data.writerIndex + bytesRead ≤ xs.length) :
    fill store data xs bytesRead content =
      if data.writerIndex + bytesRead + reach extent content.length ≤ xs.length
      then .ok (Slice.overwrite xs (data.writerIndex + bytesRead) content,
        bytesRead + content.length)
      else .error .outOfRange := by
  induction hm : content.length using Nat.strong_induction_on
    generalizing content xs bytesRead with
  | _ m ih =>
    have hpos : 0 < bufferSize := by decide
    rw [fill]
    simp only [h.store_eq, bind]
    by_cases hfull : bufferSize ≤ m
    · have hlen : (content.take bufferSize).length = bufferSize := by
        rw [List.length_take, hm]
        omega
      rw [hlen, h.full, reach_of_le hfull]
      by_cases hfits : data.writerIndex + bytesRead + bufferSize ≤ xs.length
      · have hsize := Slice.overwrite_length xs (content.take bufferSize)
          (data.writerIndex + bytesRead) (by omega)
        have hrest : (content.drop bufferSize).length = m - bufferSize := by
          rw [List.length_drop, hm]
        have hnext := ih (m - bufferSize) (by omega) (content.drop bufferSize)
          (Slice.overwrite xs (data.writerIndex + bytesRead) (content.take bufferSize))
          (bytesRead + bufferSize) (by omega) hrest
        have hjoin := Slice.overwrite_append xs (content.take bufferSize)
          (content.drop bufferSize) (data.writerIndex + bytesRead) hin
        rw [hlen, List.take_append_drop, Nat.add_assoc data.writerIndex] at hjoin
        rw [if_pos hfits, ok_bind, if_pos rfl, hnext, hsize, hjoin]
        rw [show bytesRead + bufferSize + (m - bufferSize) = bytesRead + m by omega,
          show data.writerIndex + (bytesRead + bufferSize) + reach extent (m - bufferSize) =
            data.writerIndex + bytesRead + (bufferSize + reach extent (m - bufferSize)) by omega]
      · rw [if_neg hfits, error_bind, if_neg (by omega)]
    · have hlen : (content.take bufferSize).length = m := by
        rw [List.length_take, hm]
        omega
      rw [hlen, reach_of_lt (by omega), List.take_of_length_le (by omega)]
      by_cases hfits : data.writerIndex + bytesRead + extent m ≤ xs.length
      · have hlast : m ≠ bufferSize := by omega
        rw [if_pos hfits, ok_bind, if_neg hlast, if_pos hfits]
        rfl
      · rw [if_neg hfits, error_bind, if_neg hfits]

theorem new_eq {fileSize : Nat} (hsize : fileSize ≤ Checked.maxSize) :
    Checked.new fileSize 0 = .ok ⟨0, Buffer.resize [] fileSize, 0, 0⟩ := by
  have htop : Checked.maxSize < sizeTop := by decide
  rw [Checked.new]
  rw [Checked.add_eq (by omega), Nat.add_zero, Checked.resize]
  rw [if_pos hsize]
  rfl

theorem read_eq {store : Store} {extent : Nat → Nat} (h : Reaches store extent)
    {fileSize : Nat} (hsize : fileSize ≤ Checked.maxSize) (content : Bytes) :
    read store fileSize content = if reach extent content.length ≤ fileSize
      then Checked.hasWritten ⟨0, Slice.overwrite (Buffer.resize [] fileSize) 0 content, 0, 0⟩
        content.length
      else .error .outOfRange := by
  have hfill := fill_eq h ⟨0, Buffer.resize [] fileSize, 0, 0⟩ content
    (Buffer.resize [] fileSize) 0 (Nat.zero_le _)
  simp only [Nat.zero_add, Buffer.resize_length] at hfill
  rw [read]
  simp only [bind]
  rw [new_eq hsize, ok_bind, hfill]
  by_cases hfits : reach extent content.length ≤ fileSize
  · rw [if_pos hfits, ok_bind, if_pos hfits]
  · rw [if_neg hfits, error_bind, if_neg hfits]

/-- A file is read rightly exactly when the array reaches as far as the stores do. -/
theorem reads_iff {store : Store} {extent : Nat → Nat} (h : Reaches store extent)
    {fileSize : Nat} (hsize : fileSize ≤ Checked.maxSize) (content : Bytes) :
    Reads store fileSize content ↔ reach extent content.length ≤ fileSize := by
  rw [Reads]
  rw [read_eq h hsize]
  by_cases hfits : reach extent content.length ≤ fileSize
  · have hle : content.length ≤ reach extent content.length := by
      have hmod := h.le (content.length % bufferSize)
      have hdiv := Nat.div_add_mod' content.length bufferSize
      rw [reach]
      omega
    have htop : Checked.maxSize < sizeTop := by decide
    have hlen := Buffer.resize_length [] fileSize
    obtain ⟨hsized, hempty⟩ := Buffer.new_sized (by omega) (new_eq hsize)
    obtain ⟨xs, data, hwrite, hok, -, htext, -⟩ := hsized.held.hasWritten
      (show content.length ≤ _ by rw [Buffer.writableBytes]; dsimp only; omega)
      (le_refl content.length)
    have hxs : xs = Slice.overwrite (Buffer.resize [] fileSize) 0 content := by
      rw [Checked.write] at hwrite
      rw [if_pos (by dsimp only; omega)] at hwrite
      exact (Except.ok.inj hwrite).symm
    simp only [hfits, if_true, iff_true]
    refine ⟨data, hxs ▸ hok, ?_⟩
    rw [htext, hempty, List.nil_append, List.take_of_length_le (le_refl _),
      List.take_of_length_le (by omega)]
  · simp only [hfits, if_false, iff_false]
    rintro ⟨data, hok, -⟩
    cases hok

/-- Reading a file stays inside its buffer exactly when the file is no longer than the size that was
reported. The ranges that the stream is asked to fill stay inside only when the next multiple of
`bufferSize` behind the file does, and so never when the size is right. -/
theorem reads_stored_iff (fileSize : Nat) (hsize : fileSize ≤ Checked.maxSize) (content : Bytes) :
    (Reads stored fileSize content ↔ content.length ≤ fileSize) ∧
      (Reads asked fileSize content ↔
        (content.length / bufferSize + 1) * bufferSize ≤ fileSize) := by
  have hstored : reach id content.length = content.length := Nat.div_add_mod' _ _
  have hasked : reach (fun n => max n bufferSize) content.length =
      (content.length / bufferSize + 1) * bufferSize := by
    have hmod := Nat.mod_lt content.length (show 0 < bufferSize by decide)
    rw [reach]
    rw [max_eq_right hmod.le, Nat.succ_mul]
  constructor
  · rw [reads_iff stored_reaches hsize, hstored]
  · rw [reads_iff asked_reaches hsize, hasked]

/-- A file that has become shorter. -/
theorem reads_stored_short : Reads stored 5 (bytes "abc") :=
  (reads_stored_iff 5 (by decide) (bytes "abc")).1.mpr (by decide)

/-- A file that has grown by a byte since its size was taken. -/
theorem grown_file_overflows :
    read stored 2 (bytes "abc") = .error .outOfRange ∧ ¬Reads stored 2 (bytes "abc") := by
  have hread : read stored 2 (bytes "abc") = .error .outOfRange :=
    (read_eq stored_reaches (by decide) (bytes "abc")).trans (if_neg (by decide))
  refine ⟨hread, ?_⟩
  rintro ⟨data, hok, -⟩
  rw [hread] at hok
  cases hok

end ReadFile

end MuduoServer
