import MuduoServer.Base.Bytes
import MuduoServer.Framework.Transfer

namespace MuduoServer

open Transfer (carried Completes Stalls)

/-- `AppendFile`; `content` is what its stream has accepted. -/
structure AppendFile where
  content : Bytes
  writtenBytes : Nat

namespace AppendFile

def new : AppendFile := ⟨[], 0⟩

/-- `append`, on a stream that accepts all bytes. -/
def append (f : AppendFile) (buf : Bytes) : AppendFile :=
  ⟨f.content ++ buf, f.writtenBytes + buf.length⟩

/-- `write`: `::fwrite_unlocked` accepts `n` bytes, or all that it is given if they are fewer, and
returns their number. -/
def write (f : AppendFile) (buf : Bytes) (n : Nat) : AppendFile × Nat :=
  let accepted := buf.take n
  ({ f with content := f.content ++ accepted }, accepted.length)

/-- The loop of `append`, for what the writes to come accept. An error is the file in a loop that
waits for one write more. -/
def writeRest (buf : Bytes) (f : AppendFile) (written : Nat) :
    List Nat → Except AppendFile (AppendFile × Nat)
  | [] => if written ≠ buf.length then .error f else .ok (f, written)
  | n :: results =>
    if written ≠ buf.length then
      let (f, accepted) := f.write (buf.drop written) n
      writeRest buf f (written + accepted) results
    else .ok (f, written)

/-- `append`, for what its writes accept. The first one is made for any length. -/
def appendWrites (f : AppendFile) (buf : Bytes) : List Nat → Except AppendFile AppendFile
  | [] => .error f
  | n :: results => do
    let (f, written) := f.write buf n
    let (f, written) ← writeRest buf f written results
    return { f with writtenBytes := f.writtenBytes + written }

/-- What `append` is for, on a stream whose writes accept `parts`. -/
structure Appends (f : AppendFile) (buf : Bytes) (parts : Stream' Nat) : Prop where
  returns : ∃ n f', f.appendWrites buf (parts.take n) = .ok f'
  /-- Nothing is repeated and nothing skipped, also before it returns. -/
  accepted : ∀ n f', f.appendWrites buf (parts.take n) = .ok f' ∨
    f.appendWrites buf (parts.take n) = .error f' →
      ∃ k, k ≤ buf.length ∧ f'.content = f.content ++ buf.take k
  whole : ∀ n f', f.appendWrites buf (parts.take n) = .ok f' →
    f'.content = f.content ++ buf ∨ ∃ m, ∀ i, m ≤ i → parts.get i = 0
  counted : ∀ n f', f.appendWrites buf (parts.take n) = .ok f' →
    f'.writtenBytes + f.content.length = f.writtenBytes + f'.content.length

variable {f f' : AppendFile} {buf : Bytes} {written : Nat} {parts : Stream' Nat}

/-- The file with the first `k` bytes behind it that it is given. -/
def upTo (f : AppendFile) (buf : Bytes) (k : Nat) : AppendFile :=
  { f with content := f.content ++ buf.take k }

theorem upTo_zero (f : AppendFile) (buf : Bytes) : f.upTo buf 0 = f := by
  rw [upTo]
  rw [List.take_zero, List.append_nil]

/-- A write of what is left behind the first `written` bytes goes on where they end. -/
theorem write_upTo (f : AppendFile) (buf : Bytes) (written n : Nat) :
    (f.upTo buf written).write (buf.drop written) n =
      (f.upTo buf (min (written + n) buf.length), min n (buf.length - written)) := by
  have htake : buf.take (min (written + n) buf.length) = buf.take (written + n) :=
    (List.take_eq_take_min ..).symm
  rw [write, upTo, upTo]
  dsimp only
  rw [htake, List.take_add, List.append_assoc, List.length_take, List.length_drop]

/-- The loop ends as soon as its writes have accepted all; until then the first bytes are accepted,
as many as the results say. -/
theorem writeRest_upTo (results : List Nat) (hle : written ≤ buf.length) :
    writeRest buf (f.upTo buf written) written results =
      if buf.length ≤ written + results.sum then .ok (f.upTo buf buf.length, buf.length)
      else .error (f.upTo buf (written + results.sum)) := by
  induction results generalizing written with
  | nil =>
    rw [writeRest, List.sum_nil, Nat.add_zero]
    by_cases hdone : written = buf.length
    · rw [if_neg (not_not.mpr hdone), if_pos hdone.ge, hdone]
    · rw [if_pos hdone, if_neg (by omega)]
  | cons n results ih =>
    rw [writeRest, List.sum_cons]
    by_cases hdone : written = buf.length
    · rw [if_neg (not_not.mpr hdone), if_pos (by omega), hdone]
    · rw [if_pos hdone, write_upTo]
      dsimp only
      have hnext : written + min n (buf.length - written) = min (written + n) buf.length := by
        omega
      rw [hnext, ih (by omega)]
      by_cases hall : buf.length ≤ written + (n + results.sum)
      · rw [if_pos (by omega), if_pos hall]
      · have hall' : min (written + n) buf.length + results.sum =
            written + (n + results.sum) := by omega
        rw [hall']

/-- `append` returns as soon as it has made a write and all bytes are accepted; then it has done
what it does on a stream that accepts all at once. -/
theorem appendWrites_eq (f : AppendFile) (buf : Bytes) (results : List Nat) :
    f.appendWrites buf results =
      if results ≠ [] ∧ buf.length ≤ results.sum then .ok (f.append buf)
      else .error (f.upTo buf results.sum) := by
  cases results with
  | nil =>
    rw [if_neg (by simp), List.sum_nil, upTo_zero]
    rfl
  | cons n results =>
    have hfirst := write_upTo f buf 0 n
    rw [upTo_zero, List.drop_zero, Nat.zero_add, Nat.sub_zero] at hfirst
    rw [appendWrites, hfirst]
    dsimp only
    rw [writeRest_upTo results (Nat.min_le_right n buf.length), List.sum_cons]
    by_cases hall : buf.length ≤ n + results.sum
    · rw [if_pos (by omega), if_pos ⟨List.cons_ne_nil n results, hall⟩]
      show Except.ok _ = _
      rw [upTo, append, List.take_length]
    · have hsum : min n buf.length + results.sum = n + results.sum := by omega
      rw [hsum, if_neg hall, if_neg (fun h => hall h.2)]
      rfl

/-- On a stream that accepts all at once the loop is not entered. -/
theorem appendWrites_whole (f : AppendFile) (buf : Bytes) :
    f.appendWrites buf [buf.length] = .ok (f.append buf) := by
  rw [appendWrites_eq]
  rw [if_pos ⟨List.cons_ne_nil _ _, by simp⟩]

theorem appendWrites_ok {results : List Nat} (h : f.appendWrites buf results = .ok f') :
    buf.length ≤ results.sum ∧ f' = f.append buf := by
  rw [appendWrites_eq] at h
  split_ifs at h with hall
  cases h
  exact ⟨hall.2, rfl⟩

theorem appendWrites_error {results : List Nat} (h : f.appendWrites buf results = .error f') :
    f' = f.upTo buf results.sum := by
  rw [appendWrites_eq] at h
  split_ifs at h with hall
  cases h
  rfl

/-- It returns on the streams that accept all in the end. -/
theorem returns_iff :
    (∃ n f', f.appendWrites buf (parts.take n) = .ok f') ↔ Completes parts buf.length := by
  constructor
  · rintro ⟨n, f', h⟩
    exact ⟨n, (appendWrites_ok h).1⟩
  · rintro ⟨n, hn⟩
    -- the first write is made also when there is nothing to write
    have hmore : carried parts n ≤ carried parts (n + 1) := Transfer.carried_mono (Nat.le_succ n)
    have hne : parts.take (n + 1) ≠ [] := by
      rw [Stream'.take_succ]
      exact List.cons_ne_nil _ _
    refine ⟨n + 1, f.append buf, ?_⟩
    rw [appendWrites_eq]
    rw [if_pos ⟨hne, hn.trans hmore⟩]

theorem appendWrites_accepted {results : List Nat}
    (h : f.appendWrites buf results = .ok f' ∨ f.appendWrites buf results = .error f') :
    ∃ k, k ≤ buf.length ∧ f'.content = f.content ++ buf.take k := by
  rcases h with h | h
  · refine ⟨buf.length, le_refl _, ?_⟩
    rw [(appendWrites_ok h).2, append, List.take_length]
  · refine ⟨min results.sum buf.length, Nat.min_le_right _ _, ?_⟩
    rw [appendWrites_error h, upTo, ← List.take_eq_take_min]

/-- `append` does what it is for, unless its writes accept nothing from some point on while there
are bytes left. -/
theorem appends_iff (f : AppendFile) (buf : Bytes) (parts : Stream' Nat) :
    f.Appends buf parts ↔ ¬Stalls parts buf.length := by
  rw [← Transfer.completes_iff, ← returns_iff (f := f)]
  constructor
  · exact fun h => h.returns
  · intro hreturns
    refine ⟨hreturns, fun n f' h => appendWrites_accepted h, ?_, ?_⟩
    · intro n f' h
      rw [(appendWrites_ok h).2]
      exact .inl rfl
    · intro n f' h
      rw [(appendWrites_ok h).2, append]
      dsimp only
      rw [List.length_append]
      omega

/-- A disk that is full behind the second byte of three: every write after the first returns 0. -/
theorem not_appends_fullDisk : ¬new.Appends (bytes "log") (Stream'.cons 2 (Stream'.const 0)) := by
  intro h
  have hcompletes := returns_iff.mp h.returns
  refine Transfer.completes_iff.mp hcompletes ⟨1, by decide, ?_⟩
  intro i hi
  cases i with
  | zero => omega
  | succ i => rfl

end AppendFile

end MuduoServer
