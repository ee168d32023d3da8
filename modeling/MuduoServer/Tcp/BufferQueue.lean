import MuduoServer.Tcp.BufferMemory
import MuduoServer.Framework.Run

namespace MuduoServer

/-- What a user does with a buffer. `hasWritten` follows a write of `data` from `beginWrite()`
on. -/
inductive BufferOp
  | append (data : Bytes)
  | retrieve (len : Nat)
  | retrieveAll
  | retrieveAsString (len : Nat)
  | retrieveAllAsString
  | ensureWritableBytes (len : Nat)
  | hasWritten (data : Bytes) (len : Nat)
  | prepend (data : Bytes)
  deriving DecidableEq, Repr

namespace BufferOp

/-- The state of the abstract queue after an operation. -/
def onQueue (q : Bytes) : BufferOp → Bytes
  | append data => q ++ data
  | retrieve len => q.drop len
  | retrieveAll => []
  | retrieveAsString len => q.drop len
  | retrieveAllAsString => []
  | ensureWritableBytes _ => q
  | hasWritten data len => q ++ data.take len
  | prepend data => data ++ q

/-- The string that an operation on the abstract queue returns. -/
def result (q : Bytes) : BufferOp → Bytes
  | retrieveAsString len => q.take len
  | retrieveAllAsString => q
  | _ => []

/-- What the caller of an operation promises; the sizes are values of `size_t`. -/
def Allowed (b : Buffer) : BufferOp → Prop
  | append data => data.length < sizeTop
  | ensureWritableBytes len => len < sizeTop
  | retrieveAsString len => len ≤ b.readableBytes
  | hasWritten data len => data.length ≤ b.writableBytes ∧ len ≤ data.length
  | prepend data => data.length ≤ b.prependableBytes
  | _ => True

/-- The position up to which room is asked for can be written as a `size_t`. -/
def NoWrap (b : Buffer) : BufferOp → Prop
  | append data => b.writerIndex + data.length < sizeTop
  | ensureWritableBytes len => b.writerIndex + len < sizeTop
  | _ => True

instance (b : Buffer) : (op : BufferOp) → Decidable (op.Allowed b)
  | append _ | ensureWritableBytes _ => inferInstanceAs (Decidable (_ < _))
  | retrieve _ | retrieveAll | retrieveAllAsString => inferInstanceAs (Decidable True)
  | retrieveAsString _ | prepend _ => inferInstanceAs (Decidable (_ ≤ _))
  | hasWritten _ _ => inferInstanceAs (Decidable (_ ∧ _))

instance (b : Buffer) : (op : BufferOp) → Decidable (op.NoWrap b)
  | append _ | ensureWritableBytes _ => inferInstanceAs (Decidable (_ < _))
  | retrieve _ | retrieveAll | retrieveAsString _ | retrieveAllAsString | hasWritten _ _
  | prepend _ => inferInstanceAs (Decidable True)

end BufferOp

namespace Buffer

/-- An operation with the string it returns; the other operations return none. -/
def step (b : Buffer) : BufferOp → Checked (Bytes × Buffer)
  | .append data => do return ([], ← Checked.append b data)
  | .retrieve len => do return ([], ← Checked.retrieve b len)
  | .retrieveAll => return ([], b.retrieveAll)
  | .retrieveAsString len => Checked.retrieveAsString b len
  | .retrieveAllAsString => Checked.retrieveAllAsString b
  | .ensureWritableBytes len => do return ([], ← Checked.ensureWritableBytes b len)
  | .hasWritten data len => do
    let xs ← Checked.write b.buffer b.writerIndex data
    return ([], ← Checked.hasWritten { b with buffer := xs } len)
  | .prepend data => do return ([], ← Checked.prepend b data)

/-- A buffer as one of the constructors leaves it, with what it holds. -/
def Constructed (b : Buffer) (q : Bytes) : Prop :=
  (∃ initSize cheapPrepend, initSize + cheapPrepend < sizeTop ∧
    Checked.new initSize cheapPrepend = .ok b ∧ q = []) ∨
  Checked.ofString q = .ok b

/-- What every state must satisfy when the abstract queue is `q`. -/
structure Refines (b : Buffer) (q : Bytes) : Prop where
  reader_le : b.readerIndex ≤ b.writerIndex
  writer_le : b.writerIndex ≤ b.buffer.length
  cheap_le : b.cheapPrepend ≤ b.buffer.length
  contents : Checked.toString b = .ok q

/-- What every operation must do when the abstract queue is `q`: it faults nowhere, unless the
vector throws, and does to the contents what the operation on the queue does. -/
def Serves (b : Buffer) (q : Bytes) (op : BufferOp) : Prop :=
  b.step op = .error .lengthError ∨
    ∃ b', b.step op = .ok (op.result q, b') ∧ b'.Refines (op.onQueue q) ∧
      ∀ len, op = .ensureWritableBytes len → len ≤ b'.writableBytes

theorem Held.refines {b : Buffer} (h : b.Held) : b.Refines b.toString :=
  ⟨h.indexed.reader_le, h.indexed.writer_le, h.indexed.cheap_le, Checked.toString_eq h.indexed⟩

theorem new_sized {initSize cheapPrepend : Nat} {b : Buffer}
    (hsum : initSize + cheapPrepend < sizeTop) (h : Checked.new initSize cheapPrepend = .ok b) :
    b.Sized ∧ b.toString = [] := by
  unfold Checked.new Checked.resize at h
  rw [Checked.add_eq hsum] at h
  split_ifs at h with hmax
  · injection h with h
    obtain rfl := h
    have hl := resize_length [] (initSize + cheapPrepend)
    refine ⟨⟨⟨le_refl _, ?_, le_refl _⟩, ?_⟩, ?_⟩
    · dsimp only; omega
    · dsimp only; omega
    · simp [toString, readableBytes]
  · cases h

/-- A constructor that returns leaves a well-formed buffer exactly when its sum does not wrap. -/
theorem new_refines_iff {initSize cheapPrepend : Nat} {b : Buffer} (hi : initSize < sizeTop)
    (hc : cheapPrepend < sizeTop) (h : Checked.new initSize cheapPrepend = .ok b) :
    b.Refines [] ↔ initSize + cheapPrepend < sizeTop := by
  constructor
  · intro hb
    by_contra hsum
    have hadd : Checked.add initSize cheapPrepend = initSize + cheapPrepend - sizeTop := by
      rw [Checked.add]
      rw [Nat.mod_eq_sub_mod (by omega), Nat.mod_eq_of_lt (by omega)]
    unfold Checked.new Checked.resize at h
    rw [hadd] at h
    split_ifs at h with hmax
    · injection h with h
      obtain rfl := h
      have hl := resize_length [] (initSize + cheapPrepend - sizeTop)
      have hle := hb.cheap_le
      dsimp only at hle
      omega
    · cases h
  · intro hsum
    obtain ⟨hb, hs⟩ := new_sized hsum h
    exact hs ▸ hb.held.refines

theorem ofString_sized {str : Bytes} {b : Buffer} (h : Checked.ofString str = .ok b) :
    b.Sized ∧ b.toString = str := by
  have hadd : Checked.add str.length 0 = str.length % sizeTop := rfl
  have hend : Checked.add 0 str.length = str.length % sizeTop := by rw [Checked.add, Nat.zero_add]
  simp only [Checked.ofString, Checked.resize, bind, Except.bind] at h
  rw [hadd, hend] at h
  by_cases hmax : str.length % sizeTop ≤ Checked.maxSize
  · have hl := resize_length [] (str.length % sizeTop)
    rw [if_pos hmax] at h
    simp only [Checked.write, hl, Nat.zero_add] at h
    by_cases hfit : str.length ≤ str.length % sizeTop
    · have hmod : str.length % sizeTop = str.length := le_antisymm (Nat.mod_le _ _) hfit
      rw [if_pos hfit, hmod] at h
      rw [hmod] at hmax hl
      injection h with h
      obtain rfl := h
      have hlen := Slice.overwrite_length (resize [] str.length) str 0 (by omega)
      refine ⟨⟨⟨Nat.zero_le _, ?_, Nat.zero_le _⟩, ?_⟩, ?_⟩
      · dsimp only; omega
      · dsimp only; omega
      · simp [toString, readableBytes, Slice.overwrite]
    · rw [if_neg hfit] at h
      cases h
  · rw [if_neg hmax] at h
    cases h

theorem Constructed.sized {b : Buffer} {q : Bytes} (h : b.Constructed q) :
    b.Sized ∧ b.toString = q := by
  rcases h with ⟨initSize, cheapPrepend, hsum, hnew, rfl⟩ | hstr
  · exact new_sized hsum hnew
  · exact ofString_sized hstr

/-- Each operation serves the queue, and leaves a buffer that serves it. An `append` asks for room
behind the writer and compares with what there is behind `cheapPrepend`. -/
theorem Held.step {b : Buffer} (h : b.Held) {op : BufferOp} (ha : op.Allowed b) (hn : op.NoWrap b)
    (hc : op.NoWrap b.retrieveAll) :
    b.step op = .error .lengthError ∨
      ∃ b', b.step op = .ok (op.result b.toString, b') ∧ b'.Held ∧
        b'.toString = op.onQueue b.toString ∧
        (b.cheapPrepend ≤ b.writerIndex → b'.cheapPrepend ≤ b'.writerIndex) ∧
        ∀ len, op = .ensureWritableBytes len → len ≤ b'.writableBytes := by
  cases op with
  | append data =>
    obtain ⟨hb, hs, -⟩ := h.indexed.append data
    rcases Checked.append_eq h hn hc with ⟨herr, -⟩ | ⟨hok, hmax⟩
    · exact .inl (by simp only [Buffer.step, herr]; rfl)
    · exact .inr ⟨_, by simp only [Buffer.step, hok]; rfl, ⟨hb, hmax⟩, hs,
        fun hcw => append_cheap hcw data, by simp⟩
  | retrieve len =>
    have hok := Checked.retrieve_eq h len
    exact .inr ⟨_, by simp only [Buffer.step, hok]; rfl, h.retrieve len,
      h.indexed.retrieve_toString len, fun hcw => retrieve_cheap hcw len, by simp⟩
  | retrieveAll =>
    exact .inr ⟨_, rfl, h.retrieveAll, b.retrieveAll_toString, fun _ => le_refl _, by simp⟩
  | retrieveAsString len =>
    have hok := Checked.retrieve_eq h len
    have hr := h.indexed.reader_le
    have hw := h.indexed.writer_le
    have hlen : len ≤ b.readableBytes := ha
    have hread : Checked.read b.buffer b.readerIndex len = .ok (b.toString.take len) := by
      have hrange := b.toString_range 0 len (by omega)
      rw [Nat.add_zero, List.drop_zero] at hrange
      rw [← hrange]
      apply if_pos
      rw [readableBytes] at hlen
      omega
    exact .inr ⟨_, by simp only [Buffer.step, Checked.retrieveAsString, hread, hok]; rfl,
      h.retrieve len, h.indexed.retrieve_toString len, fun hcw => retrieve_cheap hcw len, by simp⟩
  | retrieveAllAsString =>
    have hok := Checked.toString_eq h.indexed
    exact .inr ⟨_, by simp only [Buffer.step, Checked.retrieveAllAsString, hok]; rfl,
      h.retrieveAll, b.retrieveAll_toString, fun _ => le_refl _, by simp⟩
  | ensureWritableBytes len =>
    obtain ⟨hb, hs, hroom, -⟩ := h.indexed.ensureWritableBytes len
    rcases Checked.ensureWritableBytes_eq h hn hc with ⟨herr, -⟩ | ⟨hok, hmax⟩
    · exact .inl (by simp only [Buffer.step, herr]; rfl)
    · refine .inr ⟨_, by simp only [Buffer.step, hok]; rfl, ⟨hb, hmax⟩, hs,
        fun hcw => ensureWritableBytes_cheap hcw len, ?_⟩
      intro len' hop
      injection hop with hop
      exact hop ▸ hroom
  | hasWritten data len =>
    obtain ⟨xs, b', hwrite, hok, hb, hs, hcw⟩ := h.hasWritten ha.1 ha.2
    exact .inr ⟨b', by simp only [Buffer.step, hwrite, bind, Except.bind, hok]; rfl, hb, hs, hcw,
      by simp⟩
  | prepend data =>
    obtain ⟨b', hok, hb, hs, hcw⟩ := h.prepend ha
    exact .inr ⟨b', by simp only [Buffer.step, hok]; rfl, hb, hs, hcw, by simp⟩

/-- While the writer is not below `cheapPrepend`, a position behind that does not wrap either. -/
theorem noWrap_retrieveAll {b : Buffer} (h : b.cheapPrepend ≤ b.writerIndex) {op : BufferOp}
    (hn : op.NoWrap b) : op.NoWrap b.retrieveAll := by
  cases op with
  | append data => exact lt_of_le_of_lt (Nat.add_le_add_right h _) hn
  | ensureWritableBytes len => exact lt_of_le_of_lt (Nat.add_le_add_right h _) hn
  | retrieve _ | retrieveAll | retrieveAsString _ | retrieveAllAsString | hasWritten _ _
  | prepend _ => exact hn

theorem Sized.step {b : Buffer} (h : b.Sized) {op : BufferOp} (ha : op.Allowed b)
    (hn : op.NoWrap b) :
    b.step op = .error .lengthError ∨
      ∃ b', b.step op = .ok (op.result b.toString, b') ∧ b'.Sized ∧
        b'.toString = op.onQueue b.toString ∧
        ∀ len, op = .ensureWritableBytes len → len ≤ b'.writableBytes := by
  have hcw := h.bounds.cheap_le
  rcases h.held.step ha hn (noWrap_retrieveAll hcw hn) with herr | ⟨b', hok, hb, hs, hc, hroom⟩
  · exact .inl herr
  · exact .inr ⟨b', hok, hb.sized (hc hcw), hs, hroom⟩

/-- Where the position asked for wraps, no array has the room. -/
theorem Sized.not_serves {b : Buffer} (h : b.Sized) {op : BufferOp} (ha : op.Allowed b)
    (hn : ¬op.NoWrap b) (q : Bytes) : ¬b.Serves q op := by
  cases op with
  | append data =>
    obtain ⟨hthrow, hsize⟩ := Checked.ensureWritableBytes_wraps h.held ha (Nat.not_lt.mp hn)
    rw [Serves]
    simp only [Buffer.step, Checked.append, bind, Except.bind]
    cases he : Checked.ensureWritableBytes b data.length with
    | error err => simp_all
    | ok b1 =>
      have hout : ¬b1.writerIndex + data.length ≤ b1.buffer.length := by
        have hlt := hsize b1 he
        omega
      simp [Checked.write, hout]
  | ensureWritableBytes len =>
    obtain ⟨hthrow, hsize⟩ := Checked.ensureWritableBytes_wraps h.held ha (Nat.not_lt.mp hn)
    rw [Serves]
    simp only [Buffer.step, bind, Except.bind]
    cases he : Checked.ensureWritableBytes b len with
    | error err => simp_all
    | ok b1 =>
      intro hserves
      rcases hserves with herr | ⟨b', hok, -, hroom⟩
      · cases herr
      · injection hok with hok
        injection hok with _ hbb
        have hlt := hsize b1 he
        have hle := hroom len rfl
        rw [← hbb] at hle
        rw [writableBytes] at hle
        omega
  | retrieve _ => exact (hn trivial).elim
  | retrieveAll => exact (hn trivial).elim
  | retrieveAsString _ => exact (hn trivial).elim
  | retrieveAllAsString => exact (hn trivial).elim
  | hasWritten _ _ => exact (hn trivial).elim
  | prepend _ => exact (hn trivial).elim

end Buffer

open Buffer in
/-- A buffer refines a byte queue, over every run in which no sum of sizes wraps; and an operation
on which a sum wraps does not serve the queue. -/
theorem buffer_refines_queue (start b : Buffer) (q : Bytes) (hstart : start.Constructed q)
    (ops : List BufferOp)
    (hrun : Run (fun b op b' => (op.Allowed b ∧ op.NoWrap b) ∧ ∃ out, b.step op = .ok (out, b'))
      start ops b) :
    b.Refines (ops.foldl BufferOp.onQueue q) ∧
      ∀ op : BufferOp, op.Allowed b →
        (b.Serves (ops.foldl BufferOp.onQueue q) op ↔ op.NoWrap b) := by
  have hinv : b.Sized ∧ b.toString = ops.foldl BufferOp.onQueue q := by
    refine hrun.invariant (fun ops b => b.Sized ∧ b.toString = ops.foldl BufferOp.onQueue q)
      hstart.sized ?_
    intro ops b op b' hb hs
    obtain ⟨hb, hq⟩ := hb
    obtain ⟨⟨ha, hn⟩, out, hstep⟩ := hs
    rw [List.foldl_append, List.foldl_cons, List.foldl_nil, ← hq]
    rcases hb.step ha hn with herr | ⟨b'', hok, hb', hs, -⟩
    · rw [herr] at hstep
      cases hstep
    · rw [hok] at hstep
      injection hstep with hstep
      injection hstep with _ hbb
      exact hbb ▸ ⟨hb', hs⟩
  obtain ⟨hb, hq⟩ := hinv
  rw [← hq]
  refine ⟨hb.held.refines, ?_⟩
  intro op ha
  constructor
  · intro hserves
    by_contra hn
    exact hb.not_serves ha hn _ hserves
  · intro hn
    rcases hb.step ha hn with herr | ⟨b', hok, hb', hs, hroom⟩
    · exact .inl herr
    · exact .inr ⟨b', hok, hs ▸ hb'.held.refines, hroom⟩

open Buffer in
/-- After a prepend the reader is below `cheapPrepend`, and the next append grows the array. -/
theorem buffer_refines_queue_prepend :
    ∃ b : Buffer, (b.readerIndex < b.cheapPrepend ∧ b.buffer.length = 8) ∧
      b.Refines (bytes "abcdef") := by
  have hstart : Constructed ⟨4, List.replicate 6 0, 4, 4⟩ [] :=
    .inl ⟨2, 4, by decide, by decide, rfl⟩
  obtain ⟨b, hrun, hb⟩ := Run.exists_of_guarded (f := fun b op => (b.step op).toOption.map Prod.snd)
    (p := fun b op => op.Allowed b ∧ op.NoWrap b) (s := (⟨4, List.replicate 6 0, 4, 4⟩ : Buffer))
    (g := fun b => (decide (b.readerIndex < b.cheapPrepend), b.buffer.length)) (a := (true, 8))
    (l := [.append (bytes "cd"), .prepend (bytes "ab"), .append (bytes "ef")])
    (by decide +kernel)
  have hfin : b.readerIndex < b.cheapPrepend ∧ b.buffer.length = 8 := by simpa using hb
  refine ⟨b, hfin, (buffer_refines_queue _ b [] hstart _ (hrun.mono ?_)).1⟩
  intro s op s' hs
  obtain ⟨hp, hstep⟩ := hs
  refine ⟨hp, ?_⟩
  cases hok : s.step op with
  | error err => simp [hok, Except.toOption] at hstep
  | ok r =>
    rw [hok] at hstep
    exact ⟨r.1, congrArg Except.ok (Prod.ext rfl (Option.some.inj hstep))⟩

open Buffer in
/-- A sum of sizes that wraps: the constructor leaves an array below `cheapPrepend`, and asking for
room shrinks the array below the writer. -/
theorem buffer_wraps :
    (∃ b, Checked.new (sizeTop - 1) 8 = .ok b ∧ ¬b.Refines []) ∧
      ∃ b, b.Constructed (bytes "abcde") ∧ (BufferOp.ensureWritableBytes (sizeTop - 1)).Allowed b ∧
        (∃ b', b.step (.ensureWritableBytes (sizeTop - 1)) = .ok ([], b') ∧
          b'.buffer.length < b'.writerIndex) ∧
        ¬b.Serves (bytes "abcde") (.ensureWritableBytes (sizeTop - 1)) := by
  have hstr : Checked.ofString (bytes "abcde") = .ok ⟨0, bytes "abcde", 0, 5⟩ := by decide +kernel
  have hnew : Checked.new (sizeTop - 1) 8 = .ok ⟨8, List.replicate 7 0, 8, 8⟩ := by
    decide +kernel
  have hwraps := new_refines_iff (by decide) (by decide) hnew
  exact ⟨⟨_, hnew, fun h => absurd (hwraps.mp h) (by decide)⟩,
    ⟨0, bytes "abcde", 0, 5⟩, .inr hstr, by decide,
    ⟨⟨0, bytes "abcd", 0, 5⟩, by decide +kernel, by decide⟩,
    (ofString_sized hstr).1.not_serves (by decide) (by decide) _⟩

end MuduoServer
