import MuduoServer.Tcp.BufferQueue

namespace MuduoServer

/-- What may be done with a buffer after an exchange. -/
inductive LaterOp
  | retrieve (len : Nat)
  | retrieveAll
  | append (data : Bytes)
  | toString

namespace LaterOp

def onQueue (q : Bytes) : LaterOp → Bytes
  | retrieve len => q.drop len
  | retrieveAll => []
  | append data => q ++ data
  | toString => q

def result (q : Bytes) : LaterOp → Bytes
  | toString => q
  | _ => []

/-- How many bytes an operation adds. -/
def added : LaterOp → Nat
  | append data => data.length
  | _ => 0

def total (ops : List LaterOp) : Nat := (ops.map added).sum

/-- What the operations on the abstract queue return. -/
def answers (q : Bytes) : List LaterOp → List Bytes
  | [] => []
  | op :: ops => op.result q :: answers (op.onQueue q) ops

end LaterOp

namespace Buffer

/-- `a.swap(b)`: what `a` and `b` are after it. Each keeps its own `CheapPrepend`. -/
def swap (a b : Buffer) : Buffer × Buffer :=
  (⟨a.cheapPrepend, b.buffer, b.readerIndex, b.writerIndex⟩,
    ⟨b.cheapPrepend, a.buffer, a.readerIndex, a.writerIndex⟩)

/-- An operation with the string it returns, if it returns one. -/
def later (b : Buffer) : LaterOp → Checked (Bytes × Buffer)
  | .retrieve len => b.step (.retrieve len)
  | .retrieveAll => b.step .retrieveAll
  | .append data => b.step (.append data)
  | .toString => do return (← Checked.toString b, b)

def results (b : Buffer) : List LaterOp → Checked (List Bytes)
  | [] => return []
  | op :: ops => do
    let (out, b) ← b.later op
    return out :: (← b.results ops)

/-- Each can do with its `CheapPrepend` in the array of the other. -/
def Exchangeable (a b : Buffer) : Prop :=
  a.cheapPrepend ≤ b.buffer.length ∧ b.cheapPrepend ≤ a.buffer.length

/-- A buffer as the constructors and the operations of the class leave it; an exchange comes in only
between exchangeable buffers. -/
inductive Reached : Buffer → Prop
  | constructed {b : Buffer} {q : Bytes} (h : b.Constructed q) : Reached b
  | step {b b' : Buffer} {op : BufferOp} {out : Bytes} (h : Reached b) (ha : op.Allowed b)
      (hn : op.NoWrap b) (hc : op.NoWrap b.retrieveAll) (hs : b.step op = .ok (out, b')) :
      Reached b'
  | swap {a b : Buffer} (ha : Reached a) (hb : Reached b) (h : a.Exchangeable b) :
      Reached (a.swap b).1

/-- `x` does what `y` does: nothing that follows uses an index outside its array, and the strings it
returns are the same. A vector may throw, but not while its array is no larger than it can be. -/
def ActsAs (x y : Buffer) : Prop :=
  ∀ ops : List LaterOp, (∀ op ∈ ops, op.added ≤ Checked.maxSize) →
    (∀ err, x.results ops = .error err → err = .lengthError) ∧
    (y.buffer.length + LaterOp.total ops ≤ Checked.maxSize →
      ∃ outs, x.results ops = .ok outs ∧ y.results ops = .ok outs)

/-- After the exchange both have their indices in order, and each acts as the other has done. -/
structure Exchanges (a b : Buffer) : Prop where
  indexed : (a.swap b).1.Indexed ∧ (a.swap b).2.Indexed
  actsAs : (a.swap b).1.ActsAs b ∧ (a.swap b).2.ActsAs a

variable {a b : Buffer}

@[simp] theorem swap_toString (a b : Buffer) : (a.swap b).1.toString = b.toString := rfl

theorem Held.swap (h : b.Held) (hc : a.cheapPrepend ≤ b.buffer.length) : (a.swap b).1.Held :=
  ⟨⟨h.indexed.reader_le, h.indexed.writer_le, hc⟩, h.size_le⟩

theorem Reached.held (h : b.Reached) : b.Held := by
  induction h with
  | constructed h => exact h.sized.1.held
  | step _ ha hn hc hs ih =>
    rcases ih.step ha hn hc with herr | ⟨b', hok, hb, -⟩
    · rw [herr] at hs
      cases hs
    · rw [hok] at hs
      cases hs
      exact hb
  | swap _ _ h _ ihb => exact ihb.swap h.1

theorem ensureWritableBytes_length_le (h : b.Indexed) (len : Nat) :
    (b.ensureWritableBytes len).buffer.length ≤ b.buffer.length + len := by
  have hr := h.reader_le
  have hw := h.writer_le
  rw [ensureWritableBytes]
  rw [makeSpace]
  split_ifs with hlt hgrow
  · rw [resize_length]
    exact Nat.add_le_add_right hw len
  · have hdown := b.slide_down len hlt hgrow
    have hs := h.toString_length
    rw [readableBytes] at hs
    rw [Slice.overwrite_length _ _ _ (by omega)]
    exact Nat.le_add_right _ _
  · exact Nat.le_add_right _ _

theorem append_length_le (h : b.Indexed) (data : Bytes) :
    (b.append data).buffer.length ≤ b.buffer.length + data.length := by
  obtain ⟨hb, -, hroom, -⟩ := h.ensureWritableBytes data.length
  have hw := hb.writer_le
  rw [writableBytes] at hroom
  simp only [append]
  rw [Slice.overwrite_length _ _ _ (by omega)]
  exact ensureWritableBytes_length_le h data.length

/-- An operation does to the contents what it does to the queue, or the vector throws. -/
theorem Held.later (h : b.Held) {op : LaterOp} (hop : op.added ≤ Checked.maxSize) :
    b.later op = .error .lengthError ∧ Checked.maxSize < b.buffer.length + op.added ∨
      ∃ b', b.later op = .ok (op.result b.toString, b') ∧ b'.Held ∧
        b'.toString = op.onQueue b.toString ∧ b'.buffer.length ≤ b.buffer.length + op.added := by
  have hw := h.indexed.writer_le
  have hc := h.indexed.cheap_le
  have hs := h.size_le
  cases op with
  | retrieve len =>
    have hok := Checked.retrieve_eq h len
    refine .inr ⟨b.retrieve len, by simp only [Buffer.later, Buffer.step, hok]; rfl,
      h.retrieve len, h.indexed.retrieve_toString len, ?_⟩
    rw [Buffer.retrieve]
    split_ifs <;> exact le_refl _
  | retrieveAll =>
    exact .inr ⟨_, rfl, h.retrieveAll, b.retrieveAll_toString, le_refl _⟩
  | append data =>
    have hlen : data.length ≤ Checked.maxSize := hop
    have htop : Checked.maxSize + Checked.maxSize < sizeTop := by decide
    obtain ⟨hb, htext, -⟩ := h.indexed.append data
    have hwriter : b.writerIndex + data.length < sizeTop := by omega
    have hcheap : b.cheapPrepend + data.length < sizeTop := by omega
    rcases Checked.append_eq h hwriter hcheap with ⟨herr, hlarge⟩ | ⟨hok, hmax⟩
    · refine .inl ⟨by simp only [Buffer.later, Buffer.step, herr]; rfl, ?_⟩
      rw [LaterOp.added]
      omega
    · exact .inr ⟨_, by simp only [Buffer.later, Buffer.step, hok]; rfl, ⟨hb, hmax⟩, htext,
        append_length_le h.indexed data⟩
  | toString =>
    have hok := Checked.toString_eq h.indexed
    exact .inr ⟨b, by simp only [Buffer.later, hok]; rfl, h, rfl, le_refl _⟩

/-- What a sequence of operations returns depends only on the contents. -/
theorem Held.results (h : b.Held) {ops : List LaterOp}
    (hops : ∀ op ∈ ops, op.added ≤ Checked.maxSize) :
    b.results ops = .ok (LaterOp.answers b.toString ops) ∨
      b.results ops = .error .lengthError ∧
        Checked.maxSize < b.buffer.length + LaterOp.total ops := by
  induction ops generalizing b with
  | nil => exact .inl rfl
  | cons op ops ih =>
    have htotal : LaterOp.total (op :: ops) = op.added + LaterOp.total ops := List.sum_cons
    rw [htotal]
    rcases h.later (hops op List.mem_cons_self) with ⟨herr, hlarge⟩ | ⟨b', hok, hb, htext, hlen⟩
    · refine .inr ⟨by simp only [Buffer.results, herr]; rfl, by omega⟩
    · have hrests : ∀ op ∈ ops, op.added ≤ Checked.maxSize :=
        fun op hmem => hops op (List.mem_cons_of_mem _ hmem)
      rcases ih hb hrests with hrest | ⟨hrest, hlarge⟩
      · refine .inl ?_
        simp only [Buffer.results, hok, bind, Except.bind, hrest]
        rw [htext]
        rfl
      · refine .inr ⟨?_, by omega⟩
        simp only [Buffer.results, hok, bind, Except.bind, hrest]

/-- With the other's contents in an array that has room for its own `CheapPrepend`, a buffer acts as
the other has done. -/
theorem Held.actsAs (hb : b.Held) (hc : a.cheapPrepend ≤ b.buffer.length) :
    (a.swap b).1.ActsAs b := by
  have ha := hb.swap hc
  intro ops hops
  have hleft := ha.results hops
  have hright := hb.results hops
  rw [swap_toString] at hleft
  constructor
  · intro err herr
    rcases hleft with hok | ⟨hthrow, -⟩
    · rw [hok] at herr
      cases herr
    · rw [hthrow] at herr
      exact (Except.error.inj herr).symm
  · intro hfits
    have hsize : (a.swap b).1.buffer.length = b.buffer.length := rfl
    rcases hleft with hok | ⟨-, hlarge⟩
    · rcases hright with hok' | ⟨-, hlarge⟩
      · exact ⟨_, hok, hok'⟩
      · omega
    · omega

/-- A `CheapPrepend` beyond the other's array: once all is retrieved, the writer is beyond the
array, and the room behind it is computed as a negative number. -/
theorem swap_underflows (h : ¬a.cheapPrepend ≤ b.buffer.length) (data : Bytes) :
    (a.swap b).1.results [.retrieveAll, .append data] = .error .underflow := by
  have hsub : Checked.writableBytes (a.swap b).1.retrieveAll = .error .underflow := if_neg h
  simp only [Buffer.results, Buffer.later, Buffer.step, bind, Except.bind, pure, Except.pure,
    Checked.append, Checked.ensureWritableBytes, hsub]

/-- Buffers are exchanged rightly exactly when each one's `CheapPrepend`, which stays where it is,
lies in the array of the other. -/
theorem swap_exchanges_iff (ha : a.Reached) (hb : b.Reached) :
    a.Exchanges b ↔ a.cheapPrepend ≤ b.buffer.length ∧ b.cheapPrepend ≤ a.buffer.length := by
  constructor
  · intro h
    exact ⟨h.indexed.1.cheap_le, h.indexed.2.cheap_le⟩
  · rintro ⟨hab, hba⟩
    exact ⟨⟨(hb.held.swap hab).indexed, (ha.held.swap hba).indexed⟩, hb.held.actsAs hab,
      ha.held.actsAs hba⟩

theorem default_reached : default.Reached := by
  refine .constructed (q := []) (.inl ⟨1024, 8, by decide, ?_, rfl⟩)
  decide +kernel

/-- A response in a string is long enough for the `CheapPrepend` of a default buffer. -/
theorem swap_exchanges_response : default.Exchanges ⟨0, bytes "HTTP/1.1 200", 0, 12⟩ :=
  (swap_exchanges_iff default_reached (.constructed (q := bytes "HTTP/1.1 200")
    (.inr (by decide +kernel)))).mpr ⟨by decide, Nat.zero_le _⟩

/-- Two bytes in a string are not. -/
theorem swap_short :
    default.Reached ∧ Reached ⟨0, bytes "hi", 0, 2⟩ ∧ ¬default.Exchanges ⟨0, bytes "hi", 0, 2⟩ ∧
      (default.swap ⟨0, bytes "hi", 0, 2⟩).1.results [.retrieveAll, .append (bytes "x")] =
        .error .underflow := by
  have hlarge : ¬default.cheapPrepend ≤ (bytes "hi").length := by decide
  refine ⟨default_reached, .constructed (q := bytes "hi") (.inr (by decide +kernel)), ?_,
    swap_underflows hlarge _⟩
  exact fun h => hlarge h.indexed.1.cheap_le

end Buffer

end MuduoServer
