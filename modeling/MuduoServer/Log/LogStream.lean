import Mathlib.Data.List.Induction
import MuduoServer.Log.FixedBuffer
import MuduoServer.Log.Integers

namespace MuduoServer

def FIXED_BUFFER_SIZE : Nat := 4096

/-- What stands behind a `<<`, but for `float` and `double` (see `Operand`). A C string is given by
the memory that it points to, and `none` is the null pointer. -/
inductive Insertion
  | char (v : UInt8)
  | cString (str : Option Bytes)
  | string (str : Bytes)
  | buffer (buf : FixedBuffer FIXED_BUFFER_SIZE)
  | integer (t : IntType) (v : t.Value)
  | short (v : Int16)
  | unsignedShort (v : UInt16)
  | pointer (p : UInt64)

/-- `LogStream`, that is, its `buffer_`. -/
abbrev LogStream := FixedMemory FIXED_BUFFER_SIZE

/-- `static_cast<int>` of a `short`. -/
def intOfShort (v : Int16) : IntType.int.Value where
  val := v.toInt
  ge := by
    have h := v.le_toInt
    have hmin : IntType.int.min = -2^31 := rfl
    omega
  le := by
    have h := v.toInt_lt
    have hmax : IntType.int.max = 2^31 - 1 := rfl
    omega

/-- `static_cast<unsigned int>` of an `unsigned short`. -/
def unsignedOfShort (v : UInt16) : IntType.unsignedInt.Value where
  val := v.toNat
  ge := by
    have hmin : IntType.unsignedInt.min = 0 := rfl
    omega
  le := by
    have h := v.toNat_lt
    have hmax : IntType.unsignedInt.max = 2^32 - 1 := rfl
    omega

theorem not_least_intOfShort (v : Int16) : ¬IntType.Least (intOfShort v) := by
  intro hleast
  have hge := v.le_toInt
  have hmin : v.toInt = -2^31 := hleast.2
  omega

namespace LogStream

/-- `formatInteger`, which writes into `buffer_` in place. -/
def formatInteger (s : LogStream) (t : IntType) (val : t.Value) : Option LogStream :=
  if s.avail ≥ MAX_NUMERIC_SIZE then do
    let (written, len) := convertInt t val
    let s ← s.store written
    some (s.add len)
  else some s

/-- `operator<<(const void*)`. -/
def formatPointer (s : LogStream) (v : UInt64) : Option LogStream :=
  if s.avail ≥ FIXED_BUFFER_SIZE then do
    let (written, len) := convertHex v
    let s ← s.store (bytes "0x" ++ written)
    some (s.add (len + 2))
  else some s

/-- `operator<<`. -/
def insert (s : LogStream) : Insertion → Option LogStream
  | .char v => s.append [v]
  | .cString (some str) => s.append (cText str)
  | .cString none => s.append (bytes "(null)")
  | .string str => s.append str
  | .buffer buf => s.append buf.data
  | .integer t v => s.formatInteger t v
  | .short v => s.formatInteger .int (intOfShort v)
  | .unsignedShort v => s.formatInteger .unsignedInt (unsignedOfShort v)
  | .pointer p => s.formatPointer p

def insertAll (s : LogStream) (ops : List Insertion) : Option LogStream :=
  ops.foldlM insert s

end LogStream

namespace Insertion

/-- The text that an insertion stands for. -/
def rendered : Insertion → Bytes
  | char v => [v]
  | cString (some str) => cText str
  | cString none => bytes "(null)"
  | string str => str
  | buffer buf => buf.data
  | integer _ v => decimalInt v.val
  | short v => decimalInt v.toInt
  | unsignedShort v => decimalInt v.toNat
  | pointer p => bytes "0x" ++ hexadecimal p.toNat

/-- What an insertion writes when it writes. -/
def written : Insertion → Bytes
  | integer t v => (convertInt t v).1.dropLast
  | op => op.rendered

/-- The room without which an insertion is dropped. -/
def room : Insertion → Nat
  | integer _ _ | short _ | unsignedShort _ => MAX_NUMERIC_SIZE
  | pointer _ => FIXED_BUFFER_SIZE
  | op => op.rendered.length + 1

/-- The text of an insertion comes out behind `before`: a pointer has to be the first text of the
stream, and an integer must not be the least value of its type. -/
def ShownAfter (before : Bytes) : Insertion → Prop
  | pointer _ => before = []
  | integer _ v => ¬IntType.Least v
  | _ => True

instance (before : Bytes) : (op : Insertion) → Decidable (op.ShownAfter before)
  | pointer _ => inferInstanceAs (Decidable (_ = _))
  | integer _ _ => inferInstanceAs (Decidable (¬_))
  | char _ | cString _ | string _ | buffer _ | short _ | unsignedShort _ =>
    inferInstanceAs (Decidable True)

theorem written_length (op : Insertion) : op.written.length = op.rendered.length := by
  cases op with
  | integer t v =>
    have hlen := (convertInt_length t v).1
    simp only [written, rendered, List.length_dropLast]
    omega
  | _ => rfl

/-- A text that is written comes out right exactly when it is no least value. -/
theorem written_eq_iff (op : Insertion) (before : Bytes) (hp : ∀ p, op ≠ pointer p) :
    op.written = op.rendered ↔ op.ShownAfter before := by
  cases op with
  | integer t v =>
    constructor
    · intro heq hleast
      have htext : (convertInt t v).1.dropLast = decimalInt v.val := heq
      exact not_isDecimal_of_least hleast (htext ▸ isDecimal_decimalInt v.val)
    · intro hleast
      rw [written, convertInt_eq hleast, List.dropLast_concat]
      rfl
  | pointer p => exact (hp p rfl).elim
  | _ => exact iff_of_true rfl trivial

theorem room_le (op : Insertion) (hp : ∀ p, op ≠ pointer p) :
    op.room ≤ op.rendered.length + MAX_NUMERIC_SIZE := by
  cases op with
  | pointer p => exact (hp p rfl).elim
  | integer t v => exact Nat.le_add_left _ _
  | short v => exact Nat.le_add_left _ _
  | unsignedShort v => exact Nat.le_add_left _ _
  | _ => exact Nat.add_le_add_left (by decide) _

end Insertion

namespace LogStream

variable {s : LogStream}

theorem avail_ge_iff (n : Nat) :
    s.avail ≥ n ↔ s.cur + n ≤ FIXED_BUFFER_SIZE := by
  rw [FixedMemory.avail]
  omega

/-- An integer is written, NUL and all, inside the room that is asked for. -/
theorem formatInteger_spec (h : s.cur ≤ FIXED_BUFFER_SIZE) (t : IntType) (v : t.Value) :
    ∃ s', s.formatInteger t v = some s' ∧ s'.cur ≤ FIXED_BUFFER_SIZE ∧
      s'.text = s.text ++ if s.cur + MAX_NUMERIC_SIZE ≤ FIXED_BUFFER_SIZE
        then (convertInt t v).1.dropLast else [] := by
  obtain ⟨hlen, hret⟩ := convertInt_length t v
  have hshort := decimalInt_length_le v
  rw [formatInteger]
  by_cases hroom : s.cur + MAX_NUMERIC_SIZE ≤ FIXED_BUFFER_SIZE
  · have hnum : MAX_NUMERIC_SIZE = 48 := rfl
    obtain ⟨s', hstore, hcur, htext⟩ := FixedMemory.store_add (b := s)
      (convertInt t v).1 (convertInt t v).2 (by omega) (by omega)
    rw [if_pos ((avail_ge_iff _).mpr hroom), if_pos hroom]
    refine ⟨_, by simp only [hstore]; rfl, by omega, ?_⟩
    rw [htext, List.dropLast_eq_take, hlen, hret, Nat.add_sub_cancel]
  · rw [if_neg (fun hge => hroom ((avail_ge_iff _).mp hge)), if_neg hroom, List.append_nil]
    exact ⟨s, rfl, h, rfl⟩

theorem convertHex_eq (v : UInt64) :
    convertHex v = (hexadecimal v.toNat ++ [0], (hexadecimal v.toNat).length) := by
  rw [convertHex]
  rw [← convertHexLoop_eq, List.length_reverse]

theorem formatPointer_spec (h : s.cur ≤ FIXED_BUFFER_SIZE) (v : UInt64) :
    ∃ s', s.formatPointer v = some s' ∧ s'.cur ≤ FIXED_BUFFER_SIZE ∧
      s'.text = s.text ++ if s.cur + FIXED_BUFFER_SIZE ≤ FIXED_BUFFER_SIZE
        then bytes "0x" ++ hexadecimal v.toNat else [] := by
  have hshort := hexadecimal_length_le (n := v.toNat) (k := 16) (by decide) v.toNat_lt
  rw [formatPointer]
  rw [convertHex_eq]
  by_cases hroom : s.cur + FIXED_BUFFER_SIZE ≤ FIXED_BUFFER_SIZE
  · have hsize : FIXED_BUFFER_SIZE = 4096 := rfl
    have hx : (bytes "0x").length = 2 := rfl
    have hlen : (bytes "0x" ++ (hexadecimal v.toNat ++ [0])).length =
        (hexadecimal v.toNat).length + 3 := by
      simp only [List.length_append, List.length_singleton, hx]
      omega
    obtain ⟨s', hstore, hcur, htext⟩ := FixedMemory.store_add (b := s)
      (bytes "0x" ++ (hexadecimal v.toNat ++ [0])) ((hexadecimal v.toNat).length + 2)
      (by omega) (by omega)
    rw [if_pos ((avail_ge_iff _).mpr hroom), if_pos hroom]
    refine ⟨_, by simp only [hstore]; rfl, by omega, ?_⟩
    rw [htext, ← List.append_assoc, List.take_append_of_le_length (by simp [hx]; omega),
      List.take_of_length_le (by simp [hx]; omega)]
  · rw [if_neg (fun hge => hroom ((avail_ge_iff _).mp hge)), if_neg hroom, List.append_nil]
    exact ⟨s, rfl, h, rfl⟩

/-- An insertion stays inside the array; it writes its text whole or is dropped. -/
theorem insert_spec (h : s.cur ≤ FIXED_BUFFER_SIZE) (op : Insertion) :
    ∃ s', s.insert op = some s' ∧ s'.cur ≤ FIXED_BUFFER_SIZE ∧
      s'.text = s.text ++ if s.cur + op.room ≤ FIXED_BUFFER_SIZE then op.written else [] := by
  have happend := FixedMemory.append_spec (b := s) (by decide) h
  cases op with
  | char v => exact happend [v]
  | cString str =>
    cases str with
    | none => exact happend (bytes "(null)")
    | some str => exact happend (cText str)
  | string str => exact happend str
  | buffer buf => exact happend buf.data
  | integer t v => exact formatInteger_spec h t v
  | short v =>
    obtain ⟨s', hs, hcur, htext⟩ := formatInteger_spec h .int (intOfShort v)
    rw [convertInt_eq (not_least_intOfShort v), List.dropLast_concat] at htext
    exact ⟨s', hs, hcur, htext⟩
  | unsignedShort v =>
    obtain ⟨s', hs, hcur, htext⟩ := formatInteger_spec h .unsignedInt (unsignedOfShort v)
    rw [convertInt_eq (fun hleast => by cases hleast.1), List.dropLast_concat] at htext
    exact ⟨s', hs, hcur, htext⟩
  | pointer p => exact formatPointer_spec h p

end LogStream

namespace Insertion

/-- What an insertion adds to a stream of which `cur` bytes are used. -/
def added (cur : Nat) (op : Insertion) : Bytes :=
  if cur + op.room ≤ FIXED_BUFFER_SIZE then op.written else []

theorem added_length_le (cur : Nat) (op : Insertion) :
    (op.added cur).length ≤ op.rendered.length := by
  rw [added]
  split_ifs
  · exact op.written_length.le
  · exact Nat.zero_le _

/-- The room asked for has a place for the NUL behind a number, or one byte that stays free. -/
theorem written_length_lt_room (op : Insertion) : op.written.length < op.room := by
  have hnum : MAX_NUMERIC_SIZE = 48 := rfl
  have hsize : FIXED_BUFFER_SIZE = 4096 := rfl
  rw [written_length]
  cases op with
  | integer t v =>
    have hlen := decimalInt_length_le v
    simp only [rendered, room]
    omega
  | short v =>
    have hlen := decimalInt_length_le (intOfShort v)
    simp only [rendered, room]
    exact hlen.trans_lt (by decide)
  | unsignedShort v =>
    have hlen := decimalInt_length_le (unsignedOfShort v)
    simp only [rendered, room]
    exact hlen.trans_lt (by decide)
  | pointer p =>
    have hlen := hexadecimal_length_le (n := p.toNat) (k := 16) (by decide) p.toNat_lt
    have hx : (bytes "0x").length = 2 := rfl
    simp only [rendered, room, List.length_append]
    omega
  | _ => exact Nat.lt_succ_self _

/-- While there is room for every text and one number more, only a pointer can be dropped. -/
theorem added_eq_iff (op : Insertion) (before : Bytes)
    (h : before.length + op.rendered.length ≤ FIXED_BUFFER_SIZE - MAX_NUMERIC_SIZE) :
    op.added before.length = op.rendered ↔ op.ShownAfter before := by
  have hsize : FIXED_BUFFER_SIZE = 4096 := rfl
  have hnum : MAX_NUMERIC_SIZE = 48 := rfl
  rw [added]
  by_cases hp : ∃ p, op = pointer p
  · obtain ⟨p, rfl⟩ := hp
    rw [ShownAfter]
    by_cases hb : before = []
    · subst hb
      exact iff_of_true (if_pos (le_of_eq (Nat.zero_add _))) rfl
    · have hpos := List.length_pos_iff.mpr hb
      refine iff_of_false ?_ hb
      rw [if_neg (by simp only [room]; omega)]
      simp [rendered, bytes]
  · have hnot : ∀ p, op ≠ pointer p := fun p heq => hp ⟨p, heq⟩
    have hroom := op.room_le hnot
    rw [if_pos (by omega)]
    exact op.written_eq_iff before hnot

end Insertion

/-- The texts of a sequence of insertions. -/
def rendered (ops : List Insertion) : Bytes := ops.flatMap Insertion.rendered

/-- Each text comes out behind those before it. -/
def Shown (ops : List Insertion) : Prop :=
  ∀ pre op post, ops = pre ++ op :: post → op.ShownAfter (rendered pre)

theorem rendered_concat (ops : List Insertion) (op : Insertion) :
    rendered (ops ++ [op]) = rendered ops ++ op.rendered := by
  simp [rendered]

theorem shown_of_forall {ops : List Insertion} (h : ∀ op ∈ ops, ∀ before, op.ShownAfter before) :
    Shown ops := by
  rintro pre op post rfl
  exact h op (by simp) _

theorem shown_concat (ops : List Insertion) (op : Insertion) :
    Shown (ops ++ [op]) ↔ Shown ops ∧ op.ShownAfter (rendered ops) := by
  constructor
  · intro h
    refine ⟨?_, h ops op [] rfl⟩
    intro pre op' post heq
    exact h pre op' (post ++ [op]) (by rw [heq]; simp)
  · rintro ⟨hops, hop⟩ pre op' post heq
    rcases List.eq_nil_or_concat post with rfl | ⟨post', last, rfl⟩
    · obtain ⟨rfl, hlast⟩ := List.append_inj' heq rfl
      obtain rfl : op = op' := by simpa using hlast
      exact hop
    · have hcons : ops ++ [op] = (pre ++ op' :: post') ++ [last] := by simpa using heq
      obtain ⟨hpre, -⟩ := List.append_inj' hcons rfl
      exact hops pre op' post' hpre

namespace LogStream

/-- An insertion adds its text to the stream, or nothing, and leaves at least one byte free. -/
theorem insert_added {s : LogStream} (h : s.cur < FIXED_BUFFER_SIZE) (op : Insertion) :
    ∃ s', s.insert op = some s' ∧ s'.cur < FIXED_BUFFER_SIZE ∧
      s'.text = s.text ++ op.added s.text.length := by
  obtain ⟨s', hs, hcur, htext⟩ := insert_spec h.le op
  have hlen := congrArg List.length htext
  have hroom := op.written_length_lt_room
  rw [List.length_append, FixedMemory.text_length hcur, FixedMemory.text_length h.le] at hlen
  rw [FixedMemory.text_length h.le]
  refine ⟨s', hs, ?_, htext⟩
  split_ifs at hlen with hfits
  · omega
  · rw [List.length_nil] at hlen
    omega

/-- Every sequence of insertions stays inside the array, and while its texts leave room for one
number more they all come out exactly when each of them does. -/
theorem insertAll_spec (s : LogStream) (ops : List Insertion) :
    ∃ s', insertAll s.reset ops = some s' ∧ s'.cur < FIXED_BUFFER_SIZE ∧
      s'.text.length ≤ (rendered ops).length ∧
      ((rendered ops).length ≤ FIXED_BUFFER_SIZE - MAX_NUMERIC_SIZE →
        (s'.text = rendered ops ↔ Shown ops)) := by
  induction ops using List.reverseRecOn with
  | nil =>
    refine ⟨s.reset, rfl, Nat.succ_pos _, le_refl _, fun _ => iff_of_true rfl ?_⟩
    intro pre op post heq
    simp at heq
  | append_singleton ops op ih =>
    obtain ⟨s1, hs1, hcur1, hle, hiff⟩ := ih
    obtain ⟨s2, hs2, hcur2, htext⟩ := insert_added hcur1 op
    have hadded := op.added_length_le s1.text.length
    refine ⟨s2, ?_, hcur2, ?_, ?_⟩
    · rw [insertAll, List.foldlM_append]
      rw [insertAll] at hs1
      simp only [hs1, List.foldlM_cons, List.foldlM_nil]
      simp [hs2]
    · rw [htext, rendered_concat, List.length_append, List.length_append]
      omega
    · intro hfits
      rw [rendered_concat, List.length_append] at hfits
      rw [htext, rendered_concat, shown_concat, ← hiff (by omega)]
      constructor
      · intro heq
        -- neither part is longer than its text, so both are whole
        have hlen := congrArg List.length heq
        rw [List.length_append, List.length_append] at hlen
        obtain ⟨hfirst, hlast⟩ := List.append_inj heq (by omega)
        rw [hfirst] at hlast
        exact ⟨hfirst, (op.added_eq_iff _ hfits).mp hlast⟩
      · rintro ⟨hfirst, hlast⟩
        rw [hfirst, (op.added_eq_iff _ hfits).mpr hlast]

end LogStream

/-- The stream holds the texts of the insertions, one behind the other, if they leave room for one
number more; and whatever is inserted, `cur_` and every write stay inside `data_`. -/
structure Concatenates (s : LogStream) (ops : List Insertion) : Prop where
  text : (rendered ops).length ≤ FIXED_BUFFER_SIZE - MAX_NUMERIC_SIZE →
    ∃ s', LogStream.insertAll s.reset ops = some s' ∧ s'.text = rendered ops
  inBounds : ∃ s', LogStream.insertAll s.reset ops = some s' ∧ s'.cur ≤ FIXED_BUFFER_SIZE

theorem Concatenates.shown {s : LogStream} {ops : List Insertion} (h : Concatenates s ops)
    (hfits : (rendered ops).length ≤ FIXED_BUFFER_SIZE - MAX_NUMERIC_SIZE) : Shown ops := by
  obtain ⟨s', hs, -, -, hiff⟩ := LogStream.insertAll_spec s ops
  obtain ⟨s1, hs1, htext⟩ := h.text hfits
  obtain rfl : s' = s1 := Option.some.inj (hs.symm.trans hs1)
  exact (hiff hfits).mp htext

/-- Insertions concatenate exactly when each pointer is the first text of the stream and no integer
is the least value of its type. -/
theorem concatenates_iff (s : LogStream) (ops : List Insertion) :
    Concatenates s ops ↔
      ((rendered ops).length ≤ FIXED_BUFFER_SIZE - MAX_NUMERIC_SIZE → Shown ops) := by
  constructor
  · exact Concatenates.shown
  · intro h
    obtain ⟨s', hs, hcur, -, hiff⟩ := LogStream.insertAll_spec s ops
    exact ⟨fun hfits => ⟨s', hs, (hiff hfits).mpr (h hfits)⟩, ⟨s', hs, hcur.le⟩⟩

/-- A pointer behind a text asks for room for the whole array, and is dropped. -/
theorem pointer_dropped :
    ¬Concatenates ⟨List.replicate FIXED_BUFFER_SIZE 0, List.length_replicate, 0⟩
      [.cString (some (bytes "p=")), .pointer 255] := by
  intro h
  have hshown := h.shown (by decide)
  have hfirst : rendered [.cString (some (bytes "p="))] = [] :=
    hshown [.cString (some (bytes "p="))] (.pointer 255) [] rfl
  exact absurd hfirst (by decide)

end MuduoServer
