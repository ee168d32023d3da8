import MuduoServer.Log.DoubleText

namespace MuduoServer

/-- What stands behind a `<<` of a log statement. Numbers with a point are given by their bits. -/
inductive Operand
  | insertion (op : Insertion)
  | double (v : UInt64)
  | float (v : UInt32)

namespace LogStream

/-- `operator<<`, for the floating-point types as well. -/
def insertOperand (s : LogStream) : Operand → Option LogStream
  | .insertion op => s.insert op
  | .double v => s.insertDouble v
  | .float v => s.insertDouble (doubleOfFloat v)

def insertOperands (s : LogStream) (ops : List Operand) : Option LogStream :=
  ops.foldlM insertOperand s

variable {s : LogStream}

theorem insertOperands_append (s : LogStream) (ops ops' : List Operand) :
    s.insertOperands (ops ++ ops') = (s.insertOperands ops).bind (·.insertOperands ops') :=
  List.foldlM_append

theorem insertOperands_map (s : LogStream) (ops : List Insertion) :
    s.insertOperands (ops.map .insertion) = s.insertAll ops :=
  List.foldlM_map

/-- Every operand leaves at least one byte of the array free. -/
theorem insertOperand_inside (h : s.cur < FIXED_BUFFER_SIZE) (op : Operand) :
    ∃ s', s.insertOperand op = some s' ∧ s'.cur < FIXED_BUFFER_SIZE := by
  cases op with
  | insertion op =>
    obtain ⟨s', hs, hcur, -⟩ := insert_added h op
    exact ⟨s', hs, hcur⟩
  | double v => exact insertDouble_inside h v
  | float v => exact insertDouble_inside h (doubleOfFloat v)

theorem insertOperands_inside (h : s.cur < FIXED_BUFFER_SIZE) (ops : List Operand) :
    ∃ s', s.insertOperands ops = some s' ∧ s'.cur < FIXED_BUFFER_SIZE := by
  induction ops generalizing s with
  | nil => exact ⟨s, rfl, h⟩
  | cons op ops ih =>
    obtain ⟨mid, hmid, hcur⟩ := insertOperand_inside h op
    obtain ⟨s', hs, hcur'⟩ := ih hcur
    refine ⟨s', ?_, hcur'⟩
    rw [insertOperands, List.foldlM_cons, hmid]
    exact hs

end LogStream

/-- `Logger::LogLevel`. -/
inductive LogLevel
  | TRACE | DEBUG | INFO | WARN | ERROR | FATAL
  deriving DecidableEq, Repr

def LogLevelName : LogLevel → Bytes
  | .TRACE => bytes "[TRACE] "
  | .DEBUG => bytes "[DEBUG] "
  | .INFO => bytes "[INFO] "
  | .WARN => bytes "[WARN] "
  | .ERROR => bytes "[ERROR] "
  | .FATAL => bytes "[FATAL] "

/-- `SourceFile(filename)`: what `strrchr` leaves behind the last slash. -/
def sourceFile (filename : Bytes) : Bytes :=
  ((cText filename).reverse.takeWhile (· ≠ 47)).reverse

/-- What the constructor of a `Logger` writes of. `time` is the C string in `t_time` and `tid` the
one in `t_formattedTid`; `func` is there for the constructor that takes a function's name. -/
structure Logger where
  level : LogLevel
  filename : Bytes
  line : IntType.int.Value
  func : Option Bytes
  time : Bytes
  tid : Bytes

namespace Logger

/-- `formatTime`. -/
def formatTime (l : Logger) : List Insertion := [.cString (some l.time), .char 32]

/-- `Wrapper(level, file, line)`. -/
def wrapper (l : Logger) : List Insertion :=
  l.formatTime ++
    [.cString (some l.tid), .char 32, .cString (some (LogLevelName l.level)), .char 40,
      .string (sourceFile l.filename), .char 58, .integer .int l.line, .cString (some (bytes ") "))]

/-- The constructors. -/
def prologue (l : Logger) : List Insertion :=
  l.wrapper ++ match l.func with
    | some func => [.char 91, .cString (some func), .cString (some (bytes "] "))]
    | none => []

/-- `finish`, from the destructor. -/
def finish (stream : LogStream) : Option LogStream := stream.insert (.char LF)

/-- The stream of a log statement when the destructor is called. -/
def statement (l : Logger) (memory : LogStream) (ops : List Operand) : Option LogStream :=
  LogStream.insertOperands memory.reset (l.prologue.map .insertion ++ ops)

/-- What the destructor hands to `g_output`. -/
def output (stream : LogStream) : Option Bytes := (finish stream).map FixedMemory.text

end Logger

/-- The record of a stream is a line. -/
def EndsLine (stream : LogStream) : Prop :=
  ∃ text, Logger.output stream = some text ∧ text.getLast? = some LF

/-- A line feed ends the record unless one byte of the array is left. -/
theorem endsLine_iff {stream : LogStream} (h : stream.cur ≤ FIXED_BUFFER_SIZE) :
    EndsLine stream ↔ stream.cur + 1 < FIXED_BUFFER_SIZE ∨ stream.text.getLast? = some LF := by
  obtain ⟨s', hs, -, htext⟩ := LogStream.insert_spec h (.char LF)
  have hroom : (Insertion.char LF).room = 2 := rfl
  have hout : Logger.output stream = some s'.text := by
    rw [Logger.output, Logger.finish, hs]
    rfl
  rw [hroom] at htext
  rw [EndsLine]
  simp only [hout, Option.some.injEq, exists_eq_left']
  by_cases hlt : stream.cur + 2 ≤ FIXED_BUFFER_SIZE
  · rw [if_pos hlt] at htext
    rw [htext]
    refine iff_of_true ?_ (.inl hlt)
    rw [List.getLast?_append]
    rfl
  · rw [if_neg hlt, List.append_nil] at htext
    rw [htext]
    constructor
    · exact .inr
    · rintro (hlt' | hlast)
      · exact (hlt hlt').elim
      · exact hlast

/-- Every log statement reaches its destructor, and its record is a line exactly when by then its
text does not fill the array up to the last byte, or ends with a line feed of its own. -/
theorem record_is_line_iff (l : Logger) (memory : LogStream) (ops : List Operand) :
    ∃ stream, l.statement memory ops = some stream ∧
      (EndsLine stream ↔
        stream.text.length ≠ FIXED_BUFFER_SIZE - 1 ∨ stream.text.getLast? = some LF) := by
  obtain ⟨stream, hs, hcur⟩ := LogStream.insertOperands_inside (s := memory.reset)
    (Nat.succ_pos _) (l.prologue.map .insertion ++ ops)
  refine ⟨stream, hs, ?_⟩
  have hfull : stream.cur + 1 < FIXED_BUFFER_SIZE ↔ stream.cur ≠ FIXED_BUFFER_SIZE - 1 := by omega
  rw [endsLine_iff hcur.le, hfull, FixedMemory.text_length hcur.le]

namespace Logger

/-- Before the insertions of the statement nothing is dropped for its kind. -/
theorem prologue_shown {l : Logger} (h : ¬IntType.Least l.line) : Shown l.prologue := by
  apply shown_of_forall
  intro op hop before
  cases op with
  | pointer p =>
    unfold prologue wrapper formatTime at hop
    cases hf : l.func <;> simp [hf] at hop
  | integer t v =>
    obtain ⟨rfl, hv⟩ : t = .int ∧ v ≍ l.line := by
      unfold prologue wrapper formatTime at hop
      cases hf : l.func <;> simpa [hf] using hop
    rw [eq_of_heq hv]
    exact h
  | _ => trivial

/-- A string that fills the array up to the last byte. -/
def filler (l : Logger) : Insertion :=
  .string (List.replicate (FIXED_BUFFER_SIZE - 1 - (rendered l.prologue).length) 120)

/-- The record of a statement that fills the array does not end. -/
theorem filler_not_line {l : Logger} (hline : ¬IntType.Least l.line)
    (hshort : (rendered l.prologue).length < FIXED_BUFFER_SIZE - MAX_NUMERIC_SIZE)
    (memory : LogStream) :
    ∃ stream, l.statement memory [.insertion l.filler] = some stream ∧ ¬EndsLine stream := by
  have hnum : MAX_NUMERIC_SIZE = 48 := rfl
  have hsize : FIXED_BUFFER_SIZE = 4096 := rfl
  obtain ⟨s1, hs1, hcur1, -, hiff⟩ := LogStream.insertAll_spec memory l.prologue
  have htext1 := (hiff hshort.le).mpr (prologue_shown hline)
  obtain ⟨s2, hs2, hcur2, htext2⟩ := LogStream.insert_added hcur1 l.filler
  have hlen : (List.replicate (FIXED_BUFFER_SIZE - 1 - (rendered l.prologue).length)
      (120 : UInt8)).length = FIXED_BUFFER_SIZE - 1 - (rendered l.prologue).length :=
    List.length_replicate
  have hadded : l.filler.added (rendered l.prologue).length =
      List.replicate (FIXED_BUFFER_SIZE - 1 - (rendered l.prologue).length) 120 := by
    rw [Insertion.added]
    refine if_pos ?_
    simp only [filler, Insertion.room, Insertion.rendered]
    omega
  rw [htext1, hadded] at htext2
  refine ⟨s2, ?_, ?_⟩
  · rw [statement, LogStream.insertOperands_append, LogStream.insertOperands_map, hs1,
      Option.bind_some, LogStream.insertOperands, List.foldlM_cons]
    show (s1.insert l.filler).bind _ = some s2
    rw [hs2]
    rfl
  · rw [endsLine_iff hcur2.le]
    rw [← FixedMemory.text_length hcur2.le, htext2]
    rintro (hlt | hlast)
    · rw [List.length_append, hlen] at hlt
      omega
    · have hpos : FIXED_BUFFER_SIZE - 1 - (rendered l.prologue).length ≠ 0 := by omega
      rw [List.getLast?_append, List.getLast?_replicate, if_neg hpos, Option.some_or] at hlast
      exact absurd hlast (by decide)

def sample : Logger where
  level := .INFO
  filename := bytes "src/main.cc"
  line := ⟨7, by decide, by decide⟩
  func := none
  time := bytes "2025-01-31 12:00:00.000000"
  tid := bytes "<7>"

/-- A statement whose text fills the array: its record is not a line. -/
theorem sample_not_line :
    ∃ stream, sample.statement ⟨List.replicate FIXED_BUFFER_SIZE 0, List.length_replicate, 0⟩
      [.insertion sample.filler] = some stream ∧ ¬EndsLine stream := by
  apply filler_not_line
  · decide
  · decide

end Logger

end MuduoServer
