import Mathlib.Data.List.Dedup
import MuduoServer.Base.AppendFile

namespace MuduoServer

/-- A call of `LogFile::append`, with what `TimeStamp::now()` is during it, in microseconds. -/
structure LogCall where
  line : Bytes
  now : Nat
  deriving DecidableEq, Repr

/-- An opening of a file: the name, the second, the stream, and the calls that have written to it.
The file is opened in append mode, behind what it may have from an opening before. -/
structure OpenedFile where
  name : Bytes
  file : AppendFile
  second : Nat
  calls : List LogCall

namespace OpenedFile

def new (name : Bytes) (second : Nat) : OpenedFile := ⟨name, .new, second, []⟩

/-- `file_->append(logline, len)`. -/
def append (f : OpenedFile) (call : LogCall) : OpenedFile :=
  { f with file := f.file.append call.line, calls := f.calls ++ [call] }

end OpenedFile

/-- `TimeStamp::getSecond`. -/
def getSecond (now : Nat) : Nat := now / 1000000

/-- What a file name has of a `struct tm`: the year in full, and the month counted from one. -/
structure Tm where
  year : Nat
  month : Nat
  day : Nat
  hour : Nat
  minute : Nat
  second : Nat

/-- The constants of a `LogFile`, and what its file names are made of. -/
structure LogFileParams where
  rollSize : Nat
  checkEveryN : Nat
  period : Nat
  localtime_r : Nat → Tm
  hostname : Bytes
  pid : Nat
  checkEveryN_pos : 1 ≤ checkEveryN
  period_pos : 1 ≤ period

/-- `LogFile`; `file` is `none` while `file_` is null, and `closed` are the files before it. The
directory has none of them at first. -/
structure LogFile where
  lastRoll : Nat
  count : Nat
  periodStartingPoint : Nat
  file : Option OpenedFile
  closed : List OpenedFile

/-- A number in at least `width` characters. -/
def padded (width : Nat) (pad : UInt8) (n : Nat) : Bytes :=
  List.replicate (width - (decimal n).length) pad ++ decimal n

namespace LogFile

variable (p : LogFileParams)

/-- The format is `%4d%02d%02d-%02d%02d%02d`. -/
def getLogFileName (now : Nat) : Bytes :=
  let tm := p.localtime_r (getSecond now)
  padded 4 32 tm.year ++ padded 2 48 tm.month ++ padded 2 48 tm.day ++ 45 ::
    (padded 2 48 tm.hour ++ padded 2 48 tm.minute ++ padded 2 48 tm.second) ++ 46 ::
    p.hostname ++ 46 :: decimal p.pid ++ bytes ".log"

def rollFile (l : LogFile) (now : Nat) : LogFile :=
  let nowInSecond := getSecond now
  if nowInSecond > l.lastRoll then
    { l with
      lastRoll := nowInSecond
      file := some (.new (getLogFileName p now) nowInSecond)
      closed := l.closed ++ l.file.toList }
  else l

/-- The constructor. -/
def new (now : Nat) : LogFile :=
  let l : LogFile := ⟨0, 0, 0, none, []⟩
  let l := l.rollFile p now
  { l with periodStartingPoint := getSecond now / p.period * p.period }

/-- What `append` does behind the write to a file that is not too large. -/
def checkPeriod (l : LogFile) (now : Nat) : LogFile :=
  let l := { l with count := l.count + 1 }
  if l.count ≥ p.checkEveryN then
    let l := { l with count := 0 }
    let thisPeriod := getSecond now / p.period * p.period
    if thisPeriod ≠ l.periodStartingPoint then
      { l with periodStartingPoint := thisPeriod }.rollFile p now
    else l
  else l

/-- `append`. `none` is the use of the null pointer. -/
def append (l : LogFile) (call : LogCall) : Option LogFile :=
  match l.file with
  | none => none
  | some f =>
    let f := f.append call
    let l := { l with file := some f }
    if f.file.writtenBytes > p.rollSize then some (l.rollFile p call.now)
    else some (l.checkPeriod p call.now)

def appendAll (l : LogFile) (calls : List LogCall) : Option LogFile := calls.foldlM (append p) l

/-- The openings, in their order. -/
def opened (l : LogFile) : List OpenedFile := l.closed ++ l.file.toList

/-- The names of the openings. -/
def openedNames (l : LogFile) : List Bytes := l.opened.map OpenedFile.name

/-- The names of the files, in the order in which they were first opened. -/
def names (l : LogFile) : List Bytes := l.openedNames.reverse.dedup.reverse

/-- What a file has: what was written to it after each of its openings. -/
def content (l : LogFile) (name : Bytes) : Bytes :=
  (l.opened.filter fun f => f.name = name).flatMap fun f => f.file.content

/-- The calls that have written to a file. -/
def callsTo (l : LogFile) (name : Bytes) : List LogCall :=
  (l.opened.filter fun f => f.name = name).flatMap OpenedFile.calls

/-- A call opens a file: its second is not the one of the last roll, and the file has become too
large, or it is time to compare the periods and they differ. -/
def Opens (l : LogFile) (call : LogCall) : Prop :=
  l.lastRoll < getSecond call.now ∧ ∃ f ∈ l.file,
    p.rollSize < (f.append call).file.writtenBytes ∨
      p.checkEveryN ≤ l.count + 1 ∧
        getSecond call.now / p.period * p.period ≠ l.periodStartingPoint

/-- No call opens a file that was opened before. -/
def OpensNew : LogFile → List LogCall → Prop
  | _, [] => True
  | l, call :: calls => (l.Opens p call → getLogFileName p call.now ∉ l.openedNames) ∧
    ∀ l' ∈ l.append p call, OpensNew l' calls

instance (l : LogFile) (call : LogCall) : Decidable (l.Opens p call) :=
  inferInstanceAs (Decidable (_ ∧ _))

instance decidableOpensNew : (l : LogFile) → (calls : List LogCall) → Decidable (OpensNew p l calls)
  | _, [] => instDecidableTrue
  | l, call :: calls =>
    have (l' : LogFile) : Decidable (OpensNew p l' calls) := decidableOpensNew l' calls
    inferInstanceAs (Decidable ((_ → _) ∧ ∀ l' ∈ l.append p call, OpensNew p l' calls))

/-- What is to hold of the files behind the calls, the last of which has read `last`. -/
structure Rolls (l : LogFile) (calls : List LogCall) (last : Nat) : Prop where
  content : (l.names.flatMap l.content) = calls.flatMap LogCall.line
  size : ∀ f, l.file = some f → p.rollSize < (l.content f.name).length → f.second = getSecond last
  late : ∀ f ∈ l.opened, ((l.callsTo f.name).filter fun call =>
    f.second / p.period < getSecond call.now / p.period).length ≤ p.checkEveryN

end LogFile

namespace OpenedFile

variable (p : LogFileParams)

/-- The calls in later periods than the one of the opening. -/
def late (f : OpenedFile) : List LogCall :=
  f.calls.filter fun call => f.second / p.period < getSecond call.now / p.period

/-- The stream was given the lines of the calls. -/
structure Written (f : OpenedFile) : Prop where
  content : f.file.content = f.calls.flatMap LogCall.line
  writtenBytes : f.file.writtenBytes = f.file.content.length

end OpenedFile

namespace LogFile

variable {p : LogFileParams} {l : LogFile}

/-- What holds between the calls, for a file `f` that is open and `last` the last reading of the
clock: until the next check no period later than that of `f` is recorded, and `count_` counts the
lines of later periods. -/
structure Rolling (p : LogFileParams) (l : LogFile) (last : Nat) (f : OpenedFile) : Prop where
  file : l.file = some f
  written : f.Written
  second : f.second = l.lastRoll
  lastRoll_le : l.lastRoll ≤ getSecond last
  calls_le : ∀ call ∈ f.calls, call.now ≤ last
  count_lt : l.count < p.checkEveryN
  late_le : (f.late p).length ≤ l.count
  period_le : l.periodStartingPoint ≤ l.lastRoll / p.period * p.period
  size : p.rollSize < f.file.content.length → f.second = getSecond last

/-- What holds of the files that were closed. -/
def Closed (p : LogFileParams) (f : OpenedFile) : Prop :=
  f.Written ∧ (f.late p).length ≤ p.checkEveryN

theorem getSecond_mono {a b : Nat} (h : a ≤ b) : getSecond a ≤ getSecond b :=
  Nat.div_le_div_right h

theorem written_new (name : Bytes) (second : Nat) : (OpenedFile.new name second).Written :=
  ⟨rfl, rfl⟩

theorem Written.append {f : OpenedFile} (h : f.Written) (call : LogCall) :
    (f.append call).Written where
  content := by simp [OpenedFile.append, AppendFile.append, h.content]
  writtenBytes := by simp [OpenedFile.append, AppendFile.append, h.writtenBytes]

theorem late_append_le (f : OpenedFile) (call : LogCall) :
    ((f.append call).late p).length ≤ (f.late p).length + 1 := by
  simp only [OpenedFile.late, OpenedFile.append, List.filter_append, List.length_append]
  exact Nat.add_le_add_left (List.length_filter_le _ [call]) _

/-- No line is late while the period in which the file was opened lasts. -/
theorem late_eq_nil {f : OpenedFile} {now : Nat} (hle : ∀ call ∈ f.calls, call.now ≤ now)
    (hperiod : getSecond now / p.period ≤ f.second / p.period) : f.late p = [] := by
  rw [OpenedFile.late, List.filter_eq_nil_iff]
  intro call hmem
  have hcall := Nat.div_le_div_right (c := p.period) (getSecond_mono (hle call hmem))
  simp only [decide_eq_true_eq]
  omega

/-- A roll in a later second opens a file; the openings before it stay as they are. -/
theorem rollFile_later {now : Nat} (hlt : l.lastRoll < getSecond now)
    (hcount : l.count < p.checkEveryN)
    (hperiod : l.periodStartingPoint ≤ getSecond now / p.period * p.period) :
    Rolling p (l.rollFile p now) now (.new (getLogFileName p now) (getSecond now)) ∧
      (l.rollFile p now).closed = l.opened := by
  rw [rollFile]
  simp only [if_pos hlt]
  refine ⟨⟨rfl, written_new _ _, rfl, le_refl _, ?_, hcount, Nat.zero_le _, hperiod, ?_⟩, rfl⟩
  · intro call hmem
    cases hmem
  · intro hsize
    cases hsize

theorem rollFile_same {now : Nat} (h : getSecond now ≤ l.lastRoll) : l.rollFile p now = l :=
  if_neg (Nat.not_lt.mpr h)

theorem Rolling.calls_append {last : Nat} {f : OpenedFile} (h : Rolling p l last f)
    {call : LogCall} (hle : last ≤ call.now) : ∀ call' ∈ (f.append call).calls,
    call'.now ≤ call.now := by
  intro call' hmem
  rcases List.mem_append.mp hmem with hmem | hmem
  · exact (h.calls_le call' hmem).trans hle
  · rw [List.mem_singleton.mp hmem]

/-- A call that does not roll: the file stays open. -/
theorem Rolling.kept {last : Nat} {f : OpenedFile} (h : Rolling p l last f) {call : LogCall}
    (hle : last ≤ call.now) {count periodStartingPoint : Nat} (hcount : count < p.checkEveryN)
    (hlate : ((f.append call).late p).length ≤ count)
    (hperiod : periodStartingPoint ≤ l.lastRoll / p.period * p.period)
    (hsize : p.rollSize < (f.append call).file.writtenBytes → f.second = getSecond call.now) :
    Rolling p { l with
      count := count, periodStartingPoint := periodStartingPoint, file := some (f.append call) }
      call.now (f.append call) where
  file := rfl
  written := Written.append h.written call
  second := h.second
  lastRoll_le := h.lastRoll_le.trans (getSecond_mono hle)
  calls_le := h.calls_append hle
  count_lt := hcount
  late_le := hlate
  period_le := hperiod
  size := fun hlt => hsize ((Written.append h.written call).writtenBytes.symm ▸ hlt)

/-- What a call makes of the open file: it stays open with the line, or it is closed with it and a
file of a later second is open. -/
def Continues (p : LogFileParams) (l l' : LogFile) (f f' : OpenedFile) (call : LogCall) : Prop :=
  f' = f.append call ∧ l'.closed = l.closed ∨
    f' = .new (getLogFileName p call.now) (getSecond call.now) ∧
      l'.closed = l.closed ++ [f.append call] ∧
      Closed p (f.append call) ∧ f.second < getSecond call.now ∧ l.Opens p call

/-- A roll behind the write opens a file unless it is in the second of the last one. -/
theorem Rolling.roll {last : Nat} {f : OpenedFile} (h : Rolling p l last f) {call : LogCall}
    (hle : last ≤ call.now) {count periodStartingPoint : Nat} (hcount : count < p.checkEveryN)
    (hperiod : periodStartingPoint ≤ getSecond call.now / p.period * p.period)
    (hopens : p.rollSize < (f.append call).file.writtenBytes ∨ p.checkEveryN ≤ l.count + 1 ∧
      getSecond call.now / p.period * p.period ≠ l.periodStartingPoint) :
    ∃ l' f', { l with
        count := count
        periodStartingPoint := periodStartingPoint
        file := some (f.append call) }.rollFile p call.now = l' ∧
      Rolling p l' call.now f' ∧ Continues p l l' f f' call := by
  have hlast := h.lastRoll_le.trans (getSecond_mono hle)
  by_cases hroll : l.lastRoll < getSecond call.now
  · have hlateOne := late_append_le (p := p) f call
    have hlate := h.late_le
    have hold := h.count_lt
    have hclosed : Closed p (f.append call) := ⟨Written.append h.written call, by omega⟩
    obtain ⟨hnew, hfiles⟩ := rollFile_later (l := { l with
        count := count
        periodStartingPoint := periodStartingPoint
        file := some (f.append call) }) hroll hcount hperiod
    exact ⟨_, _, rfl, hnew, .inr ⟨rfl, hfiles, hclosed, h.second.trans_lt hroll, hroll, f, h.file,
      hopens⟩⟩
  · have hsec : l.lastRoll = getSecond call.now := by omega
    rw [rollFile_same]
    · refine ⟨_, _, rfl, h.kept hle hcount ?_ (by rw [hsec]; exact hperiod)
        fun _ => h.second.trans hsec, .inl ⟨rfl, rfl⟩⟩
      -- no line of the file is later than its second
      rw [late_eq_nil (h.calls_append hle)]
      · exact Nat.zero_le _
      · exact Nat.div_le_div_right (hsec.symm.trans h.second.symm).le
    · exact hsec.ge

/-- A call writes its line to the open file, and may then open another one. -/
theorem Rolling.append {last : Nat} {f : OpenedFile} (h : Rolling p l last f) {call : LogCall}
    (hle : last ≤ call.now) :
    ∃ l' f', l.append p call = some l' ∧ Rolling p l' call.now f' ∧
      Continues p l l' f f' call := by
  have hlateOne := late_append_le (p := p) f call
  have hlate := h.late_le
  have hcount := h.count_lt
  have hperiod := h.period_le.trans (Nat.mul_le_mul_right p.period
    (Nat.div_le_div_right (h.lastRoll_le.trans (getSecond_mono hle))))
  simp only [LogFile.append, h.file]
  by_cases hsize : (f.append call).file.writtenBytes > p.rollSize
  · rw [if_pos hsize]
    obtain ⟨l', f', rfl, hl'⟩ := h.roll hle hcount hperiod (.inl hsize)
    exact ⟨_, f', rfl, hl'⟩
  · rw [if_neg hsize]
    have hsmall : p.rollSize < (f.append call).file.writtenBytes → f.second = getSecond call.now :=
      fun hlt => (hsize hlt).elim
    rw [checkPeriod]
    dsimp only
    by_cases hcheck : l.count + 1 ≥ p.checkEveryN
    · rw [if_pos hcheck]
      by_cases hthis : getSecond call.now / p.period * p.period ≠ l.periodStartingPoint
      · rw [if_pos hthis]
        obtain ⟨l', f', rfl, hl'⟩ := h.roll hle p.checkEveryN_pos (le_refl _)
          (.inr ⟨hcheck, hthis⟩)
        exact ⟨_, f', rfl, hl'⟩
      · -- the period recorded is no later than that of the file, so none of its lines is late
        rw [if_neg hthis]
        have hsame : getSecond call.now / p.period ≤ f.second / p.period := by
          have heq := not_not.mp hthis
          rw [h.second]
          exact Nat.le_of_mul_le_mul_right (heq.le.trans h.period_le) p.period_pos
        refine ⟨_, _, rfl, h.kept hle p.checkEveryN_pos ?_ h.period_le hsmall, .inl ⟨rfl, rfl⟩⟩
        rw [late_eq_nil (h.calls_append hle) hsame]
        exact Nat.zero_le _
    · rw [if_neg hcheck]
      exact ⟨_, _, rfl, h.kept hle (by omega) (by omega) h.period_le hsmall, .inl ⟨rfl, rfl⟩⟩

/-- A run of calls, the first no earlier than `start`, by a clock that does not go back. -/
def Clocked (start : Nat) (calls : List LogCall) : Prop :=
  (start :: calls.map LogCall.now).Pairwise (· ≤ ·)

instance (start : Nat) (calls : List LogCall) : Decidable (Clocked start calls) :=
  inferInstanceAs (Decidable (List.Pairwise _ _))

/-- What holds after the calls: one file is open, and every call has written its line. -/
def Logged (p : LogFileParams) (l : LogFile) (last : Nat) (calls : List LogCall) : Prop :=
  ∃ f, Rolling p l last f ∧ (∀ g ∈ l.closed, Closed p g ∧ g.second < f.second) ∧
    l.closed.Pairwise (fun g g' => g.second < g'.second) ∧
    l.opened.flatMap (fun g => g.calls) = calls

theorem opened_eq {f : OpenedFile} (h : l.file = some f) : l.opened = l.closed ++ [f] := by
  rw [opened, h]
  rfl

theorem new_file {now : Nat} (h : 0 < getSecond now) :
    new p now = ⟨getSecond now, 0, getSecond now / p.period * p.period,
      some (.new (getLogFileName p now) (getSecond now)), []⟩ := by
  have hroll : (⟨0, 0, 0, none, []⟩ : LogFile).rollFile p now =
      ⟨getSecond now, 0, 0, some (.new (getLogFileName p now) (getSecond now)), []⟩ := if_pos h
  rw [new]
  simp only [hroll]

/-- In the first second of the clock no file is opened, and the first call uses the null pointer. -/
theorem append_new_null {now : Nat} (h : getSecond now = 0) (call : LogCall) :
    (new p now).append p call = none := by
  have hroll : (⟨0, 0, 0, none, []⟩ : LogFile).rollFile p now = ⟨0, 0, 0, none, []⟩ :=
    rollFile_same h.le
  rw [new]
  simp only [hroll]
  rfl

theorem new_logged {now : Nat} (h : 0 < getSecond now) : Logged p (new p now) now [] := by
  rw [new_file h]
  refine ⟨_, ⟨rfl, written_new _ _, rfl, le_refl _, ?_, p.checkEveryN_pos, Nat.zero_le _, le_refl _,
    fun _ => rfl⟩, ?_, .nil, rfl⟩
  · intro call hmem
    cases hmem
  · intro g hmem
    cases hmem

theorem Logged.append {last : Nat} {calls : List LogCall} (h : Logged p l last calls)
    {call : LogCall} (hle : last ≤ call.now) :
    ∃ l', l.append p call = some l' ∧ Logged p l' call.now (calls ++ [call]) ∧
      (l'.openedNames = l.openedNames ∨
        l.Opens p call ∧ l'.openedNames = l.openedNames ++ [getLogFileName p call.now]) := by
  obtain ⟨f, hf, hclosed, hsorted, hcalls⟩ := h
  obtain ⟨l', f', happend, hf', hcase⟩ := hf.append hle
  rw [opened_eq hf.file, List.flatMap_append, List.flatMap_singleton] at hcalls
  refine ⟨l', happend, ⟨f', hf', ?_, ?_, ?_⟩, ?_⟩
  · rcases hcase with ⟨rfl, hkept⟩ | ⟨rfl, hkept, hnew, hlater, -⟩
    · rw [hkept]
      exact hclosed
    · rw [hkept]
      intro g hmem
      rcases List.mem_append.mp hmem with hmem | hmem
      · exact ⟨(hclosed g hmem).1, (hclosed g hmem).2.trans hlater⟩
      · rw [List.mem_singleton.mp hmem]
        exact ⟨hnew, hlater⟩
  · rcases hcase with ⟨-, hkept⟩ | ⟨-, hkept, -⟩
    · rw [hkept]
      exact hsorted
    · rw [hkept, List.pairwise_append]
      refine ⟨hsorted, List.pairwise_singleton _ _, ?_⟩
      intro g hmem g' hmem'
      rw [List.mem_singleton.mp hmem']
      exact (hclosed g hmem).2
  · rw [opened_eq hf'.file, List.flatMap_append, List.flatMap_singleton, ← hcalls]
    rcases hcase with ⟨rfl, hkept⟩ | ⟨rfl, hkept, -⟩
    · simp [hkept, OpenedFile.append]
    · simp [hkept, OpenedFile.append, OpenedFile.new]
  · rw [openedNames, openedNames, opened_eq hf'.file, opened_eq hf.file]
    rcases hcase with ⟨rfl, hkept⟩ | ⟨rfl, hkept, -, -, hopens⟩
    · left
      rw [hkept, List.map_append, List.map_append]
      rfl
    · right
      refine ⟨hopens, ?_⟩
      rw [hkept, List.map_append, List.map_append, List.map_append]
      rfl

/-- The last reading of the clock. -/
def lastReading (start : Nat) (calls : List LogCall) : Nat :=
  (calls.getLast?.map LogCall.now).getD start

theorem lastReading_cons (start : Nat) (call : LogCall) (calls : List LogCall) :
    lastReading start (call :: calls) = lastReading call.now calls := by
  rw [lastReading, lastReading, List.getLast?_cons]
  cases calls.getLast? <;> rfl

/-- Calls that open no file twice find an open file, and each leaves its line. -/
theorem Logged.appendAll {last : Nat} {before calls : List LogCall} (h : Logged p l last before)
    (hnodup : l.openedNames.Nodup) (hclock : Clocked last calls) (hnew : OpensNew p l calls) :
    ∃ l', l.appendAll p calls = some l' ∧
      Logged p l' (lastReading last calls) (before ++ calls) ∧ l'.openedNames.Nodup := by
  induction calls generalizing l last before with
  | nil => exact ⟨l, rfl, by rwa [List.append_nil], hnodup⟩
  | cons call calls ih =>
    rw [Clocked, List.map_cons, List.pairwise_cons] at hclock
    obtain ⟨mid, hmid, hlogged, hnames⟩ := h.append (hclock.1 call.now List.mem_cons_self)
    have hnodup' : mid.openedNames.Nodup := by
      rcases hnames with hsame | ⟨hopens, hmore⟩
      · rwa [hsame]
      · rw [hmore, ← List.concat_eq_append]
        exact List.Nodup.concat (hnew.1 hopens) hnodup
    obtain ⟨l', hl', hlogged', hlast⟩ := ih hlogged hnodup' hclock.2 (hnew.2 mid hmid)
    refine ⟨l', ?_, ?_, hlast⟩
    · rw [LogFile.appendAll, List.foldlM_cons, hmid]
      exact hl'
    · rw [lastReading_cons]
      rwa [List.append_assoc] at hlogged'

/-- A name that was opened once leads to its opening. -/
theorem filter_name (hnodup : l.openedNames.Nodup) {f : OpenedFile} (hf : f ∈ l.opened) :
    (l.opened.filter fun g => g.name = f.name) = [f] := by
  rw [openedNames] at hnodup
  generalize l.opened = fs at hnodup hf
  obtain ⟨before, after, rfl⟩ := List.append_of_mem hf
  rw [List.map_append, List.map_cons, List.nodup_middle, ← List.map_append,
    List.nodup_cons] at hnodup
  have hother : ∀ g ∈ before ++ after, ¬decide (g.name = f.name) = true := by
    intro g hg hname
    exact hnodup.1 (of_decide_eq_true hname ▸ List.mem_map_of_mem hg)
  rw [List.filter_append, List.filter_cons_of_pos (by simp),
    List.filter_eq_nil_iff.mpr fun g hg => hother g (List.mem_append_left _ hg),
    List.filter_eq_nil_iff.mpr fun g hg => hother g (List.mem_append_right _ hg)]
  rfl

theorem content_eq (hnodup : l.openedNames.Nodup) {f : OpenedFile} (hf : f ∈ l.opened) :
    l.content f.name = f.file.content := by
  rw [content, filter_name hnodup hf, List.flatMap_singleton]

theorem callsTo_eq (hnodup : l.openedNames.Nodup) {f : OpenedFile} (hf : f ∈ l.opened) :
    l.callsTo f.name = f.calls := by
  rw [callsTo, filter_name hnodup hf, List.flatMap_singleton]

theorem names_eq (hnodup : l.openedNames.Nodup) : l.names = l.openedNames := by
  rw [names, (List.nodup_reverse.mpr hnodup).dedup, List.reverse_reverse]

/-- The files of which each was opened once have what their openings have. -/
theorem contents_eq (hnodup : l.openedNames.Nodup) :
    l.names.map l.content = l.opened.map fun f => f.file.content := by
  rw [names_eq hnodup, openedNames, List.map_map]
  exact List.map_congr_left fun f hf => content_eq hnodup hf

theorem Logged.closed_all {last : Nat} {calls : List LogCall} (h : Logged p l last calls) :
    ∀ f ∈ l.opened, Closed p f := by
  obtain ⟨f, hf, hclosed, -, -⟩ := h
  intro g hmem
  rw [opened_eq hf.file] at hmem
  rcases List.mem_append.mp hmem with hmem | hmem
  · exact (hclosed g hmem).1
  · rw [List.mem_singleton.mp hmem]
    exact ⟨hf.written, hf.late_le.trans hf.count_lt.le⟩

theorem Logged.rolls {last : Nat} {calls : List LogCall} (h : Logged p l last calls)
    (hnodup : l.openedNames.Nodup) : Rolls p l calls last := by
  have hall := h.closed_all
  obtain ⟨f, hf, -, -, hcalls⟩ := h
  refine ⟨?_, ?_, ?_⟩
  · rw [List.flatMap_def, contents_eq hnodup, ← hcalls, List.flatMap_assoc, ← List.flatMap_def]
    exact List.flatMap_congr fun g hmem => (hall g hmem).1.content
  · intro g hg hsize
    obtain rfl : f = g := Option.some.inj (hf.file.symm.trans hg)
    rw [content_eq hnodup (by rw [opened_eq hf.file]; simp)] at hsize
    exact hf.size hsize
  · intro g hmem
    rw [callsTo_eq hnodup hmem]
    exact (hall g hmem).2

end LogFile

open LogFile in
/-- By a clock that has left its first second, and as long as no file is opened under the name of an
earlier one, the files hold the lines in their order; a file that is larger than `rollSize_` was
opened in the second of the last reading; and no file has more than `checkEveryN_` lines of later
periods than its own. -/
theorem logFile_rolls (p : LogFileParams) (start : Nat) (hstart : 0 < getSecond start)
    (calls : List LogCall) (hclock : Clocked start calls) (hnew : OpensNew p (new p start) calls) :
    ∃ l, (new p start).appendAll p calls = some l ∧
      Rolls p l calls (lastReading start calls) := by
  have hone : (new p start).openedNames.Nodup := by
    rw [new_file hstart]
    exact List.nodup_singleton _
  obtain ⟨l, hl, hlogged, hnodup⟩ := (new_logged hstart).appendAll hone hclock hnew
  exact ⟨l, hl, hlogged.rolls hnodup⟩

namespace LogFile

/-- The local time of Berlin on 26 October 2025, when summer time ends at 3 o'clock. -/
def berlin (second : Nat) : Tm :=
  let sinceMidnight := second - 1761429600 - if second < 1761440400 then 0 else 3600
  ⟨2025, 10, 26, sinceMidnight / 3600, sinceMidnight / 60 % 60, sinceMidnight % 60⟩

def sampleParams : LogFileParams := ⟨8, 2, 60, berlin, bytes "host", 7, by decide, by decide⟩

/-- A file that is too large stays open for its second, and another is left behind with its
period. -/
def rolling : List LogCall :=
  [⟨bytes "aaaaa", 1761438640000000⟩, ⟨bytes "bbbbb", 1761438640900000⟩,
    ⟨bytes "c", 1761438641000000⟩, ⟨bytes "d", 1761438650000000⟩, ⟨bytes "e", 1761438670000000⟩,
    ⟨bytes "f", 1761438671000000⟩]

/-- A file of half past two is opened in summer time and again an hour later. -/
def reopening : List LogCall :=
  [⟨bytes "aaaaaaaaa", 1761438600000000⟩, ⟨bytes "b", 1761439500000000⟩,
    ⟨bytes "ccccccccc", 1761442200000000⟩, ⟨bytes "d", 1761442200500000⟩]

end LogFile

open LogFile in
theorem logFile_rolls_twice :
    ∃ l : LogFile, l.names.map l.content = [bytes "aaaaabbbbbc", bytes "def", []] ∧
      Rolls sampleParams l rolling 1761438671000000 := by
  obtain ⟨l, hl, hrolls⟩ := logFile_rolls sampleParams 1761438640000000 (by decide) rolling
    (by decide) (by decide +kernel)
  refine ⟨l, ?_, hrolls⟩
  have hfiles := congrArg (Option.map fun l => l.names.map l.content) hl
  exact (Option.some.inj hfiles).symm.trans (by decide +kernel)

open LogFile in
/-- What is written to the file that was opened twice is not behind the other one. -/
theorem logFile_reopened :
    Clocked 1761438600000000 reopening ∧
      ∃ l : LogFile, (new sampleParams 1761438600000000).appendAll sampleParams reopening = some l ∧
        ¬Rolls sampleParams l reopening (lastReading 1761438600000000 reopening) := by
  have hread : ((new sampleParams 1761438600000000).appendAll sampleParams reopening).map
      (fun l => l.names.flatMap l.content) = some (bytes "aaaaaaaaabdccccccccc") := by
    decide +kernel
  obtain ⟨l, hl, hcontent⟩ := Option.map_eq_some_iff.mp hread
  refine ⟨by decide, l, hl, ?_⟩
  intro hrolls
  have hlines := hcontent.symm.trans hrolls.content
  exact absurd hlines (by decide +kernel)

end MuduoServer
