import MuduoServer.Log.FixedBuffer
import MuduoServer.Framework.Run

namespace MuduoServer

/-- `BufferPtr`: `none` is the null pointer. -/
abbrev BufferPtr (SIZE : Nat) := Option (FixedBuffer SIZE)

/-- Where the back-end thread stands in `threadFunc`. -/
inductive LogPc (SIZE : Nat)
  /-- At the test of `running_`. -/
  | test
  /-- Before it locks the mutex. -/
  | locking
  /-- In `wait_for`, without the mutex. -/
  | waiting
  /-- In the loop that writes, with the buffers that are left. -/
  | writing (left : List (BufferPtr SIZE))
  | exited
  deriving DecidableEq

/-- `AsyncLogging` with its back-end thread, for buffers of any size. `output` is what
`LogFile::append` was given, and `appended` the lines whose `append` has returned. -/
structure AsyncLogging (SIZE : Nat) where
  running : Bool
  currentBuffer : BufferPtr SIZE
  nextBuffer : BufferPtr SIZE
  buffers : List (BufferPtr SIZE)
  pc : LogPc SIZE
  swapCurrentBuffer : BufferPtr SIZE
  swapNextBuffer : BufferPtr SIZE
  buffersToWrite : List (BufferPtr SIZE)
  output : Bytes
  appended : List Bytes
  deriving DecidableEq

namespace AsyncLogging

variable {SIZE : Nat}

/-- The constructor, and a thread that has just been started. -/
def new : AsyncLogging SIZE :=
  ⟨true, some .new, some .new, [], .test, some .new, some .new, [], [], []⟩

/-- `append`, under the mutex. `none` is the use of a null pointer. -/
def append (l : AsyncLogging SIZE) (line : Bytes) : Option (AsyncLogging SIZE) :=
  match l.currentBuffer with
  | none => none
  | some current =>
    let l := { l with appended := l.appended ++ [line] }
    if current.avail > line.length then
      some { l with currentBuffer := some (current.append line) }
    else
      let buffers := l.buffers ++ [some current]
      match l.nextBuffer with
      | some next =>
        some { l with
          buffers := buffers, currentBuffer := some (next.append line), nextBuffer := none }
      | none =>
        some { l with buffers := buffers, currentBuffer := some (FixedBuffer.new.append line) }

/-- The collect after a wait. -/
def collectAll (l : AsyncLogging SIZE) : AsyncLogging SIZE :=
  let buffersToWrite := l.buffers ++ [l.currentBuffer]
  { l with
    buffers := []
    buffersToWrite := buffersToWrite
    currentBuffer := l.swapCurrentBuffer
    swapCurrentBuffer := none
    nextBuffer := if l.nextBuffer.isNone then l.swapNextBuffer else l.nextBuffer
    swapNextBuffer := if l.nextBuffer.isNone then none else l.swapNextBuffer
    pc := .writing buffersToWrite }

/-- The collect without a wait: `currentBuffer_` keeps logging. -/
def collectFull (l : AsyncLogging SIZE) : AsyncLogging SIZE :=
  { l with
    buffers := []
    buffersToWrite := l.buffers
    nextBuffer := l.swapNextBuffer
    swapNextBuffer := none
    pc := .writing l.buffers }

/-- `std::move(buffersToWrite.back())` into a null pointer, and `reset()`. `none` is a failed
assertion or the use of a null pointer. -/
def recover (p : BufferPtr SIZE) (spare : List (BufferPtr SIZE)) :
    Option (BufferPtr SIZE × List (BufferPtr SIZE)) :=
  match p with
  | some b => some (some b, spare)
  | none =>
    match spare.getLast? with
    | some (some b) => some (some b.reset, spare.dropLast)
    | _ => none

/-- The end of a round: at most two of the written buffers are kept. -/
def recycle (l : AsyncLogging SIZE) : Option (AsyncLogging SIZE) := do
  let spare := l.buffersToWrite.take 2
  let (swapCurrent, spare) ← recover l.swapCurrentBuffer spare
  let (swapNext, _) ← recover l.swapNextBuffer spare
  return { l with
    swapCurrentBuffer := swapCurrent, swapNextBuffer := swapNext, buffersToWrite := [],
    pc := .test }

/-- The next step of the back-end thread. -/
def threadFunc (l : AsyncLogging SIZE) : Option (AsyncLogging SIZE) :=
  match l.pc with
  | .test => some { l with pc := if l.running then .locking else .exited }
  | .locking => some (if l.buffers = [] then { l with pc := .waiting } else l.collectFull)
  | .waiting => some l.collectAll
  | .writing (some b :: left) => some { l with output := l.output ++ b.data, pc := .writing left }
  | .writing (none :: _) => none
  | .writing [] => l.recycle
  | .exited => none

end AsyncLogging

/-- The steps of a logger. -/
inductive LogStep
  | append (line : Bytes)
  | threadFunc
  | stop
  deriving DecidableEq, Repr

/-- The bytes that a step appends. -/
def LogStep.line : LogStep → Bytes
  | .append line => line
  | _ => []

/-- A line is shorter than a buffer. -/
def LogStep.Short (SIZE : Nat) : LogStep → Prop
  | .append line => line.length < SIZE
  | _ => True

instance (SIZE : Nat) : (a : LogStep) → Decidable (a.Short SIZE)
  | .append _ => inferInstanceAs (Decidable (_ < _))
  | .threadFunc | .stop => inferInstanceAs (Decidable True)

namespace AsyncLogging

variable {SIZE : Nat}

/-- `stop` clears `running_`; it returns when the back-end thread has exited. -/
def step (l : AsyncLogging SIZE) : LogStep → Option (AsyncLogging SIZE)
  | .append line => l.append line
  | .threadFunc => l.threadFunc
  | .stop => some { l with running := false }

/-- The buffers that were collected and are not written yet. -/
def unwritten (l : AsyncLogging SIZE) : List (BufferPtr SIZE) :=
  match l.pc with
  | .writing left => left
  | _ => []

/-- How many of the two spare buffers have to be recovered. -/
def missing (l : AsyncLogging SIZE) : Nat :=
  (if l.swapCurrentBuffer.isNone then 1 else 0) + if l.swapNextBuffer.isNone then 1 else 0

/-- Where the buffers are: what holds in every reachable state, whatever is appended. -/
structure Stocked (l : AsyncLogging SIZE) : Prop where
  current : l.currentBuffer ≠ none
  buffers : none ∉ l.buffers
  toWrite : none ∉ l.buffersToWrite
  left : none ∉ l.unwritten
  next : l.nextBuffer = none → l.buffers ≠ []
  spare : l.missing ≤ l.buffersToWrite.length
  cleared : (∀ left, l.pc ≠ .writing left) → l.buffersToWrite = []

variable {l l' : AsyncLogging SIZE}

theorem new_stocked : (new : AsyncLogging SIZE).Stocked where
  current := by simp [new]
  buffers := by simp [new]
  toWrite := by simp [new]
  left := by simp [new, unwritten]
  next := by simp [new]
  spare := by simp [new, missing]
  cleared := fun _ => rfl

theorem append_room {c : FixedBuffer SIZE} (hc : l.currentBuffer = some c) {line : Bytes}
    (hroom : c.avail > line.length) : l.append line = some { l with
      currentBuffer := some (c.append line), appended := l.appended ++ [line] } := by
  simp only [append, hc]
  rw [if_pos hroom]

/-- A full buffer makes room for the next one, or for a new one. -/
theorem append_full {c : FixedBuffer SIZE} (hc : l.currentBuffer = some c) {line : Bytes}
    (hroom : ¬c.avail > line.length) : l.append line = some { l with
      buffers := l.buffers ++ [some c]
      currentBuffer := some ((l.nextBuffer.getD .new).append line)
      nextBuffer := none
      appended := l.appended ++ [line] } := by
  simp only [append, hc]
  rw [if_neg hroom]
  cases l.nextBuffer with
  | some n => rfl
  | none => rfl

/-- An append succeeds, and gives the next buffer away only for one in `buffers_`. -/
theorem Stocked.append (h : l.Stocked) (line : Bytes) :
    ∃ l', l.append line = some l' ∧ l'.Stocked := by
  obtain ⟨c, hc⟩ := Option.ne_none_iff_exists'.mp h.current
  by_cases hroom : c.avail > line.length
  · exact ⟨_, append_room hc hroom, { h with current := by simp }⟩
  · exact ⟨_, append_full hc hroom,
      { h with current := by simp, buffers := by simp [h.buffers], next := by simp }⟩

/-- Outside the writing both spare buffers are there. -/
theorem Stocked.spares (h : l.Stocked) (hpc : ∀ left, l.pc ≠ .writing left) :
    l.swapCurrentBuffer ≠ none ∧ l.swapNextBuffer ≠ none := by
  have hspare := h.spare
  rw [h.cleared hpc, List.length_nil] at hspare
  rw [missing] at hspare
  constructor
  · intro hb
    simp [hb] at hspare
  · intro hb
    simp [hb] at hspare

theorem Stocked.collectAll (h : l.Stocked) (hpc : l.pc = .waiting) : l.collectAll.Stocked := by
  obtain ⟨hsc, hsn⟩ := h.spares (by simp [hpc])
  have hcollected : none ∉ l.buffers ++ [l.currentBuffer] := by
    simpa [h.buffers] using h.current.symm
  have hnext : (if l.nextBuffer.isNone then l.swapNextBuffer else l.nextBuffer) ≠ none := by
    split_ifs with hn
    · exact hsn
    · simpa using hn
  refine ⟨hsc, by simp [AsyncLogging.collectAll], hcollected, hcollected,
    fun hnone => (hnext hnone).elim, ?_, fun hne => (hne _ rfl).elim⟩
  -- a second buffer is needed only when the next one was used, and then two were collected
  simp only [missing, AsyncLogging.collectAll, List.length_append, List.length_singleton,
    Option.isNone_none, if_true]
  by_cases hn : l.nextBuffer = none
  · have hpos := List.length_pos_iff.mpr (h.next hn)
    split_ifs <;> omega
  · have hisNone : ¬l.nextBuffer.isNone = true := by simpa using hn
    simp [hisNone, hsn]

theorem Stocked.collectFull (h : l.Stocked) (hpc : l.pc = .locking) (hb : l.buffers ≠ []) :
    l.collectFull.Stocked := by
  obtain ⟨hsc, hsn⟩ := h.spares (by simp [hpc])
  have hlen := List.length_pos_iff.mpr hb
  refine ⟨h.current, by simp [AsyncLogging.collectFull], h.buffers, h.buffers,
    fun hnone => (hsn hnone).elim, ?_, fun hne => (hne _ rfl).elim⟩
  simp only [missing, AsyncLogging.collectFull]
  simp [hsc]
  omega

/-- A pointer that is null takes the last of the written buffers. -/
theorem recover_ok {p : BufferPtr SIZE} {spare : List (BufferPtr SIZE)} (hspare : none ∉ spare)
    (hp : p = none → spare ≠ []) :
    ∃ b rest, recover p spare = some (some b, rest) ∧ none ∉ rest ∧
      spare.length = rest.length + if p.isNone then 1 else 0 := by
  cases p with
  | some b => exact ⟨b, spare, rfl, hspare, by simp⟩
  | none =>
    obtain ⟨rest, last, rfl⟩ : ∃ rest last, spare = rest ++ [last] :=
      ⟨_, _, (List.dropLast_append_getLast (hp rfl)).symm⟩
    cases last with
    | none => simp at hspare
    | some b =>
      refine ⟨b.reset, rest, ?_, fun hmem => hspare (by simp [hmem]), by simp⟩
      simp [recover]

/-- Both assertions hold: two buffers are kept, and no more of them are missing than were
collected. -/
theorem Stocked.recycle (h : l.Stocked) : ∃ l', l.recycle = some l' ∧ l'.Stocked := by
  have hspare := h.spare
  have hmissing : l.missing ≤ 2 := by
    rw [missing]
    split_ifs <;> omega
  have htwo : l.missing ≤ (l.buffersToWrite.take 2).length := by
    rw [List.length_take]
    omega
  have hnone : none ∉ l.buffersToWrite.take 2 := fun hmem => h.toWrite (List.mem_of_mem_take hmem)
  rw [missing] at htwo
  obtain ⟨b1, rest, hr1, hnone1, hlen1⟩ := recover_ok (p := l.swapCurrentBuffer) hnone (fun hp => by
    rw [hp, Option.isNone_none, if_pos rfl] at htwo
    exact List.length_pos_iff.mp (by omega))
  obtain ⟨b2, rest2, hr2, -, -⟩ := recover_ok (p := l.swapNextBuffer) hnone1 (fun hp => by
    rw [hp, Option.isNone_none, if_pos rfl] at htwo
    exact List.length_pos_iff.mp (by omega))
  refine ⟨_, by simp only [AsyncLogging.recycle, hr1, hr2, bind, Option.bind]; rfl, ?_⟩
  exact ⟨h.current, h.buffers, by simp, by simp [unwritten], h.next, by simp [missing],
    fun _ => rfl⟩

/-- No step of the back-end thread uses a null pointer or fails an assertion. -/
theorem Stocked.threadFunc (h : l.Stocked) (hpc : l.pc ≠ .exited) :
    ∃ l', l.threadFunc = some l' ∧ l'.Stocked := by
  rw [AsyncLogging.threadFunc]
  have hleft := h.left
  cases hp : l.pc with
  | test =>
    have hcleared := h.cleared (by simp [hp])
    refine ⟨_, rfl, { h with left := ?_, cleared := fun _ => hcleared }⟩
    dsimp only [unwritten]
    split_ifs <;> simp
  | locking =>
    have hcleared := h.cleared (by simp [hp])
    by_cases hb : l.buffers = []
    · simp only [if_pos hb]
      exact ⟨_, rfl, { h with left := by simp [unwritten], cleared := fun _ => hcleared }⟩
    · simp only [if_neg hb]
      exact ⟨_, rfl, h.collectFull hp hb⟩
  | waiting => exact ⟨_, rfl, h.collectAll hp⟩
  | writing left =>
    cases left with
    | nil => exact h.recycle
    | cons p left =>
      simp only [unwritten, hp] at hleft
      cases p with
      | none => simp at hleft
      | some b =>
        refine ⟨_, rfl, { h with left := ?_, cleared := ?_ }⟩
        · exact fun hmem => hleft (List.mem_cons_of_mem _ hmem)
        · exact fun hne => (hne left rfl).elim
  | exited => exact (hpc hp).elim

theorem threadFunc_not_exited (hs : l.threadFunc = some l') : l.pc ≠ .exited := by
  intro hp
  simp [threadFunc, hp] at hs

theorem Stocked.step (h : l.Stocked) {a : LogStep} (hs : l.step a = some l') : l'.Stocked := by
  cases a with
  | append line =>
    obtain ⟨l1, hs1, h1⟩ := h.append line
    exact Option.some.inj (hs1.symm.trans hs) ▸ h1
  | threadFunc =>
    obtain ⟨l1, hs1, h1⟩ := h.threadFunc (threadFunc_not_exited hs)
    exact Option.some.inj (hs1.symm.trans hs) ▸ h1
  | stop =>
    cases hs
    exact { h with }

end AsyncLogging

open AsyncLogging in
/-- Whatever is appended and however the appends fall between the steps of the back-end thread: at
the start of a round both spare buffers are there and the last round's are gone, the front end has
its current buffer, and the next one is missing only while a full one waits to be collected. So the
assertions hold when the written buffers are recovered, and no null pointer is ever used. -/
theorem buffers_never_run_out (SIZE : Nat) (steps : List LogStep) (l : AsyncLogging SIZE)
    (hrun : Run (fun l a l' => l.step a = some l') new steps l) :
    ((∀ left, l.pc ≠ .writing left) →
      l.swapCurrentBuffer ≠ none ∧ l.swapNextBuffer ≠ none ∧ l.buffersToWrite = []) ∧
    l.currentBuffer ≠ none ∧ (l.nextBuffer = none → l.buffers ≠ []) ∧
    (l.pc = .writing [] → l.recycle.isSome) ∧
    (∀ line, (l.append line).isSome) ∧ (l.pc ≠ .exited → l.threadFunc.isSome) := by
  have h : l.Stocked := hrun.preserves Stocked new_stocked (fun _ _ _ h hs => h.step hs)
  refine ⟨fun hpc => ?_, h.current, h.next, fun _ => ?_, fun line => ?_, fun hpc => ?_⟩
  · obtain ⟨hsc, hsn⟩ := h.spares hpc
    exact ⟨hsc, hsn, h.cleared hpc⟩
  · obtain ⟨l', hs, -⟩ := h.recycle
    exact Option.isSome_of_eq_some hs
  · obtain ⟨l', hs, -⟩ := h.append line
    exact Option.isSome_of_eq_some hs
  · obtain ⟨l', hs, -⟩ := h.threadFunc hpc
    exact Option.isSome_of_eq_some hs

open AsyncLogging in
/-- Two lines, one of them longer than a buffer, are appended during the wait: both spare buffers
are given to the front end and recovered from what was written. -/
theorem buffers_never_run_out_both :
    ∃ l : AsyncLogging 4, (l.pc, l.swapCurrentBuffer.isNone, l.swapNextBuffer.isNone,
        l.buffersToWrite.length) = (.writing [], true, true, 2) ∧ l.recycle.isSome := by
  obtain ⟨l, hrun, hl⟩ := Run.exists_of_guarded (s := (new : AsyncLogging 4)) (f := step)
    (p := fun _ _ => True) (a := (LogPc.writing [], true, true, 2))
    (g := fun l => (l.pc, l.swapCurrentBuffer.isNone, l.swapNextBuffer.isNone,
      l.buffersToWrite.length))
    (l := [.threadFunc, .threadFunc, .append (bytes "abc"), .append (bytes "defgh"),
      .append (bytes "ij"), .threadFunc, .threadFunc, .threadFunc]) (by decide +kernel)
  obtain ⟨-, -, -, hrecycle, -⟩ := buffers_never_run_out 4 _ l (hrun.mono fun _ _ _ hs => hs.2)
  exact ⟨l, hl, hrecycle (congrArg Prod.fst hl)⟩

end MuduoServer
