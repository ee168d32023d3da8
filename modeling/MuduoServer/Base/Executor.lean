import Mathlib.Logic.Function.Basic
import MuduoServer.Base.Bytes
import MuduoServer.Framework.Pipe
import MuduoServer.Framework.Run

namespace MuduoServer

/-- The streams of the child, each with a pipe. -/
inductive Stream
  | stdout | stderr
  deriving DecidableEq, Repr

/-- What `waitpid` tells of the child. -/
inductive WaitStatus
  | exited (code : Int)
  | signaled
  deriving DecidableEq, Repr

structure ExecResult where
  exit_code : Int
  stdout_str : Bytes
  stderr_str : Bytes
  deriving DecidableEq, Repr

/-- Where the parent stands in `execWithPipes`, behind the `fork`. -/
inductive ExecPc
  /-- At `close` of the end of a pipe that the child writes to. -/
  | close (s : Stream)
  /-- In the loop that reads a pipe. -/
  | read (s : Stream)
  | waitpid
  | returned
  deriving DecidableEq, Repr

/-- `execWithPipes` and its child, which has the writes that are left or, at `none`, has exited. -/
structure ExecState where
  pipe : Stream → Pipe UInt8
  child : Option (List (Stream × Bytes))
  parent : ExecPc
  output : Stream → Bytes

/-- `sizeof(buffer)`. -/
def readSize : Nat := 4096

/-- What follows the `close`. -/
def ExecPc.afterClose : Stream → ExecPc
  | .stdout => close .stderr
  | .stderr => read .stdout

/-- What follows the loop that reads a pipe. -/
def ExecPc.afterRead : Stream → ExecPc
  | .stdout => read .stderr
  | .stderr => waitpid

namespace ExecState

/-- Behind the `fork` both processes have the ends of both pipes. -/
def start (capacity : Stream → Nat) (writes : List (Stream × Bytes)) : ExecState where
  pipe s := .new (capacity s) 2
  child := some writes
  parent := .close .stdout
  output _ := []

/-- The next step of the parent. `none` is a call that blocks, or the end. -/
def parentStep (st : ExecState) : Option ExecState :=
  match st.parent with
  | .close s => some { st with
      pipe := Function.update st.pipe s (st.pipe s).closeWriter
      parent := .afterClose s }
  | .read s =>
    if (st.pipe s).content ≠ [] then some { st with
      output := Function.update st.output s (st.output s ++ (st.pipe s).content.take readSize)
      pipe := Function.update st.pipe s ((st.pipe s).drop readSize) }
    else if (st.pipe s).writers = 0 then some { st with parent := .afterRead s }
    else none
  | .waitpid => if st.child = none then some { st with parent := .returned } else none
  | .returned => none

/-- The next step of the child; a write that finds room for `n` bytes transfers so many. `none` is a
write that blocks, or the end. -/
def childStep (st : ExecState) (n : Nat) : Option ExecState :=
  match st.child with
  | none => none
  | some [] => some { st with child := none, pipe := fun s => (st.pipe s).closeWriter }
  | some ((_, []) :: writes) => some { st with child := some writes }
  | some ((s, b :: bs) :: writes) =>
    if 1 ≤ n ∧ (st.pipe s).Fits n then
      some { st with
        pipe := Function.update st.pipe s ((st.pipe s).write ((b :: bs).take n))
        child := some ((s, (b :: bs).drop n) :: writes) }
    else none

/-- What `execWithPipes` returns. -/
def result (st : ExecState) (status : WaitStatus) : ExecResult where
  exit_code := match status with
    | .exited code => code
    | .signaled => -1
  stdout_str := st.output .stdout
  stderr_str := st.output .stderr

end ExecState

/-- Whose step it is. -/
inductive ExecStep
  | parent
  | child (n : Nat)
  deriving DecidableEq, Repr

namespace ExecState

def step (st : ExecState) : ExecStep → Option ExecState
  | .parent => st.parentStep
  | .child n => st.childStep n

/-- The bytes that the writes of the child send to a stream. -/
def written (s : Stream) (writes : List (Stream × Bytes)) : Bytes :=
  writes.flatMap fun w => if w.1 = s then w.2 else []

/-- The bytes that the child has still to write to a stream. -/
def left (st : ExecState) (s : Stream) : Bytes := written s (st.child.getD [])

def ParentBlocked (st : ExecState) : Prop := st.parent ≠ .returned ∧ st.parentStep = none

def ChildBlocked (st : ExecState) : Prop := st.child ≠ none ∧ ∀ n, st.childStep n = none

theorem written_cons (s t : Stream) (bs : Bytes) (writes : List (Stream × Bytes)) :
    written s ((t, bs) :: writes) = (if t = s then bs else []) ++ written s writes := rfl

/-- The parent has read a stream to its end. -/
def Ended (st : ExecState) (s : Stream) : Prop :=
  st.parent = .waitpid ∨ st.parent = .returned ∨ s = .stdout ∧ st.parent = .read .stderr

/-- What holds in every state: of each stream the bytes read, those in the pipe and those that are
left to be written are all its bytes, and behind the end of standard output there is no child. -/
structure Flows (writes : List (Stream × Bytes)) (st : ExecState) : Prop where
  bytes : ∀ s, st.output s ++ (st.pipe s).content ++ st.left s = written s writes
  writers : (st.pipe .stdout).writers =
    (if st.parent = .close .stdout then 1 else 0) + if st.child = none then 0 else 1
  exited : st.Ended .stdout → st.child = none
  empty : ∀ s, st.Ended s → (st.pipe s).content = []

variable {st st' : ExecState} {writes : List (Stream × Bytes)}

/-- All that a step of the parent can do. -/
theorem parentStep_cases (hs : st.parentStep = some st') :
    (∃ s, st.parent = .close s ∧ st' = { st with
      pipe := Function.update st.pipe s (st.pipe s).closeWriter
      parent := .afterClose s }) ∨
    (∃ s, st.parent = .read s ∧ (st.pipe s).content ≠ [] ∧ st' = { st with
      output := Function.update st.output s (st.output s ++ (st.pipe s).content.take readSize)
      pipe := Function.update st.pipe s ((st.pipe s).drop readSize) }) ∨
    (∃ s, st.parent = .read s ∧ (st.pipe s).content = [] ∧ (st.pipe s).writers = 0 ∧
      st' = { st with parent := .afterRead s }) ∨
    (st.parent = .waitpid ∧ st.child = none ∧ st' = { st with parent := .returned }) := by
  rw [parentStep] at hs
  split at hs
  · next s hp => exact .inl ⟨s, hp, (Option.some.inj hs).symm⟩
  · next s hp =>
    split_ifs at hs with hc hw
    · exact .inr (.inl ⟨s, hp, hc, (Option.some.inj hs).symm⟩)
    · exact .inr (.inr (.inl ⟨s, hp, not_not.mp hc, hw, (Option.some.inj hs).symm⟩))
  · next hp =>
    split_ifs at hs with hc
    exact .inr (.inr (.inr ⟨hp, hc, (Option.some.inj hs).symm⟩))
  · cases hs

/-- All that a step of the child can do. -/
theorem childStep_cases {n : Nat} (hs : st.childStep n = some st') :
    (st.child = some [] ∧
      st' = { st with child := none, pipe := fun s => (st.pipe s).closeWriter }) ∨
    ∃ s bs rest, st.child = some ((s, bs) :: rest) ∧
      ((bs = [] ∧ st' = { st with child := some rest }) ∨
        (bs ≠ [] ∧ st' = { st with
          pipe := Function.update st.pipe s ((st.pipe s).write (bs.take n))
          child := some ((s, bs.drop n) :: rest) })) := by
  rw [childStep] at hs
  split at hs
  · cases hs
  · next hc => exact .inl ⟨hc, (Option.some.inj hs).symm⟩
  · next s rest hc => exact .inr ⟨s, [], rest, hc, .inl ⟨rfl, (Option.some.inj hs).symm⟩⟩
  · next s b bs rest hc =>
    split_ifs at hs
    exact .inr ⟨s, b :: bs, rest, hc, .inr ⟨List.cons_ne_nil _ _, (Option.some.inj hs).symm⟩⟩

theorem not_ended (s : Stream) (h : (∃ t, st.parent = .close t) ∨ st.parent = .read .stdout) :
    ¬st.Ended s := by
  rcases h with ⟨t, h⟩ | h <;> simp [Ended, h]

theorem start_flows (capacity : Stream → Nat) (writes : List (Stream × Bytes)) :
    (start capacity writes).Flows writes := by
  have hstart : ∀ s, ¬(start capacity writes).Ended s := fun s => not_ended s (.inl ⟨_, rfl⟩)
  exact ⟨fun _ => rfl, rfl, fun h => (hstart _ h).elim, fun _ h => (hstart _ h).elim⟩

/-- The parent closes its end of a pipe. -/
theorem Flows.close {s : Stream} (h : st.Flows writes) (hp : st.parent = .close s) :
    Flows writes { st with
      pipe := Function.update st.pipe s (st.pipe s).closeWriter
      parent := .afterClose s } := by
  have hwriters := h.writers
  have hstart : ∀ t, ¬({ st with
      pipe := Function.update st.pipe s (st.pipe s).closeWriter
      parent := .afterClose s } : ExecState).Ended t := by
    intro t
    apply not_ended
    cases s <;> simp [ExecPc.afterClose]
  refine ⟨?_, ?_, fun hend => (hstart _ hend).elim, fun t hend => (hstart t hend).elim⟩
  · intro t
    rw [← h.bytes t]
    by_cases ht : t = s
    · subst ht
      simp [left]
    · simp [ht, left]
  · rw [hp] at hwriters
    cases s with
    | stdout => simp [hwriters, ExecPc.afterClose]
    | stderr => simp [hwriters, ExecPc.afterClose]

/-- The parent reads from a pipe: what leaves the pipe is in its string. -/
theorem Flows.read (h : st.Flows writes) (s : Stream) :
    Flows writes { st with
      output := Function.update st.output s (st.output s ++ (st.pipe s).content.take readSize)
      pipe := Function.update st.pipe s ((st.pipe s).drop readSize) } := by
  refine ⟨?_, ?_, h.exited, ?_⟩
  · intro t
    rw [← h.bytes t]
    by_cases ht : t = s
    · subst ht
      simp only [Function.update_self, List.append_assoc]
      rw [← List.append_assoc ((st.pipe t).content.take readSize), Pipe.take_append_drop]
      rfl
    · simp only [Function.update_of_ne ht]
      rfl
  · rw [← h.writers]
    cases s <;> rfl
  · intro t ht
    have hempty := h.empty t ht
    by_cases hts : t = s
    · subst hts
      simp [hempty]
    · simpa only [Function.update_of_ne hts] using hempty

/-- The parent reads the end of a pipe; the child, which held standard output open, has exited. -/
theorem Flows.readEnd {s : Stream} (h : st.Flows writes) (hp : st.parent = .read s)
    (hc : (st.pipe s).content = []) (hw : (st.pipe s).writers = 0) :
    Flows writes { st with parent := .afterRead s } := by
  have hwriters := h.writers
  cases s with
  | stdout =>
    have hchild : st.child = none := by
      rw [hp, hw] at hwriters
      by_contra hne
      simp [hne] at hwriters
    refine ⟨h.bytes, ?_, fun _ => hchild, ?_⟩
    · rw [hwriters, hp]
      rfl
    · rintro t (hend | hend | ⟨rfl, -⟩)
      · cases hend
      · cases hend
      · exact hc
  | stderr =>
    refine ⟨h.bytes, ?_, fun _ => h.exited (.inr (.inr ⟨rfl, hp⟩)), ?_⟩
    · rw [hwriters, hp]
      rfl
    · intro t _
      cases t with
      | stdout => exact h.empty .stdout (.inr (.inr ⟨rfl, hp⟩))
      | stderr => exact hc

/-- A step of the parent keeps the bytes of each stream together. -/
theorem Flows.parentStep (h : st.Flows writes) (hs : st.parentStep = some st') :
    st'.Flows writes := by
  obtain ⟨s, hp, rfl⟩ | ⟨s, -, -, rfl⟩ | ⟨s, hp, hc, hw, rfl⟩ | ⟨hp, hc, rfl⟩ :=
    parentStep_cases hs
  · exact h.close hp
  · exact h.read s
  · exact h.readEnd hp hc hw
  · have hwriters := h.writers
    refine ⟨h.bytes, ?_, fun _ => hc, fun t _ => h.empty t (.inl hp)⟩
    rw [hwriters, hp]
    rfl

/-- So does a step of the child, which has not exited. -/
theorem Flows.childStep (h : st.Flows writes) {n : Nat} (hs : st.childStep n = some st') :
    st'.Flows writes := by
  have hwriters := h.writers
  have hrunning : st.child ≠ none → ∀ s, ¬st.Ended s := by
    intro hc s hend
    apply hc
    apply h.exited
    rcases hend with hend | hend | ⟨-, hend⟩
    · exact .inl hend
    · exact .inr (.inl hend)
    · exact .inr (.inr ⟨rfl, hend⟩)
  obtain ⟨hc, rfl⟩ | ⟨s, bs, rest, hc, ⟨rfl, rfl⟩ | ⟨-, rfl⟩⟩ := childStep_cases hs
  · have hnot := hrunning (by rw [hc]; simp)
    refine ⟨?_, ?_, fun _ => rfl, fun t hend => (hnot t hend).elim⟩
    · intro t
      rw [← h.bytes t, left, left, hc]
      rfl
    · simp [hwriters, hc]
  · have hnot := hrunning (by rw [hc]; simp)
    refine ⟨?_, ?_, fun hend => (hnot _ hend).elim, fun t hend => (hnot t hend).elim⟩
    · intro t
      rw [← h.bytes t, left, left, hc]
      simp [written_cons]
    · simp [hwriters, hc]
  · have hnot := hrunning (by rw [hc]; simp)
    refine ⟨?_, ?_, fun hend => (hnot _ hend).elim, fun t hend => (hnot t hend).elim⟩
    · intro t
      rw [← h.bytes t, left, left, hc]
      by_cases ht : t = s
      · subst ht
        have htake := List.take_append_drop n bs
        simp only [Function.update_self, Pipe.write_content, Option.getD_some, written_cons,
          if_true, List.append_assoc]
        rw [← List.append_assoc (bs.take n), htake]
      · simp [ht, Ne.symm ht, written_cons]
    · cases s with
      | stdout => simp [hwriters, hc]
      | stderr => simp [hwriters, hc]

/-- The runs of the parent and the child, in any interleaving. -/
abbrev Runs (st : ExecState) : List ExecStep → ExecState → Prop :=
  Run (fun st i st' => st.step i = some st') st

theorem capacity_update {pipes : Stream → Pipe UInt8} {t : Stream} {q : Pipe UInt8}
    (h : q.capacity = (pipes t).capacity) (s : Stream) :
    (Function.update pipes t q s).capacity = (pipes s).capacity := by
  by_cases hst : s = t
  · subst hst
    rw [Function.update_self, h]
  · rw [Function.update_of_ne hst]

theorem capacity_step {i : ExecStep} (hs : st.step i = some st') (s : Stream) :
    (st'.pipe s).capacity = (st.pipe s).capacity := by
  cases i with
  | parent =>
    obtain ⟨t, -, rfl⟩ | ⟨t, -, -, rfl⟩ | ⟨t, -, -, -, rfl⟩ | ⟨-, -, rfl⟩ := parentStep_cases hs
    · exact capacity_update (Pipe.closeWriter_capacity _) s
    · exact capacity_update (Pipe.drop_capacity _ _) s
    · rfl
    · rfl
  | child n =>
    obtain ⟨-, rfl⟩ | ⟨t, bs, rest, -, ⟨-, rfl⟩ | ⟨-, rfl⟩⟩ := childStep_cases hs
    · rfl
    · rfl
    · exact capacity_update (Pipe.write_capacity _ _) s

theorem Runs.flows {capacity : Stream → Nat} {is : List ExecStep}
    (hrun : (start capacity writes).Runs is st) :
    st.Flows writes ∧ ∀ s, (st.pipe s).capacity = capacity s := by
  refine hrun.preserves (fun st => st.Flows writes ∧ ∀ s, (st.pipe s).capacity = capacity s)
    ⟨start_flows capacity writes, fun _ => rfl⟩ ?_
  intro st i st' hinv hs
  refine ⟨?_, fun s => (capacity_step hs s).trans (hinv.2 s)⟩
  cases i with
  | parent => exact hinv.1.parentStep hs
  | child n => exact hinv.1.childStep hs

/-- A child that is blocked has bytes for a pipe that is full. -/
theorem ChildBlocked.full (h : st.ChildBlocked) :
    ∃ s b bs rest, st.child = some ((s, b :: bs) :: rest) ∧ ¬(st.pipe s).Fits 1 := by
  obtain ⟨hne, hblocked⟩ := h
  have hone := hblocked 1
  rw [childStep] at hone
  split at hone
  · next hc => exact (hne hc).elim
  · cases hone
  · cases hone
  · next s b bs rest hc =>
    split_ifs at hone with hroom
    exact ⟨s, b, bs, rest, hc, fun hfits => hroom ⟨le_refl _, hfits⟩⟩

/-- A parent that is blocked while there is a child waits for standard output. -/
theorem Flows.blocked (h : st.Flows writes) (hp : st.ParentBlocked) (hc : st.child ≠ none) :
    st.parent = .read .stdout ∧ (st.pipe .stdout).content = [] := by
  have hnot : ¬st.Ended .stdout := fun hend => hc (h.exited hend)
  obtain ⟨hne, hblocked⟩ := hp
  rw [ExecState.parentStep] at hblocked
  split at hblocked
  · cases hblocked
  · next s hp =>
    split_ifs at hblocked with hcontent hw
    cases s with
    | stdout => exact ⟨hp, not_not.mp hcontent⟩
    | stderr => exact (hnot (.inr (.inr ⟨rfl, hp⟩))).elim
  · next hp => exact (hnot (.inl hp)).elim
  · next hp => exact (hne hp).elim

/-- While standard error fits into its pipe, parent and child are never both blocked. -/
theorem Flows.not_deadlocked (h : st.Flows writes) (hout : 1 ≤ (st.pipe .stdout).capacity)
    (herr : (written .stderr writes).length ≤ (st.pipe .stderr).capacity) :
    ¬(st.ParentBlocked ∧ st.ChildBlocked) := by
  rintro ⟨hparent, hchild⟩
  obtain ⟨-, hempty⟩ := h.blocked hparent hchild.1
  obtain ⟨s, b, bs, rest, hc, hfull⟩ := hchild.full
  cases s with
  | stdout => exact hfull (Pipe.fits_one_of_nil hempty hout)
  | stderr =>
    have hlen := congrArg List.length (h.bytes .stderr)
    rw [left, hc] at hlen
    simp only [Option.getD_some, written_cons, if_true, List.length_append,
      List.length_cons] at hlen
    apply hfull
    rw [Pipe.Fits]
    omega

/-- A run leads to a state in which both are blocked. -/
def Deadlocks (st : ExecState) : Prop :=
  ∃ is st', st.Runs is st' ∧ st'.ParentBlocked ∧ st'.ChildBlocked

theorem Deadlocks.step {i : ExecStep} {mid : ExecState} (hs : st.step i = some mid)
    (h : mid.Deadlocks) : st.Deadlocks := by
  obtain ⟨is, st', hrun, hblocked⟩ := h
  exact ⟨i :: is, st', hrun.cons hs, hblocked⟩

/-- The parent waits for standard output, of which nothing is in the pipe, and more is left for
standard error than its pipe will hold. -/
structure Loaded (st : ExecState) (rest : List (Stream × Bytes)) : Prop where
  parent : st.parent = .read .stdout
  child : st.child = some rest
  empty : (st.pipe .stdout).content = []
  writers : (st.pipe .stdout).writers ≠ 0
  room : 1 ≤ (st.pipe .stdout).capacity
  le : (st.pipe .stderr).content.length ≤ (st.pipe .stderr).capacity
  lt : (st.pipe .stderr).capacity <
    (st.pipe .stderr).content.length + (written .stderr rest).length

theorem childStep_write {s : Stream} {bs : Bytes} {rest : List (Stream × Bytes)} {n : Nat}
    (hc : st.child = some ((s, bs) :: rest)) (hbs : bs ≠ []) (hn : 1 ≤ n)
    (hfits : (st.pipe s).Fits n) :
    st.childStep n = some { st with
      pipe := Function.update st.pipe s ((st.pipe s).write (bs.take n))
      child := some ((s, bs.drop n) :: rest) } := by
  obtain ⟨b, bs, rfl⟩ := List.exists_cons_of_ne_nil hbs
  simp only [childStep, hc]
  exact if_pos ⟨hn, hfits⟩

theorem childStep_next {s : Stream} {rest : List (Stream × Bytes)} (n : Nat)
    (hc : st.child = some ((s, []) :: rest)) :
    st.childStep n = some { st with child := some rest } := by
  simp only [childStep, hc]

theorem Loaded.blocked {b : UInt8} {bs : Bytes} {rest : List (Stream × Bytes)}
    (h : st.Loaded ((.stderr, b :: bs) :: rest))
    (hfull : (st.pipe .stderr).capacity ≤ (st.pipe .stderr).content.length) :
    st.ParentBlocked ∧ st.ChildBlocked := by
  refine ⟨⟨by simp [h.parent], ?_⟩, by simp [h.child], ?_⟩
  · simp [ExecState.parentStep, h.parent, h.empty, h.writers]
  · intro n
    simp only [childStep, h.child]
    refine if_neg ?_
    rintro ⟨hn, hfits⟩
    rw [Pipe.Fits] at hfits
    omega

theorem Loaded.next {s : Stream} {rest : List (Stream × Bytes)} (h : st.Loaded ((s, []) :: rest)) :
    Loaded { st with child := some rest } rest := by
  refine ⟨h.parent, rfl, h.empty, h.writers, h.room, h.le, ?_⟩
  have hlt := h.lt
  rw [written_cons, ite_self, List.nil_append] at hlt
  exact hlt

theorem parentStep_read {s : Stream} (hp : st.parent = .read s) (hc : (st.pipe s).content ≠ []) :
    st.parentStep = some { st with
      output := Function.update st.output s (st.output s ++ (st.pipe s).content.take readSize)
      pipe := Function.update st.pipe s ((st.pipe s).drop readSize) } := by
  simp only [parentStep, hp]
  exact if_pos hc

/-- A byte of standard output goes through the pipe. -/
theorem Loaded.stdout {b : UInt8} {bs : Bytes} {rest : List (Stream × Bytes)}
    (h : st.Loaded ((.stdout, b :: bs) :: rest)) :
    ∃ mid last, st.step (.child 1) = some mid ∧ mid.step .parent = some last ∧
      last.Loaded ((.stdout, bs) :: rest) := by
  have hwrite := childStep_write h.child (List.cons_ne_nil b bs) (le_refl 1)
    (Pipe.fits_one_of_nil h.empty h.room)
  have hread := @parentStep_read { st with
      pipe := Function.update st.pipe .stdout ((st.pipe .stdout).write ((b :: bs).take 1))
      child := some ((.stdout, (b :: bs).drop 1) :: rest) } .stdout h.parent (by simp)
  refine ⟨_, _, hwrite, hread, h.parent, rfl, ?_, ?_, ?_, ?_, ?_⟩
  · simp [h.empty, readSize]
  · simpa using h.writers
  · simpa using h.room
  · simpa using h.le
  · simpa [written_cons] using h.lt

/-- Bytes for standard error go into its pipe. -/
theorem Loaded.stderr {bs : Bytes} {rest : List (Stream × Bytes)}
    (h : st.Loaded ((.stderr, bs) :: rest)) (hbs : bs ≠ []) {n : Nat} (hn : 1 ≤ n)
    (hle : n ≤ bs.length) (hfits : (st.pipe .stderr).Fits n) :
    ∃ mid, st.step (.child n) = some mid ∧ mid.Loaded ((.stderr, bs.drop n) :: rest) ∧
      (mid.pipe .stderr).capacity = (st.pipe .stderr).capacity ∧
      (mid.pipe .stderr).content.length = (st.pipe .stderr).content.length + n := by
  have hlt := h.lt
  rw [Pipe.Fits] at hfits
  rw [written_cons, if_pos rfl, List.length_append] at hlt
  have hlen : (bs.take n).length = n := List.length_take_of_le hle
  refine ⟨_, childStep_write h.child hbs hn hfits, ⟨h.parent, rfl, ?_, ?_, ?_, ?_, ?_⟩, ?_, ?_⟩
  · simpa using h.empty
  · simpa using h.writers
  · simpa using h.room
  · simp only [Function.update_self, Pipe.write_content, Pipe.write_capacity, List.length_append,
      hlen]
    exact hfits
  · simp only [Function.update_self, Pipe.write_content, Pipe.write_capacity, List.length_append,
      hlen, written_cons, if_true, List.length_drop]
    omega
  · simp
  · simp [hlen]

/-- More for standard error than its pipe holds: the child writes until the pipe is full, and the
parent, which reads only standard output, waits for ever. -/
theorem Loaded.deadlocks (rest : List (Stream × Bytes)) (h : st.Loaded rest) :
    st.Deadlocks := by
  induction rest generalizing st with
  | nil =>
    have hlt := h.lt
    have hle := h.le
    rw [show written .stderr [] = [] from rfl, List.length_nil] at hlt
    omega
  | cons w rest ih =>
    obtain ⟨s, bs⟩ := w
    cases s with
    | stdout =>
      induction bs generalizing st with
      | nil => exact .step (i := .child 0) (childStep_next 0 h.child) (ih h.next)
      | cons b bs ihb =>
        obtain ⟨mid, last, hs1, hs2, hlast⟩ := h.stdout
        exact .step hs1 (.step hs2 (ihb hlast))
    | stderr =>
      by_cases hbs : bs = []
      · subst hbs
        exact .step (i := .child 0) (childStep_next 0 h.child) (ih h.next)
      have hpos := List.length_pos_iff.mpr hbs
      have hle := h.le
      by_cases hfits : (st.pipe .stderr).Fits bs.length
      · obtain ⟨mid, hs, hmid, -, -⟩ := h.stderr hbs hpos (le_refl _) hfits
        rw [List.drop_length] at hmid
        exact .step hs (.step (i := .child 0) (childStep_next 0 hmid.child) (ih hmid.next))
      · rw [Pipe.Fits] at hfits
        by_cases hfull : (st.pipe .stderr).capacity ≤ (st.pipe .stderr).content.length
        · obtain ⟨b, bs, rfl⟩ := List.exists_cons_of_ne_nil hbs
          exact ⟨[], st, .nil st, h.blocked hfull⟩
        · -- the room that is left is filled first
          obtain ⟨mid, hs, hmid, hcap, hlen⟩ := h.stderr hbs
            (n := (st.pipe .stderr).capacity - (st.pipe .stderr).content.length) (by omega)
            (by omega) (by rw [Pipe.Fits]; omega)
          obtain ⟨b, tail, htail⟩ := List.exists_cons_of_ne_nil (l := bs.drop
            ((st.pipe .stderr).capacity - (st.pipe .stderr).content.length)) (by
              rw [ne_eq, List.drop_eq_nil_iff]
              omega)
          rw [htail] at hmid
          exact .step hs ⟨[], mid, .nil mid, hmid.blocked (by omega)⟩

end ExecState

open ExecState

/-- In no interleaving are parent and child both blocked, and `execWithPipes` returns what the child
has written. -/
def RunsThrough (capacity : Stream → Nat) (writes : List (Stream × Bytes)) : Prop :=
  ∀ is st, (start capacity writes).Runs is st →
    ¬(st.ParentBlocked ∧ st.ChildBlocked) ∧
      ∀ status, st.parent = .returned →
        (st.result status).stdout_str = written .stdout writes ∧
        (st.result status).stderr_str = written .stderr writes

theorem ExecState.Flows.output {st : ExecState} {writes : List (Stream × Bytes)}
    (h : st.Flows writes) (hp : st.parent = .returned) (s : Stream) :
    st.output s = written s writes := by
  have hend : ∀ t, st.Ended t := fun _ => .inr (.inl hp)
  have hbytes := h.bytes s
  rw [h.empty s (hend s), left, h.exited (hend _), List.append_nil, Option.getD_none] at hbytes
  rw [← hbytes]
  exact (List.append_nil _).symm

/-- Once the parent has closed its ends it reads standard output. -/
theorem ExecState.start_deadlocks {capacity : Stream → Nat} (hcap : ∀ s, 1 ≤ capacity s)
    {writes : List (Stream × Bytes)}
    (h : capacity .stderr < (written .stderr writes).length) :
    (start capacity writes).Deadlocks := by
  refine .step (i := .parent) rfl (.step (i := .parent) rfl
    (Loaded.deadlocks writes ?_))
  refine ⟨rfl, rfl, rfl, ?_, hcap .stdout, Nat.zero_le _, ?_⟩
  · simp [start, Pipe.new]
  · simpa [start, Pipe.new] using h

theorem RunsThrough.fits {capacity : Stream → Nat} (hcap : ∀ s, 1 ≤ capacity s)
    {writes : List (Stream × Bytes)} (h : RunsThrough capacity writes) :
    (written .stderr writes).length ≤ capacity .stderr := by
  by_contra hlt
  obtain ⟨is, st, hrun, hblocked⟩ := start_deadlocks hcap (Nat.lt_of_not_le hlt)
  exact (h is st hrun).1 hblocked

/-- Running a child cannot deadlock exactly when all that it writes to standard error fits into the
pipe, which the parent does not read before the child has exited. -/
theorem runsThrough_iff (capacity : Stream → Nat) (hcap : ∀ s, 1 ≤ capacity s)
    (writes : List (Stream × Bytes)) :
    RunsThrough capacity writes ↔ (written .stderr writes).length ≤ capacity .stderr := by
  constructor
  · exact RunsThrough.fits hcap
  · intro hfits is st hrun
    obtain ⟨hflows, hcapacity⟩ := Runs.flows hrun
    refine ⟨hflows.not_deadlocked ?_ ?_, fun status hp => ⟨hflows.output hp _, hflows.output hp _⟩⟩
    · rw [hcapacity]
      exact hcap .stdout
    · rw [hcapacity]
      exact hfits

/-- More on standard output than its pipe holds does no harm. -/
theorem runsThrough_stdout :
    RunsThrough (fun _ => 4) [(.stdout, bytes "abcdefgh"), (.stderr, bytes "err")] :=
  (runsThrough_iff (fun _ => 4) (fun _ => by decide) _).mpr (by decide)

/-- One byte more on standard error than a pipe of the usual size holds. -/
theorem large_stderr_deadlocks :
    ¬RunsThrough (fun _ => 65536) [(.stderr, List.replicate 65537 101)] := by
  intro h
  have hfits := h.fits (fun _ => by decide)
  rw [written_cons, if_pos rfl, List.length_append, List.length_replicate] at hfits
  omega

end MuduoServer
