import MuduoServer.Base.Executor

namespace MuduoServer

namespace ExecPc

/-- The steps that are left to the parent, those that read a pipe aside. -/
def left : ExecPc → Nat
  | close .stdout => 5
  | close .stderr => 4
  | read .stdout => 3
  | read .stderr => 2
  | waitpid => 1
  | returned => 0

theorem left_afterClose (s : Stream) : (afterClose s).left < (close s).left := by
  cases s <;> decide

theorem left_afterRead (s : Stream) : (afterRead s).left < (read s).left := by
  cases s <;> decide

end ExecPc

namespace ExecState

/-- A byte that is still to be written will be written and read. -/
def writesLeft (writes : List (Stream × Bytes)) : Nat :=
  (writes.map fun w => 2 * w.2.length + 1).sum

def childLeft : Option (List (Stream × Bytes)) → Nat
  | none => 0
  | some writes => writesLeft writes + 1

def stepsLeft (st : ExecState) : Nat :=
  st.parent.left + childLeft st.child + (st.pipe .stdout).content.length +
    (st.pipe .stderr).content.length

theorem writesLeft_cons (w : Stream × Bytes) (writes : List (Stream × Bytes)) :
    writesLeft (w :: writes) = 2 * w.2.length + 1 + writesLeft writes := by
  rw [writesLeft, List.map_cons, List.sum_cons]
  rfl

/-- What is in the pipes, when the content of one changes. -/
theorem content_update (pipes : Stream → Pipe UInt8) (s : Stream) (q : Pipe UInt8) :
    ((Function.update pipes s q .stdout).content.length +
        (Function.update pipes s q .stderr).content.length) + (pipes s).content.length =
      (pipes .stdout).content.length + (pipes .stderr).content.length + q.content.length := by
  cases s with
  | stdout =>
    rw [Function.update_self, Function.update_of_ne (by decide)]
    omega
  | stderr =>
    rw [Function.update_self, Function.update_of_ne (by decide)]
    omega

variable {st st' : ExecState} {writes : List (Stream × Bytes)}

theorem stepsLeft_parent (hs : st.parentStep = some st') : st'.stepsLeft < st.stepsLeft := by
  obtain ⟨s, hp, rfl⟩ | ⟨s, hp, hc, rfl⟩ | ⟨s, hp, -, -, rfl⟩ | ⟨hp, -, rfl⟩ :=
    parentStep_cases hs
  · have hpipes := content_update st.pipe s (st.pipe s).closeWriter
    have hpc := ExecPc.left_afterClose s
    rw [Pipe.closeWriter_content] at hpipes
    simp only [stepsLeft, hp]
    omega
  · have hpipes := content_update st.pipe s ((st.pipe s).drop readSize)
    have hpos := List.length_pos_iff.mpr hc
    have hsize : 0 < readSize := by decide
    rw [Pipe.drop_content, List.length_drop] at hpipes
    simp only [stepsLeft]
    omega
  · have hpc := ExecPc.left_afterRead s
    simp only [stepsLeft, hp]
    omega
  · simp only [stepsLeft, hp, ExecPc.left]
    omega

/-- A write transfers a byte at least. -/
theorem childStep_pos {n : Nat} {s : Stream} {bs : Bytes} {rest : List (Stream × Bytes)}
    (hc : st.child = some ((s, bs) :: rest)) (hbs : bs ≠ [])
    (hs : st.childStep n = some st') : 1 ≤ n := by
  obtain ⟨b, bs, rfl⟩ := List.exists_cons_of_ne_nil hbs
  simp only [childStep, hc] at hs
  split_ifs at hs with hroom
  exact hroom.1

theorem stepsLeft_child {n : Nat} (hs : st.childStep n = some st') :
    st'.stepsLeft < st.stepsLeft := by
  obtain ⟨hc, rfl⟩ | ⟨s, bs, rest, hc, ⟨rfl, rfl⟩ | ⟨hbs, rfl⟩⟩ := childStep_cases hs
  · simp only [stepsLeft, hc, childLeft, Pipe.closeWriter_content]
    omega
  · simp only [stepsLeft, hc, childLeft, writesLeft_cons]
    omega
  · have hn := childStep_pos hc hbs hs
    have hpos := List.length_pos_iff.mpr hbs
    have hpipes := content_update st.pipe s ((st.pipe s).write (bs.take n))
    rw [Pipe.write_content, List.length_append, List.length_take] at hpipes
    simp only [stepsLeft, hc, childLeft, writesLeft_cons, List.length_drop]
    omega

theorem stepsLeft_step {i : ExecStep} (hs : st.step i = some st') :
    st'.stepsLeft < st.stepsLeft := by
  cases i with
  | parent => exact stepsLeft_parent hs
  | child n => exact stepsLeft_child hs

/-- The ends for writing that are open: the one of the parent, before it closes it, and the one of
the child, before it exits. -/
def Ends (st : ExecState) (s : Stream) : Prop :=
  (st.pipe s).writers =
    (if st.parent = .close .stdout ∨ st.parent = .close s then 1 else 0) +
      if st.child = none then 0 else 1

theorem Ends.parentStep (h : ∀ s, st.Ends s) (hs : st.parentStep = some st') (s : Stream) :
    st'.Ends s := by
  have hends := h s
  rw [Ends] at hends ⊢
  obtain ⟨t, hp, rfl⟩ | ⟨t, hp, hc, rfl⟩ | ⟨t, hp, -, -, rfl⟩ | ⟨hp, -, rfl⟩ :=
    parentStep_cases hs
  · rw [hp] at hends
    cases s <;> cases t <;> simp_all [ExecPc.afterClose]
  · by_cases hts : s = t
    · subst hts
      simpa using hends
    · simpa [hts] using hends
  · rw [hp] at hends
    cases t <;> simpa [ExecPc.afterRead] using hends
  · rw [hp] at hends
    simpa using hends

theorem Ends.childStep (h : ∀ s, st.Ends s) {n : Nat} (hs : st.childStep n = some st')
    (s : Stream) : st'.Ends s := by
  have hends := h s
  rw [Ends] at hends ⊢
  obtain ⟨hc, rfl⟩ | ⟨t, bs, rest, hc, ⟨rfl, rfl⟩ | ⟨hbs, rfl⟩⟩ := childStep_cases hs
  · rw [hc] at hends
    simp [hends]
  · rw [hc] at hends
    simpa using hends
  · rw [hc] at hends
    by_cases hts : s = t
    · subst hts
      simpa using hends
    · simpa [hts] using hends

theorem start_ends (capacity : Stream → Nat) (writes : List (Stream × Bytes)) (s : Stream) :
    (start capacity writes).Ends s := rfl

/-- What is known of every state of a run, and how many steps the run can have had. -/
theorem Runs.bounded {capacity : Stream → Nat} {is : List ExecStep}
    (hrun : (start capacity writes).Runs is st) :
    (∀ s, st.Ends s) ∧ is.length ≤ writesLeft writes + 6 := by
  have hstep : ∀ (st : ExecState) (i : ExecStep) (st' : ExecState), (∀ s, st.Ends s) →
      st.step i = some st' → (∀ s, st'.Ends s) ∧ st'.stepsLeft < st.stepsLeft := by
    intro st i st' hinv hs
    refine ⟨?_, stepsLeft_step hs⟩
    cases i with
    | parent => exact Ends.parentStep hinv hs
    | child n => exact Ends.childStep hinv hs
  obtain ⟨hends, hlen⟩ := hrun.length_add_le (fun st => ∀ s, st.Ends s) stepsLeft
    (start_ends capacity writes) hstep
  have hstart : (start capacity writes).stepsLeft = writesLeft writes + 6 := by
    simp only [stepsLeft, start, ExecPc.left, childLeft, Pipe.new, List.length_nil]
    omega
  refine ⟨hends, ?_⟩
  omega

/-- Once there is no child, the parent is never blocked. -/
theorem parentStep_alone (hends : ∀ s, st.Ends s) (hc : st.child = none)
    (hs : st.parentStep = none) : st.parent = .returned := by
  rw [ExecState.parentStep] at hs
  split at hs
  · cases hs
  · next s hp =>
    have hwriters := hends s
    rw [Ends, hp, hc] at hwriters
    split_ifs at hs with hcontent hw
    exact absurd hwriters (by simpa using hw)
  · next hp =>
    rw [if_pos hc] at hs
    cases hs
  · next hp => exact hp

end ExecState

open ExecState

/-- However the two processes take turns, the run has an end, and there `execWithPipes` has returned
what the child has written and how it exited. -/
structure Returns (capacity : Stream → Nat) (writes : List (Stream × Bytes)) : Prop where
  ends : ∀ is st, (start capacity writes).Runs is st → is.length ≤ writesLeft writes + 6
  result : ∀ is st, (start capacity writes).Runs is st → (∀ i, st.step i = none) →
    st.parent = .returned ∧ ∀ status, st.result status =
      ⟨match status with
        | .exited code => code
        | .signaled => -1, written .stdout writes, written .stderr writes⟩

/-- `execWithPipes` returns, under every scheduler, exactly when all that the child writes to
standard error fits into its pipe. -/
theorem execWithPipes_returns_iff (capacity : Stream → Nat) (hcap : ∀ s, 1 ≤ capacity s)
    (writes : List (Stream × Bytes)) :
    Returns capacity writes ↔ (written .stderr writes).length ≤ capacity .stderr := by
  constructor
  · intro h
    by_contra hlt
    obtain ⟨is, st, hrun, hparent, hchild⟩ := start_deadlocks hcap (Nat.lt_of_not_le hlt)
    refine hparent.1 (h.result is st hrun ?_).1
    intro i
    cases i with
    | parent => exact hparent.2
    | child n => exact hchild.2 n
  · intro hfits
    refine ⟨fun is st hrun => (Runs.bounded hrun).2, ?_⟩
    intro is st hrun hstuck
    obtain ⟨hflows, hcapacity⟩ := Runs.flows hrun
    have hreturned : st.parent = .returned := by
      by_contra hne
      have hparent : st.ParentBlocked := ⟨hne, hstuck .parent⟩
      have hgone : st.child = none := by
        by_contra hchild
        refine hflows.not_deadlocked ?_ ?_ ⟨hparent, hchild, fun n => hstuck (.child n)⟩
        · rw [hcapacity]
          exact hcap .stdout
        · rw [hcapacity]
          exact hfits
      exact hne (parentStep_alone (Runs.bounded hrun).1 hgone hparent.2)
    refine ⟨hreturned, fun status => ?_⟩
    have hout := hflows.output hreturned .stdout
    have herr := hflows.output hreturned .stderr
    cases status <;> simp only [ExecState.result, hout, herr]

theorem execWithPipes_returns_both :
    Returns (fun _ => 4) [(.stdout, bytes "abcdefgh"), (.stderr, bytes "err")] :=
  (execWithPipes_returns_iff (fun _ => 4) (fun _ => by decide) _).mpr (by decide)

end MuduoServer
