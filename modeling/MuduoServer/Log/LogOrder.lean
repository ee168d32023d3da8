import MuduoServer.Log.AsyncLogging

namespace MuduoServer

namespace AsyncLogging

variable {SIZE : Nat}

/-- The bytes in the buffers that pointers own. -/
def held (ps : List (BufferPtr SIZE)) : Bytes := ps.flatMap fun p => p.elim [] FixedBuffer.data

/-- The buffers of the front end, in the order in which they are collected. -/
def front (l : AsyncLogging SIZE) : List (BufferPtr SIZE) := l.buffers ++ [l.currentBuffer]

/-- A pointer that owns an empty buffer, where it owns one. -/
def Blank (p : BufferPtr SIZE) : Prop := ∀ b, p = some b → b.data = []

/-- What holds in every reachable state. -/
structure Orderly (l : AsyncLogging SIZE) : Prop where
  current : l.currentBuffer ≠ none
  buffers : none ∉ l.buffers
  toWrite : none ∉ l.buffersToWrite
  left : none ∉ l.unwritten
  next : l.nextBuffer = none → l.buffers ≠ []
  nextBlank : Blank l.nextBuffer
  swapCurrentBlank : Blank l.swapCurrentBuffer
  swapNextBlank : Blank l.swapNextBuffer
  spare : l.missing ≤ l.buffersToWrite.length
  cleared : (∀ left, l.pc ≠ .writing left) → l.buffersToWrite = []
  lines : l.output ++ held l.unwritten ++ held l.front = l.appended.flatten

variable {l l' : AsyncLogging SIZE}

theorem Orderly.stocked (h : l.Orderly) : l.Stocked where
  current := h.current
  buffers := h.buffers
  toWrite := h.toWrite
  left := h.left
  next := h.next
  spare := h.spare
  cleared := h.cleared

theorem Stocked.orderly (h : l.Stocked) (hnext : Blank l.nextBuffer)
    (hcurrent : Blank l.swapCurrentBuffer) (hswap : Blank l.swapNextBuffer)
    (hlines : l.output ++ held l.unwritten ++ held l.front = l.appended.flatten) : l.Orderly where
  current := h.current
  buffers := h.buffers
  toWrite := h.toWrite
  left := h.left
  next := h.next
  nextBlank := hnext
  swapCurrentBlank := hcurrent
  swapNextBlank := hswap
  spare := h.spare
  cleared := h.cleared
  lines := hlines

@[simp] theorem held_nil : held ([] : List (BufferPtr SIZE)) = [] := rfl

@[simp] theorem held_append (ps qs : List (BufferPtr SIZE)) :
    held (ps ++ qs) = held ps ++ held qs := List.flatMap_append

@[simp] theorem held_cons_some (b : FixedBuffer SIZE) (ps : List (BufferPtr SIZE)) :
    held (some b :: ps) = b.data ++ held ps := rfl

theorem blank_none : Blank (none : BufferPtr SIZE) := fun _ h => by cases h

theorem blank_new : Blank (some FixedBuffer.new : BufferPtr SIZE) := fun _ h => by
  cases h
  rfl

theorem new_orderly : (new : AsyncLogging SIZE).Orderly :=
  new_stocked.orderly blank_new blank_new blank_new rfl

/-- An append puts its line behind all others. -/
theorem Orderly.append (h : l.Orderly) {line : Bytes} (hlen : line.length < SIZE)
    (hs : l.append line = some l') : l'.Orderly := by
  obtain ⟨l1, hs1, hstocked⟩ := h.stocked.append line
  obtain rfl : l1 = l' := Option.some.inj (hs1.symm.trans hs)
  obtain ⟨c, hc⟩ := Option.ne_none_iff_exists'.mp h.current
  have hlines := h.lines
  rw [front, hc] at hlines
  simp only [held_append, held_cons_some, held_nil, List.append_nil] at hlines
  by_cases hroom : c.avail > line.length
  · rw [append_room hc hroom] at hs
    cases hs
    refine hstocked.orderly h.nextBlank h.swapCurrentBlank h.swapNextBlank ?_
    have happend := FixedBuffer.append_data hroom
    simp only [front, held_append, held_cons_some, held_nil, List.append_nil, happend,
      List.flatten_append, List.flatten_cons, List.flatten_nil, ← hlines]
    simp only [List.append_assoc]
    rfl
  · rw [append_full hc hroom] at hs
    cases hs
    refine hstocked.orderly blank_none h.swapCurrentBlank h.swapNextBlank ?_
    -- the line goes into an empty buffer
    have hblank : (l.nextBuffer.getD .new).data = [] := by
      cases hn : l.nextBuffer with
      | some n => exact h.nextBlank n hn
      | none => rfl
    have hroom : (l.nextBuffer.getD .new).avail > line.length := by
      rw [FixedBuffer.empty_avail hblank]
      exact hlen
    have happend := FixedBuffer.append_data hroom
    rw [hblank, List.nil_append] at happend
    simp only [front, held_append, held_cons_some, held_nil, List.append_nil, happend,
      List.flatten_append, List.flatten_cons, List.flatten_nil, ← hlines]
    simp only [List.append_assoc]
    rfl

theorem Orderly.collectAll (h : l.Orderly) (hpc : l.pc = .waiting) : l.collectAll.Orderly := by
  have hstocked := h.stocked.collectAll hpc
  obtain ⟨sc, hsc⟩ := Option.ne_none_iff_exists'.mp (h.stocked.spares (by simp [hpc])).1
  have hblank := h.swapCurrentBlank sc hsc
  have hlines := h.lines
  refine hstocked.orderly ?_ blank_none ?_ ?_
  · dsimp only [AsyncLogging.collectAll]
    split_ifs
    · exact h.swapNextBlank
    · exact h.nextBlank
  · dsimp only [AsyncLogging.collectAll]
    split_ifs
    · exact blank_none
    · exact h.swapNextBlank
  · simp only [unwritten, hpc, front, AsyncLogging.collectAll, hsc, held_append, held_nil,
      held_cons_some, hblank, List.append_nil] at hlines ⊢
    exact hlines

theorem Orderly.collectFull (h : l.Orderly) (hpc : l.pc = .locking) (hb : l.buffers ≠ []) :
    l.collectFull.Orderly := by
  have hlines := h.lines
  refine (h.stocked.collectFull hpc hb).orderly h.swapNextBlank h.swapCurrentBlank blank_none ?_
  simp only [unwritten, hpc, front, AsyncLogging.collectFull, held_append, held_nil,
    List.append_nil, List.nil_append, List.append_assoc] at hlines ⊢
  exact hlines

/-- A written buffer is reset when it becomes a spare one. -/
theorem recover_blank {p p' : BufferPtr SIZE} {spare rest : List (BufferPtr SIZE)}
    (h : recover p spare = some (p', rest)) (hblank : Blank p) : Blank p' := by
  cases p with
  | some b =>
    cases h
    exact hblank
  | none =>
    rw [recover] at h
    split at h
    · cases h
      intro b hb
      cases hb
      rfl
    · cases h

/-- What the end of a round changes. -/
theorem recycle_eq (hs : l.recycle = some l') :
    ∃ swapCurrent swapNext rest rest', recover l.swapCurrentBuffer (l.buffersToWrite.take 2) =
        some (swapCurrent, rest) ∧ recover l.swapNextBuffer rest = some (swapNext, rest') ∧
      l' = { l with
        swapCurrentBuffer := swapCurrent, swapNextBuffer := swapNext, buffersToWrite := [],
        pc := .test } := by
  rw [recycle] at hs
  obtain ⟨⟨swapCurrent, rest⟩, hcurrent, hs⟩ := Option.bind_eq_some_iff.mp hs
  obtain ⟨⟨swapNext, rest'⟩, hnext, hs⟩ := Option.bind_eq_some_iff.mp hs
  exact ⟨swapCurrent, swapNext, rest, rest', hcurrent, hnext, (Option.some.inj hs).symm⟩

theorem Orderly.recycle (h : l.Orderly) (hpc : l.pc = .writing []) (hs : l.recycle = some l') :
    l'.Orderly := by
  obtain ⟨l1, hs1, hstocked⟩ := h.stocked.recycle
  obtain rfl : l1 = l' := Option.some.inj (hs1.symm.trans hs)
  obtain ⟨swapCurrent, swapNext, rest, rest', hcurrent, hnext, rfl⟩ := recycle_eq hs
  have hlines := h.lines
  simp only [unwritten, hpc] at hlines
  exact hstocked.orderly h.nextBlank (recover_blank hcurrent h.swapCurrentBlank)
    (recover_blank hnext h.swapNextBlank) hlines

theorem Orderly.threadFunc (h : l.Orderly) (hs : l.threadFunc = some l') : l'.Orderly := by
  obtain ⟨l1, hs1, hstocked⟩ := h.stocked.threadFunc (threadFunc_not_exited hs)
  obtain rfl : l1 = l' := Option.some.inj (hs1.symm.trans hs)
  rw [AsyncLogging.threadFunc] at hs
  have hlines := h.lines
  cases hp : l.pc with
  | test =>
    rw [hp] at hs
    cases hs
    refine hstocked.orderly h.nextBlank h.swapCurrentBlank h.swapNextBlank ?_
    simp only [unwritten, hp] at hlines
    dsimp only [unwritten]
    split_ifs <;> exact hlines
  | locking =>
    by_cases hb : l.buffers = []
    · simp only [hp, if_pos hb] at hs
      cases hs
      refine hstocked.orderly h.nextBlank h.swapCurrentBlank h.swapNextBlank ?_
      simp only [unwritten, hp] at hlines
      exact hlines
    · simp only [hp, if_neg hb] at hs
      cases hs
      exact h.collectFull hp hb
  | waiting =>
    rw [hp] at hs
    cases hs
    exact h.collectAll hp
  | writing left =>
    rw [hp] at hs
    cases left with
    | nil => exact h.recycle hp hs
    | cons p left =>
      cases p with
      | none => cases hs
      | some b =>
        cases hs
        refine hstocked.orderly h.nextBlank h.swapCurrentBlank h.swapNextBlank ?_
        simp only [unwritten, hp] at hlines
        rw [held_cons_some] at hlines
        rw [← hlines]
        simp only [unwritten, List.append_assoc]
        rfl
  | exited =>
    rw [hp] at hs
    cases hs

theorem append_appended {line : Bytes} (hs : l.append line = some l') :
    l'.appended = l.appended ++ [line] := by
  cases hc : l.currentBuffer with
  | none => simp [append, hc] at hs
  | some c =>
    by_cases hroom : c.avail > line.length
    · rw [append_room hc hroom] at hs
      cases hs
      rfl
    · rw [append_full hc hroom] at hs
      cases hs
      rfl

theorem recycle_appended (hs : l.recycle = some l') : l'.appended = l.appended := by
  obtain ⟨swapCurrent, swapNext, rest, rest', -, -, rfl⟩ := recycle_eq hs
  rfl

theorem threadFunc_appended (hs : l.threadFunc = some l') : l'.appended = l.appended := by
  rw [threadFunc] at hs
  cases hp : l.pc with
  | test =>
    rw [hp] at hs
    cases hs
    rfl
  | locking =>
    rw [hp] at hs
    simp only [Option.some.injEq] at hs
    rw [← hs]
    split_ifs <;> rfl
  | waiting =>
    rw [hp] at hs
    cases hs
    rfl
  | writing left =>
    rw [hp] at hs
    cases left with
    | nil => exact recycle_appended hs
    | cons p left =>
      cases p with
      | none => cases hs
      | some b =>
        cases hs
        rfl
  | exited =>
    rw [hp] at hs
    cases hs

/-- What a step appends, and that it keeps the order. -/
theorem Orderly.step (h : l.Orderly) {a : LogStep} (ha : a.Short SIZE) (hs : l.step a = some l') :
    l'.Orderly ∧ l'.appended.flatten = l.appended.flatten ++ a.line := by
  cases a with
  | append line =>
    exact ⟨h.append ha hs, by rw [append_appended hs, List.flatten_append]; simp [LogStep.line]⟩
  | threadFunc =>
    exact ⟨h.threadFunc hs, by rw [threadFunc_appended hs]; simp [LogStep.line]⟩
  | stop =>
    cases hs
    exact ⟨{ h with }, by simp [LogStep.line]⟩

/-- A run of a logger whose lines are all shorter than a buffer. -/
abbrev Runs (l : AsyncLogging SIZE) : List LogStep → AsyncLogging SIZE → Prop :=
  Run (fun l a l' => a.Short SIZE ∧ l.step a = some l') l

theorem Runs.orderly {steps : List LogStep} (hrun : Runs new steps l) :
    l.Orderly ∧ l.appended.flatten = steps.flatMap LogStep.line := by
  refine hrun.invariant
    (fun steps l => l.Orderly ∧ l.appended.flatten = steps.flatMap LogStep.line)
    ⟨new_orderly, rfl⟩ ?_
  intro steps l a l' hinv hs
  obtain ⟨hl', happended⟩ := hinv.1.step hs.1 hs.2
  refine ⟨hl', ?_⟩
  rw [happended, hinv.2, List.flatMap_append, List.flatMap_singleton]

end AsyncLogging

open AsyncLogging in
/-- The bytes of the log file, the collected buffers that are not written yet, the buffers in
`buffers_` and `currentBuffer_` are, in this order, the lines in the order of their appends; and no
append and no step of the back-end thread is undefined. -/
theorem log_in_order (SIZE : Nat) (steps : List LogStep) (l : AsyncLogging SIZE)
    (hrun : Runs new steps l) :
    l.output ++ held l.unwritten ++ held l.buffers ++ held [l.currentBuffer] =
        steps.flatMap LogStep.line ∧
      (∀ line, line.length < SIZE → (l.append line).isSome) ∧
      (l.pc ≠ .exited → l.threadFunc.isSome) := by
  obtain ⟨h, happended⟩ := Runs.orderly hrun
  refine ⟨?_, ?_, ?_⟩
  · have hlines := h.lines
    rw [front, held_append, happended, ← List.append_assoc] at hlines
    exact hlines
  · intro line hlen
    obtain ⟨l', hs, -⟩ := h.stocked.append line
    exact Option.isSome_of_eq_some hs
  · intro hpc
    obtain ⟨l', hs, -⟩ := h.stocked.threadFunc hpc
    exact Option.isSome_of_eq_some hs

open AsyncLogging in
/-- Lines of a buffer each: the front end takes a new buffer while the back end writes. -/
theorem log_in_order_full :
    ∃ l : AsyncLogging 4, (l.output, held l.unwritten, l.buffers.length) =
        (bytes "abc", bytes "def", 1) ∧
      l.output ++ held l.unwritten ++ held l.buffers ++ held [l.currentBuffer] =
        bytes "abcdefghijkl" := by
  obtain ⟨l, hrun, hl⟩ := Run.exists_of_guarded (s := (new : AsyncLogging 4)) (f := step)
    (p := fun _ a => a.Short 4) (a := (bytes "abc", bytes "def", 1))
    (g := fun l => (l.output, held l.unwritten, l.buffers.length))
    (l := [.threadFunc, .threadFunc, .append (bytes "abc"), .append (bytes "def"), .threadFunc,
      .append (bytes "ghi"), .threadFunc, .append (bytes "jkl")]) (by decide +kernel)
  exact ⟨l, hl, (log_in_order 4 _ l hrun).1⟩

end MuduoServer
