import MuduoServer.Log.LogOrder

namespace MuduoServer

namespace AsyncLogging

variable {SIZE : Nat} {l l' : AsyncLogging SIZE}

/-- The steps of the back-end thread alone, once `stop` has been called. -/
abbrev Drains (l l' : AsyncLogging SIZE) : Prop :=
  ∃ n, Run (fun l a l' => a = LogStep.threadFunc ∧ l.step a = some l') l
    (List.replicate n .threadFunc) l'

/-- What the back end will have left in the front end when it exits, if `running_` is false. -/
def leftBehind (l : AsyncLogging SIZE) : Bytes :=
  match l.pc with
  | .waiting => []
  | .locking => if l.buffers = [] then [] else held [l.currentBuffer]
  | _ => held l.front

/-- The back end still collects every line: it waits, or it is about to lock the mutex and no full
buffer makes it pass over `currentBuffer_`; or there is nothing to collect. -/
def WillCollect (l : AsyncLogging SIZE) : Prop :=
  held l.front = [] ∨ l.pc = .waiting ∨
    (l.pc = .locking ∧ (l.buffers = [] ∨ held [l.currentBuffer] = []))

theorem leftBehind_nil_iff (l : AsyncLogging SIZE) : l.leftBehind = [] ↔ l.WillCollect := by
  have hfront : held l.front = [] → held [l.currentBuffer] = [] := by
    intro h
    rw [front, held_append] at h
    exact (List.append_eq_nil_iff.mp h).2
  unfold leftBehind WillCollect
  cases hp : l.pc with
  | waiting => simp
  | locking =>
    by_cases hb : l.buffers = []
    · simp [hb]
    · simp only [hb, if_false, false_or, reduceCtorEq, true_and]
      constructor
      · exact .inr
      · exact fun h => h.elim hfront id
  | test => simp
  | writing left => simp
  | exited => simp

theorem recycle_kept (hs : l.recycle = some l') :
    l'.pc = .test ∧ l'.front = l.front ∧ l'.running = l.running := by
  obtain ⟨swapCurrent, swapNext, rest, rest', -, -, rfl⟩ := recycle_eq hs
  exact ⟨rfl, rfl, rfl⟩

/-- With `running_` false a step of the back end does not change what will be left behind. -/
theorem Orderly.leftBehind_step (h : l.Orderly) (hrunning : l.running = false)
    (hs : l.threadFunc = some l') : l'.leftBehind = l.leftBehind ∧ l'.running = false := by
  rw [AsyncLogging.threadFunc] at hs
  cases hp : l.pc with
  | test =>
    rw [hp, hrunning] at hs
    cases hs
    exact ⟨by simp [leftBehind, hp, front], rfl⟩
  | locking =>
    rw [hp] at hs
    simp only [Option.some.injEq] at hs
    rw [← hs]
    by_cases hb : l.buffers = []
    · rw [if_pos hb]
      exact ⟨by simp [leftBehind, hp, hb], hrunning⟩
    · rw [if_neg hb]
      have hleft : l.leftBehind = held [l.currentBuffer] := by simp [leftBehind, hp, hb]
      exact ⟨hleft.symm, hrunning⟩
  | waiting =>
    rw [hp] at hs
    cases hs
    obtain ⟨sc, hsc⟩ := Option.ne_none_iff_exists'.mp (h.stocked.spares (by simp [hp])).1
    have hscd := h.swapCurrentBlank sc hsc
    have hleft : l.leftBehind = [] := by simp [leftBehind, hp]
    have hcollected : l.collectAll.leftBehind = held [l.swapCurrentBuffer] := rfl
    exact ⟨by rw [hleft, hcollected, hsc, held_cons_some, hscd, held_nil]; rfl, hrunning⟩
  | writing left =>
    rw [hp] at hs
    cases left with
    | nil =>
      obtain ⟨hpc, hfront, hrun⟩ := recycle_kept hs
      exact ⟨by simp [leftBehind, hp, hpc, hfront], hrun.trans hrunning⟩
    | cons p left =>
      cases p with
      | none => cases hs
      | some b =>
        cases hs
        exact ⟨by simp [leftBehind, hp, front], hrunning⟩
  | exited =>
    rw [hp] at hs
    cases hs

theorem Orderly.drained (h : l.Orderly) (hrunning : l.running = false) (hd : l.Drains l') :
    l'.Orderly ∧ l'.leftBehind = l.leftBehind ∧ l'.appended = l.appended := by
  obtain ⟨n, hrun⟩ := hd
  have hinv := hrun.preserves
    (fun l' => l'.Orderly ∧ (l'.leftBehind = l.leftBehind ∧ l'.running = false) ∧
      l'.appended = l.appended) ⟨h, ⟨rfl, hrunning⟩, rfl⟩ (by
    intro l1 a l2 hinv hs
    obtain ⟨h1, ⟨hleft, hrun1⟩, happended⟩ := hinv
    obtain ⟨rfl, hs⟩ := hs
    obtain ⟨hleft2, hrun2⟩ := h1.leftBehind_step hrun1 hs
    exact ⟨(h1.step (a := .threadFunc) trivial hs).1, ⟨hleft2.trans hleft, hrun2⟩,
      (threadFunc_appended hs).trans happended⟩)
  exact ⟨hinv.1, hinv.2.1.1, hinv.2.2⟩

theorem Drains.step {l1 : AsyncLogging SIZE} (hs : l.threadFunc = some l1) (hd : l1.Drains l') :
    l.Drains l' := by
  obtain ⟨n, hrun⟩ := hd
  exact ⟨n + 1, Run.cons ⟨rfl, hs⟩ hrun⟩

/-- The back end writes what it has collected, and exits. -/
theorem Orderly.exits_writing (left : List (BufferPtr SIZE)) {l : AsyncLogging SIZE}
    (h : l.Orderly) (hrunning : l.running = false) (hpc : l.pc = .writing left) :
    ∃ l', l.Drains l' ∧ l'.pc = .exited := by
  induction left generalizing l with
  | nil =>
    obtain ⟨l1, hs, -⟩ := h.stocked.recycle
    obtain ⟨hpc1, -, hrun1⟩ := recycle_kept hs
    have hs0 : l.threadFunc = some l1 := by rw [AsyncLogging.threadFunc, hpc]; exact hs
    have hs1 : l1.threadFunc = some { l1 with pc := .exited } := by
      rw [AsyncLogging.threadFunc, hpc1, hrun1, hrunning]
      rfl
    exact ⟨_, .step hs0 (.step hs1 ⟨0, .nil _⟩), rfl⟩
  | cons p left ih =>
    cases p with
    | none =>
      have hleft := h.left
      simp [unwritten, hpc] at hleft
    | some b =>
      have hs : l.threadFunc =
          some { l with output := l.output ++ b.data, pc := .writing left } := by
        rw [AsyncLogging.threadFunc, hpc]
      obtain ⟨l', hd, hexit⟩ := ih (h.step (a := .threadFunc) trivial hs).1 hrunning rfl
      exact ⟨l', .step hs hd, hexit⟩

/-- `stop` returns: from wherever it is, the back end exits. -/
theorem Orderly.exits (h : l.Orderly) (hrunning : l.running = false) :
    ∃ l', l.Drains l' ∧ l'.pc = .exited := by
  have hwaits : ∀ l1 : AsyncLogging SIZE, l1.Orderly → l1.running = false → l1.pc = .waiting →
      ∃ l', l1.Drains l' ∧ l'.pc = .exited := by
    intro l1 h1 hrun1 hpc1
    have hs : l1.threadFunc = some l1.collectAll := by rw [AsyncLogging.threadFunc, hpc1]
    obtain ⟨l', hd, hexit⟩ := (h1.collectAll hpc1).exits_writing _ hrun1 rfl
    exact ⟨l', .step hs hd, hexit⟩
  cases hp : l.pc with
  | test =>
    have hs : l.threadFunc = some { l with pc := .exited } := by
      rw [AsyncLogging.threadFunc, hp, hrunning]
      rfl
    exact ⟨_, .step hs ⟨0, .nil _⟩, rfl⟩
  | locking =>
    by_cases hb : l.buffers = []
    · have hs : l.threadFunc = some { l with pc := .waiting } := by
        simp only [AsyncLogging.threadFunc, hp, if_pos hb]
      obtain ⟨l', hd, hexit⟩ := hwaits _ (h.step (a := .threadFunc) trivial hs).1 hrunning rfl
      exact ⟨l', .step hs hd, hexit⟩
    · have hs : l.threadFunc = some l.collectFull := by
        simp only [AsyncLogging.threadFunc, hp, if_neg hb]
      obtain ⟨l', hd, hexit⟩ := (h.collectFull hp hb).exits_writing _ hrunning rfl
      exact ⟨l', .step hs hd, hexit⟩
  | waiting => exact hwaits l h hrunning hp
  | writing left => exact h.exits_writing left hrunning hp
  | exited => exact ⟨l, ⟨0, .nil _⟩, hp⟩

end AsyncLogging

open AsyncLogging in
/-- After `stop` the back end exits, and every line appended before is written by then exactly when
`stop` found the back end where it still collects them. -/
theorem stop_flushes_iff (SIZE : Nat) (steps : List LogStep) (l : AsyncLogging SIZE)
    (hrun : Runs new steps l) :
    (∃ l', Drains { l with running := false } l' ∧ l'.pc = .exited) ∧
      ∀ l', Drains { l with running := false } l' → l'.pc = .exited →
        (l'.output = steps.flatMap LogStep.line ↔ l.WillCollect) := by
  obtain ⟨h, happended⟩ := Runs.orderly hrun
  have hstop : ({ l with running := false } : AsyncLogging SIZE).Orderly := { h with }
  refine ⟨hstop.exits rfl, ?_⟩
  intro l' hd hexit
  obtain ⟨h', hleft, happended'⟩ := hstop.drained rfl hd
  have hlines := h'.lines
  simp only [unwritten, hexit, held_nil, List.append_nil] at hlines
  rw [happended', happended] at hlines
  have hend : l'.leftBehind = held l'.front := by simp only [leftBehind, hexit]
  have hstart : leftBehind { l with running := false } = l.leftBehind := rfl
  rw [← l.leftBehind_nil_iff, ← hstart, ← hleft, hend, ← hlines]
  constructor
  · intro h
    exact List.append_cancel_left (h.symm.trans (List.append_nil _).symm)
  · intro h
    rw [h, List.append_nil]

open AsyncLogging in
theorem stop_flushes_iff_waiting :
    ∃ l l' : AsyncLogging 9, l.pc = .waiting ∧ Drains { l with running := false } l' ∧
      l'.output = bytes "abc" := by
  obtain ⟨l, hrun, hl⟩ := Run.exists_of_guarded (s := (new : AsyncLogging 9)) (f := step)
    (p := fun _ a => a.Short 9) (g := fun l => l.pc) (a := .waiting)
    (l := [.threadFunc, .threadFunc, .append (bytes "abc")]) (by decide +kernel)
  obtain ⟨⟨l', hd, hexit⟩, hiff⟩ := stop_flushes_iff 9 _ l hrun
  exact ⟨l, l', hl, hd, (hiff l' hd hexit).mpr (.inr (.inl hl))⟩

open AsyncLogging in
/-- A line appended while the back end writes is lost when `stop` comes before the next collect. -/
theorem stop_loses_line :
    ∃ l l' : AsyncLogging 9,
      Runs new [.threadFunc, .threadFunc, .threadFunc, .append (bytes "abc")] l ∧
      Drains { l with running := false } l' ∧ l'.pc = .exited ∧ l'.output = [] := by
  obtain ⟨l, hrun, hl⟩ := Run.exists_of_guarded (s := (new : AsyncLogging 9)) (f := step)
    (p := fun _ a => a.Short 9) (a := some (.exited, []))
    (g := fun l => (([.threadFunc, .threadFunc, .threadFunc] : List LogStep).foldlM
      (fun (l : AsyncLogging 9) a => if a = .threadFunc then l.step a else none)
      { l with running := false }).map fun l' => (l'.pc, l'.output))
    (l := [.threadFunc, .threadFunc, .threadFunc, .append (bytes "abc")]) (by decide +kernel)
  obtain ⟨l', hd, hl'⟩ := Run.exists_of_guarded hl
  exact ⟨l, l', hrun, ⟨3, hd⟩, congrArg Prod.fst hl', congrArg Prod.snd hl'⟩

end MuduoServer
