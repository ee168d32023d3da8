import MuduoServer.Log.LogFile
import MuduoServer.Log.LogOrder

namespace MuduoServer

/-- `AsyncLogging` with the `LogFile` of its back-end thread, and the last reading of the clock. -/
structure LogPipeline (SIZE : Nat) where
  logging : AsyncLogging SIZE
  output : LogFile
  now : Nat

inductive PipelineStep
  | append (line : Bytes)
  /-- The next step of the back-end thread, at a time. -/
  | threadFunc (now : Nat)
  | stop
  deriving DecidableEq, Repr

namespace PipelineStep

/-- What the step is for the buffers. -/
def logStep : PipelineStep → LogStep
  | append line => .append line
  | threadFunc _ => .threadFunc
  | stop => .stop

/-- A line is shorter than a buffer, and the clock does not go back. -/
def Allowed (SIZE last : Nat) (a : PipelineStep) : Prop :=
  a.logStep.Short SIZE ∧ ∀ now, a = threadFunc now → last ≤ now

instance (SIZE last : Nat) : (a : PipelineStep) → Decidable (a.Allowed SIZE last)
  | append line => decidable_of_iff (line.length < SIZE) (by simp [Allowed, logStep, LogStep.Short])
  | threadFunc now => decidable_of_iff (last ≤ now) (by simp [Allowed, logStep, LogStep.Short])
  | stop => decidable_of_iff True (by simp [Allowed, logStep, LogStep.Short])

end PipelineStep

namespace LogPipeline

variable {SIZE : Nat} (p : LogFileParams)

/-- A logger whose back-end thread has just made its `LogFile`. -/
def new (start : Nat) : LogPipeline SIZE := ⟨.new, .new p start, start⟩

/-- `output.append(buffer->data(), buffer->length())`, when the thread is about to write. -/
def writeBuffer (s : LogPipeline SIZE) (now : Nat) : Option LogFile :=
  match s.logging.pc with
  | .writing (some b :: _) => s.output.append p ⟨b.data, now⟩
  | _ => some s.output

def step (s : LogPipeline SIZE) (a : PipelineStep) : Option (LogPipeline SIZE) := do
  let logging ← s.logging.step a.logStep
  match a with
  | .threadFunc now =>
    let output ← s.writeBuffer p now
    some ⟨logging, output, now⟩
  | _ => some { s with logging }

abbrev Runs (s : LogPipeline SIZE) : List PipelineStep → LogPipeline SIZE → Prop :=
  Run (fun s a s' => a.Allowed SIZE s.now ∧ s.step p a = some s') s

end LogPipeline

namespace AsyncLogging

variable {SIZE : Nat} {l l' : AsyncLogging SIZE} {done : List (List Bytes)}

/-- What is in the buffers that pointers own. -/
def texts (ps : List (BufferPtr SIZE)) : List (Option Bytes) := ps.map (Option.map FixedBuffer.data)

@[simp] theorem texts_append (ps qs : List (BufferPtr SIZE)) :
    texts (ps ++ qs) = texts ps ++ texts qs :=
  List.map_append

@[simp] theorem texts_cons (q : BufferPtr SIZE) (ps : List (BufferPtr SIZE)) :
    texts (q :: ps) = q.map FixedBuffer.data :: texts ps := rfl

@[simp] theorem texts_nil : texts ([] : List (BufferPtr SIZE)) = [] := rfl

/-- The lines were put into the buffers whole: those of `done` were written, the others are in the
buffers that are not. -/
def Whole (l : AsyncLogging SIZE) (done pending : List (List Bytes)) : Prop :=
  texts (l.unwritten ++ l.front) = pending.map (fun lines => some lines.flatten) ∧
    (done ++ pending).flatten = l.appended

/-- A line goes behind the lines of the current buffer, or into an empty one. -/
theorem Whole.append {pending : List (List Bytes)} (h : l.Whole done pending) (ho : l.Orderly)
    {line : Bytes} (hlen : line.length < SIZE) (hs : l.append line = some l') :
    ∃ pending', l'.Whole done pending' := by
  obtain ⟨c, hc⟩ := Option.ne_none_iff_exists'.mp ho.current
  obtain ⟨htexts, happended⟩ := h
  rw [front, hc, ← List.append_assoc, texts_append, eq_comm, List.map_eq_append_iff] at htexts
  obtain ⟨before, last, rfl, hbefore, hlast⟩ := htexts
  obtain ⟨g, rfl, hg⟩ := List.map_eq_singleton_iff.mp hlast
  have hdata : g.flatten = c.data := Option.some.inj hg
  have happended' : (done ++ (before ++ [g])).flatten ++ [line] = l.appended ++ [line] := by
    rw [happended]
  by_cases hroom : c.avail > line.length
  · rw [append_room hc hroom] at hs
    cases hs
    refine ⟨before ++ [g ++ [line]], ?_, ?_⟩
    · have hflatten : (g ++ [line]).flatten = (c.append line).data := by
        rw [FixedBuffer.append_data hroom, ← hdata, List.flatten_append, List.flatten_singleton]
      rw [front, ← List.append_assoc, texts_append, List.map_append, hbefore, List.map_singleton,
        hflatten]
      rfl
    · rw [← happended']
      simp
  · rw [append_full hc hroom] at hs
    cases hs
    have hblank : (l.nextBuffer.getD .new).data = [] := by
      cases hn : l.nextBuffer with
      | some n => exact ho.nextBlank n hn
      | none => rfl
    have hempty : (l.nextBuffer.getD .new).avail > line.length := by
      rw [FixedBuffer.empty_avail hblank]
      exact hlen
    refine ⟨before ++ [g] ++ [[line]], ?_, ?_⟩
    · have hline : ((l.nextBuffer.getD .new).append line).data = line := by
        rw [FixedBuffer.append_data hempty, hblank, List.nil_append]
      have hfront : texts (l.unwritten ++ (l.buffers ++ [some c])) =
          (before ++ [g]).map fun lines => some lines.flatten := by
        rw [← List.append_assoc, texts_append, List.map_append, hbefore, List.map_singleton, hdata]
        rfl
      rw [front, ← List.append_assoc, texts_append, List.map_append, List.map_singleton]
      refine congrArg₂ (· ++ ·) hfront ?_
      rw [List.flatten_singleton, texts_cons, Option.map_some, hline, texts_nil]
    · rw [← happended']
      simp

/-- The buffers that a step of the back-end thread moves keep their lines; the one that is written
is the first of those that were not. -/
theorem Whole.threadFunc {pending : List (List Bytes)} (h : l.Whole done pending) (ho : l.Orderly)
    (hs : l.threadFunc = some l') :
    (∃ b left lines pending', l.pc = .writing (some b :: left) ∧ b.data = lines.flatten ∧
        l'.Whole (done ++ [lines]) pending') ∨
      (∀ b left, l.pc ≠ .writing (some b :: left)) ∧ ∃ pending', l'.Whole done pending' := by
  have hkept := threadFunc_appended hs
  obtain ⟨htexts, happended⟩ := h
  rw [AsyncLogging.threadFunc] at hs
  cases hp : l.pc with
  | test =>
    rw [hp] at hs
    cases hs
    refine .inr ⟨by simp, pending, ?_, happended⟩
    rw [unwritten, hp] at htexts
    rw [← htexts]
    dsimp only [unwritten]
    split_ifs <;> rfl
  | locking =>
    rw [unwritten, hp] at htexts
    rw [hp] at hs
    simp only [Option.some.injEq] at hs
    rw [← hs]
    split_ifs
    · exact .inr ⟨by simp, pending, htexts, happended⟩
    · refine .inr ⟨by simp, pending, ?_, happended⟩
      rw [← htexts]
      rfl
  | waiting =>
    rw [unwritten, hp] at htexts
    rw [hp] at hs
    cases hs
    obtain ⟨sc, hsc⟩ := Option.ne_none_iff_exists'.mp (ho.stocked.spares (by simp [hp])).1
    have hblank := ho.swapCurrentBlank sc hsc
    refine .inr ⟨by simp, pending ++ [[]], ?_, ?_⟩
    · rw [List.map_append, ← htexts, List.map_singleton, List.flatten_nil]
      simp only [unwritten, collectAll, front, hsc, texts_append, texts_cons, texts_nil,
        Option.map_some, hblank, List.nil_append]
    · rw [← List.append_assoc, List.flatten_append, happended]
      exact List.append_nil _
  | writing left =>
    rw [unwritten, hp] at htexts
    rw [hp] at hs
    cases left with
    | nil =>
      refine .inr ⟨by simp, pending, ?_, happended.trans hkept.symm⟩
      obtain ⟨swapCurrent, swapNext, rest, rest', -, -, rfl⟩ := recycle_eq hs
      exact htexts
    | cons q left =>
      cases q with
      | none => cases hs
      | some b =>
        cases hs
        cases pending with
        | nil => cases htexts
        | cons lines pending =>
          rw [List.cons_append, texts_cons, List.map_cons, List.cons.injEq] at htexts
          refine .inl ⟨b, left, lines, pending, rfl, Option.some.inj htexts.1, htexts.2, ?_⟩
          rw [List.append_assoc]
          exact happended
  | exited =>
    rw [hp] at hs
    cases hs

end AsyncLogging

theorem AsyncLogging.Whole.held {SIZE : Nat} {l : AsyncLogging SIZE}
    {done pending : List (List Bytes)} (h : l.Whole done pending) :
    AsyncLogging.held (l.unwritten ++ l.front) = pending.flatten.flatten := by
  have htexts : ∀ ps : List (BufferPtr SIZE),
      AsyncLogging.held ps = (texts ps).flatMap fun t => t.getD [] := by
    intro ps
    rw [AsyncLogging.held, texts, List.flatMap_map]
    exact List.flatMap_congr fun q _ => by cases q <;> rfl
  rw [htexts, h.1, List.flatMap_map, List.flatten_flatten]
  exact List.flatMap_def

namespace LogPipeline

variable {SIZE : Nat} {p : LogFileParams} {s s' : LogPipeline SIZE}

/-- What holds in every reachable state: each call of the `LogFile` had the lines of a buffer. -/
structure Delivers (p : LogFileParams) (s : LogPipeline SIZE) : Prop where
  orderly : s.logging.Orderly
  lines : ∃ done pending, s.logging.Whole done pending ∧ ∃ last calls, last ≤ s.now ∧
    LogFile.Logged p s.output last calls ∧ calls.map LogCall.line = done.map List.flatten

/-- A step of the back-end thread that writes writes to the `LogFile` as well. -/
theorem Delivers.threadFunc (h : s.Delivers p) {now : Nat} (hnow : s.now ≤ now)
    {logging : AsyncLogging SIZE} (hs : s.logging.threadFunc = some logging) :
    ∃ output, s.writeBuffer p now = some output ∧
      (⟨logging, output, now⟩ : LogPipeline SIZE).Delivers p := by
  have horderly := h.orderly.threadFunc hs
  obtain ⟨done, pending, hwhole, last, calls, hlast, hlogged, hcalls⟩ := h.lines
  rcases hwhole.threadFunc h.orderly hs with
    ⟨b, left, lines, pending', hpc, hdata, hwhole'⟩ | ⟨hpc, pending', hwhole'⟩
  · obtain ⟨output, happend, hlogged', -⟩ := hlogged.append
      (show last ≤ (⟨b.data, now⟩ : LogCall).now from hlast.trans hnow)
    refine ⟨output, ?_, horderly, _, _, hwhole', _, _, le_refl now, hlogged', ?_⟩
    · rw [writeBuffer, hpc]
      exact happend
    · rw [List.map_append, List.map_append, hcalls, List.map_singleton, List.map_singleton, hdata]
  · refine ⟨s.output, ?_, horderly, _, _, hwhole', last, calls, hlast.trans hnow, hlogged, hcalls⟩
    rw [writeBuffer]
    split
    · rename_i b left hwriting
      exact absurd hwriting (hpc b left)
    · rfl

theorem Delivers.step (h : s.Delivers p) {a : PipelineStep} (ha : a.Allowed SIZE s.now)
    (hs : s.step p a = some s') : s'.Delivers p := by
  obtain ⟨logging, hlogging, hs⟩ := Option.bind_eq_some_iff.mp hs
  cases a with
  | append line =>
    cases hs
    obtain ⟨done, pending, hwhole, hfiles⟩ := h.lines
    obtain ⟨pending', hwhole'⟩ := hwhole.append h.orderly ha.1 hlogging
    exact ⟨h.orderly.append ha.1 hlogging, done, pending', hwhole', hfiles⟩
  | threadFunc now =>
    obtain ⟨output, hwrite, hdelivers⟩ := h.threadFunc (ha.2 now rfl) hlogging
    dsimp only at hs
    rw [hwrite, Option.bind_eq_bind, Option.bind_some] at hs
    cases hs
    exact hdelivers
  | stop =>
    cases hs
    cases hlogging
    obtain ⟨done, pending, hwhole, hfiles⟩ := h.lines
    exact ⟨{ h.orderly with }, done, pending, hwhole, hfiles⟩

end LogPipeline

end MuduoServer
