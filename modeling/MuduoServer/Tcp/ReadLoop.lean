import MuduoServer.Tcp.Connection

namespace MuduoServer

/-- What `::read` returns: bytes, none of them at the end of the file, or -1 with an `errno`. -/
inductive ReadResult
  | read (bs : Bytes)
  | fails (e : Errno)
  deriving DecidableEq, Repr

namespace ReadResult

/-- End of file: the peer has closed its side. -/
abbrev eof : ReadResult := .read []

/-- Data, or an interruption by a signal. -/
def GoesOn : ReadResult → Prop
  | .read bs => bs ≠ []
  | .fails e => e = .eintr

instance : (r : ReadResult) → Decidable r.GoesOn
  | .read bs => inferInstanceAs (Decidable (bs ≠ []))
  | .fails e => inferInstanceAs (Decidable (e = .eintr))

def data : ReadResult → Bytes
  | .read bs => bs
  | .fails _ => []

end ReadResult

namespace Endpoint

def appendIn (e : Endpoint) (bs : Bytes) : Endpoint :=
  { e with conn := { e.conn with inBuffer := e.conn.inBuffer.append bs } }

/-- A round of the loop in `readNonBlocking`; the result tells whether there is another. -/
def readOnce (e : Endpoint) : ReadResult → Bool × Endpoint
  | .read bs =>
    if 0 < bs.length then (true, e.appendIn bs) else (false, e.handleClose)
  | .fails .eintr => (true, e)
  | .fails .eagain => (false, e)
  -- the branch for errors is taken when the result is below -1
  | .fails .other => (true, e)

/-- The results that are left over are those of later calls of `::read`. A call that the kernel has
not answered yet ends the run of the code where it stands. -/
def readNonBlocking (e : Endpoint) : List ReadResult → Except Endpoint (Endpoint × List ReadResult)
  | [] => .error e
  | r :: rs =>
    match e.readOnce r with
    | (true, e) => readNonBlocking e rs
    | (false, e) => .ok (e, rs)

/-- The data of some results, in the order in which they are read. -/
def dataOf (rs : List ReadResult) : Bytes := rs.flatMap ReadResult.data

variable {e e' : Endpoint} {r : ReadResult} {l rs rest : List ReadResult}

theorem dataOf_append (l rs : List ReadResult) : dataOf (l ++ rs) = dataOf l ++ dataOf rs :=
  List.flatMap_append

/-- What a read loop changes before it ends: it appends data to the input buffer. -/
structure Reads (e : Endpoint) (bs : Bytes) (e' : Endpoint) : Prop where
  bounds : e'.conn.inBuffer.Bounds
  text : e'.conn.inBuffer.toString = e.conn.inBuffer.toString ++ bs
  rest : e' = { e with conn := { e.conn with inBuffer := e'.conn.inBuffer } }

theorem Reads.refl (hb : e.conn.inBuffer.Bounds) : e.Reads [] e :=
  ⟨hb, (List.append_nil _).symm, rfl⟩

theorem Reads.trans {e1 : Endpoint} {bs bs' : Bytes} (h : e.Reads bs e1) (h' : e1.Reads bs' e') :
    e.Reads (bs ++ bs') e' := by
  refine ⟨h'.bounds, ?_, ?_⟩
  · rw [h'.text, h.text, List.append_assoc]
  · rw [h'.rest, h.rest]

theorem Reads.state {bs : Bytes} (h : e.Reads bs e') : e'.conn.state = e.conn.state := by
  rw [h.rest]

theorem appendIn_reads (hb : e.conn.inBuffer.Bounds) (bs : Bytes) :
    e.Reads bs (e.appendIn bs) := by
  obtain ⟨hb', htext, -⟩ := hb.append bs
  exact ⟨hb', htext, rfl⟩

/-- A round that is followed by another appends the data it got. -/
theorem readOnce_goesOn (hb : e.conn.inBuffer.Bounds) (h : e.readOnce r = (true, e')) :
    e.Reads r.data e' := by
  rcases r with bs | err
  · rw [readOnce] at h
    split_ifs at h with hpos
    · cases h
      exact appendIn_reads hb bs
    · cases h
  · cases err with
    | eintr =>
      cases h
      exact .refl hb
    | eagain => cases h
    | other =>
      cases h
      exact .refl hb

/-- Data and interruptions do not end the loop, and neither do errors. -/
theorem readOnce_continues (e : Endpoint) :
    (∃ e', e.readOnce r = (true, e')) ↔ r.GoesOn ∨ r = .fails .other := by
  rcases r with bs | err
  · rw [readOnce, ReadResult.GoesOn, ← List.length_pos_iff]
    split_ifs with hpos <;> simp [hpos]
  · cases err <;> simp [readOnce, ReadResult.GoesOn]

/-- The loop through rounds that do not end it. -/
theorem readNonBlocking_through (hb : e.conn.inBuffer.Bounds)
    (hl : ∀ r ∈ l, r.GoesOn ∨ r = .fails .other) :
    ∃ e', e.Reads (dataOf l) e' ∧ ∀ rs, e.readNonBlocking (l ++ rs) = e'.readNonBlocking rs := by
  induction l generalizing e with
  | nil => exact ⟨e, .refl hb, fun _ => rfl⟩
  | cons r l ih =>
    obtain ⟨e1, hround⟩ := (readOnce_continues e).mpr (hl r (by simp))
    have hreads := readOnce_goesOn hb hround
    obtain ⟨e', hreads', hloop⟩ := ih hreads.bounds fun r' hr' => hl r' (by simp [hr'])
    refine ⟨e', hreads.trans hreads', ?_⟩
    intro rs
    rw [List.cons_append, readNonBlocking, hround]
    exact hloop rs

/-- The two ways in which the loop ends. -/
theorem readOnce_ends (hr : ¬(r.GoesOn ∨ r = .fails .other)) :
    (r = .fails .eagain ∧ e.readOnce r = (false, e)) ∨
      (r = .eof ∧ e.readOnce r = (false, e.handleClose)) := by
  rcases r with bs | err
  · obtain rfl : bs = [] := by simpa [ReadResult.GoesOn] using hr
    exact .inr ⟨rfl, rfl⟩
  · cases err with
    | eagain => exact .inl ⟨rfl, rfl⟩
    | eintr => exact absurd (.inl rfl) hr
    | other => exact absurd (.inr rfl) hr

/-- A loop that returns has met the last of its results after others that do not end it. -/
theorem readNonBlocking_ok (hb : e.conn.inBuffer.Bounds)
    (h : e.readNonBlocking rs = .ok (e', rest)) :
    ∃ l r e1, rs = l ++ r :: rest ∧ (∀ r ∈ l, r.GoesOn ∨ r = .fails .other) ∧
      e.Reads (dataOf l) e1 ∧
      (r = .fails .eagain ∧ e' = e1 ∨ r = .eof ∧ e' = e1.handleClose) := by
  induction rs generalizing e with
  | nil => cases h
  | cons r rs ih =>
    rw [readNonBlocking] at h
    by_cases hr : r.GoesOn ∨ r = .fails .other
    · obtain ⟨e1, hround⟩ := (readOnce_continues e).mpr hr
      have hreads := readOnce_goesOn hb hround
      rw [hround] at h
      obtain ⟨l, r', e2, rfl, hl, hreads', hend⟩ := ih hreads.bounds h
      refine ⟨r :: l, r', e2, rfl, ?_, hreads.trans hreads', hend⟩
      intro x hx
      rcases List.mem_cons.mp hx with rfl | hx
      · exact hr
      · exact hl x hx
    · rcases readOnce_ends hr with ⟨heq, hround⟩ | ⟨heq, hround⟩
      · rw [hround] at h
        cases h
        exact ⟨[], r, _, rfl, by simp, .refl hb, .inl ⟨heq, rfl⟩⟩
      · rw [hround] at h
        cases h
        exact ⟨[], r, _, rfl, by simp, .refl hb, .inr ⟨heq, rfl⟩⟩

/-- What is to hold of a loop whose results are data and interruptions `l`, and then `r`: it returns
after `r`, disconnected unless the kernel has nothing for now, and has appended the data. -/
def EndsAt (e : Endpoint) (l : List ReadResult) (r : ReadResult) (later : List ReadResult) : Prop :=
  ∃ e', e.readNonBlocking (l ++ r :: later) = .ok (e', later) ∧
    (r ≠ .fails .eagain → e'.conn.state = .disconnected) ∧
    e'.conn.inBuffer.toString = e.conn.inBuffer.toString ++ dataOf l

/-- The loop ends at the first result that is neither data nor an interruption, unless that is an
error; after an error it reads again. -/
theorem read_ends_iff (hb : e.conn.inBuffer.Bounds) (hl : ∀ r ∈ l, r.GoesOn) (hr : ¬r.GoesOn)
    (later : List ReadResult) : e.EndsAt l r later ↔ r ≠ .fails .other := by
  obtain ⟨e1, hreads, hloop⟩ := readNonBlocking_through hb fun r hr => .inl (hl r hr)
  constructor
  · intro ⟨e', hret, _, _⟩ herr
    rw [hloop, herr] at hret
    have hagain : e1.readNonBlocking later = .ok (e', later) := hret
    obtain ⟨l', r', _, hlater, -⟩ := readNonBlocking_ok hreads.bounds hagain
    have hlen := congrArg List.length hlater
    simp only [List.length_append, List.length_cons] at hlen
    omega
  · intro hne
    rcases readOnce_ends (e := e1) (not_or.mpr ⟨hr, hne⟩) with ⟨rfl, hround⟩ | ⟨rfl, hround⟩
    · refine ⟨e1, ?_, fun h => absurd rfl h, hreads.text⟩
      rw [hloop, readNonBlocking, hround]
    · refine ⟨e1.handleClose, ?_, fun _ => e1.handleClose_state, ?_⟩
      · rw [hloop, readNonBlocking, hround]
      · rw [handleClose_inBuffer, hreads.text]

/-- Data, a signal and the end of the file. -/
theorem read_ends_hello :
    (connected ⟨1, 0⟩ []).EndsAt [.read (bytes "hello"), .fails .eintr] .eof [] :=
  (read_ends_iff Buffer.default_wf.bounds (by decide) (by decide) []).mpr (by decide)

/-- An error that stays: however often it is returned, the loop calls `::read` again. -/
theorem read_error_spins :
    (∀ n, (connected ⟨1, 0⟩ []).readNonBlocking (List.replicate n (.fails .other)) =
      .error (connected ⟨1, 0⟩ [])) ∧
    ¬(connected ⟨1, 0⟩ []).EndsAt [] (.fails .other) [.fails .other] := by
  constructor
  · intro n
    induction n with
    | zero => rfl
    | succ n ih => exact ih
  · intro ⟨e', hret, _⟩
    cases hret

end Endpoint

end MuduoServer
