import MuduoServer.Framework.Run
import MuduoServer.Tcp.ReadLoop

namespace MuduoServer

/-- The message callback of the user, which keeps the indices of the input buffer in order. -/
structure OnMessage where
  call : Endpoint → Endpoint
  bounds : ∀ e, e.conn.inBuffer.Bounds → (call e).conn.inBuffer.Bounds

/-- A read callback: the results that `::read` returned in it, and what was in the input buffer when
the message callback was called, if it was. -/
structure ReadCall where
  results : List ReadResult
  seen : Option Bytes

namespace Endpoint

/-- The channel's read callback. -/
def readCallback (on_message : OnMessage) (e : Endpoint) (rs : List ReadResult) :
    Except Endpoint (Option Bytes × Endpoint × List ReadResult) := do
  let (e, rest) ← e.readNonBlocking rs
  if e.conn.state = .disconnected then return (none, e, rest)
  return (some e.conn.inBuffer.toString, on_message.call e, rest)

/-- A read callback on a connection that is open. -/
def Reading (on_message : OnMessage) (e : Endpoint) (c : ReadCall) (e' : Endpoint) : Prop :=
  e.conn.state ≠ .disconnected ∧ e.readCallback on_message c.results = .ok (c.seen, e', [])

end Endpoint

namespace ReadCall

/-- All that a callback reads is in the input buffer at a call of the message callback, its own or
that of a later one: the buffer then ends with everything read from the first on. -/
def Delivered (cs : List ReadCall) : Prop :=
  ∀ l c r, cs = l ++ c :: r → Endpoint.dataOf c.results ≠ [] →
    ∃ m d t, c :: r = m ++ d :: t ∧
      ∃ b ∈ d.seen, Endpoint.dataOf ((m ++ [d]).flatMap ReadCall.results) <:+ b

/-- The end of the file is not met in the callback that read what comes before it. -/
def EofApart (c : ReadCall) : Prop := .eof ∈ c.results → Endpoint.dataOf c.results = []

instance (c : ReadCall) : Decidable c.EofApart :=
  inferInstanceAs (Decidable (_ → _))

/-- The callback showed what it had read. -/
def Shown (c : ReadCall) : Prop :=
  .eof ∉ c.results ∧ ∃ b ∈ c.seen, Endpoint.dataOf c.results <:+ b

/-- The callback met the end of the file and showed nothing. -/
def Cut (c : ReadCall) : Prop := .eof ∈ c.results ∧ c.seen = none

end ReadCall

namespace Endpoint

open ReadCall

variable {on_message : OnMessage} {e e' : Endpoint} {c : ReadCall} {cs : List ReadCall}

/-- A callback shows what it has read, unless it meets the end of the file. -/
theorem reading_cases (hb : e.conn.inBuffer.Bounds) (h : e.Reading on_message c e') :
    e'.conn.inBuffer.Bounds ∧ (c.Shown ∨ c.Cut ∧ e'.conn.state = .disconnected) := by
  obtain ⟨results, seen⟩ := c
  obtain ⟨hopen, hcall⟩ := h
  obtain ⟨⟨e2, rest⟩, hloop, hret⟩ := bind_eq_ok.mp hcall
  obtain ⟨l, r, e1, hrs, hl, hreads, hend⟩ := readNonBlocking_ok hb hloop
  have hnoeof : .eof ∉ l := fun hm => by simpa [ReadResult.GoesOn] using hl _ hm
  dsimp only at hret
  dsimp only at hrs
  rcases hend with ⟨rfl, rfl⟩ | ⟨rfl, rfl⟩
  · rw [if_neg (hreads.state ▸ hopen)] at hret
    cases hret
    refine ⟨on_message.bounds _ hreads.bounds, .inl ⟨?_, _, rfl, ?_⟩⟩
    · rw [hrs]
      simpa using hnoeof
    · rw [hrs, dataOf_append, hreads.text]
      exact ⟨e.conn.inBuffer.toString, by simp [dataOf, ReadResult.data]⟩
  · rw [if_pos e1.handleClose_state] at hret
    cases hret
    refine ⟨?_, .inr ⟨⟨?_, rfl⟩, e1.handleClose_state⟩⟩
    · rw [handleClose_inBuffer]
      exact hreads.bounds
    · rw [hrs]
      simp

/-- A callback in which the kernel has nothing more for now, and one that ends the connection. -/
theorem reading_shows (hb : e.conn.inBuffer.Bounds) (hopen : e.conn.state ≠ .disconnected)
    {l : List ReadResult} (hl : ∀ r ∈ l, r.GoesOn ∨ r = .fails .other) :
    ∃ e1, e.Reads (dataOf l) e1 ∧
      e.Reading on_message ⟨l ++ [.fails .eagain], some e1.conn.inBuffer.toString⟩
        (on_message.call e1) := by
  obtain ⟨e1, hreads, hloop⟩ := readNonBlocking_through hb hl
  refine ⟨e1, hreads, hopen, ?_⟩
  apply bind_eq_ok.mpr ⟨(e1, []), hloop _, ?_⟩
  dsimp only
  rw [if_neg (hreads.state ▸ hopen)]
  rfl

theorem reading_closes (hb : e.conn.inBuffer.Bounds) (hopen : e.conn.state ≠ .disconnected)
    {l : List ReadResult} (hl : ∀ r ∈ l, r.GoesOn ∨ r = .fails .other) :
    ∃ e', e.Reading on_message ⟨l ++ [.eof], none⟩ e' := by
  obtain ⟨e1, -, hloop⟩ := readNonBlocking_through hb hl
  refine ⟨e1.handleClose, hopen, ?_⟩
  apply bind_eq_ok.mpr ⟨(e1.handleClose, []), hloop _, ?_⟩
  dsimp only
  rw [if_pos e1.handleClose_state]
  rfl

/-- A connection after the read callbacks `cs`: each of them has shown what it read, but for a last
one that met the end of the file. -/
structure Account (cs : List ReadCall) (e : Endpoint) : Prop where
  bounds : e.conn.inBuffer.Bounds
  calls : ∀ l c r, cs = l ++ c :: r → c.Shown ∨ c.Cut ∧ r = [] ∧ e.conn.state = .disconnected

theorem Account.snoc (h : Account cs e) (hs : e.Reading on_message c e') :
    Account (cs ++ [c]) e' := by
  obtain ⟨hb, hlast⟩ := reading_cases h.bounds hs
  refine ⟨hb, ?_⟩
  intro l d r hsplit
  rcases List.eq_nil_or_concat r with rfl | ⟨r, d', rfl⟩
  · obtain ⟨rfl, hd⟩ := List.append_inj' hsplit rfl
    obtain rfl := List.singleton_inj.mp hd
    exact hlast.imp_right fun h => ⟨h.1, rfl, h.2⟩
  · rw [List.concat_eq_append, ← List.cons_append, ← List.append_assoc] at hsplit
    obtain ⟨rfl, -⟩ := List.append_inj' hsplit rfl
    rcases h.calls l d r rfl with hshown | ⟨-, -, hclosed⟩
    · exact .inl hshown
    · exact absurd hclosed hs.1

theorem account_of_run (hb : e.conn.inBuffer.Bounds) (h : Run (Reading on_message) e cs e') :
    Account cs e' :=
  h.invariant Account ⟨hb, fun l c r h => by simp at h⟩ fun _ _ _ _ h hs => h.snoc hs

/-- What is read is shown to the message callback unless it is read together with the end of the
file. -/
theorem delivered_iff (hb : e.conn.inBuffer.Bounds) (h : Run (Reading on_message) e cs e') :
    Delivered cs ↔ ∀ c ∈ cs, c.EofApart := by
  have hcases := (account_of_run hb h).calls
  constructor
  · intro hdel c hc heof
    obtain ⟨l, r, rfl⟩ := List.append_of_mem hc
    by_contra hdata
    rcases hcases l c r rfl with hshown | ⟨hcut, rfl, -⟩
    · exact hshown.1 heof
    · obtain ⟨m, d, t, hsplit, b, hb, -⟩ := hdel l c [] rfl hdata
      have hd : d ∈ m ++ d :: t := by simp
      rw [← hsplit, List.mem_singleton] at hd
      rw [hd, hcut.2] at hb
      cases hb
  · intro hapart l c r hsplit hdata
    rcases hcases l c r hsplit with hshown | ⟨hcut, -⟩
    · obtain ⟨-, b, hb, hsuf⟩ := hshown
      exact ⟨[], c, r, rfl, b, hb, by simpa using hsuf⟩
    · exact absurd (hapart c (by simp [hsplit]) hcut.1) hdata

/-- A message callback that takes what there is. -/
def takeAll : OnMessage where
  call e := { e with conn := { e.conn with inBuffer := e.conn.inBuffer.retrieveAll } }
  bounds _ hb := hb.retrieveAll

/-- A message, and the end of the file after the loop has found nothing more. -/
theorem delivered_helloThenEof :
    ∃ e', Run (Reading takeAll) (connected ⟨1, 0⟩ [])
        [⟨[.read (bytes "hello"), .fails .eagain], some (bytes "hello")⟩, ⟨[.eof], none⟩] e' ∧
      Delivered [⟨[.read (bytes "hello"), .fails .eagain], some (bytes "hello")⟩,
        ⟨[.eof], none⟩] := by
  have hb : (connected ⟨1, 0⟩ []).conn.inBuffer.Bounds := Buffer.default_wf.bounds
  have hshown : ∃ e1, (connected ⟨1, 0⟩ []).Reads (bytes "hello") e1 ∧
      (connected ⟨1, 0⟩ []).Reading takeAll
        ⟨[.read (bytes "hello"), .fails .eagain], some e1.conn.inBuffer.toString⟩
        (takeAll.call e1) := reading_shows hb (by decide) (l := [.read (bytes "hello")]) (by decide)
  obtain ⟨e1, hreads, hfirst⟩ := hshown
  have hopen : (takeAll.call e1).conn.state ≠ .disconnected := by
    show e1.conn.state ≠ .disconnected
    rw [hreads.state]
    decide
  have hclosed : ∃ e', (takeAll.call e1).Reading takeAll ⟨[.eof], none⟩ e' :=
    reading_closes (takeAll.bounds e1 hreads.bounds) hopen (l := []) (by simp)
  obtain ⟨e', hlast⟩ := hclosed
  rw [hreads.text] at hfirst
  have hrun := Run.snoc (.snoc (.nil _) hfirst) hlast
  exact ⟨e', hrun, (delivered_iff hb hrun).mpr (by decide)⟩

/-- A message, and the end of the file right behind it. -/
theorem last_message_lost :
    ∃ cs e', Run (Reading takeAll) (connected ⟨1, 0⟩ []) cs e' ∧ ¬Delivered cs := by
  have hclosed : ∃ e', (connected ⟨1, 0⟩ []).Reading takeAll
      ⟨[.read (bytes "hello"), .eof], none⟩ e' :=
    reading_closes Buffer.default_wf.bounds (by decide) (l := [.read (bytes "hello")]) (by decide)
  obtain ⟨e', hcall⟩ := hclosed
  refine ⟨_, e', .snoc (.nil _) hcall, ?_⟩
  intro hdel
  obtain ⟨m, d, t, hsplit, b, hb, -⟩ := hdel [] _ [] rfl (by decide)
  have hd : d ∈ m ++ d :: t := by simp
  rw [← hsplit, List.mem_singleton] at hd
  rw [hd] at hb
  cases hb

end Endpoint

end MuduoServer
