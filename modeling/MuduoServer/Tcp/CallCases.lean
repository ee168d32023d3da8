import MuduoServer.Tcp.OutputOrder

namespace MuduoServer.Endpoint

/-- What happens to a connection: a call, or the end of it. -/
inductive Event
  | call (c : Call)
  | handleClose
  deriving DecidableEq, Repr

def handle (e : Endpoint) : Event → Except Endpoint Endpoint
  | .call c => e.step c
  | .handleClose => .ok e.handleClose

/-- `send` tries a `::write` at once. -/
def SendsDirectly (e : Endpoint) : Prop :=
  !e.conn.channel.isWriting ∧ e.conn.outBuffer.readableBytes = 0

/-- `sendFile` tries a `::sendfile` at once. -/
def SendsFileDirectly (e : Endpoint) : Prop :=
  !e.conn.channel.isWriting ∧ e.conn.fileList = []

/-- How much of `size` bytes the next answer of the kernel takes. -/
def takes (e : Endpoint) (size : Nat) : Nat :=
  match e.kernel with
  | .accepts n :: _ => min n size
  | _ => 0

instance (e : Endpoint) : Decidable e.SendsDirectly := inferInstanceAs (Decidable (_ ∧ _))

instance (e : Endpoint) : Decidable e.SendsFileDirectly := inferInstanceAs (Decidable (_ ∧ _))

variable {e e' : Endpoint}

/-- An answered write: the kernel accepted bytes, or failed. -/
theorem write_ok {offered : Bytes} {r : Except Errno Nat} (h : e.write offered = .ok (r, e')) :
    (∃ n k, e.kernel = .accepts n :: k ∧ r = .ok (min n offered.length) ∧
      e' = { e with kernel := k, socket := e.socket ++ offered.take n }) ∨
    ∃ err k, e.kernel = .fails err :: k ∧ r = .error err ∧ e' = { e with kernel := k } := by
  rw [write] at h
  cases hk : e.kernel with
  | nil =>
    rw [hk] at h
    cases h
  | cons a k =>
    rw [hk] at h
    cases a with
    | accepts n =>
      cases h
      exact .inl ⟨n, k, rfl, rfl, rfl⟩
    | fails err =>
      cases h
      exact .inr ⟨err, k, rfl, rfl, rfl⟩

/-- What follows a write goes on with one of the two answers. -/
theorem bind_write_ok {α : Type} {offered : Bytes}
    {f : Except Errno Nat × Endpoint → Except Endpoint α} {a : α}
    (h : (e.write offered >>= f) = .ok a) :
    (∃ n k, e.kernel = .accepts n :: k ∧ f (.ok (min n offered.length),
      { e with kernel := k, socket := e.socket ++ offered.take n }) = .ok a) ∨
    ∃ err k, e.kernel = .fails err :: k ∧ f (.error err, { e with kernel := k }) = .ok a := by
  obtain ⟨⟨r, e1⟩, hw, h⟩ := bind_eq_ok.mp h
  rcases write_ok hw with ⟨n, k, hk, rfl, rfl⟩ | ⟨err, k, hk, rfl, rfl⟩
  · exact .inl ⟨n, k, hk, h⟩
  · exact .inr ⟨err, k, hk, h⟩

/-- The four ways in which `send` returns. -/
theorem send_ok {msg : Bytes} (h : e.send msg = .ok e') :
    (¬e.SendsDirectly ∧ e' = e.queue msg) ∨
    (e.SendsDirectly ∧ ∃ n k, e.kernel = .accepts n :: k ∧
      e' = queue { e with kernel := k, socket := e.socket ++ msg.take n }
        (msg.drop (min n msg.length))) ∨
    (e.SendsDirectly ∧ ∃ k, e.kernel = .fails .eagain :: k ∧
      e' = queue { e with kernel := k } msg) ∨
    (e.SendsDirectly ∧ ∃ err k, err ≠ .eagain ∧ e.kernel = .fails err :: k ∧
      e' = handleClose { e with kernel := k }) := by
  rw [send] at h
  split_ifs at h with hd
  · right
    rcases bind_write_ok h with ⟨n, k, hk, h⟩ | ⟨err, k, hk, h⟩
    · cases h
      exact .inl ⟨hd, n, k, hk, rfl⟩
    · cases err with
      | eagain =>
        cases h
        exact .inr (.inl ⟨hd, k, hk, rfl⟩)
      | eintr =>
        cases h
        exact .inr (.inr ⟨hd, .eintr, k, by decide, hk, rfl⟩)
      | other =>
        cases h
        exact .inr (.inr ⟨hd, .other, k, by decide, hk, rfl⟩)
  · cases h
    exact .inl ⟨hd, rfl⟩

/-- The four ways in which `sendFile` returns. -/
theorem sendFile_ok {f : OpenFile} (h : e.sendFile f = .ok e') :
    (¬e.SendsFileDirectly ∧ e' = e.queueFile f 0) ∨
    (e.SendsFileDirectly ∧ ∃ n k, e.kernel = .accepts n :: k ∧
      e' = queueFile { e with kernel := k, socket := e.socket ++ f.content.take n } f
        (min n f.content.length)) ∨
    (e.SendsFileDirectly ∧ ∃ k, e.kernel = .fails .eagain :: k ∧
      e' = queueFile { e with kernel := k } f 0) ∨
    (e.SendsFileDirectly ∧ ∃ err k, err ≠ .eagain ∧ e.kernel = .fails err :: k ∧
      e' = handleClose { e with kernel := k }) := by
  rw [sendFile] at h
  split_ifs at h with hd
  · right
    rcases bind_write_ok h with ⟨n, k, hk, h⟩ | ⟨err, k, hk, h⟩
    · cases h
      exact .inl ⟨hd, n, k, hk, rfl⟩
    · cases err with
      | eagain =>
        cases h
        exact .inr (.inl ⟨hd, k, hk, rfl⟩)
      | eintr =>
        cases h
        exact .inr (.inr ⟨hd, .eintr, k, by decide, hk, rfl⟩)
      | other =>
        cases h
        exact .inr (.inr ⟨hd, .other, k, by decide, hk, rfl⟩)
  · cases h
    exact .inl ⟨hd, rfl⟩

/-- The three ways in which `writeNonBlocking` returns. -/
theorem writeNonBlocking_ok {flag : Int} (h : e.writeNonBlocking = .ok (flag, e')) :
    (∃ n k, e.kernel = .accepts n :: k ∧
      e' = setOutBuffer
        { e with kernel := k, socket := e.socket ++ e.conn.outBuffer.toString.take n }
        (e.conn.outBuffer.retrieve (min n e.conn.outBuffer.toString.length))) ∨
    (∃ err k, err ≠ .other ∧ e.kernel = .fails err :: k ∧ e' = { e with kernel := k }) ∨
    ∃ k, e.kernel = .fails .other :: k ∧ e' = handleClose { e with kernel := k } := by
  rw [writeNonBlocking] at h
  rcases bind_write_ok h with ⟨n, k, hk, h⟩ | ⟨err, k, hk, h⟩
  · cases h
    exact .inl ⟨n, k, hk, rfl⟩
  · cases err with
    | eagain =>
      cases h
      exact .inr (.inl ⟨.eagain, k, by decide, hk, rfl⟩)
    | eintr =>
      cases h
      exact .inr (.inl ⟨.eintr, k, by decide, hk, rfl⟩)
    | other =>
      cases h
      exact .inr (.inr ⟨k, hk, rfl⟩)

/-- The ways in which a round of the loop over the files returns. -/
theorem sendFiles_succ {fuel : Nat} {f : FileInfo} {fs : List FileInfo}
    (hfiles : e.conn.fileList = f :: fs) {goesOn : Bool}
    (h : sendFiles (fuel + 1) e = .ok (goesOn, e')) :
    (∃ n k, e.kernel = .accepts n :: k ∧
      sendFiles fuel (fileSent { e with kernel := k, socket := e.socket ++ f.rest.take n } f fs
        (min n f.rest.length)) = .ok (goesOn, e')) ∨
    (∃ k, e.kernel = .fails .eagain :: k ∧ goesOn = true ∧ e' = { e with kernel := k }) ∨
    ∃ err k, err ≠ .eagain ∧ e.kernel = .fails err :: k ∧ goesOn = false ∧
      e' = handleClose { e with kernel := k } := by
  unfold sendFiles at h
  rw [hfiles] at h
  dsimp only at h
  rcases bind_write_ok h with ⟨n, k, hk, h⟩ | ⟨err, k, hk, h⟩
  · exact .inl ⟨n, k, hk, h⟩
  · cases err with
    | eagain =>
      cases h
      exact .inr (.inl ⟨k, hk, rfl, rfl⟩)
    | eintr =>
      cases h
      exact .inr (.inr ⟨.eintr, k, by decide, hk, rfl, rfl⟩)
    | other =>
      cases h
      exact .inr (.inr ⟨.other, k, by decide, hk, rfl, rfl⟩)

/-- The loop ends at once without a file, and a round needs an answer. -/
theorem sendFiles_nil {fuel : Nat} (hfiles : e.conn.fileList = []) :
    sendFiles fuel e = .ok (true, e) := by
  unfold sendFiles
  rw [hfiles]

theorem sendFiles_zero_ne_ok {goesOn : Bool} (hfiles : e.conn.fileList ≠ []) :
    sendFiles 0 e ≠ .ok (goesOn, e') := by
  unfold sendFiles
  cases hfs : e.conn.fileList with
  | nil => exact (hfiles hfs).elim
  | cons f fs => simp

/-- The two parts of the write callback. -/
theorem writeCallback_ok (h : e.writeCallback = .ok e') :
    (e.conn.state = .disconnected ∧ e' = e) ∨
    e.conn.state ≠ .disconnected ∧ ∃ flag e1 goesOn e2,
      e.writeNonBlocking = .ok (flag, e1) ∧ sendFiles e1.kernel.length e1 = .ok (goesOn, e2) ∧
      ((goesOn = true ∧ e2.conn.outBuffer.readableBytes = 0 ∧ e2.conn.fileList = [] ∧
          e' = e2.setChannel e2.conn.channel.disableWriting) ∨
        ¬(goesOn = true ∧ e2.conn.outBuffer.readableBytes = 0 ∧ e2.conn.fileList = []) ∧
          e' = e2) := by
  rw [writeCallback] at h
  split_ifs at h with hd
  · cases h
    exact .inl ⟨hd, rfl⟩
  · right
    refine ⟨hd, ?_⟩
    obtain ⟨⟨flag, e1⟩, hw, h⟩ := bind_eq_ok.mp h
    obtain ⟨⟨goesOn, e2⟩, hs, h⟩ := bind_eq_ok.mp h
    refine ⟨flag, e1, goesOn, e2, hw, hs, ?_⟩
    dsimp only at h
    split_ifs at h with hall
    · cases h
      exact .inl ⟨hall.1, hall.2.1, hall.2.2, rfl⟩
    · cases h
      exact .inr ⟨hall, rfl⟩

/-- An event leaves the input buffer as it is. It may close the connection, and changes its state in
no other way. -/
structure MayClose (e e' : Endpoint) : Prop where
  inBuffer : e'.conn.inBuffer = e.conn.inBuffer
  state : e'.conn.state = e.conn.state ∨ e'.conn.state = .disconnected

theorem MayClose.refl (e : Endpoint) : e.MayClose e := ⟨rfl, .inl rfl⟩

/-- The kernel answered a call. -/
theorem MayClose.answered (e : Endpoint) (k : List Answer) (socket : Bytes) :
    e.MayClose { e with kernel := k, socket := socket } := ⟨rfl, .inl rfl⟩

theorem MayClose.trans {e1 : Endpoint} (h : e.MayClose e1) (h1 : e1.MayClose e') :
    e.MayClose e' := by
  refine ⟨h1.inBuffer.trans h.inBuffer, ?_⟩
  rcases h1.state with hstate | hstate
  · rw [hstate]
    exact h.state
  · exact .inr hstate

theorem mayClose_handleClose (k : List Answer) :
    e.MayClose (handleClose { e with kernel := k }) := by
  unfold handleClose
  split_ifs with hd
  · exact ⟨rfl, .inl rfl⟩
  · exact ⟨rfl, .inr rfl⟩

theorem MayClose.queue (h : e.MayClose e') (left : Bytes) : e.MayClose (e'.queue left) := by
  rw [Endpoint.queue]
  dsimp only
  split_ifs <;> exact ⟨h.inBuffer, h.state⟩

theorem MayClose.queueFile (h : e.MayClose e') (f : OpenFile) (sent : Nat) :
    e.MayClose (e'.queueFile f sent) := by
  unfold Endpoint.queueFile
  dsimp only
  split_ifs <;> exact ⟨h.inBuffer, h.state⟩

theorem mayClose_sendFiles (fuel : Nat) {goesOn : Bool}
    (hs : sendFiles fuel e = .ok (goesOn, e')) : e.MayClose e' := by
  induction fuel generalizing e with
  | zero =>
    by_cases hfiles : e.conn.fileList = []
    · rw [sendFiles_nil hfiles] at hs
      cases hs
      exact ⟨rfl, .inl rfl⟩
    · exact (sendFiles_zero_ne_ok hfiles hs).elim
  | succ fuel ih =>
    cases hfiles : e.conn.fileList with
    | nil =>
      rw [sendFiles_nil hfiles] at hs
      cases hs
      exact ⟨rfl, .inl rfl⟩
    | cons f fs =>
      rcases sendFiles_succ hfiles hs with
        ⟨n, k, -, hs⟩ | ⟨k, -, -, rfl⟩ | ⟨err, k, -, -, -, rfl⟩
      · apply MayClose.trans _ (ih hs)
        rw [fileSent]
        dsimp only
        split_ifs <;> exact ⟨rfl, .inl rfl⟩
      · exact ⟨rfl, .inl rfl⟩
      · exact mayClose_handleClose k

theorem mayClose_handle {event : Event} (hs : e.handle event = .ok e') : e.MayClose e' := by
  cases event with
  | handleClose =>
    cases hs
    exact mayClose_handleClose e.kernel
  | call c =>
    cases c with
    | send msg =>
      rcases send_ok hs with ⟨-, rfl⟩ | ⟨-, n, k, -, rfl⟩ | ⟨-, k, -, rfl⟩ | ⟨-, err, k, -, -, rfl⟩
      · exact (MayClose.refl e).queue msg
      · exact (MayClose.answered e k _).queue _
      · exact (MayClose.answered e k _).queue msg
      · exact mayClose_handleClose k
    | sendFile f =>
      rcases sendFile_ok hs with
        ⟨-, rfl⟩ | ⟨-, n, k, -, rfl⟩ | ⟨-, k, -, rfl⟩ | ⟨-, err, k, -, -, rfl⟩
      · exact (MayClose.refl e).queueFile f 0
      · exact (MayClose.answered e k _).queueFile f _
      · exact (MayClose.answered e k _).queueFile f 0
      · exact mayClose_handleClose k
    | writable =>
      rcases writeCallback_ok hs with ⟨-, rfl⟩ | ⟨-, flag, e1, goesOn, e2, hw, hloop, hend⟩
      · exact ⟨rfl, .inl rfl⟩
      · have hfirst : e.MayClose e1 := by
          rcases writeNonBlocking_ok hw with ⟨n, k, -, rfl⟩ | ⟨err, k, -, -, rfl⟩ | ⟨k, -, rfl⟩
          · exact ⟨rfl, .inl rfl⟩
          · exact ⟨rfl, .inl rfl⟩
          · exact mayClose_handleClose k
        apply (hfirst.trans (mayClose_sendFiles _ hloop)).trans
        rcases hend with ⟨-, -, -, rfl⟩ | ⟨-, rfl⟩ <;> exact ⟨rfl, .inl rfl⟩

end MuduoServer.Endpoint
