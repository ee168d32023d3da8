import MuduoServer.Tcp.CallCases

namespace MuduoServer

/-- epoll watches a channel for the events that the channel asks for. -/
structure Channel.Synced (c : Channel) : Prop where
  registered : c.inEpoll = true
  watched : c.watched = c.listenEvent

theorem Channel.Synced.update {c : Channel} (event : UInt32) (enable : Bool) :
    (c.updateEvent event enable).flushEvent.Synced := ⟨rfl, rfl⟩

namespace Endpoint

/-- Output that waits has an interest in writing, epoll knows of it, and no file in the list is
sent already. -/
structure Watched (e : Endpoint) : Prop where
  wf : e.conn.outBuffer.Wf
  synced : e.conn.channel.Synced
  files : ∀ f ∈ e.conn.fileList, f.sent < f.size
  writing : 0 < e.conn.outBuffer.readableBytes ∨ e.conn.fileList ≠ [] →
    e.conn.channel.isWriting = true

/-- Without an interest in writing no output waits, and with one some does. -/
def Needed (e : Endpoint) : Prop :=
  e.conn.channel.isWriting = true → 0 < e.conn.outBuffer.readableBytes ∨ e.conn.fileList ≠ []

variable {e e' : Endpoint}

theorem Watched.idle (h : e.Watched) (hw : e.conn.channel.isWriting = false) :
    e.conn.outBuffer.readableBytes = 0 ∧ e.conn.fileList = [] := by
  by_contra hno
  have hwriting := h.writing (by
    by_cases hout : e.conn.outBuffer.readableBytes = 0
    · exact .inr fun hfiles => hno ⟨hout, hfiles⟩
    · exact .inl (Nat.pos_of_ne_zero hout))
  rw [hw] at hwriting
  cases hwriting

/-- An answer of the kernel leaves the connection as it is. -/
theorem Watched.answered (h : e.Watched) (k : List Answer) (s : Bytes) :
    Watched { e with kernel := k, socket := s } :=
  ⟨h.wf, h.synced, h.files, h.writing⟩

theorem Needed.answered (hn : e.Needed) (k : List Answer) (s : Bytes) :
    Needed { e with kernel := k, socket := s } := hn

theorem Watched.handleClose (h : e.Watched) : e.handleClose.Watched := by
  rw [Endpoint.handleClose]
  split_ifs
  · exact h
  · exact ⟨h.wf, h.synced, h.files, h.writing⟩

theorem handleClose_needed (h : e.Needed) : e.handleClose.Needed := by
  rw [Endpoint.handleClose]
  split_ifs
  · exact h
  · exact h

theorem readable_append_pos {b : Buffer} (h : b.Wf) {left : Bytes} (hl : 0 < left.length) :
    0 < (b.append left).readableBytes := by
  obtain ⟨hwf, hs, -⟩ := b.append_spec h left
  rw [← (b.append left).toString_length hwf, hs, List.length_append]
  omega

theorem Watched.queue (h : e.Watched) (hn : e.Needed) (left : Bytes) :
    (e.queue left).Watched ∧ (e.queue left).Needed := by
  rw [Endpoint.queue]
  split_ifs with hpos
  · have hwf := (e.conn.outBuffer.append_spec h.wf left).1
    have hout := readable_append_pos h.wf hpos
    dsimp only [setOutBuffer]
    split_ifs with hw
    · exact ⟨⟨hwf, h.synced, h.files, fun _ => hw⟩, fun _ => .inl hout⟩
    · exact ⟨⟨hwf, .update _ _, h.files, fun _ => Channel.enableWriting_isWriting _⟩,
        fun _ => .inl hout⟩
  · exact ⟨h, hn⟩

theorem Watched.queueFile (h : e.Watched) (hn : e.Needed) (f : OpenFile) (sent : Nat) :
    (e.queueFile f sent).Watched ∧ (e.queueFile f sent).Needed := by
  unfold Endpoint.queueFile
  dsimp only
  split_ifs with hlt
  · refine ⟨⟨h.wf, .update _ _, ?_, fun _ => Channel.enableWriting_isWriting _⟩,
      fun _ => .inr (by simp [setFileList, setChannel, addLeftBytes])⟩
    intro g hg
    simp only [setFileList, setChannel, addLeftBytes, List.mem_append, List.mem_singleton] at hg
    rcases hg with hg | rfl
    · exact h.files g hg
    · exact hlt
  · exact ⟨⟨h.wf, h.synced, h.files, h.writing⟩, hn⟩

theorem Watched.send (h : e.Watched) (hn : e.Needed) {msg : Bytes} (hs : e.send msg = .ok e') :
    e'.Watched ∧ e'.Needed := by
  rcases send_ok hs with ⟨-, rfl⟩ | ⟨-, n, k, -, rfl⟩ | ⟨-, k, -, rfl⟩ | ⟨-, err, k, -, -, rfl⟩
  · exact h.queue hn msg
  · exact (h.answered k _).queue (hn.answered k _) _
  · exact (h.answered k _).queue (hn.answered k _) msg
  · exact ⟨(h.answered k _).handleClose, handleClose_needed (hn.answered k _)⟩

theorem Watched.sendFile (h : e.Watched) (hn : e.Needed) {f : OpenFile}
    (hs : e.sendFile f = .ok e') : e'.Watched ∧ e'.Needed := by
  rcases sendFile_ok hs with ⟨-, rfl⟩ | ⟨-, n, k, -, rfl⟩ | ⟨-, k, -, rfl⟩ | ⟨-, err, k, -, -, rfl⟩
  · exact h.queueFile hn f 0
  · exact (h.answered k _).queueFile (hn.answered k _) f _
  · exact (h.answered k _).queueFile (hn.answered k _) f 0
  · exact ⟨(h.answered k _).handleClose, handleClose_needed (hn.answered k _)⟩

/-- A write of the output buffer may leave an interest in writing that is no longer needed. -/
theorem Watched.writeNonBlocking (h : e.Watched) {flag : Int}
    (hs : e.writeNonBlocking = .ok (flag, e')) : e'.Watched := by
  rcases writeNonBlocking_ok hs with ⟨n, k, -, rfl⟩ | ⟨err, k, -, -, rfl⟩ | ⟨k, -, rfl⟩
  · have hwf := e.conn.outBuffer.retrieve_wf h.wf (min n e.conn.outBuffer.toString.length)
    refine ⟨hwf, h.synced, h.files, ?_⟩
    intro hpending
    refine h.writing (hpending.imp_left ?_)
    intro hpos
    by_contra hzero
    have hlen := Buffer.toString_length _ hwf
    have hold := Buffer.toString_length _ h.wf
    rw [e.conn.outBuffer.retrieve_toString h.wf, List.length_drop] at hlen
    simp only [setOutBuffer] at hpos
    omega
  · exact h.answered k _
  · exact (h.answered k _).handleClose

theorem Watched.fileSent (h : e.Watched) {f : FileInfo} {fs : List FileInfo}
    (hfiles : e.conn.fileList = f :: fs) (n : Nat) : (e.fileSent f fs n).Watched := by
  have hw : e.conn.channel.isWriting = true := h.writing (.inr (by simp [hfiles]))
  have hfs : ∀ g ∈ fs, g.sent < g.size := fun g hg => h.files g (by simp [hfiles, hg])
  rw [Endpoint.fileSent]
  dsimp only
  split_ifs with hdone
  · exact ⟨h.wf, h.synced, hfs, fun _ => hw⟩
  · refine ⟨h.wf, h.synced, ?_, fun _ => hw⟩
    intro g hg
    simp only [addLeftBytes, setFileList, List.mem_cons] at hg
    rcases hg with rfl | hg
    · exact Nat.lt_of_not_le hdone
    · exact hfs g hg

/-- The loop over the files; where it ends the callback, files are left. -/
theorem Watched.sendFiles (fuel : Nat) {goesOn : Bool} (h : e.Watched)
    (hs : sendFiles fuel e = .ok (goesOn, e')) :
    e'.Watched ∧ (goesOn = false → e'.conn.fileList ≠ []) := by
  induction fuel generalizing e with
  | zero =>
    by_cases hfiles : e.conn.fileList = []
    · rw [sendFiles_nil hfiles] at hs
      cases hs
      exact ⟨h, by simp⟩
    · exact (sendFiles_zero_ne_ok hfiles hs).elim
  | succ fuel ih =>
    cases hfiles : e.conn.fileList with
    | nil =>
      rw [sendFiles_nil hfiles] at hs
      cases hs
      exact ⟨h, by simp⟩
    | cons f fs =>
      rcases sendFiles_succ hfiles hs with
        ⟨n, k, -, hs⟩ | ⟨k, -, rfl, rfl⟩ | ⟨err, k, -, -, rfl, rfl⟩
      · exact ih ((h.answered k _).fileSent hfiles _) hs
      · exact ⟨h.answered k _, by simp⟩
      · refine ⟨(h.answered k _).handleClose, fun _ => ?_⟩
        rw [Endpoint.handleClose]
        split_ifs <;> simp [hfiles]

/-- The end of the callback takes the interest away exactly when nothing waits. -/
theorem Watched.writeCallback (h : e.Watched) (hn : e.Needed) (hs : e.writeCallback = .ok e') :
    e'.Watched ∧ e'.Needed := by
  rcases writeCallback_ok hs with ⟨-, rfl⟩ | ⟨-, flag, e1, goesOn, e2, hw, hloop, hend⟩
  · exact ⟨h, hn⟩
  · obtain ⟨h2, hleft⟩ := (h.writeNonBlocking hw).sendFiles _ hloop
    rcases hend with ⟨-, hout, hfiles, rfl⟩ | ⟨hall, rfl⟩
    · refine ⟨⟨h2.wf, .update _ _, h2.files, ?_⟩, ?_⟩
      · intro hpending
        simp [setChannel, hout, hfiles] at hpending
      · intro hw
        simp [setChannel] at hw
    · refine ⟨h2, fun _ => ?_⟩
      by_contra hnone
      rw [not_or, Nat.not_lt, Nat.le_zero, not_not] at hnone
      cases goesOn with
      | false => exact hleft rfl hnone.2
      | true => exact hall ⟨rfl, hnone.1, hnone.2⟩

theorem Watched.handle (h : e.Watched) (hn : e.Needed) {event : Event}
    (hs : e.handle event = .ok e') : e'.Watched ∧ e'.Needed := by
  cases event with
  | call c =>
    cases c with
    | send msg => exact h.send hn hs
    | sendFile f => exact h.sendFile hn hs
    | writable => exact h.writeCallback hn hs
  | handleClose =>
    cases hs
    exact ⟨h.handleClose, handleClose_needed hn⟩

theorem connected_watched (w : Workload) (k : List Answer) :
    (connected w k).Watched ∧ (connected w k).Needed := by
  refine ⟨⟨Buffer.default_wf, ⟨rfl, rfl⟩, ?_, ?_⟩, ?_⟩
  · simp [connected, TCPConnection.enableConnection, TCPConnection.new]
  · simp [connected, TCPConnection.enableConnection, TCPConnection.new, Buffer.default, Buffer.new,
      Buffer.readableBytes]
  · intro hw
    have hnot : ¬(Channel.new true false true).flushEvent.isWriting = true := by decide
    exact absurd hw hnot

end Endpoint

open Endpoint in
/-- In every state between events the interest in writing is there exactly when output waits, epoll
watches for the events that the channel asks for, and no queued file is sent already. -/
theorem pending_output_watched (w : Workload) (k : List Answer) (events : List Event) (e : Endpoint)
    (h : Run (fun e event e' => e.handle event = .ok e') (connected w k) events e) :
    (e.conn.channel.isWriting = true ↔
      0 < e.conn.outBuffer.readableBytes ∨ e.conn.fileList ≠ []) ∧
    (e.conn.channel.inEpoll = true ∧ e.conn.channel.watched = e.conn.channel.listenEvent) ∧
    ∀ f ∈ e.conn.fileList, f.sent < f.size := by
  obtain ⟨hwatched, hneeded⟩ := h.preserves (fun e => e.Watched ∧ e.Needed) (connected_watched w k)
    fun _ _ _ hinv hs => hinv.1.handle hinv.2 hs
  exact ⟨⟨hneeded, hwatched.writing⟩, ⟨hwatched.synced.registered, hwatched.synced.watched⟩,
    hwatched.files⟩

open Endpoint in
theorem pending_output_watched_partial :
    ∃ e : Endpoint, (e.conn.outBuffer.toString, e.conn.fileList) =
        (bytes "b", [⟨⟨7, bytes "cd"⟩, 2, 0⟩]) ∧
      (e.conn.channel.isWriting = true ↔
        0 < e.conn.outBuffer.readableBytes ∨ e.conn.fileList ≠ []) := by
  obtain ⟨e, hrun, he⟩ := Run.exists_of_foldlM
    (show ([Event.call (.send (bytes "ab")), .call (.sendFile ⟨7, bytes "cd"⟩)].foldlM handle
      (connected ⟨1, 0⟩ [.accepts 1])).toOption.map
        (fun e => (e.conn.outBuffer.toString, e.conn.fileList)) =
      some (bytes "b", [⟨⟨7, bytes "cd"⟩, 2, 0⟩]) by decide +kernel)
  exact ⟨e, he, (pending_output_watched ⟨1, 0⟩ _ _ e hrun).1⟩

end MuduoServer
