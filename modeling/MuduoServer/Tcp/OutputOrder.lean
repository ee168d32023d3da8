import MuduoServer.Tcp.Connection
import MuduoServer.Framework.Run

namespace MuduoServer

/-- What the user and the event loop do with a connection. -/
inductive Call
  | send (msg : Bytes)
  | sendFile (f : OpenFile)
  | writable
  deriving DecidableEq, Repr

def Call.payload : Call → Bytes
  | .send msg => msg
  | .sendFile f => f.content
  | .writable => []

/-- A kernel that accepts bytes or says `EAGAIN`. -/
def Obliging (k : List Answer) : Prop := ∀ a ∈ k, ∀ err, a = .fails err → err = .eagain

/-- The kernel takes no byte before it ends the loop over the files. -/
def Refuses : List Answer → Prop
  | .accepts 0 :: k => Refuses k
  | .accepts (_ + 1) :: _ => False
  | _ => True

instance : (k : List Answer) → Decidable (Refuses k)
  | .accepts 0 :: k => instDecidableRefuses k
  | .accepts (_ + 1) :: _ => isFalse id
  | .fails _ :: _ => isTrue trivial
  | [] => isTrue trivial

namespace Endpoint

def step (e : Endpoint) : Call → Except Endpoint Endpoint
  | .send msg => e.send msg
  | .sendFile f => e.sendFile f
  | .writable => e.writeCallback

/-- The `::write` of the write callback takes all of the output buffer. -/
def Drains (e : Endpoint) : Prop :=
  e.conn.outBuffer.readableBytes ≤ match e.kernel with
    | .accepts n :: _ => n
    | _ => 0

/-- The calls after which the two queues still drain in the order of the calls: no message is sent
while a file waits, and no byte of a file goes out while a message waits. -/
def OneQueue (e : Endpoint) : Call → Prop
  | .send msg => msg = [] ∨ e.conn.fileList = []
  | .sendFile _ => True
  | .writable => e.conn.fileList = [] ∨ e.Drains ∨ Refuses e.kernel.tail

instance (e : Endpoint) : Decidable e.Drains := inferInstanceAs (Decidable (_ ≤ _))

instance (e : Endpoint) : (c : Call) → Decidable (e.OneQueue c)
  | .send _ => inferInstanceAs (Decidable (_ ∨ _))
  | .sendFile _ => inferInstanceAs (Decidable True)
  | .writable => inferInstanceAs (Decidable (_ ∨ _ ∨ _))

/-- A step of a run whose calls meet the condition. -/
def orderedStep (e : Endpoint) (c : Call) : Except Endpoint Endpoint :=
  if e.OneQueue c then e.step c else .error e

theorem orderedStep_iff {e e' : Endpoint} {c : Call} :
    e.orderedStep c = .ok e' ↔ e.OneQueue c ∧ e.step c = .ok e' := by
  rw [orderedStep]
  split_ifs with hg <;> simp [hg]

/-- The bytes that wait: those of the output buffer, then those of the files. -/
def pending (e : Endpoint) : Bytes :=
  e.conn.outBuffer.toString ++ e.conn.fileList.flatMap FileInfo.rest

/-- The endpoint between two calls, when `payload` was to be sent so far. -/
structure InOrder (e : Endpoint) (payload : Bytes) : Prop where
  wf : e.conn.outBuffer.Wf
  connected : e.conn.state = .connected
  obliging : Obliging e.kernel
  writing : e.conn.outBuffer.toString ≠ [] ∨ e.conn.fileList ≠ [] →
    e.conn.channel.isWriting = true
  files : ∀ f ∈ e.conn.fileList, f.size = f.file.content.length ∧ f.sent < f.size
  bytes : e.socket ++ e.pending = payload

/-- What a call leaves, or where it stands when the kernel has not answered yet. -/
def Keeps (payload : Bytes) : Except Endpoint Endpoint → Prop
  | .ok e => e.InOrder payload
  | .error e => e.socket <+: payload

end Endpoint

theorem Obliging.tail {a : Answer} {k : List Answer} (h : Obliging (a :: k)) : Obliging k :=
  fun b hb => h b (by simp [hb])

/-- What a write takes of a message, and what it leaves. -/
theorem take_append_drop_min (n : Nat) (msg : Bytes) :
    msg.take n ++ msg.drop (min n msg.length) = msg := by
  rcases Nat.le_total n msg.length with hn | hn
  · rw [Nat.min_eq_left hn, List.take_append_drop]
  · rw [Nat.min_eq_right hn, List.take_of_length_le hn, List.drop_length, List.append_nil]

theorem FileInfo.rest_length {f : FileInfo} (h : f.size = f.file.content.length) :
    f.rest.length = f.size - f.sent := by
  simp only [rest, List.length_take, List.length_drop]
  omega

/-- After `n` more bytes are sent, the rest begins behind them. -/
theorem FileInfo.rest_sent (f : FileInfo) (n : Nat) :
    FileInfo.rest { f with sent := f.sent + n } = f.rest.drop n := by
  simp only [rest, List.drop_take, List.drop_drop]
  congr 1
  omega

namespace Endpoint

variable {e : Endpoint} {p : Bytes}

/-- The three ways in which a write ends under an obliging kernel. -/
theorem write_cases (hk : Obliging e.kernel) (offered : Bytes) :
    e.write offered = .error e ∨
    (∃ a k, e.kernel = a :: k ∧ e.write offered = .ok (.error .eagain, { e with kernel := k }) ∧
      ∀ n, a ≠ .accepts n) ∨
    ∃ n k, e.kernel = .accepts n :: k ∧ e.write offered =
      .ok (.ok (min n offered.length),
        { e with kernel := k, socket := e.socket ++ offered.take n }) := by
  rw [write]
  cases hkernel : e.kernel with
  | nil => exact .inl rfl
  | cons a k =>
    cases a with
    | accepts n => exact .inr (.inr ⟨n, k, rfl, rfl⟩)
    | fails err =>
      obtain rfl := hk (.fails err) (by simp [hkernel]) err rfl
      exact .inr (.inl ⟨_, k, rfl, rfl, by simp⟩)

namespace InOrder

theorem socket_prefix (h : e.InOrder p) : e.socket <+: p := ⟨e.pending, h.bytes⟩

theorem readable_zero (h : e.InOrder p) :
    e.conn.outBuffer.readableBytes = 0 ↔ e.conn.outBuffer.toString = [] := by
  rw [← e.conn.outBuffer.toString_length h.wf, List.length_eq_zero_iff]

/-- Without an interest in writing nothing waits. -/
theorem idle (h : e.InOrder p) (hw : e.conn.channel.isWriting = false) :
    e.conn.outBuffer.toString = [] ∧ e.conn.fileList = [] := by
  by_contra hno
  have hwriting := h.writing (by tauto)
  rw [hw] at hwriting
  cases hwriting

/-- An answer of the kernel by which nothing is sent. -/
theorem answered (h : e.InOrder p) {a : Answer} {k : List Answer} (hk : e.kernel = a :: k) :
    { e with kernel := k }.InOrder p :=
  ⟨h.wf, h.connected, (hk ▸ h.obliging).tail, h.writing, h.files, h.bytes⟩

/-- A direct write, while nothing waits. -/
theorem accepted (h : e.InOrder p) (hout : e.conn.outBuffer.toString = [])
    (hfiles : e.conn.fileList = []) {a : Answer} {k : List Answer} (hk : e.kernel = a :: k)
    (d : Bytes) : { e with kernel := k, socket := e.socket ++ d }.InOrder (p ++ d) := by
  refine ⟨h.wf, h.connected, (hk ▸ h.obliging).tail, h.writing, h.files, ?_⟩
  have hb := h.bytes
  simp only [pending, hout, hfiles, List.flatMap_nil, List.append_nil] at hb ⊢
  rw [hb]

theorem queue (h : e.InOrder p) (left : Bytes) (hq : left = [] ∨ e.conn.fileList = []) :
    (e.queue left).InOrder (p ++ left) := by
  rw [Endpoint.queue]
  split_ifs with hpos
  · have hfiles := hq.resolve_left (List.length_pos_iff.mp hpos)
    obtain ⟨hwf, hs, -⟩ := e.conn.outBuffer.append_spec h.wf left
    have hb := h.bytes
    simp only [pending, hfiles, List.flatMap_nil, List.append_nil] at hb
    dsimp only [setOutBuffer]
    split_ifs with hw
    · refine ⟨hwf, h.connected, h.obliging, fun _ => hw, h.files, ?_⟩
      simp only [pending, hfiles, List.flatMap_nil, List.append_nil]
      rw [hs, ← hb, List.append_assoc]
    · refine ⟨hwf, h.connected, h.obliging, fun _ => by simp [setChannel], h.files, ?_⟩
      simp only [pending, hfiles, setChannel, List.flatMap_nil, List.append_nil]
      rw [hs, ← hb, List.append_assoc]
  · have hnil : left = [] := List.eq_nil_of_length_eq_zero (by omega)
    rwa [hnil, List.append_nil]

theorem queueFile (h : e.InOrder p) (f : OpenFile) (sent : Nat) :
    (e.queueFile f sent).InOrder (p ++ f.content.drop sent) := by
  have hb := h.bytes
  unfold Endpoint.queueFile
  dsimp only
  split_ifs with hlt
  · refine ⟨h.wf, h.connected, h.obliging, fun _ => by simp [setChannel, addLeftBytes], ?_, ?_⟩
    · intro g hg
      simp only [setFileList, setChannel, addLeftBytes, List.mem_append, List.mem_singleton] at hg
      rcases hg with hg | rfl
      · exact h.files g hg
      · exact ⟨rfl, hlt⟩
    · have hrest : FileInfo.rest ⟨f, f.content.length, sent⟩ = f.content.drop sent :=
        List.take_of_length_le (by simp)
      simp only [pending, setFileList, setChannel, addLeftBytes, List.flatMap_append,
        List.flatMap_cons, List.flatMap_nil, List.append_nil, hrest] at hb ⊢
      rw [← hb]
      simp only [List.append_assoc]
  · rw [List.drop_eq_nil_of_le (Nat.not_lt.mp hlt), List.append_nil]
    exact ⟨h.wf, h.connected, h.obliging, h.writing, h.files, hb⟩

/-- A `::sendfile` for the front file, once the output buffer is empty. -/
theorem fileSent (h : e.InOrder p) (hout : e.conn.outBuffer.toString = []) {f : FileInfo}
    {fs : List FileInfo} (hfiles : e.conn.fileList = f :: fs) {a : Answer} {k : List Answer}
    (hk : e.kernel = a :: k) (n : Nat) :
    (Endpoint.fileSent { e with kernel := k, socket := e.socket ++ f.rest.take n } f fs
      (min n f.rest.length)).InOrder p := by
  obtain ⟨hsize, hsent⟩ := h.files f (by simp [hfiles])
  have hlen := FileInfo.rest_length hsize
  have hfs : ∀ g ∈ fs, g.size = g.file.content.length ∧ g.sent < g.size :=
    fun g hg => h.files g (by simp [hfiles, hg])
  have hw : e.conn.channel.isWriting = true := h.writing (.inr (by simp [hfiles]))
  have hk' := (hk ▸ h.obliging).tail
  have hb := h.bytes
  simp only [pending, hout, hfiles, List.nil_append, List.flatMap_cons] at hb
  rw [Endpoint.fileSent]
  dsimp only
  split_ifs with hdone
  · refine ⟨h.wf, h.connected, hk', fun _ => hw, hfs, ?_⟩
    simp only [pending, setFileList, addLeftBytes, close, hout, List.nil_append]
    rw [List.take_of_length_le (by omega), List.append_assoc, hb]
  · refine ⟨h.wf, h.connected, hk', fun _ => hw, ?_, ?_⟩
    · rintro g (_ | ⟨_, hg⟩)
      · exact ⟨hsize, Nat.lt_of_not_le hdone⟩
      · exact hfs g hg
    · simp only [pending, setFileList, addLeftBytes, hout, List.nil_append, List.flatMap_cons,
        FileInfo.rest_sent]
      rw [List.append_assoc, ← List.append_assoc (f.rest.take n), take_append_drop_min, hb]

end InOrder

theorem keeps_send (h : e.InOrder p) (msg : Bytes) (hg : e.OneQueue (.send msg)) :
    Keeps (p ++ msg) (e.send msg) := by
  rw [send]
  split_ifs with hfast
  · obtain ⟨hout, hfiles⟩ := h.idle (by simpa using hfast.1)
    rcases write_cases h.obliging msg with hw | ⟨a, k, hk, hw, -⟩ | ⟨n, k, hk, hw⟩
    · rw [hw]
      exact h.socket_prefix.trans (List.prefix_append _ _)
    · rw [hw]
      exact (h.answered hk).queue msg (.inr hfiles)
    · rw [hw]
      have hsent := (h.accepted hout hfiles hk (msg.take n)).queue
        (msg.drop (min n msg.length)) (.inr hfiles)
      rwa [List.append_assoc, take_append_drop_min] at hsent
  · exact h.queue msg hg

theorem keeps_sendFile (h : e.InOrder p) (f : OpenFile) :
    Keeps (p ++ f.content) (e.sendFile f) := by
  rw [sendFile]
  split_ifs with hfast
  · obtain ⟨hout, hfiles⟩ := h.idle (by simpa using hfast.1)
    rcases write_cases h.obliging f.content with hw | ⟨a, k, hk, hw, -⟩ | ⟨n, k, hk, hw⟩
    · rw [hw]
      exact h.socket_prefix.trans (List.prefix_append _ _)
    · rw [hw]
      exact (h.answered hk).queueFile f 0
    · rw [hw]
      have hsent := (h.accepted hout hfiles hk (f.content.take n)).queueFile f
        (min n f.content.length)
      rwa [List.append_assoc, take_append_drop_min] at hsent
  · exact h.queueFile f 0

/-- What `writeNonBlocking` leaves: the order is kept, and the files are not touched. -/
theorem InOrder.writeNonBlocking_spec (h : e.InOrder p) :
    e.writeNonBlocking = .error e ∨
    ∃ flag e', e.writeNonBlocking = .ok (flag, e') ∧ e'.InOrder p ∧
      e'.conn.fileList = e.conn.fileList ∧ e'.kernel = e.kernel.tail ∧
      (e.Drains → e'.conn.outBuffer.toString = []) := by
  have hlen := e.conn.outBuffer.toString_length h.wf
  rw [writeNonBlocking]
  rcases write_cases h.obliging e.conn.outBuffer.toString with
    hw | ⟨a, k, hk, hw, ha⟩ | ⟨n, k, hk, hw⟩
  · rw [hw]
    exact .inl rfl
  · rw [hw]
    refine .inr ⟨0, _, rfl, h.answered hk, rfl, by rw [hk]; rfl, ?_⟩
    intro hd
    have hzero : e.conn.outBuffer.readableBytes ≤ 0 := by
      rw [Drains] at hd
      rw [hk] at hd
      cases a with
      | accepts n => exact absurd rfl (ha n)
      | fails err => exact hd
    exact h.readable_zero.mp (by omega)
  · rw [hw]
    have hs := e.conn.outBuffer.retrieve_toString h.wf (min n e.conn.outBuffer.toString.length)
    refine .inr ⟨1, _, rfl, ⟨?_, h.connected, (hk ▸ h.obliging).tail, ?_, h.files, ?_⟩, rfl,
      by rw [hk]; rfl, ?_⟩
    · exact e.conn.outBuffer.retrieve_wf h.wf _
    · intro hw
      refine h.writing (hw.imp_left fun hne hnil => hne ?_)
      dsimp only [setOutBuffer]
      rw [hs, hnil, List.drop_nil]
    · have hb := h.bytes
      simp only [pending, setOutBuffer, hs, List.append_assoc] at hb ⊢
      rw [← List.append_assoc (e.conn.outBuffer.toString.take n), take_append_drop_min, hb]
    · intro hd
      have hn : e.conn.outBuffer.readableBytes ≤ n := by
        unfold Drains at hd
        rwa [hk] at hd
      dsimp only [setOutBuffer]
      rw [hs, List.drop_eq_nil_of_le (by omega)]

/-- The loop over the files, once the output buffer is empty. -/
theorem sendFiles_drained (fuel : Nat) {e : Endpoint} (h : e.InOrder p)
    (hout : e.conn.outBuffer.toString = []) :
    (∃ e', sendFiles fuel e = .ok (true, e') ∧ e'.InOrder p) ∨
      ∃ e', sendFiles fuel e = .error e' ∧ e'.socket <+: p := by
  induction fuel generalizing e with
  | zero =>
    unfold sendFiles
    cases e.conn.fileList with
    | nil => exact .inl ⟨e, rfl, h⟩
    | cons f fs => exact .inr ⟨e, rfl, h.socket_prefix⟩
  | succ fuel ih =>
    unfold sendFiles
    cases hfiles : e.conn.fileList with
    | nil => exact .inl ⟨e, rfl, h⟩
    | cons f fs =>
      rcases write_cases h.obliging f.rest with hw | ⟨a, k, hk, hw, -⟩ | ⟨n, k, hk, hw⟩
      · dsimp only
        rw [hw]
        exact .inr ⟨e, rfl, h.socket_prefix⟩
      · dsimp only
        rw [hw]
        exact .inl ⟨_, rfl, h.answered hk⟩
      · dsimp only
        rw [hw]
        apply ih (h.fileSent hout hfiles hk n)
        unfold fileSent
        dsimp only
        split_ifs <;> exact hout

/-- The loop over the files, when the kernel takes none of their bytes. -/
theorem sendFiles_refused (fuel : Nat) {e : Endpoint} (h : e.InOrder p) (hr : Refuses e.kernel) :
    (∃ e', sendFiles fuel e = .ok (true, e') ∧ e'.InOrder p) ∨
      ∃ e', sendFiles fuel e = .error e' ∧ e'.socket <+: p := by
  induction fuel generalizing e with
  | zero =>
    unfold sendFiles
    cases e.conn.fileList with
    | nil => exact .inl ⟨e, rfl, h⟩
    | cons f fs => exact .inr ⟨e, rfl, h.socket_prefix⟩
  | succ fuel ih =>
    unfold sendFiles
    cases hfiles : e.conn.fileList with
    | nil => exact .inl ⟨e, rfl, h⟩
    | cons f fs =>
      obtain ⟨-, hsent⟩ := h.files f (by simp [hfiles])
      rcases write_cases h.obliging f.rest with hw | ⟨a, k, hk, hw, -⟩ | ⟨n, k, hk, hw⟩
      · dsimp only
        rw [hw]
        exact .inr ⟨e, rfl, h.socket_prefix⟩
      · dsimp only
        rw [hw]
        exact .inl ⟨_, rfl, h.answered hk⟩
      · rw [hk] at hr
        cases n with
        | succ n => exact hr.elim
        | zero =>
          -- nothing was taken, so the front file is put back as it was
          have hback : fileSent { e with kernel := k, socket := e.socket ++ f.rest.take 0 } f fs
              (min 0 f.rest.length) = { e with kernel := k } := by
            have hnot : ¬f.sent ≥ f.size := Nat.not_le.mpr hsent
            simp [fileSent, hnot, setFileList, addLeftBytes, ← hfiles]
          dsimp only
          rw [hw]
          have hrest := ih (h.answered hk) hr
          rw [← hback] at hrest
          exact hrest

theorem keeps_writeCallback (h : e.InOrder p) (hg : e.OneQueue .writable) :
    Keeps p e.writeCallback := by
  have hstate : ¬e.conn.state = .disconnected := by rw [h.connected]; decide
  rw [writeCallback]
  rw [if_neg hstate]
  rcases h.writeNonBlocking_spec with hw | ⟨flag, e1, hw, h1, hfiles, hkernel, hdrain⟩
  · rw [hw]
    exact h.socket_prefix
  · rw [hw]
    have hloop : (∃ e', sendFiles e1.kernel.length e1 = .ok (true, e') ∧ e'.InOrder p) ∨
        ∃ e', sendFiles e1.kernel.length e1 = .error e' ∧ e'.socket <+: p := by
      rcases hg with hg | hg | hg
      · left
        refine ⟨e1, ?_, h1⟩
        rw [sendFiles]
        rw [hfiles, hg]
      · exact sendFiles_drained _ h1 (hdrain hg)
      · exact sendFiles_refused _ h1 (hkernel ▸ hg)
    rcases hloop with ⟨e2, hs, h2⟩ | ⟨e2, hs, h2⟩
    · simp only [bind, Except.bind, hs]
      split_ifs with hall
      · obtain ⟨-, hout, hempty⟩ := hall
        rw [h2.readable_zero] at hout
        exact ⟨h2.wf, h2.connected, h2.obliging, by simp [setChannel, hout, hempty], h2.files,
          h2.bytes⟩
      · exact h2
    · simp only [bind, Except.bind, hs]
      exact h2

/-- Each call keeps the order, under the condition on the two queues. -/
theorem keeps_step (h : e.InOrder p) (c : Call) (hg : e.OneQueue c) :
    Keeps (p ++ c.payload) (e.step c) := by
  cases c with
  | send msg => exact keeps_send h msg hg
  | sendFile f => exact keeps_sendFile h f
  | writable =>
    rw [Call.payload, List.append_nil]
    exact keeps_writeCallback h hg

theorem connected_inOrder (w : Workload) {k : List Answer} (hk : Obliging k) :
    (connected w k).InOrder [] :=
  ⟨Buffer.default_wf, rfl, hk, by simp [connected, TCPConnection.enableConnection,
    TCPConnection.new], by simp [connected, TCPConnection.enableConnection, TCPConnection.new],
    by simp [connected, pending, TCPConnection.enableConnection, TCPConnection.new]⟩

end Endpoint

open Endpoint in
/-- In every run whose calls all meet the condition, the socket has accepted a prefix of what the
calls were to send: between two calls, and wherever in the next call the kernel has not yet
answered. -/
theorem output_in_order (w : Workload) (k : List Answer) (hk : Obliging k) (calls : List Call)
    (e : Endpoint)
    (h : Run (fun e c e' => e.OneQueue c ∧ e.step c = .ok e') (connected w k) calls e) :
    e.socket <+: calls.flatMap Call.payload ∧
      ∀ c e', e.OneQueue c → e.step c = .error e' →
        e'.socket <+: (calls ++ [c]).flatMap Call.payload := by
  have hinv : e.InOrder (calls.flatMap Call.payload) := by
    refine h.invariant (fun calls e => e.InOrder (calls.flatMap Call.payload))
      (connected_inOrder w hk) ?_
    intro calls e c e' hin ⟨hg, hstep⟩
    have hkeeps := keeps_step hin c hg
    rw [hstep] at hkeeps
    rw [List.flatMap_append, List.flatMap_singleton]
    exact hkeeps
  refine ⟨hinv.socket_prefix, ?_⟩
  intro c e' hg hstep
  have hkeeps := keeps_step hinv c hg
  rw [hstep] at hkeeps
  rw [List.flatMap_append, List.flatMap_singleton]
  exact hkeeps

open Endpoint in
theorem output_in_order_partial :
    ∃ e : Endpoint, e.socket = bytes "abc" ∧
      e.socket <+: [Call.send (bytes "ab"), .sendFile ⟨7, bytes "cd"⟩, .writable].flatMap
        Call.payload := by
  obtain ⟨e, hrun, hsocket⟩ := Run.exists_of_foldlM
    (show ([.send (bytes "ab"), .sendFile ⟨7, bytes "cd"⟩, .writable].foldlM orderedStep
      (connected ⟨1, 0⟩ [.accepts 1, .accepts 9, .accepts 1, .fails .eagain])).toOption.map
        Endpoint.socket = some (bytes "abc") by decide +kernel)
  exact ⟨e, hsocket, (output_in_order ⟨1, 0⟩ _ (by simp [Obliging]) _ e
    (hrun.mono fun _ _ _ => orderedStep_iff.mp)).1⟩

open Endpoint in
/-- A message sent behind a queued file overtakes it, and a file overtakes the rest of a message
that the socket did not take. -/
theorem output_out_of_order :
    (∃ e, Run (fun e c e' => e.step c = .ok e')
        (connected ⟨1, 0⟩ [.fails .eagain, .accepts 9, .accepts 9])
        [.sendFile ⟨7, bytes "a"⟩, .send (bytes "b"), .writable] e ∧
      ¬e.socket <+: [Call.sendFile ⟨7, bytes "a"⟩, .send (bytes "b"), .writable].flatMap
        Call.payload) ∧
    ∃ e, Run (fun e c e' => e.step c = .ok e')
        (connected ⟨1, 0⟩ [.accepts 1, .fails .eagain, .accepts 9])
        [.send (bytes "ab"), .sendFile ⟨7, bytes "c"⟩, .writable] e ∧
      ¬e.socket <+: [Call.send (bytes "ab"), .sendFile ⟨7, bytes "c"⟩, .writable].flatMap
        Call.payload := by
  constructor
  · obtain ⟨e, hrun, hsocket⟩ := Run.exists_of_foldlM
      (show ([.sendFile ⟨7, bytes "a"⟩, .send (bytes "b"), .writable].foldlM Endpoint.step
        (connected ⟨1, 0⟩ [.fails .eagain, .accepts 9, .accepts 9])).toOption.map
          Endpoint.socket = some (bytes "ba") by decide +kernel)
    exact ⟨e, hrun, by rw [hsocket]; decide⟩
  · obtain ⟨e, hrun, hsocket⟩ := Run.exists_of_foldlM
      (show ([.send (bytes "ab"), .sendFile ⟨7, bytes "c"⟩, .writable].foldlM Endpoint.step
        (connected ⟨1, 0⟩ [.accepts 1, .fails .eagain, .accepts 9])).toOption.map
          Endpoint.socket = some (bytes "ac") by decide +kernel)
    exact ⟨e, hrun, by rw [hsocket]; decide⟩

end MuduoServer
