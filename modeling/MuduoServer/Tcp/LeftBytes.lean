import MuduoServer.Tcp.FileRelease
import MuduoServer.Tcp.WriteInterest
import Mathlib.Algebra.BigOperators.Group.List.Basic

namespace MuduoServer

/-- What a `::sendfile` for the file still has to send. -/
def FileInfo.left (f : FileInfo) : Int := f.size - f.sent

/-- The bytes in the files of a list that are not sent. -/
def bytesLeft (fs : List FileInfo) : Int := (fs.map FileInfo.left).sum

@[simp] theorem bytesLeft_nil : bytesLeft [] = 0 := rfl

@[simp] theorem bytesLeft_cons (f : FileInfo) (fs : List FileInfo) :
    bytesLeft (f :: fs) = f.left + bytesLeft fs := List.sum_cons

theorem bytesLeft_append (fs gs : List FileInfo) :
    bytesLeft (fs ++ gs) = bytesLeft fs + bytesLeft gs := by
  rw [bytesLeft, List.map_append, List.sum_append]
  rfl

theorem bytesLeft_nonneg {fs : List FileInfo} (h : ∀ f ∈ fs, f.sent < f.size) :
    0 ≤ bytesLeft fs := by
  induction fs with
  | nil => exact le_refl 0
  | cons f fs ih =>
    have hf := h f List.mem_cons_self
    have hfs := ih fun g hg => h g (List.mem_cons_of_mem f hg)
    rw [bytesLeft_cons, FileInfo.left]
    omega

namespace Endpoint

/-- The endpoints at which an event goes on with the files in the list. -/
def rounds (e : Endpoint) : Event → List Endpoint
  | .call .writable =>
    if e.conn.state = .disconnected then []
    else match e.writeNonBlocking with
      | .ok (_, e) => sendfileRounds e.kernel.length e
      | .error _ => []
  | _ => []

/-- The kernel fails a `::sendfile` on a closed descriptor: one that was closed as often as it was
given. -/
def FailsOnClosed (e : Endpoint) (given : List Nat) (event : Event) : Prop :=
  ∀ r ∈ e.rounds event, ∀ fd ∈ r.queuedFds.take 1,
    given.count fd ≤ r.closedFds.count fd → r.failsNext (· != .eagain) = true

/-- The files of a connection that is not closed. -/
def filesLeft (e : Endpoint) : List FileInfo :=
  if e.conn.state = .disconnected then [] else e.conn.fileList

/-- What `left_bytes_` holds beyond the files of the connection. -/
def others (e : Endpoint) : Int64 := e.workload.leftBytes - Int64.ofInt (bytesLeft e.filesLeft)

instance (e : Endpoint) (given : List Nat) (event : Event) :
    Decidable (e.FailsOnClosed given event) :=
  inferInstanceAs (Decidable (∀ r ∈ e.rounds event, ∀ fd ∈ r.queuedFds.take 1, _ → _))

variable {e e' : Endpoint} {given : List Nat}

theorem filesLeft_open (h : e.conn.state ≠ .disconnected) : e.filesLeft = e.conn.fileList :=
  if_neg h

theorem filesLeft_closed (h : e.conn.state = .disconnected) : e.filesLeft = [] := if_pos h

theorem others_open (h : e.conn.state ≠ .disconnected) :
    e.others = e.workload.leftBytes - Int64.ofInt (bytesLeft e.conn.fileList) := by
  rw [others, filesLeft_open h]

theorem others_congr (hwork : e'.workload = e.workload) (hstate : e'.conn.state = e.conn.state)
    (hfiles : e'.conn.fileList = e.conn.fileList) : e'.others = e.others := by
  rw [others, others, filesLeft, filesLeft, hwork, hstate, hfiles]

/-- On close the files leave the counter together. -/
theorem handleClose_others (e : Endpoint) : e.handleClose.others = e.others := by
  by_cases hd : e.conn.state = .disconnected
  · rw [handleClose, if_pos hd]
  · have hleft : e.handleClose.workload.leftBytes =
        e.workload.leftBytes - Int64.ofInt (bytesLeft e.conn.fileList) := by
      rw [handleClose, if_neg hd]
      rfl
    rw [others, filesLeft_closed e.handleClose_state, hleft, others_open hd]
    exact Int64.sub_zero _

theorem queue_others (e : Endpoint) (left : Bytes) : (e.queue left).others = e.others := by
  rw [queue]
  dsimp only
  split_ifs <;> exact others_congr rfl rfl rfl

/-- What is added to the counter and to the files of the connection cancels. -/
theorem add_sub_ofInt (x : Int64) {a b n : Int} (h : b = a + n) :
    x + Int64.ofInt n - Int64.ofInt b = x - Int64.ofInt a := by
  rw [h, Int64.ofInt_add]
  grind

/-- A file enters the counter with what a direct send has left of it. -/
theorem queueFile_others (hd : e.conn.state ≠ .disconnected) {f : OpenFile} {sent : Nat}
    (hs : sent ≤ f.content.length) : (e.queueFile f sent).others = e.others := by
  unfold queueFile
  dsimp only
  split_ifs with hlt
  · rw [others_open hd, others_open (by exact hd)]
    apply add_sub_ofInt
    simp [addLeftBytes, setChannel, setFileList, bytesLeft_append, FileInfo.left]
  · rw [others_open hd, others_open (by exact hd)]
    apply add_sub_ofInt
    simp only [addLeftBytes, close]
    omega

/-- What a round sends leaves the front file and the counter. -/
theorem fileSent_others (hd : e.conn.state ≠ .disconnected) {f : FileInfo} {fs : List FileInfo}
    (hfiles : e.conn.fileList = f :: fs) (hf : f.sent < f.size) {n : Nat}
    (hn : n ≤ f.size - f.sent) : (e.fileSent f fs n).others = e.others := by
  rw [others_open hd, hfiles, fileSent]
  dsimp only
  split_ifs with hdone
  · rw [others_open (by exact hd)]
    apply add_sub_ofInt
    simp only [addLeftBytes, setFileList, close, bytesLeft_cons, FileInfo.left]
    omega
  · rw [others_open (by exact hd)]
    apply add_sub_ofInt
    simp only [addLeftBytes, setFileList, bytesLeft_cons, FileInfo.left]
    omega

theorem sendFiles_others (fuel : Nat) {goesOn : Bool} (hd : e.conn.state ≠ .disconnected)
    (h : e.Watched) (hs : sendFiles fuel e = .ok (goesOn, e')) : e'.others = e.others := by
  induction fuel generalizing e with
  | zero =>
    by_cases hfiles : e.conn.fileList = []
    · rw [sendFiles_nil hfiles] at hs
      cases hs
      rfl
    · exact (sendFiles_zero_ne_ok hfiles hs).elim
  | succ fuel ih =>
    cases hfiles : e.conn.fileList with
    | nil =>
      rw [sendFiles_nil hfiles] at hs
      cases hs
      rfl
    | cons f fs =>
      have hf : f.sent < f.size := h.files f (by rw [hfiles]; exact List.mem_cons_self)
      rcases sendFiles_succ hfiles hs with
        ⟨n, k, -, hs⟩ | ⟨k, -, -, rfl⟩ | ⟨err, k, -, -, -, rfl⟩
      · have hle : min n f.rest.length ≤ f.size - f.sent :=
          (Nat.min_le_right _ _).trans f.length_rest_le
        have hsent := fileSent_others (e := { e with
          kernel := k, socket := e.socket ++ f.rest.take n }) hd hfiles hf hle
        rw [ih ?_ ((h.answered k _).fileSent hfiles _) hs, hsent]
        · exact others_congr rfl rfl rfl
        · rw [fileSent]
          dsimp only
          split_ifs <;> exact hd
      · exact others_congr rfl rfl rfl
      · rw [handleClose_others]
        exact others_congr rfl rfl rfl

/-- On a closed connection the loop over the files ends with its first `::sendfile`, which the
kernel fails. -/
theorem sendFiles_closed (fuel : Nat) {goesOn : Bool}
    (hfails : e.conn.fileList ≠ [] → e.failsNext (· != .eagain) = true)
    (hs : sendFiles fuel e = .ok (goesOn, e')) : e'.others = e.others := by
  cases hfiles : e.conn.fileList with
  | nil =>
    rw [sendFiles_nil hfiles] at hs
    cases hs
    rfl
  | cons f fs =>
    have hnext := hfails (by rw [hfiles]; exact List.cons_ne_nil f fs)
    cases fuel with
    | zero => exact (sendFiles_zero_ne_ok (by rw [hfiles]; exact List.cons_ne_nil f fs) hs).elim
    | succ fuel =>
      rcases sendFiles_succ hfiles hs with
        ⟨n, k, hk, -⟩ | ⟨k, hk, -, -⟩ | ⟨err, k, -, -, -, rfl⟩
      · rw [failsNext, hk] at hnext
        cases hnext
      · rw [failsNext, hk] at hnext
        cases hnext
      · rw [handleClose_others]
        exact others_congr rfl rfl rfl

theorem send_others {msg : Bytes} (hs : e.send msg = .ok e') : e'.others = e.others := by
  rcases send_ok hs with ⟨-, rfl⟩ | ⟨-, n, k, -, rfl⟩ | ⟨-, k, -, rfl⟩ | ⟨-, err, k, -, -, rfl⟩
  · exact queue_others e msg
  · rw [queue_others]
    exact others_congr rfl rfl rfl
  · rw [queue_others]
    exact others_congr rfl rfl rfl
  · rw [handleClose_others]
    exact others_congr rfl rfl rfl

theorem sendFile_others (hd : e.conn.state ≠ .disconnected) {f : OpenFile}
    (hs : e.sendFile f = .ok e') : e'.others = e.others := by
  rcases sendFile_ok hs with ⟨-, rfl⟩ | ⟨-, n, k, -, rfl⟩ | ⟨-, k, -, rfl⟩ | ⟨-, err, k, -, -, rfl⟩
  · exact queueFile_others hd (Nat.zero_le _)
  · rw [queueFile_others (by exact hd) (Nat.min_le_right _ _)]
    exact others_congr rfl rfl rfl
  · rw [queueFile_others (by exact hd) (Nat.zero_le _)]
    exact others_congr rfl rfl rfl
  · rw [handleClose_others]
    exact others_congr rfl rfl rfl

/-- The write callback goes on after a failed write: with the files of a connection that is now
closed. -/
theorem writeCallback_others (h : e.Watched)
    (ha : e.conn.state ≠ .disconnected → e.Accounts given)
    (hclosed : e.FailsOnClosed given (.call .writable)) (hs : e.writeCallback = .ok e') :
    e'.others = e.others := by
  rcases writeCallback_ok hs with ⟨-, rfl⟩ | ⟨hd, flag, e1, goesOn, e2, hw, hloop, hend⟩
  · rfl
  · have hlast : e'.others = e2.others := by
      rcases hend with ⟨-, -, -, rfl⟩ | ⟨-, rfl⟩
      · exact others_congr rfl rfl rfl
      · rfl
    have hwatched := h.writeNonBlocking hw
    rw [hlast]
    rcases writeNonBlocking_ok hw with ⟨n, k, -, rfl⟩ | ⟨err, k, -, -, rfl⟩ | ⟨k, -, rfl⟩
    · rw [sendFiles_others _ (by exact hd) hwatched hloop]
      exact others_congr rfl rfl rfl
    · rw [sendFiles_others _ (by exact hd) hwatched hloop]
      exact others_congr rfl rfl rfl
    · rw [sendFiles_closed _ ?_ hloop, handleClose_others]
      · exact others_congr rfl rfl rfl
      · intro hsome
        obtain ⟨f, fs, hfiles⟩ := List.exists_cons_of_ne_nil hsome
        have h1 : (handleClose { e with kernel := k }).Accounts given :=
          ((ha hd).answered k e.socket).handleClose
        have hcount := ((accounts_closed (handleClose_state _)).mp h1).count_eq f.file.fd
        apply hclosed _ _ f.file.fd _ hcount.ge
        · rw [rounds, if_neg hd, hw]
          exact rounds_front _ hfiles
        · rw [queuedFds, hfiles]
          exact List.mem_cons_self

theorem handle_others (h : e.Watched) (ha : e.conn.state ≠ .disconnected → e.Accounts given)
    {event : Event} (hfile : event.given ≠ [] → e.conn.state ≠ .disconnected)
    (hclosed : e.FailsOnClosed given event) (hs : e.handle event = .ok e') :
    e'.others = e.others := by
  cases event with
  | handleClose =>
    cases hs
    exact e.handleClose_others
  | call c =>
    cases c with
    | send msg => exact send_others hs
    | sendFile f => exact sendFile_others (hfile (List.cons_ne_nil f.fd [])) hs
    | writable => exact writeCallback_others h ha hclosed hs

/-- A connection that an event leaves open has lost no file in it. -/
theorem keepsFiles_of_open {event : Event} (hs : e.handle event = .ok e')
    (hd : e'.conn.state ≠ .disconnected) : e.KeepsFiles event := by
  have hopen : e.conn.state ≠ .disconnected := by
    intro hdis
    rcases (mayClose_handle hs).state with hstate | hstate
    · exact hd (hstate.trans hdis)
    · exact hd hstate
  cases event with
  | handleClose => exact trivial
  | call c =>
    cases c with
    | send msg => exact trivial
    | sendFile f =>
      show e.KeepsFile f
      rw [KeepsFile]
      rcases sendFile_ok hs with
        ⟨hn, rfl⟩ | ⟨hn, n, k, hk, rfl⟩ | ⟨hn, k, hk, rfl⟩ | ⟨hn, err, k, -, -, rfl⟩
      · rw [if_neg hn]
        exact fun hdis => (hopen hdis).elim
      · rw [if_pos hn, failsNext, hk]
        exact ⟨rfl, fun hdis => (hopen hdis).elim⟩
      · rw [if_pos hn, failsNext, hk]
        exact ⟨rfl, fun hdis => (hopen hdis).elim⟩
      · exact (hd (handleClose_state _)).elim
    | writable =>
      rcases writeCallback_ok hs with ⟨hdis, -⟩ | ⟨-, flag, e1, goesOn, e2, hw, hloop, hend⟩
      · exact (hopen hdis).elim
      · rcases writeNonBlocking_ok hw with ⟨n, k, hk, -⟩ | ⟨err, k, herr, hk, -⟩ | ⟨k, -, rfl⟩
        · exact .inr (.inr (by rw [failsNext, hk]))
        · refine .inr (.inr ?_)
          rw [failsNext, hk]
          exact beq_false_of_ne herr
        · have hclosed : e2.conn.state = .disconnected := by
            rcases (mayClose_sendFiles _ hloop).state with h2 | h2
            · exact h2.trans (handleClose_state _)
            · exact h2
          rcases hend with ⟨-, -, -, rfl⟩ | ⟨-, rfl⟩ <;> exact (hd hclosed).elim

end Endpoint

/-- A connection of an `EventLoop`, with the descriptors of the files that were given to it. The
workload in the endpoint is not its own. -/
structure LoopConn where
  endpoint : Endpoint
  given : List Nat

/-- An `EventLoop` with its connections. -/
structure ConnLoop where
  workload : Workload
  conns : List LoopConn

/-- `connections` is what the acceptor makes of `connections_`. -/
inductive ConnLoop.Event
  | connect (connections : Nat) (kernel : List Answer)
  | on (i : Nat) (event : Endpoint.Event)

/-- The connection as it finds the workload of its loop. -/
def LoopConn.onLoop (c : LoopConn) (w : Workload) : Endpoint := { c.endpoint with workload := w }

namespace ConnLoop

def new : ConnLoop := ⟨⟨0, 0⟩, []⟩

/-- An event on the loop's thread, as long as the kernel answers its calls. -/
def step (s : ConnLoop) : Event → Option ConnLoop
  | .connect connections kernel =>
    let w := { s.workload with connections := connections }
    some ⟨w, s.conns ++ [⟨.connected w kernel, []⟩]⟩
  | .on i event => do
    let c ← s.conns[i]?
    let e ← ((c.onLoop s.workload).handle event).toOption
    some ⟨e.workload, s.conns.set i ⟨e, c.given ++ event.given⟩⟩

/-- `sendFile` is called on connections that are connected, and the kernel knows which descriptors
are closed. -/
def Possible (s : ConnLoop) : Event → Prop
  | .connect _ _ => True
  | .on i event => ∀ c ∈ s.conns[i]?,
    (event.given ≠ [] → c.endpoint.conn.state = .connected) ∧
      (c.onLoop s.workload).FailsOnClosed c.given event

/-- The files in `file_list_` of the connections that are connected. -/
def files (s : ConnLoop) : List FileInfo :=
  (s.conns.filter fun c => c.endpoint.conn.state = .connected).flatMap
    fun c => c.endpoint.conn.fileList

instance (s : ConnLoop) : (event : Event) → Decidable (s.Possible event)
  | .connect _ _ => instDecidableTrue
  | .on i _ => inferInstanceAs (Decidable (∀ c ∈ s.conns[i]?, _ ∧ _))

end ConnLoop

/-- What holds of a connection between events. -/
structure LoopConn.Sound (c : LoopConn) : Prop where
  watched : c.endpoint.Watched
  needed : c.endpoint.Needed
  state : c.endpoint.conn.state = .connected ∨ c.endpoint.conn.state = .disconnected
  accounts : c.endpoint.conn.state ≠ .disconnected → c.endpoint.Accounts c.given

theorem LoopConn.Sound.onLoop {c : LoopConn} (h : c.Sound) (w : Workload) :
    LoopConn.Sound ⟨c.onLoop w, c.given⟩ :=
  ⟨⟨h.watched.wf, h.watched.synced, h.watched.files, h.watched.writing⟩, h.needed, h.state,
    h.accounts⟩

theorem LoopConn.Sound.handle {e e' : Endpoint} {given : List Nat} (h : LoopConn.Sound ⟨e, given⟩)
    {event : Endpoint.Event} (hs : e.handle event = .ok e') :
    LoopConn.Sound ⟨e', given ++ event.given⟩ := by
  obtain ⟨hwatched, hneeded⟩ := h.watched.handle h.needed hs
  refine ⟨hwatched, hneeded, ?_, ?_⟩
  · rcases (Endpoint.mayClose_handle hs).state with hstate | hstate
    · exact h.state.imp hstate.trans hstate.trans
    · exact .inr hstate
  · intro hopen
    have hbefore : e.conn.state ≠ .disconnected := by
      intro hdis
      rcases (Endpoint.mayClose_handle hs).state with hstate | hstate
      · exact hopen (hstate.trans hdis)
      · exact hopen hstate
    exact ((h.accounts hbefore).handle_iff hs).1 (Endpoint.keepsFiles_of_open hs hopen)

namespace ConnLoop

variable {s s' : ConnLoop}

/-- `left_bytes_` counts the files of the connections that are not closed. -/
structure Inv (s : ConnLoop) : Prop where
  left : s.workload.leftBytes =
    Int64.ofInt (s.conns.map fun c => bytesLeft c.endpoint.filesLeft).sum
  sound : ∀ c ∈ s.conns, c.Sound

theorem Inv.connect (h : s.Inv) (connections : Nat) (kernel : List Answer) :
    Inv ⟨{ s.workload with connections := connections }, s.conns ++
      [⟨.connected { s.workload with connections := connections } kernel, []⟩]⟩ := by
  constructor
  · rw [List.map_append, List.sum_append]
    exact h.left.trans (congrArg Int64.ofInt (add_zero _).symm)
  · intro c hc
    rcases List.mem_append.mp hc with hc | hc
    · exact h.sound c hc
    · obtain rfl := List.mem_singleton.mp hc
      obtain ⟨hwatched, hneeded⟩ :=
        Endpoint.connected_watched { s.workload with connections := connections } kernel
      exact ⟨hwatched, hneeded, .inl rfl, fun _ => List.Perm.refl []⟩

/-- The other connections are as they were, and their files too. -/
theorem Inv.on (h : s.Inv) {i : Nat} {event : Endpoint.Event} (hp : s.Possible (.on i event))
    {c : LoopConn} (hc : s.conns[i]? = some c) {e : Endpoint}
    (hs : (c.onLoop s.workload).handle event = .ok e) :
    Inv ⟨e.workload, s.conns.set i ⟨e, c.given ++ event.given⟩⟩ := by
  obtain ⟨hi, hget⟩ := List.getElem?_eq_some_iff.mp hc
  have hsound := (h.sound c (List.mem_of_getElem? hc)).onLoop s.workload
  obtain ⟨hfile, hclosed⟩ := hp c hc
  constructor
  · have hothers : e.others = (c.onLoop s.workload).others := by
      apply Endpoint.handle_others hsound.watched hsound.accounts _ hclosed hs
      intro hgiven
      rw [LoopConn.onLoop, hfile hgiven]
      decide
    have hc' : (c.onLoop s.workload).others =
      s.workload.leftBytes - Int64.ofInt (bytesLeft c.endpoint.filesLeft) := rfl
    rw [hc', h.left, Endpoint.others] at hothers
    show e.workload.leftBytes = _
    rw [List.map_set, List.sum_set', dif_pos (by rwa [List.length_map]), List.getElem_map, hget]
    simp only [Int64.ofInt_add, Int64.ofInt_neg]
    grind
  · intro c' hc'
    rcases List.mem_or_eq_of_mem_set hc' with hc' | rfl
    · exact h.sound c' hc'
    · exact hsound.handle hs

theorem Inv.step (h : s.Inv) {event : Event} (hp : s.Possible event)
    (hs : s.step event = some s') : s'.Inv := by
  cases event with
  | connect connections kernel =>
    cases hs
    exact h.connect connections kernel
  | on i event =>
    rw [ConnLoop.step] at hs
    cases hc : s.conns[i]? with
    | none =>
      rw [hc] at hs
      cases hs
    | some c =>
      cases he : (c.onLoop s.workload).handle event with
      | error e =>
        simp only [hc, Option.bind_eq_bind, Option.bind_some, he, Except.toOption,
          Option.bind_none] at hs
        cases hs
      | ok e =>
        simp only [hc, Option.bind_eq_bind, Option.bind_some, he, Except.toOption] at hs
        cases hs
        exact h.on hp hc he

theorem inv_new : new.Inv := ⟨rfl, fun _ h => absurd h List.not_mem_nil⟩

theorem Inv.sum_eq (h : s.Inv) :
    (s.conns.map fun c => bytesLeft c.endpoint.filesLeft).sum = bytesLeft s.files := by
  rw [files]
  have hsound := h.sound
  generalize s.conns = conns at hsound
  induction conns with
  | nil => rfl
  | cons c conns ih =>
    have hrest := ih fun c' hc' => hsound c' (List.mem_cons_of_mem c hc')
    rcases (hsound c List.mem_cons_self).state with hstate | hstate
    · rw [List.filter_cons_of_pos (by simpa using hstate), List.flatMap_cons, bytesLeft_append,
        List.map_cons, List.sum_cons, hrest, Endpoint.filesLeft_open (by rw [hstate]; decide)]
    · rw [List.filter_cons_of_neg (by rw [hstate]; decide), List.map_cons, List.sum_cons, hrest,
        Endpoint.filesLeft_closed hstate, bytesLeft_nil, zero_add]

theorem Inv.left_eq (h : s.Inv) : s.workload.leftBytes = Int64.ofInt (bytesLeft s.files) := by
  rw [h.left, h.sum_eq]

theorem Inv.nonneg (h : s.Inv) : 0 ≤ bytesLeft s.files := by
  apply bytesLeft_nonneg
  intro f hf
  obtain ⟨c, hc, hfc⟩ := List.mem_flatMap.mp hf
  exact (h.sound c (List.mem_of_mem_filter hc)).watched.files f hfc

theorem inv_of_run {events : List Event}
    (hrun : Run (fun s event s' => s.Possible event ∧ s.step event = some s') new events s) :
    s.Inv :=
  hrun.preserves Inv inv_new fun _ _ _ h hs => h.step hs.1 hs.2

/-- Between events `left_bytes_` is what is left of the files of the connected connections, and so
never negative, exactly as long as that is a value of `off_t`. -/
theorem left_bytes_counted {events : List Event}
    (hrun : Run (fun s event s' => s.Possible event ∧ s.step event = some s') new events s) :
    (s.workload.leftBytes.toInt = (s.files.map fun f => (f.size : Int) - f.sent).sum ∧
        0 ≤ s.workload.leftBytes.toInt) ↔
      (s.files.map fun f => (f.size : Int) - f.sent).sum < 2^63 := by
  have hi : s.Inv := inv_of_run hrun
  have hpos : 0 ≤ (s.files.map fun f => (f.size : Int) - f.sent).sum := hi.nonneg
  have hleft : s.workload.leftBytes =
      Int64.ofInt (s.files.map fun f => (f.size : Int) - f.sent).sum := hi.left_eq
  constructor
  · intro h
    rw [← h.1]
    exact s.workload.leftBytes.toInt_lt
  · intro hlt
    rw [hleft, Int64.toInt_ofInt_of_le (by omega) hlt]
    exact ⟨rfl, hpos⟩

/-- Two connections with a file each: one sends a part of its file, the other fails to write, goes
on with the descriptor it has closed, and is closed. -/
theorem left_bytes_counted_two :
    ∃ s : ConnLoop, s.files = [⟨⟨7, bytes "abc"⟩, 3, 1⟩] ∧ s.workload.leftBytes.toInt = 2 ∧
      s.workload.leftBytes.toInt = (s.files.map fun f => (f.size : Int) - f.sent).sum := by
  obtain ⟨s, hrun, hs⟩ := Run.exists_of_guarded
    (f := fun (s : ConnLoop) (event : Event) => s.step event)
    (p := fun (s : ConnLoop) (event : Event) => s.Possible event)
    (g := fun s : ConnLoop => (s.files, s.workload.leftBytes.toInt)) (s := new)
    (l := [.connect 1 [.fails .eagain, .accepts 0, .accepts 1, .fails .eagain],
      .connect 2 [.accepts 1, .fails .other, .fails .other],
      .on 0 (.call (.sendFile ⟨7, bytes "abc"⟩)), .on 1 (.call (.sendFile ⟨8, bytes "de"⟩)),
      .on 0 (.call .writable), .on 1 (.call .writable)])
    (a := ([⟨⟨7, bytes "abc"⟩, 3, 1⟩], 2)) (by decide +kernel)
  obtain ⟨hfiles, hleft⟩ := Prod.mk.inj hs
  obtain ⟨hcount, -⟩ := (left_bytes_counted hrun).mpr (by rw [hfiles]; decide)
  exact ⟨s, hfiles, hleft, hcount⟩

/-- Two files that are queued on one connection, whose socket takes nothing. -/
def queuing (f g : OpenFile) : List Event :=
  [.connect 1 [.fails .eagain], .on 0 (.call (.sendFile f)), .on 0 (.call (.sendFile g))]

theorem queuing_files {f g : OpenFile} (hf : 0 < f.content.length) (hg : 0 < g.content.length) :
    ∃ s, Run (fun s event s' => s.Possible event ∧ s.step event = some s') new (queuing f g) s ∧
      s.files = [⟨f, f.content.length, 0⟩, ⟨g, g.content.length, 0⟩] := by
  have hqueued : ∀ {e : Endpoint} {f : OpenFile}, 0 < f.content.length →
      (e.queueFile f 0).conn.state = e.conn.state ∧
        (e.queueFile f 0).conn.channel.isWriting = true ∧
        (e.queueFile f 0).conn.fileList = e.conn.fileList ++ [⟨f, f.content.length, 0⟩] := by
    intro e f hf
    rw [Endpoint.queueFile]
    simp only [if_pos hf]
    exact ⟨rfl, e.conn.channel.enableWriting_isWriting, rfl⟩
  obtain ⟨hstate, hwrites, hlist⟩ := hqueued
    (e := { Endpoint.connected ⟨1, 0⟩ [.fails .eagain] with kernel := [] }) hf
  generalize he : Endpoint.queueFile
    { Endpoint.connected ⟨1, 0⟩ [.fails .eagain] with kernel := [] } f 0 = e at hstate hwrites hlist
  obtain ⟨hstate', -, hlist'⟩ := hqueued (e := e) hg
  have hconnect : new.step (.connect 1 [.fails .eagain]) =
      some ⟨⟨1, 0⟩, [⟨.connected ⟨1, 0⟩ [.fails .eagain], []⟩]⟩ := rfl
  have hfirst : step ⟨⟨1, 0⟩, [⟨.connected ⟨1, 0⟩ [.fails .eagain], []⟩]⟩
      (.on 0 (.call (.sendFile f))) = some ⟨e.workload, [⟨e, [f.fd]⟩]⟩ := by
    rw [← he]
    rfl
  have hsecond : step ⟨e.workload, [⟨e, [f.fd]⟩]⟩ (.on 0 (.call (.sendFile g))) =
      some ⟨(e.queueFile g 0).workload, [⟨e.queueFile g 0, [f.fd, g.fd]⟩]⟩ := by
    have hsend : e.sendFile g = .ok (e.queueFile g 0) := by
      rw [Endpoint.sendFile, if_neg (by simp [hwrites])]
      rfl
    have hhandle : (LoopConn.onLoop ⟨e, [f.fd]⟩ e.workload).handle (.call (.sendFile g)) =
        .ok (e.queueFile g 0) := hsend
    simp only [step, List.getElem?_cons_zero, Option.bind_eq_bind, Option.bind_some, hhandle,
      Except.toOption]
    rfl
  refine ⟨_, .cons ⟨trivial, hconnect⟩ (.cons ⟨?_, hfirst⟩ (.cons ⟨?_, hsecond⟩ (.nil _))), ?_⟩
  · intro c hc
    obtain rfl := Option.some.inj hc
    exact ⟨fun _ => rfl, fun r hr => absurd hr List.not_mem_nil⟩
  · intro c hc
    obtain rfl := Option.some.inj hc
    exact ⟨fun _ => hstate, fun r hr => absurd hr List.not_mem_nil⟩
  · have hconn : (e.queueFile g 0).conn.state = .connected := hstate'.trans hstate
    simp only [files, List.filter_cons_of_pos, hconn, decide_true, List.filter_nil,
      List.flatMap_singleton, hlist', hlist]
    rfl

/-- Two sparse files of 2^62 bytes make the counter negative. -/
theorem left_bytes_wraps :
    ∃ s, Run (fun s event s' => s.Possible event ∧ s.step event = some s') new
        (queuing ⟨7, List.replicate (2^62) 0⟩ ⟨8, List.replicate (2^62) 0⟩) s ∧
      s.workload.leftBytes.toInt = -2^63 ∧
      ¬(s.workload.leftBytes.toInt = (s.files.map fun f => (f.size : Int) - f.sent).sum ∧
        0 ≤ s.workload.leftBytes.toInt) := by
  obtain ⟨s, hrun, hfiles⟩ := queuing_files (f := ⟨7, List.replicate (2^62) 0⟩)
    (g := ⟨8, List.replicate (2^62) 0⟩) (by rw [List.length_replicate]; norm_num)
    (by rw [List.length_replicate]; norm_num)
  have hleft := (inv_of_run hrun).left_eq
  have hsum : bytesLeft s.files = 2^63 := by
    rw [hfiles, bytesLeft_cons, bytesLeft_cons, bytesLeft_nil, FileInfo.left, FileInfo.left]
    dsimp only
    rw [List.length_replicate]
    norm_num
  have hneg : s.workload.leftBytes.toInt = -2^63 := by
    rw [hleft, hsum]
    decide
  refine ⟨s, hrun, hneg, ?_⟩
  rintro ⟨-, hpos⟩
  omega

end ConnLoop

end MuduoServer
