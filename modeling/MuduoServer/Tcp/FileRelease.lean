import MuduoServer.Tcp.CallCases
import Mathlib.Data.List.Perm.Basic
import Mathlib.Data.List.Count

namespace MuduoServer

/-- The descriptors of the files that an event gives to the connection. -/
def Endpoint.Event.given : Endpoint.Event → List Nat
  | .call (.sendFile f) => [f.fd]
  | _ => []

namespace Endpoint

/-- The descriptors that were closed so far. -/
def closedFds (e : Endpoint) : List Nat := e.closed.map OpenFile.fd

/-- The descriptors in `file_list_`. -/
def queuedFds (e : Endpoint) : List Nat := e.conn.fileList.map fun f => f.file.fd

/-- The endpoints at which the loop over the files calls `::sendfile` for the front file. -/
def sendfileRounds : Nat → Endpoint → List Endpoint
  | fuel, e =>
    match e.conn.fileList, fuel with
    | [], _ => []
    | _ :: _, 0 => [e]
    | f :: fs, fuel + 1 =>
      e :: match e.write f.rest with
        | .ok (.ok sentOnce, e) => sendfileRounds fuel (e.fileSent f fs sentOnce)
        | _ => []

/-- The `::sendfile` calls of an event: each with its descriptor and what was closed before. -/
def sendfileCalls (e : Endpoint) : Event → List (Nat × List Nat)
  | .call (.sendFile f) => if e.SendsFileDirectly then [(f.fd, e.closedFds)] else []
  | .call .writable =>
    if e.conn.state = .disconnected then []
    else match e.writeNonBlocking with
      | .ok (_, e) => (sendfileRounds e.kernel.length e).flatMap fun e =>
        (e.queuedFds.take 1).map fun fd => (fd, e.closedFds)
      | .error _ => []
  | _ => []

/-- What the connection owes to the descriptors `given` to it so far. A descriptor number may be
given again after it was closed, so closes are counted against gifts. -/
structure Releases (e : Endpoint) (given : List Nat) : Prop where
  once : ∀ fd, e.closedFds.count fd ≤ given.count fd
  atEnd : e.conn.state = .disconnected → ∀ fd, e.closedFds.count fd = given.count fd

/-- An event that calls `::sendfile` on no closed descriptor, and keeps what is owed. -/
def ReleasesAt (e : Endpoint) (given : List Nat) (event : Event) (e' : Endpoint) : Prop :=
  (∀ call ∈ e.sendfileCalls event, call.2.count call.1 < (given ++ event.given).count call.1) ∧
    e'.Releases (given ++ event.given)

/-- The next answer of the kernel is a failure of the kind given. -/
def failsNext (e : Endpoint) (hard : Errno → Bool) : Bool :=
  match e.kernel with
  | .fails err :: _ => hard err
  | _ => false

/-- A `sendFile` that loses no descriptor: a direct `::sendfile` does not fail, and on a closed
connection the file is sent at once. -/
def KeepsFile (e : Endpoint) (f : OpenFile) : Prop :=
  if e.SendsFileDirectly then
    e.failsNext (· != .eagain) = false ∧
      (e.conn.state = .disconnected → e.takes f.content.length = f.content.length)
  else e.conn.state = .disconnected → f.content = []

/-- A write callback that uses no closed descriptor: the write of the output buffer does not fail
while a file waits. -/
def KeepsQueue (e : Endpoint) : Prop :=
  e.conn.state = .disconnected ∨ e.conn.fileList = [] ∨ e.failsNext (· == .other) = false

/-- The events that keep the files in order. -/
def KeepsFiles (e : Endpoint) : Event → Prop
  | .call (.sendFile f) => e.KeepsFile f
  | .call .writable => e.KeepsQueue
  | _ => True

instance (e : Endpoint) : (event : Event) → Decidable (e.KeepsFiles event)
  | .call (.sendFile _) => inferInstanceAs (Decidable (ite _ _ _))
  | .call .writable => inferInstanceAs (Decidable (_ ∨ _ ∨ _))
  | .call (.send _) => inferInstanceAs (Decidable True)
  | .handleClose => inferInstanceAs (Decidable True)

/-- The descriptors that the connection still has to close. -/
def owed (e : Endpoint) : List Nat := if e.conn.state = .disconnected then [] else e.queuedFds

/-- What was given is closed or owed. -/
def Accounts (e : Endpoint) (given : List Nat) : Prop := (e.closedFds ++ e.owed).Perm given

variable {e e' : Endpoint} {given : List Nat}

theorem owed_open (h : e.conn.state ≠ .disconnected) : e.owed = e.queuedFds := if_neg h

theorem owed_closed (h : e.conn.state = .disconnected) : e.owed = [] := if_pos h

theorem accounts_open (hd : e.conn.state ≠ .disconnected) :
    e.Accounts given ↔ (e.closedFds ++ e.queuedFds).Perm given := by
  rw [Accounts, owed_open hd]

theorem accounts_closed (hd : e.conn.state = .disconnected) :
    e.Accounts given ↔ e.closedFds.Perm given := by
  rw [Accounts, owed_closed hd, List.append_nil]

theorem Accounts.count_le (h : e.Accounts given) (fd : Nat) :
    e.closedFds.count fd + e.owed.count fd = given.count fd := by
  rw [← List.count_append]
  exact h.count_eq fd

theorem Accounts.releases (h : e.Accounts given) : e.Releases given := by
  constructor
  · intro fd
    have hcount := h.count_le fd
    omega
  · intro hd fd
    have hcount := h.count_le fd
    rw [owed_closed hd, List.count_nil] at hcount
    omega

/-- The account depends on the state, the list of files and the closes only. -/
theorem Accounts.congr (h : e.Accounts given) (hclosed : e'.closed = e.closed)
    (hstate : e'.conn.state = e.conn.state) (hfiles : e'.conn.fileList = e.conn.fileList) :
    e'.Accounts given := by
  unfold Accounts owed closedFds queuedFds at *
  rw [hclosed, hstate, hfiles]
  exact h

/-- An answer of the kernel leaves the account as it is. -/
theorem Accounts.answered (h : e.Accounts given) (k : List Answer) (s : Bytes) :
    Accounts { e with kernel := k, socket := s } given := h

theorem handleClose_closedFds (h : e.conn.state ≠ .disconnected) :
    e.handleClose.closedFds = e.closedFds ++ e.queuedFds := by
  unfold handleClose closedFds queuedFds
  rw [if_neg h]
  simp [Function.comp_def]

theorem Accounts.handleClose (h : e.Accounts given) : e.handleClose.Accounts given := by
  by_cases hd : e.conn.state = .disconnected
  · rwa [Endpoint.handleClose, if_pos hd]
  · rw [accounts_closed e.handleClose_state, handleClose_closedFds hd]
    exact (accounts_open hd).mp h

theorem Accounts.queue (h : e.Accounts given) (left : Bytes) : (e.queue left).Accounts given := by
  rw [Endpoint.queue]
  dsimp only
  split_ifs
  · exact h.congr rfl rfl rfl
  · exact h.congr rfl rfl rfl
  · exact h

/-- A file that is given is queued or closed, unless the connection is closed already. -/
theorem Accounts.queueFile (h : e.Accounts given) {f : OpenFile} {sent : Nat}
    (hd : e.conn.state = .disconnected → f.content.length ≤ sent) :
    (e.queueFile f sent).Accounts (given ++ [f.fd]) := by
  unfold Endpoint.queueFile
  dsimp only
  split_ifs with hlt
  · have hopen : e.conn.state ≠ .disconnected := fun hdis => absurd (hd hdis) (by omega)
    have hperm := (accounts_open hopen).mp h
    refine (accounts_open ?_).mpr ?_
    · exact hopen
    · simp only [closedFds, queuedFds, addLeftBytes, setChannel, setFileList, List.map_append,
        List.map_cons, List.map_nil] at hperm ⊢
      rw [← List.append_assoc]
      exact hperm.append_right _
  · have hperm : (e.closedFds ++ (e.owed ++ [f.fd])).Perm (given ++ [f.fd]) := by
      rw [← List.append_assoc]
      exact List.Perm.append_right _ h
    have hclosed : (addLeftBytes (e.close f) (f.content.length - sent)).closedFds ++ e.owed =
        e.closedFds ++ ([f.fd] ++ e.owed) := by
      simp [closedFds, addLeftBytes, close]
    have hgoal := (List.perm_append_comm.append_left e.closedFds).trans hperm
    rw [← hclosed] at hgoal
    exact hgoal

theorem queueFile_queued {f : OpenFile} {sent : Nat} (hlt : sent < f.content.length) :
    (e.queueFile f sent).closedFds = e.closedFds ∧
      (e.queueFile f sent).conn.state = e.conn.state := by
  unfold queueFile
  dsimp only
  rw [if_pos hlt]
  exact ⟨rfl, rfl⟩

/-- A file that is given to a closed connection and not closed at once is never closed. -/
theorem Accounts.lost (h : e.Accounts given) {fd : Nat} (howed : e.owed = [])
    (hclosed : e'.closedFds = e.closedFds) (hd : e'.conn.state = .disconnected) :
    ¬e'.Releases (given ++ [fd]) := by
  intro hr
  have hcount := hr.atEnd hd fd
  have hold := h.count_le fd
  rw [howed, List.count_nil] at hold
  rw [hclosed, List.count_append, List.count_singleton_self] at hcount
  omega

theorem Accounts.fileSent (h : e.Accounts given) (hd : e.conn.state ≠ .disconnected)
    {f : FileInfo} {fs : List FileInfo} (hfiles : e.conn.fileList = f :: fs) (n : Nat) :
    (e.fileSent f fs n).Accounts given ∧ (e.fileSent f fs n).conn.state ≠ .disconnected := by
  have hperm := (accounts_open hd).mp h
  unfold Endpoint.fileSent
  dsimp only
  split_ifs with hdone
  · refine ⟨(accounts_open ?_).mpr ?_, hd⟩
    · exact hd
    · simp only [closedFds, queuedFds, addLeftBytes, setFileList, close, hfiles, List.map_append,
        List.map_cons, List.map_nil, List.append_assoc, List.singleton_append] at hperm ⊢
      exact hperm
  · refine ⟨(accounts_open ?_).mpr ?_, hd⟩
    · exact hd
    · simp only [closedFds, queuedFds, addLeftBytes, setFileList, hfiles, List.map_cons] at hperm ⊢
      exact hperm

theorem Accounts.sendFiles (fuel : Nat) {goesOn : Bool} (h : e.Accounts given)
    (hd : e.conn.state ≠ .disconnected) (hs : sendFiles fuel e = .ok (goesOn, e')) :
    e'.Accounts given := by
  induction fuel generalizing e with
  | zero =>
    by_cases hfiles : e.conn.fileList = []
    · rw [sendFiles_nil hfiles] at hs
      cases hs
      exact h
    · exact (sendFiles_zero_ne_ok hfiles hs).elim
  | succ fuel ih =>
    cases hfiles : e.conn.fileList with
    | nil =>
      rw [sendFiles_nil hfiles] at hs
      cases hs
      exact h
    | cons f fs =>
      rcases sendFiles_succ hfiles hs with
        ⟨n, k, -, hs⟩ | ⟨k, -, -, rfl⟩ | ⟨err, k, -, -, -, rfl⟩
      · obtain ⟨h1, hd1⟩ := Accounts.fileSent (e := { e with
          kernel := k, socket := e.socket ++ f.rest.take n }) h hd hfiles (min n f.rest.length)
        exact ih h1 hd1 hs
      · exact h.answered k _
      · exact (h.answered k _).handleClose

/-- The front file of an open connection is not closed yet. -/
theorem Accounts.front_open (h : e.Accounts given) (hd : e.conn.state ≠ .disconnected) {fd : Nat}
    (hfd : fd ∈ e.queuedFds) : e.closedFds.count fd < given.count fd := by
  have hcount := h.count_le fd
  have hpos := List.count_pos_iff.mpr hfd
  rw [owed_open hd] at hcount
  omega

theorem Accounts.rounds (fuel : Nat) (h : e.Accounts given) (hd : e.conn.state ≠ .disconnected) :
    ∀ r ∈ sendfileRounds fuel e, ∀ fd ∈ r.queuedFds.take 1,
      r.closedFds.count fd < given.count fd := by
  induction fuel generalizing e with
  | zero =>
    intro r hr fd hfd
    unfold sendfileRounds at hr
    cases hfiles : e.conn.fileList with
    | nil => simp [hfiles] at hr
    | cons f fs =>
      rw [hfiles] at hr
      obtain rfl := List.mem_singleton.mp hr
      exact h.front_open hd (List.mem_of_mem_take hfd)
  | succ fuel ih =>
    intro r hr fd hfd
    unfold sendfileRounds at hr
    cases hfiles : e.conn.fileList with
    | nil => simp [hfiles] at hr
    | cons f fs =>
      rw [hfiles] at hr
      dsimp only at hr
      rcases List.mem_cons.mp hr with rfl | hr
      · exact h.front_open hd (List.mem_of_mem_take hfd)
      · cases hw : e.write f.rest with
        | error e1 => simp [hw] at hr
        | ok res =>
          obtain ⟨ans, e1⟩ := res
          rw [hw] at hr
          rcases write_ok hw with ⟨n, k, hk, rfl, rfl⟩ | ⟨err, k, hk, rfl, rfl⟩
          · obtain ⟨h1, hd1⟩ := (h.answered k (e.socket ++ f.rest.take n)).fileSent hd hfiles
              (min n f.rest.length)
            exact ih h1 hd1 r hr fd hfd
          · simp at hr

theorem Accounts.send (h : e.Accounts given) {msg : Bytes} (hs : e.send msg = .ok e') :
    e'.Accounts given := by
  rcases send_ok hs with ⟨-, rfl⟩ | ⟨-, n, k, -, rfl⟩ | ⟨-, k, -, rfl⟩ | ⟨-, err, k, -, -, rfl⟩
  · exact h.queue msg
  · exact (h.answered k _).queue _
  · exact (h.answered k _).queue msg
  · exact (h.answered k _).handleClose

theorem Accounts.sendFile (h : e.Accounts given) {f : OpenFile}
    (hk : e.KeepsFile f) (hs : e.sendFile f = .ok e') :
    e'.Accounts (given ++ [f.fd]) := by
  rw [KeepsFile] at hk
  rcases sendFile_ok hs with
    ⟨hn, rfl⟩ | ⟨hd, n, k, hkernel, rfl⟩ | ⟨hd, k, hkernel, rfl⟩ | ⟨hd, err, k, herr, hkernel, rfl⟩
  · rw [if_neg hn] at hk
    exact h.queueFile fun hdis => by simp [hk hdis]
  · rw [if_pos hd] at hk
    refine (h.answered k _).queueFile fun hdis => ?_
    have htakes := hk.2 hdis
    rw [takes, hkernel] at htakes
    exact htakes.ge
  · rw [if_pos hd] at hk
    refine (h.answered k _).queueFile fun hdis => ?_
    have htakes := hk.2 hdis
    rw [takes, hkernel] at htakes
    exact htakes.ge
  · rw [if_pos hd, failsNext, hkernel] at hk
    simp [herr] at hk

/-- Outside the condition a file that is given is never closed. -/
theorem Accounts.sendFile_lost (h : e.Accounts given) {f : OpenFile}
    (hk : ¬e.KeepsFile f) (hs : e.sendFile f = .ok e') :
    ¬e'.Releases (given ++ [f.fd]) := by
  have hqueued : ∀ (e1 : Endpoint) (sent : Nat), e1.closed = e.closed → e1.conn = e.conn →
      e.conn.state = .disconnected → sent < f.content.length →
      ¬(e1.queueFile f sent).Releases (given ++ [f.fd]) := by
    intro e1 sent hclosed hconn hdis hlt
    obtain ⟨hc, hst⟩ := queueFile_queued (e := e1) hlt
    refine h.lost (owed_closed hdis) ?_ ?_
    · rw [hc, closedFds, hclosed, closedFds]
    · rw [hst, hconn, hdis]
  rw [KeepsFile] at hk
  rcases sendFile_ok hs with
    ⟨hn, rfl⟩ | ⟨hd, n, k, hkernel, rfl⟩ | ⟨hd, k, hkernel, rfl⟩ | ⟨hd, err, k, herr, hkernel, rfl⟩
  · rw [if_neg hn, Classical.not_imp] at hk
    exact hqueued _ 0 rfl rfl hk.1 (List.length_pos_iff.mpr hk.2)
  · rw [if_pos hd, takes, failsNext, hkernel] at hk
    simp only [true_and, Classical.not_imp] at hk
    exact hqueued _ _ rfl rfl hk.1 (by omega)
  · rw [if_pos hd, takes, failsNext, hkernel] at hk
    simp only [bne_self_eq_false, true_and, Classical.not_imp] at hk
    exact hqueued _ _ rfl rfl hk.1 (by omega)
  · by_cases hdis : e.conn.state = .disconnected
    · refine h.lost (owed_closed hdis) ?_ (handleClose_state _)
      rw [Endpoint.handleClose, if_pos hdis]
      rfl
    · have hnone : e.queuedFds = [] := by rw [queuedFds, hd.2, List.map_nil]
      refine h.lost (by rw [owed_open hdis, hnone]) ?_ (handleClose_state _)
      have hclosed := handleClose_closedFds (e := { e with kernel := k }) hdis
      rw [hclosed]
      simp only [closedFds, queuedFds, hd.2, List.map_nil, List.append_nil]

theorem rounds_nil (fuel : Nat) (hfiles : e.conn.fileList = []) : sendfileRounds fuel e = [] := by
  rw [sendfileRounds]
  rw [hfiles]

theorem rounds_front (fuel : Nat) {f : FileInfo} {fs : List FileInfo}
    (hfiles : e.conn.fileList = f :: fs) : e ∈ sendfileRounds fuel e := by
  unfold sendfileRounds
  rw [hfiles]
  cases fuel with
  | zero => exact List.mem_singleton_self e
  | succ fuel => exact List.mem_cons_self

theorem rounds_accepts (fuel : Nat) {f : FileInfo} {fs : List FileInfo}
    (hfiles : e.conn.fileList = f :: fs) {n : Nat} {k : List Answer}
    (hkernel : e.kernel = .accepts n :: k) :
    sendfileRounds (fuel + 1) e = e :: sendfileRounds fuel (fileSent
      { e with kernel := k, socket := e.socket ++ f.rest.take n } f fs (min n f.rest.length)) := by
  conv_lhs => unfold sendfileRounds
  simp only [hfiles, write, hkernel]

theorem rounds_fails (fuel : Nat) {f : FileInfo} {fs : List FileInfo}
    (hfiles : e.conn.fileList = f :: fs) {err : Errno} {k : List Answer}
    (hkernel : e.kernel = .fails err :: k) : sendfileRounds (fuel + 1) e = [e] := by
  unfold sendfileRounds
  simp only [hfiles, write, hkernel]

/-- Each round takes one answer of the kernel, and the loop takes no other. -/
theorem sendFiles_kernel (fuel : Nat) {goesOn : Bool} (hs : sendFiles fuel e = .ok (goesOn, e')) :
    e'.kernel = e.kernel.drop (sendfileRounds fuel e).length := by
  have hkept : ∀ (e1 : Endpoint), e1.handleClose.kernel = e1.kernel := by
    intro e1
    rw [handleClose]
    split_ifs <;> rfl
  induction fuel generalizing e with
  | zero =>
    cases hfiles : e.conn.fileList with
    | nil =>
      rw [sendFiles_nil hfiles] at hs
      cases hs
      rw [rounds_nil _ hfiles]
      rfl
    | cons f fs => exact (sendFiles_zero_ne_ok (by simp [hfiles]) hs).elim
  | succ fuel ih =>
    cases hfiles : e.conn.fileList with
    | nil =>
      rw [sendFiles_nil hfiles] at hs
      cases hs
      rw [rounds_nil _ hfiles]
      rfl
    | cons f fs =>
      rcases sendFiles_succ hfiles hs with
        ⟨n, k, hkernel, hs⟩ | ⟨k, hkernel, -, rfl⟩ | ⟨err, k, -, hkernel, -, rfl⟩
      · have hsent : ∀ (e1 : Endpoint) (m : Nat), (e1.fileSent f fs m).kernel = e1.kernel := by
          intro e1 m
          rw [fileSent]
          dsimp only
          split_ifs <;> rfl
        rw [ih hs, hsent, rounds_accepts fuel hfiles hkernel, hkernel]
        rfl
      · rw [rounds_fails fuel hfiles hkernel, hkernel]
        rfl
      · rw [hkept, rounds_fails fuel hfiles hkernel, hkernel]
        rfl

/-- The `::sendfile` calls of the write callback come from its rounds. -/
theorem mem_writable_calls {flag : Int} (hd : e.conn.state ≠ .disconnected)
    (hw : e.writeNonBlocking = .ok (flag, e')) (call : Nat × List Nat) :
    call ∈ e.sendfileCalls (.call .writable) ↔
      ∃ r ∈ sendfileRounds e'.kernel.length e', ∃ fd ∈ r.queuedFds.take 1,
        (fd, r.closedFds) = call := by
  simp only [sendfileCalls, if_neg hd, hw, List.mem_flatMap, List.mem_map]

theorem Accounts.writeCallback (h : e.Accounts given) (hk : e.KeepsQueue)
    (hs : e.writeCallback = .ok e') :
    (∀ call ∈ e.sendfileCalls (.call .writable), call.2.count call.1 < given.count call.1) ∧
      e'.Accounts given := by
  rcases writeCallback_ok hs with ⟨hd, rfl⟩ | ⟨hd, flag, e1, goesOn, e2, hw, hloop, hend⟩
  · refine ⟨?_, h⟩
    simp [sendfileCalls, hd]
  · have hlast : e2.Accounts given → e'.Accounts given := by
      intro h2
      rcases hend with ⟨-, -, -, rfl⟩ | ⟨-, rfl⟩
      · exact h2.congr rfl rfl rfl
      · exact h2
    have hopen : e1.Accounts given → e1.conn.state ≠ .disconnected →
        (∀ call ∈ e.sendfileCalls (.call .writable), call.2.count call.1 < given.count call.1) ∧
          e'.Accounts given := by
      intro h1 hd1
      refine ⟨?_, hlast (h1.sendFiles _ hd1 hloop)⟩
      intro call hcall
      obtain ⟨r, hr, fd, hfd, rfl⟩ := (mem_writable_calls hd hw call).mp hcall
      exact h1.rounds _ hd1 r hr fd hfd
    rcases writeNonBlocking_ok hw with ⟨n, k, -, rfl⟩ | ⟨err, k, -, -, rfl⟩ | ⟨k, hkernel, rfl⟩
    · exact hopen ((h.answered k _).congr rfl rfl rfl) hd
    · exact hopen (h.answered k _) hd
    · have hnone : e.conn.fileList = [] := by
        have hfails : e.failsNext (· == .other) = true := by rw [failsNext, hkernel]; rfl
        rcases hk with hdis | hnone | hno
        · exact (hd hdis).elim
        · exact hnone
        · rw [hfails] at hno
          cases hno
      have hnone1 : (Endpoint.handleClose { e with kernel := k }).conn.fileList = [] :=
        (handleClose_fileList _).trans hnone
      rw [sendFiles_nil hnone1] at hloop
      cases hloop
      refine ⟨?_, hlast (h.answered k e.socket).handleClose⟩
      intro call hcall
      obtain ⟨r, hr, -⟩ := (mem_writable_calls hd hw call).mp hcall
      rw [rounds_nil _ hnone1] at hr
      cases hr

/-- Outside the condition the write callback calls `::sendfile` on a descriptor that
`handleClose` has closed. -/
theorem Accounts.writeCallback_misuse (h : e.Accounts given)
    (hk : ¬e.KeepsQueue) (hs : e.writeCallback = .ok e') :
    ∃ call ∈ e.sendfileCalls (.call .writable), given.count call.1 ≤ call.2.count call.1 := by
  simp only [KeepsQueue, not_or] at hk
  obtain ⟨hd, hsome, hfails⟩ := hk
  rcases writeCallback_ok hs with ⟨hdis, -⟩ | ⟨-, flag, e1, goesOn, e2, hw, -, -⟩
  · exact (hd hdis).elim
  · cases hfiles : e.conn.fileList with
    | nil => exact (hsome hfiles).elim
    | cons f fs =>
      have hclosed : e1.conn.fileList = f :: fs ∧ e1.Accounts given ∧
          e1.conn.state = .disconnected := by
        rcases writeNonBlocking_ok hw with
          ⟨n, k, hkernel, -⟩ | ⟨err, k, herr, hkernel, -⟩ | ⟨k, -, rfl⟩
        · simp [failsNext, hkernel] at hfails
        · simp [failsNext, hkernel, herr] at hfails
        · exact ⟨(handleClose_fileList _).trans hfiles,
            (h.answered k _).handleClose, handleClose_state _⟩
      obtain ⟨hfiles1, h1, hd1⟩ := hclosed
      have hfront : f.file.fd ∈ e1.queuedFds.take 1 := by simp [queuedFds, hfiles1]
      refine ⟨(f.file.fd, e1.closedFds), (mem_writable_calls hd hw _).mpr
        ⟨e1, rounds_front _ hfiles1, _, hfront, rfl⟩, ?_⟩
      exact (((accounts_closed hd1).mp h1).count_eq _).ge

/-- An event keeps the account exactly under the condition. -/
theorem Accounts.handle_iff (h : e.Accounts given) {event : Event}
    (hs : e.handle event = .ok e') :
    (e.KeepsFiles event → e'.Accounts (given ++ event.given)) ∧
      (e.ReleasesAt given event e' ↔ e.KeepsFiles event) := by
  cases event with
  | handleClose =>
    cases hs
    have h' : e.handleClose.Accounts (given ++ []) := by
      rw [List.append_nil]
      exact h.handleClose
    exact ⟨fun _ => h', ⟨fun _ => trivial, fun _ => ⟨by simp [sendfileCalls], h'.releases⟩⟩⟩
  | call c =>
    cases c with
    | send msg =>
      have h' : e'.Accounts (given ++ []) := by
        rw [List.append_nil]
        exact h.send hs
      exact ⟨fun _ => h', ⟨fun _ => trivial, fun _ => ⟨by simp [sendfileCalls], h'.releases⟩⟩⟩
    | sendFile f =>
      refine ⟨fun hk => h.sendFile hk hs, ?_, ?_⟩
      · intro hr
        by_contra hk
        exact h.sendFile_lost hk hs hr.2
      · intro hk
        refine ⟨?_, (h.sendFile hk hs).releases⟩
        intro call hcall
        simp only [sendfileCalls] at hcall
        split_ifs at hcall
        · obtain rfl := List.mem_singleton.mp hcall
          have hle := h.releases.once f.fd
          simp only [Event.given, List.count_append, List.count_singleton_self]
          omega
        · cases hcall
    | writable =>
      have hgiven : given ++ Event.given (.call .writable) = given := List.append_nil given
      rw [ReleasesAt]
      rw [hgiven]
      refine ⟨fun hk => (h.writeCallback hk hs).2, ?_, ?_⟩
      · intro hr
        by_contra hk
        obtain ⟨call, hcall, hle⟩ := h.writeCallback_misuse hk hs
        have hlt := hr.1 call hcall
        omega
      · intro hk
        obtain ⟨hcalls, h'⟩ := h.writeCallback hk hs
        exact ⟨hcalls, h'.releases⟩

end Endpoint

open Endpoint in
/-- In every run whose events all meet the condition, each file is released exactly once; and in
the states of such a run, an event releases the files exactly when it meets the condition. -/
theorem files_released_once (w : Workload) (k : List Answer) (events : List Event) (e : Endpoint)
    (h : Run (fun e event e' => e.KeepsFiles event ∧ e.handle event = .ok e') (connected w k)
      events e) :
    e.Releases (events.flatMap Event.given) ∧
      ∀ event e', e.handle event = .ok e' →
        (e.ReleasesAt (events.flatMap Event.given) event e' ↔ e.KeepsFiles event) := by
  have hinv : e.Accounts (events.flatMap Event.given) := by
    refine h.invariant (fun events e => e.Accounts (events.flatMap Event.given))
      (List.Perm.refl []) ?_
    intro events e event e' hin hstep
    rw [List.flatMap_append, List.flatMap_singleton]
    exact (hin.handle_iff hstep.2).1 hstep.1
  exact ⟨hinv.releases, fun event e' hs => (hinv.handle_iff hs).2⟩

open Endpoint in
theorem files_released_once_queued :
    ∃ e : Endpoint, e.closedFds = [7] ∧ e.Releases [7] := by
  obtain ⟨e, hrun, he⟩ := Run.exists_of_guarded
    (f := fun (e : Endpoint) event => (e.handle event).toOption)
    (p := fun e event => e.KeepsFiles event) (g := closedFds) (a := [7])
    (s := connected ⟨1, 0⟩ [.accepts 1, .accepts 0, .accepts 2])
    (l := [.call (.sendFile ⟨7, bytes "abc"⟩), .call .writable, .handleClose])
    (by decide +kernel)
  refine ⟨e, he, (files_released_once ⟨1, 0⟩ _ _ e (hrun.mono ?_)).1⟩
  intro e event e' hs
  refine ⟨hs.1, ?_⟩
  cases hok : e.handle event with
  | error e1 => simp [hok, Except.toOption] at hs
  | ok e1 =>
    have hsome := hs.2
    rw [hok] at hsome
    exact congrArg Except.ok (Option.some.inj hsome)

open Endpoint in
/-- A file given after a failed send is never closed, and a write callback whose first write fails
goes on with a `::sendfile` on a descriptor that `handleClose` has closed. -/
theorem files_not_released_once :
    (∃ e, Run (fun e event e' => e.handle event = .ok e')
        (connected ⟨1, 0⟩ [.fails .other, .fails .other])
        [.call (.send (bytes "a")), .call (.sendFile ⟨7, bytes "b"⟩)] e ∧ ¬e.Releases [7]) ∧
    ∃ e, Run (fun e event e' => e.handle event = .ok e')
        (connected ⟨1, 0⟩ [.fails .eagain, .fails .other, .fails .other])
        [.call (.sendFile ⟨7, bytes "b"⟩)] e ∧
      ∃ e', e.handle (.call .writable) = .ok e' ∧ ¬e.ReleasesAt [7] (.call .writable) e' := by
  constructor
  · obtain ⟨e, hrun, he⟩ := Run.exists_of_foldlM
      (show ([.call (.send (bytes "a")), .call (.sendFile ⟨7, bytes "b"⟩)].foldlM handle
        (connected ⟨1, 0⟩ [.fails .other, .fails .other])).toOption.map
          (fun e => (e.conn.state, e.closedFds)) = some (.disconnected, []) by decide +kernel)
    obtain ⟨hd, hclosed⟩ := Prod.mk.inj he
    refine ⟨e, hrun, fun hr => ?_⟩
    have hcount := hr.atEnd hd 7
    rw [hclosed] at hcount
    revert hcount
    decide
  · obtain ⟨e, hrun, he⟩ := Run.exists_of_foldlM
      (show ([.call (.sendFile ⟨7, bytes "b"⟩)].foldlM handle
        (connected ⟨1, 0⟩ [.fails .eagain, .fails .other, .fails .other])).toOption.map
          (fun e => (e.sendfileCalls (.call .writable),
            (e.handle (.call .writable)).toOption.isSome)) = some ([(7, [7])], true) by
        decide +kernel)
    obtain ⟨hcalls, hsome⟩ := Prod.mk.inj he
    cases hok : e.handle (.call .writable) with
    | error e1 => simp [hok, Except.toOption] at hsome
    | ok e' =>
      refine ⟨e, hrun, e', hok, fun hr => ?_⟩
      have hlt := hr.1 (7, [7]) (by rw [hcalls]; exact List.mem_singleton_self _)
      revert hlt
      decide

end MuduoServer
