import MuduoServer.Tcp.CallCases
import Mathlib.Data.Stream.Init

namespace MuduoServer

/-- The file holds all that is still to be sent of it; one that was truncated may not. -/
def FileInfo.Whole (f : FileInfo) : Prop := f.sent < f.size → f.size ≤ f.file.content.length

instance (f : FileInfo) : Decidable f.Whole := inferInstanceAs (Decidable (_ → _))

/-- The bytes that `::sendfile` is still to be asked for. -/
def unsent (fs : List FileInfo) : Nat := (fs.map fun f => f.size - f.sent).sum

theorem unsent_cons (f : FileInfo) (fs : List FileInfo) :
    unsent (f :: fs) = f.size - f.sent + unsent fs := List.sum_cons

namespace Endpoint

/-- The first answers of a kernel that goes on answering. -/
def withAnswers (e : Endpoint) (a : Stream' Answer) (n : Nat) : Endpoint :=
  { e with kernel := a.take n }

/-- A kernel that does not return 0 while there is something to send, and takes finitely many bytes
until it fails. -/
structure Sends (e : Endpoint) (a : Stream' Answer) : Prop where
  positive : ∀ n, a.get n ≠ .accepts 0
  finite : ∃ bound, ∀ n e', (e.withAnswers a n).writeCallback = .error e' →
    e'.socket.length ≤ bound

/-- The write callback returns after finitely many answers. -/
def Ends (e : Endpoint) (a : Stream' Answer) : Prop :=
  ∃ n e', (e.withAnswers a n).writeCallback = .ok e'

variable {e e' : Endpoint} {f : FileInfo} {fs : List FileInfo} {k : List Answer} {n fuel : Nat}

/-- A round in which the kernel takes what it is offered, or a part. -/
theorem sendFiles_accepts (hfiles : e.conn.fileList = f :: fs) (hk : e.kernel = .accepts n :: k) :
    sendFiles (fuel + 1) e =
      sendFiles fuel (fileSent { e with kernel := k, socket := e.socket ++ f.rest.take n } f fs
        (min n f.rest.length)) := by
  conv_lhs => unfold sendFiles
  rw [hfiles]
  dsimp only
  rw [write, hk]
  rfl

theorem sendFiles_fails {err : Errno} (hfiles : e.conn.fileList = f :: fs)
    (hk : e.kernel = .fails err :: k) : ∃ r, sendFiles (fuel + 1) e = .ok r := by
  unfold sendFiles
  rw [hfiles]
  dsimp only
  rw [write, hk]
  cases err <;> exact ⟨_, rfl⟩

theorem sendFiles_unanswered (hfiles : e.conn.fileList = f :: fs) (hk : e.kernel = []) :
    sendFiles fuel e = .error e := by
  unfold sendFiles
  rw [hfiles]
  cases fuel with
  | zero => rfl
  | succ fuel =>
    dsimp only
    rw [write, hk]
    rfl

theorem fileSent_fileList (e : Endpoint) (f : FileInfo) (fs : List FileInfo) (n : Nat) :
    (e.fileSent f fs n).conn.fileList =
      if f.size ≤ f.sent + n then fs else { f with sent := f.sent + n } :: fs := by
  rw [fileSent]
  dsimp only
  split_ifs <;> rfl

theorem fileSent_kernel (e : Endpoint) (f : FileInfo) (fs : List FileInfo) (n : Nat) :
    (e.fileSent f fs n).kernel = e.kernel := by
  rw [fileSent]
  dsimp only
  split_ifs <;> rfl

theorem fileSent_socket (e : Endpoint) (f : FileInfo) (fs : List FileInfo) (n : Nat) :
    (e.fileSent f fs n).socket = e.socket := by
  rw [fileSent]
  dsimp only
  split_ifs <;> rfl

/-- A round on a whole file sends at least a byte, or takes the file out of the list. -/
theorem fileSent_decreases (hwhole : f.Whole) (hn : n ≠ 0) :
    unsent (e.fileSent f fs (min n f.rest.length)).conn.fileList +
        (e.fileSent f fs (min n f.rest.length)).conn.fileList.length <
      unsent (f :: fs) + (f :: fs).length := by
  have hrest : f.rest.length = min (f.size - f.sent) (f.file.content.length - f.sent) := by
    rw [FileInfo.rest, List.length_take, List.length_drop]
  rw [FileInfo.Whole] at hwhole
  rw [fileSent_fileList]
  split_ifs with hdone
  · rw [unsent_cons, List.length_cons]
    omega
  · rw [unsent_cons, unsent_cons, List.length_cons, List.length_cons]
    dsimp only
    omega

/-- What remains of whole files is whole. -/
theorem fileSent_whole (hwhole : ∀ g ∈ f :: fs, g.Whole) :
    ∀ g ∈ (e.fileSent f fs n).conn.fileList, g.Whole := by
  have hf := hwhole f (by simp)
  rw [FileInfo.Whole] at hf
  intro g hg
  rw [fileSent_fileList] at hg
  split_ifs at hg with hdone
  · exact hwhole g (by simp [hg])
  · rcases List.mem_cons.mp hg with rfl | hg
    · rw [FileInfo.Whole]
      dsimp only
      omega
    · exact hwhole g (by simp [hg])

/-- A file that is cut short stays in the list, at whatever position it is. -/
theorem fileSent_cut (hcut : ∃ g ∈ f :: fs, ¬g.Whole) :
    ∃ g ∈ (e.fileSent f fs (min n f.rest.length)).conn.fileList, ¬g.Whole := by
  obtain ⟨g, hg, hnot⟩ := hcut
  have hrest : f.rest.length = min (f.size - f.sent) (f.file.content.length - f.sent) := by
    rw [FileInfo.rest, List.length_take, List.length_drop]
  rw [fileSent_fileList]
  rcases List.mem_cons.mp hg with rfl | hg
  · rw [FileInfo.Whole] at hnot
    rw [if_neg (by omega)]
    refine ⟨_, List.mem_cons_self, ?_⟩
    rw [FileInfo.Whole]
    dsimp only
    omega
  · split_ifs
    · exact ⟨g, hg, hnot⟩
    · exact ⟨g, List.mem_cons_of_mem _ hg, hnot⟩

/-- Over whole files the loop ends: each round has less to do than the one before. -/
theorem sendFiles_ends (w : Nat) {a : Stream' Answer} (hk : e.kernel = a.take w)
    (ha : ∀ n, a.get n ≠ .accepts 0) (hwhole : ∀ f ∈ e.conn.fileList, f.Whole)
    (hw : unsent e.conn.fileList + e.conn.fileList.length ≤ w) : ∃ r, sendFiles w e = .ok r := by
  induction w generalizing e a with
  | zero =>
    have hnil : e.conn.fileList = [] := List.eq_nil_of_length_eq_zero (by omega)
    exact ⟨_, sendFiles_nil hnil⟩
  | succ w ih =>
    cases hfiles : e.conn.fileList with
    | nil => exact ⟨_, sendFiles_nil hfiles⟩
    | cons f fs =>
      rw [Stream'.take_succ] at hk
      rw [hfiles] at hwhole hw
      cases hhead : a.head with
      | fails err =>
        rw [hhead] at hk
        exact sendFiles_fails hfiles hk
      | accepts n =>
        rw [hhead] at hk
        rw [sendFiles_accepts hfiles hk]
        have hn : n ≠ 0 := fun h => ha 0 (by subst h; exact hhead)
        have hdec : ∀ e : Endpoint,
            unsent (e.fileSent f fs (min n f.rest.length)).conn.fileList +
              (e.fileSent f fs (min n f.rest.length)).conn.fileList.length <
                unsent (f :: fs) + (f :: fs).length :=
          fun e => fileSent_decreases (hwhole f (by simp)) hn
        have hlt := hdec { e with
          kernel := a.tail.take w, socket := e.socket ++ f.rest.take n }
        apply ih
        · exact fileSent_kernel _ f fs _
        · exact fun i => ha (i + 1)
        · exact fileSent_whole hwhole
        · omega

/-- Over a file that is cut short it does not, as long as the kernel does not fail. -/
theorem sendFiles_spins (fuel : Nat) (hk : ∀ a ∈ e.kernel, ∃ n, a = .accepts n)
    (hcut : ∃ f ∈ e.conn.fileList, ¬f.Whole) {goesOn : Bool} :
    sendFiles fuel e ≠ .ok (goesOn, e') := by
  induction fuel generalizing e with
  | zero =>
    intro hs
    obtain ⟨f, hf, -⟩ := hcut
    exact sendFiles_zero_ne_ok (List.ne_nil_of_mem hf) hs
  | succ fuel ih =>
    intro hs
    cases hfiles : e.conn.fileList with
    | nil => simp [hfiles] at hcut
    | cons f fs =>
      rw [hfiles] at hcut
      rcases sendFiles_succ hfiles hs with
        ⟨n, k, hkernel, hs⟩ | ⟨k, hkernel, -, -⟩ | ⟨err, k, -, hkernel, -, -⟩
      · refine ih ?_ (fileSent_cut hcut) hs
        intro a ha
        rw [fileSent_kernel] at ha
        exact hk a (by rw [hkernel]; exact List.mem_cons_of_mem _ ha)
      · obtain ⟨n, hn⟩ := hk (.fails .eagain) (by simp [hkernel])
        cases hn
      · obtain ⟨n, hn⟩ := hk (.fails err) (by simp [hkernel])
        cases hn

/-- However long the loop goes on, the socket gets no more than the files had left. -/
theorem sendFiles_socket_le (fuel : Nat) (hs : sendFiles fuel e = .error e') :
    e'.socket.length ≤ e.socket.length + unsent e.conn.fileList := by
  induction fuel generalizing e with
  | zero =>
    cases hfiles : e.conn.fileList with
    | nil =>
      rw [sendFiles_nil hfiles] at hs
      cases hs
    | cons f fs =>
      unfold sendFiles at hs
      rw [hfiles] at hs
      cases hs
      omega
  | succ fuel ih =>
    cases hfiles : e.conn.fileList with
    | nil =>
      rw [sendFiles_nil hfiles] at hs
      cases hs
    | cons f fs =>
      cases hk : e.kernel with
      | nil =>
        rw [sendFiles_unanswered hfiles hk] at hs
        cases hs
        omega
      | cons a k =>
        cases a with
        | fails err =>
          have hfail : ∃ r, sendFiles (fuel + 1) e = .ok r := sendFiles_fails hfiles hk
          obtain ⟨r, hr⟩ := hfail
          rw [hr] at hs
          cases hs
        | accepts n =>
          rw [sendFiles_accepts hfiles hk] at hs
          have hle := ih hs
          have hrest := f.length_rest_le
          rw [fileSent_socket, fileSent_fileList, List.length_append, List.length_take] at hle
          rw [unsent_cons]
          split_ifs at hle with hdone
          · omega
          · rw [unsent_cons] at hle
            dsimp only at hle
            omega

/-- The first write leaves the files as they are. -/
theorem writeNonBlocking_kernel {flag : Int} (h : e.writeNonBlocking = .ok (flag, e')) :
    ∃ a, e.kernel = a :: e'.kernel ∧ e'.conn.fileList = e.conn.fileList ∧
      e'.socket.length ≤ e.socket.length + e.conn.outBuffer.toString.length := by
  rcases writeNonBlocking_ok h with ⟨n, k, hk, rfl⟩ | ⟨err, k, -, hk, rfl⟩ | ⟨k, hk, rfl⟩
  · refine ⟨_, hk, rfl, ?_⟩
    simp only [setOutBuffer, List.length_append, List.length_take]
    omega
  · exact ⟨_, hk, rfl, Nat.le_add_right _ _⟩
  · refine ⟨.fails .other, ?_, handleClose_fileList _, ?_⟩
    · rw [handleClose]
      split_ifs <;> exact hk
    · rw [handleClose]
      split_ifs <;> exact Nat.le_add_right _ _

/-- It returns as soon as it is answered. -/
theorem writeNonBlocking_answered {a : Answer} (hk : e.kernel = a :: k) :
    ∃ flag e1, e.writeNonBlocking = .ok (flag, e1) := by
  rw [writeNonBlocking, write, hk]
  cases a with
  | accepts n => exact ⟨_, _, rfl⟩
  | fails err => cases err <;> exact ⟨_, _, rfl⟩

/-- The bytes that a callback can bring to the socket. -/
theorem writeCallback_socket_le (h : e.writeCallback = .error e') :
    e'.socket.length ≤
      e.socket.length + e.conn.outBuffer.toString.length + unsent e.conn.fileList := by
  rw [writeCallback] at h
  split_ifs at h with hd
  · cases h
  · rcases bind_eq_error.mp h with h | ⟨⟨flag, e1⟩, hw, h⟩
    · cases hk : e.kernel with
      | nil =>
        rw [writeNonBlocking, write, hk] at h
        cases h
        omega
      | cons a k =>
        obtain ⟨flag, e1, hok⟩ := writeNonBlocking_answered hk
        rw [hok] at h
        cases h
    · obtain ⟨a, -, hfiles, hsocket⟩ := writeNonBlocking_kernel hw
      rcases bind_eq_error.mp h with h | ⟨⟨goesOn, e2⟩, -, h⟩
      · have hle := sendFiles_socket_le _ h
        rw [hfiles] at hle
        omega
      · dsimp only at h
        split_ifs at h <;> cases h

/-- It returns as soon as its loop does. -/
theorem writeCallback_returns {flag : Int} {e1 : Endpoint} {r : Bool × Endpoint}
    (hd : e.conn.state ≠ .disconnected) (hw : e.writeNonBlocking = .ok (flag, e1))
    (hs : sendFiles e1.kernel.length e1 = .ok r) : ∃ e', e.writeCallback = .ok e' := by
  rw [writeCallback, if_neg hd, hw]
  simp only [bind, Except.bind, hs]
  split_ifs <;> exact ⟨_, rfl⟩

theorem exists_get_of_mem_take {a : Stream' Answer} {b : Answer} (h : b ∈ a.take n) :
    ∃ i, b = a.get i := by
  induction n with
  | zero => simp at h
  | succ n ih =>
    rw [Stream'.take_succ', List.mem_append, List.mem_singleton] at h
    rcases h with h | h
    · exact ih h
    · exact ⟨n, h⟩

/-- A kernel that takes bytes for as long as there are any. -/
def taking : Stream' Answer := Stream'.const (.accepts 1)

/-- The socket gets no more from it than there was to send. -/
theorem sends_taking (e : Endpoint) : e.Sends taking := by
  refine ⟨?_, e.socket.length + e.conn.outBuffer.toString.length + unsent e.conn.fileList, ?_⟩
  · intro n
    rw [taking, Stream'.get_const]
    decide
  · exact fun n _ h => writeCallback_socket_le (e := e.withAnswers taking n) h

/-- After the last byte of a file that is cut short it returns 0, and the callback goes on. -/
theorem not_ends_taking (hopen : e.conn.state ≠ .disconnected)
    (hcut : ∃ f ∈ e.conn.fileList, ¬f.Whole) : ¬e.Ends taking := by
  intro ⟨n, e', hret⟩
  rcases writeCallback_ok hret with ⟨hd, -⟩ | ⟨-, flag, e1, goesOn, e2, hw, hloop, -⟩
  · exact hopen hd
  · obtain ⟨a, hk, hfiles, -⟩ := writeNonBlocking_kernel hw
    refine sendFiles_spins _ ?_ (hfiles ▸ hcut) hloop
    intro b hb
    have hmem : b ∈ (e.withAnswers taking n).kernel := by
      rw [hk]
      exact List.mem_cons_of_mem a hb
    obtain ⟨i, hi⟩ := exists_get_of_mem_take hmem
    exact ⟨1, hi⟩

/-- The write callback ends under every kernel unless one of the files was cut short. -/
theorem write_ends_iff (e : Endpoint) :
    (∀ a, e.Sends a → e.Ends a) ↔
      (e.conn.state ≠ .disconnected → ∀ f ∈ e.conn.fileList, f.Whole) := by
  constructor
  · intro hends hopen f hf
    by_contra hcut
    exact not_ends_taking hopen ⟨f, hf, hcut⟩ (hends taking e.sends_taking)
  · intro hwhole a ha
    by_cases hd : e.conn.state = .disconnected
    · exact ⟨0, e.withAnswers a 0, by rw [writeCallback, if_pos (by exact hd)]; rfl⟩
    · have hk : (e.withAnswers a (unsent e.conn.fileList + e.conn.fileList.length + 1)).kernel =
          a.head :: a.tail.take (unsent e.conn.fileList + e.conn.fileList.length) :=
        Stream'.take_succ _ a
      obtain ⟨flag, e1, hw⟩ := writeNonBlocking_answered hk
      obtain ⟨b, hk1, hfiles, -⟩ := writeNonBlocking_kernel hw
      rw [hk] at hk1
      have hrest := (List.cons.inj hk1).2
      have hloop : ∃ r, sendFiles e1.kernel.length e1 = .ok r := by
        rw [← hrest, Stream'.length_take]
        apply sendFiles_ends _ hrest.symm (fun n => ha.positive (n + 1))
        · rw [hfiles]
          exact hwhole hd
        · rw [hfiles]
          exact Nat.le_refl _
      obtain ⟨r, hr⟩ := hloop
      exact ⟨_, writeCallback_returns hd hw hr⟩

/-- A connection with a file of which five bytes were to be sent, and three are left. -/
def truncated : Endpoint :=
  (connected ⟨1, 5⟩ []).setFileList [⟨⟨7, bytes "hel"⟩, 5, 0⟩]

/-- The kernel sends the three bytes and then returns 0 for ever. -/
theorem truncated_file_spins : ¬∀ a, truncated.Sends a → truncated.Ends a := by
  intro hends
  have hcut : ∃ f ∈ truncated.conn.fileList, ¬f.Whole := by decide
  exact not_ends_taking (by decide) hcut (hends taking truncated.sends_taking)

end Endpoint

end MuduoServer
