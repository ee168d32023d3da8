import MuduoServer.Tcp.Server

namespace MuduoServer

/-- The calls of `::close` that a connection has made: one with its channel, and one more in its
destructor. -/
def ServerConn.spent (c : ServerConn) : Nat :=
  (if c.channelFd = none then 1 else 0) + if c.alive then 0 else 1

namespace TCPServer

variable {s s' : TCPServer} {i j : Nat} {c c' : ServerConn}

/-- How often a connection and its channel have called `::close`. -/
def closeCount (s : TCPServer) (i : Nat) : Nat := s.closes.countP fun e => e.caller = i

/-- Every socket of a connection is closed once at most, and once when the connection is destroyed;
and each of these calls closes the connection's own descriptor. -/
structure ClosedOnce (s : TCPServer) : Prop where
  once : ∀ i c, s.conns i = some c →
    s.closeCount i ≤ 1 ∧ (c.alive = false → s.closeCount i = 1)
  own : ∀ e ∈ s.closes, e.hit = some (.conn e.caller)

/-- No connection has been destroyed. -/
def Intact (s : TCPServer) : Prop := ∀ i c, s.conns i = some c → c.alive = true

/-- What holds in every reachable state. -/
structure Tallied (s : TCPServer) : Prop where
  fresh : ∀ i, s.made ≤ i → s.conns i = none
  counted : ∀ i, s.closeCount i = (s.conns i).elim 0 ServerConn.spent
  dead : ∀ i c, s.conns i = some c → c.alive = false → c.channelFd = none
  own : s.Intact → ∀ i c fd, s.conns i = some c → c.channelFd = some fd →
    (s.fds fd).map Descriptor.owner = some (.conn i)
  hits : s.Intact → ∀ e ∈ s.closes, e.hit = some (.conn e.caller)

theorem close_count (s : TCPServer) (i fd k : Nat) :
    (s.close i fd).closeCount k = s.closeCount k + if k = i then 1 else 0 := by
  simp only [closeCount, close, List.countP_append, List.countP_singleton]
  by_cases hk : k = i
  · simp [hk]
  · simp [hk, Ne.symm hk]

theorem new_tallied : new.Tallied where
  fresh := fun _ _ => rfl
  counted := fun _ => rfl
  dead := fun _ _ h => by cases h
  own := fun _ _ _ _ h => by cases h
  hits := fun _ _ h => by cases h

theorem Tallied.ne_of_fresh (h : s.Tallied) (hj : s.made ≤ j) (hc : s.conns i = some c) :
    j ≠ i := by
  rintro rfl
  rw [h.fresh j hj] at hc
  cases hc

theorem Intact.of_setConn (h : (s.setConn i c').Intact) (hc : s.conns i = some c)
    (halive : c'.alive = c.alive) : s.Intact := by
  intro k d hd
  by_cases hk : k = i
  · rw [hk, hc] at hd
    cases hd
    rw [← halive]
    exact h i c' (by rw [setConn_conns, if_pos rfl])
  · exact h k d (by rw [setConn_conns, if_neg hk, hd])

/-- A change of a connection's other fields. -/
theorem Tallied.setConn (h : s.Tallied) (c' : ServerConn) (hc : s.conns i = some c)
    (hchannel : c'.channelFd = c.channelFd) (halive : c'.alive = c.alive) :
    (s.setConn i c').Tallied := by
  refine ⟨?_, ?_, ?_, ?_, fun hintact => h.hits (hintact.of_setConn hc halive)⟩
  · intro k hk
    have hne := h.ne_of_fresh hk hc
    rw [setConn_conns, if_neg hne, h.fresh k hk]
  · intro k
    have hcounted := h.counted k
    rw [setConn_conns]
    split_ifs with hk
    · rw [hk, hc] at hcounted
      rw [hk]
      change s.closeCount i = _
      simpa [ServerConn.spent, hchannel, halive] using hcounted
    · exact hcounted
  · intro k d hd hdead
    rw [setConn_conns] at hd
    split_ifs at hd with hk
    · cases hd
      rw [hchannel]
      exact h.dead i c hc (halive.symm.trans hdead)
    · exact h.dead k d hd hdead
  · intro hintact k d fd hd hfd
    have hown := h.own (hintact.of_setConn hc halive)
    rw [setConn_conns] at hd
    split_ifs at hd with hk
    · cases hd
      rw [hk]
      exact hown i c fd hc (hchannel.symm.trans hfd)
    · exact hown k d fd hd hfd

/-- The destructors close twice in all, whatever `removeSelf` has done. -/
theorem Tallied.destroy (h : s.Tallied) (hc : s.conns i = some c) (halive : c.alive = true) :
    (s.destroy i c).Tallied := by
  have hconns : (s.destroy i c).conns =
      Function.update s.conns i (some { c with channelFd := none, alive := false }) := by
    rw [TCPServer.destroy]
    cases c.channelFd <;> rfl
  have hmade : (s.destroy i c).made = s.made := by
    rw [TCPServer.destroy]
    cases c.channelFd <;> rfl
  have hcount : ∀ k, (s.destroy i c).closeCount k =
      s.closeCount k + if k = i then (if c.channelFd = none then 1 else 2) else 0 := by
    intro k
    rw [TCPServer.destroy]
    cases hchannel : c.channelFd with
    | none =>
      simp only [close_count]
      rfl
    | some fd =>
      simp only [close_count, reduceCtorEq, if_false]
      have hsame : (s.setConn i { c with channelFd := none, alive := false }).closeCount k =
        s.closeCount k := rfl
      rw [hsame]
      split_ifs <;> omega
  have hnot : ¬(s.destroy i c).Intact := by
    intro hintact
    have hlast := hintact i { c with channelFd := none, alive := false }
      (by rw [hconns, Function.update_self])
    cases hlast
  refine ⟨?_, ?_, ?_, fun hintact => (hnot hintact).elim, fun hintact => (hnot hintact).elim⟩
  · intro k hk
    rw [hmade] at hk
    have hne := h.ne_of_fresh hk hc
    rw [hconns, Function.update_of_ne hne, h.fresh k hk]
  · intro k
    have hcounted := h.counted k
    rw [hcount, hcounted, hconns, Function.update_apply]
    by_cases hk : k = i
    · rw [if_pos hk, if_pos hk, hk, hc]
      simp only [Option.elim_some, ServerConn.spent, halive, if_true, Bool.false_eq_true, if_false]
      split_ifs <;> rfl
    · rw [if_neg hk, if_neg hk, Nat.add_zero]
  · intro k d hd hdead
    rw [hconns, Function.update_apply] at hd
    split_ifs at hd with hk
    · cases hd
      rfl
    · exact h.dead k d hd hdead

theorem Tallied.dropped (h : s.Tallied) (i : Nat) : (s.dropped i).Tallied := by
  rw [TCPServer.dropped]
  cases hc : s.conns i with
  | none => exact h
  | some c =>
    dsimp only
    split_ifs with hlast
    · exact h.destroy hc hlast.1
    · exact h

theorem setWatched_owner (s : TCPServer) (loop fd k : Nat) (channel : Option Nat) :
    ((s.setWatched loop fd channel).fds k).map Descriptor.owner =
      (s.fds k).map Descriptor.owner := by
  rw [setWatched]
  by_cases hk : k = fd
  · rw [hk]
    simp only [Function.update_self, Option.map_map]
    rfl
  · simp only [Function.update_of_ne hk]

theorem Tallied.setWatched (h : s.Tallied) (loop fd : Nat) (channel : Option Nat) :
    (s.setWatched loop fd channel).Tallied := by
  refine { h with own := ?_ }
  intro hintact k d fd' hd hfd
  rw [setWatched_owner]
  exact h.own hintact k d fd' hd hfd

theorem Tallied.alive_of_channel (h : s.Tallied) {fd : Nat} (hc : s.conns i = some c)
    (hchannel : c.channelFd = some fd) : c.alive = true := by
  by_contra hdead
  rw [h.dead i c hc (by simpa using hdead)] at hchannel
  cases hchannel

/-- A channel closes the number it has, and has none after that. -/
theorem Tallied.closeOwn (h : s.Tallied) {fd : Nat} (hc : s.conns i = some c)
    (hchannel : c.channelFd = some fd) (hclosed : c'.channelFd = none)
    (halive : c'.alive = c.alive) : ((s.close i fd).setConn i c').Tallied := by
  have hconns : ∀ k, ((s.close i fd).setConn i c').conns k =
      if k = i then some c' else s.conns k := setConn_conns _ i c'
  have hintact : ((s.close i fd).setConn i c').Intact → s.Intact := by
    intro hi
    have hclose : (s.close i fd).Intact := hi.of_setConn hc halive
    exact hclose
  refine ⟨?_, ?_, ?_, ?_, ?_⟩
  · intro k hk
    have hne := h.ne_of_fresh hk hc
    rw [hconns, if_neg hne, h.fresh k hk]
  · intro k
    have hcounted := h.counted k
    have hcount : ((s.close i fd).setConn i c').closeCount k =
      s.closeCount k + if k = i then 1 else 0 := close_count s i fd k
    rw [hcount, hconns]
    by_cases hk : k = i
    · rw [hk, hc] at hcounted
      rw [hk, hcounted]
      simp [ServerConn.spent, hclosed, halive, h.alive_of_channel hc hchannel, hchannel]
    · rw [if_neg hk, if_neg hk, hcounted, Nat.add_zero]
  · intro k d hd hdead
    rw [hconns] at hd
    split_ifs at hd with hk
    · cases hd
      exact hclosed
    · exact h.dead k d hd hdead
  · intro hi k d fd' hd hfd
    rw [hconns] at hd
    split_ifs at hd with hk
    · cases hd
      rw [hclosed] at hfd
      cases hfd
    · have hown := h.own (hintact hi) k d fd' hd hfd
      have hmine := h.own (hintact hi) i c fd hc hchannel
      have hne : fd' ≠ fd := by
        rintro rfl
        rw [hmine] at hown
        cases hown
        exact hk rfl
      change (Function.update s.fds fd none fd').map Descriptor.owner = _
      rw [Function.update_of_ne hne, hown]
  · intro hi e he
    rcases List.mem_append.mp he with hold | hlast
    · exact h.hits (hintact hi) e hold
    · rw [List.mem_singleton.mp hlast]
      exact h.own (hintact hi) i c fd hc hchannel

theorem Tallied.removeSelf (h : s.Tallied) (hc : s.conns i = some c) :
    (s.removeSelf i c).Tallied := by
  rw [TCPServer.removeSelf]
  cases hchannel : c.channelFd with
  | none => exact h
  | some fd => exact (h.setWatched c.loop fd none).closeOwn hc hchannel rfl rfl

theorem Tallied.closeFunctor (h : s.Tallied) (hc : s.conns i = some c) (hheld : 0 < c.holders) :
    (s.closeFunctor i c).Tallied := by
  rw [TCPServer.closeFunctor]
  cases s.connMap c.fd with
  | none => exact h
  | some j =>
    have herased :
        ({ s with connMap := Function.update s.connMap c.fd none } : TCPServer).Tallied :=
      { h with }
    exact (herased.dropped j).removeSelf (dropped_conns _ hc hheld)

theorem Tallied.handleClose (h : s.Tallied) (hc : s.conns i = some c) (isLocalThread : Bool) :
    (s.handleClose i c isLocalThread).Tallied := by
  rw [TCPServer.handleClose]
  split_ifs with hstate hlocal
  · exact h
  · have hclosing := h.setConn
      { c with state := .disconnected, holders := c.holders + 1 } hc rfl rfl
    exact hclosing.closeFunctor (by rw [setConn_conns, if_pos rfl]) (Nat.succ_pos _)
  · have hclosing := h.setConn { c with state := .disconnected } hc rfl rfl
    exact { hclosing with }

/-- A number that no connection owns may change hands. -/
theorem Tallied.setFd (h : s.Tallied) {fd : Nat}
    (hfree : ∀ i, (s.fds fd).map Descriptor.owner ≠ some (.conn i)) (d : Option Descriptor) :
    ({ s with fds := Function.update s.fds fd d } : TCPServer).Tallied := by
  refine { h with own := ?_ }
  intro hi k e fd' he hfd
  have hown := h.own hi k e fd' he hfd
  have hne : fd' ≠ fd := by
    rintro rfl
    exact hfree k hown
  simp only [Function.update_of_ne hne, hown]

/-- A new connection owns the number that the kernel has given it. -/
theorem Tallied.entered (h : s.Tallied) {fd : Nat} (hfree : s.fds fd = none) (loop : Nat) :
    (s.entered fd loop).Tallied := by
  have hmade : s.conns s.made = none := h.fresh _ (Nat.le_refl _)
  have hintact : (s.entered fd loop).Intact → s.Intact := by
    intro hi k d hd
    have hne : k ≠ s.made := by
      rintro rfl
      rw [hmade] at hd
      cases hd
    exact hi k d (by rw [entered_conns, if_neg hne, hd])
  refine ⟨?_, ?_, ?_, ?_, ?_⟩
  · intro k hk
    have hlt : s.made < k := hk
    rw [entered_conns, if_neg (Nat.ne_of_gt hlt), h.fresh k (Nat.le_of_lt hlt)]
  · intro k
    have hcounted := h.counted k
    have hcount : (s.entered fd loop).closeCount k = s.closeCount k := rfl
    rw [hcount, entered_conns]
    by_cases hk : k = s.made
    · rw [hk, hmade] at hcounted
      rw [hk, if_pos rfl]
      exact hcounted
    · rw [if_neg hk, hcounted]
  · intro k d hd hdead
    rw [entered_conns] at hd
    split_ifs at hd with hk
    · cases hd
      cases hdead
    · exact h.dead k d hd hdead
  · intro hi k d fd' hd hfd
    rw [entered_conns] at hd
    split_ifs at hd with hk
    · cases hd
      cases hfd
      rw [hk]
      simp [TCPServer.entered]
    · have hgiven : ({ s with
          fds := Function.update s.fds fd (some ⟨.conn s.made, fun _ => none⟩) } :
          TCPServer).Tallied := h.setFd (by simp [hfree]) _
      exact hgiven.own (hintact hi) k d fd' hd hfd
  · intro hi
    exact h.hits (hintact hi)

theorem Tallied.newConnection (h : s.Tallied) {fd : Nat} (hfree : s.fds fd = none) (loop : Nat) :
    (s.newConnection fd loop).Tallied := by
  rw [newConnection_eq]
  cases s.connMap fd with
  | none => exact h.entered hfree loop
  | some j => exact (h.entered hfree loop).dropped j

theorem Tallied.updateChannel (h : s.Tallied) (hc : s.conns i = some c) :
    (s.updateChannel i c).Tallied := by
  rw [TCPServer.updateChannel]
  cases hchannel : c.channelFd with
  | none => exact h
  | some fd =>
    dsimp only
    split_ifs
    · exact (h.setWatched c.loop fd (some i)).setConn
        { c with channelFd := some fd, inEpoll := true } hc hchannel.symm rfl
    · exact h

theorem Tallied.step {a : ServerStep} (h : s.Tallied) (hs : s.step a = some s') : s'.Tallied := by
  cases a with
  | accept fd loop =>
    obtain ⟨hfree, rfl⟩ := step_accept hs
    exact h.newConnection hfree loop
  | flushEvent i =>
    obtain ⟨c, hc, rfl⟩ := Option.map_eq_some_iff.mp hs
    exact h.updateChannel (living_spec hc).1
  | openOther fd =>
    obtain ⟨hfree, rfl⟩ := step_openOther hs
    exact h.setFd (by simp [hfree]) _
  | closeOther fd =>
    obtain ⟨hother, rfl⟩ := step_closeOther hs
    exact h.setFd (by simp [hother]) _
  | retain i =>
    obtain ⟨c, hc, rfl⟩ := Option.map_eq_some_iff.mp hs
    exact h.setConn { c with holders := c.holders + 1 } (living_spec hc).1 rfl rfl
  | release i =>
    obtain ⟨c, hc, -, rfl⟩ := step_release hs
    exact (h.setConn { c with holders := c.holders - 1 } hc rfl rfl).dropped i
  | handleClose i isLocalThread =>
    obtain ⟨c, hc, rfl⟩ := Option.map_eq_some_iff.mp hs
    exact h.handleClose (living_spec hc).1 isLocalThread
  | runFunctor =>
    obtain ⟨i, rest, c, -, hc, rfl⟩ := step_runFunctor hs
    have hpopped : ({ s with functors := rest } : TCPServer).Tallied := { h with }
    have hheld := hpopped.setConn { c with holders := c.holders + 1 } hc rfl rfl
    exact hheld.closeFunctor (by rw [setConn_conns, if_pos rfl]) (Nat.succ_pos _)
  | poll loop batch =>
    obtain ⟨-, rfl⟩ := step_poll hs
    exact { h with }
  | setReadyEvents loop =>
    obtain ⟨i, events, ready, handling, -, dangling, rfl, -⟩ := step_setReadyEvents hs
    exact { h with }
  | handleEvent loop =>
    obtain ⟨i, ready, -, handling, dangling, rfl, -⟩ := step_handleEvent hs
    exact { h with }
  | handled loop =>
    obtain ⟨events, ready, i, -, rfl⟩ := step_handled hs
    refine Tallied.dropped ?_ i
    exact { h with }

/-- A destroyed connection has closed its number twice. -/
theorem Tallied.closed_twice (h : s.Tallied) (hc : s.conns i = some c) (hdead : c.alive = false) :
    s.closeCount i = 2 := by
  rw [h.counted, hc]
  simp [ServerConn.spent, h.dead i c hc hdead, hdead]

end TCPServer

open TCPServer in
/-- In every run of a server, the sockets are closed exactly once, and no close hits another
descriptor, exactly as long as no connection has been destroyed; a destroyed one has closed its
number twice. -/
theorem sockets_closed_once_iff (steps : List ServerStep) (s : TCPServer)
    (h : Run (fun s a s' => s.step a = some s') new steps s) :
    (s.ClosedOnce ↔ ∀ i c, s.conns i = some c → c.alive = true) ∧
      ∀ i c, s.conns i = some c → c.alive = false → s.closeCount i = 2 := by
  have htallied : s.Tallied := h.preserves Tallied new_tallied fun _ _ _ hinv hs => hinv.step hs
  refine ⟨?_, fun i c => htallied.closed_twice⟩
  constructor
  · intro honce i c hc
    by_contra hdead
    have hfalse : c.alive = false := by simpa using hdead
    have htwice := htallied.closed_twice hc hfalse
    have hle := (honce.once i c hc).1
    omega
  · intro hintact
    refine ⟨?_, htallied.hits hintact⟩
    intro i c hc
    have halive := hintact i c hc
    refine ⟨?_, fun hdead => ?_⟩
    · rw [htallied.counted, hc]
      simp only [Option.elim_some, ServerConn.spent, halive]
      split_ifs <;> decide
    · rw [halive] at hdead
      cases hdead

open TCPServer in
/-- A connection that was removed and is still referred to has closed its socket once. -/
theorem sockets_closed_once_iff_removed :
    ∃ s : TCPServer, s.closes = [⟨0, some (.conn 0)⟩] ∧ s.ClosedOnce := by
  obtain ⟨s, hrun, hs⟩ := Run.exists_of_guarded (f := step) (p := fun _ _ => True) (s := new)
    (g := fun s => (s.made, (s.conns 0).map ServerConn.alive, s.closes))
    (a := (1, some true, [⟨0, some (.conn 0)⟩]))
    (l := [.accept 5 0, .flushEvent 0, .release 0, .handleClose 0 false, .runFunctor])
    (by decide +kernel)
  have hrun := hrun.mono fun _ _ _ hs => hs.2
  have htallied : s.Tallied := hrun.preserves Tallied new_tallied fun _ _ _ hinv hs => hinv.step hs
  obtain ⟨hmade, hrest⟩ := Prod.mk.inj hs
  obtain ⟨halive, hcloses⟩ := Prod.mk.inj hrest
  refine ⟨s, hcloses, (sockets_closed_once_iff _ s hrun).1.mpr ?_⟩
  intro i c hc
  rcases Nat.lt_or_ge i 1 with hlt | hge
  · rw [Nat.lt_one_iff.mp hlt] at hc
    rw [hc] at halive
    exact Option.some.inj halive
  · rw [htallied.fresh i (hmade ▸ hge)] at hc
    cases hc

open TCPServer in
/-- The number of a removed connection is opened by other code, whose descriptor the destructor
closes. -/
theorem socket_closed_twice :
    ∃ s : TCPServer, Run (fun s a s' => s.step a = some s') new
        [.accept 5 0, .flushEvent 0, .release 0, .poll 0 [0], .setReadyEvents 0, .handleEvent 0,
          .handleClose 0 false, .handled 0, .runFunctor, .openOther 5, .release 0] s ∧
      s.closes = [⟨0, some (.conn 0)⟩, ⟨0, some .other⟩] ∧ ¬s.ClosedOnce := by
  obtain ⟨s, hrun, hs⟩ := Run.exists_of_guarded (f := step) (p := fun _ _ => True) (s := new)
    (g := fun s => s.closes) (a := [⟨0, some (.conn 0)⟩, ⟨0, some .other⟩])
    (l := [.accept 5 0, .flushEvent 0, .release 0, .poll 0 [0], .setReadyEvents 0, .handleEvent 0,
      .handleClose 0 false, .handled 0, .runFunctor, .openOther 5, .release 0])
    (by decide +kernel)
  refine ⟨s, hrun.mono fun _ _ _ hs => hs.2, hs, ?_⟩
  intro honce
  have hown := honce.own ⟨0, some .other⟩ (by rw [hs]; simp)
  cases hown

end MuduoServer
