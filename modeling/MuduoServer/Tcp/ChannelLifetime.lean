import MuduoServer.Tcp.Server

namespace MuduoServer

namespace TCPServer

variable {s s' : TCPServer} {i j : Nat} {c c' d : ServerConn}

/-- The channels that `epoll_wait` has returned to a loop and whose `handleEvent` is still to be
called. -/
def fetched (s : TCPServer) (loop : Nat) : List Nat :=
  (s.reactors loop).events ++ (s.reactors loop).ready

/-- The connection whose entry the close functor of `i` erases, when it is another one. -/
def evicts (s : TCPServer) (i : Nat) : Option Nat :=
  ((s.conns i).bind fun c => s.connMap c.fd).filter (· ≠ i)

/-- The connection that may lose its last strong reference in a step. -/
def loses (s : TCPServer) : ServerStep → Option Nat
  | .accept fd _ => s.connMap fd
  | .release i => some i
  | .handled loop => (s.reactors loop).handling
  | .runFunctor => s.functors.head?.bind s.evicts
  | .handleClose i true =>
    if (s.conns i).map ServerConn.state = some .disconnected then none else s.evicts i
  | _ => none

/-- The step does not drop the last reference to a connection whose channel is fetched. -/
def Keeps (s : TCPServer) (a : ServerStep) : Prop :=
  ∀ i ∈ s.loses a, ∀ c ∈ s.conns i, s.useCount i c = 1 → i ∉ s.fetched c.loop

instance (s : TCPServer) (a : ServerStep) : Decidable (s.Keeps a) :=
  inferInstanceAs (Decidable (∀ _ ∈ _, ∀ _ ∈ _, _))

/-- What holds in every state that such steps reach. -/
structure Sound (s : TCPServer) : Prop where
  fresh : ∀ i, s.made ≤ i → s.conns i = none
  channel : ∀ i c, s.conns i = some c → c.channelFd = none ∨ c.channelFd = some c.fd
  mapped : ∀ fd i, s.connMap fd = some i → ∃ c, s.conns i = some c ∧ c.fd = fd
  /-- The channel of a destroyed connection is in no epoll, for its number was closed. -/
  watched : ∀ loop fd i, s.watched loop fd = some i →
    ∃ c, s.conns i = some c ∧ c.alive = true ∧ c.fd = fd ∧ c.loop = loop
  fetched : ∀ loop, ∀ i ∈ s.fetched loop, ∃ c, s.conns i = some c ∧ c.alive = true ∧ c.loop = loop
  handling : ∀ loop i, (s.reactors loop).handling = some i →
    ∃ c, s.conns i = some c ∧ c.loop = loop
  clean : s.dangling = []

theorem new_sound : new.Sound where
  fresh := fun _ _ => rfl
  channel := fun _ _ h => by cases h
  mapped := fun _ _ h => by cases h
  watched := fun _ _ _ h => by cases h
  fetched := fun _ _ h => by cases h
  handling := fun _ _ h => by cases h
  clean := rfl

theorem Sound.ne_of_fresh (h : s.Sound) (hj : s.made ≤ j) (hc : s.conns i = some c) : j ≠ i := by
  rintro rfl
  rw [h.fresh j hj] at hc
  cases hc

/-- A changed connection is still where it was. -/
theorem found_update {p : ServerConn → Prop} (c' : ServerConn) (hc : s.conns i = some c)
    (hp : p c → p c')
    {k : Nat} (hk : ∃ e, s.conns k = some e ∧ p e) :
    ∃ e, Function.update s.conns i (some c') k = some e ∧ p e := by
  obtain ⟨e, he, hpe⟩ := hk
  by_cases heq : k = i
  · rw [heq, hc] at he
    cases he
    exact ⟨c', by rw [heq, Function.update_self], hp hpe⟩
  · exact ⟨e, by rw [Function.update_of_ne heq, he], hpe⟩

/-- A change of a connection that keeps its loop, its number and its life. -/
theorem Sound.setConn (h : s.Sound) (c' : ServerConn) (hc : s.conns i = some c)
    (hloop : c'.loop = c.loop) (hfd : c'.fd = c.fd) (halive : c'.alive = c.alive)
    (hchannel : c'.channelFd = none ∨ c'.channelFd = c.channelFd) : (s.setConn i c').Sound := by
  refine ⟨?_, ?_, ?_, ?_, ?_, ?_, h.clean⟩
  · intro k hk
    exact (Function.update_of_ne (h.ne_of_fresh hk hc) _ _).trans (h.fresh k hk)
  · intro k e he
    by_cases hk : k = i
    · rw [hk] at he
      obtain rfl : c' = e := Option.some.inj ((Function.update_self i _ _).symm.trans he)
      rcases hchannel with hnone | hsame
      · exact .inl hnone
      · rw [hsame, hfd]
        exact h.channel i c hc
    · exact h.channel k e ((Function.update_of_ne hk _ _).symm.trans he)
  · intro fd k hk
    exact found_update c' hc (fun hp => hfd.trans hp) (h.mapped fd k hk)
  · intro loop fd k hk
    refine found_update c' hc ?_ (h.watched loop fd k hk)
    rintro ⟨h1, h2, h3⟩
    exact ⟨halive.trans h1, hfd.trans h2, hloop.trans h3⟩
  · intro loop k hk
    refine found_update c' hc ?_ (h.fetched loop k hk)
    rintro ⟨h1, h2⟩
    exact ⟨halive.trans h1, hloop.trans h2⟩
  · intro loop k hk
    exact found_update c' hc (fun hp => hloop.trans hp) (h.handling loop k hk)

theorem close_watched {fd fd' loop k : Nat} (hk : (s.close i fd).watched loop fd' = some k) :
    fd' ≠ fd ∧ s.watched loop fd' = some k := by
  unfold TCPServer.watched TCPServer.close at hk
  by_cases hfd : fd' = fd
  · rw [hfd] at hk
    simp at hk
  · refine ⟨hfd, ?_⟩
    dsimp only at hk
    rw [Function.update_of_ne hfd] at hk
    exact hk

theorem Sound.close (h : s.Sound) (i fd : Nat) : (s.close i fd).Sound :=
  { h with watched := fun loop fd' k hk => h.watched loop fd' k (close_watched hk).2 }

/-- A connection whose channel is not fetched may be destroyed. -/
theorem Sound.destroy (h : s.Sound) (hc : s.conns i = some c) (hnot : i ∉ s.fetched c.loop) :
    (s.destroy i c).Sound := by
  set dead : ServerConn := { c with channelFd := none, alive := false } with hdead
  have hclosed : ((s.setConn i dead).close i c.fd).Sound := by
    refine ⟨?_, ?_, ?_, ?_, ?_, ?_, h.clean⟩
    · intro k hk
      exact (Function.update_of_ne (h.ne_of_fresh hk hc) _ _).trans (h.fresh k hk)
    · intro k e he
      by_cases hk : k = i
      · rw [hk] at he
        obtain rfl : dead = e := Option.some.inj ((Function.update_self i _ _).symm.trans he)
        exact .inl rfl
      · exact h.channel k e ((Function.update_of_ne hk _ _).symm.trans he)
    · intro fd k hk
      exact found_update dead hc id (h.mapped fd k hk)
    · -- the only number under which the channel was registered is closed
      intro loop fd k hk
      obtain ⟨hne, hk⟩ := close_watched hk
      obtain ⟨e, he, halive, hfd, hloop⟩ := h.watched loop fd k hk
      have hki : k ≠ i := by
        rintro rfl
        rw [hc] at he
        cases he
        exact hne hfd.symm
      exact ⟨e, (Function.update_of_ne hki _ _).trans he, halive, hfd, hloop⟩
    · intro loop k hk
      obtain ⟨e, he, halive, hloop⟩ := h.fetched loop k hk
      have hki : k ≠ i := by
        rintro rfl
        rw [hc] at he
        cases he
        rw [hloop] at hnot
        exact hnot hk
      exact ⟨e, (Function.update_of_ne hki _ _).trans he, halive, hloop⟩
    · intro loop k hk
      exact found_update dead hc id (h.handling loop k hk)
  rw [TCPServer.destroy]
  cases c.channelFd with
  | none => exact hclosed
  | some fd => exact hclosed.close i fd

theorem Sound.dropped (h : s.Sound)
    (hnot : ∀ c, s.conns i = some c → s.useCount i c = 0 → i ∉ s.fetched c.loop) :
    (s.dropped i).Sound := by
  rw [TCPServer.dropped]
  cases hc : s.conns i with
  | none => exact h
  | some c =>
    dsimp only
    split_ifs with hlast
    · exact h.destroy hc (hnot c hc hlast.2)
    · exact h

theorem setWatched_watched {loop fd loop' fd' k : Nat} {channel : Option Nat}
    (hk : (s.setWatched loop fd channel).watched loop' fd' = some k) :
    s.watched loop' fd' = some k ∨ (loop' = loop ∧ fd' = fd ∧ channel = some k) := by
  unfold TCPServer.watched TCPServer.setWatched at hk
  dsimp only at hk
  by_cases hfd : fd' = fd
  · rw [hfd, Function.update_self] at hk
    obtain ⟨e, he, hk⟩ := Option.bind_eq_some_iff.mp hk
    obtain ⟨d, hd, rfl⟩ := Option.map_eq_some_iff.mp he
    dsimp only at hk
    by_cases hloop : loop' = loop
    · rw [hloop, Function.update_self] at hk
      exact .inr ⟨hloop, hfd, hk⟩
    · rw [Function.update_of_ne hloop] at hk
      exact .inl (by rw [TCPServer.watched, hfd, hd]; exact hk)
  · rw [Function.update_of_ne hfd] at hk
    exact .inl hk

theorem Sound.removeSelf (h : s.Sound) (hc : s.conns i = some c) : (s.removeSelf i c).Sound := by
  rw [TCPServer.removeSelf]
  cases c.channelFd with
  | none => exact h
  | some fd =>
    have hdeleted : (s.setWatched c.loop fd none).Sound := by
      refine { h with watched := ?_ }
      intro loop fd' k hk
      rcases setWatched_watched hk with hold | ⟨-, -, hnone⟩
      · exact h.watched loop fd' k hold
      · cases hnone
    exact (hdeleted.close i fd).setConn _ hc rfl rfl rfl (.inl rfl)

theorem Sound.updateChannel (h : s.Sound) (hc : s.conns i = some c) (halive : c.alive = true) :
    (s.updateChannel i c).Sound := by
  rw [TCPServer.updateChannel]
  cases hchannel : c.channelFd with
  | none => exact h
  | some fd =>
    dsimp only
    split_ifs
    · have hfd : fd = c.fd := by
        rcases h.channel i c hc with hnone | hsome
        · rw [hchannel] at hnone
          cases hnone
        · exact Option.some.inj (hchannel.symm.trans hsome)
      have hwatched : (s.setWatched c.loop fd (some i)).Sound := by
        refine { h with watched := ?_ }
        intro loop fd' k hk
        rcases setWatched_watched hk with hold | ⟨hloop, hfd', hi⟩
        · exact h.watched loop fd' k hold
        · cases hi
          exact ⟨c, hc, halive, by rw [hfd', hfd], hloop.symm⟩
      exact hwatched.setConn { c with channelFd := some fd, inEpoll := true } hc rfl rfl rfl
        (.inr hchannel.symm)
    · exact h

/-- Erasing an entry of `conn_map_` takes one reference from its connection. -/
theorem useCount_erase {fd : Nat} (hmap : s.connMap fd = some j) (hfd : d.fd = fd) :
    s.useCount j d =
      ({ s with connMap := Function.update s.connMap fd none } : TCPServer).useCount j d + 1 := by
  have hnone : ((none : Option Nat) == some j) = false := rfl
  simp only [useCount, hfd, hmap, Function.update_self, beq_self_eq_true, hnone, Bool.toNat_true,
    Bool.toNat_false]
  omega

theorem Sound.closeFunctor (h : s.Sound) (hc : s.conns i = some c) (hheld : 0 < c.holders)
    (hkeeps : ∀ j, j ≠ i → s.connMap c.fd = some j → ∀ d, s.conns j = some d →
      s.useCount j d = 1 → j ∉ s.fetched d.loop) : (s.closeFunctor i c).Sound := by
  rw [TCPServer.closeFunctor]
  cases hmap : s.connMap c.fd with
  | none => exact h
  | some j =>
    have herased :
        ({ s with connMap := Function.update s.connMap c.fd none } : TCPServer).Sound := by
      refine { h with mapped := ?_ }
      intro fd k hk
      dsimp only at hk
      by_cases hfd : fd = c.fd
      · rw [hfd, Function.update_self] at hk
        cases hk
      · exact h.mapped fd k ((Function.update_of_ne hfd _ _).symm.trans hk)
    refine (herased.dropped ?_).removeSelf (dropped_conns _ hc hheld)
    intro d hd hzero
    have hji : j ≠ i := by
      -- the functor itself holds its connection
      rintro rfl
      obtain rfl : c = d := Option.some.inj (hc.symm.trans hd)
      rw [useCount] at hzero
      omega
    obtain ⟨e, he, hfd⟩ := h.mapped _ j hmap
    obtain rfl : e = d := Option.some.inj (he.symm.trans hd)
    apply hkeeps j hji hmap e hd
    rw [useCount_erase hmap hfd, hzero]

theorem evicts_spec (hc : s.conns i = some c) (hmap : s.connMap c.fd = some j) (hji : j ≠ i) :
    s.evicts i = some j := by
  rw [evicts, hc, Option.bind_some]
  exact Option.filter_eq_some_iff.mpr ⟨hmap, by simpa using hji⟩

theorem Sound.handleClose (h : s.Sound) (hc : s.conns i = some c) (isLocalThread : Bool)
    (hkeeps : s.Keeps (.handleClose i isLocalThread)) :
    (s.handleClose i c isLocalThread).Sound := by
  rw [TCPServer.handleClose]
  split_ifs with hstate hlocal
  · exact h
  · have hclosing := h.setConn { c with state := .disconnected, holders := c.holders + 1 } hc
      rfl rfl rfl (.inr rfl)
    apply hclosing.closeFunctor (by rw [setConn_conns, if_pos rfl]) (Nat.succ_pos _)
    intro j hji hmap d hd hone
    rw [setConn_conns, if_neg hji] at hd
    refine hkeeps j ?_ d hd hone
    have hevicts : s.evicts i = some j := evicts_spec hc hmap hji
    simp [loses, hlocal, hc, hstate, hevicts]
  · have hclosing := h.setConn { c with state := .disconnected } hc rfl rfl rfl (.inr rfl)
    exact { hclosing with }

/-- A new connection changes nothing about the others. -/
theorem Sound.entered_conns (h : s.Sound) (fd loop : Nat) (hc : s.conns i = some c) :
    i ≠ s.made ∧ (s.entered fd loop).conns i = some c := by
  have hne : i ≠ s.made := by
    rintro rfl
    rw [h.fresh _ (Nat.le_refl _)] at hc
    cases hc
  exact ⟨hne, by rw [TCPServer.entered_conns, if_neg hne, hc]⟩

theorem Sound.entered (h : s.Sound) (fd loop : Nat) : (s.entered fd loop).Sound := by
  refine ⟨?_, ?_, ?_, ?_, ?_, ?_, h.clean⟩
  · intro k hk
    have hlt : s.made < k := hk
    rw [TCPServer.entered_conns, if_neg (Nat.ne_of_gt hlt), h.fresh k (Nat.le_of_lt hlt)]
  · intro k e he
    rw [TCPServer.entered_conns] at he
    split_ifs at he
    · cases he
      exact .inr rfl
    · exact h.channel k e he
  · intro fd' k hk
    simp only [TCPServer.entered, Function.update_apply] at hk
    split_ifs at hk with hfd
    · cases hk
      exact ⟨newConn fd loop, by rw [TCPServer.entered_conns, if_pos rfl], hfd.symm⟩
    · obtain ⟨e, he, hfd'⟩ := h.mapped fd' k hk
      exact ⟨e, (h.entered_conns fd loop he).2, hfd'⟩
  · -- the new descriptor is in no epoll
    intro loop' fd' k hk
    simp only [TCPServer.watched, TCPServer.entered, Function.update_apply] at hk
    split_ifs at hk
    · cases hk
    · obtain ⟨e, he, hrest⟩ := h.watched loop' fd' k hk
      exact ⟨e, (h.entered_conns fd loop he).2, hrest⟩
  · intro loop' k hk
    obtain ⟨e, he, hrest⟩ := h.fetched loop' k hk
    exact ⟨e, (h.entered_conns fd loop he).2, hrest⟩
  · intro loop' k hk
    obtain ⟨e, he, hrest⟩ := h.handling loop' k hk
    exact ⟨e, (h.entered_conns fd loop he).2, hrest⟩

/-- Writing over an entry of `conn_map_` takes one reference from its connection. -/
theorem useCount_entered {fd : Nat} (loop : Nat) (hmap : s.connMap fd = some j) (hfd : d.fd = fd)
    (hne : j ≠ s.made) : s.useCount j d = (s.entered fd loop).useCount j d + 1 := by
  have hmade : (some s.made == some j) = false := by simpa using hne.symm
  simp only [useCount, entered, hfd, hmap, Function.update_self, hmade, beq_self_eq_true,
    Bool.toNat_false, Bool.toNat_true, setConn_functors, setConn_reactors]
  omega

theorem Sound.newConnection (h : s.Sound) (fd loop : Nat)
    (hkeeps : s.Keeps (.accept fd loop)) : (s.newConnection fd loop).Sound := by
  rw [newConnection_eq]
  cases hmap : s.connMap fd with
  | none => exact h.entered fd loop
  | some j =>
    apply (h.entered fd loop).dropped
    intro d hd hzero
    obtain ⟨e, he, hfd⟩ := h.mapped fd j hmap
    obtain ⟨hne, hstays⟩ := h.entered_conns fd loop he
    obtain rfl : e = d := Option.some.inj (hstays.symm.trans hd)
    apply hkeeps j hmap e he
    rw [useCount_entered loop hmap hfd hne, hzero]

theorem Sound.release (h : s.Sound) (hc : s.conns i = some c) (hheld : 0 < c.holders)
    (hkeeps : s.Keeps (.release i)) :
    ((s.setConn i { c with holders := c.holders - 1 }).dropped i).Sound := by
  have hreleased := h.setConn { c with holders := c.holders - 1 } hc rfl rfl rfl (.inr rfl)
  apply hreleased.dropped
  intro d hd hzero
  rw [setConn_conns, if_pos rfl] at hd
  cases hd
  apply hkeeps i rfl c hc
  simp only [useCount, setConn_connMap, setConn_functors, setConn_reactors] at hzero ⊢
  omega

theorem Sound.handled (h : s.Sound) {loop : Nat} {events ready : List Nat}
    (hr : s.reactors loop = ⟨events, ready, some i⟩) (hkeeps : s.Keeps (.handled loop)) :
    ((s.setReactor loop ⟨events, ready, none⟩).dropped i).Sound := by
  have hfetched : ∀ k, (s.setReactor loop ⟨events, ready, none⟩).fetched k = s.fetched k := by
    intro k
    rw [TCPServer.fetched, TCPServer.fetched, setReactor_reactors]
    split_ifs with hk
    · rw [hk, hr]
    · rfl
  have hdone : (s.setReactor loop ⟨events, ready, none⟩).Sound := by
    refine { h with fetched := ?_, handling := ?_ }
    · intro k
      rw [hfetched]
      exact h.fetched k
    · intro k j hj
      rw [setReactor_reactors] at hj
      split_ifs at hj
      exact h.handling k j hj
  apply hdone.dropped
  intro c hc hzero
  rw [hfetched]
  obtain ⟨e, he, hloop⟩ := h.handling loop i (by rw [hr])
  obtain rfl : e = c := Option.some.inj (he.symm.trans hc)
  apply hkeeps i (by rw [Option.mem_def, loses, hr]) e he
  have hnone : ((none : Option Nat) == some i) = false := rfl
  simp only [useCount, setReactor_connMap, setReactor_functors, setReactor_reactors, hloop, hr,
    if_true, beq_self_eq_true, hnone, Bool.toNat_true, Bool.toNat_false] at hzero ⊢
  omega

/-- `epoll_wait` reports living channels of the loop. -/
theorem Sound.poll (h : s.Sound) {loop : Nat} {batch : List Nat}
    (hbatch : ∀ i ∈ batch, s.Reports loop i) : (s.setReactor loop ⟨batch, [], none⟩).Sound := by
  refine { h with fetched := ?_, handling := ?_ }
  · intro k i hi
    rw [TCPServer.fetched, setReactor_reactors] at hi
    split_ifs at hi with hk
    · obtain ⟨c, hc, hw⟩ := Option.bind_eq_some_iff.mp (hbatch i (by simpa using hi))
      obtain ⟨e, he, halive, -, hloop⟩ := h.watched loop c.fd i hw
      exact ⟨e, he, halive, hloop.trans hk.symm⟩
    · exact h.fetched k i hi
  · intro k i hi
    rw [setReactor_reactors] at hi
    split_ifs at hi
    exact h.handling k i hi

/-- A loop works on what it has fetched. -/
theorem Sound.setReactor (h : s.Sound) {loop : Nat} {r : Reactor}
    (hfetched : ∀ i ∈ r.events ++ r.ready, i ∈ s.fetched loop)
    (hhandling : ∀ i, r.handling = some i → i ∈ s.fetched loop ∨
      (s.reactors loop).handling = some i) : (s.setReactor loop r).Sound := by
  refine { h with fetched := ?_, handling := ?_ }
  · intro k i hi
    rw [TCPServer.fetched, setReactor_reactors] at hi
    split_ifs at hi with hk
    · rw [hk]
      exact h.fetched loop i (hfetched i hi)
    · exact h.fetched k i hi
  · intro k i hi
    rw [setReactor_reactors] at hi
    split_ifs at hi with hk
    · rw [hk]
      rcases hhandling i hi with hfetched | hsame
      · obtain ⟨c, hc, -, hloop⟩ := h.fetched loop i hfetched
        exact ⟨c, hc, hloop⟩
      · exact h.handling loop i hsame
    · exact h.handling k i hi

/-- A fetched channel is alive. -/
theorem Sound.living (h : s.Sound) {loop : Nat} (hi : i ∈ s.fetched loop) :
    (s.living i).isSome = true := by
  obtain ⟨c, hc, halive, -⟩ := h.fetched loop i hi
  rw [TCPServer.living, hc]
  simp [halive]

theorem Sound.runFunctor (h : s.Sound) {rest : List Nat} (hf : s.functors = i :: rest)
    (hc : s.conns i = some c) (hkeeps : s.Keeps .runFunctor) :
    (({ s with functors := rest }.setConn i { c with holders := c.holders + 1 }).closeFunctor i
      { c with holders := c.holders + 1 }).Sound := by
  have hpopped : ({ s with functors := rest } : TCPServer).Sound := { h with }
  have hheld := hpopped.setConn { c with holders := c.holders + 1 } hc rfl rfl rfl (.inr rfl)
  apply hheld.closeFunctor (by rw [setConn_conns, if_pos rfl]) (Nat.succ_pos _)
  intro j hji hmap d hd hone
  rw [setConn_conns, if_neg hji] at hd
  have hevicts : s.evicts i = some j := evicts_spec hc hmap hji
  apply hkeeps j (by simp [loses, hf, hevicts]) d hd
  have hcount : s.functors.count j = rest.count j := by
    rw [hf, List.count_cons_of_ne (Ne.symm hji)]
  rw [useCount, hcount]
  exact hone

/-- A number that other code opens or closes is in no epoll afterwards. -/
theorem Sound.setFd (h : s.Sound) (fd : Nat) {d : Option Descriptor}
    (hd : ∀ e, d = some e → e.watched = fun _ => none) :
    ({ s with fds := Function.update s.fds fd d } : TCPServer).Sound := by
  refine { h with watched := ?_ }
  intro loop fd' k hk
  simp only [TCPServer.watched, Function.update_apply] at hk
  split_ifs at hk
  · obtain ⟨e, he, hk⟩ := Option.bind_eq_some_iff.mp hk
    rw [hd e he] at hk
    cases hk
  · exact h.watched loop fd' k hk

theorem Sound.step {a : ServerStep} (h : s.Sound) (hkeeps : s.Keeps a) (hs : s.step a = some s') :
    s'.Sound := by
  cases a with
  | accept fd loop =>
    obtain ⟨-, rfl⟩ := step_accept hs
    exact h.newConnection fd loop hkeeps
  | flushEvent i =>
    obtain ⟨c, hc, rfl⟩ := Option.map_eq_some_iff.mp hs
    exact h.updateChannel (living_spec hc).1 (living_spec hc).2
  | openOther fd =>
    obtain ⟨-, rfl⟩ := step_openOther hs
    exact h.setFd fd (by rintro e ⟨⟩; rfl)
  | closeOther fd =>
    obtain ⟨-, rfl⟩ := step_closeOther hs
    exact h.setFd fd (by rintro e ⟨⟩)
  | retain i =>
    obtain ⟨c, hc, rfl⟩ := Option.map_eq_some_iff.mp hs
    exact h.setConn { c with holders := c.holders + 1 } (living_spec hc).1 rfl rfl rfl (.inr rfl)
  | release i =>
    obtain ⟨c, hc, hheld, rfl⟩ := step_release hs
    exact h.release hc hheld hkeeps
  | handleClose i isLocalThread =>
    obtain ⟨c, hc, rfl⟩ := Option.map_eq_some_iff.mp hs
    exact h.handleClose (living_spec hc).1 isLocalThread hkeeps
  | runFunctor =>
    obtain ⟨i, rest, c, hf, hc, rfl⟩ := step_runFunctor hs
    exact h.runFunctor hf hc hkeeps
  | poll loop batch =>
    obtain ⟨hbatch, rfl⟩ := step_poll hs
    exact h.poll hbatch
  | setReadyEvents loop =>
    obtain ⟨i, events, ready, handling, hr, dangling, rfl, hclean⟩ := step_setReadyEvents hs
    have hi : i ∈ s.fetched loop := by simp [TCPServer.fetched, hr]
    rw [hclean (h.living hi)]
    refine h.setReactor ?_ ?_
    · intro k hk
      simp only [TCPServer.fetched, hr, List.mem_append, List.mem_cons] at hk ⊢
      tauto
    · intro k hk
      exact .inr (by rw [hr]; exact hk)
  | handleEvent loop =>
    obtain ⟨i, ready, hr, handling, dangling, rfl, hclean⟩ := step_handleEvent hs
    have hi : i ∈ s.fetched loop := by simp [TCPServer.fetched, hr]
    obtain ⟨rfl, rfl⟩ := hclean (h.living hi)
    refine h.setReactor ?_ ?_
    · intro k hk
      rw [TCPServer.fetched, hr]
      exact List.mem_cons_of_mem _ hk
    · intro k hk
      cases hk
      exact .inl hi
  | handled loop =>
    obtain ⟨events, ready, i, hr, rfl⟩ := step_handled hs
    exact h.handled hr hkeeps

end TCPServer

open TCPServer in
/-- As long as no step drops the last reference to a connection whose channel a loop has fetched
and not handled, no loop uses a destroyed channel. -/
theorem no_event_after_destroy (steps : List ServerStep) (s : TCPServer)
    (h : Run (fun s a s' => s.Keeps a ∧ s.step a = some s') new steps s) : s.dangling = [] := by
  have hsound : s.Sound := h.preserves Sound new_sound fun _ _ _ hinv hs => hinv.step hs.1 hs.2
  exact hsound.clean

open TCPServer in
/-- A connection that is closed while its event is handled, and destroyed after that. -/
theorem no_event_after_destroy_handled :
    ∃ s : TCPServer, (s.conns 0).map ServerConn.alive = some false ∧ s.dangling = [] := by
  obtain ⟨s, hrun, hs⟩ := Run.exists_of_guarded (f := step) (p := Keeps) (s := new)
    (g := fun s => (s.conns 0).map ServerConn.alive) (a := some false)
    (l := [.accept 5 0, .flushEvent 0, .release 0, .poll 0 [0], .setReadyEvents 0, .handleEvent 0,
      .handleClose 0 false, .handled 0, .runFunctor, .release 0]) (by decide +kernel)
  exact ⟨s, hs, no_event_after_destroy _ s hrun⟩

open TCPServer in
/-- The loop fetches the channel again before the main loop runs the close functor. -/
theorem event_after_destroy :
    ∃ s : TCPServer, Run (fun s a s' => s.step a = some s') new
        [.accept 5 0, .flushEvent 0, .release 0, .poll 0 [0], .setReadyEvents 0, .handleEvent 0,
          .handleClose 0 false, .handled 0, .poll 0 [0], .runFunctor, .release 0,
          .setReadyEvents 0, .handleEvent 0] s ∧
      s.dangling = [0, 0] := by
  obtain ⟨s, hrun, hs⟩ := Run.exists_of_guarded (f := step) (p := fun _ _ => True) (s := new)
    (g := fun s => s.dangling) (a := [0, 0])
    (l := [.accept 5 0, .flushEvent 0, .release 0, .poll 0 [0], .setReadyEvents 0, .handleEvent 0,
      .handleClose 0 false, .handled 0, .poll 0 [0], .runFunctor, .release 0, .setReadyEvents 0,
      .handleEvent 0]) (by decide +kernel)
  exact ⟨s, hrun.mono fun _ _ _ hs => hs.2, hs⟩

end MuduoServer
