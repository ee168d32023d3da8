import MuduoServer.Framework.Run
import MuduoServer.Tcp.Connection
import Mathlib.Data.List.Perm.Subperm
import Mathlib.Data.Fintype.Basic
import Mathlib.Data.List.FinRange
import Mathlib.Logic.Function.Basic

namespace MuduoServer

def SIZE_MAX : Nat := sizeTop - 1

/-- `EventLoop::load`: a MiB counts as a connection. -/
def Workload.load (w : Workload) : Nat :=
  toSizeT (w.connections + toSizeT (w.leftBytes.toInt >>> (20 : Nat)))

/-- A loop of the server: one of the `n` sub reactors, or `none` for the main reactor. -/
abbrev LoopId (n : Nat) := Option (Fin n)

/-- The workloads of the loops. -/
abbrev ThreadPool (n : Nat) := LoopId n → Workload

namespace ThreadPool

variable {n : Nat}

/-- The search for the sub reactor with the least load, in the order of `loops_`. -/
def search (pool : ThreadPool n) : List (Fin n) → Nat → LoopId n → LoopId n
  | [], _, min_loop => min_loop
  | loop :: loops, min_load, min_loop =>
    if (pool (some loop)).load < min_load then
      search pool loops (pool (some loop)).load (some loop)
    else search pool loops min_load min_loop

/-- Without a sub reactor to give it to, a connection goes to the main reactor, uncounted. -/
def getSubReactor (pool : ThreadPool n) : LoopId n × ThreadPool n :=
  match search pool (List.finRange n) SIZE_MAX none with
  | none => (none, pool)
  | some min_loop =>
    let w := pool (some min_loop)
    (some min_loop, Function.update pool (some min_loop)
      { w with connections := toSizeT (w.connections + 1) })

theorem search_some (pool : ThreadPool n) (loops : List (Fin n)) (min_load : Nat) (loop : Fin n) :
    search pool loops min_load (some loop) ≠ none := by
  induction loops generalizing min_load loop with
  | nil => exact Option.some_ne_none loop
  | cons l loops ih =>
    rw [search]
    split_ifs
    · exact ih _ l
    · exact ih min_load loop

/-- No sub reactor is found exactly when none has a load below the largest number. -/
theorem search_eq_none_iff (pool : ThreadPool n) (loops : List (Fin n)) (min_load : Nat) :
    search pool loops min_load none = none ↔
      ∀ loop ∈ loops, min_load ≤ (pool (some loop)).load := by
  induction loops with
  | nil => simp [search]
  | cons l loops ih =>
    rw [search, List.forall_mem_cons]
    split_ifs with hless
    · exact iff_of_false (search_some pool loops _ l) fun h => Nat.not_le_of_lt hless h.1
    · rw [ih, and_iff_right (Nat.le_of_not_lt hless)]

theorem getSubReactor_cases (pool : ThreadPool n) :
    (pool.getSubReactor = (none, pool) ∧ ∀ loop : Fin n, SIZE_MAX ≤ (pool (some loop)).load) ∨
      ∃ j : Fin n, pool.getSubReactor = (some j, Function.update pool (some j)
          { pool (some j) with connections := toSizeT ((pool (some j)).connections + 1) }) ∧
        ∃ loop : Fin n, (pool (some loop)).load < SIZE_MAX := by
  have hnone := pool.search_eq_none_iff (List.finRange n) SIZE_MAX
  cases hsearch : pool.search (List.finRange n) SIZE_MAX none with
  | none =>
    left
    refine ⟨by rw [getSubReactor, hsearch], ?_⟩
    exact fun loop => hnone.mp hsearch loop (List.mem_finRange loop)
  | some j =>
    right
    refine ⟨j, by rw [getSubReactor, hsearch], ?_⟩
    by_contra hnot
    rw [hnone.mpr fun loop _ => Nat.le_of_not_lt fun h => hnot ⟨loop, h⟩] at hsearch
    cases hsearch

end ThreadPool

/-- A connection with its loop and its descriptor. The workload in the endpoint is not its own. -/
structure PooledConn (n : Nat) where
  loop : LoopId n
  fd : Nat
  endpoint : Endpoint

/-- The connections, in the order in which they were accepted. -/
structure PooledServer (n : Nat) where
  pool : ThreadPool n
  conns : List (PooledConn n)

/-- `leftBytes` is what the files of a loop's connections make of its `left_bytes_`. -/
inductive PoolStep (n : Nat) where
  | accept (fd : Nat)
  | handleClose (i : Nat)
  | leftBytes (loop : LoopId n) (bytes : Int64)

def PooledConn.live {n : Nat} (c : PooledConn n) : Bool :=
  c.endpoint.conn.state != .disconnected

/-- The connection as it finds the workload of its loop. -/
def PooledConn.onLoop {n : Nat} (c : PooledConn n) (pool : ThreadPool n) : Endpoint :=
  { c.endpoint with workload := pool c.loop }

namespace PooledServer

variable {n : Nat}

def new (n : Nat) : PooledServer n := ⟨fun _ => ⟨0, 0⟩, []⟩

/-- The connections of a loop that are not `Disconnected`. -/
def liveOn (s : PooledServer n) (loop : LoopId n) : Nat :=
  s.conns.countP fun c => c.loop = loop ∧ c.live

/-- `connections_` of each loop counts its live connections. -/
def Counted (s : PooledServer n) : Prop :=
  ∀ loop, (s.pool loop).connections = s.liveOn loop

/-- The descriptors of the live connections. -/
def fds (s : PooledServer n) : List Nat := (s.conns.filter PooledConn.live).map PooledConn.fd

end PooledServer

namespace PoolStep

variable {n : Nat}

/-- An `accept` reads the loads and counts the connection in one step. The threads of the sub
reactors may close connections in between. That does not change what is counted, as the additions
to an atomic commute; and the loads that are read are then at most those at the start of the step,
while the main reactor alone adds to them. -/
def apply (s : PooledServer n) : PoolStep n → Option (PooledServer n)
  | .accept fd =>
    let (loop, pool) := s.pool.getSubReactor
    some ⟨pool, s.conns ++ [⟨loop, fd, .connected (pool loop) []⟩]⟩
  | .handleClose i => do
    let c ← s.conns[i]?
    let e := (c.onLoop s.pool).handleClose
    some ⟨Function.update s.pool c.loop e.workload, s.conns.set i { c with endpoint := e }⟩
  | .leftBytes loop bytes =>
    some { s with pool := Function.update s.pool loop { s.pool loop with leftBytes := bytes } }

/-- `accept4` returns an `int` that no open descriptor has, and a connection keeps its descriptor
open until it is closed. -/
def Possible (s : PooledServer n) : PoolStep n → Prop
  | .accept fd => fd < 2^31 ∧ fd ∉ s.fds
  | .handleClose i => i < s.conns.length
  | .leftBytes _ _ => True

/-- A connection that is accepted finds a sub reactor. -/
def Assigned (s : PooledServer n) : PoolStep n → Prop
  | .accept _ => ∃ loop : Fin n, (s.pool (some loop)).load < SIZE_MAX
  | _ => True

instance (s : PooledServer n) : (step : PoolStep n) → Decidable (step.Possible s)
  | .accept fd => inferInstanceAs (Decidable (fd < 2^31 ∧ fd ∉ s.fds))
  | .handleClose i => inferInstanceAs (Decidable (i < s.conns.length))
  | .leftBytes _ _ => instDecidableTrue

instance (s : PooledServer n) : (step : PoolStep n) → Decidable (step.Assigned s)
  | .accept _ =>
    inferInstanceAs (Decidable (∃ loop : Fin n, (s.pool (some loop)).load < SIZE_MAX))
  | .handleClose _ | .leftBytes _ _ => instDecidableTrue

end PoolStep

namespace PooledServer

variable {n : Nat} {s : PooledServer n}

/-- The counters are right, and no descriptor is held twice. -/
structure Inv (s : PooledServer n) : Prop where
  counted : s.Counted
  nodup : s.fds.Nodup
  bounded : ∀ fd ∈ s.fds, fd < 2^31

theorem inv_new (n : Nat) : (new n).Inv :=
  ⟨fun _ => rfl, List.nodup_nil, fun _ h => absurd h List.not_mem_nil⟩

/-- There are fewer connections than a counter can count. -/
theorem Inv.liveOn_le (hi : s.Inv) (loop : LoopId n) : s.liveOn loop ≤ 2^31 := by
  have hsub : s.fds ⊆ List.range (2^31) := fun fd hfd => List.mem_range.mpr (hi.bounded fd hfd)
  have hfds := (List.subperm_of_subset hi.nodup hsub).length_le
  have hlive : s.liveOn loop ≤ s.conns.countP PooledConn.live := by
    apply List.countP_mono_left
    intro c _ hc
    exact (of_decide_eq_true hc).2
  rw [List.length_range, fds, List.length_map, ← List.countP_eq_length_filter] at hfds
  exact hlive.trans hfds

theorem liveOn_snoc (s : PooledServer n) (pool : ThreadPool n) (c : PooledConn n)
    (loop : LoopId n) :
    liveOn ⟨pool, s.conns ++ [c]⟩ loop =
      s.liveOn loop + if c.loop = loop ∧ c.live = true then 1 else 0 := by
  simp only [liveOn, List.countP_append, List.countP_singleton, decide_eq_true_eq]

theorem liveOn_set {i : Nat} (hi : i < s.conns.length) (pool : ThreadPool n) {c : PooledConn n}
    (hc : c.live = false) (loop : LoopId n) :
    liveOn ⟨pool, s.conns.set i c⟩ loop =
      s.liveOn loop - if s.conns[i].loop = loop ∧ s.conns[i].live = true then 1 else 0 := by
  simp only [liveOn, List.countP_set hi, decide_eq_true_eq, hc, Bool.false_eq_true, and_false,
    if_false, Nat.add_zero]

/-- A connection that is closed holds its descriptor no longer. -/
theorem fds_set_sublist {i : Nat} (hi : i < s.conns.length) (pool : ThreadPool n)
    {c : PooledConn n} (hc : c.live = false) :
    (fds ⟨pool, s.conns.set i c⟩).Sublist s.fds := by
  apply List.Sublist.map
  have hsplit : s.conns = s.conns.take i ++ s.conns[i] :: s.conns.drop (i + 1) := by simp
  rw [List.set_eq_take_append_cons_drop, if_pos hi, List.filter_append, List.filter_cons_of_neg
    (by simp [hc])]
  conv_rhs => rw [hsplit, List.filter_append]
  apply List.Sublist.append_left
  exact (List.sublist_cons_self _ _).filter _

theorem accept_apply (s : PooledServer n) (fd : Nat) :
    (PoolStep.accept fd).apply s = some ⟨s.pool.getSubReactor.2,
      s.conns ++ [⟨s.pool.getSubReactor.1, fd,
        .connected (s.pool.getSubReactor.2 s.pool.getSubReactor.1) []⟩]⟩ := rfl

theorem handleClose_apply {i : Nat} (hi : i < s.conns.length) :
    (PoolStep.handleClose i).apply s =
      some ⟨Function.update s.pool s.conns[i].loop (s.conns[i].onLoop s.pool).handleClose.workload,
        s.conns.set i { s.conns[i] with endpoint := (s.conns[i].onLoop s.pool).handleClose }⟩ := by
  rw [PoolStep.apply, List.getElem?_eq_getElem hi]
  rfl

theorem handleClose_not_live (c : PooledConn n) (pool : ThreadPool n) :
    PooledConn.live { c with endpoint := (c.onLoop pool).handleClose } = false := by
  rw [PooledConn.live, Endpoint.handleClose]
  split_ifs with hstate
  · simpa using hstate
  · rfl

/-- An accepted connection is counted exactly when it finds a sub reactor. -/
theorem Inv.accept (hi : s.Inv) {fd : Nat} (hp : (PoolStep.accept fd).Possible s) :
    ∃ s', (PoolStep.accept fd).apply s = some s' ∧ s'.fds.Nodup ∧ (∀ fd ∈ s'.fds, fd < 2^31) ∧
      (s'.Counted ↔ (PoolStep.accept fd).Assigned s) := by
  obtain ⟨hlt, hfree⟩ := hp
  refine ⟨_, accept_apply s fd, ?_, ?_, ?_⟩
  · rw [fds, List.filter_append, List.map_append]
    exact List.nodup_append_comm.mp (List.nodup_cons.mpr ⟨hfree, hi.nodup⟩)
  · intro fd' hfd'
    rw [fds, List.filter_append, List.map_append] at hfd'
    rcases List.mem_append.mp hfd' with hfd' | hfd'
    · exact hi.bounded fd' hfd'
    · rw [List.mem_singleton.mp hfd']
      exact hlt
  · show _ ↔ ∃ loop : Fin n, (s.pool (some loop)).load < SIZE_MAX
    rcases s.pool.getSubReactor_cases with ⟨hget, hfull⟩ | ⟨j, hget, hfound⟩
    · rw [hget]
      apply iff_of_false
      · intro hcounted
        have hmain : (s.pool none).connections = _ := hcounted none
        rw [liveOn_snoc, if_pos ⟨rfl, rfl⟩, hi.counted none] at hmain
        omega
      · rintro ⟨loop, hless⟩
        exact Nat.not_le_of_lt hless (hfull loop)
    · rw [hget]
      apply iff_of_true _ hfound
      intro loop
      show (Function.update s.pool (some j) _ loop).connections = _
      rw [liveOn_snoc]
      by_cases hj : some j = loop
      · subst hj
        have hle := hi.liveOn_le (some j)
        rw [if_pos ⟨rfl, rfl⟩, Function.update_self, hi.counted (some j)]
        show toSizeT ((s.liveOn (some j) : Int) + 1) = _
        rw [← Nat.cast_succ, toSizeT_natCast]
        rw [sizeTop]
        omega
      · rw [if_neg (fun h => hj h.1), Function.update_of_ne (Ne.symm hj)]
        exact hi.counted loop

/-- The loop of a connection counts one less when the connection is closed, and only then. -/
theorem Inv.handleClose (hi : s.Inv) {i : Nat} (hp : (PoolStep.handleClose i).Possible s) :
    ∃ s', (PoolStep.handleClose i).apply s = some s' ∧ s'.Inv := by
  have hlen : i < s.conns.length := hp
  have hsub := fds_set_sublist hlen (Function.update s.pool s.conns[i].loop
    (s.conns[i].onLoop s.pool).handleClose.workload) (handleClose_not_live s.conns[i] s.pool)
  refine ⟨_, handleClose_apply hlen, ?_, hsub.nodup hi.nodup,
    fun fd hfd => hi.bounded fd (hsub.subset hfd)⟩
  intro loop
  show (Function.update s.pool s.conns[i].loop _ loop).connections = _
  rw [liveOn_set hlen _ (handleClose_not_live s.conns[i] s.pool)]
  by_cases hloop : loop = s.conns[i].loop
  · subst hloop
    have hcount := hi.counted s.conns[i].loop
    rw [Function.update_self, Endpoint.handleClose]
    by_cases hstate : s.conns[i].endpoint.conn.state = .disconnected
    · rw [PooledConn.onLoop, if_pos hstate,
        if_neg (fun h => by simp [PooledConn.live, hstate] at h), Nat.sub_zero]
      exact hcount
    · have hlive : s.conns[i].live = true := by simpa [PooledConn.live] using hstate
      have hpos : 0 < s.liveOn s.conns[i].loop :=
        List.countP_pos_iff.mpr ⟨s.conns[i], List.getElem_mem hlen, by simp [hlive]⟩
      have hle := hi.liveOn_le s.conns[i].loop
      rw [PooledConn.onLoop, if_neg hstate, if_pos ⟨rfl, hlive⟩]
      show toSizeT ((s.pool s.conns[i].loop).connections - 1) = _
      rw [hcount, ← Nat.cast_pred hpos, toSizeT_natCast]
      rw [sizeTop]
      omega
  · rw [if_neg (fun h => hloop h.1.symm), Function.update_of_ne hloop, Nat.sub_zero]
    exact hi.counted loop

theorem Inv.leftBytes (hi : s.Inv) (loop : LoopId n) (bytes : Int64) :
    ∃ s', (PoolStep.leftBytes loop bytes).apply s = some s' ∧ s'.Inv := by
  refine ⟨_, rfl, ?_, hi.nodup, hi.bounded⟩
  intro loop'
  show (Function.update s.pool loop _ loop').connections = _
  by_cases hloop : loop' = loop
  · subst hloop
    rw [Function.update_self]
    exact hi.counted loop'
  · rw [Function.update_of_ne hloop]
    exact hi.counted loop'

theorem Inv.step_iff (hi : s.Inv) (step : PoolStep n) (hp : step.Possible s) :
    ∃ s', step.apply s = some s' ∧ s'.fds.Nodup ∧ (∀ fd ∈ s'.fds, fd < 2^31) ∧
      (s'.Counted ↔ step.Assigned s) := by
  cases step with
  | accept fd => exact hi.accept hp
  | handleClose i =>
    obtain ⟨s', happly, hi'⟩ := hi.handleClose hp
    exact ⟨s', happly, hi'.nodup, hi'.bounded, iff_of_true hi'.counted trivial⟩
  | leftBytes loop bytes =>
    obtain ⟨s', happly, hi'⟩ := hi.leftBytes loop bytes
    exact ⟨s', happly, hi'.nodup, hi'.bounded, iff_of_true hi'.counted trivial⟩

/-- As long as each connection that is accepted finds a sub reactor, `connections_` of every loop
is the number of its live connections, and up to the first one that does not. -/
theorem connections_counted {steps : List (PoolStep n)}
    (hrun : Run (fun s step s' => (step.Possible s ∧ step.Assigned s) ∧ step.apply s = some s')
      (new n) steps s) :
    s.Counted ∧ ∀ step : PoolStep n, step.Possible s →
      ∃ s', step.apply s = some s' ∧ (s'.Counted ↔ step.Assigned s) := by
  have hi : s.Inv := by
    apply hrun.preserves Inv (inv_new n)
    intro s step s' hi ⟨⟨hp, hassigned⟩, happly⟩
    obtain ⟨s'', happly', hnodup, hbounded, hiff⟩ := hi.step_iff step hp
    obtain rfl := Option.some.inj (happly'.symm.trans happly)
    exact ⟨hiff.mpr hassigned, hnodup, hbounded⟩
  refine ⟨hi.counted, ?_⟩
  intro step hp
  obtain ⟨s', happly, -, -, hiff⟩ := hi.step_iff step hp
  exact ⟨s', happly, hiff⟩

/-- Two connections on two sub reactors, of which one is closed twice. -/
theorem connections_counted_two :
    ∃ s : PooledServer 2, (s.Counted ∧ ∀ step : PoolStep 2, step.Possible s →
        ∃ s', step.apply s = some s' ∧ (s'.Counted ↔ step.Assigned s)) ∧
      (s.pool (some 0)).connections = 0 ∧ (s.pool (some 1)).connections = 1 := by
  obtain ⟨s, hrun, hcounts⟩ := Run.exists_of_guarded
    (g := fun s : PooledServer 2 =>
      ((s.pool (some 0)).connections, (s.pool (some 1)).connections))
    (f := fun s step => PoolStep.apply s step)
    (p := fun s step => PoolStep.Possible s step ∧ PoolStep.Assigned s step)
    (s := new 2) (l := [.accept 5, .accept 6, .handleClose 0, .handleClose 0]) (a := (0, 1))
    (by decide +kernel)
  obtain ⟨h0, h1⟩ := Prod.mk.inj hcounts
  exact ⟨s, connections_counted hrun, h0, h1⟩

/-- Without sub reactors the counter of the main reactor is not incremented for a connection, but
decremented when it is closed. -/
theorem main_counter_wraps :
    ∃ (steps : List (PoolStep 0)) (s : PooledServer 0),
      Run (fun s step s' => step.Possible s ∧ step.apply s = some s') (new 0) steps s ∧
      (s.pool none).connections = 2^64 - 1 ∧ s.liveOn none = 0 ∧ ¬ s.Counted := by
  obtain ⟨s, hrun, hcounts⟩ := Run.exists_of_guarded
    (g := fun s : PooledServer 0 => ((s.pool none).connections, s.liveOn none))
    (f := fun s step => PoolStep.apply s step) (p := fun s step => PoolStep.Possible s step)
    (s := new 0) (l := [.accept 5, .handleClose 0]) (a := (2^64 - 1, 0)) (by decide +kernel)
  obtain ⟨hwrap, hlive⟩ := Prod.mk.inj hcounts
  refine ⟨_, s, hrun, hwrap, hlive, ?_⟩
  intro hcounted
  have hmain := hcounted none
  omega

end PooledServer

end MuduoServer
