import MuduoServer.Framework.Balance
import MuduoServer.Tcp.ThreadPool
import Mathlib.Algebra.BigOperators.Group.Finset.Piecewise

namespace MuduoServer

namespace ThreadPool

variable {n : Nat}

/-- The loop that is found has no more load than the ones that were searched. -/
theorem search_least (pool : ThreadPool n) (loops : List (Fin n)) (min_load : Nat)
    (min_loop : LoopId n) (hmin : ∀ j, min_loop = some j → (pool (some j)).load = min_load)
    {j : Fin n} (hj : pool.search loops min_load min_loop = some j) :
    (pool (some j)).load ≤ min_load ∧
      ∀ loop ∈ loops, (pool (some j)).load ≤ (pool (some loop)).load := by
  induction loops generalizing min_load min_loop with
  | nil => exact ⟨Nat.le_of_eq (hmin j hj), fun _ h => absurd h List.not_mem_nil⟩
  | cons l loops ih =>
    rw [search] at hj
    rw [List.forall_mem_cons]
    split_ifs at hj with hless
    · obtain ⟨hle, hrest⟩ := ih (pool (some l)).load (some l)
        (fun _ h => by rw [Option.some.inj h]) hj
      exact ⟨hle.trans (Nat.le_of_lt hless), hle, hrest⟩
    · obtain ⟨hle, hrest⟩ := ih min_load min_loop hmin hj
      exact ⟨hle, hle.trans (Nat.le_of_not_lt hless), hrest⟩

theorem getSubReactor_least (pool : ThreadPool n) {j : Fin n}
    (hj : pool.getSubReactor.1 = some j) (loop : Fin n) :
    (pool (some j)).load ≤ (pool (some loop)).load := by
  have hsearch : pool.search (List.finRange n) SIZE_MAX none = some j := by
    rw [getSubReactor] at hj
    split at hj
    · cases hj
    · rename_i min_loop hfound
      rwa [hfound]
  have hleast := search_least pool (List.finRange n) SIZE_MAX none
    (fun _ h => by cases h) hsearch
  exact hleast.2 loop (List.mem_finRange loop)

end ThreadPool

namespace PooledServer

variable {n K P : Nat} {s s' : PooledServer n}

/-- At most `P` connections are open, and the files that the connections of one sub reactor still
have to send are at most `K` whole MiB. -/
def Light (K P : Nat) (s : PooledServer n) : Prop :=
  s.fds.length ≤ P ∧ ∀ j : Fin n,
    0 ≤ (s.pool (some j)).leftBytes.toInt ∧
      (s.pool (some j)).leftBytes.toInt >>> (20 : Nat) ≤ (K : Int)

instance (K P : Nat) (s : PooledServer n) : Decidable (s.Light K P) :=
  inferInstanceAs (Decidable (_ ∧ _))

/-- The live connections of the sub reactors. -/
def liveCounts (s : PooledServer n) : Counts (Fin n) := fun j => s.liveOn (some j)

theorem liveCounts_snoc (s : PooledServer n) (pool : ThreadPool n) {c : PooledConn n} {k : Fin n}
    (hloop : c.loop = some k) (hlive : c.live = true) :
    liveCounts ⟨pool, s.conns ++ [c]⟩ =
      Function.update s.liveCounts k (s.liveCounts k + 1) := by
  funext i
  rw [liveCounts, liveOn_snoc, hloop, Function.update_apply]
  by_cases hik : i = k
  · subst hik
    rw [if_pos rfl, if_pos ⟨rfl, hlive⟩]
    rfl
  · rw [if_neg hik, if_neg fun h => hik (Option.some.inj h.1).symm]
    rfl

/-- Each connection is on one loop at most. -/
theorem sum_liveCounts_le (s : PooledServer n) : ∑ j, s.liveCounts j ≤ s.fds.length := by
  rw [fds, List.length_map, ← List.countP_eq_length_filter]
  simp only [liveCounts, liveOn]
  induction s.conns with
  | nil => simp
  | cons c conns ih =>
    have hone : ∑ j : Fin n, (if c.loop = some j ∧ c.live = true then 1 else 0) ≤
        if c.live = true then 1 else 0 := by
      cases hlive : c.live with
      | false => simp
      | true =>
        cases hloop : c.loop with
        | none => simp
        | some k => simp
    simp only [List.countP_cons, decide_eq_true_eq, Finset.sum_add_distrib]
    exact Nat.add_le_add ih hone

/-- The load of a sub reactor is the number of its connections and the MiB they have to send. -/
theorem Light.load_eq (hl : s.Light K P) (hi : s.Inv) (hK : K < 2^43) (j : Fin n) :
    ∃ mib : Nat, mib ≤ K ∧ (s.pool (some j)).load = s.liveOn (some j) + mib := by
  obtain ⟨hpos, hle⟩ := hl.2 j
  have hshift : 0 ≤ (s.pool (some j)).leftBytes.toInt >>> (20 : Nat) := by
    rw [Int.shiftRight_eq_div_pow]
    exact Int.ediv_nonneg hpos (by norm_num)
  obtain ⟨mib, hmib⟩ := Int.eq_ofNat_of_zero_le hshift
  have hfew : mib ≤ K := by omega
  have hlive := hi.liveOn_le (some j)
  refine ⟨mib, hfew, ?_⟩
  rw [Workload.load, hmib, toSizeT_natCast mib (by rw [sizeTop]; omega), hi.counted (some j),
    ← Nat.cast_add, toSizeT_natCast _ (by rw [sizeTop]; omega)]

theorem Light.assigned (hl : s.Light K P) (hi : s.Inv) (hK : K < 2^43) (j : Fin n)
    (step : PoolStep n) : step.Assigned s := by
  cases step with
  | accept fd =>
    obtain ⟨mib, hmib, hload⟩ := hl.load_eq hi hK j
    have hlive := hi.liveOn_le (some j)
    refine ⟨j, ?_⟩
    rw [hload, SIZE_MAX, sizeTop]
    omega
  | handleClose i => trivial
  | leftBytes loop bytes => trivial

/-- A connection joins a sub reactor that has at most `K` connections more than any other. -/
theorem Light.counts_step (hl : s.Light K P) (hi : s.Inv) (hK : K < 2^43) (j : Fin n)
    {step : PoolStep n} (hp : step.Possible s) (hs : step.apply s = some s') :
    Counts.Step K s.liveCounts s'.liveCounts := by
  cases step with
  | accept fd =>
    obtain ⟨loop, hfound⟩ : ∃ loop : Fin n, (s.pool (some loop)).load < SIZE_MAX :=
      hl.assigned hi hK j (.accept fd)
    rw [accept_apply] at hs
    rcases s.pool.getSubReactor_cases with ⟨-, hfull⟩ | ⟨k, hget, -⟩
    · exact (Nat.not_le_of_lt hfound (hfull loop)).elim
    · rw [← Option.some.inj hs, hget, s.liveCounts_snoc _ rfl rfl]
      refine .join _ k fun i => ?_
      have hleast := s.pool.getSubReactor_least (congrArg Prod.fst hget) i
      obtain ⟨mib, -, hload⟩ := hl.load_eq hi hK k
      obtain ⟨mib', hmib', hload'⟩ := hl.load_eq hi hK i
      rw [hload, hload'] at hleast
      rw [liveCounts, liveCounts]
      omega
  | handleClose i =>
    have hlen : i < s.conns.length := hp
    rw [handleClose_apply hlen] at hs
    rw [← Option.some.inj hs]
    refine .leave _ _ fun k => ?_
    rw [liveCounts, liveOn_set hlen _ (handleClose_not_live s.conns[i] s.pool)]
    exact Nat.sub_le _ _
  | leftBytes loop bytes =>
    rw [← Option.some.inj hs]
    exact .leave _ _ fun _ => Nat.le_refl _

end PooledServer

open PooledServer in
/-- The sub reactors share the connections evenly, however these come and go. While at most `P`
are open at a time and no sub reactor has more than `K` MiB of files to send, none has more than
its share of the `P` and of what the choices are off by; for `K = 0` that is `P / n` rounded up. -/
theorem connections_balanced {n K P : Nat} (hK : K < 2^43) {steps : List (PoolStep n)}
    {s : PooledServer n}
    (hrun : Run (fun s step s' => (step.Possible s ∧ s.Light K P) ∧ step.apply s = some s')
      (new n) steps s) (hl : s.Light K P) (j : Fin n) :
    n * s.liveOn (some j) ≤ P + (n - 1) * (K + 1) := by
  obtain ⟨-, hbalanced⟩ := hrun.preserves
    (fun s => s.Inv ∧ (s.Light K P → s.liveCounts.Balanced K P))
    ⟨inv_new n, fun _ => Counts.balanced_zero⟩ (by
      rintro s step s' ⟨hi, hb⟩ ⟨⟨hp, hl⟩, hs⟩
      obtain ⟨s'', hs'', hnodup, hbounded, hcounted⟩ := hi.step_iff step hp
      obtain rfl := Option.some.inj (hs''.symm.trans hs)
      refine ⟨⟨hcounted.mpr (hl.assigned hi hK j step), hnodup, hbounded⟩, ?_⟩
      intro hl'
      have hpeak := s''.sum_liveCounts_le.trans hl'.1
      exact (hb hl).step (hl.counts_step hi hK j hp hs) hpeak)
  have hshare := hbalanced hl j
  rwa [Fintype.card_fin] at hshare

open PooledServer in
/-- A file of a MiB weighs as much as a connection: the second and the third connection go to the
other sub reactor. -/
theorem connections_balanced_two :
    ∃ s : PooledServer 2, s.liveOn (some 1) = 2 ∧
      2 * s.liveOn (some 1) ≤ 3 + (2 - 1) * (1 + 1) := by
  obtain ⟨s, hrun, hread⟩ := Run.exists_of_guarded
    (g := fun s : PooledServer 2 => (s.liveOn (some 1), decide (s.Light 1 3)))
    (f := fun s step => PoolStep.apply s step)
    (p := fun s step => PoolStep.Possible s step ∧ s.Light 1 3) (s := new 2)
    (l := [.accept 5, .leftBytes (some 0) (2^20), .accept 6, .accept 7]) (a := (2, true))
    (by decide +kernel)
  obtain ⟨htwo, hlight⟩ := Prod.mk.inj hread
  exact ⟨s, htwo, connections_balanced (by norm_num) hrun (of_decide_eq_true hlight) 1⟩

end MuduoServer
