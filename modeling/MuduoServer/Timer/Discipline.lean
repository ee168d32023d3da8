import MuduoServer.Timer.TimerLoop
import Mathlib.Data.List.DropRight
import Mathlib.Data.List.Nodup

namespace MuduoServer.TimerLoop

variable {P : Type*} [LinearOrder P]

/-- What is known of the timers of a batch while it lasts. -/
structure BatchSound (s : TimerLoop P) (b : Batch P) : Prop where
  now_le : b.now ≤ s.clock
  waiting : b.waiting <:+ b.expired
  nodup : (b.expired.map Prod.snd).Nodup
  gone : ∀ x ∈ b.expired, ∃ t, x.2 = some t ∧ t ∈ s.created ∧ t ∉ s.queue.active_timers ∧
    t ∉ s.pending ∧ (s.timer t).expiration = x.1 ∧ x.1 ≤ b.now

/-- The two sets have the same timers, each at its expiration; a timer is in them, in the batch, or
still to be added. -/
structure Sound (s : TimerLoop P) : Prop where
  agree : ∀ e t, (e, some t) ∈ s.queue.timers ↔
    t ∈ s.queue.active_timers ∧ (s.timer t).expiration = e
  pointed : ∀ x ∈ s.queue.timers, x.2 ≠ none
  active : ∀ t ∈ s.queue.active_timers, t ∈ s.created
  pending : ∀ t ∈ s.pending, t ∈ s.created ∧ t ∉ s.queue.active_timers
  pending_nodup : s.pending.Nodup
  flag : s.queue.is_doing_timer_callback = s.batch.isSome
  batch : ∀ b, s.batch = some b → BatchSound s b

variable {s s' : TimerLoop P} {t : P} {timer : Timer} {e : Int} {x : TimerEntry P}

/-- A batch stays sound while its timers stay out of the sets. -/
theorem BatchSound.of_gone {b : Batch P} (hbs : BatchSound s b) (hclock : s.clock ≤ s'.clock)
    (h : ∀ t, t ∈ s.created → t ∉ s.queue.active_timers → t ∉ s.pending →
      t ∈ s'.created ∧ t ∉ s'.queue.active_timers ∧ t ∉ s'.pending ∧
        (s'.timer t).expiration = (s.timer t).expiration) : BatchSound s' b := by
  refine ⟨hbs.now_le.trans hclock, hbs.waiting, hbs.nodup, ?_⟩
  intro x hx
  obtain ⟨t, hxt, hc, ha, hp, he, hle⟩ := hbs.gone x hx
  obtain ⟨hc', ha', hp', he'⟩ := h t hc ha hp
  exact ⟨t, hxt, hc', ha', hp', he'.trans he, hle⟩

theorem Sound.entry (hs : Sound s) (hx : x ∈ s.queue.timers) :
    ∃ t, x = (x.1, some t) ∧ t ∈ s.queue.active_timers ∧ (s.timer t).expiration = x.1 := by
  obtain ⟨e, p⟩ := x
  cases p with
  | none => exact absurd rfl (hs.pointed _ hx)
  | some t => exact ⟨t, rfl, (hs.agree e t).mp hx⟩

/-- No timer is in the set twice. -/
theorem Sound.eq_of_pointer (hs : Sound s) {y : TimerEntry P} (hx : x ∈ s.queue.timers)
    (hy : y ∈ s.queue.timers) (heq : x.2 = y.2) : x = y := by
  obtain ⟨t, hxt, -, hxe⟩ := hs.entry hx
  obtain ⟨t', hyt, -, hye⟩ := hs.entry hy
  rw [hxt, hyt] at heq
  obtain rfl : t = t' := Option.some.inj heq
  rw [hxt, hyt, ← hxe, ← hye]

theorem sound_init (clock : Int) : Sound (init clock : TimerLoop P) where
  agree e t := iff_of_false (OrderedSet.notMem_empty _) fun h => OrderedSet.notMem_empty t h.1
  pointed x hx := absurd hx (OrderedSet.notMem_empty x)
  active t ht := absurd ht (OrderedSet.notMem_empty t)
  pending t ht := by cases ht
  pending_nodup := .nil
  flag := rfl
  batch b hb := by cases hb

theorem Sound.tick (hs : Sound s) (d : Nat) (fd : Timerfd) :
    Sound { s with clock := s.clock + d, fd := fd } := by
  refine ⟨hs.agree, hs.pointed, hs.active, hs.pending, hs.pending_nodup, hs.flag, ?_⟩
  intro b hb
  have hle : s.clock ≤ s.clock + d := by omega
  exact (hs.batch b hb).of_gone hle fun t hc ha hp => ⟨hc, ha, hp, rfl⟩

theorem Sound.create (hs : Sound s) (ht : t ∉ s.created) (timer : Timer) :
    Sound { s with
      timer := Function.update s.timer t timer
      created := t :: s.created
      pending := t :: s.pending } := by
  have hactive : t ∉ s.queue.active_timers := fun h => ht (hs.active t h)
  have hsame : ∀ t', t' ∈ s.created → Function.update s.timer t timer t' = s.timer t' := by
    intro t' h
    rw [Function.update_of_ne (ne_of_mem_of_not_mem h ht)]
  refine ⟨?_, hs.pointed, ?_, ?_, ?_, hs.flag, ?_⟩
  · intro e t'
    rw [hs.agree]
    constructor
    · intro ⟨h, he⟩
      exact ⟨h, (congrArg Timer.expiration (hsame t' (hs.active t' h))).trans he⟩
    · intro ⟨h, he⟩
      exact ⟨h, (congrArg Timer.expiration (hsame t' (hs.active t' h))).symm.trans he⟩
  · intro t' h
    exact List.mem_cons_of_mem _ (hs.active t' h)
  · intro t' h
    rcases List.mem_cons.mp h with rfl | h
    · exact ⟨by simp, hactive⟩
    · exact ⟨List.mem_cons_of_mem _ (hs.pending t' h).1, (hs.pending t' h).2⟩
  · exact List.nodup_cons.mpr ⟨fun h => ht (hs.pending t h).1, hs.pending_nodup⟩
  · intro b hb
    refine (hs.batch b hb).of_gone (le_refl _) fun t' hc ha hp => ?_
    refine ⟨List.mem_cons_of_mem _ hc, ha, ?_, congrArg Timer.expiration (hsame t' hc)⟩
    rw [List.mem_cons, not_or]
    exact ⟨ne_of_mem_of_not_mem hc ht, hp⟩

theorem Sound.add (hs : Sound s) (ht : t ∈ s.pending) (fd : Timerfd) :
    Sound { s with
      queue := (s.queue.insert t (s.timer t).expiration).2
      pending := s.pending.erase t
      fd := fd } := by
  obtain ⟨hcreated, hactive⟩ := hs.pending t ht
  have hmem : ∀ t', t' ∈ s.pending.erase t ↔ t' ≠ t ∧ t' ∈ s.pending :=
    fun t' => hs.pending_nodup.mem_erase_iff
  refine ⟨?_, ?_, ?_, ?_, hs.pending_nodup.erase t, hs.flag, ?_⟩
  · intro e t'
    show (e, some t') ∈ s.queue.timers.insert _ ↔ t' ∈ s.queue.active_timers.insert t ∧ _
    rw [OrderedSet.mem_insert, OrderedSet.mem_insert, hs.agree]
    by_cases h : t' = t
    · subst h
      simp [hactive, eq_comm]
    · simp [h]
  · intro x hx
    rcases OrderedSet.mem_insert.mp hx with rfl | hx
    · simp
    · exact hs.pointed x hx
  · intro t' h
    rcases OrderedSet.mem_insert.mp h with rfl | h
    · exact hcreated
    · exact hs.active t' h
  · intro t' h
    obtain ⟨hne, hp⟩ := (hmem t').mp h
    refine ⟨(hs.pending t' hp).1, fun ha => ?_⟩
    rcases OrderedSet.mem_insert.mp ha with heq | ha
    · exact hne heq
    · exact (hs.pending t' hp).2 ha
  · intro b hb
    refine (hs.batch b hb).of_gone (le_refl _) fun t' hc ha hp => ?_
    refine ⟨hc, fun h => ?_, fun h => hp ((hmem t').mp h).2, rfl⟩
    rcases OrderedSet.mem_insert.mp h with heq | h
    · exact hp (heq ▸ ht)
    · exact ha h

theorem Sound.cancel (hs : Sound s) (t : P) : Sound (s.cancelTimer t) := by
  by_cases ht : t ∈ s.queue.active_timers
  · have hq : s.cancelTimer t = { s with queue := { s.queue with
        timers := s.queue.timers.erase ((s.timer t).expiration, some t)
        active_timers := s.queue.active_timers.erase t } } := by
      rw [cancelTimer, TimerQueue.cancelTimer_of_active ht]
    rw [hq]
    refine ⟨?_, ?_, ?_, ?_, hs.pending_nodup, hs.flag, ?_⟩
    · intro e t'
      show (e, some t') ∈ s.queue.timers.erase _ ↔ t' ∈ s.queue.active_timers.erase t ∧ _
      rw [OrderedSet.mem_erase, OrderedSet.mem_erase, hs.agree]
      constructor
      · intro ⟨⟨ha, he⟩, hne⟩
        refine ⟨⟨ha, fun h => hne ?_⟩, he⟩
        rw [← he, h]
      · intro ⟨⟨ha, hne⟩, he⟩
        exact ⟨⟨ha, he⟩, fun h => hne (Option.some.inj (Prod.mk.inj h).2)⟩
    · intro x hx
      exact hs.pointed x (OrderedSet.mem_erase.mp hx).1
    · intro t' h
      exact hs.active t' (OrderedSet.mem_erase.mp h).1
    · intro t' h
      exact ⟨(hs.pending t' h).1, fun ha => (hs.pending t' h).2 (OrderedSet.mem_erase.mp ha).1⟩
    · intro b hb
      exact (hs.batch b hb).of_gone (le_refl _) fun t' hc ha hp =>
        ⟨hc, fun h => ha (OrderedSet.mem_erase.mp h).1, hp, rfl⟩
  · -- at most the set of timers to be cancelled changes
    obtain ⟨canceling, hq⟩ : ∃ c, s.cancelTimer t =
        { s with queue := { s.queue with cancelingTimers := c } } := by
      rw [cancelTimer, TimerQueue.cancelTimer_of_inactive ht]
      split
      · exact ⟨_, rfl⟩
      · exact ⟨s.queue.cancelingTimers, rfl⟩
    rw [hq]
    exact ⟨hs.agree, hs.pointed, hs.active, hs.pending, hs.pending_nodup, hs.flag, fun b hb =>
      (hs.batch b hb).of_gone (le_refl _) fun t' hc ha hp => ⟨hc, ha, hp, rfl⟩⟩

/-- The batch has the entries up to now, and the set keeps the others. -/
theorem Sound.expired_iff (hs : Sound s) (now : Int) :
    (x ∈ (s.queue.getExpired now).1 ↔ x ∈ s.queue.timers ∧ x.1 ≤ now) ∧
      (x ∈ (s.queue.getExpired now).2.timers ↔ x ∈ s.queue.timers ∧ now < x.1) := by
  have hsplit : x ∈ s.queue.timers → (x.1 < now ∨ x.1 = now ∧ x.2 ≠ none ↔ x.1 ≤ now) := by
    intro hx
    have hne := hs.pointed x hx
    constructor
    · intro h
      rcases h with h | h
      · omega
      · exact h.1.le
    · intro h
      rcases Int.lt_or_eq_of_le h with h | h
      · exact .inl h
      · exact .inr ⟨h, hne⟩
  rw [TimerQueue.mem_getExpired_fst, TimerQueue.mem_getExpired_timers]
  constructor
  · exact and_congr_right hsplit
  · refine and_congr_right fun hx => ?_
    rw [hsplit hx, Int.not_le]

theorem Sound.active_iff (hs : Sound s) (now : Int) :
    t ∈ (s.queue.getExpired now).2.active_timers ↔
      t ∈ s.queue.active_timers ∧ now < (s.timer t).expiration := by
  rw [TimerQueue.mem_getExpired_active]
  refine and_congr_right fun ht => ?_
  have hentry : ((s.timer t).expiration, some t) ∈ s.queue.timers := (hs.agree _ t).mpr ⟨ht, rfl⟩
  constructor
  · intro h
    by_contra hle
    exact h _ (((hs.expired_iff now).1).mpr ⟨hentry, by simpa using hle⟩) rfl
  · intro hlt x hx heq
    obtain ⟨hmem, hle⟩ := ((hs.expired_iff now).1).mp hx
    have hx' := hs.eq_of_pointer hmem hentry heq
    rw [hx'] at hle
    exact absurd hlt (by simpa using hle)

theorem Sound.fire (hs : Sound s) : Sound s.fire := by
  refine ⟨?_, ?_, ?_, ?_, hs.pending_nodup, rfl, ?_⟩
  · intro e t
    show (e, some t) ∈ (s.queue.getExpired s.clock).2.timers ↔
      t ∈ (s.queue.getExpired s.clock).2.active_timers ∧ _
    rw [(hs.expired_iff s.clock).2, hs.active_iff, hs.agree]
    constructor
    · intro ⟨⟨ha, he⟩, hlt⟩
      exact ⟨⟨ha, he ▸ hlt⟩, he⟩
    · intro ⟨⟨ha, hlt⟩, he⟩
      have he' : (s.timer t).expiration = e := he
      exact ⟨⟨ha, he'⟩, he' ▸ hlt⟩
  · intro x hx
    exact hs.pointed x ((hs.expired_iff s.clock).2.mp hx).1
  · intro t ht
    exact hs.active t (hs.active_iff s.clock |>.mp ht).1
  · intro t ht
    exact ⟨(hs.pending t ht).1, fun ha =>
      (hs.pending t ht).2 (hs.active_iff s.clock |>.mp ha).1⟩
  · intro b hb
    obtain rfl : (⟨s.clock, (s.queue.getExpired s.clock).1, (s.queue.getExpired s.clock).1⟩ :
      Batch P) = b := Option.some.inj hb
    refine ⟨le_refl _, List.suffix_refl _, ?_, ?_⟩
    · refine List.Nodup.map_on ?_ (OrderedSet.below_nodup _ _)
      intro x hx y hy heq
      exact hs.eq_of_pointer ((hs.expired_iff s.clock).1.mp hx).1
        ((hs.expired_iff s.clock).1.mp hy).1 heq
    · intro x hx
      obtain ⟨hmem, hle⟩ := (hs.expired_iff s.clock).1.mp hx
      obtain ⟨t, hxt, ha, he⟩ := hs.entry hmem
      refine ⟨t, by rw [hxt], hs.active t ha, fun h => ?_, fun h => (hs.pending t h).2 ha, he, hle⟩
      have hlt := ((hs.active_iff s.clock).mp h).2
      rw [he] at hlt
      exact absurd hlt (by simpa using hle)

theorem Sound.start {now : Int} {expired waiting : List (TimerEntry P)} (hs : Sound s)
    (hb : s.batch = some ⟨now, expired, x :: waiting⟩) :
    Sound { s with batch := some ⟨now, expired, waiting⟩ } := by
  have hbs := hs.batch _ hb
  refine ⟨hs.agree, hs.pointed, hs.active, hs.pending, hs.pending_nodup, ?_, ?_⟩
  · rw [hs.flag, hb]
    rfl
  · intro b hb'
    obtain rfl := Option.some.inj hb'
    exact ⟨hbs.now_le, (List.suffix_cons x waiting).trans hbs.waiting, hbs.nodup, hbs.gone⟩

/-- The timers of the batch that `reset` puts back: those that repeat and were not cancelled. -/
def Back (s : TimerLoop P) (expired : List (TimerEntry P)) (t : P) : Prop :=
  (∃ x ∈ expired, x.2 = some t) ∧ (s.timer t).isInterval = true ∧ t ∉ s.queue.cancelingTimers

theorem reset_spec (s : TimerLoop P) (expired : List (TimerEntry P)) (now : Int) :
    TimerQueue.Reset now s.timer { s.queue with is_doing_timer_callback := false }
      (Back s expired) ((s.reset expired now).timer, (s.reset expired now).queue) := by
  obtain ⟨fd, hreset⟩ := s.reset_eq now expired
  rw [hreset]
  exact TimerQueue.foldl_resetOne _ _ _

theorem Sound.finish {now : Int} {expired : List (TimerEntry P)} (hs : Sound s)
    (hb : s.batch = some ⟨now, expired, []⟩) : Sound (s.reset expired now) := by
  have hbs := hs.batch _ hb
  obtain ⟨hr, ho, ht, ha, hc, hf⟩ := reset_spec s expired now
  have hgone : ∀ t, Back s expired t →
      t ∈ s.created ∧ t ∉ s.queue.active_timers ∧ t ∉ s.pending := by
    intro t ⟨⟨x, hx, hxt⟩, _⟩
    obtain ⟨t', hxt', hcr, hac, hpe, -⟩ := hbs.gone x hx
    obtain rfl : t = t' := Option.some.inj (hxt.symm.trans hxt')
    exact ⟨hcr, hac, hpe⟩
  refine ⟨?_, ?_, ?_, ?_, s.reset_pending now expired ▸ hs.pending_nodup, ?_, ?_⟩
  · intro e t
    rw [ht, ha]
    by_cases hback : Back s expired t
    · have hrt : (s.reset expired now).timer t = (s.timer t).restart now := hr t hback
      rw [hrt, Timer.restart_expiration hback.2.1]
      constructor
      · intro h
        rcases h with h | ⟨t', _, heq⟩
        · exact absurd ((hs.agree e t).mp h).1 (hgone t hback).2.1
        · obtain ⟨he, htt⟩ := Prod.mk.inj heq
          obtain rfl : t = t' := Option.some.inj htt
          exact ⟨.inr hback, he.symm⟩
      · intro ⟨_, he⟩
        exact .inr ⟨t, hback, by rw [he]⟩
    · have hrt : (s.reset expired now).timer t = s.timer t := ho t hback
      rw [hrt]
      constructor
      · intro h
        rcases h with h | ⟨t', hb', heq⟩
        · exact ⟨.inl ((hs.agree e t).mp h).1, ((hs.agree e t).mp h).2⟩
        · obtain rfl : t = t' := Option.some.inj (Prod.mk.inj heq).2
          exact absurd hb' hback
      · intro ⟨h, he⟩
        exact .inl ((hs.agree e t).mpr ⟨h.resolve_right hback, he⟩)
  · intro x hx
    rcases (ht x).mp hx with h | ⟨t, _, rfl⟩
    · exact hs.pointed x h
    · simp
  · intro t h
    rw [reset_created]
    rcases (ha t).mp h with h | h
    · exact hs.active t h
    · exact (hgone t h).1
  · intro t h
    rw [reset_pending] at h
    rw [reset_created]
    refine ⟨(hs.pending t h).1, fun hact => ?_⟩
    rcases (ha t).mp hact with hact | hback
    · exact (hs.pending t h).2 hact
    · exact (hgone t hback).2.2 h
  · rw [reset_batch]
    exact hf
  · intro b hb'
    rw [reset_batch] at hb'
    cases hb'

/-- Every event keeps the sets in step. -/
theorem Sound.step {event : TimerEvent P} (hs : Sound s) (h : s.step event = some s') :
    Sound s' := by
  cases event with
  | tick d =>
    rw [step_tick h]
    exact hs.tick d _
  | create t timer =>
    obtain ⟨ht, rfl⟩ := step_create h
    exact hs.create ht timer
  | add t =>
    obtain ⟨ht, rfl⟩ := step_add h
    obtain ⟨fd, hadd⟩ := s.addTimer_eq t
    rw [hadd]
    exact hs.add ht fd
  | cancel t =>
    obtain ⟨-, rfl⟩ := step_cancel h
    exact hs.cancel t
  | fire =>
    obtain ⟨-, rfl⟩ := step_fire h
    exact hs.fire
  | start t =>
    obtain ⟨now, expired, e, waiting, hb, rfl⟩ := step_start h
    exact hs.start hb
  | finish =>
    obtain ⟨now, expired, hb, rfl⟩ := step_finish h
    exact hs.finish hb

end MuduoServer.TimerLoop
