import MuduoServer.Timer.Discipline

namespace MuduoServer.TimerLoop

variable {P : Type*} [LinearOrder P]

/-- A timer whose callback may still be started without its being put back. -/
def Ahead (s : TimerLoop P) (t : P) : Prop :=
  t ∈ s.pending ∨ t ∈ s.queue.active_timers ∨
    ∃ b, s.batch = some b ∧ ∃ x ∈ b.waiting, x.2 = some t

/-- How often the callback of a one-shot timer was started. -/
structure Starts (events : List (TimerEvent P)) (s : TimerLoop P) : Prop where
  fresh : ∀ t, t ∉ s.created → events.count (.start t) = 0
  once : ∀ t, (s.timer t).isInterval = false → events.count (.start t) ≤ 1
  ahead : ∀ t, (s.timer t).isInterval = false → Ahead s t → events.count (.start t) = 0

/-- The events since the last batch began. -/
def sinceFire (events : List (TimerEvent P)) : List (TimerEvent P) :=
  events.rtakeWhile fun event => event ≠ .fire

/-- `cancelingTimers_` has the timers of the batch that were cancelled during it. -/
def Cancels (events : List (TimerEvent P)) (s : TimerLoop P) : Prop :=
  ∀ b, s.batch = some b → ∀ x ∈ b.expired, ∀ t, x.2 = some t →
    (t ∈ s.queue.cancelingTimers ↔ .cancel t ∈ sinceFire events)

variable {s s' : TimerLoop P} {events : List (TimerEvent P)} {event : TimerEvent P} {t : P}

theorem count_start_append (h : event ≠ .start t) :
    (events ++ [event]).count (.start t) = events.count (.start t) := by
  rw [List.count_append, List.count_singleton]
  simp [h]

/-- An event that starts no callback, and puts no one-shot timer back. -/
theorem Starts.keep (hst : Starts events s) (hev : ∀ t, event ≠ .start t)
    (hcreated : ∀ t, t ∈ s.created → t ∈ s'.created)
    (hinterval : ∀ t, t ∈ s.created → (s'.timer t).isInterval = (s.timer t).isInterval)
    (hahead : ∀ t, t ∈ s.created → (s.timer t).isInterval = false → Ahead s' t → Ahead s t) :
    Starts (events ++ [event]) s' := by
  refine ⟨?_, ?_, ?_⟩
  · intro t ht
    rw [count_start_append (hev t)]
    exact hst.fresh t fun h => ht (hcreated t h)
  · intro t hi
    rw [count_start_append (hev t)]
    by_cases ht : t ∈ s.created
    · exact hst.once t ((hinterval t ht).symm.trans hi)
    · rw [hst.fresh t ht]
      exact Nat.zero_le 1
  · intro t hi ha
    rw [count_start_append (hev t)]
    by_cases ht : t ∈ s.created
    · have hi' := (hinterval t ht).symm.trans hi
      exact hst.ahead t hi' (hahead t ht hi' ha)
    · exact hst.fresh t ht

theorem Starts.start {now : Int} {expired waiting : List (TimerEntry P)} {e : Int}
    (hst : Starts events s) (hs : Sound s)
    (hb : s.batch = some ⟨now, expired, (e, some t) :: waiting⟩) :
    Starts (events ++ [.start t]) { s with batch := some ⟨now, expired, waiting⟩ } := by
  have hbs := hs.batch _ hb
  have hmem : (e, some t) ∈ expired := hbs.waiting.subset (by simp)
  obtain ⟨t', hxt, hcreated, hactive, hpending, -⟩ := hbs.gone _ hmem
  obtain rfl : t = t' := Option.some.inj hxt
  have hnot : ∀ x ∈ waiting, x.2 ≠ some t := by
    intro x hx heq
    have hnd : (((e, some t) :: waiting).map Prod.snd).Nodup :=
      hbs.nodup.sublist (hbs.waiting.sublist.map Prod.snd)
    rw [List.map_cons, List.nodup_cons] at hnd
    exact hnd.1 (List.mem_map.mpr ⟨x, hx, heq⟩)
  have hone : (events ++ [TimerEvent.start t]).count (TimerEvent.start t) =
      events.count (TimerEvent.start t) + 1 := by
    rw [List.count_append, List.count_singleton_self]
  have hahead : Ahead s t := .inr (.inr ⟨_, hb, (e, some t), by simp, rfl⟩)
  refine ⟨?_, ?_, ?_⟩
  · intro t' ht'
    have hne : t ≠ t' := fun h => ht' (h ▸ hcreated)
    rw [count_start_append (by simpa using hne)]
    exact hst.fresh t' ht'
  · intro t' hi
    by_cases heq : t = t'
    · subst heq
      rw [hone, hst.ahead t hi hahead]
    · rw [count_start_append (by simpa using heq)]
      exact hst.once t' hi
  · intro t' hi ha
    by_cases heq : t = t'
    · -- the timer was waiting, and is nowhere now
      subst heq
      rcases ha with h | h | ⟨b, hb', x, hx, hxt⟩
      · exact absurd h hpending
      · exact absurd h hactive
      · obtain rfl := Option.some.inj hb'
        exact absurd hxt (hnot x hx)
    · rw [count_start_append (by simpa using heq)]
      apply hst.ahead t' hi
      rcases ha with h | h | ⟨b, hb', x, hx, hxt⟩
      · exact .inl h
      · exact .inr (.inl h)
      · obtain rfl := Option.some.inj hb'
        exact .inr (.inr ⟨_, hb, x, List.mem_cons_of_mem _ hx, hxt⟩)

theorem Starts.step (hst : Starts events s) (hs : Sound s) (h : s.step event = some s') :
    Starts (events ++ [event]) s' := by
  cases event with
  | tick d =>
    rw [step_tick h]
    exact hst.keep (by simp) (fun _ => id) (fun _ _ => rfl) (fun _ _ _ => id)
  | create t timer =>
    obtain ⟨ht, rfl⟩ := step_create h
    refine hst.keep (by simp) (fun _ => List.mem_cons_of_mem _) ?_ ?_
    · intro t' ht'
      exact congrArg Timer.isInterval (Function.update_of_ne (ne_of_mem_of_not_mem ht' ht) _ _)
    · intro t' ht' _ ha
      rcases ha with hp | hrest
      · rcases List.mem_cons.mp hp with rfl | hp
        · exact absurd ht' ht
        · exact .inl hp
      · exact .inr hrest
  | add t =>
    obtain ⟨ht, rfl⟩ := step_add h
    obtain ⟨fd, hadd⟩ := s.addTimer_eq t
    rw [hadd]
    refine hst.keep (by simp) (fun _ => id) (fun _ _ => rfl) ?_
    intro t' _ _ ha
    rcases ha with hp | hact | hb
    · exact .inl (List.mem_of_mem_erase hp)
    · rcases OrderedSet.mem_insert.mp hact with rfl | hact
      · exact .inl ht
      · exact .inr (.inl hact)
    · exact .inr (.inr hb)
  | cancel t =>
    obtain ⟨-, rfl⟩ := step_cancel h
    refine hst.keep (by simp) (fun _ => id) (fun _ _ => rfl) ?_
    intro t' _ _ ha
    rcases ha with hp | hact | hb
    · exact .inl hp
    · exact .inr (.inl (TimerQueue.active_of_cancelTimer hact))
    · exact .inr (.inr hb)
  | fire =>
    obtain ⟨-, rfl⟩ := step_fire h
    refine hst.keep (by simp) (fun _ => id) (fun _ _ => rfl) ?_
    intro t' _ _ ha
    rcases ha with hp | hact | ⟨b, hb, x, hx, hxt⟩
    · exact .inl hp
    · exact .inr (.inl ((hs.active_iff s.clock).mp hact).1)
    · obtain rfl := Option.some.inj hb
      have hmem := ((hs.expired_iff s.clock).1.mp hx).1
      obtain ⟨t, hxt', hact, -⟩ := hs.entry hmem
      rw [hxt'] at hxt
      obtain rfl : t = t' := Option.some.inj hxt
      exact .inr (.inl hact)
  | start t =>
    obtain ⟨now, expired, e, waiting, hb, rfl⟩ := step_start h
    exact hst.start hs hb
  | finish =>
    obtain ⟨now, expired, hb, rfl⟩ := step_finish h
    obtain ⟨hr, ho, -, ha, -, -⟩ := reset_spec s expired now
    refine hst.keep (by simp) (fun _ h => (s.reset_created now expired).symm ▸ h) ?_ ?_
    · intro t _
      by_cases hback : Back s expired t
      · rw [show (s.reset expired now).timer t = (s.timer t).restart now from hr t hback,
          Timer.restart_isInterval]
      · rw [show (s.reset expired now).timer t = s.timer t from ho t hback]
    · intro t _ hi hahead
      rcases hahead with hp | hact | ⟨b, hb', -⟩
      · exact .inl (s.reset_pending now expired ▸ hp)
      · rcases (ha t).mp hact with hact | hback
        · exact .inr (.inl hact)
        · rw [hback.2.1] at hi
          cases hi
      · rw [reset_batch] at hb'
        cases hb'

theorem sinceFire_append (hev : event ≠ .fire) :
    sinceFire (events ++ [event]) = sinceFire events ++ [event] :=
  List.rtakeWhile_concat_pos _ _ _ (by simpa using hev)

theorem mem_sinceFire_append (hev : event ≠ .fire) (hne : event ≠ .cancel t) :
    .cancel t ∈ sinceFire (events ++ [event]) ↔ .cancel t ∈ sinceFire events := by
  rw [sinceFire_append hev, List.mem_append, List.mem_singleton, or_iff_left hne.symm]

/-- An event that is no cancel, and leaves the batch and the timers to be cancelled. -/
theorem Cancels.keep (hc : Cancels events s) (hev : event ≠ .fire)
    (hne : ∀ t, event ≠ .cancel t)
    (hbatch : ∀ b', s'.batch = some b' → ∃ b, s.batch = some b ∧ b'.expired = b.expired)
    (hcanceling : s'.queue.cancelingTimers = s.queue.cancelingTimers) :
    Cancels (events ++ [event]) s' := by
  intro b' hb' x hx t hxt
  obtain ⟨b, hb, hexp⟩ := hbatch b' hb'
  rw [hcanceling, mem_sinceFire_append hev (hne t)]
  exact hc b hb x (hexp ▸ hx) t hxt

theorem Cancels.step (hc : Cancels events s) (hs : Sound s) (h : s.step event = some s') :
    Cancels (events ++ [event]) s' := by
  cases event with
  | tick d =>
    rw [step_tick h]
    exact hc.keep (by simp) (by simp) (fun b hb => ⟨b, hb, rfl⟩) rfl
  | create t timer =>
    obtain ⟨-, rfl⟩ := step_create h
    exact hc.keep (by simp) (by simp) (fun b hb => ⟨b, hb, rfl⟩) rfl
  | add t =>
    obtain ⟨-, rfl⟩ := step_add h
    obtain ⟨fd, hadd⟩ := s.addTimer_eq t
    rw [hadd]
    exact hc.keep (by simp) (by simp) (fun b hb => ⟨b, hb, rfl⟩) rfl
  | cancel t =>
    obtain ⟨-, rfl⟩ := step_cancel h
    intro b hb x hx t' hxt
    have hmem : TimerEvent.cancel t' ∈ sinceFire (events ++ [TimerEvent.cancel t]) ↔
        TimerEvent.cancel t' ∈ sinceFire events ∨ t' = t := by
      rw [sinceFire_append (by simp), List.mem_append, List.mem_singleton,
        TimerEvent.cancel.injEq]
    rw [hmem, ← hc b hb x hx t' hxt]
    -- a timer of the batch is not active, and its cancel is remembered
    obtain ⟨t'', hxt', -, hact, -⟩ := (hs.batch b hb).gone x hx
    obtain rfl : t' = t'' := Option.some.inj (hxt.symm.trans hxt')
    have hflag : s.queue.is_doing_timer_callback = true := by
      have hb' : s.batch = some b := hb
      rw [hs.flag, hb']
      rfl
    show t' ∈ (s.queue.cancelTimer t (s.timer t).expiration).cancelingTimers ↔ _
    by_cases ht : t ∈ s.queue.active_timers
    · rw [TimerQueue.cancelTimer_of_active ht, or_iff_left]
      exact fun h => hact (h ▸ ht)
    · rw [TimerQueue.cancelTimer_of_inactive ht, if_pos hflag, OrderedSet.mem_insert, or_comm]
  | fire =>
    obtain ⟨-, rfl⟩ := step_fire h
    intro b hb x hx t hxt
    have hnil : sinceFire (events ++ [TimerEvent.fire (P := P)]) = [] :=
      List.rtakeWhile_concat_neg _ _ _ (by simp)
    rw [hnil]
    exact iff_of_false (OrderedSet.notMem_empty t) List.not_mem_nil
  | start t =>
    obtain ⟨now, expired, e, waiting, hb, rfl⟩ := step_start h
    refine hc.keep (by simp) (by simp) (fun b hb' => ?_) rfl
    obtain rfl := Option.some.inj hb'
    exact ⟨_, hb, rfl⟩
  | finish =>
    obtain ⟨now, expired, hb, rfl⟩ := step_finish h
    intro b hb'
    rw [reset_batch] at hb'
    cases hb'

/-- What holds of every run. -/
structure Reached (events : List (TimerEvent P)) (s : TimerLoop P) : Prop where
  sound : Sound s
  starts : Starts events s
  cancels : Cancels events s

theorem reached_of_runs {clock : Int} (h : Runs clock events s) : Reached events s := by
  apply h.invariant Reached
  · refine ⟨sound_init clock, ⟨fun _ _ => rfl, fun _ _ => Nat.zero_le 1, fun _ _ _ => rfl⟩, ?_⟩
    intro b hb
    cases hb
  · intro events s event s' hr hstep
    exact ⟨hr.sound.step hstep, hr.starts.step hr.sound hstep, hr.cancels.step hr.sound hstep⟩

/-- The timers of a batch after it: those that repeat and were not cancelled during it are back in
both sets, an interval after the batch began, and the others are in neither. -/
theorem batch_finished {b : Batch P} (hr : Reached events s) (h : s.step .finish = some s')
    (hb : s.batch = some b) (ht : ∃ x ∈ b.expired, x.2 = some t) :
    if (s.timer t).isInterval = true ∧ .cancel t ∉ sinceFire events then
      (s'.timer t).expiration = b.now + (s.timer t).interval ∧
        (b.now + (s.timer t).interval, some t) ∈ s'.queue.timers ∧ t ∈ s'.queue.active_timers
    else t ∉ s'.queue.active_timers ∧ ∀ e, (e, some t) ∉ s'.queue.timers := by
  obtain ⟨now, expired, hb', rfl⟩ := step_finish h
  obtain rfl := Option.some.inj (hb.symm.trans hb')
  obtain ⟨x, hx, hxt⟩ := ht
  obtain ⟨hrs, -, hts, ha, -, -⟩ := reset_spec s expired now
  have hback : Back s expired t ↔
      (s.timer t).isInterval = true ∧ .cancel t ∉ sinceFire events := by
    rw [← hr.cancels _ hb x hx t hxt]
    exact ⟨fun h => h.2, fun h => ⟨⟨x, hx, hxt⟩, h⟩⟩
  split_ifs with hif
  · have hbk := hback.mpr hif
    refine ⟨?_, (hts _).mpr (.inr ⟨t, hbk, rfl⟩), (ha t).mpr (.inr hbk)⟩
    rw [show (s.reset expired now).timer t = (s.timer t).restart now from hrs t hbk,
      Timer.restart_expiration hif.1]
  · have hbk : ¬ Back s expired t := fun h => hif (hback.mp h)
    obtain ⟨t', hxt', -, hact, -⟩ := (hr.sound.batch _ hb).gone x hx
    obtain rfl : t = t' := Option.some.inj (hxt.symm.trans hxt')
    have hnot : t ∉ (s.reset expired now).queue.active_timers := by
      intro h
      rcases (ha t).mp h with h | h
      · exact hact h
      · exact hbk h
    refine ⟨hnot, fun e he => hnot ?_⟩
    exact (((hr.sound.step h).agree e t).mp he).1

/-- What a timer queue owes its users, in a state and for the next event. -/
structure Disciplined (events : List (TimerEvent P)) (s : TimerLoop P) : Prop where
  agree : ∀ e t, (e, some t) ∈ s.queue.timers ↔
    t ∈ s.queue.active_timers ∧ (s.timer t).expiration = e
  pointed : ∀ x ∈ s.queue.timers, x.2 ≠ none
  nodup : (s.queue.timers.elems.map Prod.snd).Nodup
  expired : ∀ s', s.step .fire = some s' → ∃ b, s'.batch = some b ∧ b.now = s.clock ∧
    (∀ x, x ∈ b.expired ↔ x ∈ s.queue.timers ∧ x.1 ≤ b.now) ∧
    (∀ x, x ∈ s'.queue.timers ↔ x ∈ s.queue.timers ∧ b.now < x.1)
  not_early : ∀ t s', s.step (.start t) = some s' → (s.timer t).expiration ≤ s.clock
  one_shot : ∀ t, (s.timer t).isInterval = false → events.count (.start t) ≤ 1
  finished : ∀ s' b, s.step .finish = some s' → s.batch = some b →
    ∀ t, (∃ x ∈ b.expired, x.2 = some t) →
      if (s.timer t).isInterval = true ∧ .cancel t ∉ sinceFire events then
        (s'.timer t).expiration = b.now + (s.timer t).interval ∧
          (b.now + (s.timer t).interval, some t) ∈ s'.queue.timers ∧ t ∈ s'.queue.active_timers
      else t ∉ s'.queue.active_timers ∧ ∀ e, (e, some t) ∉ s'.queue.timers

/-- In every state of every run the two sets have the same timers, each once and at its expiration;
a batch takes out exactly what has expired; no callback is started before the expiration of its
timer, and that of a one-shot timer at most once; and after a batch exactly those of its timers
that repeat and were not cancelled meanwhile are back. -/
theorem timer_discipline {clock : Int} (h : Runs clock events s) : Disciplined events s := by
  have hr := reached_of_runs h
  have hs := hr.sound
  refine ⟨hs.agree, hs.pointed, ?_, ?_, ?_, hr.starts.once, ?_⟩
  · exact List.Nodup.map_on (fun x hx y hy => hs.eq_of_pointer hx hy) s.queue.timers.nodup
  · intro s' hfire
    obtain ⟨-, rfl⟩ := step_fire hfire
    exact ⟨_, rfl, rfl, fun x => (hs.expired_iff s.clock).1, fun x => (hs.expired_iff s.clock).2⟩
  · intro t s' hstart
    obtain ⟨now, expired, e, waiting, hb, -⟩ := step_start hstart
    have hbs := hs.batch _ hb
    obtain ⟨t', hxt, -, -, -, he, hle⟩ := hbs.gone (e, some t) (hbs.waiting.subset (by simp))
    obtain rfl : t = t' := Option.some.inj hxt
    rw [he]
    exact hle.trans hbs.now_le
  · intro s' b hfinish hb t ht
    exact batch_finished hr hfinish hb ht

/-- A one-shot timer and one that repeats expire in one batch; the second is back after it. -/
theorem timer_discipline_batch :
    ∃ (events : List (TimerEvent Nat)) (s : TimerLoop Nat),
      Disciplined events s ∧ s.queue.timers.elems = [(350, some 2)] := by
  obtain ⟨s, hrun, hs⟩ := Run.exists_of_guarded
    (g := fun s : TimerLoop Nat => s.queue.timers.elems)
    (f := fun s event => s.step event) (p := fun _ _ => True) (s := init 0)
    (l := [.create 1 ⟨100, false, 0, by decide⟩, .add 1, .create 2 ⟨50, true, 200, by decide⟩,
      .add 2, .tick 150, .fire, .start 2, .tick 1, .start 1, .finish])
    (a := [(350, some 2)]) (by decide +kernel)
  exact ⟨_, s, timer_discipline (hrun.mono fun _ _ _ h => h.2), hs⟩

end MuduoServer.TimerLoop
