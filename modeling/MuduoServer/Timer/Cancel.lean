import MuduoServer.Timer.Discipline

namespace MuduoServer.TimerLoop

variable {P : Type*} [LinearOrder P]

/-- A cancel finds its timer added, and not among those of the batch that are still to be run. -/
def Timely (s : TimerLoop P) : TimerEvent P → Prop
  | .cancel t => t ∉ s.pending ∧ ∀ b ∈ s.batch, ∀ x ∈ b.waiting, x.2 ≠ some t
  | _ => True

instance (s : TimerLoop P) : (event : TimerEvent P) → Decidable (Timely s event)
  | .cancel t => inferInstanceAs
    (Decidable (t ∉ s.pending ∧ ∀ b ∈ s.batch, ∀ x ∈ b.waiting, x.2 ≠ some t))
  | .tick _ | .create _ _ | .add _ | .fire | .start _ | .finish => instDecidableTrue

/-- A timer that no event can start: it is in no set and not to be run, and if it is one of the
batch then `reset` does not put it back. -/
structure Silent (s : TimerLoop P) (t : P) : Prop where
  created : t ∈ s.created
  pending : t ∉ s.pending
  active : t ∉ s.queue.active_timers
  waiting : ∀ b, s.batch = some b → ∀ x ∈ b.waiting, x.2 ≠ some t
  back : ∀ b, s.batch = some b → ¬ Back s b.expired t

variable {s s' : TimerLoop P} {t : P} {event : TimerEvent P}

theorem silent_of_cancel (hs : Sound s) (ht : Timely s (.cancel t))
    (h : s.step (.cancel t) = some s') : Silent s' t := by
  obtain ⟨hcreated, rfl⟩ := step_cancel h
  by_cases hact : t ∈ s.queue.active_timers
  · have hq : (s.cancelTimer t).queue = { s.queue with
        timers := s.queue.timers.erase ((s.timer t).expiration, some t)
        active_timers := s.queue.active_timers.erase t } :=
      TimerQueue.cancelTimer_of_active hact _
    refine ⟨hcreated, ht.1, ?_, ht.2, ?_⟩
    · rw [hq, OrderedSet.mem_erase]
      exact fun h => h.2 rfl
    · -- an active timer is not of the batch
      intro b hb ⟨⟨x, hx, hxt⟩, _⟩
      obtain ⟨t', hxt', -, hnot, -⟩ := (hs.batch b hb).gone x hx
      obtain rfl : t = t' := Option.some.inj (hxt.symm.trans hxt')
      exact hnot hact
  · refine ⟨hcreated, ht.1, fun h => hact (TimerQueue.active_of_cancelTimer h), ht.2, ?_⟩
    · intro b hb ⟨_, _, hnot⟩
      have hb' : s.batch = some b := hb
      have hflag : s.queue.is_doing_timer_callback = true := by
        rw [hs.flag, hb']
        rfl
      rw [cancelTimer, TimerQueue.cancelTimer_of_inactive hact, if_pos hflag] at hnot
      exact hnot (OrderedSet.mem_insert.mpr (.inl rfl))

theorem Silent.step (hs : Sound s) (hsl : Silent s t) (h : s.step event = some s') :
    Silent s' t ∧ event ≠ .start t := by
  cases event with
  | tick d =>
    rw [step_tick h]
    exact ⟨⟨hsl.created, hsl.pending, hsl.active, hsl.waiting, hsl.back⟩, by simp⟩
  | create t' timer =>
    obtain ⟨ht', rfl⟩ := step_create h
    have hne : t ≠ t' := fun heq => ht' (heq ▸ hsl.created)
    refine ⟨⟨List.mem_cons_of_mem _ hsl.created, ?_, hsl.active, hsl.waiting, ?_⟩, by simp⟩
    · rw [List.mem_cons, not_or]
      exact ⟨hne, hsl.pending⟩
    · intro b hb ⟨hx, hi, hnot⟩
      have hsame := congrArg Timer.isInterval (Function.update_of_ne hne timer s.timer)
      have hi' := hsame.symm.trans hi
      exact hsl.back b hb ⟨hx, hi', hnot⟩
  | add t' =>
    obtain ⟨ht', rfl⟩ := step_add h
    obtain ⟨fd, hadd⟩ := s.addTimer_eq t'
    rw [hadd]
    refine ⟨⟨hsl.created, ?_, ?_, hsl.waiting, hsl.back⟩, by simp⟩
    · exact fun hm => hsl.pending (List.mem_of_mem_erase hm)
    · intro hm
      rcases OrderedSet.mem_insert.mp hm with rfl | hm
      · exact hsl.pending ht'
      · exact hsl.active hm
  | cancel t' =>
    obtain ⟨-, rfl⟩ := step_cancel h
    refine ⟨⟨hsl.created, hsl.pending, ?_, hsl.waiting, ?_⟩, by simp⟩
    · exact fun hm => hsl.active (TimerQueue.active_of_cancelTimer hm)
    · intro b hb ⟨hx, hi, hnot⟩
      exact hsl.back b hb ⟨hx, hi, fun hm => hnot (TimerQueue.canceling_cancelTimer hm)⟩
  | fire =>
    obtain ⟨-, rfl⟩ := step_fire h
    have hout : ∀ x ∈ (s.queue.getExpired s.clock).1, x.2 ≠ some t := by
      intro x hx hxt
      obtain ⟨t', hxt', hact, -⟩ := hs.entry ((hs.expired_iff s.clock).1.mp hx).1
      rw [hxt'] at hxt
      exact hsl.active (Option.some.inj hxt ▸ hact)
    refine ⟨⟨hsl.created, hsl.pending, ?_, ?_, ?_⟩, by simp⟩
    · exact fun hm => hsl.active ((hs.active_iff s.clock).mp hm).1
    · intro b hb
      obtain rfl := Option.some.inj hb
      exact hout
    · intro b hb ⟨⟨x, hx, hxt⟩, _⟩
      obtain rfl := Option.some.inj hb
      exact hout x hx hxt
  | start t' =>
    obtain ⟨now, expired, e, waiting, hb, rfl⟩ := step_start h
    have hne : t' ≠ t := fun heq => hsl.waiting _ hb (e, some t') (by simp) (by rw [heq])
    refine ⟨⟨hsl.created, hsl.pending, hsl.active, ?_, ?_⟩, by simpa using hne⟩
    · intro b hb' x hx
      obtain rfl := Option.some.inj hb'
      exact hsl.waiting _ hb x (List.mem_cons_of_mem _ hx)
    · intro b hb'
      obtain rfl := Option.some.inj hb'
      have hback := hsl.back _ hb
      exact hback
  | finish =>
    obtain ⟨now, expired, hb, rfl⟩ := step_finish h
    obtain ⟨-, -, -, ha, -, -⟩ := reset_spec s expired now
    refine ⟨⟨?_, ?_, ?_, ?_, ?_⟩, by simp⟩
    · rw [reset_created]
      exact hsl.created
    · rw [reset_pending]
      exact hsl.pending
    · intro hm
      rcases (ha t).mp hm with hm | hm
      · exact hsl.active hm
      · exact hsl.back _ hb hm
    · intro b hb'
      rw [reset_batch] at hb'
      cases hb'
    · intro b hb'
      rw [reset_batch] at hb'
      cases hb'

/-- Some way to go on from here starts the timer. -/
def CanStart (s : TimerLoop P) (t : P) : Prop :=
  ∃ after s', Run (fun s event s' => s.step event = some s') s after s' ∧ .start t ∈ after

theorem CanStart.of_step (hstep : s.step event = some s') (h : CanStart s' t) : CanStart s t := by
  obtain ⟨after, s'', hrun, hmem⟩ := h
  exact ⟨event :: after, s'', Run.cons hstep hrun, List.mem_cons_of_mem _ hmem⟩

section Batch

variable {now : Int} {expired waiting : List (TimerEntry P)}

theorem step_next {x : TimerEntry P} (hs : Sound s)
    (hb : s.batch = some ⟨now, expired, x :: waiting⟩) :
    ∃ t, x.2 = some t ∧
      s.step (.start t) = some { s with batch := some ⟨now, expired, waiting⟩ } := by
  have hbs := hs.batch _ hb
  obtain ⟨t, hxt, -⟩ := hbs.gone x (hbs.waiting.subset (by simp))
  obtain ⟨e, p⟩ := x
  obtain rfl : p = some t := hxt
  refine ⟨t, rfl, ?_⟩
  rw [step, hb]
  exact if_pos rfl

/-- The timers of a batch are started one after another. -/
theorem canStart_of_waiting (hs : Sound s) (hb : s.batch = some ⟨now, expired, waiting⟩)
    (hx : ∃ x ∈ waiting, x.2 = some t) : CanStart s t := by
  induction waiting generalizing s with
  | nil =>
    obtain ⟨x, hx, -⟩ := hx
    cases hx
  | cons y waiting ih =>
    obtain ⟨x, hx, hxt⟩ := hx
    obtain ⟨t', hyt, hstep⟩ := step_next hs hb
    rcases List.mem_cons.mp hx with rfl | hx
    · obtain rfl : t = t' := Option.some.inj (hxt.symm.trans hyt)
      exact ⟨[.start t], _, .snoc (.nil s) hstep, by simp⟩
    · exact .of_step hstep (ih (hs.start hb) rfl ⟨x, hx, hxt⟩)

/-- Time passes until the timer has expired. -/
theorem canStart_of_idle (hs : Sound s) (hb : s.batch = none)
    (ht : t ∈ s.queue.active_timers) : CanStart s t := by
  obtain ⟨d, hd⟩ : ∃ d : Nat, (s.timer t).expiration ≤ s.clock + d :=
    ⟨((s.timer t).expiration - s.clock).toNat, by omega⟩
  have htick : s.step (.tick d) =
      some { s with clock := s.clock + d, fd := s.fd.elapse (s.clock + d) } := rfl
  have hs₁ := hs.step htick
  have hfire : ∀ {s : TimerLoop P}, s.batch = none → s.step .fire = some s.fire := by
    intro s hb
    rw [step, hb]
  have hentry : ((s.timer t).expiration, some t) ∈ (s.queue.getExpired (s.clock + d)).1 :=
    (hs.expired_iff _).1.mpr ⟨(hs.agree _ t).mpr ⟨ht, rfl⟩, hd⟩
  exact .of_step htick (.of_step (hfire hb)
    (canStart_of_waiting hs₁.fire rfl ⟨_, hentry, rfl⟩))

/-- A batch comes to its end, and leaves the timers that are in the sets. -/
theorem canStart_of_active (hs : Sound s) (ht : t ∈ s.queue.active_timers) : CanStart s t := by
  cases hb : s.batch with
  | none => exact canStart_of_idle hs hb ht
  | some b =>
    obtain ⟨now, expired, waiting⟩ := b
    induction waiting generalizing s with
    | nil =>
      have hfinish : s.step .finish = some (s.reset expired now) := by rw [step, hb]
      refine .of_step hfinish (canStart_of_idle (hs.finish hb) (s.reset_batch now expired) ?_)
      exact ((reset_spec s expired now).active t).mpr (.inl ht)
    | cons y waiting ih =>
      obtain ⟨t', -, hstep⟩ := step_next hs hb
      exact .of_step hstep (ih (hs.start hb) ht rfl)

end Batch

/-- A cancel that is not timely is lost: the timer can still be started. -/
theorem canStart_of_not_timely (hs : Sound s) (ht : ¬ Timely s (.cancel t))
    (h : s.step (.cancel t) = some s') : CanStart s' t := by
  obtain ⟨-, rfl⟩ := step_cancel h
  have hs' := hs.cancel t
  by_cases hp : t ∈ s.pending
  · have hadd : (s.cancelTimer t).step (.add t) = some ((s.cancelTimer t).addTimer t) := if_pos hp
    refine .of_step hadd (canStart_of_active (hs'.step hadd) ?_)
    obtain ⟨fd, heq⟩ := (s.cancelTimer t).addTimer_eq t
    rw [heq]
    exact OrderedSet.mem_insert.mpr (.inl rfl)
  · have hwaits : ∃ b, s.batch = some b ∧ ∃ x ∈ b.waiting, x.2 = some t := by
      simpa [Timely, hp] using ht
    obtain ⟨⟨now, expired, waiting⟩, hb, hx⟩ := hwaits
    exact canStart_of_waiting hs' hb hx

/-- In a run whose cancels all find their timers added, and not waiting to be run, a cancelled
timer is never started again; after the first cancel that does not, it can be. -/
theorem cancelled_stays_silent {clock : Int} {events : List (TimerEvent P)}
    (h : Run (fun s event s' => Timely s event ∧ s.step event = some s') (init clock) events s) :
    (∀ (t : P) (before after : List (TimerEvent P)),
      events = before ++ .cancel t :: after → .start t ∉ after) ∧
    ∀ (t : P) (s' : TimerLoop P), s.step (.cancel t) = some s' → ¬ Timely s (.cancel t) →
      CanStart s' t := by
  have hinv : Sound s ∧ ∀ (t : P) (before after : List (TimerEvent P)),
      events = before ++ .cancel t :: after → Silent s t ∧ .start t ∉ after := by
    apply h.invariant (fun events s => Sound s ∧ ∀ (t : P) (before after : List (TimerEvent P)),
      events = before ++ .cancel t :: after → Silent s t ∧ .start t ∉ after)
    · refine ⟨sound_init clock, ?_⟩
      intro t before after hnil
      simp at hnil
    · intro events s event s' ⟨hs, hall⟩ ⟨htimely, hstep⟩
      refine ⟨hs.step hstep, ?_⟩
      intro t before after hev
      rcases List.eq_nil_or_concat after with rfl | ⟨after, last, rfl⟩
      · -- the cancel is the event that just happened
        obtain ⟨-, rfl⟩ := List.append_singleton_inj.mp hev
        exact ⟨silent_of_cancel hs htimely hstep, List.not_mem_nil⟩
      · rw [List.concat_eq_append, ← List.cons_append, ← List.append_assoc] at hev
        obtain ⟨hev', rfl⟩ := List.append_singleton_inj.mp hev
        obtain ⟨hsl, hnot⟩ := hall t before after hev'
        obtain ⟨hsl', hne⟩ := hsl.step hs hstep
        refine ⟨hsl', ?_⟩
        rw [List.concat_eq_append, List.mem_append, List.mem_singleton, not_or]
        exact ⟨hnot, hne.symm⟩
  refine ⟨?_, ?_⟩
  · intro t before after heq
    exact (hinv.2 t before after heq).2
  · intro t s' hstep htimely
    exact canStart_of_not_timely hinv.1 htimely hstep

/-- A timer that repeats cancels itself in its callback. -/
theorem cancelled_stays_silent_self :
    ∃ (after : List (TimerEvent Nat)) (s : TimerLoop Nat),
      Run (fun s event s' => Timely s event ∧ s.step event = some s') (init 0)
        ([.create 1 ⟨5, true, 5, by decide⟩, .add 1, .tick 10, .fire, .start 1] ++
          .cancel 1 :: after) s ∧
      after.count .fire = 1 ∧ .start 1 ∉ after := by
  obtain ⟨s, hrun, -⟩ := Run.exists_of_guarded (g := fun _ : TimerLoop Nat => ())
    (f := fun s event => s.step event) (p := Timely) (s := init 0)
    (l := [.create 1 ⟨5, true, 5, by decide⟩, .add 1, .tick 10, .fire, .start 1, .cancel 1,
      .finish, .tick 10, .fire, .finish])
    (a := ()) (by decide +kernel)
  exact ⟨_, s, hrun, by decide, (cancelled_stays_silent hrun).1 1 [_, _, _, _, _] _ rfl⟩

/-- Two timers expire in one batch, and the callback of the first cancels the second. It is run all
the same. -/
theorem cancelled_in_batch_starts :
    ∃ (events before after : List (TimerEvent Nat)) (t : Nat) (s : TimerLoop Nat),
      Runs 0 events s ∧ events = before ++ .cancel t :: after ∧ .start t ∈ after := by
  obtain ⟨s, hrun, -⟩ := Run.exists_of_guarded (g := fun _ : TimerLoop Nat => ())
    (f := fun s event => s.step event) (p := fun _ _ => True) (s := init 0)
    (l := [.create 1 ⟨5, false, 0, by decide⟩, .add 1, .create 2 ⟨5, false, 0, by decide⟩, .add 2,
      .tick 10, .fire, .start 1, .cancel 2, .start 2, .finish])
    (a := ()) (by decide +kernel)
  exact ⟨_, [_, _, _, _, _, _, _], [.start 2, .finish], 2, s, hrun.mono fun _ _ _ h => h.2, rfl,
    by simp⟩

end MuduoServer.TimerLoop
