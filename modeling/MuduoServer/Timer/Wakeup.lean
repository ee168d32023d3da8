import MuduoServer.Timer.Discipline

namespace MuduoServer

/-- The timerfd is readable, or will be no later than at `e` or 100 microseconds after it was last
armed. -/
def Rings (fd : Timerfd) (e : Int) : Prop :=
  fd.unread = true ∨ ∃ time, fd.armed = some time ∧ time ≤ max e (fd.lastArmed + 100)

/-- A time that `timerfd_settime` takes, and that does not disarm. -/
def Arming (spec : Itimerspec) : Prop :=
  0 ≤ spec.tv_nsec ∧ spec.tv_nsec < 1000000000 ∧ spec ≠ ⟨0, 0⟩

theorem Rings.mono {fd : Timerfd} {e e' : Int} (h : Rings fd e) (hle : e ≤ e') :
    Rings fd e' := by
  rcases h with h | ⟨time, harmed, htime⟩
  · exact .inl h
  · exact .inr ⟨time, harmed, by omega⟩

theorem Rings.elapse {fd : Timerfd} {e : Int} (h : Rings fd e) (now : Int) :
    Rings (fd.elapse now) e := by
  rcases h with h | ⟨time, harmed, htime⟩
  · left
    rw [Timerfd.elapse]
    split
    · split
      · rfl
      · exact h
    · exact h
  · rw [Timerfd.elapse, harmed]
    by_cases hdue : time ≤ now
    · simp only [if_pos hdue]
      exact .inl rfl
    · simp only [if_neg hdue]
      exact .inr ⟨time, harmed, htime⟩

theorem elapse_settimes (fd : Timerfd) (now : Int) : (fd.elapse now).settimes = fd.settimes := by
  rw [Timerfd.elapse]
  split
  · split
    · rfl
    · rfl
  · rfl

namespace TimerLoop

variable {P : Type*} [LinearOrder P]

theorem timespec_arming (n now : Int) : Arming (timespec n now) := by
  obtain ⟨micro, hmicro, hge⟩ : ∃ m, m = (if n - now < 100 then 100 else n - now) ∧ 100 ≤ m := by
    refine ⟨_, rfl, ?_⟩
    split_ifs with h
    · exact le_refl _
    · omega
  have hspec : timespec n now =
      ⟨micro / SECOND2MICROSECOND, micro % SECOND2MICROSECOND * 1000⟩ := by
    rw [hmicro]
    rfl
  rw [hspec]
  simp only [SECOND2MICROSECOND]
  refine ⟨by simp only []; omega, by simp only []; omega, ?_⟩
  intro hzero
  obtain ⟨hsec, hnsec⟩ := Itimerspec.mk.inj hzero
  omega

/-- A timerfd that is armed for `n` fires at `n`, or in 100 microseconds. -/
theorem rings_settime (fd : Timerfd) (n now : Int) :
    Rings (fd.timerfd_settime now (timespec n now)) n := by
  obtain ⟨-, -, hne⟩ := timespec_arming n now
  right
  refine ⟨_, if_neg hne, ?_⟩
  show now + (timespec n now).tv_sec * SECOND2MICROSECOND + (timespec n now).tv_nsec / 1000 ≤
    max n (now + 100)
  have hmicro : (timespec n now).tv_sec * SECOND2MICROSECOND + (timespec n now).tv_nsec / 1000 =
      if n - now < 100 then 100 else n - now := by
    simp only [timespec, SECOND2MICROSECOND]
    omega
  split_ifs at hmicro with h
  · omega
  · omega

/-- What keeps timers from being forgotten. While a batch lasts the timerfd need not be armed, but
for an entry that `reset` will not arm it for. -/
structure Awake (s : TimerLoop P) : Prop where
  clock : 0 < s.clock
  batch : ∀ b, s.batch = some b → 0 < b.now
  rings : ∀ x, s.queue.timers.first? = some x → s.batch = none ∨ x.1 ≤ 0 → Rings s.fd x.1
  arming : ∀ spec ∈ s.fd.settimes, Arming spec

variable {s s' : TimerLoop P} {x y : TimerEntry P} {t : P} {event : TimerEvent P}

theorem first?_fst_le {timers : OrderedSet (Compare (P := P))} (h : timers.first? = some x)
    (hy : y ∈ timers) : x.1 ≤ y.1 := by
  rcases OrderedSet.first?_le h hy with rfl | hlt
  · exact le_refl _
  · rw [Compare] at hlt
    split at hlt
    · rename_i heq
      exact heq.le
    · exact hlt.le

/-- The set only loses entries. -/
theorem Awake.rings_of_subset (hw : Awake s) {timers : OrderedSet (Compare (P := P))}
    (hsub : ∀ y, y ∈ timers → y ∈ s.queue.timers) (hx : timers.first? = some x)
    (hb : s.batch = none ∨ x.1 ≤ 0) : Rings s.fd x.1 := by
  have hmem := hsub x (OrderedSet.first?_mem hx)
  cases hf : s.queue.timers.first? with
  | none => exact absurd hmem (OrderedSet.first?_eq_none.mp hf x)
  | some it =>
    have hle := first?_fst_le hf hmem
    exact (hw.rings it hf (hb.imp_right hle.trans)).mono hle

theorem Awake.add (hw : Awake s) (t : P) : Awake (s.addTimer t) := by
  obtain ⟨when, hwhen⟩ : ∃ w, w = (s.timer t).expiration := ⟨_, rfl⟩
  have hmem : ∀ y, y ∈ (s.queue.insert t when).2.timers ↔ y = (when, some t) ∨ y ∈ s.queue.timers :=
    fun y => OrderedSet.mem_insert
  have hnew : (when, some t) ∈ (s.queue.insert t when).2.timers := (hmem _).mpr (.inl rfl)
  have hadd : s.addTimer t = if (s.queue.insert t when).1 then
      ({ s with queue := (s.queue.insert t when).2, pending := s.pending.erase t } :
        TimerLoop P).resetTimerfd when
      else { s with queue := (s.queue.insert t when).2, pending := s.pending.erase t } := by
    rw [addTimer, hwhen]
  rw [hadd]
  cases hearly : (s.queue.insert t when).1 with
  | true =>
    rw [if_pos rfl]
    refine ⟨hw.clock, hw.batch, ?_, ?_⟩
    · intro x hx _
      have hle : x.1 ≤ when := first?_fst_le hx hnew
      -- nothing was there, or nothing as early
      have hfirst : x.1 = when := by
        rcases (hmem x).mp (OrderedSet.first?_mem hx) with rfl | hold
        · rfl
        · cases hf : s.queue.timers.first? with
          | none => exact absurd hold (OrderedSet.first?_eq_none.mp hf x)
          | some it =>
            have hlt : when < it.1 := by simpa [TimerQueue.insert, hf] using hearly
            have hit := first?_fst_le hf hold
            omega
      rw [hfirst]
      exact rings_settime s.fd when s.clock
    · intro spec hspec
      rcases List.mem_append.mp hspec with hspec | hspec
      · exact hw.arming spec hspec
      · rw [List.mem_singleton.mp hspec]
        exact timespec_arming when s.clock
  | false =>
    refine ⟨hw.clock, hw.batch, ?_, hw.arming⟩
    intro x hx hb
    cases hf : s.queue.timers.first? with
    | none => simp [TimerQueue.insert, hf] at hearly
    | some it =>
      have hge : it.1 ≤ when := by simpa [TimerQueue.insert, hf] using hearly
      have hle : x.1 ≤ it.1 :=
        first?_fst_le hx ((hmem it).mpr (.inr (OrderedSet.first?_mem hf)))
      have hit : it.1 ≤ x.1 := by
        rcases (hmem x).mp (OrderedSet.first?_mem hx) with rfl | hold
        · exact hge
        · exact first?_fst_le hf hold
      exact (hw.rings it hf (hb.imp_right fun h => hit.trans h)).mono hit

theorem Awake.reset {now : Int} {expired : List (TimerEntry P)} (hw : Awake s)
    (hb : s.batch = some ⟨now, expired, []⟩) : Awake (s.reset expired now) := by
  obtain ⟨-, -, ht, -, -, -⟩ := reset_spec s expired now
  obtain ⟨s₁, hs₁, hreset⟩ := s.reset_cases now expired
  have hfd : s₁.fd = s.fd := by rw [hs₁]
  have hbatch : s₁.batch = none := by rw [hs₁]
  have hclock : 0 < s₁.clock := by
    rw [hs₁]
    exact hw.clock
  rcases hreset with ⟨it, hf, -, hreset⟩ | ⟨hlate, hreset⟩
  · rw [hreset]
    refine ⟨hclock, fun b h => ?_, fun x hx _ => ?_, fun spec hspec => ?_⟩
    · rw [resetTimerfd_batch, hbatch] at h
      cases h
    · rw [resetTimerfd_queue, hf] at hx
      obtain rfl := Option.some.inj hx
      exact rings_settime s₁.fd it.1 s₁.clock
    · rcases List.mem_append.mp hspec with hspec | hspec
      · exact hw.arming spec (hfd ▸ hspec)
      · rw [List.mem_singleton.mp hspec]
        exact timespec_arming it.1 s₁.clock
  · rw [hreset] at ht ⊢
    refine ⟨hclock, fun b h => ?_, fun x hx _ => ?_, hfd ▸ hw.arming⟩
    · rw [hbatch] at h
      cases h
    · -- it is no timer that was put back, so it was there all the time
      have hnot := hlate x hx
      have hold : x ∈ s.queue.timers := by
        rcases (ht x).mp (OrderedSet.first?_mem hx) with hold | ⟨t, hback, heq⟩
        · exact hold
        · have hnow := hw.batch _ hb
          have hi := (s.timer t).nonneg hback.2.1
          have he : x.1 = now + (s.timer t).interval := by rw [heq]
          simp only at hnow
          omega
      cases hfs : s.queue.timers.first? with
      | none => exact absurd hold (OrderedSet.first?_eq_none.mp hfs x)
      | some it' =>
        have hle := first?_fst_le hfs hold
        rw [hfd]
        exact (hw.rings it' hfs (.inr (by omega))).mono hle

theorem Awake.step (hw : Awake s) (hs : Sound s) (h : s.step event = some s') : Awake s' := by
  cases event with
  | tick d =>
    rw [step_tick h]
    refine ⟨?_, hw.batch, ?_, ?_⟩
    · show 0 < s.clock + d
      have := hw.clock
      omega
    · intro x hx hb
      exact (hw.rings x hx hb).elapse _
    · intro spec hspec
      exact hw.arming spec (elapse_settimes s.fd _ ▸ hspec)
  | create t timer =>
    obtain ⟨-, rfl⟩ := step_create h
    exact ⟨hw.clock, hw.batch, hw.rings, hw.arming⟩
  | add t =>
    obtain ⟨-, rfl⟩ := step_add h
    exact hw.add t
  | cancel t =>
    obtain ⟨-, rfl⟩ := step_cancel h
    refine ⟨hw.clock, hw.batch, ?_, hw.arming⟩
    intro x hx hb
    exact hw.rings_of_subset (fun y hy => TimerQueue.mem_of_mem_cancelTimer hy) hx hb
  | fire =>
    obtain ⟨-, rfl⟩ := step_fire h
    refine ⟨hw.clock, ?_, ?_, hw.arming⟩
    · intro b hb
      obtain rfl := Option.some.inj hb
      exact hw.clock
    · intro x hx hb
      have hlt := ((hs.expired_iff s.clock).2.mp (OrderedSet.first?_mem hx)).2
      rcases hb with hb | hb
      · cases hb
      · have := hw.clock
        omega
  | start t =>
    obtain ⟨now, expired, e, waiting, hb, rfl⟩ := step_start h
    refine ⟨hw.clock, ?_, ?_, hw.arming⟩
    · intro b hb'
      obtain rfl := Option.some.inj hb'
      have hnow := hw.batch _ hb
      exact hnow
    · intro x hx hb'
      rcases hb' with hb' | hb'
      · cases hb'
      · exact hw.rings x hx (.inr hb')
  | finish =>
    obtain ⟨now, expired, hb, rfl⟩ := step_finish h
    exact hw.reset hb

/-- On a clock that shows a time after the epoch: whenever no batch is being run and there are
timers, the timerfd is readable or armed for the earliest of them at the latest, or for 100
microseconds after it was last armed; and it is never disarmed. -/
theorem no_timer_forgotten {clock : Int} {events : List (TimerEvent P)} (hclock : 0 < clock)
    (h : Runs clock events s) :
    (s.batch = none → s.queue.timers.elems ≠ [] →
      s.fd.unread = true ∨ ∃ time, s.fd.armed = some time ∧
        ∃ x ∈ s.queue.timers, (∀ y ∈ s.queue.timers, x.1 ≤ y.1) ∧
          time ≤ max x.1 (s.fd.lastArmed + 100)) ∧
    ∀ spec ∈ s.fd.settimes, 0 ≤ spec.tv_nsec ∧ spec.tv_nsec < 1000000000 ∧ spec ≠ ⟨0, 0⟩ := by
  have hinv : Sound s ∧ Awake s := by
    apply Run.preserves (fun s => Sound s ∧ Awake s) ⟨sound_init clock, ?_⟩ _ h
    · refine ⟨hclock, fun b hb => ?_, fun x hx => ?_, fun spec hspec => ?_⟩
      · cases hb
      · cases hx
      · cases hspec
    · intro s event s' ⟨hs, hw⟩ hstep
      exact ⟨hs.step hstep, hw.step hs hstep⟩
  refine ⟨?_, hinv.2.arming⟩
  intro hb hne
  obtain ⟨x, l, hl⟩ := List.exists_cons_of_ne_nil hne
  have hfirst : s.queue.timers.first? = some x := by rw [OrderedSet.first?, hl]; rfl
  rcases hinv.2.rings x hfirst (.inl hb) with hunread | ⟨time, harmed, htime⟩
  · exact .inl hunread
  · exact .inr ⟨time, harmed, x, OrderedSet.first?_mem hfirst,
      fun y hy => first?_fst_le hfirst hy, htime⟩

/-- The earliest timer is cancelled, and the timerfd stays armed for it. -/
theorem no_timer_forgotten_cancel :
    ∃ s : TimerLoop Nat, ((s.batch = none → s.queue.timers.elems ≠ [] →
        s.fd.unread = true ∨ ∃ time, s.fd.armed = some time ∧
          ∃ x ∈ s.queue.timers, (∀ y ∈ s.queue.timers, x.1 ≤ y.1) ∧
            time ≤ max x.1 (s.fd.lastArmed + 100)) ∧
      ∀ spec ∈ s.fd.settimes, 0 ≤ spec.tv_nsec ∧ spec.tv_nsec < 1000000000 ∧ spec ≠ ⟨0, 0⟩) ∧
      s.fd.armed = some 500 ∧ s.queue.timers.elems = [(900, some 2)] := by
  obtain ⟨s, hrun, hs⟩ := Run.exists_of_guarded
    (g := fun s : TimerLoop Nat => (s.fd.armed, s.queue.timers.elems))
    (f := fun s event => s.step event) (p := fun _ _ => True) (s := init 1)
    (l := [.create 1 ⟨500, false, 0, by decide⟩, .add 1, .create 2 ⟨900, false, 0, by decide⟩,
      .add 2, .tick 99, .cancel 1])
    (a := (some 500, [(900, some 2)])) (by decide +kernel)
  obtain ⟨harmed, htimers⟩ := Prod.mk.inj hs
  exact ⟨s, no_timer_forgotten (by decide) (hrun.mono fun _ _ _ h => h.2), harmed, htimers⟩

end TimerLoop

end MuduoServer
