import MuduoServer.Timer.TimerQueue
import MuduoServer.Framework.Run

namespace MuduoServer

/-- The `it_value` of an `itimerspec`; its `it_interval` is zero. -/
structure Itimerspec where
  tv_sec : Int
  tv_nsec : Int
  deriving DecidableEq

/-- A `timerfd`: when it is going to fire, whether an expiration waits to be read, and the calls of
`timerfd_settime` so far. Its clock is the one that `TimeStamp::now` reads. -/
structure Timerfd where
  armed : Option Int
  unread : Bool
  lastArmed : Int
  settimes : List Itimerspec

namespace Timerfd

def new : Timerfd := ⟨none, false, 0, []⟩

/-- A relative time; a zero one disarms. An expiration that waits is dropped. -/
def timerfd_settime (fd : Timerfd) (now : Int) (spec : Itimerspec) : Timerfd where
  armed := if spec = ⟨0, 0⟩ then none
    else some (now + spec.tv_sec * SECOND2MICROSECOND + spec.tv_nsec / 1000)
  unread := false
  lastArmed := now
  settimes := fd.settimes ++ [spec]

/-- The clock has come to `now`. -/
def elapse (fd : Timerfd) (now : Int) : Timerfd :=
  match fd.armed with
  | some time => if time ≤ now then { fd with armed := none, unread := true } else fd
  | none => fd

def read (fd : Timerfd) : Timerfd := { fd with unread := false }

end Timerfd

/-- The local variables of the callback of the timerfd, from `getExpired` to `reset`; the timers of
`waiting` are still to be run. -/
structure Batch (P : Type*) where
  now : Int
  expired : List (TimerEntry P)
  waiting : List (TimerEntry P)

/-- A timer queue with what it works on: the timers behind the pointers, the functors of `addTimer`
that are queued, the timerfd and the clock, an `Int` as every `time_t` is here. -/
structure TimerLoop (P : Type*) [LinearOrder P] where
  queue : TimerQueue P
  timer : P → Timer
  created : List P
  pending : List P
  batch : Option (Batch P)
  fd : Timerfd
  clock : Int

/-- What happens on the loop thread. `create` is `make_shared<Timer>` in `addTimer` on whatever
thread, `add` and `cancel` are the functors of `addTimer` and `cancelTimer`, `fire` is the callback
of the timerfd up to the loop over the expired timers, `start` begins the callback of the next of
them, and `finish` is what follows the loop. -/
inductive TimerEvent (P : Type*) where
  | tick (d : Nat)
  | create (t : P) (timer : Timer)
  | add (t : P)
  | cancel (t : P)
  | fire
  | start (t : P)
  | finish
  deriving DecidableEq

namespace TimerLoop

variable {P : Type*} [LinearOrder P]

def init (clock : Int) : TimerLoop P where
  queue := .new
  timer := fun _ => default
  created := []
  pending := []
  batch := none
  fd := .new
  clock := clock

def timespec (nextExpiration now : Int) : Itimerspec :=
  let micro := nextExpiration - now
  let micro := if micro < 100 then 100 else micro
  ⟨micro / SECOND2MICROSECOND, micro % SECOND2MICROSECOND * 1000⟩

def resetTimerfd (s : TimerLoop P) (nextExpiration : Int) : TimerLoop P :=
  { s with fd := s.fd.timerfd_settime s.clock (timespec nextExpiration s.clock) }

/-- The functor of `addTimer`. -/
def addTimer (s : TimerLoop P) (t : P) : TimerLoop P :=
  let when := (s.timer t).expiration
  let r := s.queue.insert t when
  let s := { s with queue := r.2, pending := s.pending.erase t }
  if r.1 then s.resetTimerfd when else s

def cancelTimer (s : TimerLoop P) (t : P) : TimerLoop P :=
  { s with queue := s.queue.cancelTimer t (s.timer t).expiration }

def fire (s : TimerLoop P) : TimerLoop P :=
  let r := s.queue.getExpired s.clock
  { s with
    fd := s.fd.read
    queue := { r.2 with is_doing_timer_callback := true, cancelingTimers := .empty _ }
    batch := some ⟨s.clock, r.1, r.1⟩ }

/-- `reset(expired, now)`, with the flag taken back before it. -/
def reset (s : TimerLoop P) (expired : List (TimerEntry P)) (now : Int) : TimerLoop P :=
  let r := expired.foldl (TimerQueue.resetOne now)
    (s.timer, { s.queue with is_doing_timer_callback := false })
  let s := { s with timer := r.1, queue := r.2, batch := none }
  match s.queue.timers.first? with
  | some x => if 0 < x.1 then s.resetTimerfd x.1 else s
  | none => s

/-- The state after an event, `none` for one that cannot happen. -/
def step (s : TimerLoop P) : TimerEvent P → Option (TimerLoop P)
  | .tick d => some { s with clock := s.clock + d, fd := s.fd.elapse (s.clock + d) }
  | .create t timer =>
    if t ∈ s.created then none
    else some { s with
      timer := Function.update s.timer t timer
      created := t :: s.created
      pending := t :: s.pending }
  | .add t => if t ∈ s.pending then some (s.addTimer t) else none
  | .cancel t => if t ∈ s.created then some (s.cancelTimer t) else none
  | .fire =>
    match s.batch with
    | none => some s.fire
    | some _ => none
  | .start t =>
    match s.batch with
    | some ⟨now, expired, (_, some t') :: waiting⟩ =>
      if t' = t then some { s with batch := some ⟨now, expired, waiting⟩ } else none
    | _ => none
  | .finish =>
    match s.batch with
    | some ⟨now, expired, []⟩ => some (s.reset expired now)
    | _ => none

/-- The runs of a timer queue. -/
abbrev Runs (clock : Int) (events : List (TimerEvent P)) (s : TimerLoop P) : Prop :=
  Run (fun s event s' => s.step event = some s') (init clock) events s

section Frame

variable (s : TimerLoop P) (t : P) (n now : Int) (expired : List (TimerEntry P))

@[simp] theorem resetTimerfd_queue : (s.resetTimerfd n).queue = s.queue := rfl
@[simp] theorem resetTimerfd_batch : (s.resetTimerfd n).batch = s.batch := rfl

/-- All that `addTimer` changes but the timerfd. -/
theorem addTimer_eq : ∃ fd, s.addTimer t = { s with
    queue := (s.queue.insert t (s.timer t).expiration).2
    pending := s.pending.erase t
    fd := fd } := by
  rw [addTimer]
  split
  · exact ⟨_, rfl⟩
  · exact ⟨_, rfl⟩

/-- The timerfd is armed again if there is an entry that expires after the epoch. -/
theorem reset_cases : ∃ s₁ : TimerLoop P, s₁ = { s with
      timer := (expired.foldl (TimerQueue.resetOne now)
        (s.timer, { s.queue with is_doing_timer_callback := false })).1
      queue := (expired.foldl (TimerQueue.resetOne now)
        (s.timer, { s.queue with is_doing_timer_callback := false })).2
      batch := none } ∧
    ((∃ x, s₁.queue.timers.first? = some x ∧ 0 < x.1 ∧
        s.reset expired now = s₁.resetTimerfd x.1) ∨
      (∀ x, s₁.queue.timers.first? = some x → x.1 ≤ 0) ∧ s.reset expired now = s₁) := by
  refine ⟨_, rfl, ?_⟩
  rw [reset]
  split
  · rename_i x hx
    split
    · rename_i hpos
      exact .inl ⟨x, hx, hpos, rfl⟩
    · rename_i hpos
      refine .inr ⟨fun y hy => ?_, rfl⟩
      obtain rfl : x = y := Option.some.inj (hx.symm.trans hy)
      omega
  · rename_i hnone
    refine .inr ⟨fun y hy => ?_, rfl⟩
    cases hnone.symm.trans hy

/-- All that `reset` changes but the timerfd. -/
theorem reset_eq : ∃ fd, s.reset expired now = { s with
    timer := (expired.foldl (TimerQueue.resetOne now)
      (s.timer, { s.queue with is_doing_timer_callback := false })).1
    queue := (expired.foldl (TimerQueue.resetOne now)
      (s.timer, { s.queue with is_doing_timer_callback := false })).2
    batch := none
    fd := fd } := by
  obtain ⟨s₁, hs₁, ⟨x, -, -, h⟩ | ⟨-, h⟩⟩ := s.reset_cases now expired
  · exact ⟨_, by rw [h, hs₁]; rfl⟩
  · exact ⟨_, by rw [h, hs₁]⟩

@[simp] theorem reset_created : (s.reset expired now).created = s.created := by
  obtain ⟨fd, h⟩ := s.reset_eq now expired
  rw [h]

@[simp] theorem reset_pending : (s.reset expired now).pending = s.pending := by
  obtain ⟨fd, h⟩ := s.reset_eq now expired
  rw [h]

@[simp] theorem reset_batch : (s.reset expired now).batch = none := by
  obtain ⟨fd, h⟩ := s.reset_eq now expired
  rw [h]

end Frame

section Inversion

variable {s s' : TimerLoop P} {t : P} {timer : Timer}

theorem step_tick {d : Nat} (h : s.step (.tick d) = some s') :
    s' = { s with clock := s.clock + d, fd := s.fd.elapse (s.clock + d) } :=
  (Option.some.inj h).symm

theorem step_create (h : s.step (.create t timer) = some s') :
    t ∉ s.created ∧ s' = { s with
      timer := Function.update s.timer t timer
      created := t :: s.created
      pending := t :: s.pending } := by
  rw [step] at h
  split at h
  · cases h
  · rename_i ht
    exact ⟨ht, (Option.some.inj h).symm⟩

theorem step_add (h : s.step (.add t) = some s') : t ∈ s.pending ∧ s' = s.addTimer t := by
  rw [step] at h
  split at h
  · rename_i ht
    exact ⟨ht, (Option.some.inj h).symm⟩
  · cases h

theorem step_cancel (h : s.step (.cancel t) = some s') : t ∈ s.created ∧ s' = s.cancelTimer t := by
  rw [step] at h
  split at h
  · rename_i ht
    exact ⟨ht, (Option.some.inj h).symm⟩
  · cases h

theorem step_fire (h : s.step .fire = some s') : s.batch = none ∧ s' = s.fire := by
  rw [step] at h
  split at h
  · rename_i hb
    exact ⟨hb, (Option.some.inj h).symm⟩
  · cases h

theorem step_start (h : s.step (.start t) = some s') :
    ∃ now expired e waiting, s.batch = some ⟨now, expired, (e, some t) :: waiting⟩ ∧
      s' = { s with batch := some ⟨now, expired, waiting⟩ } := by
  rw [step] at h
  split at h
  · rename_i now expired e t' waiting hb
    split at h
    · rename_i ht
      subst ht
      exact ⟨now, expired, e, waiting, hb, (Option.some.inj h).symm⟩
    · cases h
  · cases h

theorem step_finish (h : s.step .finish = some s') :
    ∃ now expired, s.batch = some ⟨now, expired, []⟩ ∧ s' = s.reset expired now := by
  rw [step] at h
  split at h
  · rename_i now expired hb
    exact ⟨now, expired, hb, (Option.some.inj h).symm⟩
  · cases h

end Inversion

end TimerLoop

end MuduoServer
