import MuduoServer.Framework.OrderedSet
import Mathlib.Data.Prod.Lex
import Mathlib.Order.WithBot
import Mathlib.Order.RelIso.Basic

namespace MuduoServer

/-- Microseconds in a second. -/
def SECOND2MICROSECOND : Int := 1000000

/-- `Timer` without its callback. A `time_t` is an `Int` here, so that no sum of times overflows. A
positive number of seconds has become a number of microseconds that is not negative, which takes
`interval * SECOND2MICROSECOND` to be in the range of `time_t`. -/
structure Timer where
  expiration : Int
  isInterval : Bool
  interval : Int
  nonneg : isInterval = true → 0 ≤ interval
  deriving DecidableEq

instance : Inhabited Timer := ⟨⟨0, false, 0, by decide⟩⟩

namespace Timer

def restart (t : Timer) (now : Int) : Timer :=
  if t.isInterval then { t with expiration := now + t.interval } else { t with expiration := 0 }

variable {t : Timer} {now : Int}

theorem restart_isInterval : (t.restart now).isInterval = t.isInterval := by
  rw [restart]
  split
  · rfl
  · rfl

theorem restart_interval : (t.restart now).interval = t.interval := by
  rw [restart]
  split
  · rfl
  · rfl

theorem restart_restart : (t.restart now).restart now = t.restart now := by
  cases h : t.isInterval with
  | true => simp [restart, h]
  | false => simp [restart, h]

theorem restart_expiration (h : t.isInterval = true) :
    (t.restart now).expiration = now + t.interval := by
  rw [restart, if_pos h]

end Timer

/-- `TimerQueue::Entry`; the pointer may be null. -/
abbrev TimerEntry (P : Type*) := Int × Option P

section Compare

variable {P : Type*} [LinearOrder P]

def Compare (lhs rhs : TimerEntry P) : Prop :=
  if lhs.1 = rhs.1 then
    match lhs.2, rhs.2 with
    | none, _ => False
    | some _, none => True
    | some l, some r => l < r
  else lhs.1 < rhs.1

/-- The null pointer is the biggest. -/
def ofNullable : Option P → WithTop P
  | none => ⊤
  | some t => t

/-- An entry in the order of times, and at one time in the order of addresses. -/
def rank (x : TimerEntry P) : Int ×ₗ WithTop P := toLex (x.1, ofNullable x.2)

omit [LinearOrder P] in
theorem rank_injective : Function.Injective (rank (P := P)) := by
  intro ⟨e, p⟩ ⟨e', p'⟩ h
  obtain ⟨he, hp⟩ := Prod.mk.inj (toLex.injective h)
  have he' : e = e' := he
  cases p with
  | none =>
    cases p' with
    | none => rw [he']
    | some r => exact absurd hp.symm WithTop.coe_ne_top
  | some l =>
    cases p' with
    | none => exact absurd hp WithTop.coe_ne_top
    | some r => rw [he', WithTop.coe_injective hp]

theorem compare_iff (x y : TimerEntry P) : Compare x y ↔ rank x < rank y := by
  obtain ⟨e, p⟩ := x
  obtain ⟨e', p'⟩ := y
  rw [Compare, rank, rank, Prod.Lex.toLex_lt_toLex]
  split_ifs with h
  · have h' : e = e' := h
    subst h'
    cases p with
    | none => simp [ofNullable]
    | some l =>
      cases p' with
      | none => simp [ofNullable]
      | some r => simp [ofNullable]
  · have h' : e ≠ e' := h
    simp [h']

instance : DecidableRel (Compare (P := P)) :=
  fun x y => decidable_of_iff (rank x < rank y) (compare_iff x y).symm

/-- The comparator is a strict order in which no two entries are equivalent. -/
instance : IsStrictTotalOrder (TimerEntry P) Compare :=
  RelEmbedding.isStrictTotalOrder (s := ((· < ·) : Int ×ₗ WithTop P → Int ×ₗ WithTop P → Prop))
    ⟨⟨rank, rank_injective⟩, (compare_iff _ _).symm⟩

/-- `lower_bound(Entry(now, nullptr))` splits the entries at `now`. -/
theorem compare_null (x : TimerEntry P) (now : Int) :
    Compare x (now, none) ↔ x.1 < now ∨ x.1 = now ∧ x.2 ≠ none := by
  obtain ⟨e, p⟩ := x
  rw [Compare]
  split_ifs with h
  · have h' : e = now := h
    cases p with
    | none => simp [h']
    | some t => simp [h']
  · have h' : e ≠ now := h
    simp [h']

end Compare

structure TimerQueue (P : Type*) [LinearOrder P] where
  timers : OrderedSet (Compare (P := P))
  active_timers : OrderedSet ((· < ·) : P → P → Prop)
  is_doing_timer_callback : Bool
  cancelingTimers : OrderedSet ((· < ·) : P → P → Prop)

namespace TimerQueue

variable {P : Type*} [LinearOrder P]

def new : TimerQueue P where
  timers := .empty _
  active_timers := .empty _
  is_doing_timer_callback := false
  cancelingTimers := .empty _

/-- `insert(timer)` of a timer that expires at `when`: whether it is the earliest. -/
def insert (q : TimerQueue P) (timer : P) (when : Int) : Bool × TimerQueue P :=
  let earliest := match q.timers.first? with
    | none => true
    | some it => decide (when < it.1)
  (earliest, { q with
    timers := q.timers.insert (when, some timer)
    active_timers := q.active_timers.insert timer })

def getExpired (q : TimerQueue P) (now : Int) : List (TimerEntry P) × TimerQueue P :=
  let expired := q.timers.below (now, none)
  (expired, { q with
    timers := q.timers.notBelow (now, none)
    active_timers := expired.foldl (fun s entry => entry.2.elim s s.erase) q.active_timers })

/-- The functor of `cancelTimer`, for a timer whose expiration is `expiration`. -/
def cancelTimer (q : TimerQueue P) (timer : P) (expiration : Int) : TimerQueue P :=
  if timer ∈ q.active_timers then { q with
    timers := q.timers.erase (expiration, some timer)
    active_timers := q.active_timers.erase timer }
  else if q.is_doing_timer_callback then { q with
    cancelingTimers := q.cancelingTimers.insert timer }
  else q

/-- One round of the loop in `reset`, on the timers behind the pointers and on the queue. -/
def resetOne (now : Int) (s : (P → Timer) × TimerQueue P) (entry : TimerEntry P) :
    (P → Timer) × TimerQueue P :=
  match entry.2 with
  | none => s
  | some timer =>
    if (s.1 timer).isInterval = true ∧ timer ∉ s.2.cancelingTimers then
      (Function.update s.1 timer ((s.1 timer).restart now),
        (s.2.insert timer ((s.1 timer).restart now).expiration).2)
    else s

variable {q : TimerQueue P} {timer t : P} {x : TimerEntry P} {now when : Int}

theorem mem_getExpired_fst :
    x ∈ (q.getExpired now).1 ↔ x ∈ q.timers ∧ (x.1 < now ∨ x.1 = now ∧ x.2 ≠ none) := by
  rw [← compare_null]
  exact OrderedSet.mem_below

theorem mem_getExpired_timers :
    x ∈ (q.getExpired now).2.timers ↔
      x ∈ q.timers ∧ ¬ (x.1 < now ∨ x.1 = now ∧ x.2 ≠ none) := by
  rw [← compare_null]
  exact OrderedSet.mem_notBelow

theorem mem_foldl_erase {s : OrderedSet ((· < ·) : P → P → Prop)} (l : List (TimerEntry P)) :
    t ∈ l.foldl (fun s entry => entry.2.elim s s.erase) s ↔ t ∈ s ∧ ∀ x ∈ l, x.2 ≠ some t := by
  induction l generalizing s with
  | nil => simp
  | cons x l ih =>
    rw [List.foldl_cons, ih]
    cases hx : x.2 with
    | none => simp [hx]
    | some t' =>
      simp only [Option.elim_some, OrderedSet.mem_erase, List.forall_mem_cons, hx, ne_eq,
        Option.some.injEq]
      constructor
      · intro ⟨⟨ht, hne⟩, hl⟩
        exact ⟨ht, fun h => hne h.symm, hl⟩
      · intro ⟨ht, hne, hl⟩
        exact ⟨⟨ht, fun h => hne h.symm⟩, hl⟩

theorem mem_getExpired_active :
    t ∈ (q.getExpired now).2.active_timers ↔
      t ∈ q.active_timers ∧ ∀ x ∈ (q.getExpired now).1, x.2 ≠ some t :=
  mem_foldl_erase _

theorem cancelTimer_of_active (h : timer ∈ q.active_timers) (e : Int) :
    q.cancelTimer timer e = { q with
      timers := q.timers.erase (e, some timer)
      active_timers := q.active_timers.erase timer } := if_pos h

theorem cancelTimer_of_inactive (h : timer ∉ q.active_timers) (e : Int) :
    q.cancelTimer timer e =
      if q.is_doing_timer_callback then
        { q with cancelingTimers := q.cancelingTimers.insert timer }
      else q := if_neg h

theorem mem_of_mem_cancelTimer {e : Int} (h : x ∈ (q.cancelTimer timer e).timers) :
    x ∈ q.timers := by
  rw [cancelTimer] at h
  split_ifs at h
  · exact (OrderedSet.mem_erase.mp h).1
  · exact h
  · exact h

theorem active_of_cancelTimer {e : Int} (h : t ∈ (q.cancelTimer timer e).active_timers) :
    t ∈ q.active_timers := by
  rw [cancelTimer] at h
  split_ifs at h
  · exact (OrderedSet.mem_erase.mp h).1
  · exact h
  · exact h

theorem canceling_cancelTimer {e : Int} (h : t ∈ q.cancelingTimers) :
    t ∈ (q.cancelTimer timer e).cancelingTimers := by
  rw [cancelTimer]
  split_ifs
  · exact h
  · exact OrderedSet.mem_insert.mpr (.inr h)
  · exact h

/-- Whether `reset` puts a timer back, if it is one of the batch. -/
def Repeats (timer : P → Timer) (q : TimerQueue P) (t : P) : Prop :=
  (timer t).isInterval = true ∧ t ∉ q.cancelingTimers

def Rearms (timer : P → Timer) (q : TimerQueue P) (expired : List (TimerEntry P)) (t : P) : Prop :=
  (∃ x ∈ expired, x.2 = some t) ∧ Repeats timer q t

/-- What rounds of the loop in `reset` leave: the timers `back` are restarted, and in both sets. -/
structure Reset (now : Int) (timer : P → Timer) (q : TimerQueue P) (back : P → Prop)
    (r : (P → Timer) × TimerQueue P) : Prop where
  restarted : ∀ t, back t → r.1 t = (timer t).restart now
  other : ∀ t, ¬ back t → r.1 t = timer t
  timers : ∀ x, x ∈ r.2.timers ↔
    x ∈ q.timers ∨ ∃ t, back t ∧ x = (now + (timer t).interval, some t)
  active : ∀ t, t ∈ r.2.active_timers ↔ t ∈ q.active_timers ∨ back t
  canceling : r.2.cancelingTimers = q.cancelingTimers
  flag : r.2.is_doing_timer_callback = q.is_doing_timer_callback

namespace Reset

variable {timer : P → Timer} {back back' : P → Prop} {r r' : (P → Timer) × TimerQueue P}

theorem none (h : ∀ t, ¬ back t) : Reset now timer q back (timer, q) where
  restarted t hb := absurd hb (h t)
  other _ _ := rfl
  timers x := by simp [h]
  active t := by simp [h]
  canceling := rfl
  flag := rfl

/-- A restart changes neither whether a timer repeats nor what a restart makes of it. -/
theorem same (hr : Reset now timer q back r) (t : P) :
    (r.1 t).isInterval = (timer t).isInterval ∧ (r.1 t).interval = (timer t).interval ∧
      (r.1 t).restart now = (timer t).restart now := by
  by_cases hb : back t
  · rw [hr.restarted t hb]
    exact ⟨Timer.restart_isInterval, Timer.restart_interval, Timer.restart_restart⟩
  · rw [hr.other t hb]
    exact ⟨rfl, rfl, rfl⟩

theorem repeats_iff (hr : Reset now timer q back r) : Repeats r.1 r.2 t ↔ Repeats timer q t := by
  rw [Repeats, Repeats, (hr.same t).1, hr.canceling]

theorem trans (h : Reset now timer q back r) (h' : Reset now r.1 r.2 back' r') :
    Reset now timer q (fun t => back t ∨ back' t) r' := by
  refine ⟨?_, ?_, ?_, ?_, h'.canceling.trans h.canceling, h'.flag.trans h.flag⟩
  · intro t hb
    by_cases hb' : back' t
    · rw [h'.restarted t hb', (h.same t).2.2]
    · rw [h'.other t hb', h.restarted t (hb.resolve_right hb')]
  · intro t hb
    rw [h'.other t fun hb' => hb (.inr hb'), h.other t fun hb' => hb (.inl hb')]
  · intro x
    rw [h'.timers, h.timers]
    constructor
    · intro hx
      rcases hx with (hx | ⟨t, hb, hx⟩) | ⟨t, hb, hx⟩
      · exact .inl hx
      · exact .inr ⟨t, .inl hb, hx⟩
      · exact .inr ⟨t, .inr hb, by rw [hx, (h.same t).2.1]⟩
    · intro hx
      rcases hx with hx | ⟨t, hb | hb, hx⟩
      · exact .inl (.inl hx)
      · exact .inl (.inr ⟨t, hb, hx⟩)
      · exact .inr ⟨t, hb, by rw [hx, (h.same t).2.1]⟩
  · intro t
    rw [h'.active, h.active, or_assoc]

end Reset

/-- One round puts back the timer of the entry, if it repeats. -/
theorem resetOne_reset (timer : P → Timer) (q : TimerQueue P) (x : TimerEntry P) :
    Reset now timer q (fun t => x.2 = some t ∧ Repeats timer q t) (resetOne now (timer, q) x) := by
  by_cases hback : ∃ t, x.2 = some t ∧ Repeats timer q t
  · obtain ⟨t, hx, ht⟩ := hback
    have hone : resetOne now (timer, q) x =
        (Function.update timer t ((timer t).restart now), { q with
          timers := q.timers.insert (now + (timer t).interval, some t)
          active_timers := q.active_timers.insert t }) := by
      simp only [resetOne, hx, insert, Timer.restart_expiration ht.1]
      exact if_pos ht
    have honly : ∀ t', (x.2 = some t' ∧ Repeats timer q t') ↔ t' = t := by
      intro t'
      constructor
      · intro ⟨hx', _⟩
        exact Option.some.inj (hx'.symm.trans hx)
      · intro heq
        exact heq ▸ ⟨hx, ht⟩
    simp only [hone, honly]
    refine ⟨?_, ?_, ?_, ?_, rfl, rfl⟩
    · intro t' heq
      rw [heq]
      exact Function.update_self ..
    · intro t' hne
      exact Function.update_of_ne hne ..
    · intro y
      simp only [OrderedSet.mem_insert, exists_eq_left]
      exact or_comm
    · intro t'
      rw [OrderedSet.mem_insert]
      exact or_comm
  · have hone : resetOne now (timer, q) x = (timer, q) := by
      cases hx : x.2 with
      | none => simp only [resetOne, hx]
      | some t =>
        simp only [resetOne, hx]
        exact if_neg fun ht => hback ⟨t, hx, ht⟩
    rw [hone]
    exact Reset.none fun t ht => hback ⟨t, ht⟩

theorem foldl_resetOne (timer : P → Timer) (q : TimerQueue P) (expired : List (TimerEntry P)) :
    Reset now timer q (Rearms timer q expired) (expired.foldl (resetOne now) (timer, q)) := by
  induction expired generalizing timer q with
  | nil => exact Reset.none fun t h => by simp [Rearms] at h
  | cons x expired ih =>
    have hone : Reset now timer q _ _ := resetOne_reset timer q x
    have hall := hone.trans (ih _ _)
    have hback : ∀ t, Rearms timer q (x :: expired) t ↔
        (x.2 = some t ∧ Repeats timer q t) ∨
          Rearms (resetOne now (timer, q) x).1 (resetOne now (timer, q) x).2 expired t := by
      intro t
      rw [Rearms, Rearms, hone.repeats_iff, List.exists_mem_cons_iff, or_and_right]
    rw [funext fun t => propext (hback t)]
    exact hall

end TimerQueue

end MuduoServer
