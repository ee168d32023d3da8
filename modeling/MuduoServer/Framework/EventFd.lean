import Mathlib.Data.List.Basic

namespace MuduoServer

/-- An eventfd that an edge-triggered epoll watches: its counter, and whether epoll has it in the
list of ready descriptors. -/
structure EventFd where
  counter : Nat
  ready : Bool
  deriving DecidableEq, Repr

namespace EventFd

/-- The largest value of the counter. -/
def limit : Nat := 0xFFFFFFFFFFFFFFFE

def new : EventFd := ⟨0, false⟩

/-- A `::write` of 1, which fails when the counter is full. It makes the descriptor ready when the
counter was zero; with `again`, also when it was not. -/
def write (fd : EventFd) (again : Bool) : EventFd :=
  if fd.counter < limit then ⟨fd.counter + 1, fd.ready || fd.counter == 0 || again⟩ else fd

/-- A `::read`, which takes the whole counter. -/
def read (fd : EventFd) : EventFd := { fd with counter := 0 }

/-- `epoll_wait` takes the descriptor off the list of ready ones. -/
def collect (fd : EventFd) : EventFd := { fd with ready := false }

/-- `epoll_wait` would report the descriptor. -/
def Fires (fd : EventFd) : Prop := fd.ready = true ∧ 0 < fd.counter

instance (fd : EventFd) : Decidable fd.Fires := inferInstanceAs (Decidable (_ ∧ _))

/-- No write waits that epoll does not know of. -/
def Armed (fd : EventFd) : Prop := 0 < fd.counter → fd.ready = true

variable {fd : EventFd}

theorem Armed.fires (h : fd.Armed) (hc : 0 < fd.counter) : fd.Fires := ⟨h hc, hc⟩

theorem write_pos (fd : EventFd) (again : Bool) : 0 < (fd.write again).counter := by
  rw [write]
  split_ifs with hlt
  · exact Nat.succ_pos _
  · exact Nat.lt_of_lt_of_le (by decide) (Nat.not_lt.mp hlt)

theorem Armed.write (h : fd.Armed) (again : Bool) : (fd.write again).Armed := by
  rw [EventFd.write]
  split_ifs with hlt
  · intro _
    rcases Nat.eq_zero_or_pos fd.counter with hzero | hpos
    · simp [hzero]
    · simp [h hpos]
  · exact h

theorem read_armed (fd : EventFd) : fd.read.Armed := fun h => absurd h (Nat.lt_irrefl 0)

/-- A descriptor whose counter is empty is taken off the list without a report. -/
theorem collect_armed (h : ¬fd.Fires) (ha : fd.Armed) : fd.collect.Armed := by
  intro hc
  exact (h (ha.fires hc)).elim

end EventFd

end MuduoServer
