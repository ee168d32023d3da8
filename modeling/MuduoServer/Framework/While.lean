import Mathlib.Logic.Basic

namespace MuduoServer

variable {σ : Type*} {cond : σ → Bool} {body : σ → σ} {s : σ} {fuel : Nat}

/-- `while (cond) body`, for at most `fuel` rounds; `none` when there is a round more to do. -/
def whileLoop (cond : σ → Bool) (body : σ → σ) : Nat → σ → Option σ
  | 0, s => if cond s then none else some s
  | fuel + 1, s => if cond s then whileLoop cond body fuel (body s) else some s

/-- A loop that keeps an invariant and has a measure that falls ends, and the condition is false
then. -/
theorem whileLoop_returns (cond : σ → Bool) (body : σ → σ) (fuel : Nat) (inv : σ → Prop)
    (measure : σ → Nat)
    (hstep : ∀ s, inv s → cond s = true → inv (body s) ∧ measure (body s) < measure s)
    (h : inv s) (hfuel : measure s ≤ fuel) :
    ∃ s', whileLoop cond body fuel s = some s' ∧ inv s' ∧ cond s' = false := by
  induction fuel generalizing s with
  | zero =>
    rw [whileLoop]
    by_cases hc : cond s = true
    · have hlt := (hstep s h hc).2
      omega
    · rw [if_neg hc]
      exact ⟨s, rfl, h, Bool.eq_false_iff.mpr hc⟩
  | succ fuel ih =>
    rw [whileLoop]
    by_cases hc : cond s = true
    · obtain ⟨hinv, hlt⟩ := hstep s h hc
      rw [if_pos hc]
      exact ih hinv (by omega)
    · rw [if_neg hc]
      exact ⟨s, rfl, h, Bool.eq_false_iff.mpr hc⟩

end MuduoServer
