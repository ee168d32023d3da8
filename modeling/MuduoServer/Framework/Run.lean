import Mathlib.Data.List.Induction
import Mathlib.Logic.Relation

namespace MuduoServer

variable {σ ι : Type*}

/-- A computation whose second part returns. -/
theorem bind_eq_ok {ε α β : Type*} {x : Except ε α} {f : α → Except ε β} {b : β} :
    x.bind f = .ok b ↔ ∃ a, x = .ok a ∧ f a = .ok b := by
  cases x with
  | error err => simp [Except.bind]
  | ok a => simp [Except.bind]

/-- A computation that stops in its first part or in its second. -/
theorem bind_eq_error {ε α β : Type*} {x : Except ε α} {f : α → Except ε β} {err : ε} :
    x.bind f = .error err ↔ x = .error err ∨ ∃ a, x = .ok a ∧ f a = .error err := by
  cases x with
  | error err' => simp [Except.bind]
  | ok a => simp [Except.bind]

theorem ok_bind {ε α β : Type*} (a : α) (f : α → Except ε β) : (Except.ok a).bind f = f a := rfl

theorem error_bind {ε α β : Type*} (err : ε) (f : α → Except ε β) :
    (Except.error err).bind f = .error err := rfl

/-- A fold whose steps all return. -/
theorem foldlM_returns {f : σ → ι → Option σ} {is : List ι}
    (h : ∀ i ∈ is, ∀ s, ∃ s', f s i = some s') (s : σ) : ∃ s', is.foldlM f s = some s' := by
  induction is generalizing s with
  | nil => exact ⟨s, rfl⟩
  | cons i is ih =>
    obtain ⟨mid, hmid⟩ := h i List.mem_cons_self s
    rw [List.foldlM_cons, hmid]
    exact ih (fun i hi => h i (List.mem_cons_of_mem _ hi)) mid

/-- The runs of a system whose steps are labelled. -/
inductive Run (step : σ → ι → σ → Prop) : σ → List ι → σ → Prop
  | nil (s : σ) : Run step s [] s
  | snoc {s s' s'' : σ} {is : List ι} {i : ι} (h : Run step s is s') (hs : step s' i s'') :
      Run step s (is ++ [i]) s''

namespace Run

variable {step step' : σ → ι → σ → Prop} {s s' : σ} {is : List ι}

/-- What holds at the start and is preserved by each step holds in every state reached. The
invariant may speak of the labels of the steps taken. -/
theorem invariant (inv : List ι → σ → Prop) (h0 : inv [] s)
    (hstep : ∀ is s i s', inv is s → step s i s' → inv (is ++ [i]) s') (h : Run step s is s') :
    inv is s' := by
  induction h with
  | nil => exact h0
  | snoc h hs ih => exact hstep _ _ _ _ ih hs

/-- An invariant of states alone. -/
theorem preserves (inv : σ → Prop) (h0 : inv s) (hstep : ∀ s i s', inv s → step s i s' → inv s')
    (h : Run step s is s') : inv s' :=
  h.invariant (fun _ => inv) h0 (fun _ => hstep)

/-- A run has at most as many steps as a measure can fall that each step lowers. -/
theorem length_add_le (inv : σ → Prop) (measure : σ → Nat) (h0 : inv s)
    (hstep : ∀ s i s', inv s → step s i s' → inv s' ∧ measure s' < measure s)
    (h : Run step s is s') : inv s' ∧ is.length + measure s' ≤ measure s := by
  refine h.invariant (fun is s' => inv s' ∧ is.length + measure s' ≤ measure s)
    ⟨h0, Nat.le_of_eq (Nat.zero_add _)⟩ ?_
  intro is mid i last hinv hs
  obtain ⟨hlast, hlt⟩ := hstep mid i last hinv.1 hs
  refine ⟨hlast, ?_⟩
  rw [List.length_append, List.length_singleton]
  omega

theorem mono (h : Run step s is s') (hsub : ∀ s i s', step s i s' → step' s i s') :
    Run step' s is s' := by
  induction h with
  | nil => exact .nil _
  | snoc h hs ih => exact .snoc ih (hsub _ _ _ hs)

theorem cons {i : ι} {mid : σ} (hs : step s i mid) (h : Run step mid is s') :
    Run step s (i :: is) s' := by
  induction h with
  | nil => exact .snoc (.nil s) hs
  | snoc h hlast ih => exact .snoc ih hlast

theorem append {mid : σ} {js : List ι} (h : Run step s is mid) (h' : Run step mid js s') :
    Run step s (is ++ js) s' := by
  induction h' with
  | nil => rwa [List.append_nil]
  | snoc h' hs ih =>
    rw [← List.append_assoc]
    exact .snoc ih hs

/-- The run of a step function along a list of labels. -/
theorem of_foldlM {ε : Type*} {f : σ → ι → Except ε σ} (h : is.foldlM f s = .ok s') :
    Run (fun s i s' => f s i = .ok s') s is s' := by
  induction is using List.reverseRecOn generalizing s' with
  | nil =>
    cases h
    exact .nil _
  | append_singleton is i ih =>
    rw [List.foldlM_append] at h
    obtain ⟨mid, hmid, hlast⟩ := bind_eq_ok.mp h
    rw [List.foldlM_cons] at hlast
    obtain ⟨last, hstep, hnil⟩ := bind_eq_ok.mp hlast
    cases hnil
    exact .snoc (ih hmid) hstep

/-- A run that is computed, with what is read from its last state. -/
theorem exists_of_foldlM {ε α : Type*} {f : σ → ι → Except ε σ} {g : σ → α} {a : α}
    (h : (is.foldlM f s).toOption.map g = some a) :
    ∃ s', Run (fun s i s' => f s i = .ok s') s is s' ∧ g s' = a := by
  cases hrun : is.foldlM f s with
  | error err =>
    rw [hrun] at h
    cases h
  | ok s' =>
    rw [hrun] at h
    exact ⟨s', of_foldlM hrun, by simpa [Except.toOption] using h⟩

/-- A run of a step that is computed when it is allowed, with what is read from its last state. -/
theorem exists_of_guarded {α : Type*} {f : σ → ι → Option σ} {p : σ → ι → Prop}
    [∀ s i, Decidable (p s i)] {g : σ → α} {a : α} {l : List ι}
    (h : (l.foldlM (fun s i => if p s i then f s i else none) s).map g = some a) :
    ∃ s', Run (fun s i s' => p s i ∧ f s i = some s') s l s' ∧ g s' = a := by
  induction l generalizing s with
  | nil => exact ⟨s, .nil s, Option.some.inj h⟩
  | cons i l ih =>
    rw [List.foldlM_cons] at h
    by_cases hp : p s i
    · rw [if_pos hp] at h
      cases hs : f s i with
      | none =>
        rw [hs] at h
        cases h
      | some mid =>
        rw [hs] at h
        obtain ⟨s', hrun, hg⟩ := ih h
        exact ⟨s', cons ⟨hp, hs⟩ hrun, hg⟩
    · rw [if_neg hp] at h
      cases h

end Run

end MuduoServer
