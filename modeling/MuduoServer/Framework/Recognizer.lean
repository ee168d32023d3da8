import Mathlib.Data.List.Induction
import Mathlib.Data.Set.Basic

namespace MuduoServer

variable {α σ : Type*}

/-- A text with which a word of the language begins. -/
def Begins (L : Set (List α)) (p : List α) : Prop := ∃ w ∈ L, p <+: w

/-- An automaton that decides a language as it reads: it is `live` on the proper beginnings of
words and on no other text, and `done` where a word ends. -/
structure Decides (next : σ → α → σ) (s : σ) (live done : σ → Prop) (L : Set (List α)) : Prop where
  part : ∀ w ∈ L, ∀ p, p <+: w → p ≠ w → live (p.foldl next s)
  viable : ∀ p, live (p.foldl next s) → Begins L p
  ends : ∀ p c, live (p.foldl next s) → done (next (p.foldl next s) c) → p ++ [c] ∈ L
  whole : ∀ w ∈ L, done (w.foldl next s)

theorem Begins.mono {L : Set (List α)} {p q : List α} (h : Begins L q) (hpq : p <+: q) :
    Begins L p := by
  obtain ⟨w, hw, hq⟩ := h
  exact ⟨w, hw, hpq.trans hq⟩

namespace Decides

variable {next : σ → α → σ} {s : σ} {live done : σ → Prop} {L : Set (List α)} {t : List α}

/-- A text without a word, with which a word begins. -/
theorem live_of_begins (h : Decides next s live done L) (ht : t ∉ L) (hb : Begins L t) :
    live (t.foldl next s) := by
  obtain ⟨w, hw, hpre⟩ := hb
  apply h.part w hw t hpre
  rintro rfl
  exact ht hw

/-- A text on which the automaton has failed begins no word. -/
theorem not_begins (h : Decides next s live done L) (hlive : ¬live (t.foldl next s))
    (hdone : ¬done (t.foldl next s)) : ¬Begins L t := by
  intro hb
  by_cases ht : t ∈ L
  · exact hdone (h.whole t ht)
  · exact hlive (h.live_of_begins ht hb)

/-- A text begins with one word at most. -/
theorem word_unique (h : Decides next s live done L) (hend : ∀ st, done st → ¬live st)
    {w w' : List α} (hw : w ∈ L) (hw' : w' ∈ L) (ht : w <+: t) (ht' : w' <+: t) : w = w' := by
  by_contra hne
  rcases List.prefix_or_prefix_of_prefix ht ht' with hpre | hpre
  · exact hend _ (h.whole w hw) (h.part w' hw' w hpre hne)
  · exact hend _ (h.whole w' hw') (h.part w hw w' hpre (Ne.symm hne))

/-- The automaton fails at the first byte with which the text begins no word any more. -/
theorem first_error (h : Decides next s live done L) (hempty : Begins L [])
    (hno : ∀ p, p <+: t → p ∉ L) (hdead : ¬Begins L t) :
    ∃ p c, p ++ [c] <+: t ∧ Begins L p ∧ ¬Begins L (p ++ [c]) ∧ live (p.foldl next s) ∧
      ¬live (next (p.foldl next s) c) ∧ ¬done (next (p.foldl next s) c) := by
  induction t using List.reverseRecOn with
  | nil => exact (hdead hempty).elim
  | append_singleton t c ih =>
    by_cases hb : Begins L t
    · have hlive := h.live_of_begins (hno t (List.prefix_append t [c])) hb
      refine ⟨t, c, List.prefix_rfl, hb, hdead, hlive, ?_, ?_⟩
      · intro hnext
        refine hdead (h.viable (t ++ [c]) ?_)
        rwa [List.foldl_append]
      · intro hdone
        exact hno (t ++ [c]) List.prefix_rfl (h.ends t c hlive hdone)
    · obtain ⟨p, c', hpre, hrest⟩ :=
        ih (fun p hp => hno p (hp.trans (List.prefix_append t [c]))) hb
      exact ⟨p, c', hpre.trans (List.prefix_append t [c]), hrest⟩

end Decides

end MuduoServer
