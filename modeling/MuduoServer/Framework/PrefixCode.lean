import Mathlib.Data.List.Basic

namespace MuduoServer

variable {α β γ : Type*} {enc : α → List β} {f : α → γ} {t rest rest' : List β} {as bs : List α}

/-- The code words with which a text begins are one word. -/
def PrefixCode (enc : α → List β) : Prop :=
  ∀ a b t, enc a <+: t → enc b <+: t → enc a = enc b

/-- A text is a sequence of words, and then a rest with which no word begins. -/
structure Remains (enc : α → List β) (t : List β) (as : List α) (rest : List β) : Prop where
  text : t = as.flatMap enc ++ rest
  last : ∀ a, ¬ enc a <+: rest

theorem Remains.nil (h : ∀ a, ¬ enc a <+: rest) : Remains enc rest [] rest := ⟨rfl, h⟩

/-- More text, in which no word comes to its end. -/
theorem Remains.append (h : Remains enc t as rest) (more : List β)
    (hlast : ∀ a, ¬ enc a <+: rest ++ more) : Remains enc (t ++ more) as (rest ++ more) :=
  ⟨by rw [h.text, List.append_assoc], hlast⟩

/-- More text, in which one word comes to its end. -/
theorem Remains.snoc (h : Remains enc t as rest) {more : List β} {a : α}
    (htext : rest ++ more = enc a ++ rest') (hlast : ∀ a, ¬ enc a <+: rest') :
    Remains enc (t ++ more) (as ++ [a]) rest' := by
  refine ⟨?_, hlast⟩
  rw [h.text, List.append_assoc, htext, List.flatMap_append, List.flatMap_singleton,
    List.append_assoc]

namespace PrefixCode

/-- What is read off the words of a text does not depend on how the text is divided. -/
theorem map_prefixed (h : PrefixCode enc) (hf : ∀ a b, enc a = enc b → f a = f b)
    (ha : Remains enc t as rest) (hb : bs.flatMap enc <+: t) : bs.map f <+: as.map f := by
  induction bs generalizing as t with
  | nil => exact List.nil_prefix
  | cons b bs ih =>
    rw [List.flatMap_cons] at hb
    have hword : enc b <+: t := (List.prefix_append _ _).trans hb
    cases as with
    | nil =>
      rw [ha.text] at hword
      exact (ha.last b hword).elim
    | cons a as =>
      have htext : t = enc a ++ (as.flatMap enc ++ rest) := by
        rw [ha.text, List.flatMap_cons, List.append_assoc]
      have heq := h a b t (htext ▸ List.prefix_append _ _) hword
      rw [htext, ← heq] at hb
      rw [List.map_cons, List.map_cons, hf a b heq]
      exact List.cons_prefix_cons.mpr
        ⟨rfl, ih ⟨rfl, ha.last⟩ ((List.prefix_append_right_inj _).mp hb)⟩

/-- A text has one rest. -/
theorem rest_unique (h : PrefixCode enc) (ha : Remains enc t as rest)
    (hb : Remains enc t bs rest') : rest = rest' := by
  have hab := h.map_prefixed (fun _ _ => id) ha (hb.text ▸ List.prefix_append _ _)
  have hba := h.map_prefixed (fun _ _ => id) hb (ha.text ▸ List.prefix_append _ _)
  have hmap : as.map enc = bs.map enc :=
    hba.eq_of_length (Nat.le_antisymm hba.length_le hab.length_le)
  have htext := ha.text.symm.trans hb.text
  rw [List.flatMap_def, List.flatMap_def, hmap] at htext
  exact List.append_cancel_left htext

/-- Where a text stops short of a sequence of words, its rest is the beginning of a word. -/
theorem rest_begins (h : PrefixCode enc) (ha : Remains enc t as rest)
    (hb : t <+: bs.flatMap enc) : rest = [] ∨ ∃ b, rest <+: enc b := by
  induction as generalizing t bs with
  | nil =>
    rw [ha.text, List.flatMap_nil, List.nil_append] at hb
    cases bs with
    | nil => exact .inl (List.prefix_nil.mp hb)
    | cons b bs =>
      rw [List.flatMap_cons] at hb
      rcases List.prefix_or_prefix_of_prefix hb (List.prefix_append _ _) with hrest | hword
      · exact .inr ⟨b, hrest⟩
      · exact (ha.last b hword).elim
  | cons a as ih =>
    have htext : t = enc a ++ (as.flatMap enc ++ rest) := by
      rw [ha.text, List.flatMap_cons, List.append_assoc]
    cases bs with
    | nil =>
      rw [List.flatMap_nil, List.prefix_nil, htext] at hb
      exact .inl (List.append_eq_nil_iff.mp (List.append_eq_nil_iff.mp hb).2).2
    | cons b bs =>
      rw [List.flatMap_cons] at hb
      have hword : enc a <+: enc b ++ bs.flatMap enc :=
        (htext ▸ List.prefix_append _ _ : enc a <+: t).trans hb
      have heq := h a b _ hword (List.prefix_append _ _)
      rw [htext, heq] at hb
      exact ih ⟨rfl, ha.last⟩ ((List.prefix_append_right_inj _).mp hb)

end PrefixCode

end MuduoServer
