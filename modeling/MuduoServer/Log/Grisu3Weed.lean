import Mathlib.Algebra.Order.Field.Rat
import Mathlib.Tactic.IntervalCases
import Mathlib.Tactic.Linarith
import MuduoServer.Log.Grisu3DiyFp

namespace MuduoServer.Grisu3

/-- What the condition of the loop says of numbers: one step more stays in the interval, and does
not lead away from the nearer end of the range of the number. -/
theorem weeds_iff {up delta tenKappa rest : UInt64} (hrest : rest.toNat ≤ delta.toNat)
    (hten : 0 < tenKappa.toNat) :
    weeds up delta tenKappa rest = true ↔
      rest.toNat + tenKappa.toNat ≤ delta.toNat ∧
        2 * rest.toNat + tenKappa.toNat ≤ 2 * up.toNat := by
  have h1 := up.toNat_lt
  have h2 := delta.toNat_lt
  have h3 := tenKappa.toNat_lt
  have h4 := rest.toNat_lt
  simp only [weeds, Bool.and_eq_true, Bool.or_eq_true, decide_eq_true_eq, ge_iff_le,
    UInt64.lt_iff_toNat_lt, UInt64.le_iff_toNat_le, UInt64.toNat_sub, UInt64.toNat_add]
  omega

/-- The condition behind the loop, likewise for the other end. -/
theorem further_iff (down delta tenKappa rest : UInt64) (hrest : rest.toNat ≤ delta.toNat)
    (hten : 0 < tenKappa.toNat) :
    (rest < down && delta - rest ≥ tenKappa &&
        (rest + tenKappa < down || down - rest > rest + tenKappa - down)) = true ↔
      rest.toNat + tenKappa.toNat ≤ delta.toNat ∧
        2 * rest.toNat + tenKappa.toNat < 2 * down.toNat := by
  have h1 := down.toNat_lt
  have h2 := delta.toNat_lt
  have h3 := tenKappa.toNat_lt
  have h4 := rest.toNat_lt
  simp only [Bool.and_eq_true, Bool.or_eq_true, decide_eq_true_eq, ge_iff_le, gt_iff_lt,
    UInt64.lt_iff_toNat_lt, UInt64.le_iff_toNat_le, UInt64.toNat_sub, UInt64.toNat_add]
  omega

theorem decrementLast_concat (init : Bytes) (c : UInt8) :
    decrementLast (init ++ [c]) = init ++ [c - 1] := by
  rw [decrementLast, List.length_append, List.length_singleton, Nat.add_sub_cancel]
  rw [List.modify_eq_set_getElem?]
  simp

theorem digitChar_sub_one {d : Nat} (hd : d < 9) : digitChar (d + 1) - 1 = digitChar d := by
  interval_cases d <;> rfl

/-- The loop has lowered the digit by `k` and moved the rest accordingly; each step was towards the
end `up` of the range of the number. -/
structure Weeded (init : Bytes) (d : Nat) (up delta tenKappa rest : Nat) (k : Nat)
    (s : Bytes × UInt64) : Prop where
  le : k ≤ d
  buffer : s.1 = init ++ [digitChar (d - k)]
  rest_eq : s.2.toNat = rest + k * tenKappa
  inside : rest + k * tenKappa ≤ delta
  nearer : 0 < k → 2 * (rest + k * tenKappa) ≤ 2 * up + tenKappa

section Round

variable {init buffer : Bytes} {d k : Nat} {wpW delta rest tenKappa ulp up : UInt64}

/-- One round of the loop. -/
theorem Weeded.step {s : Bytes × UInt64} (hd : d ≤ 9) (hten : 0 < tenKappa.toNat)
    (hbefore : delta.toNat ≤ d * tenKappa.toNat + rest.toNat)
    (h : Weeded init d up.toNat delta.toNat tenKappa.toNat rest.toNat k s)
    (hc : weeds up delta tenKappa s.2 = true) :
    Weeded init d up.toNat delta.toNat tenKappa.toNat rest.toNat (k + 1)
      (decrementLast s.1, s.2 + tenKappa) := by
  have hrest := h.rest_eq
  have hinside := h.inside
  have hlt := delta.toNat_lt
  rw [weeds_iff (by omega) hten] at hc
  have hmul : (k + 1) * tenKappa.toNat = k * tenKappa.toNat + tenKappa.toNat := by ring
  have hk : k < d := by
    by_contra hge
    have heq : k = d := Nat.le_antisymm h.le (Nat.not_lt.mp hge)
    subst heq
    omega
  refine ⟨hk, ?_, ?_, ?_, ?_⟩
  · have hsucc : d - k = d - (k + 1) + 1 := by omega
    dsimp only
    rw [h.buffer, decrementLast_concat, hsucc, digitChar_sub_one (by omega)]
  · dsimp only
    rw [UInt64.toNat_add, hrest, hmul]
    omega
  · omega
  · omega

variable (init wpW delta rest tenKappa ulp) in
/-- `round_weed` ends. If it succeeds, the number that is left lies safely inside the interval, and
no step up or down comes nearer to what the range of the number may hold. -/
theorem roundWeed_spec (hd : d ≤ 9) (hten : 0 < tenKappa.toNat) (hstop : rest.toNat < delta.toNat)
    (hbefore : delta.toNat ≤ d * tenKappa.toNat + rest.toNat) (hw : ulp.toNat ≤ wpW.toNat)
    (hw' : wpW.toNat + ulp.toNat ≤ delta.toNat) (hulp : 4 * ulp.toNat ≤ delta.toNat) :
    ∃ k ok s, Weeded init d (wpW.toNat - ulp.toNat) delta.toNat tenKappa.toNat rest.toNat k s ∧
      roundWeed (init ++ [digitChar d]) wpW delta rest tenKappa ulp = some (s.1, ok) ∧
      (ok = true → 2 * ulp.toNat ≤ s.2.toNat ∧ s.2.toNat + 4 * ulp.toNat ≤ delta.toNat ∧
        (s.2.toNat + tenKappa.toNat ≤ delta.toNat →
          2 * (wpW.toNat + ulp.toNat) ≤ 2 * s.2.toNat + tenKappa.toNat)) := by
  have hlt := delta.toNat_lt
  have hup : (wpW - ulp).toNat = wpW.toNat - ulp.toNat := by
    rw [UInt64.toNat_sub]
    omega
  have hdown : (wpW + ulp).toNat = wpW.toNat + ulp.toNat := by
    rw [UInt64.toNat_add]
    omega
  have hstart : Weeded init d (wpW - ulp).toNat delta.toNat tenKappa.toNat rest.toNat 0
      (init ++ [digitChar d], rest) :=
    ⟨Nat.zero_le _, rfl, by simp, by omega, by omega⟩
  have hfuel : (delta.toNat - rest.toNat) / tenKappa.toNat ≤ 10 := by
    refine Nat.div_le_of_le_mul ?_
    have hmul := Nat.mul_le_mul_right tenKappa.toNat hd
    omega
  obtain ⟨s, hs, ⟨k, hweeded⟩, hexit⟩ := whileLoop_returns
    (fun s : Bytes × UInt64 => weeds (wpW - ulp) delta tenKappa s.2)
    (fun s => (decrementLast s.1, s.2 + tenKappa)) 10 (s := (init ++ [digitChar d], rest))
    (fun s => ∃ k, Weeded init d (wpW - ulp).toNat delta.toNat tenKappa.toNat rest.toNat k s)
    (fun s => (delta.toNat - s.2.toNat) / tenKappa.toNat)
    (by
      rintro s ⟨k, hk⟩ hc
      have hnext := hk.step hd hten hbefore hc
      have hrest := hk.rest_eq
      have hinside := hk.inside
      have hrest' := hnext.rest_eq
      have hinside' := hnext.inside
      have hmul : (k + 1) * tenKappa.toNat = k * tenKappa.toNat + tenKappa.toNat := by ring
      refine ⟨⟨k + 1, hnext⟩, ?_⟩
      have hsub : delta.toNat - s.2.toNat =
          delta.toNat - (s.2 + tenKappa).toNat + tenKappa.toNat := by
        dsimp only at hrest'
        omega
      rw [hsub, Nat.add_div_right _ hten]
      exact Nat.lt_succ_self _)
    ⟨0, hstart⟩ hfuel
  have hrest := hweeded.rest_eq
  have hinside := hweeded.inside
  rw [hup] at hweeded
  have hthen := further_iff (wpW + ulp) delta tenKappa s.2 (by omega) hten
  rw [hdown] at hthen
  rw [roundWeed]
  rw [hs, Option.bind_eq_bind, Option.bind_some]
  dsimp only
  split_ifs with hfurther
  · exact ⟨k, false, s, hweeded, rfl, by simp⟩
  · refine ⟨k, _, s, hweeded, rfl, ?_⟩
    rw [hthen] at hfurther
    have h2 : (2 * ulp).toNat = 2 * ulp.toNat := by
      rw [UInt64.toNat_mul, show UInt64.toNat 2 = 2 from rfl]
      omega
    have h4 : (4 * ulp).toNat = 4 * ulp.toNat := by
      rw [UInt64.toNat_mul, show UInt64.toNat 4 = 4 from rfl]
      omega
    rw [Bool.and_eq_true, decide_eq_true_eq, decide_eq_true_eq, UInt64.le_iff_toNat_le,
      UInt64.le_iff_toNat_le, UInt64.toNat_sub, h2, h4]
    omega

end Round

end MuduoServer.Grisu3
