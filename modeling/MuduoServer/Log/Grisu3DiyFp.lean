import Mathlib.Algebra.Order.Field.Power
import Mathlib.Algebra.Order.Ring.Rat
import Mathlib.Tactic.Linarith
import Mathlib.Tactic.Positivity
import Mathlib.Tactic.Ring
import MuduoServer.Log.Grisu3

namespace MuduoServer

/-- A mask of `j` bits from the bit `k` on. -/
theorem land_mask (n j k : Nat) : n &&& (2^j - 1) * 2^k = n / 2^k % 2^j * 2^k := by
  apply Nat.eq_of_testBit_eq
  intro i
  rw [← Nat.shiftLeft_eq, ← Nat.shiftLeft_eq, Nat.testBit_and, Nat.testBit_shiftLeft,
    Nat.testBit_shiftLeft, Nat.testBit_two_pow_sub_one, Nat.testBit_mod_two_pow,
    Nat.testBit_div_two_pow]
  by_cases hi : k ≤ i
  · rw [show i - k + k = i by omega]
    simp [hi, Bool.and_comm]
  · simp [hi]

namespace Grisu3

theorem toNat_land_mask {mask : UInt64} {j k : Nat} (hmask : mask.toNat = (2^j - 1) * 2^k)
    (x : UInt64) : (x &&& mask).toNat = x.toNat / 2^k % 2^j * 2^k := by
  rw [UInt64.toNat_and, hmask, land_mask]

theorem land_mask_eq_zero {mask : UInt64} {j k : Nat} (hmask : mask.toNat = (2^j - 1) * 2^k)
    (x : UInt64) : x &&& mask = 0 ↔ x.toNat / 2^k % 2^j = 0 := by
  rw [← UInt64.toNat_inj, toNat_land_mask hmask, UInt64.toNat_zero, Nat.mul_eq_zero]
  have hpos : 2^k ≠ 0 := (Nat.two_pow_pos k).ne'
  exact or_iff_left hpos

/-- The partial products, added without the bits that do not count. -/
theorem product_of_halves {ac ad bc bd : Nat} :
    (ac * 2^64 + (ad + bc) * 2^32 + bd + 2^63) / 2^64 =
      ac + ad / 2^32 + bc / 2^32 + (bd / 2^32 + ad % 2^32 + bc % 2^32 + 2^31) / 2^32 := by
  omega

theorem mul_lt_of_halves {a b : Nat} (ha : a < 2^32) (hb : b < 2^32) :
    a * b ≤ (2^32 - 1) * (2^32 - 1) :=
  Nat.mul_le_mul (by omega) (by omega)

/-- `multiply` gives the upper half of the product, rounded. -/
theorem multiply_f (x y : DiyFp) :
    (multiply x y).f.toNat = (x.f.toNat * y.f.toNat + 2^63) / 2^64 := by
  have hx := x.f.toNat_lt
  have hy := y.f.toNat_lt
  have hmask : MASK32.toNat = 2^32 - 1 := rfl
  have h32 : UInt64.toNat 32 % 64 = 32 := rfl
  have h31 : UInt64.toNat 31 % 64 = 31 := rfl
  have h1 : UInt64.toNat 1 = 1 := rfl
  have ha : x.f.toNat / 2^32 < 2^32 := by omega
  have hb : x.f.toNat % 2^32 < 2^32 := by omega
  have hc : y.f.toNat / 2^32 < 2^32 := by omega
  have hd : y.f.toNat % 2^32 < 2^32 := by omega
  have hac := mul_lt_of_halves ha hc
  have hbc := mul_lt_of_halves hb hc
  have had := mul_lt_of_halves ha hd
  have hbd := mul_lt_of_halves hb hd
  have hsplit : x.f.toNat * y.f.toNat =
      x.f.toNat / 2^32 * (y.f.toNat / 2^32) * 2^64 +
        (x.f.toNat / 2^32 * (y.f.toNat % 2^32) + x.f.toNat % 2^32 * (y.f.toNat / 2^32)) * 2^32 +
          x.f.toNat % 2^32 * (y.f.toNat % 2^32) := by
    conv_lhs => rw [← Nat.div_add_mod x.f.toNat (2^32), ← Nat.div_add_mod y.f.toNat (2^32)]
    ring
  rw [multiply]
  dsimp only
  simp only [UInt64.toNat_add, UInt64.toNat_mul, UInt64.toNat_shiftRight, UInt64.toNat_and, hmask,
    Nat.and_two_pow_sub_one_eq_mod, UInt64.toNat_shiftLeft, h32, h31, Nat.shiftRight_eq_div_pow,
    Nat.shiftLeft_eq]
  rw [hsplit, product_of_halves]
  generalize x.f.toNat / 2^32 * (y.f.toNat / 2^32) = ac at hac ⊢
  generalize x.f.toNat % 2^32 * (y.f.toNat / 2^32) = bc at hbc ⊢
  generalize x.f.toNat / 2^32 * (y.f.toNat % 2^32) = ad at had ⊢
  generalize x.f.toNat % 2^32 * (y.f.toNat % 2^32) = bd at hbd ⊢
  -- none of the operations wraps
  rw [h1, Nat.mod_eq_of_lt (a := ac) (by omega), Nat.mod_eq_of_lt (a := bc) (by omega),
    Nat.mod_eq_of_lt (a := ad) (by omega), Nat.mod_eq_of_lt (a := bd) (by omega)]
  omega

theorem log2_mul_two_pow {n : Nat} (hn : n ≠ 0) (k : Nat) : (n * 2^k).log2 = n.log2 + k := by
  have hpos := Nat.two_pow_pos k
  have hlo := Nat.log2_self_le hn
  have hhi := (Nat.log2_lt hn).mp (Nat.lt_succ_self n.log2)
  rw [Nat.log2_eq_iff (Nat.mul_ne_zero hn hpos.ne'), Nat.add_right_comm, pow_add, pow_add]
  exact ⟨Nat.mul_le_mul_right _ hlo, (Nat.mul_lt_mul_right hpos).mpr hhi⟩

/-- A shift that loses no bits. -/
theorem toNat_shiftLeft {x a : UInt64} {k : Nat} (hk : a.toNat = k) (hlt : k < 64)
    (h : x.toNat * 2^k < 2^64) : (x <<< a).toNat = x.toNat * 2^k := by
  rw [UInt64.toNat_shiftLeft, hk, Nat.mod_eq_of_lt hlt, Nat.shiftLeft_eq, Nat.mod_eq_of_lt h]

/-- A loop that shifts by `k` bits while the first `k` bits are zero. -/
theorem shiftLoop_returns (k fuel : Nat) (mask amount : UInt64) (hk : 0 < k ∧ k < 64)
    (hmask : mask.toNat = (2^k - 1) * 2^(64 - k)) (hamount : amount.toNat = k) (n : DiyFp)
    (hn : n.f.toNat ≠ 0) (hfuel : (63 - n.f.toNat.log2) / k ≤ fuel) :
    ∃ m, ∃ s : Nat, whileLoop (fun n : DiyFp => n.f &&& mask = 0)
        (fun n => ⟨n.f <<< amount, n.e - k⟩) fuel n = some m ∧
      m.f.toNat = n.f.toNat * 2^s ∧ m.e = n.e - s ∧ 2^(64 - k) ≤ m.f.toNat := by
  have htop : 2^(64 - k) * 2^k = 2^64 := by
    rw [← pow_add]
    congr 1
    omega
  have hcond : ∀ m : DiyFp, m.f &&& mask = 0 ↔ m.f.toNat < 2^(64 - k) := by
    intro m
    have hlt : m.f.toNat / 2^(64 - k) < 2^k := by
      rw [Nat.div_lt_iff_lt_mul (Nat.two_pow_pos _), Nat.mul_comm, htop]
      exact m.f.toNat_lt
    rw [land_mask_eq_zero hmask, Nat.mod_eq_of_lt hlt, Nat.div_eq_zero_iff_lt (Nat.two_pow_pos _)]
  have hstep : ∀ m : DiyFp, (∃ s : Nat, m.f.toNat = n.f.toNat * 2^s ∧ m.e = n.e - s) →
      decide (m.f &&& mask = 0) = true →
        (∃ s : Nat, (m.f <<< amount).toNat = n.f.toNat * 2^s ∧ m.e - k = n.e - s) ∧
          (63 - (m.f <<< amount).toNat.log2) / k < (63 - m.f.toNat.log2) / k := by
    rintro m ⟨s, hf, he⟩ hc
    have hc := (hcond m).mp (of_decide_eq_true hc)
    have hne : m.f.toNat ≠ 0 := by
      rw [hf]
      exact Nat.mul_ne_zero hn (Nat.two_pow_pos s).ne'
    have hshift : (m.f <<< amount).toNat = m.f.toNat * 2^k :=
      toNat_shiftLeft hamount hk.2 (by
        rw [← htop]
        exact (Nat.mul_lt_mul_right (Nat.two_pow_pos k)).mpr hc)
    refine ⟨⟨s + k, ?_, ?_⟩, ?_⟩
    · rw [hshift, hf, pow_add, Nat.mul_assoc]
    · push_cast
      omega
    · have hlog : m.f.toNat.log2 < 64 - k := (Nat.log2_lt hne).mpr hc
      rw [hshift, log2_mul_two_pow hne]
      have hsub : 63 - m.f.toNat.log2 = 63 - (m.f.toNat.log2 + k) + k := by omega
      rw [hsub, Nat.add_div_right _ hk.1]
      exact Nat.lt_succ_self _
  obtain ⟨m, hm, ⟨s, hf, he⟩, hexit⟩ := whileLoop_returns
    (fun n : DiyFp => n.f &&& mask = 0) (fun n => ⟨n.f <<< amount, n.e - k⟩) fuel (s := n)
    (fun m => ∃ s : Nat, m.f.toNat = n.f.toNat * 2^s ∧ m.e = n.e - s)
    (fun m => (63 - m.f.toNat.log2) / k) hstep ⟨0, by simp, by simp⟩ hfuel
  have hnot : ¬m.f &&& mask = 0 := of_decide_eq_false hexit
  rw [hcond] at hnot
  exact ⟨m, s, hm, hf, he, by omega⟩

/-- `normalize_diy_fp` ends, and shifts the first bit to the front. -/
theorem normalizeDiyFp_returns (n : DiyFp) (hn : n.f.toNat ≠ 0) :
    ∃ m, ∃ s : Nat, normalizeDiyFp n = some m ∧ m.f.toNat = n.f.toNat * 2^s ∧ m.e = n.e - s ∧
      2^63 ≤ m.f.toNat := by
  obtain ⟨n1, s1, h1, hf1, he1, -⟩ := shiftLoop_returns 10 7 0xFFC0000000000000 10 (by decide)
    (by decide) (by decide) n hn (by omega)
  have hn1 : n1.f.toNat ≠ 0 := by
    rw [hf1]
    exact Nat.mul_ne_zero hn (Nat.two_pow_pos s1).ne'
  obtain ⟨m, s2, h2, hf2, he2, hge⟩ := shiftLoop_returns 1 64 D64_SIGN 1 (by decide)
    (by decide) (by decide) n1 hn1 (by omega)
  refine ⟨m, s1 + s2, ?_, ?_, ?_, hge⟩
  · rw [normalizeDiyFp]
    exact Option.bind_eq_some_iff.mpr ⟨n1, h1, h2⟩
  · rw [hf2, hf1, pow_add, Nat.mul_assoc]
  · rw [he2, he1]
    push_cast
    omega

end Grisu3

end MuduoServer
