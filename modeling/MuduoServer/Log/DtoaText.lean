import MuduoServer.Log.Dtoa
import MuduoServer.Log.Grisu3Result
import MuduoServer.Log.NumberText

namespace MuduoServer.Grisu3

theorem digitChar_ofInt {d : Nat} (hd : d < 10) : digitChar d = UInt8.ofInt (48 + (d : Int)) := by
  interval_cases d <;> rfl

theorem u32Digits_eq (n : Nat) : (u32Digits n).reverse = decimal n := by
  induction n using Nat.strong_induction_on with
  | _ n ih =>
    have hmod : n - n / 10 * 10 = n % 10 := by omega
    rw [u32Digits, decimal_eq_if, hmod]
    by_cases hn : n < 10
    · rw [dif_pos (by omega), if_pos hn, Nat.mod_eq_of_lt hn, digitChar_ofInt hn]
      rfl
    · rw [dif_neg (by omega), if_neg hn, List.reverse_cons, ih (n / 10) (by omega),
        digitChar_ofInt (by omega)]

/-- One round swaps the ends of what is left. -/
theorem swapLoop_round {a b : Bytes} (hab : a.length = b.length) (l : Bytes) (x y : UInt8)
    (n : Nat) :
    swapLoop (a ++ ((x :: (l ++ [y])) ++ b)) a.length (n + 1) =
      swapLoop ((a ++ [y]) ++ (l ++ (x :: b))) (a ++ [y]).length n := by
  have hlen : ∀ z : UInt8,
      (a ++ ((z :: (l ++ [y])) ++ b)).length - 1 - a.length = a.length + (l.length + 1) := by
    intro z
    simp only [List.length_append, List.length_cons, List.length_nil]
    omega
  have hfirst : (a ++ ((x :: (l ++ [y])) ++ b)).getD a.length 0 = x := by
    rw [List.getD_eq_getElem?_getD, List.getElem?_append_right (le_refl _), Nat.sub_self]
    rfl
  have hlast : (a ++ ((x :: (l ++ [y])) ++ b)).getD (a.length + (l.length + 1)) 0 = y := by
    rw [List.getD_eq_getElem?_getD, List.getElem?_append_right (by omega), Nat.add_sub_cancel_left,
      List.cons_append, List.getElem?_cons_succ, List.append_assoc,
      List.getElem?_append_right (le_refl _), Nat.sub_self]
    rfl
  have hset : (a ++ ((x :: (l ++ [y])) ++ b)).set a.length y = a ++ ((y :: (l ++ [y])) ++ b) := by
    rw [List.set_append_right _ _ (le_refl _), Nat.sub_self]
    rfl
  have hset' : (a ++ ((y :: (l ++ [y])) ++ b)).set (a.length + (l.length + 1)) x =
      (a ++ [y]) ++ (l ++ (x :: b)) := by
    rw [List.set_append_right _ _ (by omega), Nat.add_sub_cancel_left, List.cons_append,
      List.set_cons_succ, List.append_assoc l, List.set_append_right _ _ (le_refl _), Nat.sub_self]
    simp
  rw [swapLoop, hfirst, hlen, hlast, hset]
  rw [hlen, hset', List.length_append, List.length_singleton]

theorem swapLoop_reverse {a b m : Bytes} (hab : a.length = b.length) {n : Nat}
    (hn : n = m.length / 2) : swapLoop (a ++ (m ++ b)) a.length n = a ++ (m.reverse ++ b) := by
  induction n generalizing a b m with
  | zero =>
    have hshort : m.reverse = m := by
      match m with
      | [] => rfl
      | [_] => rfl
      | _ :: _ :: m =>
        rw [List.length_cons, List.length_cons] at hn
        omega
    rw [swapLoop, hshort]
  | succ n ih =>
    obtain ⟨x, l, y, rfl⟩ : ∃ x l y, m = x :: (l ++ [y]) := by
      match m with
      | [] => simp at hn
      | x :: m =>
        rcases List.eq_nil_or_concat m with rfl | ⟨l, y, rfl⟩
        · simp at hn
        · exact ⟨x, l, y, by rw [List.concat_eq_append]⟩
    rw [swapLoop_round hab, ih (b := x :: b) (by simp [hab]) (by
      simp only [List.length_cons, List.length_append, List.length_nil] at hn
      omega)]
    simp

theorem u32ToString_eq (v : UInt32) : u32ToString v = decimal v.toNat := by
  have hswap := swapLoop_reverse (a := []) (b := []) (m := u32Digits v.toNat) rfl rfl
  rw [List.nil_append, List.append_nil, List.append_nil, List.nil_append, u32Digits_eq] at hswap
  exact hswap

theorem i32ToString_eq {i : Int} (h : i.natAbs < 2^32) : i32ToString i = decimalInt i := by
  rw [i32ToString, decimalInt]
  split_ifs with hneg
  · have habs : (-i).toNat = i.natAbs := by omega
    rw [u32ToString_eq, UInt32.toNat_ofNat', habs, Nat.mod_eq_of_lt h]
  · have habs : i.toNat = i.natAbs := by omega
    rw [u32ToString_eq, UInt32.toNat_ofNat', habs, Nat.mod_eq_of_lt h]

section Memory

variable {pre digits rest : Bytes} {dExp : Int}

/-- A text `text` at `pre.length` is continued. -/
theorem store_append (pre text : Bytes) {rest w : Bytes} {i : Nat}
    (hi : i = pre.length + text.length) (h : w.length ≤ rest.length) :
    store (pre ++ (text ++ rest)) i w = some (pre ++ ((text ++ w) ++ rest.drop w.length)) := by
  have hlen : (pre ++ text).length = i := by rw [List.length_append, hi]
  rw [store, if_pos (by
    simp only [List.length_append]
    omega), Slice.overwrite]
  rw [← List.append_assoc pre, ← hlen, List.take_left, ← List.drop_drop, List.drop_left]
  simp only [List.append_assoc]

/-- What lies in the way is overwritten. -/
theorem store_over (pre text : Bytes) {m rest bs : Bytes} {i : Nat}
    (hi : i = pre.length + text.length) (h : m.length = bs.length) :
    store (pre ++ (text ++ (m ++ rest))) i bs = some (pre ++ ((text ++ bs) ++ rest)) := by
  rw [store_append pre text hi (by
    rw [List.length_append]
    omega), ← h, List.drop_left]

/-- The end of a text moved by `k` places, whatever then stands between. -/
theorem copyBackward_text (pre a b rest : Bytes) {k : Nat} (hk : 0 < k)
    (hrest : k ≤ rest.length) :
    ∃ mid, mid.length = k ∧ Slice.copyBackward (pre ++ ((a ++ b) ++ rest))
      (pre.length + (a ++ b).length + k - 1) (pre.length + (a ++ b).length - 1) b.length =
        some (pre ++ (a ++ (mid ++ (b ++ rest.drop k)))) := by
  have hcopy := Slice.copyBackward_append (pre ++ a) b rest hk hrest
  refine ⟨(b ++ rest).take k, ?_, ?_⟩
  · rw [List.length_take, List.length_append]
    omega
  · rw [List.length_append, List.append_assoc pre] at hcopy
    rw [List.length_append, List.append_assoc a, ← Nat.add_assoc]
    simp only [List.append_assoc] at hcopy ⊢
    exact hcopy

theorem decimalInt_length {i : Int} (h : i.natAbs < 1000) : (decimalInt i).length ≤ 4 := by
  have hlen := decimal_length_le (k := 3) (by decide) h
  rw [decimalInt]
  split_ifs
  · rw [List.length_cons]
    omega
  · omega

/-- The exponent, and the NUL that comes with it. -/
theorem storeExponent_append (pre text : Bytes) {rest : Bytes} (hexp : dExp.natAbs < 1000)
    (hrest : 6 ≤ rest.length) :
    storeExponent (pre ++ (text ++ rest)) pre.length text.length dExp =
      some (pre ++ ((text ++ 101 :: decimalInt dExp) ++
        0 :: rest.drop (2 + (decimalInt dExp).length)),
        (text ++ 101 :: decimalInt dExp).length) := by
  have hlen := decimalInt_length hexp
  rw [storeExponent, store_append pre text rfl (by
    rw [List.length_singleton]
    omega), Option.bind_eq_bind, Option.bind_some, i32ToString_eq (by omega)]
  dsimp only
  rw [store_append pre (text ++ [101]) (by rw [List.length_append, List.length_singleton]) (by
    rw [List.length_drop, List.length_append, List.length_singleton, List.length_singleton]
    omega), Option.bind_some, Option.some.injEq, Prod.mk.injEq]
  refine ⟨?_, ?_⟩
  · have hdrop : 1 + ((decimalInt dExp).length + 1) = 2 + (decimalInt dExp).length := by omega
    simp only [List.append_assoc, List.cons_append, List.nil_append, List.drop_drop,
      List.length_append, List.length_singleton, hdrop]
  · rw [List.length_append, List.length_cons]
    omega

/-- An exponent that is zero is not written. -/
def exponentTail (e : Int) : Bytes := if e ≠ 0 then 101 :: decimalInt e else []

/-- What stands in front of the NUL: digits with a point or zeros, and an exponent or none. -/
def presented (digits : Bytes) (dExp : Int) : Bytes :=
  if dExp < 0 ∧ digits.length > 1 then
    let decimals := (min (-dExp) ((digits.length : Int) - 1)).toNat
    let k := digits.length - decimals
    digits.take k ++ 46 :: (digits.drop k ++ exponentTail (dExp + decimals))
  else if dExp < 0 ∧ dExp ≥ -3 then 46 :: (List.replicate ((-dExp).toNat - 1) 48 ++ digits)
  else if dExp < 0 ∨ dExp > 2 then digits ++ 101 :: decimalInt dExp
  else digits ++ List.replicate dExp.toNat 48

/-- The text `t` stands behind `pre` in place of the digits; behind it one byte may have changed. -/
def Presents (pre digits rest t : Bytes) (r : Option (Bytes × Nat)) : Prop :=
  ∃ m, r = some (pre ++ (t ++ m), t.length) ∧ 0 < m.length ∧
    m.drop 1 = rest.drop (t.length + 1 - digits.length)

theorem storeExponent_presents (text : Bytes) (hexp : dExp.natAbs < 1000) {k : Nat}
    (hk : text.length = digits.length + k) (hrest : k + 6 ≤ rest.length) :
    Presents pre digits rest (text ++ 101 :: decimalInt dExp)
      (storeExponent (pre ++ (text ++ rest.drop k)) pre.length text.length dExp) := by
  rw [storeExponent_append pre text hexp (by
    rw [List.length_drop]
    omega)]
  refine ⟨_, rfl, Nat.succ_pos _, ?_⟩
  rw [List.length_append, List.length_cons, List.drop_succ_cons, List.drop_zero, List.drop_drop]
  congr 1
  omega

/-- A point between the digits, and an exponent where it does not stand behind the first one. -/
theorem present_point {decimals : Nat} (hlen : decimals ≤ digits.length)
    (hexp : (dExp + decimals).natAbs < 1000) (hrest : 8 ≤ rest.length) :
    Presents pre digits rest
      (digits.take (digits.length - decimals) ++
        46 :: (digits.drop (digits.length - decimals) ++ exponentTail (dExp + decimals)))
      (do
        let mem ← Slice.copyBackward (pre ++ (digits ++ rest)) (pre.length + digits.length)
          (pre.length + digits.length - 1) decimals
        let mem ← store mem (pre.length + (digits.length - decimals)) [46]
        if dExp + decimals ≠ 0 then
          storeExponent mem pre.length (digits.length + 1) (dExp + decimals)
        else some (mem, digits.length + 1)) := by
  obtain ⟨mid, hmid, hcopy⟩ := copyBackward_text pre (digits.take (digits.length - decimals))
    (digits.drop (digits.length - decimals)) rest Nat.one_pos (by omega)
  have htake : (digits.take (digits.length - decimals)).length = digits.length - decimals := by
    rw [List.length_take]
    omega
  have hdrop : (digits.drop (digits.length - decimals)).length = decimals := by
    rw [List.length_drop]
    omega
  rw [List.take_append_drop, hdrop, Nat.add_sub_cancel] at hcopy
  rw [hcopy, Option.bind_eq_bind, Option.bind_some, store_over pre _ (by rw [htake]) (by
    rw [hmid]
    rfl), Option.bind_some]
  generalize digits.take (digits.length - decimals) = a at *
  generalize digits.drop (digits.length - decimals) = b at *
  have hregroup : a ++ [46] ++ (b ++ rest.drop 1) = (a ++ 46 :: b) ++ rest.drop 1 := by simp
  have hlength : (a ++ 46 :: b).length = digits.length + 1 := by
    rw [List.length_append, List.length_cons]
    omega
  rw [hregroup, ← hlength, exponentTail]
  split_ifs with hmore
  · have hcons : a ++ 46 :: (b ++ 101 :: decimalInt (dExp + decimals)) =
        (a ++ 46 :: b) ++ 101 :: decimalInt (dExp + decimals) := by simp
    rw [hcons]
    exact storeExponent_presents _ hexp hlength (by omega)
  · rw [List.append_nil]
    refine ⟨_, rfl, ?_, ?_⟩
    · rw [List.length_drop]
      omega
    · rw [List.drop_drop, hlength]
      congr 1
      omega

/-- A point and zeros in front of the digits. -/
theorem present_zeros {z : Nat} (hrest : z + 2 ≤ rest.length) :
    Presents pre digits rest (46 :: (List.replicate z 48 ++ digits))
      (do
        let mem ← Slice.copyBackward (pre ++ (digits ++ rest)) (pre.length + digits.length + z)
          (pre.length + digits.length - 1) digits.length
        let mem ← store mem pre.length [46]
        let mem ← store mem (pre.length + 1) (List.replicate z 48)
        some (mem, digits.length + (z + 1))) := by
  obtain ⟨mid, hmid, hcopy⟩ := copyBackward_text pre [] digits rest (Nat.succ_pos z)
    (by omega)
  obtain ⟨c, cs, rfl⟩ : ∃ c cs, mid = c :: cs := List.exists_cons_of_length_eq_add_one hmid
  have hdot : store (pre ++ ([] ++ (c :: cs ++ (digits ++ rest.drop (z + 1))))) pre.length [46] =
      some (pre ++ ([46] ++ (cs ++ (digits ++ rest.drop (z + 1))))) :=
    store_over pre [] (m := [c]) rfl rfl
  have hdest : pre.length + digits.length + (z + 1) - 1 = pre.length + digits.length + z := rfl
  rw [List.nil_append, hdest] at hcopy
  rw [hcopy, Option.bind_eq_bind, Option.bind_some, hdot, Option.bind_some,
    store_over pre [46] (show pre.length + 1 = pre.length + [(46 : UInt8)].length from rfl) (by
      rw [List.length_replicate]
      exact Nat.succ.inj hmid), Option.bind_some]
  refine ⟨rest.drop (z + 1), ?_, ?_, ?_⟩
  · rw [Option.some.injEq, Prod.mk.injEq]
    refine ⟨by simp, ?_⟩
    rw [List.length_cons, List.length_append, List.length_replicate]
    omega
  · rw [List.length_drop]
    omega
  · rw [List.drop_drop, List.length_cons, List.length_append, List.length_replicate]
    congr 1
    omega

theorem presentText_spec (pre : Bytes) (hne : digits ≠ []) (hexp : dExp.natAbs < 1000)
    (hrest : 8 ≤ rest.length) :
    Presents pre digits rest (presented digits dExp)
      (presentText (pre ++ (digits ++ rest)) pre.length digits.length dExp) := by
  have hpos := List.length_pos_iff.mpr hne
  rw [presentText, presented]
  by_cases hpoint : dExp < 0 ∧ digits.length > 1
  · have hmax : max 1 ((digits.length : Int) - 1) = (digits.length : Int) - 1 := by omega
    rw [if_pos hpoint, if_pos hpoint, hmax]
    exact present_point (by omega) (by omega) hrest
  rw [if_neg hpoint, if_neg hpoint]
  by_cases hshort : dExp < 0 ∧ dExp ≥ -3
  · obtain ⟨z, hz⟩ : ∃ z : Nat, dExp = -(z + 1 : Nat) := ⟨(-dExp).toNat - 1, by omega⟩
    have hzeros : (-dExp).toNat - 1 = z := by omega
    have hlen : (-dExp).toNat = z + 1 := by omega
    rw [if_pos hshort, if_pos hshort, hzeros, hlen]
    exact present_zeros (by omega)
  rw [if_neg hshort, if_neg hshort]
  by_cases hlong : dExp < 0 ∨ dExp > 2
  · rw [if_pos hlong, if_pos hlong]
    exact storeExponent_presents (k := 0) digits hexp rfl (by omega)
  · rw [if_neg hlong, if_neg hlong, store_append pre digits rfl (by
      rw [List.length_replicate]
      omega), Option.bind_eq_bind, Option.bind_some]
    refine ⟨_, by rw [List.length_append, List.length_replicate], ?_, ?_⟩
    · rw [List.length_drop]
      omega
    · rw [List.drop_drop, List.length_append, List.length_replicate]
      congr 1
      omega

/-- The text replaces the digits, and a NUL stands behind it. -/
theorem present_spec (hne : digits ≠ []) (hexp : dExp.natAbs < 1000) (hrest : 8 ≤ rest.length) :
    present (pre ++ (digits ++ rest)) pre.length digits.length dExp =
      some (pre ++ (presented digits dExp ++
        0 :: rest.drop ((presented digits dExp).length + 1 - digits.length)),
        pre.length + (presented digits dExp).length) := by
  obtain ⟨m, htext, hm, hdrop⟩ := presentText_spec pre hne hexp hrest
  rw [present, htext, Option.bind_eq_bind, Option.bind_some]
  dsimp only
  rw [store_append pre _ rfl (by
    rw [List.length_singleton]
    omega), Option.bind_eq_bind, Option.bind_some, List.length_singleton, hdrop, List.append_assoc]
  rfl

end Memory

end MuduoServer.Grisu3
