import Mathlib.Data.List.AList
import Mathlib.Data.List.Chain

namespace MuduoServer

universe u

/-- A node of a doubly linked list, as it lies in memory. -/
structure Node (P α : Type u) where
  value : α
  prev : Option P
  next : Option P

/-- The live nodes, by their address. -/
abbrev Heap (P α : Type u) := AList (fun _ : P => Node P α)

namespace Heap

variable {P α : Type u} [DecidableEq P]

def value? (h : Heap P α) (p : P) : Option α := (h.lookup p).map Node.value

def prev? (h : Heap P α) (p : P) : Option P := (h.lookup p).bind Node.prev

def next? (h : Heap P α) (p : P) : Option P := (h.lookup p).bind Node.next

/-- A write through a pointer; no node lives behind a null or a dangling one. -/
def modify (h : Heap P α) (p : P) (f : Node P α → Node P α) : Option (Heap P α) :=
  (h.lookup p).map fun n => AList.insert p (f n) h

def setValue (h : Heap P α) (p : P) (v : α) : Option (Heap P α) :=
  h.modify p fun n => { n with value := v }

def setPrev (h : Heap P α) (p : P) (q : Option P) : Option (Heap P α) :=
  h.modify p fun n => { n with prev := q }

def setNext (h : Heap P α) (p : P) (q : Option P) : Option (Heap P α) :=
  h.modify p fun n => { n with next := q }

def alloc (h : Heap P α) (p : P) (v : α) : Heap P α := AList.insert p ⟨v, none, none⟩ h

def free (h : Heap P α) (p : P) : Heap P α := AList.erase p h

/-- Link the node `p` in before the node `t`. -/
def insertBefore (h : Heap P α) (t p : P) : Option (Heap P α) := do
  let h ← h.setPrev p (h.prev? t)
  let h ← h.setNext p (some t)
  let a ← h.prev? t
  let h ← h.setNext a (some p)
  h.setPrev t (some p)

/-- Link the node `p` out. -/
def unlink (h : Heap P α) (p : P) : Option (Heap P α) := do
  let a ← h.prev? p
  let h ← h.setNext a (h.next? p)
  let b ← h.next? p
  let h ← h.setPrev b (h.prev? p)
  let h ← h.setPrev p none
  h.setNext p none

variable {h h' : Heap P α} {p q a b t : P} {v : α}

theorem value?_isSome : (h.value? p).isSome ↔ p ∈ h := by
  rw [value?, Option.isSome_map, AList.lookup_isSome]

theorem mem_of_next? (hq : h.next? p = some q) : p ∈ h := by
  obtain ⟨n, hn, -⟩ := Option.bind_eq_some_iff.mp hq
  exact AList.lookup_isSome.mp (by rw [hn]; rfl)

theorem mem_of_prev? (hq : h.prev? p = some q) : p ∈ h := by
  obtain ⟨n, hn, -⟩ := Option.bind_eq_some_iff.mp hq
  exact AList.lookup_isSome.mp (by rw [hn]; rfl)

/-- What is read after a write through a live pointer. -/
theorem modify_spec (f : Node P α → Node P α) (hp : p ∈ h) :
    ∃ n h', h.lookup p = some n ∧ h.modify p f = some h' ∧
      h'.value? = Function.update h.value? p (some (f n).value) ∧
      h'.prev? = Function.update h.prev? p (f n).prev ∧
      h'.next? = Function.update h.next? p (f n).next := by
  obtain ⟨n, hn⟩ := Option.isSome_iff_exists.mp (AList.lookup_isSome.mpr hp)
  refine ⟨n, AList.insert p (f n) h, hn, by rw [modify, hn]; rfl, ?_, ?_, ?_⟩
  all_goals
    funext q
    by_cases hq : q = p
    · subst hq
      simp [value?, prev?, next?]
    · simp [value?, prev?, next?, hq]

theorem setValue_spec (v : α) (hp : p ∈ h) :
    ∃ h', h.setValue p v = some h' ∧ h'.value? = Function.update h.value? p (some v) ∧
      h'.prev? = h.prev? ∧ h'.next? = h.next? := by
  obtain ⟨n, h', hn, hm, hv, hpr, hnx⟩ := modify_spec (fun n => { n with value := v }) hp
  refine ⟨h', hm, hv, ?_, ?_⟩
  · rw [hpr, Function.update_eq_self_iff]
    simp [prev?, hn]
  · rw [hnx, Function.update_eq_self_iff]
    simp [next?, hn]

theorem setPrev_spec (q : Option P) (hp : p ∈ h) :
    ∃ h', h.setPrev p q = some h' ∧ h'.value? = h.value? ∧
      h'.prev? = Function.update h.prev? p q ∧ h'.next? = h.next? := by
  obtain ⟨n, h', hn, hm, hv, hpr, hnx⟩ := modify_spec (fun n => { n with prev := q }) hp
  refine ⟨h', hm, ?_, hpr, ?_⟩
  · rw [hv, Function.update_eq_self_iff]
    simp [value?, hn]
  · rw [hnx, Function.update_eq_self_iff]
    simp [next?, hn]

theorem setNext_spec (q : Option P) (hp : p ∈ h) :
    ∃ h', h.setNext p q = some h' ∧ h'.value? = h.value? ∧ h'.prev? = h.prev? ∧
      h'.next? = Function.update h.next? p q := by
  obtain ⟨n, h', hn, hm, hv, hpr, hnx⟩ := modify_spec (fun n => { n with next := q }) hp
  refine ⟨h', hm, ?_, ?_, hnx⟩
  · rw [hv, Function.update_eq_self_iff]
    simp [value?, hn]
  · rw [hpr, Function.update_eq_self_iff]
    simp [prev?, hn]

theorem mem_of_value?_eq (hv : h'.value? = h.value?) (hp : p ∈ h) : p ∈ h' := by
  rw [← value?_isSome, hv, value?_isSome]
  exact hp

theorem insertBefore_spec (hp : p ∈ h) (ha : h.prev? t = some a) (ham : a ∈ h) (hpt : t ≠ p) :
    ∃ h', h.insertBefore t p = some h' ∧ h'.value? = h.value? ∧
      h'.prev? = Function.update (Function.update h.prev? p (some a)) t (some p) ∧
      h'.next? = Function.update (Function.update h.next? p (some t)) a (some p) := by
  obtain ⟨h₁, e₁, v₁, p₁, n₁⟩ := setPrev_spec (h.prev? t) hp
  obtain ⟨h₂, e₂, v₂, p₂, n₂⟩ := setNext_spec (some t) (mem_of_value?_eq v₁ hp)
  have v₂' : h₂.value? = h.value? := v₂.trans v₁
  have hread : h₂.prev? t = some a := by rw [p₂, p₁, Function.update_of_ne hpt, ha]
  obtain ⟨h₃, e₃, v₃, p₃, n₃⟩ := setNext_spec (some p) (mem_of_value?_eq v₂' ham)
  obtain ⟨h₄, e₄, v₄, p₄, n₄⟩ :=
    setPrev_spec (some p) (mem_of_value?_eq (v₃.trans v₂') (mem_of_prev? ha))
  refine ⟨h₄, ?_, v₄.trans (v₃.trans v₂'), ?_, ?_⟩
  · simp only [insertBefore, e₁, e₂, hread, e₃, e₄, Option.bind_eq_bind, Option.bind_some]
  · rw [p₄, p₃, p₂, p₁, ha]
  · rw [n₄, n₃, n₂, n₁]

theorem unlink_spec (ha : h.prev? p = some a) (hb : h.next? p = some b) (ham : a ∈ h)
    (hbm : b ∈ h) (hap : p ≠ a) :
    ∃ h', h.unlink p = some h' ∧ h'.value? = h.value? ∧
      h'.prev? = Function.update (Function.update h.prev? b (some a)) p none ∧
      h'.next? = Function.update (Function.update h.next? a (some b)) p none := by
  obtain ⟨h₁, e₁, v₁, p₁, n₁⟩ := setNext_spec (h.next? p) ham
  have hnext : h₁.next? p = some b := by rw [n₁, Function.update_of_ne hap, hb]
  have hprev : h₁.prev? p = some a := by rw [p₁, ha]
  obtain ⟨h₂, e₂, v₂, p₂, n₂⟩ := setPrev_spec (some a) (mem_of_value?_eq v₁ hbm)
  have v₂' : h₂.value? = h.value? := v₂.trans v₁
  obtain ⟨h₃, e₃, v₃, p₃, n₃⟩ :=
    setPrev_spec none (mem_of_value?_eq v₂' (mem_of_prev? ha))
  have v₃' : h₃.value? = h.value? := v₃.trans v₂'
  obtain ⟨h₄, e₄, v₄, p₄, n₄⟩ :=
    setNext_spec none (mem_of_value?_eq v₃' (mem_of_prev? ha))
  refine ⟨h₄, ?_, v₄.trans v₃', ?_, ?_⟩
  · simp only [unlink, ha, e₁, hnext, hprev, e₂, e₃, e₄, Option.bind_eq_bind, Option.bind_some]
  · rw [p₄, p₃, p₂, p₁]
  · rw [n₄, n₃, n₂, n₁, hb]

/-- A write to a pointer leaves the values, wherever it goes. -/
theorem value?_of_modify {f : Node P α → Node P α} (hf : ∀ n, (f n).value = n.value)
    (heq : h.modify p f = some h') : h'.value? = h.value? := by
  obtain ⟨n, hn, rfl⟩ := Option.map_eq_some_iff.mp heq
  funext q
  by_cases hq : q = p
  · subst hq
    simp [value?, hn, hf]
  · simp [value?, hq]

theorem value?_of_setPrev {q : Option P} (heq : h.setPrev p q = some h') : h'.value? = h.value? :=
  value?_of_modify (f := fun n => { n with prev := q }) (fun _ => rfl) heq

theorem value?_of_setNext {q : Option P} (heq : h.setNext p q = some h') : h'.value? = h.value? :=
  value?_of_modify (f := fun n => { n with next := q }) (fun _ => rfl) heq

theorem value?_of_unlink (heq : h.unlink p = some h') : h'.value? = h.value? := by
  obtain ⟨a, -, heq⟩ := Option.bind_eq_some_iff.mp heq
  obtain ⟨h₁, e₁, heq⟩ := Option.bind_eq_some_iff.mp heq
  obtain ⟨b, -, heq⟩ := Option.bind_eq_some_iff.mp heq
  obtain ⟨h₂, e₂, heq⟩ := Option.bind_eq_some_iff.mp heq
  obtain ⟨h₃, e₃, e₄⟩ := Option.bind_eq_some_iff.mp heq
  rw [value?_of_setNext e₄, value?_of_setPrev e₃, value?_of_setPrev e₂, value?_of_setNext e₁]

theorem value?_of_insertBefore (heq : h.insertBefore t p = some h') : h'.value? = h.value? := by
  obtain ⟨h₁, e₁, heq⟩ := Option.bind_eq_some_iff.mp heq
  obtain ⟨h₂, e₂, heq⟩ := Option.bind_eq_some_iff.mp heq
  obtain ⟨a, -, heq⟩ := Option.bind_eq_some_iff.mp heq
  obtain ⟨h₃, e₃, e₄⟩ := Option.bind_eq_some_iff.mp heq
  rw [value?_of_setPrev e₄, value?_of_setNext e₃, value?_of_setNext e₂, value?_of_setPrev e₁]

theorem alloc_spec (v : α) (hp : p ∉ h) :
    (h.alloc p v).value? = Function.update h.value? p (some v) ∧
      (h.alloc p v).prev? = h.prev? ∧ (h.alloc p v).next? = h.next? := by
  have hnone : h.lookup p = none := AList.lookup_eq_none.mpr hp
  refine ⟨?_, ?_, ?_⟩
  all_goals
    funext q
    by_cases hq : q = p
    · subst hq
      simp [alloc, value?, prev?, next?, hnone]
    · simp [alloc, value?, prev?, next?, hq]

theorem notMem_free : p ∉ h.free p := by
  rw [free, AList.mem_erase]
  exact fun hp => hp.1 rfl

theorem free_spec (h : Heap P α) (p : P) :
    (h.free p).value? = Function.update h.value? p none ∧
      (h.free p).prev? = Function.update h.prev? p none ∧
      (h.free p).next? = Function.update h.next? p none := by
  refine ⟨?_, ?_, ?_⟩
  all_goals
    funext q
    by_cases hq : q = p
    · subst hq
      simp [free, value?, prev?, next?]
    · simp [free, value?, prev?, next?, hq]

/-- Two nodes that point at each other. -/
def Links (h : Heap P α) (a b : P) : Prop := h.next? a = some b ∧ h.prev? b = some a

/-- The nodes of a list, each linked to the next in both directions. -/
structure Linked (h : Heap P α) (ps : List P) : Prop where
  nodup : ps.Nodup
  chain : ps.IsChain h.Links

variable {ps l r : List P}

/-- A chain depends on the forward pointers of all nodes but the last and on the backward
pointers of all but the first. -/
theorem chain_frame (hc : ps.IsChain h.Links) (hn : ∀ x ∈ ps.dropLast, h'.next? x = h.next? x)
    (hp : ∀ x ∈ ps.tail, h'.prev? x = h.prev? x) : ps.IsChain h'.Links := by
  induction ps with
  | nil => exact .nil
  | cons x ps ih =>
    cases ps with
    | nil => exact .singleton x
    | cons y ps =>
      obtain ⟨hxy, hrest⟩ := List.isChain_cons_cons.mp hc
      have hnx : h'.next? x = h.next? x := hn x (by simp)
      have hpy : h'.prev? y = h.prev? y := hp y (by simp)
      have hlink : h'.Links x y := ⟨hnx.trans hxy.1, hpy.trans hxy.2⟩
      refine List.isChain_cons_cons.mpr ⟨hlink, ih hrest ?_ ?_⟩
      · intro z hz
        exact hn z (by simp [hz])
      · intro z hz
        exact hp z (List.mem_of_mem_tail hz)

theorem Linked.of_eq (hl : h.Linked ps) (hp : h'.prev? = h.prev?) (hn : h'.next? = h.next?) :
    h'.Linked ps :=
  ⟨hl.nodup, chain_frame hl.chain (fun x _ => congrFun hn x) (fun x _ => congrFun hp x)⟩

theorem Linked.links (hl : h.Linked (l ++ a :: b :: r)) : h.Links a b :=
  (List.isChain_append_cons_cons.mp hl.chain).2.1

theorem Linked.mem (hl : h.Linked (a :: b :: r)) (hp : p ∈ a :: b :: r) : p ∈ h := by
  rcases List.mem_cons.mp hp with rfl | hp
  · exact mem_of_next? (hl.links (l := [])).1
  · obtain ⟨s, t, hst⟩ := List.append_of_mem hp
    rcases List.eq_nil_or_concat s with rfl | ⟨s, c, rfl⟩
    · rw [hst] at hl
      exact mem_of_prev? (hl.links (l := [])).2
    · have hsplit : a :: b :: r = (a :: s) ++ c :: p :: t := by simp [hst]
      rw [hsplit] at hl
      exact mem_of_prev? hl.links.2

/-- A new node is linked in between two neighbours. -/
theorem Linked.insertBefore (hl : h.Linked (l ++ a :: t :: r)) (hp : p ∈ h)
    (hnew : p ∉ l ++ a :: t :: r) :
    ∃ h', h.insertBefore t p = some h' ∧ h'.value? = h.value? ∧
      h'.Linked (l ++ a :: p :: t :: r) := by
  obtain ⟨hleft, hat, hright⟩ := List.isChain_append_cons_cons.mp hl.chain
  have hne : p ∉ l ∧ p ≠ a ∧ p ≠ t ∧ p ∉ r := by simpa using hnew
  have hnd := List.nodup_append.mp hl.nodup
  obtain ⟨⟨hane, har⟩, htr, -⟩ : (a ≠ t ∧ a ∉ r) ∧ t ∉ r ∧ r.Nodup := by simpa using hnd.2.1
  have hal : a ∉ l := fun hm => hnd.2.2 a hm a (by simp) rfl
  have htl : t ∉ l ++ [a] := by
    simp only [List.mem_append, List.mem_singleton, not_or]
    exact ⟨fun hm => hnd.2.2 t hm t (by simp) rfl, hane.symm⟩
  have hpl : p ∉ l ++ [a] := by simp [hne.1, hne.2.1]
  have hpr : p ∉ t :: r := by simp [hne.2.2.1, hne.2.2.2]
  have hatr : a ∉ t :: r := by simp [hane, har]
  obtain ⟨h', heq, hv, hprev, hnext⟩ :=
    insertBefore_spec hp hat.2 (mem_of_next? hat.1) (Ne.symm hne.2.2.1)
  refine ⟨h', heq, hv, ?_, ?_⟩
  · have hperm : (l ++ a :: p :: t :: r).Perm (p :: (l ++ a :: t :: r)) := by
      have hmid : ((l ++ [a]) ++ p :: t :: r).Perm (p :: ((l ++ [a]) ++ t :: r)) :=
        List.perm_middle
      simpa using hmid
    exact hperm.nodup_iff.mpr (List.nodup_cons.mpr ⟨hnew, hl.nodup⟩)
  · have hap : h'.Links a p := by
      constructor
      · rw [hnext, Function.update_self]
      · rw [hprev, Function.update_of_ne hne.2.2.1, Function.update_self]
    have hpt : h'.Links p t := by
      constructor
      · rw [hnext, Function.update_of_ne hne.2.1, Function.update_self]
      · rw [hprev, Function.update_self]
    refine List.isChain_append_cons_cons.mpr
      ⟨chain_frame hleft ?_ ?_, hap, List.isChain_cons_cons.mpr ⟨hpt, chain_frame hright ?_ ?_⟩⟩
    · intro x hx
      have hxl : x ∈ l := by simpa using hx
      rw [hnext, Function.update_of_ne (ne_of_mem_of_not_mem hxl hal),
        Function.update_of_ne (ne_of_mem_of_not_mem hxl hne.1)]
    · intro x hx
      have hxl := List.mem_of_mem_tail hx
      rw [hprev, Function.update_of_ne (ne_of_mem_of_not_mem hxl htl),
        Function.update_of_ne (ne_of_mem_of_not_mem hxl hpl)]
    · intro x hx
      have hxr := List.dropLast_subset _ hx
      rw [hnext, Function.update_of_ne (ne_of_mem_of_not_mem hxr hatr),
        Function.update_of_ne (ne_of_mem_of_not_mem hxr hpr)]
    · intro x hx
      have hxr : x ∈ r := by simpa using hx
      rw [hprev, Function.update_of_ne (ne_of_mem_of_not_mem hxr htr),
        Function.update_of_ne (ne_of_mem_of_not_mem hxr hne.2.2.2)]

/-- A node between two neighbours is linked out. -/
theorem Linked.unlink (hl : h.Linked (l ++ a :: p :: b :: r)) :
    ∃ h', h.unlink p = some h' ∧ h'.value? = h.value? ∧ h'.Linked (l ++ a :: b :: r) := by
  obtain ⟨hleft, hap, htail⟩ := List.isChain_append_cons_cons.mp hl.chain
  obtain ⟨hpb, hright⟩ := List.isChain_cons_cons.mp htail
  have hnd := List.nodup_append.mp hl.nodup
  obtain ⟨⟨hanp, hanb, har⟩, ⟨hpnb, hpr⟩, hbr, -⟩ :
      (a ≠ p ∧ a ≠ b ∧ a ∉ r) ∧ (p ≠ b ∧ p ∉ r) ∧ b ∉ r ∧ r.Nodup := by simpa using hnd.2.1
  have hal : a ∉ l := fun hm => hnd.2.2 a hm a (by simp) rfl
  have hpl : p ∉ l ++ [a] := by
    simp only [List.mem_append, List.mem_singleton, not_or]
    exact ⟨fun hm => hnd.2.2 p hm p (by simp) rfl, hanp.symm⟩
  have hbl : b ∉ l ++ [a] := by
    simp only [List.mem_append, List.mem_singleton, not_or]
    exact ⟨fun hm => hnd.2.2 b hm b (by simp) rfl, hanb.symm⟩
  have hpbr : p ∉ b :: r := by simp [hpnb, hpr]
  have habr : a ∉ b :: r := by simp [hanb, har]
  obtain ⟨h', heq, hv, hprev, hnext⟩ :=
    unlink_spec hap.2 hpb.1 (mem_of_next? hap.1) (mem_of_prev? hpb.2) hanp.symm
  refine ⟨h', heq, hv, ?_, ?_⟩
  · have hsub : (l ++ a :: b :: r).Sublist (l ++ a :: p :: b :: r) :=
      List.Sublist.append_left (by simp) l
    exact hl.nodup.sublist hsub
  · have hab : h'.Links a b := by
      constructor
      · rw [hnext, Function.update_of_ne hanp, Function.update_self]
      · rw [hprev, Function.update_of_ne hpnb.symm, Function.update_self]
    refine List.isChain_append_cons_cons.mpr
      ⟨chain_frame hleft ?_ ?_, hab, chain_frame hright ?_ ?_⟩
    · intro x hx
      have hxl : x ∈ l := by simpa using hx
      rw [hnext, Function.update_of_ne (ne_of_mem_of_not_mem (List.mem_append_left _ hxl) hpl),
        Function.update_of_ne (ne_of_mem_of_not_mem hxl hal)]
    · intro x hx
      have hxl := List.mem_of_mem_tail hx
      rw [hprev, Function.update_of_ne (ne_of_mem_of_not_mem hxl hpl),
        Function.update_of_ne (ne_of_mem_of_not_mem hxl hbl)]
    · intro x hx
      have hxr := List.dropLast_subset _ hx
      rw [hnext, Function.update_of_ne (ne_of_mem_of_not_mem hxr hpbr),
        Function.update_of_ne (ne_of_mem_of_not_mem hxr habr)]
    · intro x hx
      have hxr : x ∈ r := by simpa using hx
      rw [hprev, Function.update_of_ne (ne_of_mem_of_not_mem hxr hpr),
        Function.update_of_ne (ne_of_mem_of_not_mem hxr hbr)]

theorem Linked.free (hl : h.Linked ps) (hp : p ∉ ps) : (h.free p).Linked ps := by
  obtain ⟨-, hpr, hnx⟩ := free_spec h p
  refine ⟨hl.nodup, chain_frame hl.chain ?_ ?_⟩
  · intro x hx
    have hxp : x ≠ p := ne_of_mem_of_not_mem (List.dropLast_subset _ hx) hp
    rw [hnx, Function.update_of_ne hxp]
  · intro x hx
    have hxp : x ≠ p := ne_of_mem_of_not_mem (List.mem_of_mem_tail hx) hp
    rw [hpr, Function.update_of_ne hxp]

/-- The nodes between the two sentinels. -/
abbrev Between (h : Heap P α) (a : P) (ps : List P) (t : P) : Prop := h.Linked (a :: (ps ++ [t]))

theorem Between.mem (hl : h.Between a ps t) (hp : p ∈ ps) : p ∈ h := by
  cases ps with
  | nil => simp at hp
  | cons q qs => exact Linked.mem hl (by simp at hp ⊢; tauto)

theorem Between.push (hl : h.Between a ps t) (hp : p ∈ h) (hpa : p ≠ a) (hpt : p ≠ t)
    (hnew : p ∉ ps) :
    ∃ h', h.insertBefore t p = some h' ∧ h'.value? = h.value? ∧ h'.Between a (ps ++ [p]) t := by
  rcases List.eq_nil_or_concat ps with rfl | ⟨qs, q, rfl⟩
  · obtain ⟨h', heq, hv, hl'⟩ := Linked.insertBefore (l := []) (r := []) hl hp (by simp [hpa, hpt])
    exact ⟨h', heq, hv, hl'⟩
  · have hl₀ : h.Linked ((a :: qs) ++ q :: t :: []) := by simpa [Between] using hl
    obtain ⟨h', heq, hv, hl'⟩ := hl₀.insertBefore hp (by simp at hnew ⊢; tauto)
    exact ⟨h', heq, hv, by simpa [Between] using hl'⟩

theorem Between.remove (hl : h.Between a (l ++ p :: r) t) :
    ∃ h', h.unlink p = some h' ∧ h'.value? = h.value? ∧ h'.Between a (l ++ r) t := by
  obtain ⟨b, r', hr⟩ : ∃ b r', r ++ [t] = b :: r' := List.exists_cons_of_ne_nil (by simp)
  obtain ⟨l', c, hlc⟩ : ∃ l' c, a :: l = l' ++ [c] := by
    rcases List.eq_nil_or_concat (a :: l) with hnil | ⟨l', c, hc⟩
    · simp at hnil
    · exact ⟨l', c, hc.trans List.concat_eq_append⟩
  have hsplit : a :: (l ++ p :: r ++ [t]) = l' ++ c :: p :: b :: r' := by
    rw [List.append_assoc, List.cons_append, hr, ← List.cons_append, hlc]
    simp
  have hjoin : a :: (l ++ r ++ [t]) = l' ++ c :: b :: r' := by
    rw [List.append_assoc, hr, ← List.cons_append, hlc]
    simp
  rw [Between, hsplit] at hl
  obtain ⟨h', heq, hv, hl'⟩ := hl.unlink
  exact ⟨h', heq, hv, by rw [Between, hjoin]; exact hl'⟩

theorem Between.next? (hl : h.Between a (p :: ps) t) : h.next? a = some p :=
  (Linked.links (l := []) hl).1

/-- The pointers of the memory leave no choice of the nodes between two sentinels. -/
theorem Between.unique {qs : List P} (hp : h.Between a ps t) (hq : h.Between a qs t) :
    ps = qs := by
  induction ps generalizing a qs with
  | nil =>
    cases qs with
    | nil => rfl
    | cons q qs =>
      have heq : some t = some q := (Linked.links (l := []) hp).1.symm.trans hq.next?
      have hnd := hq.nodup
      simp [Option.some.inj heq] at hnd
  | cons p ps ih =>
    cases qs with
    | nil =>
      have heq : some t = some p := (Linked.links (l := []) hq).1.symm.trans hp.next?
      have hnd := hp.nodup
      simp [Option.some.inj heq] at hnd
    | cons q qs =>
      obtain rfl : p = q := Option.some.inj (hp.next?.symm.trans hq.next?)
      have hp' : h.Between p ps t := ⟨hp.nodup.of_cons, (List.isChain_cons_cons.mp hp.chain).2⟩
      have hq' : h.Between p qs t := ⟨hq.nodup.of_cons, (List.isChain_cons_cons.mp hq.chain).2⟩
      rw [ih hp' hq']

end Heap

end MuduoServer
