import MuduoServer.Base.CacheContents
import MuduoServer.Base.CacheDangling

namespace MuduoServer

/-- What `fs::file_size` returns, where it does not throw. -/
def FileState.size : FileState → Option Nat
  | .missing => none
  | .directory => none
  | .unreadable size => some size
  | .regular content => some content.length

namespace FileLRU

/-- The file of a key is there, and larger than the whole cache may get. -/
def TooLarge (c : FileLRU) (disk : Disk) (k : Bytes) : Prop :=
  ∃ n ∈ (disk (c.fullPath k)).size, c.capacity < n

variable {c c' : FileLRU} {disk : Disk} {node : Nat} {k : Bytes} {path : Path} {e : FileError}

theorem load_bigfile_iff : c.load disk k = .error .bigfile_error ↔ c.TooLarge disk k := by
  rw [load, TooLarge]
  cases disk (c.fullPath k) with
  | missing => simp [FileState.size]
  | directory => simp [FileState.size]
  | unreadable size => simp [FileState.size]
  | regular content => simp [FileState.size]

/-- A `put` that throws has done nothing yet. -/
theorem put_error_iff :
    c.put disk node k = some (.error e, c') ↔ c.load disk k = .error e ∧ c' = c := by
  rw [put]
  cases c.load disk k with
  | error err =>
    simp only [Option.some.injEq, Prod.mk.injEq, Except.error.injEq]
    exact and_congr_right fun _ => eq_comm
  | ok value =>
    refine iff_of_false ?_ (by simp)
    cases c.map.lookup k with
    | none =>
      intro heq
      obtain ⟨_, -, hret⟩ := Option.bind_eq_some_iff.mp heq
      cases hret
    | some p =>
      intro heq
      obtain ⟨_, -, hret⟩ := Option.bind_eq_some_iff.mp heq
      cases hret

theorem addFile_error_iff :
    c.addFile disk node path = some (.error e, c') ↔
      e = .bigfile_error ∧ c.TooLarge disk (c.key path) ∧ c' = c := by
  rw [addFile, ← load_bigfile_iff]
  constructor
  · intro heq
    obtain ⟨⟨r, c₁⟩, hput, hret⟩ := Option.bind_eq_some_iff.mp heq
    rcases r with (_ | _) | value
    · cases hret
    · cases hret
      exact ⟨rfl, put_error_iff.mp hput⟩
    · cases hret
  · rintro ⟨he, hload, hc⟩
    rw [he, put_error_iff.mpr ⟨hload, hc⟩]
    rfl

theorem touch_value {p : Nat} (heq : c.touch p = some c') :
    c'.path = c.path ∧ c'.capacity = c.capacity ∧ c'.heap.value? = c.heap.value? := by
  obtain ⟨c₁, h₁, h₂⟩ := Option.bind_eq_some_iff.mp heq
  obtain ⟨h, e₁, hr₁⟩ := Option.bind_eq_some_iff.mp h₁
  cases hr₁
  obtain ⟨h', e₂, hr₂⟩ := Option.bind_eq_some_iff.mp h₂
  cases hr₂
  exact ⟨rfl, rfl, (Heap.value?_of_insertBefore e₂).trans (Heap.value?_of_unlink e₁)⟩

/-- What `get` returns is what the cache has, in every state. -/
theorem get_cached {v : Option Bytes} (heq : c.get k = some (v, c')) :
    v = c.cached k ∧ c'.path = c.path ∧ c'.capacity = c.capacity := by
  rw [get] at heq
  cases hk : c.map.lookup k with
  | none =>
    rw [hk] at heq
    cases heq
    exact ⟨(cached_eq_none hk).symm, rfl, rfl⟩
  | some p =>
    rw [hk] at heq
    obtain ⟨c₁, htouch, heq⟩ := Option.bind_eq_some_iff.mp heq
    obtain ⟨n, hn, hret⟩ := Option.bind_eq_some_iff.mp heq
    cases hret
    obtain ⟨hpath, hcap, hv⟩ := touch_value htouch
    rw [hv] at hn
    exact ⟨by simp [cached, hk, hn], hpath, hcap⟩

theorem getFile_error (heq : c.getFile disk node k = some (.error e, c')) :
    e = .bigfile_error ∧ c.cached k = none ∧ c.TooLarge disk k := by
  obtain ⟨⟨v, c₁⟩, hget, heq⟩ := Option.bind_eq_some_iff.mp heq
  obtain ⟨hv, hpath, hcap⟩ := get_cached hget
  cases v with
  | some value => cases heq
  | none =>
    obtain ⟨⟨r, c₂⟩, hput, hret⟩ := Option.bind_eq_some_iff.mp heq
    rcases r with (_ | _) | value
    · cases hret
    · cases hret
      have hload := (put_error_iff.mp hput).1
      rw [load_congr hpath hcap] at hload
      exact ⟨rfl, hv.symm, load_bigfile_iff.mp hload⟩
    · cases hret

/-- What is to hold of the errors of a cache, for a path that the event loop adds. -/
structure ErrorsStay (c : FileLRU) (disk : Disk) (path : Path) : Prop where
  /-- No exception leaves `addFile`. -/
  addFile_quiet : ∀ node e c', c.addFile disk node path ≠ some (.error e, c')
  addFile_returns : ∀ es node, c.Consistent es → node ∉ c.heap →
    ∃ c', c.addFile disk node path = some (.ok (), c')
  getFile_throws : ∀ node k e c', c.getFile disk node k = some (.error e, c') →
    e = .bigfile_error ∧ c.cached k = none ∧ c.TooLarge disk k
  put_unchanged : ∀ node k e c', c.put disk node k = some (.error e, c') → c' = c

/-- The errors stay in the cache unless the file to be added is too large for it. -/
theorem errors_stay_iff (c : FileLRU) (disk : Disk) (path : Path) :
    c.ErrorsStay disk path ↔ ¬ c.TooLarge disk (c.key path) := by
  constructor
  · intro h hlarge
    exact h.addFile_quiet 0 _ c (addFile_error_iff.mpr ⟨rfl, hlarge, rfl⟩)
  · intro hfits
    have hquiet : ∀ node e c', c.addFile disk node path ≠ some (.error e, c') :=
      fun node e c' heq => hfits (addFile_error_iff.mp heq).2.1
    refine ⟨hquiet, ?_, fun node k e c' heq => getFile_error heq,
      fun node k e c' heq => (put_error_iff.mp heq).2⟩
    intro es node hc hnode
    obtain ⟨v, c', -, heq, -⟩ := addFile_keeps disk path hc hnode
    cases v with
    | error e => exact absurd heq (hquiet node e c')
    | ok u => exact ⟨c', heq⟩

/-- A file of six bytes comes to a cache of five. -/
theorem bigfile_error_escapes :
    ¬ (FileLRU.new [] 5 0 1).ErrorsStay (fun _ => .regular (bytes "hello!")) [bytes "a"] := by
  intro h
  have hlarge : ∀ k, (FileLRU.new [] 5 0 1).TooLarge (fun _ => .regular (bytes "hello!")) k :=
    fun k => ⟨6, rfl, by decide⟩
  exact h.addFile_quiet 2 .bigfile_error _ (addFile_error_iff.mpr ⟨rfl, hlarge _, rfl⟩)

end FileLRU

end MuduoServer
