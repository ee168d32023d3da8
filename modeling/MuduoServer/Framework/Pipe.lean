import Mathlib.Data.List.Basic

namespace MuduoServer

/-- A pipe: what was written and not yet read, and the ends that are open for writing. -/
structure Pipe (α : Type*) where
  capacity : Nat
  content : List α
  writers : Nat

namespace Pipe

variable {α : Type*}

def new (capacity writers : Nat) : Pipe α := ⟨capacity, [], writers⟩

def write (p : Pipe α) (xs : List α) : Pipe α := { p with content := p.content ++ xs }

/-- The pipe after a read of at most `count`. -/
def drop (p : Pipe α) (count : Nat) : Pipe α := { p with content := p.content.drop count }

def closeWriter (p : Pipe α) : Pipe α := { p with writers := p.writers - 1 }

/-- A write of `n` finds room. -/
def Fits (p : Pipe α) (n : Nat) : Prop := p.content.length + n ≤ p.capacity

instance (p : Pipe α) (n : Nat) : Decidable (p.Fits n) := inferInstanceAs (Decidable (_ ≤ _))

@[simp] theorem write_content (p : Pipe α) (xs : List α) :
    (p.write xs).content = p.content ++ xs := rfl

@[simp] theorem write_writers (p : Pipe α) (xs : List α) : (p.write xs).writers = p.writers := rfl

@[simp] theorem write_capacity (p : Pipe α) (xs : List α) :
    (p.write xs).capacity = p.capacity := rfl

@[simp] theorem drop_content (p : Pipe α) (count : Nat) :
    (p.drop count).content = p.content.drop count := rfl

@[simp] theorem drop_writers (p : Pipe α) (count : Nat) : (p.drop count).writers = p.writers := rfl

@[simp] theorem drop_capacity (p : Pipe α) (count : Nat) :
    (p.drop count).capacity = p.capacity := rfl

@[simp] theorem closeWriter_content (p : Pipe α) : p.closeWriter.content = p.content := rfl

@[simp] theorem closeWriter_writers (p : Pipe α) :
    p.closeWriter.writers = p.writers - 1 := rfl

@[simp] theorem closeWriter_capacity (p : Pipe α) : p.closeWriter.capacity = p.capacity := rfl

/-- What a read takes and what it leaves is what was there. -/
theorem take_append_drop (p : Pipe α) (count : Nat) :
    p.content.take count ++ (p.drop count).content = p.content :=
  List.take_append_drop _ _

/-- The empty pipe has room for one when it has room at all. -/
theorem fits_one_of_nil {p : Pipe α} (h : p.content = []) (hc : 1 ≤ p.capacity) : p.Fits 1 := by
  rw [Fits, h]
  exact hc

end Pipe

end MuduoServer
