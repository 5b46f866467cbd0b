/-
  Burp.Text.Pointer — pointers into strings.

  A pointer into a string that ends with a NUL is what there is from it on, up to the NUL.
  Behind the NUL there is nothing that may be read.

  Main results:
    * `advance_some` — a pointer that is moved along.
    * `splitOn_cases` — the first field of a text, and what follows it.
-/
import Mathlib.Tactic

namespace Burp.Text

/-! ## §1. Pointers. -/

/-- What there is up to the NUL; `none` is behind it. -/
abbrev Pointer := Option (List UInt8)

/-- `*p`, if it may be read. -/
def deref (p : Pointer) : Option UInt8 := p.map fun b => b.headD 0

/-- `p+1`. -/
def next : Pointer → Pointer
  | some (_ :: b) => some b
  | _ => none

/-- `p+n`. -/
def advance (p : Pointer) : Nat → Pointer
  | 0 => p
  | n + 1 => next (advance p n)

@[simp] theorem deref_nil : deref (some []) = some 0 := rfl
@[simp] theorem deref_cons (c : UInt8) (b : List UInt8) : deref (some (c :: b)) = some c := rfl
@[simp] theorem deref_none : deref none = none := rfl
@[simp] theorem next_nil : next (some []) = none := rfl
@[simp] theorem next_cons (c : UInt8) (b : List UInt8) : next (some (c :: b)) = some b := rfl
@[simp] theorem next_none : next none = none := rfl

/-- **A pointer that is moved along** stays in the string up to the NUL. -/
theorem advance_some (b : List UInt8) (n : Nat) :
    advance (some b) n = if n ≤ b.length then some (b.drop n) else none := by
  induction n with
  | zero => simp [advance]
  | succ n ih =>
      rw [advance, ih]
      by_cases hlt : n < b.length
      · rw [if_pos hlt.le, if_pos (Nat.succ_le_of_lt hlt), List.drop_eq_getElem_cons hlt, next_cons]
      · by_cases heq : n = b.length
        · rw [if_pos heq.le, if_neg (by omega), heq, List.drop_length, next_nil]
        · rw [if_neg (by omega), if_neg (by omega), next_none]

theorem deref_advance (b : List UInt8) (n : Nat) :
    deref (advance (some b) n) = if n ≤ b.length then some ((b.drop n).headD 0) else none := by
  rw [advance_some]
  split_ifs <;> rfl

/-! ## §2. Fields. -/

/-- **The first field of a text**, which is the whole text or ends at a separator. -/
theorem splitOn_cases (s : UInt8) (b : List UInt8) :
    s ∉ b ∧ b.splitOn s = [b]
      ∨ ∃ f r, b = f ++ s :: r ∧ s ∉ f ∧ b.splitOn s = f :: r.splitOn s := by
  by_cases h : s ∈ b
  · obtain ⟨f, r, rfl, hf⟩ := List.eq_append_cons_of_mem h
    exact Or.inr ⟨f, r, rfl, hf, List.splitOn_append_cons_self_of_not_mem hf r⟩
  · exact Or.inl ⟨h, List.splitOn_eq_singleton h⟩

end Burp.Text
