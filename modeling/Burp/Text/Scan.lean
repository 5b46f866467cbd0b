/-
  Burp.Text.Scan — loops that walk through a string in place.

  A string is somewhere in an array, and a loop moves a pointer along as long as the bytes it
  meets are of some kind.  An access outside the array gives nothing, so that a loop that ends
  has stayed inside.

  Main results:
    * `skip_eq` — a loop that goes forward ends at the first byte of another kind.
    * `stripBack_eq` — one that goes backward and clears what it meets ends at the last one.
    * `stripBack_before` — and leaves the array where there is none.
-/
import Mathlib.Tactic

namespace Burp.Text

/-! ## §1. The loops. -/

/-- `for(; *cp && p(*cp); cp++) { }`, over what there is from `cp` on. -/
def skipFrom (p : UInt8 → Bool) : List UInt8 → Nat → Option Nat
  | [], _ => none
  | c :: rest, cp => if c ≠ 0 ∧ p c = true then skipFrom p rest (cp + 1) else some cp

def skip (p : UInt8 → Bool) (mem : List UInt8) (cp : Nat) : Option Nat :=
  skipFrom p (mem.drop cp) cp

/-- `strchr`, over what there is from `cp` on. -/
def strchrFrom (c : UInt8) : List UInt8 → Nat → Option (Option Nat)
  | [], _ => none
  | d :: rest, cp =>
      if d = c then some (some cp)
      else if d = 0 then some none
      else strchrFrom c rest (cp + 1)

def strchr (c : UInt8) (mem : List UInt8) (cp : Nat) : Option (Option Nat) :=
  strchrFrom c (mem.drop cp) cp

/-- `strlen`, of what there is. -/
def strlenFrom : List UInt8 → Option Nat
  | [] => none
  | c :: rest => if c = 0 then some 0 else (strlenFrom rest).map (· + 1)

def strlen (mem : List UInt8) (cp : Nat) : Option Nat := strlenFrom (mem.drop cp)

/-- `for(; *cp && p(*cp); cp--) *cp='\0'`, with so many bytes of the array up to `cp`. -/
def stripBack (p : UInt8 → Bool) (mem : List UInt8) : Nat → Option (List UInt8)
  -- the byte before the array
  | 0 => none
  | cp + 1 =>
      match mem[cp]? with
      | none => none
      | some c => if c ≠ 0 ∧ p c = true then stripBack p (mem.set cp 0) cp else some mem

/-! ## §2. Where they end. -/

variable {p : UInt8 → Bool} {a b w : List UInt8} {c : UInt8}

theorem skipFrom_append (hw : ∀ x ∈ w, x ≠ 0 ∧ p x = true) (hc : ¬ (c ≠ 0 ∧ p c = true))
    (cp : Nat) : skipFrom p (w ++ c :: b) cp = some (cp + w.length) := by
  induction w generalizing cp with
  | nil =>
      show (if c ≠ 0 ∧ p c = true then skipFrom p b (cp + 1) else some cp) = some cp
      rw [if_neg hc]
  | cons x w ih =>
      rw [List.cons_append, skipFrom, if_pos (hw x List.mem_cons_self),
        ih (fun y hy => hw y (List.mem_cons_of_mem _ hy)), List.length_cons]
      congr 1
      omega

/-- **Forward**: to the first byte of another kind. -/
theorem skip_eq (hw : ∀ x ∈ w, x ≠ 0 ∧ p x = true) (hc : ¬ (c ≠ 0 ∧ p c = true)) :
    skip p (a ++ (w ++ c :: b)) a.length = some (a.length + w.length) := by
  rw [skip, List.drop_left, skipFrom_append hw hc]

theorem strchrFrom_cons (c d : UInt8) (rest : List UInt8) (cp : Nat) :
    strchrFrom c (d :: rest) cp
      = if d = c then some (some cp) else if d = 0 then some none else strchrFrom c rest (cp + 1) :=
  rfl

theorem strchrFrom_append (hw : ∀ x ∈ w, x ≠ c ∧ x ≠ 0) (rest : List UInt8) (cp : Nat) :
    strchrFrom c (w ++ rest) cp = strchrFrom c rest (cp + w.length) := by
  induction w generalizing cp with
  | nil => rfl
  | cons x w ih =>
      have hx := hw x List.mem_cons_self
      rw [List.cons_append, strchrFrom_cons, if_neg hx.1, if_neg hx.2,
        ih (fun y hy => hw y (List.mem_cons_of_mem _ hy)), List.length_cons]
      congr 1
      omega

theorem strchr_found (hw : ∀ x ∈ w, x ≠ c ∧ x ≠ 0) :
    strchr c (a ++ (w ++ c :: b)) a.length = some (some (a.length + w.length)) := by
  rw [strchr, List.drop_left, strchrFrom_append hw, strchrFrom_cons, if_pos rfl]

theorem strchr_missing (hw : ∀ x ∈ w, x ≠ c ∧ x ≠ 0) (hc : c ≠ 0) :
    strchr c (a ++ (w ++ 0 :: b)) a.length = some none := by
  rw [strchr, List.drop_left, strchrFrom_append hw, strchrFrom_cons, if_neg hc.symm, if_pos rfl]

theorem strlen_eq (hw : 0 ∉ w) : strlen (a ++ (w ++ 0 :: b)) a.length = some w.length := by
  rw [strlen, List.drop_left]
  induction w with
  | nil => rfl
  | cons x w ih =>
      rw [List.mem_cons, not_or] at hw
      rw [List.cons_append, strlenFrom, if_neg (Ne.symm hw.1), ih hw.2, Option.map_some,
        List.length_cons]

/-- **Backward**: the bytes behind the last one of another kind are cleared. -/
theorem stripBack_eq (hw : ∀ x ∈ w, x ≠ 0 ∧ p x = true) (hc : ¬ (c ≠ 0 ∧ p c = true)) :
    stripBack p (a ++ c :: (w ++ b)) (a.length + 1 + w.length)
      = some (a ++ c :: (List.replicate w.length 0 ++ b)) := by
  -- from the last byte on, which is the first that the loop meets
  induction w using List.reverseRecOn generalizing b with
  | nil =>
      have hget : (a ++ c :: ([] ++ b))[a.length]? = some c := by simp
      rw [List.length_nil, Nat.add_zero, stripBack, hget]
      dsimp only
      rw [if_neg hc]
      rfl
  | append_singleton w x ih =>
      have hsplit : a ++ c :: ((w ++ [x]) ++ b) = (a ++ c :: w) ++ x :: b := by simp
      have hlen : a.length + 1 + (w ++ [x]).length = (a ++ c :: w).length + 1 := by
        simp only [List.length_append, List.length_cons, List.length_nil]
        omega
      have hget : ((a ++ c :: w) ++ x :: b)[(a ++ c :: w).length]? = some x := by simp
      have hset : ((a ++ c :: w) ++ x :: b).set (a ++ c :: w).length 0
          = a ++ c :: (w ++ 0 :: b) := by simp
      rw [hlen, hsplit, stripBack, hget]
      dsimp only
      rw [if_pos (hw x (by simp)), hset]
      have hlen' : (a ++ c :: w).length = a.length + 1 + w.length := by
        simp only [List.length_append, List.length_cons]
        omega
      rw [hlen', ih fun y hy => hw y (List.mem_append_left _ hy), List.length_append,
        List.length_singleton, List.replicate_add]
      simp

/-- Where there is none, the loop gets to the byte before the array. -/
theorem stripBack_before (hw : ∀ x ∈ w, x ≠ 0 ∧ p x = true) :
    stripBack p (w ++ b) w.length = none := by
  induction w using List.reverseRecOn generalizing b with
  | nil => rfl
  | append_singleton w x ih =>
      have hget : (w ++ x :: b)[w.length]? = some x := by simp
      have hset : (w ++ x :: b).set w.length 0 = w ++ 0 :: b := by simp
      rw [List.length_append, List.length_singleton, List.append_assoc, List.singleton_append,
        stripBack, hget]
      dsimp only
      rw [if_pos (hw x (by simp)), hset]
      exact ih fun y hy => hw y (List.mem_append_left _ hy)

end Burp.Text
