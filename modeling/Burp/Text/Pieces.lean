/-
  Burp.Text.Pieces — texts of pieces that say how long they are.

  A text is taken apart from the front: what stands there says how long the first piece is, and
  the next one begins behind it.  The text may end in the middle of a piece, or come to something
  that says nothing; that is what is left.

  Main results:
    * `cut_flatten` — the pieces, and what is left, are the text.
    * `cut_induction` — induction along the pieces.
-/
import Mathlib.Tactic

namespace Burp.Text

variable {α : Type*}

/-- The length of the piece in front, if it is all there. -/
def front (size : List α → Option Nat) (b : List α) : Option Nat :=
  (size b).filter fun n => 0 < n ∧ n ≤ b.length

theorem front_eq_some {size : List α → Option Nat} {b : List α} {n : Nat} :
    front size b = some n ↔ size b = some n ∧ 0 < n ∧ n ≤ b.length := by
  rw [front, Option.filter_eq_some_iff, decide_eq_true_eq]

theorem length_drop_front {size : List α → Option Nat} {b : List α} {n : Nat}
    (h : front size b = some n) : (b.drop n).length < b.length := by
  obtain ⟨-, hpos, hle⟩ := front_eq_some.1 h
  rw [List.length_drop]
  omega

/-- The pieces, and what is left. -/
def cut (size : List α → Option Nat) (b : List α) : List (List α) × List α :=
  match _h : front size b with
  | none => ([], b)
  | some n =>
      let r := cut size (b.drop n)
      (b.take n :: r.1, r.2)
termination_by b.length
decreasing_by exact length_drop_front _h

theorem cut_of_none {size : List α → Option Nat} {b : List α} (h : front size b = none) :
    cut size b = ([], b) := by
  rw [cut]
  split
  next => rfl
  next n h' => rw [h] at h'; cases h'

theorem cut_of_some {size : List α → Option Nat} {b : List α} {n : Nat}
    (h : front size b = some n) :
    cut size b = (b.take n :: (cut size (b.drop n)).1, (cut size (b.drop n)).2) := by
  rw [cut]
  split
  next h' => rw [h] at h'; cases h'
  next m h' =>
    rw [h, Option.some.injEq] at h'
    rw [h']

/-- **Induction along the pieces.** -/
theorem cut_induction (size : List α → Option Nat) {P : List α → Prop}
    (stop : ∀ b, front size b = none → P b)
    (piece : ∀ b n, front size b = some n → P (b.drop n) → P b) (b : List α) : P b := by
  -- every piece has something in it
  induction hlen : b.length using Nat.strong_induction_on generalizing b with
  | _ len ih =>
      cases hfront : front size b with
      | none => exact stop b hfront
      | some n => exact piece b n hfront (ih _ (hlen ▸ length_drop_front hfront) _ rfl)

/-- **The pieces, and what is left, are the text.** -/
theorem cut_flatten (size : List α → Option Nat) (b : List α) :
    (cut size b).1.flatten ++ (cut size b).2 = b := by
  induction b using cut_induction size with
  | stop b h => rw [cut_of_none h, List.flatten_nil, List.nil_append]
  | piece b n h ih =>
      rw [cut_of_some h, List.flatten_cons, List.append_assoc, ih, List.take_append_drop]

end Burp.Text
