/-
  Burp.Stream.ShortWrites — writes that take only some of what they are given.

  A write is asked to take a number of elements and takes some of them, or fails.  A loop
  around it asks again for what is left, so that the counts cut what is to be written into
  pieces.

  Main results:
    * `sum_pieces` — the pieces are all there is.
    * `flatMap_take_eq_iff` — a loop that takes every piece from the beginning writes what it
      should if the pieces look like the beginning.
-/
import Mathlib.Tactic

namespace Burp.ShortWrites

/-- What a write returns: how much it would take, or -1. -/
inductive Wrote
  | count (n : Nat)
  | failed
  deriving DecidableEq

/-! ## §1. Pieces. -/

/-- The lengths of the pieces of `n` elements, with the counts from number `k` on. -/
def piecesLoop (counts : Nat → Nat) : Nat → Nat → Nat → List Nat
  | 0, _, _ => []
  | fuel + 1, k, n =>
      if n = 0 then []
      else min n (counts k) :: piecesLoop counts fuel (k + 1) (n - min n (counts k))

/-- Every piece has an element, so that their number bounds that of the pieces. -/
def pieces (counts : Nat → Nat) (k n : Nat) : List Nat := piecesLoop counts n k n

variable {counts : Nat → Nat}

theorem piecesLoop_nothing (fuel k : Nat) : piecesLoop counts fuel k 0 = [] := by
  cases fuel with
  | zero => rfl
  | succ fuel => exact if_pos rfl

theorem piecesLoop_some {fuel k n : Nat} (hn : n ≠ 0) :
    piecesLoop counts (fuel + 1) k n
      = min n (counts k) :: piecesLoop counts fuel (k + 1) (n - min n (counts k)) := if_neg hn

/-- More fuel makes no difference. -/
theorem piecesLoop_fuel (hcounts : ∀ k, 1 ≤ counts k) {fuel k n : Nat} (h : n ≤ fuel) :
    piecesLoop counts fuel k n = pieces counts k n := by
  -- on what is left, for whatever fuel is enough for that
  induction n using Nat.strong_induction_on generalizing fuel k with
  | _ n ih =>
      by_cases hn : n = 0
      · rw [hn, pieces, piecesLoop_nothing, piecesLoop_nothing]
      · have hk := hcounts k
        obtain ⟨m, rfl⟩ := Nat.exists_eq_succ_of_ne_zero hn
        obtain ⟨f, rfl⟩ := Nat.exists_eq_succ_of_ne_zero (by omega : fuel ≠ 0)
        rw [pieces, piecesLoop_some hn, piecesLoop_some hn, ih _ (by omega) (by omega),
          ih _ (by omega) (by omega)]

/-- The first piece, and the others. -/
theorem pieces_some (hcounts : ∀ k, 1 ≤ counts k) {k n : Nat} (hn : n ≠ 0) :
    pieces counts k n = min n (counts k) :: pieces counts (k + 1) (n - min n (counts k)) := by
  have hk := hcounts k
  obtain ⟨m, rfl⟩ := Nat.exists_eq_succ_of_ne_zero hn
  rw [pieces, piecesLoop_some hn, piecesLoop_fuel hcounts (by omega)]

@[simp] theorem pieces_nothing (k : Nat) : pieces counts k 0 = [] := rfl

/-- **The pieces are all there is.** -/
theorem sum_pieces (hcounts : ∀ k, 1 ≤ counts k) (k n : Nat) : (pieces counts k n).sum = n := by
  induction n using Nat.strong_induction_on generalizing k with
  | _ n ih =>
      by_cases hn : n = 0
      · rw [hn, pieces_nothing, List.sum_nil]
      · have hk := hcounts k
        rw [pieces_some hcounts hn, List.sum_cons, ih _ (by omega)]
        omega

/-- One count that is large enough is one piece. -/
theorem pieces_whole (hcounts : ∀ k, 1 ≤ counts k) {k n : Nat} (hn : n ≠ 0) (h : n ≤ counts k) :
    pieces counts k n = [n] := by
  rw [pieces_some hcounts hn, Nat.min_eq_left h, Nat.sub_self, pieces_nothing]

/-! ## §2. Pieces that all come from the beginning. -/

variable {α : Type*}

/-- The pieces of what is left look like the beginning of what there was. -/
def RepeatsIn (buf : List α) : List α → List Nat → Prop
  | _, [] => True
  | rest, w :: ws => rest.take w = buf.take w ∧ RepeatsIn buf (rest.drop w) ws

instance decidableRepeatsIn [DecidableEq α] (buf : List α) :
    ∀ rest ws, Decidable (RepeatsIn buf rest ws)
  | _, [] => inferInstanceAs (Decidable True)
  | rest, w :: ws =>
      haveI := decidableRepeatsIn buf (rest.drop w) ws
      inferInstanceAs (Decidable (rest.take w = buf.take w ∧ RepeatsIn buf (rest.drop w) ws))

theorem length_flatMap_take {buf : List α} {ws : List Nat} (h : ws.sum ≤ buf.length) :
    (ws.flatMap fun w => buf.take w).length = ws.sum := by
  induction ws with
  | nil => rfl
  | cons w ws ih =>
      rw [List.sum_cons] at h
      rw [List.flatMap_cons, List.length_append, ih (by omega), List.length_take_of_le (by omega),
        List.sum_cons]

/-- **Pieces from the beginning are what is left** if what is left looks like that. -/
theorem flatMap_take_eq_iff {buf rest : List α} {ws : List Nat} (hsum : ws.sum = rest.length)
    (hle : rest.length ≤ buf.length) :
    (ws.flatMap fun w => buf.take w) = rest ↔ RepeatsIn buf rest ws := by
  induction ws generalizing rest with
  | nil =>
      have hrest : rest = [] := List.length_eq_zero_iff.mp hsum.symm
      rw [hrest]
      exact ⟨fun _ => trivial, fun _ => rfl⟩
  | cons w ws ih =>
      rw [List.sum_cons] at hsum
      -- a piece is as long as what it takes the place of
      have hw : (buf.take w).length = (rest.take w).length := by
        rw [List.length_take_of_le (by omega), List.length_take_of_le (by omega)]
      have hih : (ws.flatMap fun w => buf.take w) = rest.drop w
          ↔ RepeatsIn buf (rest.drop w) ws :=
        ih (by rw [List.length_drop]; omega) (by rw [List.length_drop]; omega)
      rw [List.flatMap_cons, RepeatsIn, ← hih]
      constructor
      · intro h
        nth_rewrite 1 [← List.take_append_drop w rest] at h
        obtain ⟨hfront, hback⟩ := List.append_inj h hw
        exact ⟨hfront.symm, hback⟩
      · rintro ⟨hfront, hback⟩
        rw [← hfront, hback, List.take_append_drop]

end Burp.ShortWrites
