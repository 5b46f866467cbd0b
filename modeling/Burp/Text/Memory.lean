/-
  Burp.Text.Memory — bytes in memory.

  A memory gives each address its byte.  A text is in memory at an address if its bytes stand
  there one after the other.

  Main results:
    * `holds_append` — two texts, one behind the other.
    * `Holds.of_changed` — what a text does not notice.
-/
import Mathlib.Tactic

namespace Burp.Text

/-! ## §1. Stores. -/

/-- What is at each address. -/
abbrev Memory := Nat → UInt8

/-- `*a = c`. -/
def store (mem : Memory) (a : Nat) (c : UInt8) : Memory := fun x => if x = a then c else mem x

@[simp] theorem store_self (mem : Memory) (a : Nat) (c : UInt8) : store mem a c a = c := if_pos rfl

theorem store_of_ne {mem : Memory} {a x : Nat} {c : UInt8} (h : x ≠ a) :
    store mem a c x = mem x := if_neg h

/-- Nothing has changed but what is from `lo` on, up to `hi`. -/
def ChangedIn (mem mem' : Memory) (lo hi : Nat) : Prop :=
  ∀ x, x < lo ∨ hi ≤ x → mem' x = mem x

theorem ChangedIn.refl (mem : Memory) (lo hi : Nat) : ChangedIn mem mem lo hi := fun _ _ => rfl

theorem ChangedIn.mono {mem mem' : Memory} {lo hi lo' hi' : Nat} (h : ChangedIn mem mem' lo hi)
    (hlo : lo' ≤ lo) (hhi : hi ≤ hi') : ChangedIn mem mem' lo' hi' :=
  fun x hx => h x (by omega)

theorem ChangedIn.trans {mem₁ mem₂ mem₃ : Memory} {lo hi : Nat} (h : ChangedIn mem₁ mem₂ lo hi)
    (h' : ChangedIn mem₂ mem₃ lo hi) : ChangedIn mem₁ mem₃ lo hi :=
  fun x hx => (h' x hx).trans (h x hx)

theorem changedIn_store (mem : Memory) {a lo hi : Nat} (c : UInt8) (hlo : lo ≤ a) (hhi : a < hi) :
    ChangedIn mem (store mem a c) lo hi :=
  fun x hx => store_of_ne (by omega)

/-! ## §2. Texts. -/

/-- The text is in memory from `p` on. -/
def Holds (mem : Memory) : Nat → List UInt8 → Prop
  | _, [] => True
  | p, c :: b => mem p = c ∧ Holds mem (p + 1) b

@[simp] theorem holds_nil (mem : Memory) (p : Nat) : Holds mem p [] := trivial

theorem holds_cons {mem : Memory} {p : Nat} {c : UInt8} {b : List UInt8} :
    Holds mem p (c :: b) ↔ mem p = c ∧ Holds mem (p + 1) b := Iff.rfl

/-- **Two texts, one behind the other.** -/
theorem holds_append {mem : Memory} {p : Nat} {b b' : List UInt8} :
    Holds mem p (b ++ b') ↔ Holds mem p b ∧ Holds mem (p + b.length) b' := by
  induction b generalizing p with
  | nil => simp
  | cons c b ih =>
      rw [List.cons_append, holds_cons, holds_cons, ih, List.length_cons, and_assoc,
        show p + 1 + b.length = p + (b.length + 1) by omega]

/-- **A text does not notice** what changes elsewhere. -/
theorem Holds.of_changed {mem mem' : Memory} {p lo hi : Nat} {b : List UInt8}
    (h : Holds mem p b) (hmem : ChangedIn mem mem' lo hi) (haway : p + b.length ≤ lo ∨ hi ≤ p) :
    Holds mem' p b := by
  induction b generalizing p with
  | nil => trivial
  | cons c b ih =>
      rw [List.length_cons] at haway
      obtain ⟨hc, hb⟩ := holds_cons.1 h
      refine holds_cons.2 ⟨?_, ih hb (by omega)⟩
      rw [hmem p (by omega), hc]

end Burp.Text
