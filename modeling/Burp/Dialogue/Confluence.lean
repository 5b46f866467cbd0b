/-
  Burp.Dialogue.Confluence — steps that do not get in each other's way.

  Where two different steps from one state can each be followed by the other, the order of the
  steps does not matter: if one run comes to an end, every run does, in the same state and after
  the same number of steps.

  Main results:
    * `Steps.ends` — a run that ends shows how every run ends.
-/
import Mathlib.Logic.Relation
import Mathlib.Tactic

namespace Dialogue

/-- So many steps. -/
inductive Steps {α : Type*} (r : α → α → Prop) : Nat → α → α → Prop
  | refl (a : α) : Steps r 0 a a
  | head {a b c : α} {n : Nat} (h : r a b) (hs : Steps r n b c) : Steps r (n + 1) a c

/-- Two different steps from one state can each be followed by the other. -/
def Diamond {α : Type*} (r : α → α → Prop) : Prop :=
  ∀ a b c, r a b → r a c → b = c ∨ ∃ d, r b d ∧ r c d

section Steps

variable {α : Type*} {r : α → α → Prop} {a b c d e : α} {n m : Nat}

theorem Steps.single (h : r a b) : Steps r 1 a b := .head h (.refl b)

theorem Steps.trans (h : Steps r n a b) (h' : Steps r m b c) : Steps r (n + m) a c := by
  induction h with
  | refl a => rwa [Nat.zero_add]
  | head h hs ih => exact Nat.succ_add _ _ ▸ .head h (ih h')

theorem Steps.reflTransGen (h : Steps r n a b) : Relation.ReflTransGen r a b := by
  induction h with
  | refl a => exact .refl
  | head h hs ih => exact .head h ih

theorem exists_steps (h : Relation.ReflTransGen r a b) : ∃ n, Steps r n a b := by
  induction h using Relation.ReflTransGen.head_induction_on with
  | refl => exact ⟨0, .refl _⟩
  | head h _ ih =>
      obtain ⟨n, hn⟩ := ih
      exact ⟨n + 1, .head h hn⟩

/-- After one step of another kind the same end is one step closer. -/
theorem Steps.after (hd : Diamond r) (h : Steps r n a e) (he : ∀ x, ¬ r e x) (hb : r a b) :
    ∃ k, n = k + 1 ∧ Steps r k b e := by
  induction h generalizing b with
  | refl a => exact absurd hb (he _)
  | @head a c e n hc hs ih =>
      refine ⟨n, rfl, ?_⟩
      rcases hd a b c hb hc with rfl | ⟨d, hbd, hcd⟩
      · exact hs
      · obtain ⟨k, rfl, hk⟩ := ih he hcd
        exact .head hbd hk

/-- **Every run comes to the end** that one run has come to, and none is longer. -/
theorem Steps.ends (hd : Diamond r) (h : Steps r n a e) (he : ∀ x, ¬ r e x)
    (h' : Steps r m a b) : ∃ k, n = m + k ∧ Steps r k b e := by
  induction h' generalizing n with
  | refl a => exact ⟨n, (Nat.zero_add n).symm, h⟩
  | head hb hs ih =>
      obtain ⟨k, rfl, hk⟩ := h.after hd he hb
      obtain ⟨j, rfl, hj⟩ := ih hk
      exact ⟨j, by omega, hj⟩

end Steps

end Dialogue
