/-
  Burp.Order.Runs — lists without repetitions in a row.

  A loop that remembers the last thing it has given leaves out what is the same again, which is
  what `List.destutter` does.  In a list that is in order this leaves out all repetitions; in any
  other list something may come back.

  Main results:
    * `fresh_eq_destutter` — the loop.
    * `mem_destutter` — nothing is lost.
    * `eq_of_nodup_destutter` — between two that are the same there is nothing else, if nothing
      comes back.
-/
import Mathlib.Data.List.Destutter
import Mathlib.Tactic

namespace Burp.Runs

variable {α : Type*} [DecidableEq α]

/-- Leaving out what is the same as the last one. -/
def fresh : Option α → List α → List α
  | _, [] => []
  | last, a :: l => if last = some a then fresh last l else a :: fresh (some a) l

theorem cons_fresh (a : α) (l : List α) : a :: fresh (some a) l = l.destutter' (· ≠ ·) a := by
  induction l generalizing a with
  | nil => rfl
  | cons b l ih =>
      by_cases hab : a = b
      · subst hab
        rw [fresh, if_pos rfl, ih, List.destutter'_cons_neg _ (by simp)]
      · rw [fresh, if_neg (by simpa using hab), ih, List.destutter'_cons_pos _ hab]

/-- **The loop** that begins with nothing. -/
theorem fresh_eq_destutter (l : List α) : fresh none l = l.destutter (· ≠ ·) := by
  cases l with
  | nil => rfl
  | cons a l =>
      rw [fresh, if_neg (by simp), cons_fresh]
      rfl

theorem mem_destutter' {x a : α} {l : List α} :
    x ∈ l.destutter' (· ≠ ·) a ↔ x = a ∨ x ∈ l := by
  induction l generalizing a with
  | nil => simp
  | cons b l ih =>
      by_cases hab : a = b
      · subst hab
        rw [List.destutter'_cons_neg _ (by simp), ih, List.mem_cons]
        tauto
      · rw [List.destutter'_cons_pos _ hab, List.mem_cons, ih, List.mem_cons]

/-- **Nothing is lost.** -/
theorem mem_destutter {x : α} {l : List α} : x ∈ l.destutter (· ≠ ·) ↔ x ∈ l := by
  cases l with
  | nil => rfl
  | cons a l =>
      rw [List.destutter_cons', mem_destutter', List.mem_cons]

theorem eq_of_nodup_destutter' {x y a : α} {l : List α}
    (h : (l.destutter' (· ≠ ·) a).Nodup) (hsub : [x, y, x].Sublist (a :: l)) : y = x := by
  induction l generalizing a with
  | nil =>
      have hlen := hsub.length_le
      simp at hlen
  | cons b l ih =>
      by_cases hab : a = b
      · subst hab
        rw [List.destutter'_cons_neg _ (by simp)] at h
        by_contra hne
        rcases List.cons_sublist_cons'.1 hsub with hsub' | ⟨rfl, hsub'⟩
        · exact hne (ih h hsub')
        · rcases List.cons_sublist_cons'.1 hsub' with hsub' | ⟨heq, -⟩
          · exact hne (ih h (hsub'.cons_cons x))
          · exact hne heq
      · -- the first one is given, and nothing like it comes after
        rw [List.destutter'_cons_pos _ hab, List.nodup_cons] at h
        rcases List.cons_sublist_cons'.1 hsub with hsub' | ⟨rfl, hsub'⟩
        · exact ih h.2 hsub'
        · have hmem : x ∈ b :: l := hsub'.subset (by simp)
          exact absurd (mem_destutter'.2 (List.mem_cons.1 hmem)) h.1

/-- **If nothing comes back**, there is nothing else between two that are the same. -/
theorem eq_of_nodup_destutter {x y : α} {l : List α} (h : (l.destutter (· ≠ ·)).Nodup)
    (hsub : [x, y, x].Sublist l) : y = x := by
  cases l with
  | nil => simp at hsub
  | cons a l => exact eq_of_nodup_destutter' h hsub

end Burp.Runs
