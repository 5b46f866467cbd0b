/-
  Burp.Text.Tokens — the tokens of a text.

  The tokens that `strtok` gives one after the other are the pieces between separators that
  are not empty.

  Main results:
    * `tokens_join` — words that are put together with separators are its tokens again.
-/
import Mathlib.Tactic

namespace Burp.Text

variable {α : Type*}

/-- What the calls of `strtok` give. -/
def tokens (sep : α → Bool) (b : List α) : List (List α) :=
  (b.splitOnP sep).filter fun w => !w.isEmpty

/-- Words, each with a separator behind it. -/
def join (s : α) (words : List (List α)) : List α := words.flatMap (· ++ [s])

variable {sep : α → Bool} {s : α}

theorem tokens_nil : tokens sep ([] : List α) = [] := rfl

/-- A word that a separator ends. -/
theorem tokens_cons {w : List α} (hw : ∀ c ∈ w, sep c = false) (hs : sep s = true)
    (rest : List α) :
    tokens sep (w ++ s :: rest) = [w].filter (fun w => !w.isEmpty) ++ tokens sep rest := by
  unfold tokens
  rw [List.splitOnP_append_cons_of_forall_mem hw s hs, ← List.filter_append,
    List.singleton_append]

/-- **Words are the tokens** of the text that they make, the empty ones excepted. -/
theorem tokens_join {words : List (List α)} (hwords : ∀ w ∈ words, ∀ c ∈ w, sep c = false)
    (hs : sep s = true) (rest : List α) :
    tokens sep (join s words ++ rest)
      = words.filter (fun w => !w.isEmpty) ++ tokens sep rest := by
  induction words with
  | nil => rfl
  | cons w words ih =>
      have hsplit : join s (w :: words) ++ rest = w ++ s :: (join s words ++ rest) := by
        unfold join
        rw [List.flatMap_cons, List.append_assoc, List.append_assoc]
        rfl
      rw [hsplit, tokens_cons (hwords w List.mem_cons_self) hs,
        ih fun v hv => hwords v (List.mem_cons_of_mem _ hv), ← List.append_assoc,
        ← List.filter_append, List.singleton_append]

/-- Words with a separator before each but the first. -/
theorem tokens_led {w : List α} {words : List (List α)} {e : α}
    (hwords : ∀ v ∈ w :: words, ∀ c ∈ v, sep c = false) (hs : sep s = true) (he : sep e = true) :
    tokens sep (w ++ (words.flatMap (s :: ·) ++ [e]))
      = (w :: words).filter fun v => !v.isEmpty := by
  induction words generalizing w with
  | nil =>
      show tokens sep (w ++ e :: []) = _
      rw [tokens_cons (hwords w List.mem_cons_self) he, tokens_nil, List.append_nil]
  | cons v words ih =>
      rw [List.flatMap_cons, List.cons_append, List.cons_append, List.append_assoc,
        tokens_cons (hwords w List.mem_cons_self) hs,
        ih fun u hu => hwords u (List.mem_cons_of_mem _ hu), ← List.filter_append,
        List.singleton_append]

/-! Lines: words that all have the same separator behind them. -/

section Lines

variable [DecidableEq α]

theorem splitOn_join {words : List (List α)} (hwords : ∀ w ∈ words, s ∉ w) (rest : List α) :
    (join s words ++ rest).splitOn s = words ++ rest.splitOn s := by
  induction words with
  | nil => rfl
  | cons w words ih =>
      have hsplit : join s (w :: words) ++ rest = w ++ s :: (join s words ++ rest) := by
        unfold join
        rw [List.flatMap_cons, List.append_assoc, List.append_assoc]
        rfl
      rw [hsplit, List.splitOn_append_cons_self_of_not_mem (hwords w List.mem_cons_self),
        ih fun v hv => hwords v (List.mem_cons_of_mem _ hv)]
      rfl

/-- Every text is some lines and a last one that nothing ends. -/
theorem exists_join (s : α) (b : List α) :
    ∃ words rest, b = join s words ++ rest ∧ (∀ w ∈ words, s ∉ w) ∧ s ∉ rest := by
  induction b with
  | nil => exact ⟨[], [], rfl, by simp, List.not_mem_nil⟩
  | cons c b ih =>
      obtain ⟨words, rest, rfl, hwords, hrest⟩ := ih
      by_cases hc : c = s
      · subst hc
        refine ⟨[] :: words, rest, rfl, ?_, hrest⟩
        intro w hw
        rcases List.mem_cons.mp hw with rfl | hw
        · exact List.not_mem_nil
        · exact hwords w hw
      · have hcons : ∀ w, s ∉ w → s ∉ c :: w := by
          intro w hw hmem
          rcases List.mem_cons.mp hmem with rfl | hmem
          · exact hc rfl
          · exact hw hmem
        cases words with
        | nil => exact ⟨[], c :: rest, rfl, hwords, hcons rest hrest⟩
        | cons w words =>
            refine ⟨(c :: w) :: words, rest, rfl, ?_, hrest⟩
            intro v hv
            rcases List.mem_cons.mp hv with rfl | hv
            · exact hcons w (hwords w List.mem_cons_self)
            · exact hwords v (List.mem_cons_of_mem _ hv)

/-- A text that ends with the separator is lines. -/
theorem exists_join_of_last {b : List α} (h : b.getLast? = some s) :
    ∃ words, b = join s words ∧ ∀ w ∈ words, s ∉ w := by
  obtain ⟨words, rest, rfl, hwords, hrest⟩ := exists_join s b
  refine ⟨words, ?_, hwords⟩
  cases rest with
  | nil => rw [List.append_nil]
  | cons c cs =>
      rw [List.getLast?_append_of_ne_nil _ (List.cons_ne_nil c cs)] at h
      exact absurd (List.mem_of_getLast? h) hrest

end Lines

end Burp.Text
