/-
  Burp.Order.Comparison — comparison functions, and what a sorted list has together.

  A comparison function answers with a number, below zero, zero or above zero.  It is an
  order on a set of values if it compares keys there.  In a sorted list a property that holds
  between any two values that have it holds of one block.  Below a hierarchy, a walk that
  compares each value with the last chosen one only chooses one value for each block, if the
  values below a topmost one are all together.

  Main results:
    * `OrdersWell.of_key` — comparing keys is an order.
    * `block_of_between` — one block of a sorted list.
    * `represents_iff` — when a walk chooses well.
-/
import Mathlib.Data.List.Pairwise
import Mathlib.Data.List.TakeWhile
import Mathlib.Data.List.Nodup
import Mathlib.Data.Set.Basic
import Mathlib.Order.Basic

namespace Comparison

variable {α κ : Type}

/-! ## §1. Comparison functions. -/

/-- On a set of values a comparison function is an order. -/
structure OrdersWell (cmp : α → α → Int) (S : Set α) : Prop where
  antisymm : ∀ a ∈ S, ∀ b ∈ S, (0 < cmp a b ↔ cmp b a < 0)
  trans : ∀ a ∈ S, ∀ b ∈ S, ∀ c ∈ S, cmp a b ≤ 0 → cmp b c ≤ 0 → cmp a c ≤ 0
  trans_lt : ∀ a ∈ S, ∀ b ∈ S, ∀ c ∈ S, cmp a b < 0 → cmp b c < 0 → cmp a c < 0
  zero_refl : ∀ a ∈ S, cmp a a = 0
  zero_symm : ∀ a ∈ S, ∀ b ∈ S, cmp a b = 0 → cmp b a = 0
  zero_trans : ∀ a ∈ S, ∀ b ∈ S, ∀ c ∈ S, cmp a b = 0 → cmp b c = 0 → cmp a c = 0

/-- **Comparing keys** is an order. -/
theorem OrdersWell.of_key [LinearOrder κ] {cmp : α → α → Int} {S : Set α} (key : α → κ)
    (h : ∀ a ∈ S, ∀ b ∈ S, (cmp a b < 0 ↔ key a < key b) ∧ (cmp a b = 0 ↔ key a = key b)) :
    OrdersWell cmp S := by
  have hle : ∀ a ∈ S, ∀ b ∈ S, (cmp a b ≤ 0 ↔ key a ≤ key b) := by
    intro a ha b hb
    rw [le_iff_lt_or_eq, le_iff_lt_or_eq, (h a ha b hb).1, (h a ha b hb).2]
  refine ⟨?_, ?_, ?_, ?_, ?_, ?_⟩
  · intro a ha b hb
    rw [← not_le, hle a ha b hb, not_le, (h b hb a ha).1]
  · intro a ha b hb c hc hab hbc
    rw [hle a ha b hb] at hab
    rw [hle b hb c hc] at hbc
    exact (hle a ha c hc).2 (hab.trans hbc)
  · intro a ha b hb c hc hab hbc
    rw [(h a ha b hb).1] at hab
    rw [(h b hb c hc).1] at hbc
    exact (h a ha c hc).1.2 (hab.trans hbc)
  · intro a ha
    exact (h a ha a ha).2.2 rfl
  · intro a ha b hb hab
    exact (h b hb a ha).2.2 ((h a ha b hb).2.1 hab).symm
  · intro a ha b hb c hc hab hbc
    exact (h a ha c hc).2.2 (((h a ha b hb).2.1 hab).trans ((h b hb c hc).2.1 hbc))

/-! ## §2. Blocks. -/

/-- What has a property in a list is together. -/
def Block (P : α → Prop) (l mid : List α) : Prop :=
  ∃ pre post, l = pre ++ mid ++ post ∧ (∀ x ∈ mid, P x) ∧ ∀ x ∈ pre ++ post, ¬ P x

/-- If what stands before a value with the property has it as well, a walk finds all of it. -/
theorem not_mem_dropWhile {le : α → α → Prop} {P : α → Prop} [DecidablePred P] {l : List α}
    (hs : l.Pairwise le) (hdown : ∀ y ∈ l, ∀ z ∈ l, le y z → P z → P y) :
    ∀ z ∈ l.dropWhile (P ·), ¬ P z := by
  intro z hz hPz
  cases hd : l.dropWhile (P ·) with
  | nil =>
      rw [hd] at hz
      cases hz
  | cons y post =>
      have hsub : (y :: post).Sublist l := hd ▸ List.dropWhile_sublist _
      have hy : ¬ P y := by
        have := List.head_dropWhile_not (P ·) (l := l) (by simp [hd])
        simpa [hd] using this
      rw [hd] at hz
      obtain rfl | hz := List.mem_cons.1 hz
      · exact hy hPz
      · have hyz := (List.pairwise_cons.1 (hs.sublist hsub)).1 z hz
        exact hy (hdown y (hsub.subset List.mem_cons_self) z
          (hsub.subset (List.mem_cons_of_mem _ hz)) hyz hPz)

/-- **A property that holds between** any two values that have it is together in a sorted
list. -/
theorem block_of_between {le : α → α → Prop} {P : α → Prop} [DecidablePred P]
    (hbetween : ∀ x y z, le x y → le y z → P x → P z → P y) {l : List α}
    (hs : l.Pairwise le) : ∃ mid, Block P l mid := by
  induction l with
  | nil => exact ⟨[], [], [], rfl, by simp, by simp⟩
  | cons x l ih =>
      have hx := (List.pairwise_cons.1 hs).1
      have hl := (List.pairwise_cons.1 hs).2
      by_cases hP : P x
      · refine ⟨x :: l.takeWhile (P ·), [], l.dropWhile (P ·), ?_, ?_, ?_⟩
        · simp
        · intro y hy
          obtain rfl | hy := List.mem_cons.1 hy
          · exact hP
          · simpa using List.mem_takeWhile_imp hy
        · rw [List.nil_append]
          apply not_mem_dropWhile hl
          intro y hy z _ hyz hz
          exact hbetween x y z (hx y hy) hyz hP hz
      · obtain ⟨mid, pre, post, rfl, hmid, hout⟩ := ih hl
        refine ⟨mid, x :: pre, post, by simp, hmid, ?_⟩
        intro y hy
        obtain rfl | hy := List.mem_cons.1 hy
        · exact hP
        · exact hout y hy

/-- The block begins with the least value. -/
theorem Block.head_of_least {le : α → α → Prop} {P : α → Prop} {l mid : List α}
    (h : Block P l mid) (hs : l.Pairwise le) (hanti : ∀ {x y}, le x y → le y x → x = y) {d : α}
    (hd : d ∈ l) (hP : P d) (hleast : ∀ x, P x → le d x) : mid.head? = some d := by
  obtain ⟨pre, post, rfl, hmid, hout⟩ := h
  have hdm : d ∈ mid := by
    by_contra hnot
    apply hout d _ hP
    simp only [List.mem_append] at hd ⊢
    tauto
  cases mid with
  | nil => cases hdm
  | cons x mid =>
      obtain rfl | hdm := List.mem_cons.1 hdm
      · rfl
      · rw [List.append_assoc, List.pairwise_append] at hs
        have hxd := (List.pairwise_cons.1 hs.2.1).1 d (List.mem_append_left _ hdm)
        rw [hanti hxd (hleast x (hmid x List.mem_cons_self))]
        rfl

/-! ## §3. A walk that chooses representatives. -/

/-- A hierarchy: what is above one value is one below the other. -/
structure Hierarchy (r : α → α → Prop) : Prop where
  refl : ∀ a, r a a
  antisymm : ∀ {a b}, r a b → r b a → a = b
  trans : ∀ {a b c}, r a b → r b c → r a c
  above : ∀ {a b c}, r a c → r b c → r a b ∨ r b a

variable {r : α → α → Prop} [DecidableRel r]

/-- Each value that is not at or below the last chosen one is chosen. -/
def chosen (r : α → α → Prop) [DecidableRel r] : Option α → List α → List α
  | _, [] => []
  | last, e :: rest =>
      if last.any fun s => r s e then chosen r last rest else e :: chosen r (some e) rest

/-- The chosen values are not below one another, and each value is at or below one of them. -/
structure Represents (r : α → α → Prop) [DecidableRel r] (reps l : List α) : Prop where
  apart : reps.Pairwise fun s s' => ¬ r s s' ∧ ¬ r s' s
  one : ∀ e ∈ l, reps.countP (fun s => r s e) = 1

/-- Below no other value of the list. -/
def Topmost (r : α → α → Prop) (l : List α) (d : α) : Prop := d ∈ l ∧ ∀ f ∈ l, r f d → f = d

/-- What is at or below a topmost value is together, the value itself first. -/
def Gathered (r : α → α → Prop) (l : List α) : Prop :=
  ∀ d, Topmost r l d → ∃ mid, Block (r d) l (d :: mid)

theorem chosen_cons (last : Option α) (e : α) (l : List α) :
    chosen r last (e :: l)
      = if last.any fun s => r s e then chosen r last l else e :: chosen r (some e) l := rfl

theorem chosen_subset (last : Option α) (l : List α) : ∀ s ∈ chosen r last l, s ∈ l := by
  induction l generalizing last with
  | nil => exact fun s hs => hs
  | cons e l ih =>
      intro s hs
      rw [chosen_cons] at hs
      split at hs
      · exact List.mem_cons_of_mem _ (ih last s hs)
      · obtain rfl | hs := List.mem_cons.1 hs
        · exact List.mem_cons_self
        · exact List.mem_cons_of_mem _ (ih _ s hs)

theorem chosen_append (last : Option α) (a b : List α) :
    chosen r last (a ++ b)
      = chosen r last a ++ chosen r ((chosen r last a).getLast?.or last) b := by
  induction a generalizing last with
  | nil => rfl
  | cons e a ih =>
      rw [List.cons_append, chosen_cons, chosen_cons]
      split
      · exact ih last
      · rw [ih (some e), List.cons_append, List.getLast?_cons]
        cases (chosen r (some e) a).getLast? <;> rfl

theorem chosen_of_below {d : α} {l : List α} (h : ∀ x ∈ l, r d x) : chosen r (some d) l = [] := by
  induction l with
  | nil => rfl
  | cons e l ih =>
      rw [chosen_cons, if_pos (by simpa using h e List.mem_cons_self)]
      exact ih fun x hx => h x (List.mem_cons_of_mem _ hx)

/-- Everything is at or below something chosen. -/
theorem chosen_covers (h : Hierarchy r) (last : Option α) (l : List α) :
    ∀ x ∈ l, (∃ s ∈ chosen r last l, r s x) ∨ ∃ s ∈ last, r s x := by
  induction l generalizing last with
  | nil => simp
  | cons e l ih =>
      intro x hx
      rw [chosen_cons]
      split
      next hlast =>
        obtain rfl | hx := List.mem_cons.1 hx
        · right
          obtain ⟨s, hs, hsx⟩ := Option.any_eq_true _ _ |>.1 hlast
          exact ⟨s, hs, by simpa using hsx⟩
        · exact ih last x hx
      next =>
        left
        obtain rfl | hx := List.mem_cons.1 hx
        · exact ⟨x, List.mem_cons_self, h.refl x⟩
        · obtain ⟨s, hs, hsx⟩ | ⟨s, hs, hsx⟩ := ih (some e) x hx
          · exact ⟨s, List.mem_cons_of_mem _ hs, hsx⟩
          · cases hs
            exact ⟨e, List.mem_cons_self, hsx⟩

/-- Where something was chosen. -/
theorem chosen_split {last : Option α} {l : List α} {d : α} (hd : d ∈ chosen r last l) :
    ∃ pre rest, l = pre ++ d :: rest
      ∧ chosen r last l = chosen r last pre ++ d :: chosen r (some d) rest := by
  induction l generalizing last with
  | nil => cases hd
  | cons e l ih =>
      rw [chosen_cons] at hd
      split at hd
      next hlast =>
        obtain ⟨pre, rest, rfl, heq⟩ := ih hd
        refine ⟨e :: pre, rest, rfl, ?_⟩
        rw [chosen_cons, if_pos hlast, chosen_cons, if_pos hlast, heq]
      next hlast =>
        rw [chosen_cons, if_neg hlast]
        obtain rfl | hd := List.mem_cons.1 hd
        · exact ⟨[], l, rfl, rfl⟩
        · obtain ⟨pre, rest, rfl, heq⟩ := ih hd
          refine ⟨e :: pre, rest, rfl, ?_⟩
          rw [chosen_cons, if_neg hlast, heq]
          rfl

/-- Everything is at or below something topmost. -/
theorem exists_topmost (h : Hierarchy r) (l : List α) (e : α) :
    ∃ d, Topmost r (e :: l) d ∧ r d e := by
  induction l generalizing e with
  | nil => exact ⟨e, ⟨List.mem_cons_self, by simp⟩, h.refl e⟩
  | cons x l ih =>
      obtain ⟨d, ⟨hd, htop⟩, hde⟩ := ih e
      by_cases hxd : r x d
      · -- go on from `x`
        obtain ⟨d', ⟨hd', htop'⟩, hdx'⟩ := ih x
        refine ⟨d', ⟨List.mem_cons_of_mem _ hd', ?_⟩, h.trans hdx' (h.trans hxd hde)⟩
        intro f hf hfd
        obtain rfl | hf := List.mem_cons.1 hf
        · exact h.antisymm hfd (h.trans hdx' (h.trans hxd hde))
        · exact htop' f hf hfd
      · refine ⟨d, ⟨?_, ?_⟩, hde⟩
        · obtain rfl | hd := List.mem_cons.1 hd
          · exact List.mem_cons_self
          · exact List.mem_cons_of_mem _ (List.mem_cons_of_mem _ hd)
        · intro f hf hfd
          obtain rfl | hf := List.mem_cons.1 hf
          · exact htop f List.mem_cons_self hfd
          · obtain rfl | hf := List.mem_cons.1 hf
            · exact absurd hfd hxd
            · exact htop f (List.mem_cons_of_mem _ hf) hfd

theorem exists_topmost_of_mem (h : Hierarchy r) {l : List α} {e : α} (he : e ∈ l) :
    ∃ d, Topmost r l d ∧ r d e := by
  obtain ⟨d, ⟨hd, htop⟩, hde⟩ := exists_topmost h l e
  have hsub : ∀ x ∈ e :: l, x ∈ l := by
    intro x hx
    obtain rfl | hx := List.mem_cons.1 hx
    · exact he
    · exact hx
  exact ⟨d, ⟨hsub d hd, fun f hf => htop f (List.mem_cons_of_mem _ hf)⟩, hde⟩

/-- A topmost value that has everything below it behind it is chosen, and nothing else of its
block is. -/
theorem Gathered.chosen_eq (h : Hierarchy r) {l : List α} (hg : Gathered r l) {d : α}
    (hd : Topmost r l d) :
    ∃ before after, chosen r none l = before ++ d :: after ∧ ∀ x ∈ before ++ after, ¬ r d x := by
  obtain ⟨mid, pre, post, heq, hmid, hout⟩ := hg d hd
  have hskip := chosen_of_below (fun x hx => hmid x (List.mem_cons_of_mem _ hx))
  -- when the walk comes to `d`, the last chosen value is not above it
  have hlast : ((chosen r none pre).getLast?.or none).any (fun s => r s d) ≠ true := by
    intro hany
    obtain ⟨s, hs, hsd⟩ := Option.any_eq_true _ _ |>.1 hany
    rw [Option.or_none] at hs
    have hspre := chosen_subset none pre s (List.mem_of_mem_getLast? hs)
    have hsl : s ∈ l := by
      rw [heq]
      simp [hspre]
    rw [hd.2 s hsl (by simpa using hsd)] at hspre
    exact hout d (List.mem_append_left _ hspre) (h.refl d)
  refine ⟨chosen r none pre, chosen r (some d) post, ?_, ?_⟩
  · rw [heq, List.append_assoc, chosen_append, List.cons_append, chosen_cons, if_neg hlast,
      chosen_append, hskip]
    rfl
  · intro x hx
    obtain hx | hx := List.mem_append.1 hx
    · exact hout x (List.mem_append_left _ (chosen_subset _ _ x hx))
    · exact hout x (List.mem_append_right _ (chosen_subset _ _ x hx))

theorem Gathered.topmost_of_chosen (h : Hierarchy r) {l : List α} (hg : Gathered r l) {s : α}
    (hs : s ∈ chosen r none l) : Topmost r l s := by
  obtain ⟨d, hd, hds⟩ := exists_topmost_of_mem h (chosen_subset none l s hs)
  obtain ⟨before, after, heq, hout⟩ := hg.chosen_eq h hd
  rw [heq, List.mem_append, List.mem_cons] at hs
  obtain hs | rfl | hs := hs
  · exact absurd hds (hout s (List.mem_append_left _ hs))
  · exact hd
  · exact absurd hds (hout s (List.mem_append_right _ hs))

theorem Gathered.represents (h : Hierarchy r) {l : List α} (hg : Gathered r l) :
    Represents r (chosen r none l) l := by
  constructor
  · have hnodup : (chosen r none l).Nodup := by
      classical
      rw [List.nodup_iff_count_le_one]
      intro d
      by_cases hd : d ∈ chosen r none l
      · obtain ⟨before, after, heq, hout⟩ := hg.chosen_eq h (hg.topmost_of_chosen h hd)
        have hnot : d ∉ before ++ after := fun hmem => hout d hmem (h.refl d)
        rw [List.mem_append, not_or] at hnot
        rw [heq, List.count_append, List.count_cons_self, List.count_eq_zero_of_not_mem hnot.1,
          List.count_eq_zero_of_not_mem hnot.2]
      · rw [List.count_eq_zero_of_not_mem hd]
        omega
    apply hnodup.pairwise_of_forall_ne
    intro s hs s' hs' hne
    have htop := hg.topmost_of_chosen h hs
    have htop' := hg.topmost_of_chosen h hs'
    exact ⟨fun hr => hne (htop'.2 s htop.1 hr), fun hr => hne (htop.2 s' htop'.1 hr).symm⟩
  · intro e he
    obtain ⟨d, hd, hde⟩ := exists_topmost_of_mem h he
    obtain ⟨before, after, heq, hout⟩ := hg.chosen_eq h hd
    have hother : ∀ s ∈ before ++ after, ¬ r s e := by
      intro s hs hse
      have hsc : s ∈ chosen r none l := by
        rw [heq]
        simp only [List.mem_append, List.mem_cons] at hs ⊢
        tauto
      have hds : ¬ r d s := hout s hs
      have htop := hg.topmost_of_chosen h hsc
      obtain hr | hr := h.above hse hde
      · rw [hd.2 s htop.1 hr] at hds
        exact hds (h.refl d)
      · exact hds hr
    have hzero : ∀ part : List α, (∀ s ∈ part, s ∈ before ++ after) →
        part.countP (fun s => r s e) = 0 := by
      intro part hpart
      rw [List.countP_eq_zero]
      intro s hs
      simpa using hother s (hpart s hs)
    rw [heq, List.countP_append, List.countP_cons, if_pos (by simpa using hde),
      hzero before (fun s hs => List.mem_append_left _ hs),
      hzero after (fun s hs => List.mem_append_right _ hs)]

/-- Not two chosen values are above one value. -/
theorem Represents.not_two {reps l before after : List α} (hr : Represents r reps l) {d s x : α}
    (heq : reps = before ++ d :: after) (hs : s ∈ before ++ after) (hx : x ∈ l) (hdx : r d x) :
    ¬ r s x := by
  intro hsx
  have hone := hr.one x hx
  have hpos : 0 < (before ++ after).countP fun s => r s x :=
    List.countP_pos_iff.2 ⟨s, hs, by simpa using hsx⟩
  rw [heq, List.countP_append, List.countP_cons, if_pos (by simpa using hdx)] at hone
  rw [List.countP_append] at hpos
  omega

theorem Represents.gathered (h : Hierarchy r) {l : List α}
    (hr : Represents r (chosen r none l) l) : Gathered r l := by
  intro d hd
  have hdc : d ∈ chosen r none l := by
    have hpos : 0 < (chosen r none l).countP fun s => r s d := by
      rw [hr.one d hd.1]
      omega
    obtain ⟨s, hs, hsd⟩ := List.countP_pos_iff.1 hpos
    rw [← hd.2 s (chosen_subset none l s hs) (by simpa using hsd)]
    exact hs
  obtain ⟨pre, rest, heq, hchosen⟩ := chosen_split hdc
  have hskip : chosen r (some d) rest = chosen r (some d) (rest.dropWhile (r d ·)) := by
    conv_lhs => rw [← List.takeWhile_append_dropWhile (p := (r d ·)) (l := rest)]
    rw [chosen_append, chosen_of_below (fun x hx => by simpa using List.mem_takeWhile_imp hx)]
    rfl
  refine ⟨rest.takeWhile (r d ·), pre, rest.dropWhile (r d ·), ?_, ?_, ?_⟩
  · rw [List.append_assoc, List.cons_append, List.takeWhile_append_dropWhile, heq]
  · intro x hx
    obtain rfl | hx := List.mem_cons.1 hx
    · exact h.refl x
    · simpa using List.mem_takeWhile_imp hx
  · intro x hx hdx
    have hxl : x ∈ l := by
      rw [heq]
      obtain hx | hx := List.mem_append.1 hx
      · exact List.mem_append_left _ hx
      · exact List.mem_append_right _ (List.mem_cons_of_mem _ (List.dropWhile_subset _ hx))
    obtain hx | hx := List.mem_append.1 hx
    · -- something was chosen for `x` before `d` was
      obtain ⟨s, hs, hsx⟩ | ⟨s, hs, -⟩ := chosen_covers h none pre x hx
      · exact hr.not_two hchosen (List.mem_append_left _ hs) hxl hdx hsx
      · cases hs
    · -- something else was chosen behind the end of the block
      cases hdrop : rest.dropWhile (r d ·) with
      | nil =>
          rw [hdrop] at hx
          cases hx
      | cons y post =>
          have hy : ¬ r d y := by
            have := List.head_dropWhile_not (r d ·) (l := rest) (by simp [hdrop])
            simpa [hdrop] using this
          have hafter : chosen r (some d) rest = y :: chosen r (some y) post := by
            rw [hskip, hdrop, chosen, if_neg (by simpa using hy)]
          have hcover : ∃ s ∈ y :: chosen r (some y) post, r s x := by
            rw [hdrop] at hx
            obtain rfl | hx := List.mem_cons.1 hx
            · exact absurd hdx hy
            · obtain ⟨s, hs, hsx⟩ | ⟨s, hs, hsx⟩ := chosen_covers h (some y) post x hx
              · exact ⟨s, List.mem_cons_of_mem _ hs, hsx⟩
              · cases hs
                exact ⟨y, List.mem_cons_self, hsx⟩
          obtain ⟨s, hs, hsx⟩ := hcover
          rw [← hafter] at hs
          exact hr.not_two hchosen (List.mem_append_right _ hs) hxl hdx hsx

/-- **When the walk chooses well:** the values below each topmost one are together, that one
first. -/
theorem represents_iff (h : Hierarchy r) (l : List α) :
    Represents r (chosen r none l) l ↔ Gathered r l :=
  ⟨fun hr => hr.gathered h, fun hg => hg.represents h⟩

end Comparison
