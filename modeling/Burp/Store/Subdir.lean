/-
  Burp.Store.Subdir — what is below a directory.

  `is_subdir` compares two paths character by character and says whether the second is the
  first one or below it, as a number that grows with the depth.  The separator is the lowest
  character in the order of paths, so that what is below a directory stands right behind it.

  Main results:
    * `isSubdir_pos_iff` — the directory itself, or a path below it.
    * `isSubdir_between` — what stands between a directory and a path below it.
-/
import Burp.Store.Order

namespace Burp.Store

open FileSystem

/-! ## §1. The code. -/

/-- The loop of `is_subdir` and what comes after it.  `last` is the last character that was
the same in both paths. -/
def isSubdirLoop : Nat → Option UInt8 → Bytes → Bytes → Nat
  | count, _, c :: d, c' :: s =>
      if c = c' then isSubdirLoop (if c' = 47 then count + 1 else count) (some c) d s else 0
  -- paths were exactly the same
  | count, _, [], [] => count + 1
  | count, last, [], c' :: _ =>
      -- `dir` ended without a slash
      if c' = 47 then count + 1 else if last = some 47 then count else 0
  | _, _, _ :: _, [] => 0

/-- `is_subdir`: the number of directories matched, plus one. -/
def isSubdir : Option Bytes → Option Bytes → Nat
  | some dir, some sub => isSubdirLoop 1 none dir sub
  | _, _ => 0

/-- Strictly below a directory, by the text of the paths. -/
def BelowBytes (d e : Bytes) : Prop :=
  d ++ [47] <+: e ∨ d.getLast? = some 47 ∧ d <+: e ∧ e ≠ d

instance : DecidableRel BelowBytes :=
  fun d e => inferInstanceAs
    (Decidable (d ++ [47] <+: e ∨ d.getLast? = some 47 ∧ d <+: e ∧ e ≠ d))

def Below : Option Bytes → Option Bytes → Prop
  | some d, some e => BelowBytes d e
  | _, _ => False

/-! ## §2. What it says. -/

theorem isSubdirLoop_eq : ∀ (d s : Bytes) (count : Nat) (last : Option UInt8),
    isSubdirLoop count last d s
      = if s = d ∨ d ++ [47] <+: s then count + d.count 47 + 1
        else if d.getLast?.or last = some 47 ∧ d <+: s then count + d.count 47 else 0 := by
  intro d
  induction d with
  | nil =>
      intro s count last
      cases s with
      | nil => simp [isSubdirLoop]
      | cons c s =>
          unfold isSubdirLoop
          by_cases hc : c = 47
          · simp [hc]
          · by_cases hlast : last = some 47
            · simp [hc, hlast, Ne.symm hc]
            · simp [hc, hlast, Ne.symm hc]
  | cons c d ih =>
      intro s count last
      cases s with
      | nil => simp [isSubdirLoop]
      | cons c' s =>
          unfold isSubdirLoop
          by_cases hc : c = c'
          · subst hc
            have hlast : (c :: d).getLast?.or last = d.getLast?.or (some c) := by
              cases d with
              | nil => rfl
              | cons c' d => simp [List.getLast?_cons]
            rw [if_pos rfl, ih s _ (some c), hlast]
            by_cases h47 : c = 47
            · simp only [h47, if_true, List.cons.injEq, true_and, List.cons_append,
                List.cons_prefix_cons, List.count_cons_self]
              split_ifs <;> omega
            · simp only [h47, if_false, List.cons.injEq, true_and, List.cons_append,
                List.cons_prefix_cons, List.count_cons_of_ne h47]
          · have hc' : c' ≠ c := fun h => hc h.symm
            simp [hc, hc', List.cons_prefix_cons]

theorem isSubdir_eq (d s : Bytes) :
    isSubdir (some d) (some s)
      = if s = d ∨ d ++ [47] <+: s then d.count 47 + 2
        else if d.getLast? = some 47 ∧ d <+: s then d.count 47 + 1 else 0 := by
  show isSubdirLoop 1 none d s = _
  rw [isSubdirLoop_eq, Option.or_none]
  split_ifs <;> omega

/-- **`is_subdir`** says yes to the directory itself and to what is below it. -/
theorem isSubdir_pos_iff (d s : Bytes) :
    0 < isSubdir (some d) (some s) ↔ s = d ∨ BelowBytes d s := by
  rw [isSubdir_eq]
  split_ifs with hd hlast
  · exact ⟨fun _ => hd.imp_right Or.inl, fun _ => by omega⟩
  · have hs : s ≠ d := fun h => hd (Or.inl h)
    exact ⟨fun _ => Or.inr (Or.inr ⟨hlast.1, hlast.2, hs⟩), fun _ => by omega⟩
  · constructor
    · intro h
      omega
    · rintro (h | h | ⟨hl, hp, -⟩)
      · exact absurd (Or.inl h) hd
      · exact absurd (Or.inr h) hd
      · exact absurd ⟨hl, hp⟩ hlast

/-! ## §3. The order. -/

theorem cons_le_cons_iff' {κ : Type} [LinearOrder κ] {a b : κ} {x y : List κ} :
    a :: x ≤ b :: y ↔ a < b ∨ a = b ∧ x ≤ y := by
  rw [le_iff_lt_or_eq, le_iff_lt_or_eq, List.cons_lt_cons_iff, List.cons.injEq]
  tauto

/-- Between a list and a continuation of it there are continuations only. -/
theorem lex_between {κ : Type} [LinearOrder κ] : ∀ d x y : List κ, d ≤ x → x ≤ d ++ y →
    ∃ z, x = d ++ z ∧ z ≤ y := by
  intro d
  induction d with
  | nil =>
      intro x y _ hxy
      exact ⟨x, rfl, hxy⟩
  | cons c d ih =>
      intro x y hdx hxy
      cases x with
      | nil => exact absurd hdx (not_le_of_gt (by simp))
      | cons c' x =>
          rw [List.cons_append] at hxy
          rcases cons_le_cons_iff'.mp hdx with hlt | ⟨heq, hdx'⟩
          · rcases cons_le_cons_iff'.mp hxy with hlt' | ⟨heq', -⟩
            · exact absurd hlt (lt_asymm hlt')
            · exact absurd (heq' ▸ hlt) (lt_irrefl _)
          · subst heq
            rcases cons_le_cons_iff'.mp hxy with hlt' | ⟨-, hxy'⟩
            · exact absurd hlt' (lt_irrefl _)
            · obtain ⟨z, hz, hzy⟩ := ih x y hdx' hxy'
              exact ⟨z, congrArg (c :: ·) hz, hzy⟩

theorem not_pathcmp_pos_iff (a b : Option Bytes) : pathcmp a b ≤ 0 ↔ pathKey a ≤ pathKey b := by
  rw [le_iff_lt_or_eq, le_iff_lt_or_eq, pathcmp_lt_iff, pathcmp_eq_iff, pathKey_inj]

theorem pathcmp_trans {a b c : Option Bytes} (hab : pathcmp a b ≤ 0) (hbc : pathcmp b c ≤ 0) :
    pathcmp a c ≤ 0 := by
  rw [not_pathcmp_pos_iff] at hab hbc ⊢
  exact hab.trans hbc

/-- What is below a directory comes after it. -/
theorem Below.pathcmp_pos {d e : Option Bytes} (h : Below d e) : ¬ pathcmp e d ≤ 0 := by
  cases d with
  | none => exact h.elim
  | some d =>
      cases e with
      | none => exact h.elim
      | some e =>
          intro hle
          rw [not_pathcmp_pos_iff] at hle
          have hprefix : ∃ r, r ≠ [] ∧ e = d ++ r := by
            rcases h with ⟨r, hr⟩ | ⟨-, ⟨r, hr⟩, hne⟩
            · exact ⟨47 :: r, by simp, by simpa using hr.symm⟩
            · refine ⟨r, ?_, hr.symm⟩
              intro hnil
              rw [hnil, List.append_nil] at hr
              exact hne hr.symm
          obtain ⟨r, hne, rfl⟩ := hprefix
          have hlt : pathKey (some d) < pathKey (some (d ++ r)) := by
            cases r with
            | nil => exact absurd rfl hne
            | cons c r =>
                have happ : (0 :: d.map charKey) ++ [] < (0 :: d.map charKey)
                    ++ (c :: r).map charKey := List.append_left_lt (by simp)
                simpa [pathKey] using happ
          exact absurd hle (not_le_of_gt hlt)

/-- **What stands between a directory and a path below it** is below the directory as well. -/
theorem isSubdir_between {d x e : Option Bytes} (hdx : pathcmp d x ≤ 0) (hxe : pathcmp x e ≤ 0)
    (h : Below d e) : 0 < isSubdir d x := by
  cases d with
  | none => exact h.elim
  | some d =>
      cases e with
      | none => exact h.elim
      | some e =>
          cases x with
          | none => simp [pathcmp] at hdx
          | some x =>
              rw [not_pathcmp_pos_iff] at hdx hxe
              have hdx' : d.map charKey ≤ x.map charKey := by
                simpa [pathKey, cons_le_cons_iff'] using hdx
              have hxe' : x.map charKey ≤ e.map charKey := by
                simpa [pathKey, cons_le_cons_iff'] using hxe
              rw [isSubdir_pos_iff]
              -- `x` is `d` and then something that is not above the rest of `e`
              have hrest : ∀ r : Bytes, e = d ++ r → ∃ z : Bytes, x = d ++ z
                  ∧ z.map charKey ≤ r.map charKey := by
                intro r hr
                rw [hr, List.map_append] at hxe'
                obtain ⟨z, hz, hzr⟩ := lex_between _ _ _ hdx' hxe'
                obtain ⟨d', z', hx, hd', hz'⟩ := List.map_eq_append_iff.mp hz
                have hdd : d' = d := List.map_injective_iff.mpr (fun _ _ => charKey_inj) hd'
                exact ⟨z', hdd ▸ hx, hz' ▸ hzr⟩
              rcases h with ⟨r, hr⟩ | ⟨hlast, ⟨r, hr⟩, -⟩
              · obtain ⟨z, hz, hzr⟩ := hrest (47 :: r) (by simpa using hr.symm)
                cases z with
                | nil => exact Or.inl (by simpa using hz)
                | cons c z =>
                    -- no other character is as low as the separator
                    have hc : c = 47 := by
                      rw [List.map_cons, List.map_cons, cons_le_cons_iff'] at hzr
                      have hkey : charKey c ≤ charKey 47 := by
                        rcases hzr with hlt | ⟨heq, -⟩
                        · exact hlt.le
                        · exact heq.le
                      by_contra hne
                      have hbound := charVal_bounds c
                      have hc : charKey c = charVal c := if_neg hne
                      have hslash : charKey 47 = -129 := rfl
                      omega
                    exact Or.inr (Or.inl ⟨z, by rw [hz, hc]; simp⟩)
              · obtain ⟨z, hz, -⟩ := hrest r hr.symm
                by_cases hxd : x = d
                · exact Or.inl hxd
                · exact Or.inr (Or.inr ⟨hlast, ⟨z, hz.symm⟩, hxd⟩)

end Burp.Store
