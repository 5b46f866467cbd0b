/-
  Burp.Phase1.Scope — what the scan of a name can come to.

  The scan of a directory takes the slashes off the end of its name and puts one back, and
  goes on from there: it comes to the name itself and to names that begin with that.  In the
  order of paths all of these stand together, so that two names of which neither is in the
  scope of the other have their scopes one after the other.

  Main results:
    * `before_of_scope` — a name after a scope and not in it comes after all of it.
    * `inside_of_scope` — the scope of what is in a scope.
-/
import Burp.Phase1.Find
import Mathlib.Data.List.DropRight

namespace Burp.Phase1

open FileSystem Burp.Store

/-! ## §1. The order. -/

/-- Strictly before, in the order of paths. -/
def Before (a b : Bytes) : Prop := pathcmp (some a) (some b) < 0

theorem before_iff {a b : Bytes} : Before a b ↔ a.map charKey < b.map charKey := by
  rw [Before, pathcmp_lt_iff]
  simp [pathKey]

theorem not_before_iff {a b : Bytes} : ¬ Before a b ↔ b.map charKey ≤ a.map charKey := by
  rw [before_iff, not_lt]

theorem Before.trans {a b c : Bytes} (hab : Before a b) (hbc : Before b c) : Before a c := by
  rw [before_iff] at hab hbc ⊢
  exact lt_trans hab hbc

theorem before_irrefl (a : Bytes) : ¬ Before a a := by
  rw [before_iff]
  exact lt_irrefl _

theorem Before.ne {a b : Bytes} (h : Before a b) : a ≠ b := by
  intro hab
  exact before_irrefl b (hab ▸ h)

theorem before_or_eq {a b : Bytes} (h : ¬ Before b a) : Before a b ∨ a = b := by
  rw [not_before_iff] at h
  rw [before_iff]
  obtain h | h := lt_or_eq_of_le h
  · exact Or.inl h
  · exact Or.inr (List.map_injective_iff.mpr (fun _ _ => charKey_inj) h)

theorem Before.pathcmp_le {a b : Bytes} (h : Before a b) :
    pathcmp (some a) (some b) ≤ 0 := le_of_lt h

/-- A name comes before what it is the beginning of. -/
theorem before_append (a : Bytes) {z : Bytes} (hz : z ≠ []) : Before a (a ++ z) := by
  rw [before_iff, List.map_append]
  cases z with
  | nil => exact absurd rfl hz
  | cons c z =>
      have : a.map charKey ++ [] < a.map charKey ++ (c :: z).map charKey :=
        List.append_left_lt (by simp)
      simpa using this

theorem not_before_of_prefix {a b : Bytes} (h : a <+: b) : ¬ Before b a := by
  obtain ⟨z, rfl⟩ := h
  intro hb
  by_cases hz : z = []
  · rw [hz, List.append_nil] at hb
    exact before_irrefl a hb
  · exact before_irrefl a ((before_append a hz).trans hb)

/-- The separator is the lowest character. -/
theorem charKey_slash {c : UInt8} (hc : c ≠ 47) : charKey 47 < charKey c := by
  have := charVal_bounds c
  simp only [charKey, hc, if_true, if_false]
  omega

theorem before_slash (a : Bytes) {c : UInt8} (hc : c ≠ 47) (x y : Bytes) :
    Before (a ++ 47 :: x) (a ++ c :: y) := by
  rw [before_iff, List.map_append, List.map_append]
  have := charKey_slash hc
  exact List.append_left_lt (by simp [List.cons_lt_cons_iff, this])

/-! ## §2. The end of a name. -/

/-- The name without the slashes at its end. -/
def strip (fname : Bytes) : Bytes := fname.rdropWhile (· = 47)

theorem canonical_eq (fname : Bytes) : canonical fname = strip fname ++ [47] := rfl

theorem strip_append_slashes (fname : Bytes) :
    ∃ k, fname = strip fname ++ List.replicate k 47 := by
  refine ⟨(fname.rtakeWhile (· = 47)).length, ?_⟩
  have hall : fname.rtakeWhile (· = 47)
      = List.replicate (fname.rtakeWhile (· = 47)).length 47 := by
    rw [List.eq_replicate_iff]
    exact ⟨rfl, fun c hc => by simpa using List.mem_rtakeWhile_imp hc⟩
  rw [← hall, strip, List.rdropWhile_append_rtakeWhile]

theorem strip_isPrefix (fname : Bytes) : strip fname <+: fname := List.rdropWhile_prefix _ _

/-- The name does not end with a slash. -/
def Bare (fname : Bytes) : Prop := fname.getLast? ≠ some 47

theorem Bare.strip_eq {fname : Bytes} (h : Bare fname) : strip fname = fname := by
  rw [strip, List.rdropWhile_eq_self_iff]
  intro hne hlast
  rw [decide_eq_true_eq] at hlast
  exact h (by rw [List.getLast?_eq_getLast_of_ne_nil hne, hlast])

theorem Bare.canonical_eq {fname : Bytes} (h : Bare fname) :
    canonical fname = fname ++ [47] := by
  rw [Phase1.canonical_eq, h.strip_eq]

/-- A name in a directory. -/
def Plain (n : Bytes) : Prop := n ≠ [] ∧ 47 ∉ n

theorem Plain.bare {n : Bytes} (h : Plain n) (a : Bytes) : Bare (a ++ n) := by
  intro hlast
  rw [List.getLast?_append_of_ne_nil a h.1] at hlast
  exact h.2 (List.mem_of_getLast? hlast)

theorem Plain.cons {n : Bytes} (h : Plain n) : ∃ c z, n = c :: z ∧ c ≠ 47 := by
  cases n with
  | nil => exact absurd rfl h.1
  | cons c z => exact ⟨c, z, rfl, fun hc => h.2 (by simp [hc])⟩

theorem strip_append (a w : Bytes) :
    strip (a ++ w) = if strip w = [] then strip a else a ++ strip w := by
  rw [strip, strip, strip, List.rdropWhile, List.reverse_append, List.dropWhile_append]
  by_cases h : w.reverse.dropWhile (· = 47) = []
  · simp [h, List.rdropWhile]
  · have h' : (w.reverse.dropWhile (· = 47)).isEmpty = false := by simpa using h
    simp only [h', List.rdropWhile, List.reverse_eq_nil_iff, h, if_false]
    simp

/-- A slash inside a name is not taken off. -/
theorem prefix_canonical {a x : Bytes} (ha : Bare a) (h : a ++ [47] <+: x) :
    a ++ [47] <+: canonical x := by
  obtain ⟨w, rfl⟩ := h
  rw [Phase1.canonical_eq, List.append_assoc, strip_append]
  split
  · rw [ha.strip_eq]
  next hne =>
    have hw : strip ([47] ++ w) = [47] ++ strip w := by
      rw [strip_append]
      by_cases hs : strip w = []
      · refine absurd ?_ hne
        rw [strip_append, if_pos hs]
        rfl
      · rw [if_neg hs]
    rw [hw]
    exact ⟨strip w ++ [47], by simp⟩

/-! ## §3. Scopes. -/

/-- What the scan of a name can come to, by the text. -/
def Scope (e y : Bytes) : Prop := y = e ∨ canonical e <+: y

/-- The same, but for the name itself. -/
def Inside (e y : Bytes) : Prop := ∃ c z, c ≠ 47 ∧ y = canonical e ++ c :: z

theorem Inside.scope {e y : Bytes} (h : Inside e y) : Scope e y := by
  obtain ⟨c, z, -, rfl⟩ := h
  exact Or.inr (List.prefix_append _ _)

/-- A name comes before everything inside it. -/
theorem Inside.before {e y : Bytes} (h : Inside e y) : Before e y := by
  obtain ⟨c, z, hc, rfl⟩ := h
  obtain ⟨k, hk⟩ := strip_append_slashes e
  rw [canonical_eq]
  cases k with
  | zero =>
      rw [List.replicate_zero, List.append_nil] at hk
      rw [← hk, List.append_assoc]
      exact before_append e (by simp)
  | succ k =>
      cases k with
      | zero =>
          have hk' : strip e ++ [47] = e := hk.symm
          rw [hk']
          exact before_append e (by simp)
      | succ k =>
          have h2 : e = (strip e ++ [47]) ++ 47 :: List.replicate k 47 := by
            rw [List.append_assoc]
            exact hk
          have := before_slash (strip e ++ [47]) hc (List.replicate k 47) z
          rw [← h2] at this
          exact this

/-- **A name after a scope and not in it comes after all of it.** -/
theorem before_of_scope {e r y : Bytes} (her : Before e r) (hr : ¬ canonical e <+: r)
    (hy : Scope e y) : Before y r := by
  obtain rfl | ⟨z, rfl⟩ := hy
  · exact her
  by_contra hle
  rw [not_before_iff, canonical_eq, List.append_assoc, List.map_append] at hle
  have hse : (strip e).map charKey ≤ r.map charKey := by
    rw [← not_before_iff]
    intro hre
    exact not_before_of_prefix (strip_isPrefix e) (her.trans hre)
  -- `r` goes on where the end of `e` was taken off
  obtain ⟨z', hz', hle'⟩ := lex_between _ _ _ hse hle
  obtain ⟨s, w, hrw, hs, hw⟩ := List.map_eq_append_iff.mp hz'
  have hs' : s = strip e := List.map_injective_iff.mpr (fun _ _ => charKey_inj) hs
  subst hs'
  cases w with
  | nil =>
      rw [List.append_nil] at hrw
      rw [hrw] at her
      exact not_before_of_prefix (strip_isPrefix e) her
  | cons c w =>
      by_cases hc : c = 47
      · apply hr
        rw [hrw, hc, canonical_eq]
        exact ⟨w, by simp⟩
      · rw [← hw, List.map_cons, List.singleton_append, List.map_cons, cons_le_cons_iff'] at hle'
        have := charKey_slash hc
        obtain h | ⟨h, -⟩ := hle'
        · exact absurd h (lt_asymm this)
        · exact absurd h (ne_of_gt this)

/-- Two scopes of names of one directory. -/
theorem before_of_scopes {d n n' y y' : Bytes} (hn : Plain n) (hn' : Plain n')
    (h : Before n n') (hy : Scope (d ++ n) y) (hy' : Scope (d ++ n') y') : Before y y' := by
  have hlt : Before (d ++ n) (d ++ n') := by
    rw [before_iff] at h ⊢
    rw [List.map_append, List.map_append]
    exact List.append_left_lt h
  have hnot : ¬ canonical (d ++ n) <+: d ++ n' := by
    rw [(hn.bare d).canonical_eq, List.append_assoc, List.prefix_append_right_inj]
    intro hp
    exact hn'.2 (hp.subset (by simp))
  have hy1 := before_of_scope hlt hnot hy
  obtain rfl | hp := hy'
  · exact hy1
  · rw [(hn'.bare d).canonical_eq] at hp
    obtain ⟨z, rfl⟩ := hp
    rw [List.append_assoc]
    exact hy1.trans (before_append _ (by simp))

/-- What is in the scope of a name in a directory is inside the directory. -/
theorem inside_of_scope {e n y : Bytes} (hn : Plain n) (hy : Scope (canonical e ++ n) y) :
    Inside e y := by
  obtain ⟨c, z, rfl, hc⟩ := hn.cons
  obtain rfl | hp := hy
  · exact ⟨c, z, hc, rfl⟩
  · rw [(hn.bare _).canonical_eq] at hp
    obtain ⟨w, rfl⟩ := hp
    exact ⟨c, z ++ ([47] ++ w), hc, by simp⟩

/-- **The scope of what is in a scope.** -/
theorem Scope.inside {a x y : Bytes} (ha : Bare a) (hx : Scope a x)
    (hy : y = x ∨ Inside x y) : Scope a y := by
  obtain rfl | hy := hy
  · exact hx
  obtain ⟨c, z, -, rfl⟩ := hy
  rw [Scope, ha.canonical_eq]
  obtain rfl | hx := hx
  · rw [ha.canonical_eq]
    exact Or.inr (List.prefix_append _ _)
  · rw [ha.canonical_eq] at hx
    exact Or.inr ((prefix_canonical ha hx).trans (List.prefix_append _ _))

/-- What `is_subdir` says yes to is in the scope. -/
theorem scope_of_isSubdir {e r : Bytes} (h : 0 < isSubdir (some e) (some r)) : Scope e r := by
  obtain rfl | hb := (isSubdir_pos_iff e r).1 h
  · exact Or.inl rfl
  right
  have hcanon : canonical e <+: e ++ [47] := by
    rw [canonical_eq]
    obtain ⟨k, hk⟩ := strip_append_slashes e
    refine ⟨List.replicate k 47, ?_⟩
    have hswap : [47] ++ List.replicate k (47 : UInt8) = List.replicate k 47 ++ [47] := by
      rw [← List.replicate_succ', List.singleton_append, ← List.replicate_succ]
    rw [List.append_assoc, hswap, ← List.append_assoc, ← hk]
  obtain hb | ⟨hlast, hp, hne⟩ := hb
  · exact hcanon.trans hb
  · -- the slash that is put back was at the end of `e`
    obtain ⟨k, hk⟩ := strip_append_slashes e
    cases k with
    | zero =>
        rw [List.replicate_zero, List.append_nil] at hk
        have hs : strip e ≠ [] := by
          rw [← hk]
          intro hnil
          simp [hnil] at hlast
        have hlast' := List.rdropWhile_last_not (fun c : UInt8 => decide (c = 47)) e hs
        refine absurd ?_ hlast'
        rw [List.getLast?_eq_getLast_of_ne_nil (by rw [hk]; exact hs)] at hlast
        rw [decide_eq_true_eq]
        refine Eq.trans ?_ (Option.some.inj hlast)
        congr 1
        exact hk.symm
    | succ k =>
        refine List.IsPrefix.trans ?_ hp
        rw [canonical_eq]
        refine ⟨List.replicate k 47, ?_⟩
        rw [List.append_assoc, List.singleton_append, ← List.replicate_succ]
        exact hk.symm

theorem isSubdir_of_scope {e r : Bytes} (he : Bare e) (h : Scope e r) :
    0 < isSubdir (some e) (some r) := by
  rw [isSubdir_pos_iff]
  obtain rfl | hp := h
  · exact Or.inl rfl
  · rw [he.canonical_eq] at hp
    exact Or.inr (Or.inl hp)

end Burp.Phase1
