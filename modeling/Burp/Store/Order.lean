/-
  Burp.Store.Order — the order of a manifest is a linear order.

  `pathcmp` compares two paths character by character, with the separator below every
  other character; `sbuf_pathcmp` goes on to the commands.  Metadata and trailing vss data
  of one path come out above each other, whichever is first: the order is one as long as no
  path has both.

  Main results:
    * `pathcmp_lt_iff`, `pathcmp_eq_iff` — `pathcmp` compares the keys of paths.
    * `sbufPathcmp_lt_iff`, `sbufPathcmp_eq_iff` — `sbuf_pathcmp` those of entries.
    * `sbufPathcmp_ordersWell_iff` — on which sets of entries `sbuf_pathcmp` is an order.
-/
import Burp.Order.Comparison
import Burp.Order.SortedMerge
import Burp.Store.Sbuf
import Mathlib.Data.List.Lex
import Mathlib.Data.Prod.Lex

namespace Burp.Store

open FileSystem SortedMerge Comparison

/-! ## §1. Paths. -/

/-- The place of a character. -/
def charKey (c : UInt8) : Int := if c = 47 then -129 else charVal c

theorem charVal_bounds (c : UInt8) : -128 ≤ charVal c ∧ charVal c ≤ 127 := by
  unfold charVal
  have := c.toNat_lt
  split
  next h =>
    have : c.toNat < 128 := UInt8.lt_iff_toNat_lt.mp h
    omega
  next h =>
    have : ¬ c.toNat < 128 := fun hlt => h (UInt8.lt_iff_toNat_lt.mpr hlt)
    omega

theorem charVal_inj {a b : UInt8} (h : charVal a = charVal b) : a = b := by
  apply UInt8.toNat_inj.mp
  have ha := a.toNat_lt
  have hb := b.toNat_lt
  unfold charVal at h
  simp only [UInt8.lt_iff_toNat_lt, UInt8.reduceToNat] at h
  split_ifs at h <;> omega

theorem charKey_inj {a b : UInt8} (h : charKey a = charKey b) : a = b := by
  have ha := charVal_bounds a
  have hb := charVal_bounds b
  unfold charKey at h
  split_ifs at h with h1 h2 h2
  · rw [h1, h2]
  · omega
  · omega
  · exact charVal_inj h

/-- The key of a path. -/
def pathKey : Option Bytes → List Int
  | none => []
  | some p => 0 :: p.map charKey

theorem pathcmpBytes_spec :
    ∀ a b : Bytes, (pathcmpBytes a b < 0 ↔ a.map charKey < b.map charKey)
      ∧ (pathcmpBytes a b = 0 ↔ a = b) := by
  intro a
  induction a with
  | nil =>
      intro b
      cases b with
      | nil => simp [pathcmpBytes]
      | cons y b => simp [pathcmpBytes]
  | cons x a ih =>
      intro b
      cases b with
      | nil => simp [pathcmpBytes]
      | cons y b =>
          have hx := charVal_bounds x
          have hy := charVal_bounds y
          simp only [List.map_cons, List.cons_lt_cons_iff, List.cons.injEq, pathcmpBytes]
          by_cases hxy : x = y
          · subst hxy
            simp only [if_true, lt_irrefl, true_and, false_or]
            exact ih b
          · have hkey : charKey x ≠ charKey y := fun h => hxy (charKey_inj h)
            simp only [hxy, hkey, if_false, false_and, or_false, iff_false]
            unfold charKey at hkey ⊢
            by_cases hx47 : x = 47
            · have hy47 : y ≠ 47 := fun h => hxy (hx47.trans h.symm)
              simp only [hx47, hy47, if_true, if_false]
              omega
            · by_cases hy47 : y = 47
              · simp only [hx47, hy47, if_true, if_false]
                omega
              · simp only [hx47, hy47, if_false] at hkey ⊢
                split_ifs with hlt
                · exact ⟨by simp [hlt], by simp⟩
                · exact ⟨by simp [hlt], by simp⟩

/-- **`pathcmp` compares keys.** -/
theorem pathcmp_lt_iff (a b : Option Bytes) : pathcmp a b < 0 ↔ pathKey a < pathKey b := by
  cases a with
  | none => cases b <;> simp [pathcmp, pathKey]
  | some a =>
      cases b with
      | none => simp [pathcmp, pathKey]
      | some b => simp [pathcmp, pathKey, (pathcmpBytes_spec a b).1]

theorem pathcmp_eq_iff (a b : Option Bytes) : pathcmp a b = 0 ↔ a = b := by
  cases a with
  | none => cases b <;> simp [pathcmp]
  | some a =>
      cases b with
      | none => simp [pathcmp]
      | some b => simp [pathcmp, (pathcmpBytes_spec a b).2]

theorem pathKey_inj {a b : Option Bytes} : pathKey a = pathKey b ↔ a = b := by
  have hinj : Function.Injective charKey := fun _ _ => charKey_inj
  cases a <;> cases b <;> simp [pathKey, (List.map_injective_iff.mpr hinj).eq_iff]

/-! ## §2. Entries. -/

/-- The place of a command among the entries of one path. -/
def Cmd.rank (cmd : Cmd) : Nat :=
  if cmd.isVss then 0 else if cmd.isMetadata then 2 else if cmd.isVssT then 3 else 1

/-- The key of an entry. -/
def Sbuf.key (sb : Sbuf) : List Int ×ₗ Nat := toLex (pathKey sb.path, sb.cmd.rank)

/-- Not the metadata and the trailing vss data of one path. -/
def Compatible (a b : Sbuf) : Prop :=
  a.path = b.path → ¬ (a.cmd.isMetadata ∧ b.cmd.isVssT) ∧ ¬ (a.cmd.isVssT ∧ b.cmd.isMetadata)

instance (a b : Sbuf) : Decidable (Compatible a b) :=
  inferInstanceAs (Decidable (a.path = b.path → ¬ (a.cmd.isMetadata ∧ b.cmd.isVssT)
    ∧ ¬ (a.cmd.isVssT ∧ b.cmd.isMetadata)))

/-- The classes of commands are disjoint. -/
theorem Cmd.classes (cmd : Cmd) :
    (cmd.isVss → cmd.isMetadata = false ∧ cmd.isVssT = false)
      ∧ (cmd.isMetadata → cmd.isVssT = false) := by
  cases cmd <;> simp [Cmd.isVss, Cmd.isMetadata, Cmd.isVssT]

/-- What `sbuf_pathcmp` makes of two commands. -/
theorem sbufPathcmp_same {a b : Sbuf} (hc : Compatible a b) (hp : a.path = b.path) :
    (sbufPathcmp a b < 0 ↔ a.cmd.rank < b.cmd.rank)
      ∧ (sbufPathcmp a b = 0 ↔ a.cmd.rank = b.cmd.rank) := by
  have hcmp : pathcmp a.path b.path = 0 := (pathcmp_eq_iff _ _).mpr hp
  have hab := hc hp
  have hac := a.cmd.classes
  have hbc := b.cmd.classes
  unfold sbufPathcmp Cmd.rank
  simp only [hcmp, ne_eq, not_true, if_false]
  cases ha1 : a.cmd.isMetadata <;> cases ha2 : a.cmd.isVss <;> cases ha3 : a.cmd.isVssT <;>
    cases hb1 : b.cmd.isMetadata <;> cases hb2 : b.cmd.isVss <;> cases hb3 : b.cmd.isVssT <;>
    simp_all

/-- **`sbuf_pathcmp` compares keys.** -/
theorem sbufPathcmp_spec {a b : Sbuf} (hc : Compatible a b) :
    (sbufPathcmp a b < 0 ↔ a.key < b.key) ∧ (sbufPathcmp a b = 0 ↔ a.key = b.key) := by
  unfold Sbuf.key
  rw [Prod.Lex.toLex_lt_toLex, toLex_inj, Prod.mk.injEq, pathKey_inj]
  by_cases hp : a.path = b.path
  · have hsame := sbufPathcmp_same hc hp
    simp only [hp, lt_irrefl, false_or, true_and]
    exact hsame
  · have hne : pathcmp a.path b.path ≠ 0 := fun h => hp ((pathcmp_eq_iff _ _).mp h)
    simp only [hp, false_and, or_false, iff_false, ← pathcmp_lt_iff]
    unfold sbufPathcmp
    simp only [hne, ne_eq, not_false_eq_true, if_true, iff_self, true_and]

/-- Two entries at the same place are of one path and one class. -/
theorem sbufPathcmp_zero {a b : Sbuf} (h : sbufPathcmp a b = 0) : a.path = b.path
    ∧ a.cmd.isMetadata = b.cmd.isMetadata ∧ a.cmd.isVss = b.cmd.isVss
    ∧ a.cmd.isVssT = b.cmd.isVssT := by
  have hac := a.cmd.classes
  have hbc := b.cmd.classes
  unfold sbufPathcmp at h
  by_cases hp : pathcmp a.path b.path = 0
  · refine ⟨(pathcmp_eq_iff _ _).mp hp, ?_⟩
    simp only [hp, ne_eq, not_true, if_false] at h
    cases ha1 : a.cmd.isMetadata <;> cases ha2 : a.cmd.isVss <;> cases ha3 : a.cmd.isVssT <;>
      cases hb1 : b.cmd.isMetadata <;> cases hb2 : b.cmd.isVss <;> cases hb3 : b.cmd.isVssT <;>
      simp_all
  · simp [hp] at h

/-- Entries at the same place compare alike with any other. -/
theorem sbufPathcmp_congr {a b : Sbuf} (h : sbufPathcmp a b = 0) (c : Sbuf) :
    sbufPathcmp a c = sbufPathcmp b c ∧ sbufPathcmp c a = sbufPathcmp c b := by
  obtain ⟨hpath, hmeta, hvss, hvssT⟩ := sbufPathcmp_zero h
  unfold sbufPathcmp
  rw [hpath, hmeta, hvss, hvssT]
  exact ⟨rfl, rfl⟩

/-- Of two entries one is not below the other and the other way round. -/
theorem sbufPathcmp_asymm {a b : Sbuf} (h : sbufPathcmp a b < 0) : 0 < sbufPathcmp b a := by
  by_cases hp : a.path = b.path
  · have hcmp : pathcmp a.path b.path = 0 := (pathcmp_eq_iff _ _).mpr hp
    have hcmp' : pathcmp b.path a.path = 0 := (pathcmp_eq_iff _ _).mpr hp.symm
    have hac := a.cmd.classes
    have hbc := b.cmd.classes
    unfold sbufPathcmp at h ⊢
    simp only [hcmp, hcmp', ne_eq, not_true, if_false] at h ⊢
    cases ha1 : a.cmd.isMetadata <;> cases ha2 : a.cmd.isVss <;> cases ha3 : a.cmd.isVssT <;>
      cases hb1 : b.cmd.isMetadata <;> cases hb2 : b.cmd.isVss <;> cases hb3 : b.cmd.isVssT <;>
      simp_all
  · have hne : pathcmp a.path b.path ≠ 0 := fun h => hp ((pathcmp_eq_iff _ _).mp h)
    have hne' : pathcmp b.path a.path ≠ 0 := fun h => hp ((pathcmp_eq_iff _ _).mp h).symm
    unfold sbufPathcmp at h ⊢
    simp only [hne, hne', ne_eq, not_false_eq_true, if_true] at h ⊢
    have hlt := (pathcmp_lt_iff _ _).mp h
    have hnlt : ¬ pathcmp b.path a.path < 0 := by
      rw [pathcmp_lt_iff]
      exact hlt.asymm
    omega

/-- Of two different entries of a list in order one is below the other. -/
theorem below_or_above {l : List Sbuf} (h : l.Pairwise fun a b => sbufPathcmp a b < 0) {a b : Sbuf}
    (ha : a ∈ l) (hb : b ∈ l) (hne : a ≠ b) : sbufPathcmp a b < 0 ∨ sbufPathcmp b a < 0 := by
  have hsymm : Std.Symm fun a b : Sbuf => sbufPathcmp a b < 0 ∨ sbufPathcmp b a < 0 :=
    ⟨fun _ _ => Or.symm⟩
  exact (h.imp (S := fun a b => sbufPathcmp a b < 0 ∨ sbufPathcmp b a < 0) Or.inl).forall ha hb hne

/-- Metadata and trailing vss data of one path are above each other. -/
theorem sbufPathcmp_metadata_vssT {a b : Sbuf} (hp : a.path = b.path)
    (ha : a.cmd.isMetadata = true) (hb : b.cmd.isVssT = true) :
    0 < sbufPathcmp a b ∧ 0 < sbufPathcmp b a := by
  have hcmp : pathcmp a.path b.path = 0 := (pathcmp_eq_iff _ _).mpr hp
  have hcmp' : pathcmp b.path a.path = 0 := (pathcmp_eq_iff _ _).mpr hp.symm
  have hac := a.cmd.classes.2 ha
  have hbc := b.cmd.classes
  unfold sbufPathcmp
  simp only [hcmp, hcmp', ne_eq, not_true, if_false]
  cases hb1 : b.cmd.isMetadata <;> cases hb2 : b.cmd.isVss <;> simp_all

/-- The place of a command, without a difference between metadata and trailing vss data. -/
def Cmd.tier (cmd : Cmd) : Nat :=
  if cmd.isVss then 0 else if cmd.isMetadata || cmd.isVssT then 2 else 1

/-- Any entry is below those, and only those, with a higher path or a later class. -/
theorem sbufPathcmp_neg_iff (a b : Sbuf) : sbufPathcmp a b < 0
    ↔ toLex (pathKey a.path, a.cmd.tier) < toLex (pathKey b.path, b.cmd.tier) := by
  rw [Prod.Lex.toLex_lt_toLex]
  by_cases hp : a.path = b.path
  · have hcmp : pathcmp a.path b.path = 0 := (pathcmp_eq_iff _ _).mpr hp
    have hac := a.cmd.classes
    have hbc := b.cmd.classes
    simp only [hp, lt_irrefl, false_or, true_and]
    unfold sbufPathcmp Cmd.tier
    simp only [hcmp, ne_eq, not_true, if_false]
    cases ha1 : a.cmd.isMetadata <;> cases ha2 : a.cmd.isVss <;> cases ha3 : a.cmd.isVssT <;>
      cases hb1 : b.cmd.isMetadata <;> cases hb2 : b.cmd.isVss <;> cases hb3 : b.cmd.isVssT <;>
      simp_all
  · have hne : pathcmp a.path b.path ≠ 0 := fun h => hp ((pathcmp_eq_iff _ _).mp h)
    have hkey : pathKey a.path ≠ pathKey b.path := fun h => hp (pathKey_inj.mp h)
    simp only [hkey, false_and, or_false, ← pathcmp_lt_iff]
    unfold sbufPathcmp
    simp only [hne, ne_eq, not_false_eq_true, if_true]

/-- Below is transitive, whatever the entries are. -/
theorem sbufPathcmp_trans {a b c : Sbuf} (hab : sbufPathcmp a b < 0) (hbc : sbufPathcmp b c < 0) :
    sbufPathcmp a c < 0 := by
  rw [sbufPathcmp_neg_iff] at hab hbc ⊢
  exact hab.trans hbc

/-- What comes after an entry that is not below another one is above that. -/
theorem sbufPathcmp_above {a b c : Sbuf} (hab : ¬ sbufPathcmp a b < 0)
    (hac : sbufPathcmp a c < 0) : 0 < sbufPathcmp c b := by
  apply sbufPathcmp_asymm
  rw [sbufPathcmp_neg_iff] at hab hac ⊢
  exact (not_lt.mp hab).trans_lt hac

/-- A list in order has not both the metadata and the trailing vss data of one path. -/
theorem compatible_of_pairwise {l : List Sbuf} (h : l.Pairwise fun a b => sbufPathcmp a b < 0) :
    ∀ a ∈ l, ∀ b ∈ l, Compatible a b := by
  intro a ha b hb hp
  by_cases hab : a = b
  · subst hab
    have hclass := a.cmd.classes.2
    exact ⟨fun h => by simp [hclass h.1] at h, fun h => by simp [hclass h.2] at h⟩
  · have hor := below_or_above h ha hb hab
    refine ⟨fun hc => ?_, fun hc => ?_⟩
    · obtain ⟨h1, h2⟩ := sbufPathcmp_metadata_vssT hp hc.1 hc.2
      omega
    · obtain ⟨h1, h2⟩ := sbufPathcmp_metadata_vssT hp.symm hc.2 hc.1
      omega

/-! ## §3. Sets of entries. -/

/-- On paths `pathcmp` is an order. -/
theorem pathcmp_ordersWell (S : Set (Option Bytes)) : OrdersWell pathcmp S :=
  OrdersWell.of_key pathKey fun a _ b _ =>
    ⟨pathcmp_lt_iff a b, (pathcmp_eq_iff a b).trans pathKey_inj.symm⟩

/-- **`sbuf_pathcmp` is an order** on the sets of entries that have no path with both metadata
and trailing vss data. -/
theorem sbufPathcmp_ordersWell_iff (S : Set Sbuf) :
    OrdersWell sbufPathcmp S ↔ ∀ a ∈ S, ∀ b ∈ S, Compatible a b := by
  constructor
  · intro h a ha b hb hp
    refine ⟨?_, ?_⟩
    · intro ⟨hmeta, hvssT⟩
      obtain ⟨hab, hba⟩ := sbufPathcmp_metadata_vssT hp hmeta hvssT
      have := (h.antisymm a ha b hb).1 hab
      omega
    · intro ⟨hvssT, hmeta⟩
      obtain ⟨hba, hab⟩ := sbufPathcmp_metadata_vssT hp.symm hmeta hvssT
      have := (h.antisymm a ha b hb).1 hab
      omega
  · intro h
    exact OrdersWell.of_key Sbuf.key fun a ha b hb => sbufPathcmp_spec (h a ha b hb)

/-- The metadata and the trailing vss data of the path "a". -/
def metadataAndVssT : Set Sbuf :=
  {sb | sb = { path := some [97], cmd := .metadata } ∨ sb = { path := some [97], cmd := .vssT }}

theorem metadataAndVssT_not_ordersWell : ¬ OrdersWell sbufPathcmp metadataAndVssT := by
  intro h
  have := (h.antisymm _ (Or.inl rfl) _ (Or.inr rfl)).1 (by decide)
  exact absurd this (by decide)

end Burp.Store
