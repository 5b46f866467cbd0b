/-
  Burp.Restore.Selected — what a restore file selects.

  A restore file on the server has include lines, a regex or both.  What is asked for is what
  the regex matches and, if there are include lines, what is at one of their paths or below it.
  `srestore_matches` compares a path with an include only as far as the include goes, so that
  "/home" stands for "/homework" as well; and `check_srestore` finds nothing in an empty list,
  so that a regex by itself selects nothing.

  Main results:
    * `selects_iff` — what is selected.
    * `restored_iff_selected` — when it is what is asked for, over a whole manifest.
-/
import Burp.Restore.Manifest

namespace Burp.Restore

open FileSystem Burp.Store Burp.Phase2

/-! ## §1. What is asked for. -/

/-- There is an include line. -/
def HasInclude (incexcdir : List (Bytes × Bool)) : Prop := ∃ e ∈ incexcdir, e.2 = true

/-- The path of an include line, or below it. -/
def Included (incexcdir : List (Bytes × Bool)) (path : Bytes) : Prop :=
  ∃ e ∈ incexcdir, e.2 = true ∧ (path = e.1 ∨ BelowBytes e.1 path)

/-- What a restore file asks for. -/
def AskedFor (incexcdir : List (Bytes × Bool)) (regex : Option (Bytes → Bool)) (sb : Sbuf) : Prop :=
  checkRegex regex (sb.path.getD []) = true
    ∧ (HasInclude incexcdir → Included incexcdir (sb.path.getD []))

instance (incexcdir : List (Bytes × Bool)) : Decidable (HasInclude incexcdir) :=
  inferInstanceAs (Decidable (∃ e ∈ incexcdir, e.2 = true))

instance (incexcdir : List (Bytes × Bool)) : DecidablePred (Included incexcdir) :=
  fun path => inferInstanceAs
    (Decidable (∃ e ∈ incexcdir, e.2 = true ∧ (path = e.1 ∨ BelowBytes e.1 path)))

instance (incexcdir : List (Bytes × Bool)) (regex : Option (Bytes → Bool)) :
    DecidablePred (AskedFor incexcdir regex) :=
  fun sb => inferInstanceAs (Decidable (checkRegex regex (sb.path.getD []) = true
    ∧ (HasInclude incexcdir → Included incexcdir (sb.path.getD []))))

/-! ## §2. What is selected. -/

variable {incexcdir : List (Bytes × Bool)} {path : Bytes}

theorem checkSrestore_iff :
    checkSrestore incexcdir path = true ↔ ∃ e ∈ incexcdir, e.2 = true ∧ e.1 <+: path := by
  simp only [checkSrestore, List.any_eq_true, srestoreMatches]
  refine exists_congr fun e => and_congr_right fun _ => ?_
  cases e.2 <;> simp

/-- What is included is found. -/
theorem checkSrestore_of_included (h : Included incexcdir path) :
    checkSrestore incexcdir path = true := by
  obtain ⟨e, he, hinc, hpath⟩ := h
  refine checkSrestore_iff.mpr ⟨e, he, hinc, ?_⟩
  -- what is at or below a path begins with it
  rcases hpath with rfl | hbelow | ⟨-, hbelow, -⟩
  · exact List.prefix_refl _
  · exact (List.prefix_append _ _).trans hbelow
  · exact hbelow

theorem selects_iff {regex : Option (Bytes → Bool)} {sb : Sbuf} :
    Selection.selects ⟨true, incexcdir, regex⟩ sb = true
      ↔ (∃ e ∈ incexcdir, e.2 = true ∧ e.1 <+: sb.path.getD [])
        ∧ checkRegex regex (sb.path.getD []) = true := by
  simp [Selection.selects, checkSrestore_iff]

/-- Two selections give the same only if they agree on what there is to select. -/
theorem filter_perm_filter_iff {α : Type} {p q : α → Bool} {l : List α} :
    (l.filter p).Perm (l.filter q) ↔ ∀ a ∈ l, p a = q a := by
  constructor
  · intro h a ha
    have hmem := h.mem_iff (a := a)
    simp only [List.mem_filter, ha, true_and] at hmem
    exact Bool.eq_iff_iff.mpr hmem
  · intro h
    rw [List.filter_congr h]

/-- **A restore that the server has started** restores what its file asks for, each entry once,
exactly if nothing that the regex matches is mistaken: there has to be an include line, and what
begins with the path of one has to be at or below the path of one. -/
theorem restored_iff_selected (ok : Sbuf → Bool) (ends : Bool)
    (arrivals : List (List (Store.Cmd × Bytes))) (manifest : List Sbuf)
    (last : List (Store.Cmd × Bytes)) (incexcdir : List (Bytes × Bool))
    (regex : Option (Bytes → Bool))
    (hret : (restoreManifest ok ⟨true, incexcdir, regex⟩ ends arrivals manifest last).1 = true) :
    (restoreManifest ok ⟨true, incexcdir, regex⟩ ends arrivals manifest last).2.Perm
        (manifest.filter fun sb => decide (AskedFor incexcdir regex sb))
      ↔ ∀ sb ∈ manifest, checkRegex regex (sb.path.getD []) = true →
        HasInclude incexcdir
          ∧ ((∃ e ∈ incexcdir, e.2 = true ∧ e.1 <+: sb.path.getD []) →
            Included incexcdir (sb.path.getD [])) := by
  have hok : (restoreLoop ok ⟨true, incexcdir, regex⟩ ends arrivals manifest []).ok = true :=
    (Bool.and_eq_true _ _ ▸ hret).1
  have hperm := restoreLoop_perm manifest arrivals [] hok
  rw [List.nil_append] at hperm
  have hiff : (restoreManifest ok ⟨true, incexcdir, regex⟩ ends arrivals manifest last).2.Perm
      (manifest.filter fun sb => decide (AskedFor incexcdir regex sb))
        ↔ (manifest.filter (Selection.selects ⟨true, incexcdir, regex⟩)).Perm
          (manifest.filter fun sb => decide (AskedFor incexcdir regex sb)) :=
    ⟨hperm.symm.trans, hperm.trans⟩
  rw [hiff, filter_perm_filter_iff]
  -- entry by entry: selected, or asked for
  refine forall₂_congr fun sb _ => ?_
  rw [Bool.eq_iff_iff, selects_iff, decide_eq_true_eq, AskedFor, ← checkSrestore_iff]
  have hfound : Included incexcdir (sb.path.getD []) → HasInclude incexcdir := by
    rintro ⟨e, he, hinc, -⟩
    exact ⟨e, he, hinc⟩
  have hsrestore : Included incexcdir (sb.path.getD [])
      → checkSrestore incexcdir (sb.path.getD []) = true := checkSrestore_of_included
  have hsome : checkSrestore incexcdir (sb.path.getD []) = true → HasInclude incexcdir := by
    intro h
    obtain ⟨e, he, hinc, -⟩ := checkSrestore_iff.mp h
    exact ⟨e, he, hinc⟩
  tauto

/-- A directory, something in it and one with a longer name. -/
def homes : List Sbuf :=
  [{ cmd := .directory, path := some (nameBytes "/home"), statp := { mode := 0o40755 } },
   { cmd := .file, path := some (nameBytes "/home/a"), statp := { mode := 0o100644 } },
   { cmd := .file, path := some (nameBytes "/homework"), statp := { mode := 0o100644 } }]

theorem homeA_restored :
    (restoreManifest (fun _ => true) ⟨true, [(nameBytes "/home/a", true)], none⟩ true [] homes
        [(.gen, nameBytes "restoreend ok")]).2.Perm
      (homes.filter fun sb => decide (AskedFor [(nameBytes "/home/a", true)] none sb)) :=
  (restored_iff_selected (fun _ => true) true [] homes [(.gen, nameBytes "restoreend ok")]
    [(nameBytes "/home/a", true)] none (by decide)).mpr (by decide)

/-- With the include "/home" the file "/homework" is restored, too, and with a regex that
matches everything and no include nothing is. -/
theorem homework_restored :
    ¬ (restoreManifest (fun _ => true) ⟨true, [(nameBytes "/home", true)], none⟩ true [] homes
          [(.gen, nameBytes "restoreend ok")]).2.Perm
        (homes.filter fun sb => decide (AskedFor [(nameBytes "/home", true)] none sb))
      ∧ ¬ (restoreManifest (fun _ => true) ⟨true, [], some fun _ => true⟩ true [] homes
            [(.gen, nameBytes "restoreend ok")]).2.Perm
          (homes.filter fun sb => decide (AskedFor [] (some fun _ => true) sb)) := by
  constructor
  · intro h
    have hlen := h.length_eq
    revert hlen
    decide
  · intro h
    have hlen := h.length_eq
    revert hlen
    decide

end Burp.Restore
