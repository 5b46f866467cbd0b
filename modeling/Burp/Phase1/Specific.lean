/-
  Burp.Phase1.Specific — the most specific include or exclude.

  `file_is_included_no_incext` goes by the number that `is_subdir` gives for each entry of the
  list: the slashes of the entry and two more.  Only the root has its own slash at its end, and
  gets one less for what is below it.

  Main results:
    * `isSubdir_lt_of_length` — the longer of two entries above a path has the greater number.
    * `fileIsIncludedNoIncext_longest` — the longest entry decides.
-/
import Burp.Phase1.Find

namespace Burp.Phase1

open FileSystem Burp.Store

/-! ## §1. Entries. -/

/-- An absolute path without a slash at its end, or the root. -/
def ProperPath (path : Bytes) : Prop :=
  path = [47] ∨ path.head? = some 47 ∧ path.getLast? ≠ some 47

/-- The path itself or one of the directories that it is in. -/
def Above (entry path : Bytes) : Prop := path = entry ∨ BelowBytes entry path

theorem Above.isPrefix {entry path : Bytes} (h : Above entry path) : entry <+: path := by
  rcases h with rfl | h | ⟨-, h, -⟩
  · exact List.prefix_refl _
  · exact (List.prefix_append _ _).trans h
  · exact h

/-! ## §2. The number of an entry. -/

/-- `is_subdir` for a path that begins with the entry. -/
theorem isSubdirLoop_append (entry rest : Bytes) (count : Nat) (last : Option UInt8) :
    isSubdirLoop count last entry (entry ++ rest)
      = if rest.head? = none ∨ rest.head? = some 47 then count + entry.count 47 + 1
        else if entry.getLast?.or last = some 47 then count + entry.count 47
        else 0 := by
  induction entry generalizing count last with
  | nil => cases rest <;> simp [isSubdirLoop]
  | cons c entry ih =>
      have hlast : (c :: entry).getLast?.or last = entry.getLast?.or (some c) := by
        cases entry with
        | nil => rfl
        | cons c' entry => simp [List.getLast?_cons]
      rw [List.cons_append, isSubdirLoop, if_pos rfl, ih, hlast]
      by_cases hc : c = 47
      · subst hc
        simp only [if_true, List.count_cons_self, Nat.add_assoc, Nat.add_comm 1]
      · rw [if_neg hc, List.count_cons_of_ne hc]

theorem isSubdir_append (entry rest : Bytes) :
    isSubdir (some entry) (some (entry ++ rest))
      = if rest.head? = none ∨ rest.head? = some 47 then entry.count 47 + 2
        else if entry.getLast? = some 47 then entry.count 47 + 1
        else 0 := by
  rw [isSubdir, isSubdirLoop_append, Option.or_none]
  split_ifs <;> omega

variable {entry entry' path : Bytes}

/-- The slashes of the entry and two more. -/
theorem isSubdir_of_above (h : Above entry path) (hlast : entry.getLast? ≠ some 47) :
    isSubdir (some entry) (some path) = entry.count 47 + 2 := by
  rcases h with rfl | ⟨rest, rfl⟩ | ⟨hlast', -, -⟩
  · have hself := isSubdir_append path []
    simpa using hself
  · rw [List.append_assoc, isSubdir_append]
    simp
  · exact absurd hlast' hlast

/-- The root has a smaller number than what is below it. -/
theorem isSubdir_root_lt {c : UInt8} {t : Bytes} (h : 47 :: c :: t <+: path) :
    isSubdir (some [47]) (some path) < (47 :: c :: t).count 47 + 2 := by
  obtain ⟨rest, rfl⟩ := h
  have hsplit : 47 :: c :: t ++ rest = [47] ++ (c :: (t ++ rest)) := rfl
  rw [hsplit, isSubdir_append]
  have hone : List.count (47 : UInt8) [47] = 1 := rfl
  rw [hone, List.count_cons_self]
  split_ifs with hnext hroot
  · -- a second slash, which is the entry's as well
    have hc : c = 47 := by simpa using hnext
    rw [hc, List.count_cons_self]
    omega
  · omega
  · omega

/-- **The longer of two entries above a path has the greater number.** -/
theorem isSubdir_lt_of_length (hproper : ProperPath entry) (hproper' : ProperPath entry')
    (h : Above entry path) (h' : Above entry' path) (hlen : entry.length < entry'.length) :
    isSubdir (some entry) (some path) < isSubdir (some entry') (some path) := by
  have hlast' : entry'.getLast? ≠ some 47 := by
    rcases hproper' with rfl | h47
    · -- nothing is shorter than the root
      rcases hproper with rfl | ⟨hhead, -⟩
      · simp at hlen
      · cases entry with
        | nil => simp at hhead
        | cons c entry => simp at hlen
    · exact h47.2
  have hprefix : entry <+: entry' :=
    List.prefix_of_prefix_length_le h.isPrefix h'.isPrefix hlen.le
  rw [isSubdir_of_above h' hlast']
  rcases hproper with rfl | ⟨-, hlast⟩
  · obtain ⟨c, t, rfl⟩ : ∃ c t, entry' = 47 :: c :: t := by
      obtain ⟨t, rfl⟩ := hprefix
      cases t with
      | nil => simp at hlen
      | cons c t => exact ⟨c, t, rfl⟩
    exact isSubdir_root_lt h'.isPrefix
  · rw [isSubdir_of_above h hlast]
    have hbelow : entry ++ [47] <+: path := by
      rcases h with rfl | h | ⟨h47, -, -⟩
      · exact absurd h'.isPrefix.length_le (by omega)
      · exact h
      · exact absurd h47 hlast
    have hslash : entry ++ [47] <+: entry' :=
      List.prefix_of_prefix_length_le hbelow h'.isPrefix (by simpa using hlen)
    have hcount := hslash.sublist.count_le 47
    rw [List.count_append, List.count_singleton_self] at hcount
    omega

/-! ## §3. The loop. -/

/-- The loop ends with an entry of which the number is the greatest, or with what it has begun
with. -/
theorem bestMatch_cases (fname : Bytes) (list : List (Bytes × Bool)) (longest : Nat)
    (flag : Bool) :
    (∃ e ∈ list, longest < isSubdir (some e.1) (some fname)
        ∧ bestMatch fname list longest flag = e.2
        ∧ ∀ e' ∈ list, isSubdir (some e'.1) (some fname) ≤ isSubdir (some e.1) (some fname))
      ∨ (∀ e ∈ list, isSubdir (some e.1) (some fname) ≤ longest)
        ∧ bestMatch fname list longest flag = flag := by
  induction list generalizing longest flag with
  | nil => exact Or.inr ⟨by simp, rfl⟩
  | cons e list ih =>
      unfold bestMatch
      split_ifs with hbetter
      · rcases ih (isSubdir (some e.1) (some fname)) e.2 with
          ⟨best, hmem, hlt, heq, hmax⟩ | ⟨hle, heq⟩
        · refine Or.inl ⟨best, List.mem_cons_of_mem _ hmem, hbetter.trans hlt, heq, ?_⟩
          exact List.forall_mem_cons.mpr ⟨hlt.le, hmax⟩
        · refine Or.inl ⟨e, List.mem_cons_self, hbetter, heq, ?_⟩
          exact List.forall_mem_cons.mpr ⟨le_refl _, hle⟩
      · rcases ih longest flag with ⟨best, hmem, hlt, heq, hmax⟩ | ⟨hle, heq⟩
        · refine Or.inl ⟨best, List.mem_cons_of_mem _ hmem, hlt, heq, ?_⟩
          exact List.forall_mem_cons.mpr ⟨(Nat.not_lt.mp hbetter).trans hlt.le, hmax⟩
        · exact Or.inr ⟨List.forall_mem_cons.mpr ⟨Nat.not_lt.mp hbetter, hle⟩, heq⟩

/-- **The most specific entry decides**: where nothing is excluded by its extension or by a
regular expression, the result is the flag of the longest entry that is the path or above it,
and 0 without one. -/
theorem fileIsIncludedNoIncext_longest (conf : Conf) (fname : Bytes) (hext : conf.excext = [])
    (hreg : ∀ path, conf.excreg path = false)
    (hproper : ∀ e ∈ conf.incexcdir, ProperPath e.1)
    (hdistinct : (conf.incexcdir.map Prod.fst).Nodup) :
    (∀ e ∈ conf.incexcdir, Above e.1 fname →
        (∀ e' ∈ conf.incexcdir, Above e'.1 fname → e'.1.length ≤ e.1.length) →
        fileIsIncludedNoIncext conf fname = e.2)
      ∧ ((∀ e ∈ conf.incexcdir, ¬ Above e.1 fname) →
        fileIsIncludedNoIncext conf fname = false) := by
  have hloop : fileIsIncludedNoIncext conf fname = bestMatch fname conf.incexcdir 0 false := by
    simp [fileIsIncludedNoIncext, inExcludeExt, hext, hreg]
  rw [hloop]
  rcases bestMatch_cases fname conf.incexcdir 0 false with
    ⟨best, hbest, hpos, heq, hmax⟩ | ⟨hnone, heq⟩
  · have habove : Above best.1 fname := (isSubdir_pos_iff _ _).mp hpos
    constructor
    · intro e he h hlongest
      -- the two are as long as each other, so that they are the same
      have hle : best.1.length ≤ e.1.length := hlongest best hbest habove
      have hge : e.1.length ≤ best.1.length := by
        by_contra hlt
        have hnum := isSubdir_lt_of_length (hproper best hbest) (hproper e he) habove h
          (Nat.not_le.mp hlt)
        exact absurd (hmax e he) (Nat.not_le.mpr hnum)
      have hpath : best.1 = e.1 :=
        (List.prefix_of_prefix_length_le habove.isPrefix h.isPrefix hle).eq_of_length
          (le_antisymm hle hge)
      rw [heq, List.inj_on_of_nodup_map hdistinct hbest he hpath]
    · intro hnot
      exact absurd habove (hnot best hbest)
  · constructor
    · intro e he h _
      have hpos : 0 < isSubdir (some e.1) (some fname) := (isSubdir_pos_iff _ _).mpr h
      exact absurd (hnone e he) (Nat.not_le.mpr hpos)
    · exact fun _ => heq

/-- The root is included, a directory excluded and a file in it included again. -/
theorem nested_included :
    fileIsIncludedNoIncext
      { incexcdir := [([47], true), ([47, 97], false), ([47, 97, 47, 98], true)] }
      [47, 97, 47, 98, 47, 99] = true :=
  (fileIsIncludedNoIncext_longest
    { incexcdir := [([47], true), ([47, 97], false), ([47, 97, 47, 98], true)] }
    [47, 97, 47, 98, 47, 99] rfl (fun _ => rfl)
    (by simp [ProperPath]) (by decide)).1 ([47, 97, 47, 98], true) (by simp)
      (by simp [Above, BelowBytes, List.cons_prefix_cons])
      (by simp [Above, BelowBytes, List.cons_prefix_cons])

end Burp.Phase1
