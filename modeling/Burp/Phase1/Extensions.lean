/-
  Burp.Phase1.Extensions — the extension of a name.

  The lists of extensions stand for names that end in a dot and one of them, in upper or lower
  case.  The three functions that look at such a list go back from the end of the name, not
  further than the longest extension goes, and stop at the first dot that they come to.  What
  is behind that has no dot in it, so that an extension like "tar.gz" is never found.

  Main results:
    * `extIn_eq_loop`, `inExcludeComp_eq_loop` — the loops of the source.
    * `extIn_iff` — what is found: the extensions without a dot that the name ends in.
    * `extensions_mean_iff` — the lists mean what they stand for, but for that.
-/
import Burp.Phase1.Find
import Burp.Phase2.Dpth

namespace Burp.Phase1

open FileSystem Burp.Store Burp.Phase2
open Shuffle (toLower)

/-! ## §1. The loops. -/

/-- The loop of `in_include_ext`, `in_exclude_ext` and `in_exclude_comp`.  After `i` turns `cp`
is at the first character of `before`, which is the name read backwards from there, and `ext`
comes behind it; the result is that of the inner loop if there is a dot. -/
def extLoop (list : List Bytes) (flag : Nat) : Nat → Bytes → Bytes → Option Bool
  | _, [], _ => none
  | i, c :: before, ext =>
      if i < flag then
        if c = 46 then some (list.any fun e => e.map toLower == ext.map toLower)
        else extLoop list flag (i + 1) before (c :: ext)
      else none

theorem extLoop_eq (list : List Bytes) (flag i : Nat) (before ext : Bytes) :
    extLoop list flag i before ext
      = if 46 ∈ before.take (flag - i) then
          some (list.any fun e => e.map toLower
            == (((before.take (flag - i)).takeWhile (· ≠ 46)).reverse ++ ext).map toLower)
        else none := by
  induction before generalizing i ext with
  | nil => simp [extLoop]
  | cons c before ih =>
      unfold extLoop
      by_cases hi : i < flag
      · obtain ⟨k, hk⟩ : ∃ k, flag - i = k + 1 := ⟨flag - i - 1, by omega⟩
        have hk' : flag - (i + 1) = k := by omega
        rw [if_pos hi, hk, List.take_succ_cons]
        by_cases hc : c = 46
        · simp [hc]
        · have hmem : 46 ∈ c :: before.take k ↔ 46 ∈ before.take k := by
            simp [Ne.symm hc]
          rw [if_neg hc, ih, hk', List.takeWhile_cons_of_pos (by simpa using hc)]
          simp only [hmem, List.reverse_cons, List.append_assoc, List.singleton_append]
      · have hzero : flag - i = 0 := by omega
        simp [hi, hzero]

theorem extIn_eq_loop (list : List Bytes) (fname : Bytes) :
    extIn list fname = extLoop list (maxExt list) 0 fname.reverse [] := by
  rw [extLoop_eq, extIn]
  simp only [Nat.sub_zero, List.append_nil, List.contains_iff_mem]

theorem inExcludeComp_eq_loop (flag : Nat) (excom : List Bytes) (fname : Bytes)
    (compression : Int) :
    Shuffle.inExcludeComp flag excom fname compression
      = if compression = 0 ∨ excom = [] then compression
        else if extLoop excom flag 0 fname.reverse [] = some true then 0 else compression := by
  rw [extLoop_eq, Shuffle.inExcludeComp]
  simp only [Nat.sub_zero, List.append_nil]
  by_cases hdot : 46 ∈ fname.reverse.take flag
  · simp only [hdot, if_true, Option.some.injEq]
  · simp only [hdot, if_false, reduceCtorEq]

/-! ## §2. What they stand for. -/

/-- The name of the file: what comes after the last slash. -/
def baseName (path : Bytes) : Bytes := (path.reverse.takeWhile (· ≠ 47)).reverse

/-- The name ends in a dot and this extension, in upper or lower case. -/
def EndsIn (path ext : Bytes) : Prop := (46 :: ext).map toLower <:+ (baseName path).map toLower

/-- What is below the letters is compared as it is. -/
theorem toLower_eq_iff {c d : UInt8} (hd : d < 65) : toLower c = d ↔ c = d := by
  unfold toLower
  split
  next h =>
    have hd' := UInt8.lt_iff_toNat_lt.mp hd
    have h1 := UInt8.le_iff_toNat_le.mp h.1
    have h2 := UInt8.le_iff_toNat_le.mp h.2
    simp only [UInt8.reduceToNat] at hd' h1 h2
    constructor
    · rintro rfl
      rw [UInt8.toNat_add] at hd'
      simp only [UInt8.reduceToNat] at hd'
      omega
    · rintro rfl
      omega
  next => exact Iff.rfl

theorem mem_map_toLower_iff {d : UInt8} (hd : d < 65) {b : Bytes} :
    d ∈ b.map toLower ↔ d ∈ b := by
  rw [List.mem_map]
  constructor
  · rintro ⟨c, hc, heq⟩
    exact (toLower_eq_iff hd).mp heq ▸ hc
  · intro h
    exact ⟨d, h, (toLower_eq_iff hd).mpr rfl⟩

theorem baseName_map (path : Bytes) :
    baseName (path.map toLower) = (baseName path).map toLower := by
  have hslash : ((fun c : UInt8 => decide (c ≠ 47)) ∘ toLower) = fun c => decide (c ≠ 47) := by
    funext c
    simp [toLower_eq_iff]
  rw [baseName, baseName, ← List.map_reverse, List.takeWhile_map, hslash, List.map_reverse]

/-- A text without a slash is at the end of a path if it is at the end of the name. -/
theorem suffix_baseName_iff {path text : Bytes} (htext : 47 ∉ text) :
    text <:+ baseName path ↔ text <:+ path := by
  rw [baseName, ← List.reverse_prefix, List.reverse_reverse, ← List.reverse_prefix]
  constructor
  · exact fun h => h.trans (List.takeWhile_prefix _)
  · rintro ⟨t, ht⟩
    rw [← ht, List.takeWhile_append_of_pos]
    · exact List.prefix_append _ _
    · intro c hc
      simp only [decide_eq_true_eq]
      rintro rfl
      exact htext (List.mem_reverse.mp hc)

theorem endsIn_iff {path ext : Bytes} (hext : 47 ∉ ext) :
    EndsIn path ext ↔ (46 :: ext).map toLower <:+ path.map toLower := by
  rw [EndsIn, ← baseName_map]
  apply suffix_baseName_iff
  rw [mem_map_toLower_iff (by decide)]
  simp [hext]

/-! ## §3. What is found. -/

theorem length_le_maxExt {list : List Bytes} {e : Bytes} (he : e ∈ list) :
    e.length < maxExt list := by
  have hfold : ∀ (l : List Nat) (m : Nat), m ≤ l.foldl max m ∧ ∀ n ∈ l, n ≤ l.foldl max m := by
    intro l
    induction l with
    | nil => simp
    | cons n l ih =>
        intro m
        obtain ⟨hm, hn⟩ := ih (max m n)
        refine ⟨(le_max_left m n).trans hm, ?_⟩
        exact List.forall_mem_cons.mpr ⟨(le_max_right m n).trans hm, hn⟩
  exact Nat.lt_succ_of_le ((hfold _ 0).2 _ (List.mem_map_of_mem he))

/-- The last characters, up to the dot that is found. -/
theorem exists_dot {tail : Bytes} (h : 46 ∈ tail) :
    ∃ rest, tail = tail.takeWhile (· ≠ 46) ++ 46 :: rest := by
  induction tail with
  | nil => simp at h
  | cons c tail ih =>
      by_cases hc : c = 46
      · exact ⟨tail, by simp [hc]⟩
      · obtain ⟨rest, hrest⟩ := ih (by simpa [Ne.symm hc] using h)
        refine ⟨rest, ?_⟩
        rw [List.takeWhile_cons_of_pos (by simpa using hc), List.cons_append, ← hrest]

theorem endsIn_of_extIn {list : List Bytes} {fname : Bytes} (h : extIn list fname = some true) :
    ∃ e ∈ list, 46 ∉ e ∧ (46 :: e).map toLower <:+ fname.map toLower := by
  rw [extIn] at h
  simp only [List.contains_iff_mem] at h
  split_ifs at h with hdot
  simp only [Option.some.injEq, List.any_eq_true, beq_iff_eq] at h
  obtain ⟨e, he, heq⟩ := h
  -- the loop ends at the last dot, and compares what is behind it
  obtain ⟨rest, hrest⟩ := exists_dot hdot
  have hnodot : 46 ∉ (fname.reverse.take (maxExt list)).takeWhile (· ≠ 46) := by
    intro hmem
    simpa using List.mem_takeWhile_imp hmem
  generalize (fname.reverse.take (maxExt list)).takeWhile (· ≠ 46) = ext at heq hrest hnodot
  refine ⟨e, he, ?_, ?_⟩
  · rw [← mem_map_toLower_iff (by decide), heq, mem_map_toLower_iff (by decide)]
    simpa using hnodot
  · have hname : fname.reverse = ext ++ 46 :: (rest ++ fname.reverse.drop (maxExt list)) := by
      conv_lhs => rw [← List.take_append_drop (maxExt list) fname.reverse, hrest]
      simp
    have hfname := congrArg List.reverse hname
    rw [List.reverse_reverse, List.reverse_append, List.reverse_cons, List.append_assoc,
      List.singleton_append] at hfname
    rw [hfname, List.map_append, List.map_cons, List.map_cons, heq]
    exact List.suffix_append _ _

theorem extIn_of_endsIn {list : List Bytes} {fname e : Bytes} (he : e ∈ list) (hdot : 46 ∉ e)
    (h : (46 :: e).map toLower <:+ fname.map toLower) : extIn list fname = some true := by
  -- the end of the name: a dot and the extension in other letters
  obtain ⟨p, hp⟩ := h
  obtain ⟨front, back, rfl, -, hback⟩ := List.map_eq_append_iff.mp hp.symm
  obtain ⟨c, ext, rfl, hc, hext⟩ := List.map_eq_cons_iff.mp hback
  have hdot' : c = 46 := (toLower_eq_iff (by decide)).mp hc
  subst hdot'
  have hnodot : 46 ∉ ext := by
    rwa [← mem_map_toLower_iff (by decide), hext, mem_map_toLower_iff (by decide)]
  have hlen : ext.length = e.length := by
    simpa using congrArg List.length hext
  obtain ⟨j, hj⟩ : ∃ j, maxExt list = ext.reverse.length + (j + 1) := by
    have := length_le_maxExt he
    exact ⟨maxExt list - (ext.length + 1), by rw [List.length_reverse]; omega⟩
  have htake : (front ++ 46 :: ext).reverse.take (maxExt list)
      = ext.reverse ++ 46 :: front.reverse.take j := by
    rw [List.reverse_append, List.reverse_cons, List.append_assoc, List.singleton_append, hj,
      List.take_length_add_append, List.take_succ_cons]
  have hwhile : (ext.reverse ++ 46 :: front.reverse.take j).takeWhile (· ≠ 46)
      = ext.reverse := by
    rw [List.takeWhile_append_of_pos, List.takeWhile_cons_of_neg (by simp), List.append_nil]
    intro c hc
    simp only [decide_eq_true_eq]
    rintro rfl
    exact hnodot (List.mem_reverse.mp hc)
  rw [extIn]
  simp only [List.contains_iff_mem]
  rw [htake, if_pos (by simp), hwhile, List.reverse_reverse, Option.some.injEq,
    List.any_eq_true]
  exact ⟨e, he, by rw [beq_iff_eq, hext]⟩

/-- **What is found** is an extension without a dot that the name ends in. -/
theorem extIn_iff {list : List Bytes} (hlist : ∀ e ∈ list, 47 ∉ e) (fname : Bytes) :
    extIn list fname = some true ↔ ∃ e ∈ list, 46 ∉ e ∧ EndsIn fname e := by
  have hends : (∃ e ∈ list, 46 ∉ e ∧ EndsIn fname e)
      ↔ ∃ e ∈ list, 46 ∉ e ∧ (46 :: e).map toLower <:+ fname.map toLower :=
    exists_congr fun e => and_congr_right fun he => and_congr_right fun _ =>
      endsIn_iff (hlist e he)
  rw [hends]
  constructor
  · exact endsIn_of_extIn
  · rintro ⟨e, he, hdot, h⟩
    exact extIn_of_endsIn he hdot h

/-! ## §4. The filters. -/

/-- The name ends in a dot and an extension of the list. -/
def Matches (list : List Bytes) (fname : Bytes) : Prop := ∃ e ∈ list, EndsIn fname e

instance (path ext : Bytes) : Decidable (EndsIn path ext) :=
  inferInstanceAs (Decidable ((46 :: ext).map toLower <:+ (baseName path).map toLower))

instance (list : List Bytes) (fname : Bytes) : Decidable (Matches list fname) :=
  inferInstanceAs (Decidable (∃ e ∈ list, EndsIn fname e))

theorem inIncludeExt_iff {list : List Bytes} (hne : list ≠ []) (fname : Bytes) :
    inIncludeExt list fname = true ↔ extIn list fname = some true := by
  rw [inIncludeExt, if_neg hne]
  cases extIn list fname <;> simp

theorem inExcludeExt_iff {list : List Bytes} (hne : list ≠ []) (fname : Bytes) :
    inExcludeExt list fname = true ↔ extIn list fname = some true := by
  rw [inExcludeExt, if_neg hne]
  cases extIn list fname <;> simp

theorem inExcludeComp_eq {list : List Bytes} (hne : list ≠ []) (fname : Bytes)
    (compression : Int) :
    Shuffle.inExcludeComp (maxExt list) list fname compression
      = if extIn list fname = some true then 0 else compression := by
  rw [inExcludeComp_eq_loop, ← extIn_eq_loop]
  by_cases hzero : compression = 0
  · simp [hzero]
  · simp [hzero, hne]

/-- **The lists mean what they stand for**, for a name, exactly if no extension with a dot in
it is at the end of the name, or one without a dot is there as well. -/
theorem extensions_mean_iff (list : List Bytes) (hne : list ≠ []) (hslash : ∀ e ∈ list, 47 ∉ e)
    (fname : Bytes) :
    ((inIncludeExt list fname = true ↔ Matches list fname)
        ∧ (inExcludeExt list fname = true ↔ Matches list fname)
        ∧ ∀ compression, Shuffle.inExcludeComp (maxExt list) list fname compression
          = if Matches list fname then 0 else compression)
      ↔ ((∃ e ∈ list, 46 ∈ e ∧ EndsIn fname e) → ∃ e ∈ list, 46 ∉ e ∧ EndsIn fname e) := by
  have hfound := extIn_iff hslash fname
  have hmatches : Matches list fname
      ↔ (∃ e ∈ list, 46 ∈ e ∧ EndsIn fname e) ∨ ∃ e ∈ list, 46 ∉ e ∧ EndsIn fname e := by
    constructor
    · rintro ⟨e, he, hends⟩
      by_cases hdot : 46 ∈ e
      · exact Or.inl ⟨e, he, hdot, hends⟩
      · exact Or.inr ⟨e, he, hdot, hends⟩
    · rintro (⟨e, he, -, hends⟩ | ⟨e, he, -, hends⟩)
      · exact ⟨e, he, hends⟩
      · exact ⟨e, he, hends⟩
  rw [inIncludeExt_iff hne, inExcludeExt_iff hne]
  simp only [inExcludeComp_eq hne]
  constructor
  · rintro ⟨hinclude, -⟩ hdotted
    exact hfound.mp (hinclude.mpr (hmatches.mpr (Or.inl hdotted)))
  · intro h
    have hiff : extIn list fname = some true ↔ Matches list fname := by
      rw [hfound, hmatches]
      exact ⟨Or.inr, fun h' => h'.elim h id⟩
    refine ⟨hiff, hiff, fun compression => ?_⟩
    simp only [hiff]

theorem gz_means :
    (inIncludeExt [nameBytes "gz"] (nameBytes "/a.tar.GZ") = true
        ↔ Matches [nameBytes "gz"] (nameBytes "/a.tar.GZ"))
      ∧ (inExcludeExt [nameBytes "gz"] (nameBytes "/a.tar.GZ") = true
        ↔ Matches [nameBytes "gz"] (nameBytes "/a.tar.GZ"))
      ∧ ∀ compression, Shuffle.inExcludeComp (maxExt [nameBytes "gz"]) [nameBytes "gz"]
          (nameBytes "/a.tar.GZ") compression
        = if Matches [nameBytes "gz"] (nameBytes "/a.tar.GZ") then 0 else compression :=
  (extensions_mean_iff [nameBytes "gz"] (by decide) (by decide)
    (nameBytes "/a.tar.GZ")).mpr (by decide)

/-- "tar.gz" is not found at the end of "a.tar.gz". -/
theorem targz_not_included :
    ¬ ((inIncludeExt [nameBytes "tar.gz"] (nameBytes "/a.tar.gz") = true
        ↔ Matches [nameBytes "tar.gz"] (nameBytes "/a.tar.gz"))
      ∧ (inExcludeExt [nameBytes "tar.gz"] (nameBytes "/a.tar.gz") = true
        ↔ Matches [nameBytes "tar.gz"] (nameBytes "/a.tar.gz"))
      ∧ ∀ compression, Shuffle.inExcludeComp (maxExt [nameBytes "tar.gz"]) [nameBytes "tar.gz"]
          (nameBytes "/a.tar.gz") compression
        = if Matches [nameBytes "tar.gz"] (nameBytes "/a.tar.gz") then 0 else compression) := by
  rintro ⟨hinclude, -⟩
  revert hinclude
  decide

end Burp.Phase1
