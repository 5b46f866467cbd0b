/-
  Burp.Phase1.Starts — the directories to start from, on every system.

  What is below a directory is together in a list that is sorted by `pathcmp`, the directory
  itself first, so that it is enough to look at the most recent start.  On Windows the list
  is sorted before the backslashes are converted: the order is then not the one of the paths
  that are looked at, and something else may stand between a directory and what is below it.

  Main results:
    * `subdirs_block` — what is below a directory is one block of a sorted list.
    * `finaliseConfig_represents_iff` — when the starts are not below one another, and every
      include is at or below exactly one of them.
-/
import Burp.Phase1.Jumps

namespace Burp.Phase1

open FileSystem Burp.Store Comparison

/-! ## §1. The code. -/

/-- `convert_backslashes`. -/
def convertBackslashes (path : Bytes) : Bytes := path.map fun c => if c = 92 then 47 else c

/-- A path of the include and exclude lists as the code goes on with it. -/
def converted (windows : Bool) (path : Bytes) : Bytes :=
  if windows then convertBackslashes path else path

/-- `path_checks`.  Windows does not need to check for unix style paths. -/
def pathChecksOn (windows : Bool) (path : Bytes) : Bool :=
  !hasDotDot none path
    && ((path.head?.any isAlpha && path.tail.head? = some 58)
      || (!windows && path.head? = some 47))

/-- The loop of `finalise_config` that decides which directories to start from, over the
sorted list. -/
def startLoopOn (windows : Bool) :
    Option Bytes → List Bytes → List (Bytes × Bool) → Option (List Bytes)
  | _, starts, [] => some starts
  | prev, starts, e :: rest =>
      let path := converted windows e.1
      if !pathChecksOn windows path then none
      else if !e.2 then startLoopOn windows (some path) starts rest
      else if prev = some path then none
      else if starts = [] ∨ isSubdir starts.getLast? (some path) = 0 then
        startLoopOn windows (some path) (starts ++ [path]) rest
      else startLoopOn windows (some path) starts rest

/-- An order of the list in which `qsort` may leave it. -/
def IsSortOf (sorted ielist : List (Bytes × Bool)) : Prop :=
  sorted.Perm ielist ∧ sorted.Pairwise fun a b => pathcmp (some a.1) (some b.1) ≤ 0

/-- The paths of the includes. -/
def includes (ielist : List (Bytes × Bool)) : List Bytes :=
  (ielist.filter fun e => e.2).map Prod.fst

/-- The loop is the one of `finaliseConfig` where nothing is converted. -/
theorem startLoopOn_false (prev : Option Bytes) (starts : List Bytes)
    (list : List (Bytes × Bool)) :
    startLoopOn false prev starts list = startLoop prev starts list := by
  have hchecks : ∀ path, pathChecksOn false path = pathChecks path := by
    intro path
    simp [pathChecksOn, pathChecks]
  induction list generalizing prev starts with
  | nil => rfl
  | cons e list ih => simp only [startLoopOn, startLoop, converted, hchecks, ih, Bool.false_eq_true,
      if_false]

/-! ## §2. What is below a directory. -/

/-- At or below. -/
def AtOrBelow (d e : Bytes) : Prop := 0 < isSubdir (some d) (some e)

instance : DecidableRel AtOrBelow :=
  fun d e => inferInstanceAs (Decidable (0 < isSubdir (some d) (some e)))

theorem AtOrBelow.isPrefix {d e : Bytes} (h : AtOrBelow d e) : d <+: e := by
  obtain rfl | h | ⟨-, h, -⟩ := (isSubdir_pos_iff d e).1 h
  · exact List.prefix_refl _
  · exact (List.prefix_append _ _).trans h
  · exact h

theorem AtOrBelow.pathcmp_le {d e : Bytes} (h : AtOrBelow d e) :
    pathcmp (some d) (some e) ≤ 0 := by
  by_cases hne : e = d
  · rw [hne, (pathcmp_eq_iff _ _).2 rfl]
  · exact (before_of_subdir h hne).pathcmp_le

/-- Of two directories above a path one is at or below the other. -/
theorem atOrBelow_of_isPrefix {a b c : Bytes} (hac : AtOrBelow a c) (hbc : AtOrBelow b c)
    (hab : a <+: b) : AtOrBelow a b := by
  rw [AtOrBelow, isSubdir_pos_iff] at hac ⊢
  by_cases hne : b = a
  · exact Or.inl hne
  right
  obtain rfl | hac | ⟨hlast, -, -⟩ := hac
  · exact absurd (hbc.isPrefix.eq_of_length_le hab.length_le) hne
  · left
    obtain h | h := List.prefix_or_prefix_of_prefix hac hbc.isPrefix
    · exact h
    · obtain h | h := List.prefix_concat_iff.1 h
      · rw [h]
      · exact absurd (h.eq_of_length_le hab.length_le) hne
  · exact Or.inr ⟨hlast, hab, hne⟩

theorem atOrBelow_hierarchy : Hierarchy AtOrBelow where
  refl a := (isSubdir_pos_iff a a).2 (Or.inl rfl)
  antisymm hab hba := hab.isPrefix.eq_of_length_le hba.isPrefix.length_le
  trans := subdir_trans
  above := by
    intro a b c hac hbc
    obtain h | h := List.prefix_or_prefix_of_prefix hac.isPrefix hbc.isPrefix
    · exact Or.inl (atOrBelow_of_isPrefix hac hbc h)
    · exact Or.inr (atOrBelow_of_isPrefix hbc hac h)

/-- What stands between two paths at or below a directory is at or below it as well. -/
theorem atOrBelow_between {d x y z : Bytes} (hxy : pathcmp (some x) (some y) ≤ 0)
    (hyz : pathcmp (some y) (some z) ≤ 0) (hx : AtOrBelow d x) (hz : AtOrBelow d z) :
    AtOrBelow d y := by
  have hdy := pathcmp_trans hx.pathcmp_le hxy
  obtain rfl | hb := (isSubdir_pos_iff d z).1 hz
  · obtain h | rfl := pathcmp_le_iff.1 hdy
    · obtain h' | rfl := pathcmp_le_iff.1 hyz
      · exact absurd (h.trans h') (before_irrefl _)
      · exact hz
    · exact hz
  · exact isSubdir_between hdy hyz (e := some z) hb

/-- **What is at or below a directory** is one block of a sorted list, and the block begins
with the directory itself if it is in the list. -/
theorem subdirs_block (list : List Bytes)
    (hs : list.Pairwise fun a b => pathcmp (some a) (some b) ≤ 0) (d : Bytes) :
    ∃ mid, Block (AtOrBelow d) list mid ∧ (d ∈ list → mid.head? = some d) := by
  obtain ⟨mid, hmid⟩ := block_of_between (P := AtOrBelow d)
    (fun x y z hxy hyz hx hz => atOrBelow_between hxy hyz hx hz) hs
  refine ⟨mid, hmid, fun hd => ?_⟩
  refine hmid.head_of_least hs ?_ hd (atOrBelow_hierarchy.refl d) fun x hx => hx.pathcmp_le
  intro x y hxy hyx
  rw [not_pathcmp_pos_iff] at hxy hyx
  exact Option.some.inj (pathKey_inj.1 (le_antisymm hxy hyx))

/-! ## §3. The starts. -/

theorem startLoopOn_eq {windows : Bool} {list : List (Bytes × Bool)} {prev : Option Bytes}
    {acc starts : List Bytes} (h : startLoopOn windows prev acc list = some starts) :
    starts = acc ++ chosen AtOrBelow acc.getLast? ((includes list).map (converted windows)) := by
  induction list generalizing prev acc with
  | nil =>
      cases h
      simp [includes, chosen]
  | cons e list ih =>
      rw [startLoopOn] at h
      split at h
      · cases h
      split at h
      next hf =>
        have hf' : e.2 = false := by simpa using hf
        rw [ih h]
        simp [includes, hf']
      next hf =>
        have hf' : e.2 = true := by simpa using hf
        have hcons : (includes (e :: list)).map (converted windows)
            = converted windows e.1 :: (includes list).map (converted windows) := by
          simp [includes, hf']
        rw [hcons, chosen]
        split at h
        · cases h
        split at h
        next hnew =>
          have hnot : (acc.getLast?.any fun s => AtOrBelow s (converted windows e.1)) ≠ true := by
            cases hl : acc.getLast? with
            | none => simp
            | some s =>
                obtain rfl | hnew := hnew
                · cases hl
                · rw [hl] at hnew
                  simp [AtOrBelow, hnew]
          rw [if_neg hnot, ih h, List.getLast?_append_of_ne_nil acc (by simp)]
          simp
        next hnew =>
          have hany : (acc.getLast?.any fun s => AtOrBelow s (converted windows e.1)) = true := by
            rw [not_or] at hnew
            cases hl : acc.getLast? with
            | none => exact absurd (List.getLast?_eq_none_iff.1 hl) hnew.1
            | some s =>
                rw [hl] at hnew
                have hpos : AtOrBelow s (converted windows e.1) :=
                  Nat.pos_of_ne_zero fun h0 => hnew.2 h0
                simpa using hpos
          rw [if_pos hany, ih h]

/-- What the loop has looked at when it goes on. -/
theorem startLoopOn_cons {windows : Bool} {e : Bytes × Bool} {list : List (Bytes × Bool)}
    {prev : Option Bytes} {acc starts : List Bytes}
    (h : startLoopOn windows prev acc (e :: list) = some starts) :
    (e.2 = true → prev ≠ some (converted windows e.1))
      ∧ ∃ acc', startLoopOn windows (some (converted windows e.1)) acc' list = some starts := by
  rw [startLoopOn] at h
  split at h
  · cases h
  split at h
  next hf => exact ⟨fun hf' => by simp [hf'] at hf, _, h⟩
  split at h
  · cases h
  next hprev =>
    split at h
    · exact ⟨fun _ => hprev, _, h⟩
    · exact ⟨fun _ => hprev, _, h⟩

theorem before_include {windows : Bool} {list : List (Bytes × Bool)} {p : Bytes}
    {acc starts : List Bytes}
    (h : startLoopOn windows (some (converted windows p)) acc list = some starts)
    (hs : list.Pairwise fun a b => pathcmp (some a.1) (some b.1) ≤ 0)
    (hp : ∀ e ∈ list, pathcmp (some p) (some e.1) ≤ 0) : ∀ e ∈ list, e.2 = true → Before p e.1 := by
  induction list generalizing p acc with
  | nil => simp
  | cons x list ih =>
      obtain ⟨hne, acc', hrest⟩ := startLoopOn_cons h
      have hx := List.pairwise_cons.1 hs
      intro e he hf
      obtain rfl | he := List.mem_cons.1 he
      · obtain hlt | heq := pathcmp_le_iff.1 (hp e List.mem_cons_self)
        · exact hlt
        · exact absurd (by rw [heq]) (hne hf)
      · have hxe := ih hrest hx.2 (fun e he => hx.1 e he) e he hf
        obtain hlt | rfl := pathcmp_le_iff.1 (hp x List.mem_cons_self)
        · exact hlt.trans hxe
        · exact hxe

/-- No path is twice among the includes of a list that is accepted. -/
theorem includes_before {windows : Bool} {list : List (Bytes × Bool)} {prev : Option Bytes}
    {acc starts : List Bytes} (h : startLoopOn windows prev acc list = some starts)
    (hs : list.Pairwise fun a b => pathcmp (some a.1) (some b.1) ≤ 0) :
    (includes list).Pairwise Before := by
  induction list generalizing prev acc with
  | nil => exact List.Pairwise.nil
  | cons e list ih =>
      obtain ⟨-, acc', hrest⟩ := startLoopOn_cons h
      have he := List.pairwise_cons.1 hs
      have hlist := ih hrest he.2
      cases hf : e.2 with
      | false => simpa [includes, hf] using hlist
      | true =>
          have hcons : includes (e :: list) = e.1 :: includes list := by simp [includes, hf]
          rw [hcons, List.pairwise_cons]
          refine ⟨fun x hx => ?_, hlist⟩
          simp only [includes, List.mem_map, List.mem_filter] at hx
          obtain ⟨y, ⟨hy, hyf⟩, rfl⟩ := hx
          exact before_include hrest he.2 he.1 y hy hyf

/-! ## §4. The includes as they are written. -/

/-- For every include that is not below another one: in the order of the paths as they are
written, a path of this include comes before all other includes at or below it, and what
stands in between is at or below it as well. -/
def WrittenTogether (windows : Bool) (incs : List Bytes) : Prop :=
  ∀ d ∈ incs, (∀ f ∈ incs, AtOrBelow (converted windows f) (converted windows d) →
      converted windows f = converted windows d) →
    ∃ s ∈ incs, converted windows s = converted windows d
      ∧ ∀ x ∈ incs, AtOrBelow (converted windows d) (converted windows x) →
        pathcmp (some s) (some x) ≤ 0
        ∧ ∀ y ∈ incs, pathcmp (some s) (some y) ≤ 0 → pathcmp (some y) (some x) ≤ 0 →
          AtOrBelow (converted windows d) (converted windows y)

theorem Before.not_pathcmp_le {a b : Bytes} (h : Before a b) :
    ¬ pathcmp (some b) (some a) ≤ 0 := by
  intro hle
  obtain hlt | rfl := pathcmp_le_iff.1 hle
  · exact before_irrefl a (h.trans hlt)
  · exact before_irrefl b h

theorem gathered_iff {windows : Bool} {incs : List Bytes} (hs : incs.Pairwise Before) :
    Gathered AtOrBelow (incs.map (converted windows)) ↔ WrittenTogether windows incs := by
  constructor
  · intro hg d hd htop
    have htop' : Topmost AtOrBelow (incs.map (converted windows)) (converted windows d) := by
      refine ⟨List.mem_map_of_mem hd, fun f hf => ?_⟩
      obtain ⟨f', hf', rfl⟩ := List.mem_map.1 hf
      exact htop f' hf'
    obtain ⟨mid, pre, post, heq, hmid, hout⟩ := hg _ htop'
    obtain ⟨l, q, rfl, hl, hq⟩ := List.map_eq_append_iff.1 heq
    obtain ⟨p, m, rfl, hp, hm⟩ := List.map_eq_append_iff.1 hl
    obtain ⟨s, m, rfl, hds, hm⟩ := List.map_eq_cons_iff.1 hm
    have hin : ∀ x ∈ p ++ s :: m ++ q, AtOrBelow (converted windows d) (converted windows x) →
        x ∈ s :: m := by
      intro x hx hdx
      rw [List.append_assoc, List.mem_append, List.mem_append] at hx
      obtain hx | hx | hx := hx
      · exact absurd hdx (hout _ (List.mem_append_left _ (hp ▸ List.mem_map_of_mem hx)))
      · exact hx
      · exact absurd hdx (hout _ (List.mem_append_right _ (hq ▸ List.mem_map_of_mem hx)))
    rw [List.append_assoc, List.pairwise_append, List.cons_append, List.pairwise_cons] at hs
    obtain ⟨-, ⟨hsm, hmq⟩, hpm⟩ := hs
    refine ⟨s, by simp, hds, fun x hx hdx => ?_⟩
    have hxm := hin x hx hdx
    have hsx : pathcmp (some s) (some x) ≤ 0 := by
      obtain rfl | hxm := List.mem_cons.1 hxm
      · rw [(pathcmp_eq_iff _ _).2 rfl]
      · exact (hsm x (List.mem_append_left _ hxm)).pathcmp_le
    refine ⟨hsx, fun y hy hsy hyx => ?_⟩
    rw [List.append_assoc, List.mem_append, List.mem_append] at hy
    obtain hy | hy | hy := hy
    · exact absurd hsy (hpm y hy s List.mem_cons_self).not_pathcmp_le
    · apply hmid
      rw [← hds, ← hm, ← List.map_cons]
      exact List.mem_map_of_mem hy
    · refine absurd hyx (Before.not_pathcmp_le ?_)
      obtain rfl | hxm := List.mem_cons.1 hxm
      · exact hsm y (List.mem_append_right _ hy)
      · exact (List.pairwise_append.1 hmq).2.2 x hxm y hy
  · intro hw D hD
    obtain ⟨d, hd, rfl⟩ := List.mem_map.1 hD.1
    obtain ⟨s, hsmem, hds, hall⟩ := hw d hd fun f hf => hD.2 _ (List.mem_map_of_mem hf)
    obtain ⟨p, rest, rfl⟩ := List.append_of_mem hsmem
    rw [List.pairwise_append, List.pairwise_cons] at hs
    obtain ⟨-, ⟨hsrest, hrest⟩, hps⟩ := hs
    have hdown : ∀ y ∈ rest, ∀ z ∈ rest, Before y z →
        AtOrBelow (converted windows d) (converted windows z) →
        AtOrBelow (converted windows d) (converted windows y) := by
      intro y hy z hz hyz hdz
      refine (hall z ?_ hdz).2 y ?_ (hsrest y hy).pathcmp_le hyz.pathcmp_le
      · exact List.mem_append_right _ (List.mem_cons_of_mem _ hz)
      · exact List.mem_append_right _ (List.mem_cons_of_mem _ hy)
    let P := fun x => AtOrBelow (converted windows d) (converted windows x)
    refine ⟨(rest.takeWhile (P ·)).map (converted windows), p.map (converted windows),
      (rest.dropWhile (P ·)).map (converted windows), ?_, ?_, ?_⟩
    · rw [List.append_assoc, List.cons_append, ← List.map_append, List.takeWhile_append_dropWhile,
        ← hds, List.map_append, List.map_cons]
    · intro x hx
      obtain rfl | hx := List.mem_cons.1 hx
      · exact atOrBelow_hierarchy.refl _
      · obtain ⟨y, hy, rfl⟩ := List.mem_map.1 hx
        simpa using List.mem_takeWhile_imp hy
    · intro x hx
      rw [← List.map_append] at hx
      obtain ⟨y, hy, rfl⟩ := List.mem_map.1 hx
      obtain hy | hy := List.mem_append.1 hy
      · intro hdy
        exact (hps y hy s List.mem_cons_self).not_pathcmp_le
          (hall y (List.mem_append_left _ hy) hdy).1
      · exact not_mem_dropWhile (P := P) hrest hdown y hy

/-- Where nothing is converted, the includes are always together. -/
theorem writtenTogether_false (incs : List Bytes) : WrittenTogether false incs := by
  intro d hd htop
  refine ⟨d, hd, rfl, fun x hx hdx => ⟨AtOrBelow.pathcmp_le hdx, fun y hy hdy hyx => ?_⟩⟩
  exact atOrBelow_between hdy hyx (atOrBelow_hierarchy.refl d) hdx

theorem WrittenTogether.congr {windows : Bool} {incs incs' : List Bytes}
    (hmem : ∀ x, x ∈ incs ↔ x ∈ incs') :
    WrittenTogether windows incs ↔ WrittenTogether windows incs' := by
  simp only [WrittenTogether, hmem]

/-- The starts are not below one another, and every include is at or below exactly one of
them, if the includes are together as they are written, and only then. -/
theorem startLoopOn_represents_iff {windows : Bool} {ielist sorted : List (Bytes × Bool)}
    {starts : List Bytes} (hsort : IsSortOf sorted ielist)
    (h : startLoopOn windows none [] sorted = some starts) :
    Represents AtOrBelow starts ((includes ielist).map (converted windows))
      ↔ WrittenTogether windows (includes ielist) := by
  have hperm : (includes sorted).Perm (includes ielist) := (hsort.1.filter _).map _
  have hstarts := startLoopOn_eq h
  rw [List.nil_append] at hstarts
  rw [← WrittenTogether.congr fun x => hperm.mem_iff, ← gathered_iff (includes_before h hsort.2),
    ← represents_iff atOrBelow_hierarchy, hstarts]
  constructor
  · intro hr
    exact ⟨hr.apart, fun e he => hr.one e ((hperm.map _).mem_iff.1 he)⟩
  · intro hr
    exact ⟨hr.apart, fun e he => hr.one e ((hperm.map _).mem_iff.2 he)⟩

/-- **Sub-directories are together** in the order of paths, which is a total order: what is at
or below a directory is one block of every sorted list.  The starts of every list that
`finalise_config` accepts represent its includes if these are together as they are written,
and only then; where nothing is converted they always are. -/
theorem subdirs_together (windows : Bool) {ielist sorted : List (Bytes × Bool)}
    {starts : List Bytes} (hsort : IsSortOf sorted ielist)
    (h : startLoopOn windows none [] sorted = some starts) :
    (OrdersWell pathcmp Set.univ ∧ ∀ a b, pathcmp a b = 0 ↔ a = b)
    ∧ (∀ (list : List Bytes) (d : Bytes),
        (list.Pairwise fun a b => pathcmp (some a) (some b) ≤ 0) →
        ∃ mid, Block (AtOrBelow d) list mid ∧ (d ∈ list → mid.head? = some d))
    ∧ (Represents AtOrBelow starts ((includes ielist).map (converted windows))
        ↔ WrittenTogether windows (includes ielist))
    ∧ (windows = false → WrittenTogether windows (includes ielist)) := by
  refine ⟨⟨pathcmp_ordersWell _, pathcmp_eq_iff⟩, fun list d hs => subdirs_block list hs d,
    startLoopOn_represents_iff hsort h, ?_⟩
  rintro rfl
  exact writtenTogether_false _

/-- The includes C:/a b, C:/a/b and C:/a. -/
theorem subdirs_together_slashes :
    Represents AtOrBelow [[67, 58, 47, 97], [67, 58, 47, 97, 32, 98]]
      ((includes [([67, 58, 47, 97, 32, 98], true), ([67, 58, 47, 97, 47, 98], true),
        ([67, 58, 47, 97], true)]).map (converted true)) := by
  have hsort : IsSortOf
      [([67, 58, 47, 97], true), ([67, 58, 47, 97, 47, 98], true), ([67, 58, 47, 97, 32, 98], true)]
      [([67, 58, 47, 97, 32, 98], true), ([67, 58, 47, 97, 47, 98], true),
        ([67, 58, 47, 97], true)] := ⟨by decide, by decide⟩
  refine (subdirs_together true hsort ?_).2.2.1.2 ?_
  · decide
  · unfold WrittenTogether
    decide

/-- The includes C:\a, C:\a b and C:\a\b. -/
def backslashed : List (Bytes × Bool) :=
  [([67, 58, 92, 97], true), ([67, 58, 92, 97, 32, 98], true), ([67, 58, 92, 97, 92, 98], true)]

/-- All three are started from, and the last one is below the first one. -/
theorem backslashed_not_represented : ∃ starts, IsSortOf backslashed backslashed
    ∧ startLoopOn true none [] backslashed = some starts
    ∧ ¬ Represents AtOrBelow starts ((includes backslashed).map (converted true)) := by
  refine ⟨[[67, 58, 47, 97], [67, 58, 47, 97, 32, 98], [67, 58, 47, 97, 47, 98]], ⟨?_, ?_⟩, ?_, ?_⟩
  · exact List.Perm.refl _
  · decide
  · decide
  · intro h
    have := h.one [67, 58, 47, 97, 47, 98] (by decide)
    exact absurd this (by decide)

end Burp.Phase1
