/-
  Burp.Phase2.Paths — paths that are put together from what the client sends.

  The server appends a text to a directory and makes the directories on the way that are not
  there.  `mkpath` refuses to make one that comes before a limit in the order of `pathcmp`,
  and does not look at the ones that are there.  A component ".." leads up all the same.

  Main results:
    * `mkpath_made` — the directories that are made are the limit and ones below it.
    * `inside_of_stays` — where the components never lead up too far, the path stays inside.
-/
import Burp.Store.Order
import Burp.Store.RoundTrip

namespace Burp.Phase2

open FileSystem Burp.Store

/-! ## §1. The code. -/

/-- `prepend_s`: one slash between the two, and none after a text that is empty. -/
def prependS (prep fname : Bytes) : Bytes :=
  let fname := cString fname
  if prep = [] then fname
  else
    let fname := if fname.head? = some 47 then fname.tail else fname
    prep ++ (if fname = [] then [] else [47]) ++ fname

/-- What `lstat` and `mkdir` find. -/
structure World where
  lstat : Bytes → Bool := fun _ => true
  mkdir : Bytes → Bool := fun _ => true

/-- The components of a path with the slashes between them. -/
def joinText (cs : List Bytes) : Bytes := [47].intercalate cs

/-- `mkpath` of a path whose components are given from the last one on: the directories that
it tries to make, and whether it returns 0. -/
def mkpathFrom (w : World) (limit : Bytes) : List Bytes → List Bytes × Bool
  | [] => ([], true)
  | _ :: cs =>
      let rpath := joinText cs.reverse
      -- no slash, or the root
      if rpath = [] then ([], true)
      else if w.lstat rpath then ([], true)
      else
        let (made, ok) := mkpathFrom w limit cs
        if !ok then (made, false)
        else if pathcmp (some rpath) (some limit) < 0 then (made, false)
        else (made ++ [rpath], w.mkdir rpath)

/-- `mkpath`. -/
def mkpath (w : World) (limit rpath : Bytes) : List Bytes × Bool :=
  mkpathFrom w limit (rpath.splitOn 47).reverse

/-! ## §2. Where a path leads. -/

/-- Where a component leads from a directory. -/
def enter (dir : List Bytes) (c : Bytes) : List Bytes :=
  if c = [] ∨ c = [46] then dir
  else if c = [46, 46] then dir.dropLast
  else dir ++ [c]

/-- Where a path leads, if none of its components is a symlink. -/
def resolve (dir : List Bytes) (cs : List Bytes) : List Bytes := cs.foldl enter dir

/-- A path leads to a directory or to something below it. -/
def Inside (dir path : Bytes) : Prop :=
  resolve [] (dir.splitOn 47) <+: resolve [] (path.splitOn 47)

/-- Components that lead up no further than `k` directories. -/
def Stays : Nat → List Bytes → Prop
  | _, [] => True
  | k, c :: cs =>
      if c = [] ∨ c = [46] then Stays k cs
      else if c = [46, 46] then 0 < k ∧ Stays (k - 1) cs
      else Stays (k + 1) cs

/-- **Components that stay** lead to the directory or below it. -/
theorem resolve_stays : ∀ (cs : List Bytes) (base below : List Bytes), Stays below.length cs →
    base <+: resolve (base ++ below) cs
  | [], base, below, _ => List.prefix_append _ _
  | c :: cs, base, below, h => by
      unfold Stays at h
      rw [resolve, List.foldl_cons, enter]
      split_ifs at h ⊢ with hskip hup
      · exact resolve_stays cs base below h
      · have hne : below ≠ [] := by
          rintro rfl
          simp at h
        have hlen : below.dropLast.length = below.length - 1 := List.length_dropLast
        rw [List.dropLast_append_of_ne_nil hne]
        exact resolve_stays cs base below.dropLast (by rw [hlen]; exact h.2)
      · rw [List.append_assoc]
        exact resolve_stays cs base (below ++ [c]) (by simpa using h)

/-- The beginning of components that stay. -/
theorem Stays.initial : ∀ {cs ds : List Bytes} {k : Nat}, Stays k ds → cs <+: ds → Stays k cs
  | [], _, _, _, _ => trivial
  | c :: cs, ds, k, h, hpre => by
      obtain ⟨e, rfl⟩ := hpre
      rw [List.cons_append] at h
      unfold Stays at h ⊢
      have hcs : cs <+: cs ++ e := List.prefix_append _ _
      split_ifs at h ⊢ with hskip hup
      · exact h.initial hcs
      · exact ⟨h.1, h.2.initial hcs⟩
      · exact h.initial hcs

/-- A slash between two texts. -/
theorem splitOn_slash (a b : Bytes) : (a ++ 47 :: b).splitOn 47 = a.splitOn 47 ++ b.splitOn 47 :=
  List.splitOn_append_cons_self a b

/-- A component has no slash. -/
theorem slash_notMem_splitOn : ∀ (a : Bytes), ∀ l ∈ a.splitOn 47, (47 : UInt8) ∉ l
  | [], l, hl => by
      simp at hl
      simp [hl]
  | x :: a, l, hl => by
      have ih := slash_notMem_splitOn a
      rw [List.splitOn_cons_eq_if_modifyHead] at hl
      split_ifs at hl with hx
      · rcases List.mem_cons.mp hl with rfl | hl
        · simp
        · exact ih l hl
      · cases hs : a.splitOn 47 with
        | nil => exact absurd hs (List.splitOn_ne_nil 47 a)
        | cons c cs =>
            rw [hs] at hl ih
            rw [List.modifyHead_cons, List.mem_cons] at hl
            rcases hl with rfl | hl
            · have hne : ¬ x = 47 := by simpa using hx
              simp only [List.mem_cons, not_or]
              exact ⟨fun h => hne h.symm, ih c List.mem_cons_self⟩
            · exact ih l (List.mem_cons_of_mem _ hl)

theorem joinText_splitOn (a : Bytes) : joinText (a.splitOn 47) = a := List.intercalate_splitOn 47

/-- A path that goes on has the longer one's slash. -/
theorem joinText_append : ∀ {cs ds : List Bytes}, cs ≠ [] → ds ≠ [] →
    joinText (cs ++ ds) = joinText cs ++ 47 :: joinText ds
  | [], _, h, _ => absurd rfl h
  | [c], ds, _, hds => by
      unfold joinText
      rw [List.singleton_append, List.intercalate_cons_of_ne_nil hds]
      simp
  | c :: c' :: cs, ds, _, hds => by
      have ih : joinText (c' :: cs ++ ds) = joinText (c' :: cs) ++ 47 :: joinText ds :=
        joinText_append (List.cons_ne_nil _ _) hds
      have hlong : c' :: cs ++ ds ≠ [] := by simp
      unfold joinText at ih ⊢
      rw [List.cons_append, List.intercalate_cons_of_ne_nil hlong, ih,
        List.intercalate_cons_of_ne_nil (List.cons_ne_nil c' cs)]
      simp only [List.append_assoc]

/-- A text comes before a longer one that begins with it. -/
theorem pathcmpBytes_longer : ∀ (a : Bytes) (x : UInt8) (b : Bytes),
    pathcmpBytes a (a ++ x :: b) = -1
  | [], _, _ => rfl
  | y :: a, x, b => by
      rw [List.cons_append, pathcmpBytes, if_pos rfl]
      exact pathcmpBytes_longer a x b

/-! ## §3. The directories on the way. -/

/-- **What `mkpath` makes**, on the way to a path that begins with the limit, is the limit and
what comes after it. -/
theorem mkpathFrom_made (w : World) (limit more : List Bytes) :
    ∀ cs, cs <+: limit ++ more → ∀ dir ∈ (mkpathFrom w (joinText limit) cs.reverse).1,
      ∃ ds, ds <+: more ∧ dir = joinText (limit ++ ds) := by
  intro cs
  induction cs using List.reverseRecOn with
  | nil => simp [mkpathFrom]
  | append_singleton cs c ih =>
      intro hcs dir hdir
      have hcs' : cs <+: limit ++ more := (List.prefix_append _ _).trans hcs
      have hih := ih hcs'
      rw [List.reverse_append, List.reverse_singleton, List.singleton_append, mkpathFrom,
        List.reverse_reverse] at hdir
      by_cases hnil : joinText cs = []
      · simp [hnil] at hdir
      by_cases hlstat : w.lstat (joinText cs) = true
      · simp [hnil, hlstat] at hdir
      obtain ⟨made, ok, hmk⟩ : ∃ made ok, mkpathFrom w (joinText limit) cs.reverse = (made, ok) :=
        ⟨_, _, rfl⟩
      rw [hmk] at hih
      simp only [hnil, hlstat, hmk, if_false, Bool.false_eq_true] at hdir
      cases ok with
      | false => exact hih dir (by simpa using hdir)
      | true =>
          simp only [Bool.not_true, Bool.false_eq_true, if_false] at hdir
          split_ifs at hdir with hcmp
          · exact hih dir hdir
          · rcases List.mem_append.mp hdir with hdir | hdir
            · exact hih dir hdir
            · rw [List.mem_singleton] at hdir
              rcases List.prefix_or_prefix_of_prefix hcs' (List.prefix_append limit more) with
                ⟨e, he⟩ | ⟨ds, rfl⟩
              · -- what comes before the limit is refused
                have hcs0 : cs ≠ [] := by
                  rintro rfl
                  exact hnil rfl
                by_cases he0 : e = []
                · rw [he0, List.append_nil] at he
                  exact ⟨[], List.nil_prefix, by rw [hdir, he, List.append_nil]⟩
                · have hlow : pathcmp (some (joinText cs)) (some (joinText limit)) = -1 := by
                    rw [← he, joinText_append hcs0 he0]
                    exact pathcmpBytes_longer _ _ _
                  rw [hlow] at hcmp
                  exact absurd (by decide) hcmp
              · exact ⟨ds, (List.prefix_append_right_inj _).mp hcs', hdir⟩

/-- What `prepend_s` makes of a directory and a text. -/
theorem prependS_eq {prep : Bytes} (fname : Bytes) (hprep : prep ≠ []) :
    prependS prep fname = prep ∨ ∃ b, prependS prep fname = prep ++ 47 :: b
      ∧ ∀ k, Stays k ((cString fname).splitOn 47) → Stays k (b.splitOn 47) := by
  unfold prependS
  simp only [if_neg hprep]
  by_cases hslash : (cString fname).head? = some 47
  · rw [if_pos hslash]
    obtain ⟨b, hb⟩ : ∃ b, cString fname = 47 :: b := by
      cases h : cString fname with
      | nil => simp [h] at hslash
      | cons x b =>
          rw [h, List.head?_cons, Option.some.injEq] at hslash
          exact ⟨b, by rw [hslash]⟩
    rw [hb, List.tail_cons]
    by_cases hnil : b = []
    · exact Or.inl (by simp [hnil])
    · refine Or.inr ⟨b, by simp [hnil], fun k hk => ?_⟩
      have hsplit : (47 :: b).splitOn 47 = [] :: b.splitOn 47 := by
        simpa using splitOn_slash [] b
      rw [hsplit] at hk
      unfold Stays at hk
      simpa using hk
  · rw [if_neg hslash]
    by_cases hnil : cString fname = []
    · exact Or.inl (by simp [hnil])
    · exact Or.inr ⟨cString fname, by simp [hnil], fun k hk => hk⟩

/-- **A path of components that stay is inside.** -/
theorem inside_of_stays {dir : Bytes} (cs : List Bytes) (hcs : Stays 0 cs) {path : Bytes}
    (hpath : path.splitOn 47 = dir.splitOn 47 ++ cs) : Inside dir path := by
  have h := resolve_stays cs (resolve [] (dir.splitOn 47)) [] hcs
  unfold Inside
  rw [hpath]
  unfold resolve at h ⊢
  rwa [List.append_nil, ← List.foldl_append] at h

/-- And so are the directories on the way to it. -/
theorem inside_of_made {w : World} {dir limit path : Bytes} {cs ds : List Bytes}
    (hlimit : limit.splitOn 47 = dir.splitOn 47 ++ cs)
    (hpath : path.splitOn 47 = limit.splitOn 47 ++ ds) (hstays : Stays 0 (cs ++ ds)) :
    ∀ d ∈ (mkpath w limit path).1, Inside dir d := by
  intro d hd
  unfold mkpath at hd
  have hmade := mkpathFrom_made w (limit.splitOn 47) ds (path.splitOn 47)
    (by rw [hpath]) d
  rw [joinText_splitOn] at hmade
  obtain ⟨es, hes, rfl⟩ := hmade hd
  refine inside_of_stays (cs ++ es)
    (hstays.initial ((List.prefix_append_right_inj _).mpr hes)) ?_
  have hslash : ∀ l ∈ limit.splitOn 47 ++ es, (47 : UInt8) ∉ l := by
    intro l hl
    refine slash_notMem_splitOn path l ?_
    rw [hpath]
    rcases List.mem_append.mp hl with hl | hl
    · exact List.mem_append_left _ hl
    · exact List.mem_append_right _ (hes.mem hl)
  unfold joinText
  rw [List.splitOn_intercalate 47 hslash (by simp), hlimit, List.append_assoc]

end Burp.Phase2
