/-
  Burp.Status.Browse — the children of a directory, from a manifest.

  A manifest has its paths in order, so that what is in a directory stands together, and
  `check_browsedir` need only remember the last name it has given.  It takes any path that begins
  with the text of the directory for something that is in it, looks one character behind that,
  and cuts what follows.  The listing for a client then sends as many bytes as the path had.

  Main results:
    * `browseLoop_eq` — the names that are given.
    * `childName_mono` — children are in the order of their paths.
    * `browse_iff` — when they are the children of the directory.
-/
import Burp.Order.Runs
import Burp.Store.Subdir
import Burp.Text.Pointer

namespace Burp.Status

open FileSystem Burp.Store
open Burp.Text (deref advance)
open Burp.Runs (fresh fresh_eq_destutter mem_destutter eq_of_nodup_destutter)

/-! ## §1. The code. -/

/-- What `*path` is made to point to: a string, and how many bytes there are for it. -/
structure Shown where
  name : Bytes
  size : Nat

/-- What `strdup` copies. -/
def dupOf (browsedir path : Bytes) : Bytes :=
  if browsedir = [] ∨ browsedir = [47] then path.drop browsedir.length
  else path.drop (browsedir.length + 1)

/-- Where the copy is cut. -/
def copyOf (browsedir path : Bytes) : Bytes :=
  let copy := dupOf browsedir path
  if browsedir = [] then
    if copy.head? = some 47 then [47]
    -- "Messing around for Windows."
    else if 2 < copy.length ∧ copy[1]? = some 58 ∧ copy[2]? = some 47 then copy.take 2
    else copy
  -- `strchr(copy+1, '/')`
  else if browsedir = [47] then copy.take 1 ++ (copy.drop 1).takeWhile (· ≠ 47)
  else copy.takeWhile (· ≠ 47)

/-- `check_browsedir`: what is shown, if it is, and `*lastpath`; `none` is a read behind the end
of the path. -/
def checkBrowsedir (browsedir path : Bytes) (lastpath : Option Bytes) :
    Option (Option Shown × Option Bytes) :=
  -- `strncmp` of `bdlen` characters
  if ¬ browsedir.isPrefixOf path then some (none, lastpath)
  else
    match deref (advance (some path) (browsedir.length + 1)) with
    | none => none
    | some c =>
        -- also for a child of the root with a name of one character
        if c = 0 then some (none, lastpath)
        else
          let copy := copyOf browsedir path
          if lastpath = some copy then some (none, lastpath)
          else some (some ⟨copy, (dupOf browsedir path).length + 1⟩, some copy)

/-- The loop over a manifest; with what is shown, how long the path was. -/
def browseLoop (browsedir : Bytes) : Option Bytes → List Bytes → Option (List (Shown × Nat))
  | _, [] => some []
  | lastpath, path :: paths => do
      let (shown, lastpath) ← checkBrowsedir browsedir path lastpath
      let rest ← browseLoop browsedir lastpath paths
      pure (shown.toList.map (fun s => (s, path.length)) ++ rest)

/-- The names that `browse_manifest` shows. -/
def browseManifest (browse : Bytes) (paths : List Bytes) : Option (List Bytes) :=
  (browseLoop browse none paths).map fun shown => shown.map (·.1.name)

/-- The names that `list_manifest` sends: `plen` bytes of each. -/
def listManifest (browsedir : Bytes) (paths : List Bytes) : Option (List Bytes) :=
  (browseLoop browsedir none paths).bind fun shown =>
    if ∀ p ∈ shown, p.2 ≤ p.1.size then some (shown.map (·.1.name)) else none

/-! ## §2. What it is for. -/

/-- A manifest in order. -/
structure Listing where
  entries : List Sbuf
  named : ∀ sb ∈ entries, ∃ path, sb.path = some path ∧ 0 ∉ path
  sorted : entries.Pairwise fun a b => sbufPathcmp a b ≤ 0

def Listing.paths (m : Listing) : List Bytes := m.entries.map fun sb => sb.path.getD []

/-- A directory that can be asked for: all there is, the root, or a path that does not end in a
slash. -/
structure BrowseDir where
  text : Bytes
  zero_notMem : 0 ∉ text
  ends : text = [47] ∨ text.getLast? ≠ some 47

/-- A path up to its first slash. -/
def component (r : Bytes) : Bytes := r.takeWhile (· ≠ 47)

/-- What the paths of the children begin with. -/
def dirPrefix (dir : Bytes) : Bytes := if dir = [] ∨ dir = [47] then dir else dir ++ [47]

/-- The name of the child of a directory that a path is, or is below.  The root is a child of
all there is. -/
def childName (dir path : Bytes) : Option Bytes :=
  if dir = [] ∧ path.head? = some 47 then some [47]
  else if (dirPrefix dir).isPrefixOf path
      ∧ component (path.drop (dirPrefix dir).length) ≠ [] then
    some (component (path.drop (dirPrefix dir).length))
  else none

/-- Each child once, and nothing else. -/
def ShowsChildren (dir : Bytes) (paths : List Bytes) (names : Option (List Bytes)) : Prop :=
  ∃ ns, names = some ns ∧ ns.Nodup ∧ ∀ x, x ∈ ns ↔ ∃ path ∈ paths, childName dir path = some x

/-! ## §3. The names that are given. -/

/-- The name that is cut out of a path, unless it is passed over. -/
def cutName (dir path : Bytes) : Option Bytes :=
  if dir.isPrefixOf path ∧ dir.length + 1 < path.length then some (copyOf dir path) else none

theorem checkBrowsedir_itself (dir : Bytes) (lastpath : Option Bytes) :
    checkBrowsedir dir dir lastpath = none := by
  have hread : deref (advance (some dir) (dir.length + 1)) = none := by
    rw [Text.deref_advance, if_neg (by omega)]
  simp [checkBrowsedir, hread]

theorem checkBrowsedir_eq {dir path : Bytes} (hne : path ≠ dir) (hnul : 0 ∉ path)
    (lastpath : Option Bytes) :
    checkBrowsedir dir path lastpath
      = some (match cutName dir path with
        | none => (none, lastpath)
        | some name =>
            if lastpath = some name then (none, lastpath)
            else (some ⟨name, (dupOf dir path).length + 1⟩, some name)) := by
  unfold checkBrowsedir cutName
  by_cases hfront : dir.isPrefixOf path = true
  · obtain ⟨r, rfl⟩ := List.isPrefixOf_iff_prefix.1 hfront
    rw [if_neg (not_not.2 hfront), Text.deref_advance, List.length_append]
    -- what is read is the second character behind the directory, or the NUL
    cases r with
    | nil => exact absurd (List.append_nil dir) hne
    | cons c r =>
        cases r with
        | nil =>
            have hread : dir.length + 1 ≤ dir.length + [c].length := le_rfl
            have hshort : ¬ (dir.isPrefixOf (dir ++ [c]) = true
                ∧ dir.length + 1 < dir.length + [c].length) := fun h => lt_irrefl _ h.2
            have hnul' : ((dir ++ [c]).drop (dir.length + 1)).headD 0 = 0 := by
              simp
            rw [if_pos hread, if_neg hshort]
            simp only [hnul', if_true]
        | cons d r =>
            have hd : d ≠ 0 := by
              rintro rfl
              exact hnul (by simp)
            have hread : dir.length + 1 ≤ dir.length + (c :: d :: r).length := by
              simp
            have hlong : dir.isPrefixOf (dir ++ c :: d :: r) = true
                ∧ dir.length + 1 < dir.length + (c :: d :: r).length :=
              ⟨hfront, by simp⟩
            have hchar : ((dir ++ c :: d :: r).drop (dir.length + 1)).headD 0 = d := by
              simp
            rw [if_pos hread, if_pos hlong]
            simp only [hchar, if_neg hd]
            split_ifs <;> rfl
  · rw [if_pos hfront, if_neg fun h => hfront h.1]

/-- A path that is the directory itself is read behind its end. -/
theorem browseLoop_itself {dir : Bytes} {paths : List Bytes} (hmem : dir ∈ paths)
    (hnul : ∀ path ∈ paths, 0 ∉ path) (lastpath : Option Bytes) :
    browseLoop dir lastpath paths = none := by
  induction paths generalizing lastpath with
  | nil => cases hmem
  | cons path paths ih =>
      rw [List.forall_mem_cons] at hnul
      by_cases hpath : path = dir
      · rw [browseLoop, hpath, checkBrowsedir_itself]
        rfl
      · have hrest : dir ∈ paths := List.mem_of_ne_of_mem (Ne.symm hpath) hmem
        rw [browseLoop, checkBrowsedir_eq hpath hnul.1]
        simp [ih hrest hnul.2]

/-- There are as many bytes as the path had, unless more than a slash was left out in front. -/
theorem dupOf_room {dir path name : Bytes} (h : cutName dir path = some name) :
    path.length ≤ (dupOf dir path).length + 1 ↔ dir = [] ∨ dir = [47] := by
  unfold cutName at h
  split_ifs at h with hlong
  unfold dupOf
  by_cases hshort : dir = [] ∨ dir = [47]
  · rw [if_pos hshort, List.length_drop]
    refine iff_of_true ?_ hshort
    rcases hshort with rfl | rfl
    · simp
    · have := hlong.2
      simp only [List.length_singleton] at this ⊢
      omega
  · rw [if_neg hshort, List.length_drop]
    have hpos : 0 < dir.length := List.length_pos_iff.2 fun h => hshort (Or.inl h)
    have := hlong.2
    refine iff_of_false ?_ hshort
    omega

/-- **The names that are given**, and whether there are as many bytes as the path had. -/
theorem browseLoop_eq {dir : Bytes} {paths : List Bytes} (hmem : dir ∉ paths)
    (hnul : ∀ path ∈ paths, 0 ∉ path) (lastpath : Option Bytes) :
    ∃ shown, browseLoop dir lastpath paths = some shown
      ∧ shown.map (·.1.name) = fresh lastpath (paths.filterMap (cutName dir))
      ∧ ∀ p ∈ shown, p.2 ≤ p.1.size ↔ dir = [] ∨ dir = [47] := by
  induction paths generalizing lastpath with
  | nil => exact ⟨[], rfl, rfl, by simp⟩
  | cons path paths ih =>
      rw [List.forall_mem_cons] at hnul
      rw [List.mem_cons, not_or] at hmem
      have hcheck := checkBrowsedir_eq (Ne.symm hmem.1) hnul.1 lastpath
      rw [browseLoop, hcheck]
      cases hcut : cutName dir path with
      | none =>
          obtain ⟨shown, hloop, hnames, hsizes⟩ := ih hmem.2 hnul.2 lastpath
          refine ⟨shown, ?_, ?_, hsizes⟩
          · simp [hloop]
          · rw [hnames, List.filterMap_cons_none hcut]
      | some name =>
          rw [List.filterMap_cons_some hcut, fresh]
          by_cases hlast : lastpath = some name
          · obtain ⟨shown, hloop, hnames, hsizes⟩ := ih hmem.2 hnul.2 lastpath
            refine ⟨shown, ?_, ?_, hsizes⟩
            · simp [hlast, ← hloop]
            · rw [hnames, if_pos hlast]
          · obtain ⟨shown, hloop, hnames, hsizes⟩ := ih hmem.2 hnul.2 (some name)
            refine ⟨(⟨name, (dupOf dir path).length + 1⟩, path.length) :: shown, ?_, ?_, ?_⟩
            · simp [hlast, hloop]
            · rw [if_neg hlast, List.map_cons, hnames]
            · rw [List.forall_mem_cons]
              exact ⟨dupOf_room hcut, hsizes⟩

/-! ## §4. The order of the children. -/

/-- The order of `pathcmp`. -/
def PathLe (a b : Bytes) : Prop := a.map charKey ≤ b.map charKey

theorem PathLe.refl (a : Bytes) : PathLe a a := le_refl (a.map charKey)

theorem PathLe.nil (a : Bytes) : PathLe [] a := by
  exact not_lt.1 (List.not_lt_nil _)

theorem not_pathLe_nil (c : UInt8) (a : Bytes) : ¬ PathLe (c :: a) [] :=
  not_le_of_gt (by simp : ([] : List Int) < (c :: a).map charKey)

instance : Std.Antisymm PathLe where
  antisymm _ _ h h' := List.map_injective_iff.mpr (fun _ _ => charKey_inj) (le_antisymm h h')

theorem pathLe_cons {c c' : UInt8} {a b : Bytes} :
    PathLe (c :: a) (c' :: b) ↔ charKey c < charKey c' ∨ charKey c = charKey c' ∧ PathLe a b :=
  cons_le_cons_iff'

theorem pathLe_of_sbufPathcmp {a b : Sbuf} {p q : Bytes} (ha : a.path = some p)
    (hb : b.path = some q) (h : sbufPathcmp a b ≤ 0) : PathLe p q := by
  have hcmp : pathcmp a.path b.path ≤ 0 := by
    unfold sbufPathcmp at h
    by_cases hne : pathcmp a.path b.path = 0
    · exact hne.le
    · simpa only [ne_eq, hne, not_false_eq_true, if_true] using h
  rw [not_pathcmp_pos_iff, ha, hb] at hcmp
  have hkeys : p.map charKey ≤ q.map charKey := by
    simpa [pathKey, cons_le_cons_iff'] using hcmp
  exact hkeys

/-- Nothing is below the slash. -/
theorem charKey_slash_lt {c : UInt8} (h : c ≠ 47) : charKey 47 < charKey c := by
  have := charVal_bounds c
  simp only [charKey, if_neg h, if_true]
  omega

theorem pathLe_append {d a b : Bytes} : PathLe (d ++ a) (d ++ b) ↔ PathLe a b := by
  induction d with
  | nil => rfl
  | cons c d ih =>
      rw [List.cons_append, List.cons_append, pathLe_cons, ih]
      simp

theorem component_cons {c : UInt8} (h : c ≠ 47) (r : Bytes) :
    component (c :: r) = c :: component r :=
  List.takeWhile_cons_of_pos (by simpa using h)

/-- What is before the slash is in the order of the whole. -/
theorem component_mono {a b : Bytes} (h : PathLe a b) : PathLe (component a) (component b) := by
  induction a generalizing b with
  | nil => exact PathLe.nil _
  | cons c a ih =>
      cases b with
      | nil => exact absurd h (not_pathLe_nil c a)
      | cons c' b =>
          by_cases hc : c = 47
          · have hcomp : component (c :: a) = [] :=
              List.takeWhile_cons_of_neg (by simpa using hc)
            rw [hcomp]
            exact PathLe.nil _
          · have hc' : c' ≠ 47 := by
              rintro rfl
              have := charKey_slash_lt hc
              rcases pathLe_cons.1 h with hlt | ⟨heq, -⟩ <;> omega
            rw [component_cons hc, component_cons hc', pathLe_cons]
            exact (pathLe_cons.1 h).imp_right fun h => ⟨h.1, ih h.2⟩

/-- The root is before everything else. -/
theorem pathLe_slash {n : Bytes} (h : n ≠ []) : PathLe [47] n := by
  cases n with
  | nil => exact absurd rfl h
  | cons c n =>
      rw [pathLe_cons]
      by_cases hc : c = 47
      · exact Or.inr ⟨by rw [hc], PathLe.nil n⟩
      · exact Or.inl (charKey_slash_lt hc)

theorem childName_ne_nil {dir path n : Bytes} (h : childName dir path = some n) : n ≠ [] := by
  unfold childName at h
  split_ifs at h with hroot hbelow
  · cases h
    exact List.cons_ne_nil _ _
  · cases h
    exact hbelow.2

/-- A child that is not the root is cut out behind the directory. -/
theorem childName_below {dir path n : Bytes} (h : childName dir path = some n)
    (hroot : ¬ (dir = [] ∧ path.head? = some 47)) :
    ∃ r, path = dirPrefix dir ++ r ∧ n = component r := by
  rw [childName, if_neg hroot] at h
  split_ifs at h with hbelow
  obtain ⟨r, rfl⟩ := List.isPrefixOf_iff_prefix.1 hbelow.1
  refine ⟨r, rfl, ?_⟩
  cases h
  rw [List.drop_left]

/-- **Children are in the order of their paths.** -/
theorem childName_mono {dir p q n n' : Bytes} (h : PathLe p q) (hp : childName dir p = some n)
    (hq : childName dir q = some n') : PathLe n n' := by
  by_cases hroot : dir = [] ∧ p.head? = some 47
  · -- the root is the least of the names
    have hn : n = [47] := by
      rw [childName, if_pos hroot] at hp
      exact (Option.some.inj hp).symm
    rw [hn]
    exact pathLe_slash (childName_ne_nil hq)
  · obtain ⟨a, rfl, rfl⟩ := childName_below hp hroot
    by_cases hroot' : dir = [] ∧ q.head? = some 47
    · -- a path without a slash in front is not before one with it
      obtain ⟨rfl, hhead⟩ := hroot'
      obtain ⟨q, rfl⟩ : ∃ t, q = 47 :: t := List.head?_eq_some_iff.1 hhead
      have hne := childName_ne_nil hp
      cases a with
      | nil => exact absurd rfl hne
      | cons c a =>
          have hc : c ≠ 47 := by
            rintro rfl
            exact hroot ⟨rfl, rfl⟩
          have hlt := charKey_slash_lt hc
          rcases pathLe_cons.1 h with hgt | ⟨heq, -⟩ <;> omega
    · obtain ⟨b, rfl, rfl⟩ := childName_below hq hroot'
      exact component_mono (pathLe_append.1 h)

theorem pairwise_children (dir : Bytes) {paths : List Bytes} (h : paths.Pairwise PathLe) :
    (paths.filterMap (childName dir)).Pairwise PathLe :=
  h.filterMap (childName dir) fun _ _ hle _ hn _ hn' => childName_mono hle hn hn'

/-- Nothing comes back in a list that is in order. -/
theorem nodup_destutter {l : List Bytes} (h : l.Pairwise PathLe) :
    (l.destutter (· ≠ ·)).Nodup := by
  rw [h.destutter_eq_dedup]
  exact l.nodup_dedup

/-! ## §5. What is shown, and what should be. -/

/-- It is the children that are cut out, and none comes back. -/
def NamesChildren (dir : Bytes) (paths : List Bytes) : Prop :=
  ((paths.filterMap (cutName dir)).destutter (· ≠ ·)).Nodup
    ∧ ∀ x, x ∈ paths.filterMap (cutName dir) ↔ x ∈ paths.filterMap (childName dir)

/-- Nothing is read behind the end, and the names are those of the children. -/
theorem showsChildren_browse {dir : Bytes} {paths : List Bytes} (hnul : ∀ path ∈ paths, 0 ∉ path) :
    ShowsChildren dir paths (browseManifest dir paths) ↔
      dir ∉ paths ∧ NamesChildren dir paths := by
  by_cases hmem : dir ∈ paths
  · have hnone : browseManifest dir paths = none := by
      rw [browseManifest, browseLoop_itself hmem hnul]
      rfl
    simp [ShowsChildren, hnone, hmem]
  · obtain ⟨shown, hloop, hnames, -⟩ := browseLoop_eq hmem hnul none
    have hsome : browseManifest dir paths
        = some ((paths.filterMap (cutName dir)).destutter (· ≠ ·)) := by
      rw [browseManifest, hloop, ← fresh_eq_destutter, ← hnames]
      rfl
    constructor
    · rintro ⟨ns, hns, hnodup, hiff⟩
      obtain rfl := Option.some.inj (hsome.symm.trans hns)
      refine ⟨hmem, hnodup, fun x => ?_⟩
      rw [← mem_destutter, hiff, List.mem_filterMap]
    · rintro ⟨-, hnodup, hiff⟩
      refine ⟨_, hsome, hnodup, fun x => ?_⟩
      rw [mem_destutter, hiff, List.mem_filterMap]

/-- The listing for a client shows the same, when there are as many bytes as the paths had. -/
theorem showsChildren_list {dir : Bytes} {paths : List Bytes} (hnul : ∀ path ∈ paths, 0 ∉ path) :
    ShowsChildren dir paths (listManifest dir paths) ↔
      ShowsChildren dir paths (browseManifest dir paths)
        ∧ (dir = [] ∨ dir = [47] ∨ paths.filterMap (childName dir) = []) := by
  by_cases hmem : dir ∈ paths
  · have hloop := browseLoop_itself hmem hnul none
    simp [ShowsChildren, listManifest, browseManifest, hloop]
  · obtain ⟨shown, hloop, hnames, hsizes⟩ := browseLoop_eq hmem hnul none
    have hbrowse : browseManifest dir paths = some (shown.map (·.1.name)) := by
      rw [browseManifest, hloop]
      rfl
    have hlist : listManifest dir paths
        = if ∀ p ∈ shown, p.2 ≤ p.1.size then some (shown.map (·.1.name)) else none := by
      rw [listManifest, hloop]
      rfl
    rw [hlist, hbrowse]
    by_cases hshort : dir = [] ∨ dir = [47]
    · have hroom : ∀ p ∈ shown, p.2 ≤ p.1.size := fun p hp => (hsizes p hp).2 hshort
      rw [if_pos hroom, ← or_assoc, and_iff_left (Or.inl hshort)]
    · -- every name is sent with more bytes than it has
      rw [← or_assoc, or_iff_right hshort]
      cases shown with
      | nil =>
          rw [if_pos (List.forall_mem_nil _)]
          refine (and_iff_left_of_imp ?_).symm
          rintro ⟨ns, hns, -, hiff⟩
          obtain rfl := Option.some.inj hns
          refine List.eq_nil_iff_forall_not_mem.2 fun x hx => ?_
          exact List.not_mem_nil ((hiff x).2 (List.mem_filterMap.1 hx))
      | cons p shown =>
          have hroom : ¬ ∀ p' ∈ p :: shown, p'.2 ≤ p'.1.size := fun h =>
            hshort ((hsizes p List.mem_cons_self).1 (h p List.mem_cons_self))
          rw [if_neg hroom]
          refine iff_of_false (by simp [ShowsChildren]) ?_
          rintro ⟨⟨ns, hns, -, hiff⟩, hnil⟩
          obtain rfl := Option.some.inj hns
          have hx := List.mem_filterMap.2 ((hiff p.1.name).1 List.mem_cons_self)
          rw [hnil] at hx
          exact List.not_mem_nil hx

section Names

variable {dir : Bytes} {paths : List Bytes}

theorem NamesChildren.child (h : NamesChildren dir paths) {path n : Bytes} (hpath : path ∈ paths)
    (hcut : cutName dir path = some n) : ∃ q ∈ paths, childName dir q = some n :=
  List.mem_filterMap.1 ((h.2 n).1 (List.mem_filterMap.2 ⟨path, hpath, hcut⟩))

theorem NamesChildren.cut (h : NamesChildren dir paths) {path n : Bytes} (hpath : path ∈ paths)
    (hchild : childName dir path = some n) : ∃ q ∈ paths, cutName dir q = some n :=
  List.mem_filterMap.1 ((h.2 n).2 (List.mem_filterMap.2 ⟨path, hpath, hchild⟩))

/-- Where only children are cut out, and each of them, none comes back. -/
theorem namesChildren_of (hsorted : paths.Pairwise PathLe)
    (hcut : ∀ path ∈ paths, ∀ n, cutName dir path = some n → childName dir path = some n)
    (hchild : ∀ path ∈ paths, ∀ n, childName dir path = some n →
      ∃ q ∈ paths, cutName dir q = some n) : NamesChildren dir paths := by
  have hmono : paths.Pairwise fun p q => ∀ n, cutName dir p = some n →
      ∀ n', cutName dir q = some n' → PathLe n n' := by
    refine hsorted.imp_of_mem fun hp hq hle n hn n' hn' => ?_
    exact childName_mono hle (hcut _ hp n hn) (hcut _ hq n' hn')
  refine ⟨nodup_destutter (hmono.filterMap (cutName dir) fun _ _ h => h), fun n => ?_⟩
  rw [List.mem_filterMap, List.mem_filterMap]
  constructor
  · rintro ⟨path, hpath, hn⟩
    exact ⟨path, hpath, hcut path hpath n hn⟩
  · rintro ⟨path, hpath, hn⟩
    exact hchild path hpath n hn

end Names

/-! ## §6. The top level. -/

/-- A path without a slash in front is a name or is on a drive, and a path of one character is
the root, with something in it. -/
def TopBrowsable (paths : List Bytes) : Prop :=
  (∀ path ∈ paths, path.head? ≠ some 47 → 47 ∈ path → path[1]? = some 58 ∧ path[2]? = some 47)
    ∧ ∀ c, [c] ∈ paths → c = 47 ∧ ∃ path ∈ paths, path.head? = some 47 ∧ 1 < path.length

theorem cutName_top (path : Bytes) :
    cutName [] path = if 1 < path.length then some (copyOf [] path) else none := by
  simp [cutName]

theorem childName_top {path : Bytes} (h : path.head? ≠ some 47) (hne : path ≠ []) :
    childName [] path = some (component path) := by
  cases path with
  | nil => exact absurd rfl hne
  | cons c path =>
      have hc : c ≠ 47 := fun hc => h (by rw [hc, List.head?_cons])
      simp [childName, dirPrefix, hc, component_cons hc]

theorem component_eq_self {path : Bytes} (h : 47 ∉ path) : component path = path :=
  List.takeWhile_eq_self_iff.2 fun x hx => by
    simpa using fun hx47 : x = 47 => h (hx47 ▸ hx)

theorem slash_notMem_component (path : Bytes) : 47 ∉ component path := fun h => by
  simpa using List.mem_takeWhile_imp h

/-- A path on a drive is cut behind the colon. -/
theorem copyOf_drive {path : Bytes} (h : path.head? ≠ some 47)
    (hdrive : path[1]? = some 58 ∧ path[2]? = some 47) : copyOf [] path = component path := by
  have hdup : dupOf [] path = path := by simp [dupOf]
  simp only [copyOf, hdup, if_true, if_neg h]
  match path, h, hdrive with
  | a :: b :: c :: path, h, hdrive =>
      have ha : a ≠ 47 := fun ha => h (by rw [ha, List.head?_cons])
      simp only [List.getElem?_cons_succ, List.getElem?_cons_zero, Option.some.injEq] at hdrive
      obtain ⟨rfl, rfl⟩ := hdrive
      simp [component, ha]

/-- Any other path that does not begin with a slash is not cut. -/
theorem copyOf_whole {path : Bytes} (h : path.head? ≠ some 47)
    (hdrive : ¬ (path[1]? = some 58 ∧ path[2]? = some 47)) : copyOf [] path = path := by
  have hdup : dupOf [] path = path := by simp [dupOf]
  simp only [copyOf, hdup, if_true, if_neg h]
  rw [if_neg fun h => hdrive h.2]

theorem copyOf_slash (path : Bytes) : copyOf [] (47 :: path) = [47] := by
  simp [copyOf, dupOf]

/-- What is cut out at the top level, of paths that have a name or a drive in front. -/
theorem cutName_eq_childName_top {path : Bytes} (hlong : 1 < path.length)
    (hfront : path.head? ≠ some 47 → 47 ∈ path → path[1]? = some 58 ∧ path[2]? = some 47) :
    cutName [] path = childName [] path := by
  rw [cutName_top, if_pos hlong]
  by_cases hhead : path.head? = some 47
  · obtain ⟨r, rfl⟩ := List.head?_eq_some_iff.1 hhead
    rw [copyOf_slash, childName, if_pos ⟨rfl, hhead⟩]
  · have hne : path ≠ [] := List.ne_nil_of_length_pos (by omega)
    rw [childName_top hhead hne]
    by_cases hdrive : path[1]? = some 58 ∧ path[2]? = some 47
    · rw [copyOf_drive hhead hdrive]
    · rw [copyOf_whole hhead hdrive, component_eq_self fun hmem => hdrive (hfront hhead hmem)]

/-- Only the root is cut to one character. -/
theorem eq_slash_of_copyOf {path : Bytes} {c : UInt8} (hlong : 1 < path.length)
    (h : copyOf [] path = [c]) : c = 47 ∧ path.head? = some 47 := by
  by_cases hhead : path.head? = some 47
  · obtain ⟨r, rfl⟩ := List.head?_eq_some_iff.1 hhead
    rw [copyOf_slash] at h
    exact ⟨(List.singleton_inj.1 h).symm, hhead⟩
  · exfalso
    by_cases hdrive : path[1]? = some 58 ∧ path[2]? = some 47
    · match path, hdrive, hhead, h with
      | a :: b :: path, hdrive, hhead, h =>
          have ha : a ≠ 47 := by simpa using hhead
          have hb : b = 58 := by simpa using hdrive.1
          rw [copyOf_drive hhead hdrive, hb] at h
          simp [component, ha] at h
    · rw [copyOf_whole hhead hdrive] at h
      rw [h] at hlong
      simp at hlong

theorem topBrowsable_of_names {paths : List Bytes} (hempty : [] ∉ paths)
    (h : NamesChildren [] paths) : TopBrowsable paths := by
  refine ⟨fun path hpath hhead hslash => ?_, fun c hc => ?_⟩
  · -- the whole path is shown, and no child has a slash in its name
    by_contra hdrive
    have hlong : 1 < path.length := by
      match path, hhead, hslash with
      | [c], hhead, hslash =>
          rw [List.mem_singleton] at hslash
          exact absurd (by rw [← hslash, List.head?_cons]) hhead
      | _ :: _ :: _, _, _ => simp
    have hcut : cutName [] path = some path := by
      rw [cutName_top, if_pos hlong, copyOf_whole hhead hdrive]
    obtain ⟨q, hq, hchild⟩ := h.child hpath hcut
    by_cases hqhead : q.head? = some 47
    · rw [childName, if_pos ⟨rfl, hqhead⟩] at hchild
      cases hchild
      exact hhead rfl
    · have hqne : q ≠ [] := fun h => hempty (h ▸ hq)
      rw [childName_top hqhead hqne] at hchild
      cases hchild
      exact slash_notMem_component q hslash
  · have hchild : childName [] [c] = some [c] := by
      by_cases h47 : c = 47
      · rw [h47]
        rfl
      · rw [childName_top (by simpa using h47) (List.cons_ne_nil _ _),
          component_eq_self (by simpa using Ne.symm h47)]
    obtain ⟨q, hq, hcut⟩ := h.cut hc hchild
    rw [cutName_top] at hcut
    split_ifs at hcut with hlong
    obtain ⟨rfl, hqhead⟩ := eq_slash_of_copyOf hlong (Option.some.inj hcut)
    exact ⟨rfl, q, hq, hqhead, hlong⟩

theorem names_of_topBrowsable {paths : List Bytes} (hempty : [] ∉ paths)
    (hsorted : paths.Pairwise PathLe) (h : TopBrowsable paths) : NamesChildren [] paths := by
  obtain ⟨hfront, hsingle⟩ := h
  have hcut : ∀ path ∈ paths, ∀ n, cutName [] path = some n → childName [] path = some n := by
    intro path hpath n hn
    have hlong : 1 < path.length := by
      rw [cutName_top] at hn
      split_ifs at hn with hlong
      exact hlong
    rw [← cutName_eq_childName_top hlong (hfront path hpath), hn]
  refine namesChildren_of hsorted hcut fun path hpath n hn => ?_
  by_cases hlong : 1 < path.length
  · exact ⟨path, hpath, by rw [cutName_eq_childName_top hlong (hfront path hpath), hn]⟩
  · match path, hpath, hn, hlong with
    | [], hpath, _, _ => exact absurd hpath hempty
    | [c], hpath, hn, _ =>
        obtain ⟨rfl, q, hq, hqhead, hqlong⟩ := hsingle c hpath
        refine ⟨q, hq, ?_⟩
        rw [cutName_eq_childName_top hqlong (hfront q hq), childName, if_pos ⟨rfl, hqhead⟩]
        exact hn
    | _ :: _ :: _, _, _, hlong => exact absurd (by simp) hlong

/-! ## §7. The root. -/

/-- No path has two slashes in front, and a name of one character has something in it. -/
def RootBrowsable (paths : List Bytes) : Prop :=
  (∀ r, r ≠ [] → 47 :: 47 :: r ∉ paths)
    ∧ ∀ c, c ≠ 47 → [47, c] ∈ paths → ∃ r, 47 :: c :: 47 :: r ∈ paths

theorem slash_notMem_childName {dir path n : Bytes} (hdir : dir ≠ [])
    (h : childName dir path = some n) : 47 ∉ n := by
  obtain ⟨r, -, rfl⟩ := childName_below h fun hroot => hdir hroot.1
  exact slash_notMem_component r

theorem cutName_root (c : UInt8) (r : Bytes) :
    cutName [47] (47 :: c :: r) = if r = [] then none else some (c :: component r) := by
  cases r with
  | nil => simp [cutName]
  | cons d r => simp [cutName, copyOf, dupOf, component]

theorem childName_root (c : UInt8) (r : Bytes) :
    childName [47] (47 :: c :: r) = if c = 47 then none else some (c :: component r) := by
  by_cases hc : c = 47
  · simp [childName, dirPrefix, component, hc]
  · simp [childName, dirPrefix, component_cons hc, hc]

/-- What is cut out, or is a child, is below the root. -/
theorem below_root {path : Bytes}
    (h : cutName [47] path ≠ none ∨ childName [47] path ≠ none) :
    ∃ c r, path = 47 :: c :: r := by
  have hslash : [47].isPrefixOf path = true := by
    by_contra hslash
    simp [cutName, childName, dirPrefix, hslash] at h
  obtain ⟨r, rfl⟩ := List.isPrefixOf_iff_prefix.1 hslash
  cases r with
  | nil => simp [cutName, childName, dirPrefix, component] at h
  | cons c r => exact ⟨c, r, rfl⟩

theorem rootBrowsable_of_names {paths : List Bytes} (h : NamesChildren [47] paths) :
    RootBrowsable paths := by
  refine ⟨fun r hr hmem => ?_, fun c hc hmem => ?_⟩
  · -- the name is shown with the second slash in front
    have hcut := cutName_root 47 r
    rw [if_neg hr] at hcut
    obtain ⟨q, -, hchild⟩ := h.child hmem hcut
    exact slash_notMem_childName (List.cons_ne_nil _ _) hchild List.mem_cons_self
  · -- the child is passed over, and has to be shown for another path
    have hchild := childName_root c []
    rw [if_neg hc] at hchild
    obtain ⟨q, hq, hcut⟩ := h.cut hmem hchild
    obtain ⟨d, r, rfl⟩ := below_root (Or.inl (by rw [hcut]; simp))
    rw [cutName_root] at hcut
    split_ifs at hcut with hr
    have hname := Option.some.inj hcut
    rw [List.cons.injEq] at hname
    cases r with
    | nil => exact absurd rfl hr
    | cons e r =>
        have he : e = 47 := by
          by_contra he
          rw [component_cons he] at hname
          exact List.cons_ne_nil _ _ hname.2
        rw [he, hname.1] at hq
        exact ⟨r, hq⟩

theorem names_of_rootBrowsable {paths : List Bytes} (hsorted : paths.Pairwise PathLe)
    (h : RootBrowsable paths) : NamesChildren [47] paths := by
  obtain ⟨hslashes, hsingle⟩ := h
  have hcut : ∀ path ∈ paths, ∀ n,
      cutName [47] path = some n → childName [47] path = some n := by
    intro path hpath n hn
    obtain ⟨c, r, rfl⟩ := below_root (Or.inl (by rw [hn]; simp))
    rw [cutName_root] at hn
    split_ifs at hn with hr
    have hc : c ≠ 47 := by
      rintro rfl
      exact hslashes r hr hpath
    rw [childName_root, if_neg hc, hn]
  refine namesChildren_of hsorted hcut fun path hpath n hn => ?_
  obtain ⟨c, r, rfl⟩ := below_root (Or.inr (by rw [hn]; simp))
  rw [childName_root] at hn
  split_ifs at hn with hc
  by_cases hr : r = []
  · subst hr
    obtain ⟨r, hmem⟩ := hsingle c hc hpath
    refine ⟨_, hmem, ?_⟩
    rw [cutName_root, if_neg (List.cons_ne_nil _ _)]
    exact hn
  · exact ⟨_, hpath, by rw [cutName_root, if_neg hr, hn]⟩

/-! ## §8. A directory below. -/

/-- No path has two slashes behind the directory, and whatever stands behind the directory
without a slash has the name of the last child behind its first character. -/
def BelowBrowsable (dir : Bytes) (paths : List Bytes) : Prop :=
  (∀ r, dir ++ 47 :: 47 :: r ∉ paths)
    ∧ ∀ c r, c ≠ 47 → r ≠ [] → dir ++ c :: r ∈ paths →
        (paths.filterMap (childName dir)).getLast? = some (component r)

section Below

variable {dir : Bytes}

theorem cutName_below (hdir : dir ≠ []) (hroot : dir ≠ [47]) (c : UInt8) (r : Bytes) :
    cutName dir (dir ++ c :: r) = if r = [] then none else some (component r) := by
  have hdup : dupOf dir (dir ++ c :: r) = r := by
    simp [dupOf, hdir, hroot]
  cases r with
  | nil => simp [cutName]
  | cons d r => simp [cutName, copyOf, hdup, hdir, hroot, component]

theorem childName_of_slash (hdir : dir ≠ []) (hroot : dir ≠ [47]) (r : Bytes) :
    childName dir (dir ++ 47 :: r)
      = if component r = [] then none else some (component r) := by
  have hdirPrefix : dirPrefix dir = dir ++ [47] := if_neg (not_or.2 ⟨hdir, hroot⟩)
  have hsplit : dir ++ 47 :: r = (dir ++ [47]) ++ r := by simp
  rw [childName, if_neg fun h => hdir h.1, hdirPrefix, hsplit, List.drop_left]
  by_cases hr : component r = []
  · rw [if_pos hr, if_neg fun h => h.2 hr]
  · rw [if_neg hr, if_pos ⟨List.isPrefixOf_iff_prefix.2 (List.prefix_append _ _), hr⟩]

/-- What is below the directory comes behind a slash. -/
theorem exists_of_childName (hdir : dir ≠ []) (hroot : dir ≠ [47]) {path n : Bytes}
    (h : childName dir path = some n) : ∃ r, path = dir ++ 47 :: r ∧ n = component r := by
  obtain ⟨r, rfl, hn⟩ := childName_below h fun htop => hdir htop.1
  have hdirPrefix : dirPrefix dir = dir ++ [47] := if_neg (not_or.2 ⟨hdir, hroot⟩)
  exact ⟨r, by simp [hdirPrefix], hn⟩

theorem exists_of_cutName {path n : Bytes} (h : cutName dir path = some n) :
    ∃ c r, r ≠ [] ∧ path = dir ++ c :: r := by
  unfold cutName at h
  split_ifs at h with hlong
  obtain ⟨t, rfl⟩ := List.isPrefixOf_iff_prefix.1 hlong.1
  match t, hlong with
  | [], hlong => exact absurd hlong.2 (by simp)
  | [c], hlong => exact absurd hlong.2 (by simp)
  | c :: d :: r, _ => exact ⟨c, d :: r, List.cons_ne_nil _ _, rfl⟩

/-- What is cut out of a path that is not below the directory. -/
def strayName (dir path : Bytes) : Option Bytes :=
  if (dir ++ [47]).isPrefixOf path then none else cutName dir path

theorem strayName_eq_some (hdir : dir ≠ []) (hroot : dir ≠ [47]) {path n : Bytes} :
    strayName dir path = some n ↔
      ∃ c r, c ≠ 47 ∧ r ≠ [] ∧ path = dir ++ c :: r ∧ n = component r := by
  have hslash (c : UInt8) (r : Bytes) :
      (dir ++ [47]).isPrefixOf (dir ++ c :: r) = true ↔ c = 47 := by
    rw [List.isPrefixOf_iff_prefix, List.prefix_append_right_inj, List.cons_prefix_cons]
    simp [eq_comm]
  constructor
  · intro h
    unfold strayName at h
    split_ifs at h with hbelow
    obtain ⟨c, r, hr, rfl⟩ := exists_of_cutName h
    rw [cutName_below hdir hroot, if_neg hr] at h
    exact ⟨c, r, fun hc => hbelow ((hslash c r).2 hc), hr, rfl, (Option.some.inj h).symm⟩
  · rintro ⟨c, r, hc, hr, rfl, rfl⟩
    rw [strayName, if_neg fun h => hc ((hslash c r).1 h), cutName_below hdir hroot, if_neg hr]

/-- Behind a slash it is the child that is cut out, and behind anything else it is not. -/
theorem cutName_split (hdir : dir ≠ []) (hroot : dir ≠ [47]) {path : Bytes}
    (hslashes : ∀ r, path ≠ dir ++ 47 :: 47 :: r) :
    cutName dir path = childName dir path ∧ strayName dir path = none
      ∨ childName dir path = none ∧ cutName dir path = strayName dir path := by
  by_cases hbelow : (dir ++ [47]).isPrefixOf path = true
  · left
    refine ⟨?_, if_pos hbelow⟩
    obtain ⟨r, rfl⟩ := List.isPrefixOf_iff_prefix.1 hbelow
    rw [List.append_assoc, List.singleton_append] at hslashes ⊢
    rw [cutName_below hdir hroot, childName_of_slash hdir hroot]
    cases r with
    | nil => rfl
    | cons c r =>
        have hc : c ≠ 47 := by
          rintro rfl
          exact hslashes r rfl
        rw [component_cons hc, if_neg (List.cons_ne_nil _ _), if_neg (List.cons_ne_nil _ _)]
  · right
    refine ⟨?_, (if_neg hbelow).symm⟩
    rw [Option.eq_none_iff_forall_ne_some]
    intro n hn
    obtain ⟨r, rfl, -⟩ := exists_of_childName hdir hroot hn
    exact hbelow (List.isPrefixOf_iff_prefix.2 ⟨r, by simp⟩)

/-- Nothing below the directory comes after what is not below it. -/
theorem childName_after (hdir : dir ≠ []) (hroot : dir ≠ [47]) {p q n : Bytes}
    (h : PathLe p q) (hp : strayName dir p = some n) : childName dir q = none := by
  obtain ⟨c, r, hc, -, rfl, -⟩ := (strayName_eq_some hdir hroot).1 hp
  rw [Option.eq_none_iff_forall_ne_some]
  intro n' hq
  obtain ⟨r', rfl, -⟩ := exists_of_childName hdir hroot hq
  have hlt := charKey_slash_lt hc
  rcases pathLe_cons.1 (pathLe_append.1 h) with hgt | ⟨heq, -⟩ <;> omega

/-- First the children are cut out, and then what is not below the directory. -/
theorem filterMap_cutName (hdir : dir ≠ []) (hroot : dir ≠ [47]) {paths : List Bytes}
    (hsorted : paths.Pairwise PathLe) (hslashes : ∀ r, dir ++ 47 :: 47 :: r ∉ paths) :
    paths.filterMap (cutName dir)
      = paths.filterMap (childName dir) ++ paths.filterMap (strayName dir) := by
  induction paths with
  | nil => rfl
  | cons path paths ih =>
      rw [List.pairwise_cons] at hsorted
      have hrest := ih hsorted.2 fun r h => hslashes r (List.mem_cons_of_mem _ h)
      have hpath : ∀ r, path ≠ dir ++ 47 :: 47 :: r := fun r h =>
        hslashes r (by rw [h]; exact List.mem_cons_self)
      rcases cutName_split hdir hroot hpath with ⟨hcut, hstray⟩ | ⟨hchild, hcut⟩
      · rw [List.filterMap_cons, List.filterMap_cons, List.filterMap_cons_none hstray, hcut, hrest]
        cases childName dir path <;> rfl
      · rw [List.filterMap_cons_none hchild, List.filterMap_cons, hcut, hrest]
        cases hstray : strayName dir path with
        | none => rw [List.filterMap_cons_none hstray]
        | some n =>
            have hnil : paths.filterMap (childName dir) = [] := by
              rw [List.filterMap_eq_nil_iff]
              exact fun q hq => childName_after hdir hroot (hsorted.1 q hq) hstray
            rw [List.filterMap_cons_some hstray, hnil, List.nil_append, List.nil_append]

theorem pathLe_getLast {l : List Bytes} {a b : Bytes} (h : l.Pairwise PathLe)
    (hlast : l.getLast? = some b) (ha : a ∈ l) : PathLe a b := by
  obtain ⟨l, rfl⟩ := List.getLast?_eq_some_iff.1 hlast
  rcases List.mem_append.1 ha with ha | ha
  · exact (List.pairwise_append.1 h).2.2 a ha b (List.mem_singleton_self b)
  · rw [List.mem_singleton.1 ha]
    exact PathLe.refl b

theorem belowBrowsable_of_names (hdir : dir ≠ []) (hroot : dir ≠ [47]) {paths : List Bytes}
    (hsorted : paths.Pairwise PathLe) (h : NamesChildren dir paths) :
    BelowBrowsable dir paths := by
  have hslashes : ∀ r, dir ++ 47 :: 47 :: r ∉ paths := by
    intro r hmem
    -- an empty name is shown
    have hcut : cutName dir (dir ++ 47 :: 47 :: r) = some [] := by
      rw [cutName_below hdir hroot, if_neg (List.cons_ne_nil _ _)]
      rfl
    obtain ⟨q, -, hchild⟩ := h.child hmem hcut
    exact childName_ne_nil hchild rfl
  refine ⟨hslashes, fun c r hc hr hmem => ?_⟩
  have hstray : component r ∈ paths.filterMap (strayName dir) :=
    List.mem_filterMap.2
      ⟨_, hmem, (strayName_eq_some hdir hroot).2 ⟨c, r, hc, hr, rfl, rfl⟩⟩
  obtain ⟨hnodup, hiff⟩ := h
  rw [filterMap_cutName hdir hroot hsorted hslashes] at hnodup hiff
  have hchild := (hiff (component r)).1 (List.mem_append_right _ hstray)
  obtain ⟨last, hlast⟩ : ∃ last, (paths.filterMap (childName dir)).getLast? = some last :=
    ⟨_, List.getLast?_eq_some_getLast (List.ne_nil_of_mem hchild)⟩
  rw [hlast, Option.some.injEq]
  -- the name of the last child stands between the two
  by_contra hne
  obtain ⟨init, hinit⟩ := List.getLast?_eq_some_iff.1 hlast
  have hbefore : component r ∈ init := by
    rw [hinit, List.mem_append, List.mem_singleton] at hchild
    exact hchild.resolve_right fun h => hne h.symm
  have hsub : [component r, last, component r].Sublist
      (paths.filterMap (childName dir) ++ paths.filterMap (strayName dir)) := by
    rw [hinit]
    exact ((List.singleton_sublist.2 hbefore).append (List.Sublist.refl [last])).append
      (List.singleton_sublist.2 hstray)
  exact hne (eq_of_nodup_destutter hnodup hsub)

theorem names_of_belowBrowsable (hdir : dir ≠ []) (hroot : dir ≠ [47]) {paths : List Bytes}
    (hsorted : paths.Pairwise PathLe) (h : BelowBrowsable dir paths) :
    NamesChildren dir paths := by
  obtain ⟨hslashes, hlast⟩ := h
  have hstray : ∀ n ∈ paths.filterMap (strayName dir),
      (paths.filterMap (childName dir)).getLast? = some n := by
    intro n hn
    obtain ⟨path, hpath, hn⟩ := List.mem_filterMap.1 hn
    obtain ⟨c, r, hc, hr, rfl, rfl⟩ := (strayName_eq_some hdir hroot).1 hn
    exact hlast c r hc hr hpath
  have hchildren := pairwise_children dir hsorted
  rw [NamesChildren, filterMap_cutName hdir hroot hsorted hslashes]
  refine ⟨nodup_destutter (List.pairwise_append.2 ⟨hchildren, ?_, ?_⟩), fun x => ?_⟩
  · refine List.pairwise_of_forall_mem_list fun a ha b hb => ?_
    have hab := (hstray a ha).symm.trans (hstray b hb)
    rw [Option.some.inj hab]
    exact PathLe.refl b
  · exact fun a ha b hb => pathLe_getLast hchildren (hstray b hb) ha
  · rw [List.mem_append, or_iff_left_of_imp]
    exact fun hx => List.mem_of_getLast? (hstray x hx)

end Below

/-! ## §9. The result. -/

theorem Listing.zero_notMem (m : Listing) : ∀ path ∈ m.paths, 0 ∉ path := by
  intro path hpath
  obtain ⟨sb, hsb, rfl⟩ := List.mem_map.1 hpath
  obtain ⟨path, hpath, hnul⟩ := m.named sb hsb
  rw [hpath]
  exact hnul

theorem Listing.pairwise (m : Listing) : m.paths.Pairwise PathLe := by
  refine List.Pairwise.map _ (fun _ _ h => h) (m.sorted.imp_of_mem fun ha hb hle => ?_)
  obtain ⟨p, hp, -⟩ := m.named _ ha
  obtain ⟨q, hq, -⟩ := m.named _ hb
  rw [hp, hq]
  exact pathLe_of_sbufPathcmp hp hq hle

/-- When a directory can be browsed: no path is the directory itself, and what is not a child
does not show. -/
def Browsable (dir : Bytes) (paths : List Bytes) : Prop :=
  dir ∉ paths
    ∧ if dir = [] then TopBrowsable paths
      else if dir = [47] then RootBrowsable paths
      else BelowBrowsable dir paths

theorem showsChildren_iff (dir : Bytes) (m : Listing) :
    ShowsChildren dir m.paths (browseManifest dir m.paths) ↔ Browsable dir m.paths := by
  rw [showsChildren_browse m.zero_notMem, Browsable]
  refine and_congr_right fun hmem => ?_
  by_cases htop : dir = []
  · subst htop
    rw [if_pos rfl]
    exact ⟨topBrowsable_of_names hmem, names_of_topBrowsable hmem m.pairwise⟩
  · by_cases hroot : dir = [47]
    · subst hroot
      rw [if_neg htop, if_pos rfl]
      exact ⟨rootBrowsable_of_names, names_of_rootBrowsable m.pairwise⟩
    · rw [if_neg htop, if_neg hroot]
      exact ⟨belowBrowsable_of_names htop hroot m.pairwise,
        names_of_belowBrowsable htop hroot m.pairwise⟩

/-- **When the children of a directory are shown**, by the status server and by the listing for
a client. -/
theorem browse_iff (dir : BrowseDir) (m : Listing) :
    (ShowsChildren dir.text m.paths (browseManifest dir.text m.paths)
        ↔ Browsable dir.text m.paths)
      ∧ (ShowsChildren dir.text m.paths (listManifest dir.text m.paths)
        ↔ Browsable dir.text m.paths
          ∧ (dir.text = [] ∨ dir.text = [47]
            ∨ m.paths.filterMap (childName dir.text) = [])) := by
  refine ⟨showsChildren_iff dir.text m, ?_⟩
  rw [showsChildren_list m.zero_notMem, showsChildren_iff]

/-- `/a`, of which there is the entry itself, and `/a.b` beside it. -/
def besideDir : BrowseDir := ⟨[47, 97], by decide, by decide⟩

def itselfListing : Listing where
  entries := [{ cmd := .directory, path := some [47, 97] }]
  named := by simp
  sorted := List.pairwise_singleton _ _

def besideListing : Listing where
  entries := [{ path := some [47, 97, 46, 98] }]
  named := by simp
  sorted := List.pairwise_singleton _ _

/-- The entry of the directory is read behind its end, and what is beside the directory is shown
in it, as `b`. -/
theorem browse_beside :
    browseManifest besideDir.text itselfListing.paths = none
      ∧ ¬ ShowsChildren besideDir.text itselfListing.paths
          (browseManifest besideDir.text itselfListing.paths)
      ∧ browseManifest besideDir.text besideListing.paths = some [[98]]
      ∧ ¬ ShowsChildren besideDir.text besideListing.paths
          (browseManifest besideDir.text besideListing.paths) := by
  have hitself : browseManifest besideDir.text itselfListing.paths = none := by
    decide
  have hbeside : browseManifest besideDir.text besideListing.paths = some [[98]] := by
    decide
  refine ⟨hitself, ?_, hbeside, ?_⟩
  · rw [hitself]
    rintro ⟨_, h, -⟩
    cases h
  · rw [hbeside]
    rintro ⟨ns, hns, -, hiff⟩
    obtain rfl := Option.some.inj hns
    obtain ⟨path, hpath, hchild⟩ := (hiff [98]).1 List.mem_cons_self
    have hnone : ∀ path ∈ besideListing.paths, childName besideDir.text path = none := by
      decide
    rw [hnone path hpath] at hchild
    cases hchild

end Burp.Status
