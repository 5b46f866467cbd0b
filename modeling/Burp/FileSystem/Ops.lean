/-
  Burp.FileSystem.Ops — system calls on the tree.

  Each call is one operation of a `Crash.Prog`, so a program can be killed before and
  after it but not inside.  Calls report failure as the C library does, by their result, and
  leave the tree alone then.  A whole file is written by opening it, which truncates it,
  and then appending pieces; a kill in between leaves a prefix.

  Main results:
    * `unlink_file`, `link_file`, `rename_file`, `mkdir_absent` — each call that succeeds
      is a point update of the flat view.
    * `writeFile_spec` — writing a scratch file touches nothing else, whenever it is killed.
-/
import Burp.Crash.Prog
import Burp.FileSystem.Tree

namespace FileSystem

open Crash

/-! ## §1. The calls. -/

def mkdirAt (p : Path) (t : Node) : Node × Bool :=
  if look t p = none ∧ IsDir t p.dropLast then (t.put p (some (.dir [])), true) else (t, false)

def unlinkAt (p : Path) (t : Node) : Node × Bool :=
  match look t p with
  | some (.file _ _) => (t.put p none, true)
  | some (.symlink _) => (t.put p none, true)
  | _ => (t, false)

def rmdirAt (p : Path) (t : Node) : Node × Bool :=
  match t.get p with
  | some (.dir []) => (t.put p none, true)
  | _ => (t, false)

def linkAt (o q : Path) (t : Node) : Node × Bool :=
  if look t q = none ∧ IsDir t q.dropLast then
    match t.get o with
    | some (.file i d) => (t.put q (some (.file i d)), true)
    | some (.symlink s) => (t.put q (some (.symlink s)), true)
    | _ => (t, false)
  else (t, false)

/-- `rename`.  A directory replaces nothing or an empty directory and cannot move below
itself, anything else replaces anything but a directory; two links of one file stay. -/
def renameAt (o q : Path) (t : Node) : Node × Bool :=
  match t.get o with
  | none => (t, false)
  | some n =>
      if o = q then (t, true)
      else if ¬ IsDir t q.dropLast then (t, false)
      else
        match n, t.get q with
        | .dir _, none =>
            if o <+: q then (t, false) else ((t.put o none).put q (some n), true)
        | .dir _, some (.dir []) =>
            if o <+: q then (t, false) else ((t.put o none).put q (some n), true)
        | .dir _, some _ => (t, false)
        | _, some (.dir _) => (t, false)
        | .file i _, some (.file j _) =>
            if i = j then (t, true) else ((t.put o none).put q (some n), true)
        | _, _ => ((t.put o none).put q (some n), true)

/-- Apply `f` to the bytes of one inode. -/
def onInode (i : Nat) (f : Bytes → Bytes) (t : Node) : Node :=
  t.mapData fun j d => if j = i then f d else d

/-- `open` for writing, truncating (`wb`) or not (`ab`); the result is the inode. -/
def openAt (trunc : Bool) (p : Path) (t : Node) : Node × Option Nat :=
  match look t p with
  | some (.file i _) => (if trunc then onInode i (fun _ => []) t else t, some i)
  | none =>
      if IsDir t p.dropLast then
        (t.put p (some (.file (freshIno t) [])), some (freshIno t))
      else (t, none)
  | _ => (t, none)

def mkdir (p : Path) : Prog Node Bool := .op (mkdirAt p)
def unlink (p : Path) : Prog Node Bool := .op (unlinkAt p)
def rmdir (p : Path) : Prog Node Bool := .op (rmdirAt p)
def link (o q : Path) : Prog Node Bool := .op (linkAt o q)
def rename (o q : Path) : Prog Node Bool := .op (renameAt o q)
def openWrite (p : Path) : Prog Node (Option Nat) := .op (openAt true p)
def openAppend (p : Path) : Prog Node (Option Nat) := .op (openAt false p)
def append (i : Nat) (b : Bytes) : Prog Node Unit := .op fun t => (onInode i (· ++ b) t, ())
def lstat (p : Path) : Prog Node (Option Entry) := .read fun t => look t p

/-- The bytes of a file, if there is one. -/
def readFile (p : Path) : Prog Node (Option Bytes) :=
  .read fun t =>
    match look t p with
    | some (.file _ d) => some d
    | _ => none

/-- Write the pieces of a file's bytes. -/
def appendAll (i : Nat) (pieces : List Bytes) : Prog Node Unit :=
  Prog.forEach pieces (append i)

/-- Create or truncate a file and write it. -/
def writeFile (p : Path) (pieces : List Bytes) : Prog Node Bool := do
  match ← openWrite p with
  | none => pure false
  | some i =>
      appendAll i pieces
      pure true

/-! ## §2. Calls on leaves, seen in the flat view. -/

section Leaves

variable {t : Node} {p q : Path}

theorem isDir_dropLast (hp : p ≠ []) (h : look t p ≠ none) : IsDir t p.dropLast := by
  obtain ⟨r, x, rfl⟩ : ∃ r x, p = r ++ [x] := by
    rcases List.eq_nil_or_concat p with rfl | ⟨r, x, rfl⟩
    · exact absurd rfl hp
    · exact ⟨r, x, by simp⟩
  rw [List.dropLast_concat]
  exact isDir_of_look_append (List.cons_ne_nil _ _) h

theorem get_of_look_file {i : Nat} {d : Bytes} (h : look t p = some (.file i d)) :
    t.get p = some (.file i d) := by
  unfold look at h
  cases hget : t.get p with
  | none => rw [hget] at h; simp at h
  | some n =>
      rw [hget] at h
      cases n <;> simp_all [Node.entry]

theorem get_of_look_none (h : look t p = none) : t.get p = none := by
  unfold look at h
  simpa using h

theorem ne_nil_of_look_none (h : look t p = none) : p ≠ [] := by
  rintro rfl
  simp [look] at h

/-- `unlink` of a file. -/
theorem unlink_file (hp : p ≠ []) {i : Nat} {d : Bytes} (h : look t p = some (.file i d)) :
    (unlink p).result t = true
      ∧ (∀ r, look ((unlink p).final t) r = if r = p then none else look t r)
      ∧ (t.WF → ∀ j, nlink ((unlink p).final t) j + (if i = j then 1 else 0) = nlink t j) := by
  have hdir := isDir_dropLast hp (by rw [h]; simp)
  have hleaf : Leaf (t.get p) := leaf_of_look (by rw [h]; simp)
  simp only [unlink, Prog.result_op, Prog.final_op, unlinkAt, h, true_and]
  refine ⟨fun r => ?_, fun hwf j => ?_⟩
  · simpa using look_put hp hdir hleaf Leaf.none r
  · rw [← nlink_put_none j hwf hp (get_of_look_file h)]
    simp [Node.inodes, List.count_singleton, beq_iff_eq]

theorem unlink_wf (h : t.WF) : ((unlink p).final t).WF := by
  simp only [unlink, Prog.final_op, unlinkAt]
  split
  · exact h.put (by simp)
  · exact h.put (by simp)
  · exact h

theorem link_wf (h : t.WF) : ((link p q).final t).WF := by
  simp only [link, Prog.final_op, linkAt]
  have hput : ∀ n : Node, n.WF → (t.put q (some n)).WF := fun n hn => h.put fun m hm => by
    simp only [Option.some.injEq] at hm
    rwa [← hm]
  split
  · split
    · exact hput _ trivial
    · exact hput _ trivial
    · exact h
  · exact h

/-- `unlink` of nothing. -/
theorem unlink_absent (h : look t p = none) :
    (unlink p).result t = false ∧ (unlink p).final t = t := by
  simp only [unlink, Prog.result_op, Prog.final_op, unlinkAt, h, and_self]

/-- `link` to an absent path. -/
theorem link_file {i : Nat} {d : Bytes} (ho : look t p = some (.file i d)) (hq : look t q = none)
    (hdir : IsDir t q.dropLast) :
    (link p q).result t = true
      ∧ (∀ r, look ((link p q).final t) r = if r = q then some (.file i d) else look t r)
      ∧ ∀ j, nlink ((link p q).final t) j = nlink t j + if i = j then 1 else 0 := by
  have hnil := ne_nil_of_look_none hq
  have hget := get_of_look_none hq
  have hleaf : Leaf (t.get q) := by rw [hget]; exact Leaf.none
  have hfinal : linkAt p q t = (t.put q (some (.file i d)), true) := by
    unfold linkAt
    rw [if_pos ⟨hq, hdir⟩, get_of_look_file ho]
  simp only [link, Prog.result_op, Prog.final_op, hfinal, true_and]
  refine ⟨fun r => ?_, fun j => ?_⟩
  · simpa [Node.entry] using look_put hnil hdir hleaf (Leaf.file i d) r
  · rw [nlink_put_of_absent j hnil hdir hget]
    simp [Node.inodes, List.count_singleton, beq_iff_eq]

/-- `link` onto an existing path. -/
theorem link_exists (hq : look t q ≠ none) :
    (link p q).result t = false ∧ (link p q).final t = t := by
  have hfinal : linkAt p q t = (t, false) := by
    unfold linkAt
    rw [if_neg fun h => hq h.1]
  simp only [link, Prog.result_op, Prog.final_op, hfinal, and_self]

theorem isDir_put_leaf {o : Option Node} (hp : p ≠ []) (hdir : IsDir t p.dropLast)
    (hold : Leaf (t.get p)) (hnew : Leaf o) (hqp : q ≠ p) (hq : IsDir t q) :
    IsDir (t.put p o) q := by
  unfold IsDir at hq ⊢
  rw [look_put hp hdir hold hnew, if_neg hqp]
  exact hq

/-- `rename` of a file to an absent path or onto another file. -/
theorem rename_over {i : Nat} {d : Bytes} (hp : p ≠ []) (hnil : q ≠ [])
    (ho : look t p = some (.file i d))
    (hq : look t q = none ∨ ∃ j e, look t q = some (.file j e) ∧ j ≠ i)
    (hdir : IsDir t q.dropLast) :
    (rename p q).result t = true
      ∧ ∀ r, look ((rename p q).final t) r
          = if r = q then some (.file i d) else if r = p then none else look t r := by
  have hpq : p ≠ q := by
    rintro rfl
    rcases hq with hq | ⟨j, e, hq, hj⟩
    · rw [ho] at hq
      simp at hq
    · rw [ho] at hq
      simp only [Option.some.injEq, Entry.file.injEq] at hq
      exact hj hq.1.symm
  have hdirp := isDir_dropLast hp (by rw [ho]; simp)
  have hleafp : Leaf (t.get p) := leaf_of_look (by rw [ho]; simp)
  have hqd : q.dropLast ≠ p := by
    rintro rfl
    rw [IsDir, ho] at hdir
    simp at hdir
  have hqleaf : look t q ≠ some .dir := by
    rcases hq with hq | ⟨j, e, hq, -⟩ <;> rw [hq] <;> simp
  have hfinal : renameAt p q t = ((t.put p none).put q (some (.file i d)), true) := by
    unfold renameAt
    rw [get_of_look_file ho]
    dsimp only
    rw [if_neg hpq, if_neg (not_not.mpr hdir)]
    rcases hq with hq | ⟨j, e, hq, hj⟩
    · rw [get_of_look_none hq]
    · rw [get_of_look_file hq]
      dsimp only
      rw [if_neg (Ne.symm hj)]
  have hmid : ∀ r, look (t.put p none) r = if r = p then none else look t r := by
    intro r
    simpa using look_put hp hdirp hleafp Leaf.none r
  have hdir' : IsDir (t.put p none) q.dropLast :=
    isDir_put_leaf hp hdirp hleafp Leaf.none hqd hdir
  have hleafq : Leaf ((t.put p none).get q) := by
    apply leaf_of_look
    rwa [hmid, if_neg (Ne.symm hpq)]
  simp only [rename, Prog.result_op, Prog.final_op, hfinal, true_and]
  intro r
  rw [look_put hnil hdir' hleafq (Leaf.file i d), hmid]
  rfl

/-- `rename` of a file to an absent path. -/
theorem rename_file {i : Nat} {d : Bytes} (hp : p ≠ []) (ho : look t p = some (.file i d))
    (hq : look t q = none) (hdir : IsDir t q.dropLast) :
    (rename p q).result t = true
      ∧ ∀ r, look ((rename p q).final t) r
          = if r = q then some (.file i d) else if r = p then none else look t r :=
  rename_over hp (ne_nil_of_look_none hq) ho (Or.inl hq) hdir

/-- What `rename` can do: nothing, or move the node. -/
theorem renameAt_cases (o q : Path) (t : Node) :
    (renameAt o q t).1 = t
      ∨ ∃ n, t.get o = some n ∧ renameAt o q t = ((t.put o none).put q (some n), true) := by
  unfold renameAt
  cases t.get o with
  | none => exact Or.inl rfl
  | some n =>
      dsimp only
      by_cases hoq : o = q
      · rw [if_pos hoq]
        exact Or.inl rfl
      · rw [if_neg hoq]
        by_cases hdir : IsDir t q.dropLast
        · rw [if_neg (not_not.mpr hdir)]
          split
          all_goals first
            | exact Or.inl rfl
            | exact Or.inr ⟨_, rfl, rfl⟩
            | (split_ifs
               · exact Or.inl rfl
               · exact Or.inr ⟨_, rfl, rfl⟩)
        · rw [if_pos hdir]
          exact Or.inl rfl

/-- `rename` of a directory, where it succeeds. -/
theorem rename_dir (hpq : p ≠ q) (hdir : IsDir t p) (h : (renameAt p q t).2 = true) :
    ∃ es, t.get p = some (.dir es)
        ∧ (renameAt p q t).1 = (t.put p none).put q (some (.dir es)) := by
  obtain ⟨es, hes⟩ := isDir_iff.mp hdir
  refine ⟨es, hes, ?_⟩
  unfold renameAt at h ⊢
  rw [hes] at h ⊢
  dsimp only at h ⊢
  rw [if_neg hpq] at h ⊢
  by_cases hq : IsDir t q.dropLast
  · rw [if_neg (not_not.mpr hq)] at h ⊢
    cases hget : t.get q with
    | none =>
        rw [hget] at h
        dsimp only at h ⊢
        split_ifs at h ⊢
        rfl
    | some m =>
        rw [hget] at h
        cases m with
        | file i d => cases h
        | symlink s => cases h
        | dir fs =>
            cases fs with
            | nil =>
                dsimp only at h ⊢
                split_ifs at h ⊢
                rfl
            | cons e fs => cases h
  · rw [if_pos hq] at h
    cases h

theorem get_of_look_symlink {s : String} (h : look t p = some (.symlink s)) :
    t.get p = some (.symlink s) := by
  unfold look at h
  cases hget : t.get p with
  | none => rw [hget] at h; simp at h
  | some n =>
      rw [hget] at h
      cases n <;> simp_all [Node.entry]

/-- `link` of a symlink to an absent path. -/
theorem link_symlink {s : String} (ho : look t p = some (.symlink s)) (hq : look t q = none)
    (hdir : IsDir t q.dropLast) :
    (link p q).result t = true
      ∧ ∀ r, look ((link p q).final t) r = if r = q then some (.symlink s) else look t r := by
  have hnil := ne_nil_of_look_none hq
  have hleaf : Leaf (t.get q) := by rw [get_of_look_none hq]; exact Leaf.none
  have hnew : Leaf (some (.symlink s)) := by
    intro es hes
    simp at hes
  have hfinal : linkAt p q t = (t.put q (some (.symlink s)), true) := by
    unfold linkAt
    rw [if_pos ⟨hq, hdir⟩, get_of_look_symlink ho]
  simp only [link, Prog.result_op, Prog.final_op, hfinal, true_and]
  intro r
  simpa [Node.entry] using look_put hnil hdir hleaf hnew r

/-- `rename` of a symlink in the root onto nothing or another symlink. -/
theorem rename_symlink {x y s : String} (hxy : x ≠ y) (hx : look t [x] = some (.symlink s))
    (hy : look t [y] = none ∨ ∃ s', look t [y] = some (.symlink s')) :
    (renameAt [x] [y] t).1 = (t.put [x] none).put [y] (some (.symlink s)) := by
  have hdir : IsDir t ([y] : Path).dropLast :=
    isDir_of_look_append (q := [x]) (by simp)
      (by rw [List.dropLast_singleton, List.nil_append, hx]; simp)
  have hne : ([x] : Path) ≠ [y] := by simpa using hxy
  unfold renameAt
  rw [get_of_look_symlink hx]
  dsimp only
  rw [if_neg hne, if_neg (not_not.mpr hdir)]
  rcases hy with hy | ⟨s', hy⟩
  · rw [get_of_look_none hy]
  · rw [get_of_look_symlink hy]

/-- The root cannot be replaced. -/
theorem rename_to_root (hp : p ≠ []) : renameAt p [] t = (t, false) := by
  obtain ⟨x, r, rfl⟩ := List.exists_cons_of_ne_nil hp
  cases t with
  | file i d => rfl
  | symlink s => rfl
  | dir es =>
      unfold renameAt
      cases hget : (Node.dir es).get (x :: r) with
      | none => rfl
      | some n =>
          have hroot : IsDir (.dir es) ([] : Path).dropLast := rfl
          cases es with
          | nil => simp [find] at hget
          | cons e es =>
              dsimp only
              rw [if_neg (List.cons_ne_nil x r), if_neg (not_not.mpr hroot), Node.get_nil]
              cases n <;> rfl

/-- Nor can it be moved. -/
theorem rename_of_root (hp : p ≠ []) : renameAt [] p t = (t, false) := by
  unfold renameAt
  rw [Node.get_nil]
  dsimp only
  rw [if_neg hp.symm]
  by_cases hdir : IsDir t p.dropLast
  · rw [if_neg (not_not.mpr hdir)]
    cases t with
    | file i d =>
        obtain ⟨es, hes⟩ := isDir_iff.mp hdir
        cases hr : p.dropLast <;> rw [hr] at hes <;> simp [Node.get] at hes
    | symlink s =>
        obtain ⟨es, hes⟩ := isDir_iff.mp hdir
        cases hr : p.dropLast <;> rw [hr] at hes <;> simp [Node.get] at hes
    | dir es =>
        cases (Node.dir es).get p with
        | none => exact if_pos List.nil_prefix
        | some m =>
            cases m with
            | file i d => rfl
            | symlink s => rfl
            | dir fs =>
                cases fs with
                | nil => exact if_pos List.nil_prefix
                | cons e fs => rfl
  · rw [if_pos hdir]

/-- `rename` of nothing. -/
theorem rename_absent (h : look t p = none) :
    (rename p q).result t = false ∧ (rename p q).final t = t := by
  have hfinal : renameAt p q t = (t, false) := by
    unfold renameAt
    rw [get_of_look_none h]
  simp only [rename, Prog.result_op, Prog.final_op, hfinal, and_self]

/-- `mkdir` of an absent path. -/
theorem mkdir_absent (h : look t p = none) (hdir : IsDir t p.dropLast) :
    (mkdir p).result t = true
      ∧ (∀ r, look ((mkdir p).final t) r = if r = p then some .dir else look t r)
      ∧ ∀ j, nlink ((mkdir p).final t) j = nlink t j := by
  have hnil := ne_nil_of_look_none h
  have hleaf : Leaf (t.get p) := by rw [get_of_look_none h]; exact Leaf.none
  have hnew : Leaf (some (.dir [])) := by
    intro es hes
    simpa using hes.symm
  simp only [mkdir, Prog.result_op, Prog.final_op, mkdirAt, h, hdir, and_self, if_true, true_and]
  refine ⟨fun r => ?_, fun j => ?_⟩
  · simpa [Node.entry] using look_put hnil hdir hleaf hnew r
  · rw [nlink_put_of_absent j hnil hdir (get_of_look_none h)]
    simp [Node.inodes, inodesEntries]

theorem look_onInode (i : Nat) (f : Bytes → Bytes) (r : Path) :
    look (onInode i f t) r
      = (look t r).map (Entry.mapData fun j d => if j = i then f d else d) := by
  rw [onInode, look_mapData]

/-! ## §3. Scratch files. -/

/-- The file at `p`, if there is one, has no other link. -/
def Private (t : Node) (p : Path) : Prop :=
  ∀ i d, look t p = some (.file i d) → ∀ r e, look t r = some (.file i e) → r = p

/-- `p` can be written without touching anything else. -/
structure Scratch (t : Node) (p : Path) : Prop where
  parent : IsDir t p.dropLast
  leaf : look t p = none ∨ ∃ i d, look t p = some (.file i d)
  alone : Private t p

theorem Scratch.of_absent (h : look t p = none) (hdir : IsDir t p.dropLast) : Scratch t p :=
  ⟨hdir, Or.inl h, fun i d hf => by rw [h] at hf; simp at hf⟩

/-- Writing to an inode with one link is a point update. -/
theorem look_onInode_private {i : Nat} {d : Bytes} (h : look t p = some (.file i d))
    (halone : Private t p) (f : Bytes → Bytes) (r : Path) :
    look (onInode i f t) r = if r = p then some (.file i (f d)) else look t r := by
  rw [look_onInode]
  by_cases hr : r = p
  · subst hr
    simp [h, Entry.mapData]
  · rw [if_neg hr]
    cases hl : look t r with
    | none => rfl
    | some e =>
        cases e with
        | file j e =>
            have hji : j ≠ i := by
              rintro rfl
              exact hr (halone j d h r e hl)
            simp [Entry.mapData, hji]
        | symlink s => rfl
        | dir => rfl

/-- `u` is `t` with the leaf `p` replaced by `v`, which shares no inode with `t`. -/
structure Changed (t u : Node) (p : Path) (v : Option Entry) : Prop where
  look_eq : ∀ r, look u r = if r = p then v else look t r
  ino_new : ∀ i d, v = some (.file i d) → ∀ r e, r ≠ p → look t r ≠ some (.file i e)
  links : ∀ r j e, r ≠ p → look t r = some (.file j e) → nlink u j = nlink t j
  wf : t.WF → u.WF

/-- A file of one's own at `p`. -/
abbrev Put (t u : Node) (p : Path) (i : Nat) (d : Bytes) : Prop :=
  Changed t u p (some (.file i d))

theorem Changed.look_self {u : Node} {v : Option Entry} (h : Changed t u p v) :
    look u p = v := by
  rw [h.look_eq, if_pos rfl]

theorem Changed.look_ne {u : Node} {v : Option Entry} (h : Changed t u p v) (hq : q ≠ p) :
    look u q = look t q := by
  rw [h.look_eq, if_neg hq]

/-- Whatever is private stays private, and what has been put is. -/
theorem Changed.private {u : Node} {v : Option Entry} (h : Changed t u p v)
    (hq : q ≠ p → Private t q) : Private u q := by
  intro i d hi r e hr
  by_contra hne
  by_cases hqp : q = p
  · subst hqp
    rw [h.look_self] at hi
    rw [h.look_ne hne] at hr
    exact h.ino_new i d hi r e hne hr
  · rw [h.look_ne hqp] at hi
    by_cases hrp : r = p
    · subst hrp
      rw [h.look_self] at hr
      exact h.ino_new i e hr q d hqp hi
    · rw [h.look_ne hrp] at hr
      exact hne (hq hqp i d hi r e hr)

theorem Put.append {u : Node} {i : Nat} {d : Bytes} (h : Put t u p i d) (b : Bytes) :
    Put t (onInode i (· ++ b) u) p i (d ++ b) where
  look_eq := by
    intro r
    rw [look_onInode_private h.look_self (h.private fun hne => absurd rfl hne)]
    by_cases hr : r = p
    · simp [hr]
    · rw [if_neg hr, if_neg hr, h.look_ne hr]
  ino_new := by
    intro j e hj
    simp only [Option.some.injEq, Entry.file.injEq] at hj
    rw [← hj.1]
    exact h.ino_new i d rfl
  links := by
    intro r j e hr hl
    rw [nlink, onInode, inodes_mapData]
    exact h.links r j e hr hl
  wf := fun ht => wf_mapData _ _ (h.wf ht)

/-- Opening a scratch file. -/
theorem openWrite_scratch (h : Scratch t p) :
    ∃ i, (openWrite p).result t = some i ∧ Put t ((openWrite p).final t) p i [] := by
  rcases h.leaf with hnone | ⟨i, d, hfile⟩
  · have hnil := ne_nil_of_look_none hnone
    have hleaf : Leaf (t.get p) := by rw [get_of_look_none hnone]; exact Leaf.none
    have hfinal : openAt true p t
        = (t.put p (some (.file (freshIno t) [])), some (freshIno t)) := by
      simp [openAt, hnone, h.parent]
    have hget := get_of_look_none hnone
    refine ⟨freshIno t, by simp [openWrite, hfinal], ?_, ?_, ?_, ?_⟩
    · intro r
      simp only [openWrite, Prog.final_op, hfinal]
      simpa [Node.entry] using look_put hnil h.parent hleaf (Leaf.file _ _) r
    · intro j d hj r e _ hr
      simp only [Option.some.injEq, Entry.file.injEq] at hj
      exact look_ne_fresh hr hj.1.symm
    · intro r j e _ hr
      simp only [openWrite, Prog.final_op, hfinal]
      rw [nlink_put_of_absent j hnil h.parent hget]
      have hne : freshIno t ≠ j := Ne.symm (look_ne_fresh hr)
      simp [Node.inodes, hne]
    · intro ht
      simp only [openWrite, Prog.final_op, hfinal]
      exact ht.put fun n hn => by simp only [Option.some.injEq] at hn; rw [← hn]; trivial
  · have hfinal : openAt true p t = (onInode i (fun _ => []) t, some i) := by
      simp [openAt, hfile]
    refine ⟨i, by simp [openWrite, hfinal], ?_, ?_, ?_, ?_⟩
    · intro r
      simp only [openWrite, Prog.final_op, hfinal]
      exact look_onInode_private hfile h.alone _ r
    · intro j d' hj r e hr hl
      simp only [Option.some.injEq, Entry.file.injEq] at hj
      rw [← hj.1] at hl
      exact hr (h.alone i d hfile r e hl)
    · intro r j e _ _
      simp only [openWrite, Prog.final_op, hfinal, nlink, onInode, inodes_mapData]
    · intro ht
      simp only [openWrite, Prog.final_op, hfinal]
      exact wf_mapData _ _ ht

/-- Appending the pieces of a file of one's own; a kill leaves a prefix. -/
theorem appendAll_spec {i : Nat} {I : Node → Prop} :
    ∀ (pieces : List Bytes) (u : Node) (d : Bytes),
      (∀ v e, e <+: d ++ pieces.flatten → Put t v p i e → I v) → Put t u p i d →
      Spec (appendAll i pieces) u I fun _ v => Put t v p i (d ++ pieces.flatten) := by
  intro pieces
  induction pieces with
  | nil =>
      intro u d hI h
      refine Spec.pure (hI u d (by simp) h) ?_
      simpa using h
  | cons b bs ih =>
      intro u d hI h
      rw [List.flatten_cons] at hI ⊢
      have hpre : d ++ b <+: d ++ (b ++ bs.flatten) := by
        rw [← List.append_assoc]
        exact List.prefix_append _ _
      refine Spec.bind (Spec.op (hI u d (List.prefix_append _ _) h)
        (hI _ _ hpre (h.append b)) ?_)
      have := ih _ (d ++ b) (by simpa [List.append_assoc] using hI) (h.append b)
      simpa [appendAll, List.append_assoc] using this

/-- **Writing a scratch file touches nothing else**, whenever it is killed. -/
theorem writeFile_spec (h : Scratch t p) {pieces : List Bytes} {I : Node → Prop} (ht : I t)
    (hI : ∀ u i e, e <+: pieces.flatten → Put t u p i e → I u) :
    Spec (writeFile p pieces) t I fun ok u =>
      ok = true ∧ ∃ i, Put t u p i pieces.flatten := by
  obtain ⟨i, hres, hput⟩ := openWrite_scratch h
  refine Spec.bind (Spec.op ht (hI _ i [] (List.nil_prefix) hput) ?_)
  have hres' : (openAt true p t).2 = some i := hres
  rw [hres']
  refine Spec.bind ((appendAll_spec pieces _ [] (fun u e => hI u i e) hput).mono
    (fun _ h => h) ?_)
  intro _ v hv hp
  refine Spec.pure hv ⟨rfl, i, ?_⟩
  simpa using hp

/-- What stays a scratch file when another leaf changes. -/
theorem Scratch.changed {u : Node} {v : Option Entry} (h : Scratch t q) (hch : Changed t u p v)
    (hqp : q ≠ p) (hdp : q.dropLast ≠ p) : Scratch u q where
  parent := by
    have := h.parent
    unfold IsDir at this ⊢
    rw [hch.look_ne hdp]
    exact this
  leaf := by
    rw [hch.look_ne hqp]
    exact h.leaf
  alone := hch.private fun _ => h.alone

/-- `p` holds nothing, or a file without other links. -/
def Own (t : Node) (p : Path) : Prop :=
  (look t p = none ∨ ∃ i d, look t p = some (.file i d)) ∧ Private t p

theorem Own.isDir_ne (h : Own t p) (hq : IsDir t q) : q ≠ p := by
  rintro rfl
  unfold IsDir at hq
  rcases h.1 with hn | ⟨i, d, hf⟩
  · rw [hn] at hq; simp at hq
  · rw [hf] at hq; simp at hq

theorem Own.scratch (h : Own t p) (hdir : IsDir t p.dropLast) :
    Scratch t p := ⟨hdir, h.1, h.2⟩

theorem Own.changed {u : Node} {v : Option Entry} (h : Own t q)
    (hch : Changed t u p v) (hv : v = none ∨ ∃ i d, v = some (.file i d)) : Own u q := by
  refine ⟨?_, hch.private fun _ => h.2⟩
  by_cases hqp : q = p
  · subst hqp
    rw [hch.look_self]
    exact hv
  · rw [hch.look_ne hqp]
    exact h.1

theorem Own.of_put {u : Node} {i : Nat} {d : Bytes} (h : Put t u p i d) : Own u p :=
  ⟨Or.inr ⟨i, d, h.look_self⟩, h.private fun hne => absurd rfl hne⟩

theorem Own.of_absent (h : look t p = none) : Own t p :=
  ⟨Or.inl h, fun i d hi => by rw [h] at hi; simp at hi⟩

/-- Removing a file of one's own. -/
theorem unlink_private {i : Nat} {d : Bytes} (hwf : t.WF) (hp : p ≠ [])
    (h : look t p = some (.file i d)) (halone : Private t p) :
    (unlink p).result t = true ∧ Changed t ((unlink p).final t) p none := by
  obtain ⟨hres, hlook, hlinks⟩ := unlink_file hp h
  refine ⟨hres, hlook, by simp, ?_, ?_⟩
  · intro r j e hr hl
    have hij : i ≠ j := by
      rintro rfl
      exact hr (halone i d h r e hl)
    have := hlinks hwf j
    rw [if_neg hij, Nat.add_zero] at this
    exact this
  · intro ht
    simp only [unlink, Prog.final_op, unlinkAt, h]
    exact ht.put (by simp)

end Leaves

end FileSystem
