/-
  Burp.FileSystem.Local — a frame rule.

  A program that only works on the paths of one region cannot break what is said about the
  rest of the tree.  `Local` lists what an invariant has to survive for that: every call on
  a path of the region, and writing to the inodes that opening such a path gives.  The rest
  of the file shows that it then survives the programs of this library, and gives the one
  invariant that is used most: what `lstat` says about a name outside the region.

  Main results:
    * `Local.keeps_writeFile` — writing a file of the region.
    * `local_entry` — an entry of the root is not touched by work below the others.
-/
import Burp.FileSystem.Ops

namespace FileSystem

open Crash

/-! ## §1. Invariants of a region. -/

/-- `I` survives every call on paths of the region `inside`, and writing to the inodes in
`mine`, which are the ones that opening a path of the region gives. -/
structure Local (inside : Path → Prop) (mine : Nat → Prop) (I : Node → Prop) : Prop where
  below : ∀ p q, inside p → inside (p ++ q)
  mkdir : ∀ p t, inside p → I t → I (mkdirAt p t).1
  unlink : ∀ p t, inside p → I t → I (unlinkAt p t).1
  rmdir : ∀ p t, inside p → I t → I (rmdirAt p t).1
  rename : ∀ o q t, inside o → inside q → I t → I (renameAt o q t).1
  openFile : ∀ b p t, inside p → I t →
    I (openAt b p t).1 ∧ ∀ i, (openAt b p t).2 = some i → mine i
  write : ∀ i f t, mine i → I t → I (onInode i f t)

/-- It also survives links from anywhere into the region. -/
def Linkable (inside : Path → Prop) (I : Node → Prop) : Prop :=
  ∀ o q t, inside q → I t → I (linkAt o q t).1

section Programs

variable {inside : Path → Prop} {mine : Nat → Prop} {I : Node → Prop}

theorem Linkable.link (h : Linkable inside I) {o q : Path} (hq : inside q) :
    Keeps I (link o q) :=
  Keeps.op fun t ht => h o q t hq ht

namespace Local

variable (h : Local inside mine I)

include h

theorem keeps_mkdir {p : Path} (hp : inside p) : Keeps I (FileSystem.mkdir p) :=
  Keeps.op fun t ht => h.mkdir p t hp ht

theorem keeps_unlink {p : Path} (hp : inside p) : Keeps I (FileSystem.unlink p) :=
  Keeps.op fun t ht => h.unlink p t hp ht

theorem keeps_rmdir {p : Path} (hp : inside p) : Keeps I (FileSystem.rmdir p) :=
  Keeps.op fun t ht => h.rmdir p t hp ht

theorem keeps_rename {o q : Path} (ho : inside o) (hq : inside q) :
    Keeps I (FileSystem.rename o q) :=
  Keeps.op fun t ht => h.rename o q t ho hq ht

theorem keeps_append {i : Nat} (hi : mine i) (b : Bytes) : Keeps I (append i b) :=
  Keeps.op fun t ht => h.write i _ t hi ht

theorem keeps_appendAll {i : Nat} (hi : mine i) (pieces : List Bytes) :
    Keeps I (appendAll i pieces) :=
  Keeps.forEach fun b _ => h.keeps_append hi b

/-- Opening a file for writing, and what follows with its inode. -/
theorem keeps_openWrite {α : Type} {p : Path} (hp : inside p) {f : Option Nat → Prog Node α}
    (hnone : Keeps I (f none)) (hsome : ∀ i, mine i → Keeps I (f (some i))) :
    Keeps I (openWrite p >>= f) := by
  refine Keeps.bind_result (Keeps.op fun t ht => (h.openFile true p t hp ht).1) fun t ht => ?_
  have hmine := (h.openFile true p t hp ht).2
  change Keeps I (f (openAt true p t).2)
  cases hres : (openAt true p t).2 with
  | none => exact hnone
  | some i => exact hsome i (hmine i hres)

theorem keeps_openAppend {α : Type} {p : Path} (hp : inside p) {f : Option Nat → Prog Node α}
    (hnone : Keeps I (f none)) (hsome : ∀ i, mine i → Keeps I (f (some i))) :
    Keeps I (openAppend p >>= f) := by
  refine Keeps.bind_result (Keeps.op fun t ht => (h.openFile false p t hp ht).1) fun t ht => ?_
  have hmine := (h.openFile false p t hp ht).2
  change Keeps I (f (openAt false p t).2)
  cases hres : (openAt false p t).2 with
  | none => exact hnone
  | some i => exact hsome i (hmine i hres)

/-- **Writing a file of the region.** -/
theorem keeps_writeFile {p : Path} (hp : inside p) (pieces : List Bytes) :
    Keeps I (writeFile p pieces) :=
  h.keeps_openWrite hp (Keeps.pure _) fun _ hi =>
    Keeps.bind (h.keeps_appendAll hi pieces) fun _ => Keeps.pure _

end Local

end Programs

/-! ## §2. One entry of the root. -/

/-- The paths that do not begin with the entry `x` of the root. -/
def Apart (x : String) (p : Path) : Prop := ∃ y r, p = y :: r ∧ y ≠ x

theorem Apart.cons {x y : String} (h : y ≠ x) (r : Path) : Apart x (y :: r) := ⟨y, r, rfl, h⟩

theorem Apart.append {x : String} {p : Path} (h : Apart x p) (q : Path) : Apart x (p ++ q) := by
  obtain ⟨y, r, rfl, hy⟩ := h
  exact ⟨y, r ++ q, rfl, hy⟩

section Entry

variable {x : String} {t : Node}

theorem get_put_apart {p : Path} (hp : Apart x p) (o : Option Node) (t : Node) :
    (t.put p o).get [x] = t.get [x] := by
  obtain ⟨y, r, rfl, hy⟩ := hp
  cases t with
  | file i b => rfl
  | symlink s => rfl
  | dir es =>
      cases r with
      | nil => simp [Node.put, find_set, Ne.symm hy]
      | cons z r =>
          unfold Node.put
          cases find es y with
          | none => rfl
          | some n => simp [find_set, Ne.symm hy]

theorem look_put_apart {p : Path} (hp : Apart x p) (o : Option Node) (t : Node) :
    look (t.put p o) [x] = look t [x] := by
  unfold look
  rw [get_put_apart hp]

theorem look_rename_apart {o q : Path} (ho : Apart x o) (hq : Apart x q) (t : Node) :
    look (renameAt o q t).1 [x] = look t [x] := by
  rcases renameAt_cases o q t with hsame | ⟨n, -, hmove⟩
  · rw [hsame]
  · rw [hmove, look_put_apart hq, look_put_apart ho]

theorem look_onInode_other {e : Option Entry} (he : ∀ i b, e ≠ some (.file i b)) {p : Path}
    (h : look t p = e) (i : Nat) (f : Bytes → Bytes) : look (onInode i f t) p = e := by
  rw [look_onInode, h]
  cases e with
  | none => rfl
  | some e =>
      cases e with
      | file i b => exact absurd rfl (he i b)
      | symlink s => rfl
      | dir => rfl

/-- **What `lstat` says about an entry of the root** survives work elsewhere, as long as
that entry is no file. -/
theorem local_entry {e : Option Entry} (he : ∀ i b, e ≠ some (.file i b)) :
    Local (Apart x) (fun _ => True) fun t => look t [x] = e where
  below := fun p q hp => hp.append q
  mkdir := by
    intro p t hp ht
    unfold mkdirAt
    split_ifs
    · exact (look_put_apart hp _ t).trans ht
    · exact ht
  unlink := by
    intro p t hp ht
    unfold unlinkAt
    split
    · exact (look_put_apart hp _ t).trans ht
    · exact (look_put_apart hp _ t).trans ht
    · exact ht
  rmdir := by
    intro p t hp ht
    unfold rmdirAt
    split
    · exact (look_put_apart hp _ t).trans ht
    · exact ht
  rename := fun o q t ho hq ht => (look_rename_apart ho hq t).trans ht
  openFile := by
    intro b p t hp ht
    refine ⟨?_, fun _ _ => trivial⟩
    unfold openAt
    split
    · split_ifs
      · exact look_onInode_other he ht _ _
      · exact ht
    · split_ifs
      · exact (look_put_apart hp _ t).trans ht
      · exact ht
    · exact ht
  write := fun i f t _ ht => look_onInode_other he ht i f

theorem linkable_entry (e : Option Entry) : Linkable (Apart x) fun t => look t [x] = e := by
  intro o q t hq ht
  unfold linkAt
  split_ifs
  · split
    · exact (look_put_apart hq _ t).trans ht
    · exact (look_put_apart hq _ t).trans ht
    · exact ht
  · exact ht

end Entry

end FileSystem
