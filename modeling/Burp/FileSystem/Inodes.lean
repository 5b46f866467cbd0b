/-
  Burp.FileSystem.Inodes — a file system with inodes.

  A directory gives names to inodes, and an inode may have several.  A path is followed from
  name to name and through symbolic links.  Making something adds a name for a new inode;
  writing, and changing attributes, changes the inode that a path leads to, whatever other
  names it has.

  Names that are added, and changes to what is new, leave alone what was there: paths that led
  to something lead to the same.

  Main results:
    * `Leads.lstat` and `Leads.stat` — what a path leads to, if nothing on its way has changed.
    * `Extends.unchanged` — what was there is as it was, whatever path leads to it.
    * `below_mkdir` — below a directory that has just been made there are only directories.
    * `Adds.stat` — a path leads to where it led, or to something new.
-/
import Mathlib.Data.List.Basic
import Mathlib.Tactic.Common

namespace Inodes

/-! ## §1. Inodes and paths. -/

/-- A component of a path, between two slashes. -/
abbrev Name := List UInt8

abbrev Path := List Name

abbrev Ino := Nat

abbrev Names := List (Name × Ino)

structure Attrs where
  mode : Int := 0
  uid : Int := 0
  gid : Int := 0
  atime : Int := 0
  mtime : Int := 0
  /-- Access control lists and extended attributes, by their types and names. -/
  acls : List (UInt8 × List UInt8) := []
  xattrs : List (List UInt8 × List UInt8) := []
  deriving DecidableEq

inductive Kind
  | file (data : List UInt8)
  | dir (names : Names)
  | symlink (target : Path)
  | fifo
  | special (rdev : Int)
  deriving DecidableEq

structure Inode where
  kind : Kind
  attrs : Attrs := {}
  deriving DecidableEq

structure Fs where
  inodes : List Inode
  root : Ino := 0
  cwd : Ino := 0
  deriving DecidableEq

namespace Fs

def kind (fs : Fs) (i : Ino) : Option Kind := fs.inodes[i]?.map Inode.kind

/-- The names in a directory; it has "." and ".." among them. -/
def names (fs : Fs) (d : Ino) : Option Names :=
  match fs.kind d with
  | some (.dir names) => some names
  | _ => none

/-- A name in a directory; nothing between two slashes stands for the directory itself. -/
def lookup (fs : Fs) (d : Ino) (c : Name) : Option Ino :=
  (fs.names d).bind fun names => names.lookup (if c = [] then [46] else c)

/-- Where a path starts from. -/
def start (fs : Fs) (d : Ino) : Path → Ino
  | [] :: _ :: _ => fs.root
  | _ => d

/-- Through how many symbolic links inside each other the kernel goes. -/
def maxLinks : Nat := 40

/-- What is found in a directory, or if that is a symbolic link, what it leads to. -/
def follow (fs : Fs) : Nat → Ino → Ino → Option Ino
  | n, d, i =>
      match fs.kind i with
      | none => none
      | some (.symlink target) =>
          match n with
          | 0 => none
          | n + 1 =>
              target.foldlM (fun e c => (fs.lookup e c).bind (follow fs n e)) (fs.start d target)
      | some _ => some i

/-- One component. -/
def step (fs : Fs) (d : Ino) (c : Name) : Option Ino := (fs.lookup d c).bind (fs.follow maxLinks d)

/-- All components. -/
def walk (fs : Fs) (d : Ino) (p : Path) : Option Ino := p.foldlM fs.step d

/-- The directory that the last component of a path is looked up in, and this component. -/
def parent (fs : Fs) (p : Path) : Option (Ino × Name) :=
  if p = [] ∨ p = [[]] then none
  else (fs.walk (fs.start fs.cwd p) p.dropLast).map fun d => (d, p.getLast?.getD [])

/-- `lstat`. -/
def lstat (fs : Fs) (p : Path) : Option Ino :=
  (fs.parent p).bind fun dc => (fs.lookup dc.1 dc.2).filter fun i => (fs.kind i).isSome

/-- `stat`. -/
def stat (fs : Fs) (p : Path) : Option Ino := (fs.parent p).bind fun dc => fs.step dc.1 dc.2

/-! ## §2. Calls. -/

def modify (fs : Fs) (i : Ino) (f : Inode → Inode) : Fs :=
  { fs with inodes := fs.inodes.modify i f }

/-- A new inode, which gets the next number. -/
def alloc (fs : Fs) (n : Inode) : Fs := { fs with inodes := fs.inodes ++ [n] }

def addName (fs : Fs) (d : Ino) (c : Name) (i : Ino) : Fs :=
  fs.modify d fun n =>
    match n.kind with
    | .dir names => { n with kind := .dir (names ++ [(c, i)]) }
    | _ => n

def removeName (fs : Fs) (d : Ino) (c : Name) : Fs :=
  fs.modify d fun n =>
    match n.kind with
    | .dir names => { n with kind := .dir (names.filter fun x => x.1 ≠ c) }
    | _ => n

/-- The place for a new name: nothing has it yet. -/
def place (fs : Fs) (p : Path) : Option (Ino × Name) :=
  (fs.parent p).filter fun dc =>
    (fs.names dc.1).isSome && (fs.lookup dc.1 dc.2).isNone && dc.2 ≠ []

/-- Something new, which may depend on its number and its directory. -/
def create (fs : Fs) (p : Path) (n : Ino → Ino → Inode) : Option Fs :=
  (fs.place p).map fun dc =>
    (fs.alloc (n fs.inodes.length dc.1)).addName dc.1 dc.2 fs.inodes.length

def mkdir (fs : Fs) (p : Path) : Option Fs :=
  fs.create p fun i d => { kind := .dir [([46], i), ([46, 46], d)] }

/-- What is made is neither a directory nor a symbolic link. -/
def mknod (fs : Fs) (p : Path) (k : Kind) : Option Fs :=
  match k with
  | .dir _ | .symlink _ => none
  | _ => fs.create p fun _ _ => { kind := k }

def symlink (fs : Fs) (target p : Path) : Option Fs :=
  if target = [] ∨ target = [[]] then none else fs.create p fun _ _ => { kind := .symlink target }

/-- `link`: a symbolic link is not followed. -/
def link (fs : Fs) (old p : Path) : Option Fs :=
  (fs.lstat old).bind fun i =>
    if (fs.names i).isSome then none
    else (fs.place p).map fun dc => fs.addName dc.1 dc.2 i

def unlink (fs : Fs) (p : Path) : Option Fs :=
  (fs.parent p).bind fun dc =>
    (fs.lookup dc.1 dc.2).bind fun i =>
      if (fs.names i).isSome ∨ dc.2 = [] then none else some (fs.removeName dc.1 dc.2)

/-- Where `open` makes a file that is not there, at the end of symbolic links. -/
def openPlace (fs : Fs) : Nat → Ino → Name → Option (Ino × Name)
  | n, d, c =>
      match fs.lookup d c with
      | none => if (fs.names d).isSome && c ≠ [] then some (d, c) else none
      | some i =>
          match n, fs.kind i with
          | n + 1, some (.symlink target) =>
              (fs.walk (fs.start d target) target.dropLast).bind fun e =>
                openPlace fs n e (target.getLast?.getD [])
          | _, _ => none

def truncate (fs : Fs) (i : Ino) : Fs :=
  fs.modify i fun n =>
    match n.kind with
    | .file _ => { n with kind := .file [] }
    | _ => n

/-- `open` for writing: the file, which is empty then. -/
def openWrite (fs : Fs) (p : Path) : Option (Fs × Ino) :=
  match fs.stat p with
  | some i =>
      match fs.kind i with
      | some (.dir _) | some (.symlink _) | none => none
      | some _ => some (fs.truncate i, i)
  | none =>
      ((fs.parent p).bind fun dc => fs.openPlace maxLinks dc.1 dc.2).map fun dc =>
        ((fs.alloc { kind := .file [] }).addName dc.1 dc.2 fs.inodes.length, fs.inodes.length)

/-- What is written into anything but a file is gone. -/
def write (fs : Fs) (i : Ino) (b : List UInt8) : Fs :=
  fs.modify i fun n =>
    match n.kind with
    | .file data => { n with kind := .file (data ++ b) }
    | _ => n

def setAttrs (fs : Fs) (i : Ino) (f : Attrs → Attrs) : Fs :=
  fs.modify i fun n => { n with attrs := f n.attrs }

end Fs

/-! ## §3. What was there. -/

/-- It is neither a directory nor a fifo. -/
def Inode.solid (n : Inode) : Bool :=
  match n.kind with
  | .dir _ | .fifo => false
  | _ => true

/-- It was there, and is neither a directory nor a fifo. -/
def Fs.Solid (fs : Fs) (i : Ino) : Prop := ∃ n, fs.inodes[i]? = some n ∧ n.solid = true

instance (fs : Fs) (i : Ino) : Decidable (fs.Solid i) :=
  decidable_of_iff ((fs.inodes[i]?).any Inode.solid = true) (Option.any_eq_true _ _)

/-- It was there, and is not a fifo. -/
def Fs.Firm (fs : Fs) (i : Ino) : Prop := ∃ k, fs.kind i = some k ∧ k ≠ .fifo

/-- What becomes of an inode: a directory keeps its names, but for those of fifos. -/
def Kept (fs : Fs) (n n' : Inode) : Prop :=
  match n.kind with
  | .dir names => ∃ names', n'.kind = .dir names'
      ∧ ∀ c i, names.lookup c = some i → fs.Firm i → names'.lookup c = some i
  | .fifo => n'.kind = .fifo
  | _ => n' = n

/-- All that was there is kept. -/
structure Extends (fs fs' : Fs) : Prop where
  root : fs'.root = fs.root
  cwd : fs'.cwd = fs.cwd
  kept : ∀ (i : Ino) (n : Inode), fs.inodes[i]? = some n →
    ∃ n', fs'.inodes[i]? = some n' ∧ Kept fs n n'

/-- A path leads to what it led to, and that is as it was. -/
def Unchanged (fs fs' : Fs) (p : Path) : Prop :=
  ∀ (i : Ino) (n : Inode), fs.lstat p = some i → fs.inodes[i]? = some n → n.solid = true →
    fs'.lstat p = some i ∧ fs'.inodes[i]? = some n

/-! ## §4. Following paths. -/

/-- What a path leads to in `fs`, if it is one of `F`, it leads to in `fs'`. -/
structure Leads (F : Ino → Prop) (fs fs' : Fs) : Prop where
  root : fs'.root = fs.root
  cwd : fs'.cwd = fs.cwd
  lookup : ∀ {d : Ino} {c : Name} {i : Ino}, fs.lookup d c = some i → F i →
    F d ∧ fs'.lookup d c = some i
  links : ∀ {i : Ino} {target : Path}, fs.kind i = some (.symlink target) →
    F i ∧ fs'.kind i = some (.symlink target)
  others : ∀ {i : Ino}, F i → fs.kind i ≠ none → (∀ target, fs.kind i ≠ some (.symlink target)) →
    fs'.kind i ≠ none ∧ ∀ target, fs'.kind i ≠ some (.symlink target)

section Follow

variable {F : Ino → Prop} {fs fs' : Fs} {d i j : Ino} {c : Name} {p : Path}

theorem kind_eq_some {k : Kind} :
    fs.kind i = some k ↔ ∃ n, fs.inodes[i]? = some n ∧ n.kind = k := by
  unfold Fs.kind
  rw [Option.map_eq_some_iff]

theorem names_eq_some {names : Names} :
    fs.names i = some names ↔ fs.kind i = some (.dir names) := by
  unfold Fs.names
  split <;> simp_all

section Links

attribute [local simp] Fs.follow

/-- What is not a symbolic link leads to itself. -/
theorem follow_self (hnone : fs.kind i ≠ none)
    (hlink : ∀ target, fs.kind i ≠ some (.symlink target)) (n : Nat) (d : Ino) :
    fs.follow n d i = some i := by
  unfold Fs.follow
  cases hkind : fs.kind i with
  | none => exact absurd hkind hnone
  | some k =>
      cases k with
      | symlink target => exact absurd hkind (hlink target)
      | file | dir | fifo | special => rfl

theorem follow_none (hkind : fs.kind i = none) (n : Nat) (d : Ino) : fs.follow n d i = none := by
  simp [hkind]

theorem follow_symlink {target : Path} (hkind : fs.kind i = some (.symlink target)) (n : Nat)
    (d : Ino) : fs.follow (n + 1) d i = target.foldlM
      (fun e c => (fs.lookup e c).bind (fs.follow n e)) (fs.start d target) := by
  rw [Fs.follow, hkind]

theorem follow_zero {target : Path} (hkind : fs.kind i = some (.symlink target)) (d : Ino) :
    fs.follow 0 d i = none := by
  simp [hkind]

end Links

/-- The same in other words. -/
theorem follow_eq_self (hlink : ∀ target, fs.kind i ≠ some (.symlink target)) {n : Nat}
    (hj : fs.follow n d i = some j) : j = i ∧ fs.kind i ≠ none := by
  have hnone : fs.kind i ≠ none := by
    intro hnone
    rw [follow_none hnone] at hj
    cases hj
  rw [follow_self hnone hlink] at hj
  cases hj
  exact ⟨rfl, hnone⟩

theorem Leads.start (h : Leads F fs fs') (d : Ino) (p : Path) : fs'.start d p = fs.start d p := by
  unfold Fs.start
  split
  · exact h.root
  · rfl

/-- One component after the other, through so many links. -/
theorem Leads.fold (h : Leads F fs fs') {n : Nat}
    (hfollow : ∀ d i j, fs.follow n d i = some j → F j → F i ∧ fs'.follow n d i = some j) :
    ∀ (p : Path) (d j : Ino),
      p.foldlM (fun e c => (fs.lookup e c).bind (fs.follow n e)) d = some j → F j →
      F d ∧ p.foldlM (fun e c => (fs'.lookup e c).bind (fs'.follow n e)) d = some j
  | [], d, j, hj, hF => by
      cases hj
      exact ⟨hF, rfl⟩
  | c :: p, d, j, hj, hF => by
      rw [List.foldlM_cons] at hj
      obtain ⟨e, he, hj⟩ := Option.bind_eq_some_iff.mp hj
      obtain ⟨i, hi, he⟩ := Option.bind_eq_some_iff.mp he
      obtain ⟨hFe, hrest⟩ := h.fold hfollow p e j hj hF
      obtain ⟨hFi, he'⟩ := hfollow d i e he hFe
      obtain ⟨hFd, hi'⟩ := h.lookup hi hFi
      refine ⟨hFd, ?_⟩
      rw [List.foldlM_cons]
      refine Option.bind_eq_some_iff.mpr ⟨e, ?_, hrest⟩
      exact Option.bind_eq_some_iff.mpr ⟨i, hi', he'⟩

theorem Leads.follow_self (h : Leads F fs fs')
    (hlink : ∀ target, fs.kind i ≠ some (.symlink target)) {n : Nat}
    (hj : fs.follow n d i = some j) (hF : F j) : F i ∧ fs'.follow n d i = some j := by
  obtain ⟨rfl, hnone⟩ := follow_eq_self hlink hj
  obtain ⟨hnone', hlink'⟩ := h.others hF hnone hlink
  exact ⟨hF, Inodes.follow_self hnone' hlink' n d⟩

/-- **Following**: what a name leads to, through symbolic links. -/
theorem Leads.follow (h : Leads F fs fs') : ∀ (n : Nat) (d i j : Ino),
    fs.follow n d i = some j → F j → F i ∧ fs'.follow n d i = some j := by
  intro n
  induction n with
  | zero =>
      intro d i j hj hF
      refine h.follow_self (fun target hkind => ?_) hj hF
      rw [follow_zero hkind] at hj
      cases hj
  | succ n ih =>
      intro d i j hj hF
      by_cases hlink : ∃ target, fs.kind i = some (.symlink target)
      · obtain ⟨target, hkind⟩ := hlink
        obtain ⟨hFi, hkind'⟩ := h.links hkind
        rw [follow_symlink hkind] at hj
        refine ⟨hFi, ?_⟩
        rw [follow_symlink hkind', h.start]
        exact (h.fold ih target _ j hj hF).2
      · rw [not_exists] at hlink
        exact h.follow_self hlink hj hF

/-- **Walking**: the same for a path. -/
theorem Leads.walk (h : Leads F fs fs') (hj : fs.walk d p = some j) (hF : F j) :
    fs'.walk d p = some j :=
  (h.fold (h.follow Fs.maxLinks) p d j hj hF).2

/-- The directory that a path ends in. -/
theorem Leads.parent (h : Leads F fs fs') {dc : Ino × Name} (hdc : fs.parent p = some dc)
    (hF : F dc.1) : fs'.parent p = some dc := by
  unfold Fs.parent at hdc ⊢
  split_ifs at hdc ⊢ with hnil
  rw [h.start, h.cwd]
  obtain ⟨e, he, rfl⟩ := Option.map_eq_some_iff.mp hdc
  rw [h.walk he hF]
  rfl

theorem lstat_eq_some : fs.lstat p = some i ↔
    ∃ dc, fs.parent p = some dc ∧ fs.lookup dc.1 dc.2 = some i ∧ fs.kind i ≠ none := by
  unfold Fs.lstat
  simp [Option.bind_eq_some_iff, Option.filter_eq_some_iff, Option.isSome_iff_ne_none]

theorem stat_eq_some : fs.stat p = some i ↔
    ∃ dc j, fs.parent p = some dc ∧ fs.lookup dc.1 dc.2 = some j
      ∧ fs.follow Fs.maxLinks dc.1 j = some i := by
  unfold Fs.stat Fs.step
  simp [Option.bind_eq_some_iff]

theorem stat_of_lstat (hi : fs.lstat p = some i)
    (hlink : ∀ target, fs.kind i ≠ some (.symlink target)) : fs.stat p = some i := by
  rw [lstat_eq_some] at hi
  obtain ⟨dc, hdc, hlookup, hnone⟩ := hi
  rw [stat_eq_some]
  exact ⟨dc, i, hdc, hlookup, follow_self hnone hlink _ _⟩

/-- Where nothing is found, nothing is led to. -/
theorem stat_eq_none (h : fs.lstat p = none) : fs.stat p = none := by
  rw [Option.eq_none_iff_forall_ne_some]
  intro i hi
  rw [stat_eq_some] at hi
  obtain ⟨dc, j, hdc, hj, hi⟩ := hi
  have hnone : fs.kind j ≠ none := by
    intro hnone
    rw [follow_none hnone] at hi
    cases hi
  have hi' : fs.lstat p = some j := by
    rw [lstat_eq_some]
    exact ⟨dc, hdc, hj, hnone⟩
  rw [hi'] at h
  cases h

/-- **What a path is**, it still is. -/
theorem Leads.lstat (h : Leads F fs fs') (hi : fs.lstat p = some i) (hF : F i) :
    fs'.lstat p = some i := by
  rw [lstat_eq_some] at hi ⊢
  obtain ⟨dc, hdc, hlookup, hnone⟩ := hi
  obtain ⟨hFd, hlookup'⟩ := h.lookup hlookup hF
  refine ⟨dc, h.parent hdc hFd, hlookup', ?_⟩
  by_cases hlink : ∃ target, fs.kind i = some (.symlink target)
  · obtain ⟨target, hkind⟩ := hlink
    rw [(h.links hkind).2]
    simp
  · exact (h.others hF hnone (not_exists.mp hlink)).1

/-- **What a path leads to**, it still leads to. -/
theorem Leads.stat (h : Leads F fs fs') (hj : fs.stat p = some j) (hF : F j) :
    fs'.stat p = some j := by
  rw [stat_eq_some] at hj ⊢
  obtain ⟨dc, i, hdc, hi, hj⟩ := hj
  obtain ⟨hFi, hj'⟩ := h.follow _ _ _ _ hj hF
  obtain ⟨hFd, hi'⟩ := h.lookup hi hFi
  exact ⟨dc, i, h.parent hdc hFd, hi', hj'⟩

end Follow

/-! ## §5. What was there is kept. -/

section Kept

variable {fs fs' : Fs} {d i : Ino} {c : Name} {p : Path}

theorem Kept.refl (fs : Fs) (n : Inode) : Kept fs n n := by
  unfold Kept
  cases hkind : n.kind with
  | dir names => exact ⟨names, rfl, fun _ _ h _ => h⟩
  | fifo | file | symlink | special => rfl

theorem Extends.refl (fs : Fs) : Extends fs fs :=
  ⟨rfl, rfl, fun _ n h => ⟨n, h, Kept.refl fs n⟩⟩

/-- What is not a directory is of the same kind. -/
theorem Extends.kind (h : Extends fs fs') {k : Kind} (hk : fs.kind i = some k)
    (hdir : ∀ names, k ≠ .dir names) : fs'.kind i = some k := by
  obtain ⟨n, hn, rfl⟩ := kind_eq_some.mp hk
  obtain ⟨n', hn', hkept⟩ := h.kept i n hn
  refine kind_eq_some.mpr ⟨n', hn', ?_⟩
  unfold Kept at hkept
  cases hkind : n.kind with
  | dir names => exact absurd hkind (hdir names)
  | fifo =>
      rw [hkind] at hkept
      exact hkept
  | file | symlink | special =>
      simp only [hkind] at hkept
      rw [hkept, hkind]

/-- A directory is still a directory. -/
theorem Extends.kind_dir (h : Extends fs fs') {names : Names}
    (hk : fs.kind i = some (.dir names)) : ∃ names', fs'.kind i = some (.dir names') := by
  obtain ⟨n, hn, hkind⟩ := kind_eq_some.mp hk
  obtain ⟨n', hn', hkept⟩ := h.kept i n hn
  unfold Kept at hkept
  rw [hkind] at hkept
  obtain ⟨names', hkind', -⟩ := hkept
  exact ⟨names', kind_eq_some.mpr ⟨n', hn', hkind'⟩⟩

/-- A name still stands for what it stood for. -/
theorem Extends.lookup (h : Extends fs fs') (hi : fs.lookup d c = some i)
    (hfirm : fs.Firm i) : fs'.lookup d c = some i := by
  unfold Fs.lookup at hi ⊢
  obtain ⟨names, hnames, hi⟩ := Option.bind_eq_some_iff.mp hi
  obtain ⟨n, hn, hkind⟩ := kind_eq_some.mp (names_eq_some.mp hnames)
  obtain ⟨n', hn', hkept⟩ := h.kept d n hn
  unfold Kept at hkept
  rw [hkind] at hkept
  obtain ⟨names', hkind', hlookup⟩ := hkept
  rw [Option.bind_eq_some_iff]
  exact ⟨names', names_eq_some.mpr (kind_eq_some.mpr ⟨n', hn', hkind'⟩), hlookup _ i hi hfirm⟩

/-- What has a name in it is a directory. -/
theorem names_of_lookup (h : fs.lookup d c = some i) : ∃ names, fs.names d = some names := by
  unfold Fs.lookup at h
  obtain ⟨names, hnames, -⟩ := Option.bind_eq_some_iff.mp h
  exact ⟨names, hnames⟩

theorem firm_of_lookup (h : fs.lookup d c = some i) : fs.Firm d := by
  obtain ⟨names, hnames⟩ := names_of_lookup h
  exact ⟨_, names_eq_some.mp hnames, by simp⟩

/-- **Where paths led to, they still lead to**, but for fifos. -/
theorem Extends.leads (h : Extends fs fs') : Leads fs.Firm fs fs' where
  root := h.root
  cwd := h.cwd
  lookup hi hfirm := ⟨firm_of_lookup hi, h.lookup hi hfirm⟩
  links hkind := ⟨⟨_, hkind, by simp⟩, h.kind hkind (by simp)⟩
  others := by
    rintro i - hnone hlink
    obtain ⟨k, hk⟩ := Option.ne_none_iff_exists'.mp hnone
    by_cases hdir : ∃ names, k = .dir names
    · obtain ⟨names, rfl⟩ := hdir
      obtain ⟨names', hk'⟩ := h.kind_dir hk
      simp [hk']
    · have hk' := h.kind hk fun names heq => hdir ⟨names, heq⟩
      rw [hk', ← hk]
      exact ⟨hnone, hlink⟩

/-- **What was there is unchanged**, whatever path leads to it. -/
theorem Extends.unchanged (h : Extends fs fs') (p : Path) : Unchanged fs fs' p := by
  intro i n hi hn hsolid
  have hfirm : fs.Firm i := by
    refine ⟨n.kind, kind_eq_some.mpr ⟨n, hn, rfl⟩, fun hfifo => ?_⟩
    simp [Inode.solid, hfifo] at hsolid
  refine ⟨h.leads.lstat hi hfirm, ?_⟩
  obtain ⟨n', hn', hkept⟩ := h.kept i n hn
  rw [hn']
  unfold Kept at hkept
  unfold Inode.solid at hsolid
  split at hkept <;> simp_all

end Kept

/-! ## §6. Calls that leave alone what was there. -/

section Calls

variable {fs fs' : Fs} {d i : Ino} {c : Name} {p : Path} {t : Fs}

/-- Changing an inode in a way that keeps it. -/
theorem Extends.modify (h : Extends fs t) {f : Inode → Inode}
    (hf : ∀ n n', fs.inodes[i]? = some n → t.inodes[i]? = some n' → Kept fs n n' →
      Kept fs n (f n')) : Extends fs (t.modify i f) where
  root := h.root
  cwd := h.cwd
  kept := by
    intro j n hn
    obtain ⟨n', hn', hkept⟩ := h.kept j n hn
    unfold Fs.modify
    by_cases hij : i = j
    · subst hij
      refine ⟨f n', ?_, hf n n' hn hn' hkept⟩
      simp [hn']
    · refine ⟨n', ?_, hkept⟩
      simp [hij, hn']

theorem Extends.alloc (h : Extends fs t) (n : Inode) : Extends fs (t.alloc n) where
  root := h.root
  cwd := h.cwd
  kept := by
    intro j m hm
    obtain ⟨m', hm', hkept⟩ := h.kept j m hm
    refine ⟨m', ?_, hkept⟩
    have hlt : j < t.inodes.length := (List.getElem?_eq_some_iff.mp hm').1
    unfold Fs.alloc
    rw [List.getElem?_append_left hlt, hm']

/-- Changing the names in a directory: those that count are still there. -/
theorem Extends.onNames (h : Extends fs t) {f : Names → Names}
    (hf : ∀ names names' x j, fs.kind d = some (.dir names) → names.lookup x = some j →
      fs.Firm j → names'.lookup x = some j → (f names').lookup x = some j) :
    Extends fs (t.modify d fun n =>
      match n.kind with
      | .dir names => { n with kind := .dir (f names) }
      | _ => n) := by
  refine h.modify fun n n' hn _ hkept => ?_
  unfold Kept at hkept ⊢
  cases hkind : n.kind with
  | dir names =>
      rw [hkind] at hkept
      obtain ⟨names', hkind', hlookup⟩ := hkept
      simp only [hkind']
      refine ⟨f names', rfl, fun x j hj hfirm => ?_⟩
      exact hf names names' x j (kind_eq_some.mpr ⟨n, hn, hkind⟩) hj hfirm (hlookup x j hj hfirm)
  | fifo =>
      simp only [hkind] at hkept ⊢
      simp only [hkept]
  | file | symlink | special =>
      simp only [hkind] at hkept ⊢
      subst hkept
      simp only [hkind]

/-- Changing what is not solid there, and leaving directories and fifos what they are. -/
theorem Extends.onSoft (h : Extends fs t) (hi : ¬ fs.Solid i) {f : Inode → Inode}
    (hf : ∀ n, n.solid = false → (f n).kind = n.kind) : Extends fs (t.modify i f) := by
  refine h.modify fun n n' hn _ hkept => ?_
  have hsoft : n.solid = false := by
    by_contra hsolid
    exact hi ⟨n, hn, by simpa using hsolid⟩
  unfold Kept at hkept ⊢
  unfold Inode.solid at hsoft
  cases hkind : n.kind with
  | dir names =>
      rw [hkind] at hkept
      obtain ⟨names', hkind', hlookup⟩ := hkept
      refine ⟨names', ?_, hlookup⟩
      rw [hf n' (by simp [Inode.solid, hkind']), hkind']
  | fifo =>
      simp only [hkind] at hkept ⊢
      rw [hf n' (by simp [Inode.solid, hkept]), hkept]
  | file | symlink | special => simp [hkind] at hsoft

/-- The names that are left are those that were there. -/
theorem lookup_filter {x c : Name} (hx : x ≠ c) (names : Names) :
    (names.filter fun y => y.1 ≠ c).lookup x = names.lookup x := by
  induction names with
  | nil => rfl
  | cons y names ih =>
      obtain ⟨y, j⟩ := y
      by_cases hy : y = c
      · subst hy
        have hne : (x == y) = false := by simpa using hx
        rw [List.filter_cons_of_neg (by simp), ih, List.lookup_cons, hne]
      · rw [List.filter_cons_of_pos (by simpa using hy), List.lookup_cons, List.lookup_cons, ih]

theorem Extends.addName (h : Extends fs t) (d : Ino) (c : Name) (i : Ino) :
    Extends fs (t.addName d c i) := by
  refine h.onNames (f := fun names => names ++ [(c, i)]) fun _ names' x j _ _ _ hj => ?_
  rw [List.lookup_append, hj]
  rfl

theorem Extends.setAttrs (h : Extends fs t) (hi : ¬ fs.Solid i) (f : Attrs → Attrs) :
    Extends fs (t.setAttrs i f) :=
  h.onSoft hi fun _ _ => rfl

theorem Extends.write (h : Extends fs t) (hi : ¬ fs.Solid i) (b : List UInt8) :
    Extends fs (t.write i b) := by
  refine h.onSoft hi fun n hn => ?_
  unfold Inode.solid at hn
  cases hkind : n.kind <;> simp_all

theorem Extends.create (h : Extends fs t) {n : Ino → Ino → Inode} {t' : Fs}
    (ht : t.create p n = some t') : Extends fs t' := by
  obtain ⟨dc, -, rfl⟩ := Option.map_eq_some_iff.mp ht
  exact (h.alloc _).addName _ _ _

theorem Extends.link (h : Extends fs t) {old : Path} {t' : Fs} (ht : t.link old p = some t') :
    Extends fs t' := by
  obtain ⟨i, -, ht⟩ := Option.bind_eq_some_iff.mp ht
  split_ifs at ht
  obtain ⟨dc, -, rfl⟩ := Option.map_eq_some_iff.mp ht
  exact h.addName _ _ _

/-- A name that is taken away does not lead to anything solid that was there. -/
theorem Extends.unlink (h : Extends fs t) (hp : ∀ i, t.lstat p = some i → ¬ fs.Solid i) {t' : Fs}
    (ht : t.unlink p = some t') : Extends fs t' := by
  obtain ⟨dc, hdc, ht⟩ := Option.bind_eq_some_iff.mp ht
  obtain ⟨i, hi, ht⟩ := Option.bind_eq_some_iff.mp ht
  split_ifs at ht with hdir
  rw [not_or] at hdir
  cases ht
  refine h.onNames fun names names' x j hnames hj hfirm hj' => ?_
  have hx : x ≠ dc.2 := by
    rintro rfl
    have hlookup : fs.lookup dc.1 dc.2 = some j := by
      unfold Fs.lookup
      rw [names_eq_some.mpr hnames, if_neg hdir.2]
      exact hj
    have hsame := h.lookup hlookup hfirm
    rw [hi, Option.some.injEq] at hsame
    subst hsame
    obtain ⟨k, hk, hne⟩ := hfirm
    by_cases hkdir : ∃ l, k = .dir l
    · obtain ⟨l, rfl⟩ := hkdir
      obtain ⟨l', hl'⟩ := h.kind_dir hk
      simp [names_eq_some.mpr hl'] at hdir
    · have hk' := h.kind hk fun l heq => hkdir ⟨l, heq⟩
      refine hp i (lstat_eq_some.mpr ⟨dc, hdc, hi, by simp [hk']⟩) ?_
      obtain ⟨n, hn, rfl⟩ := kind_eq_some.mp hk
      refine ⟨n, hn, ?_⟩
      unfold Inode.solid
      split
      · exact absurd ⟨_, ‹_›⟩ hkdir
      · exact absurd ‹_› hne
      · rfl
  rw [lookup_filter hx]
  exact hj'

theorem Extends.truncate (h : Extends fs t) (hi : ¬ fs.Solid i) : Extends fs (t.truncate i) := by
  refine h.onSoft hi fun n hn => ?_
  unfold Inode.solid at hn
  cases hkind : n.kind <;> simp_all

/-- What is opened for writing gets the next number, or was there and is emptied. -/
theorem openWrite_cases {t' : Fs} (ht : t.openWrite p = some (t', i)) :
    (∃ d c, ((t.parent p).bind fun dc => t.openPlace Fs.maxLinks dc.1 dc.2) = some (d, c)
        ∧ i = t.inodes.length ∧ t' = (t.alloc { kind := .file [] }).addName d c t.inodes.length)
      ∨ t.stat p = some i ∧ t' = t.truncate i
        ∧ (∀ names, t.kind i ≠ some (.dir names))
        ∧ ∀ target, t.kind i ≠ some (.symlink target) := by
  unfold Fs.openWrite at ht
  cases hstat : t.stat p with
  | none =>
      rw [hstat] at ht
      obtain ⟨⟨d, c⟩, hdc, heq⟩ := Option.map_eq_some_iff.mp ht
      rw [Prod.mk.injEq] at heq
      exact Or.inl ⟨d, c, hdc, heq.2.symm, heq.1.symm⟩
  | some j =>
      simp only [hstat] at ht
      split at ht
      · cases ht
      · cases ht
      · cases ht
      · rename_i k hdir hlink hk
        cases ht
        refine Or.inr ⟨rfl, rfl, fun names heq => ?_, fun target heq => ?_⟩
        · exact hdir names (Option.some.inj (hk.symm.trans heq))
        · exact hlink target (Option.some.inj (hk.symm.trans heq))

/-- A file that is opened is new, or may be emptied. -/
theorem Extends.openWrite (h : Extends fs t) (hp : ∀ i, t.stat p = some i → ¬ fs.Solid i) {t' : Fs}
    (ht : t.openWrite p = some (t', i)) : Extends fs t' := by
  obtain ⟨d, c, -, -, rfl⟩ | ⟨hstat, rfl, -⟩ := openWrite_cases ht
  · exact (h.alloc _).addName _ _ _
  · exact h.truncate (hp i hstat)

/-- What gets the next number was not there. -/
theorem Extends.not_solid_new (h : Extends fs t) : ¬ fs.Solid t.inodes.length := by
  rintro ⟨n, hn, -⟩
  obtain ⟨n', hn', -⟩ := h.kept _ n hn
  have hlt := (List.getElem?_eq_some_iff.mp hn').1
  exact absurd hlt (Nat.lt_irrefl _)

theorem not_solid_openWrite (h : Extends fs t) (hp : ∀ i, t.stat p = some i → ¬ fs.Solid i)
    {t' : Fs} (ht : t.openWrite p = some (t', i)) : ¬ fs.Solid i := by
  obtain ⟨d, c, -, rfl, -⟩ | ⟨hstat, -, -⟩ := openWrite_cases ht
  · exact h.not_solid_new
  · exact hp i hstat

theorem not_solid_dir (h : Extends fs t) {names : Names} (hk : t.kind i = some (.dir names)) :
    ¬ fs.Solid i := by
  rintro ⟨n, hn, hsolid⟩
  have hk' : fs.kind i = some n.kind := kind_eq_some.mpr ⟨n, hn, rfl⟩
  have hdir : ∀ l, n.kind ≠ .dir l := by
    intro l hl
    simp [Inode.solid, hl] at hsolid
  have hsame := h.kind hk' hdir
  rw [hk, Option.some.injEq] at hsame
  exact hdir names hsame.symm

end Calls

/-! ## §7. What is new. -/

section New

variable {fs t : Fs} {d i j : Ino} {c : Name} {p : Path}

theorem place_eq_some {dc : Ino × Name} (h : fs.place p = some dc) :
    fs.parent p = some dc ∧ (∃ names, fs.names dc.1 = some names ∧ names.lookup dc.2 = none)
      ∧ dc.2 ≠ [] := by
  unfold Fs.place at h
  obtain ⟨hparent, hplace⟩ := Option.filter_eq_some_iff.mp h
  simp only [Bool.and_eq_true, Option.isSome_iff_exists, Option.isNone_iff_eq_none,
    decide_eq_true_eq] at hplace
  obtain ⟨⟨⟨names, hnames⟩, hlookup⟩, hne⟩ := hplace
  refine ⟨hparent, ⟨names, hnames, ?_⟩, hne⟩
  unfold Fs.lookup at hlookup
  rw [hnames, if_neg hne] at hlookup
  exact hlookup

/-- **Something new**: the path leads to it. -/
theorem create_spec {n : Ino → Ino → Inode} (h : fs.create p n = some t) :
    Extends fs t ∧ ∃ dc, fs.place p = some dc ∧ t.parent p = some dc
      ∧ t.lookup dc.1 dc.2 = some fs.inodes.length
      ∧ t.inodes[fs.inodes.length]? = some (n fs.inodes.length dc.1) := by
  have hext := (Extends.refl fs).create h
  obtain ⟨dc, hplace, rfl⟩ := Option.map_eq_some_iff.mp h
  obtain ⟨hparent, ⟨names, hnames, hlookup⟩, hne⟩ := place_eq_some hplace
  have hkind := names_eq_some.mp hnames
  obtain ⟨m, hm, hmkind⟩ := kind_eq_some.mp hkind
  have hlt : dc.1 < fs.inodes.length := (List.getElem?_eq_some_iff.mp hm).1
  refine ⟨hext, dc, hplace, hext.leads.parent hparent ⟨_, hkind, by simp⟩, ?_, ?_⟩
  · have hadded :
        ((fs.alloc (n fs.inodes.length dc.1)).addName dc.1 dc.2 fs.inodes.length).kind dc.1
        = some (.dir (names ++ [(dc.2, fs.inodes.length)])) := by
      unfold Fs.kind Fs.addName Fs.modify Fs.alloc
      simp [List.getElem?_append_left hlt, hm, hmkind]
    unfold Fs.lookup
    rw [names_eq_some.mpr hadded, if_neg hne]
    simp [List.lookup_append, hlookup]
  · unfold Fs.addName Fs.modify Fs.alloc
    simp [Nat.ne_of_lt hlt]

/-- It is what it leads to, unless it is a symbolic link. -/
theorem create_lstat {n : Ino → Ino → Inode} (h : fs.create p n = some t) :
    t.lstat p = some fs.inodes.length := by
  obtain ⟨-, dc, -, hparent, hlookup, hnew⟩ := create_spec h
  refine lstat_eq_some.mpr ⟨dc, hparent, hlookup, ?_⟩
  rw [kind_eq_some.mpr ⟨_, hnew, rfl⟩]
  simp

theorem create_stat {n : Ino → Ino → Inode} (h : fs.create p n = some t)
    (hn : ∀ i d target, (n i d).kind ≠ .symlink target) : t.stat p = some fs.inodes.length := by
  obtain ⟨-, dc, -, hparent, hlookup, hnew⟩ := create_spec h
  have hkind := kind_eq_some.mpr ⟨_, hnew, rfl⟩
  refine stat_eq_some.mpr ⟨dc, _, hparent, hlookup, follow_self (by simp [hkind]) ?_ _ _⟩
  intro target heq
  rw [hkind, Option.some.injEq] at heq
  exact hn _ _ _ heq

theorem start_append (d : Ino) {p : Path} (hp : p ≠ []) (hp' : p ≠ [[]]) (q : Path) :
    fs.start d (p ++ q) = fs.start d p := by
  match p with
  | [] => exact absurd rfl hp
  | [c] =>
      have hc : c ≠ [] := fun h => hp' (by rw [h])
      cases q with
      | nil => rfl
      | cons e q =>
          unfold Fs.start
          split
          · simp_all
          · split <;> simp_all
  | c :: e :: p =>
      cases c with
      | nil => rfl
      | cons x c => rfl

theorem walk_concat (d : Ino) (p : Path) (c : Name) :
    fs.walk d (p ++ [c]) = (fs.walk d p).bind fun e => fs.step e c := by
  unfold Fs.walk
  rw [List.foldlM_append]
  show (p.foldlM fs.step d).bind _ = _
  refine congrArg _ (funext fun e => ?_)
  show (fs.step e c).bind _ = _
  cases fs.step e c <;> rfl

theorem stat_eq_walk (hp : p ≠ []) (hp' : p ≠ [[]]) :
    fs.stat p = fs.walk (fs.start fs.cwd p) p := by
  obtain ⟨q, x, rfl⟩ := List.eq_nil_or_concat p |>.resolve_left hp
  rw [List.concat_eq_append] at hp hp' ⊢
  unfold Fs.stat Fs.parent
  rw [if_neg (not_or.mpr ⟨hp, hp'⟩), List.dropLast_concat, List.getLast?_concat, walk_concat]
  cases fs.walk (fs.start fs.cwd (q ++ [x])) q <;> rfl

/-- Below a path that leads somewhere. -/
theorem parent_append (hp : p ≠ []) (hp' : p ≠ [[]]) (c : Name) :
    fs.parent (p ++ [c]) = (fs.stat p).map fun d => (d, c) := by
  have hne : ¬ (p ++ [c] = [] ∨ p ++ [c] = [[]]) := by
    rintro (h | h)
    · simp at h
    · have hlen := congrArg List.length h
      simp only [List.length_append, List.length_singleton] at hlen
      exact hp (List.length_eq_zero_iff.mp (by omega))
  unfold Fs.parent
  rw [if_neg hne, List.dropLast_concat, List.getLast?_concat, start_append _ hp hp',
    stat_eq_walk hp hp']
  rfl

theorem mem_of_lookup {x : Name} : ∀ {names : Names}, names.lookup x = some i →
    ∃ y, (y, i) ∈ names
  | [], h => by cases h
  | (y, j) :: names, h => by
      rw [List.lookup_cons] at h
      split at h
      · cases h
        exact ⟨y, List.mem_cons_self⟩
      · obtain ⟨z, hz⟩ := mem_of_lookup h
        exact ⟨z, List.mem_cons_of_mem _ hz⟩

/-- **Below a directory that has just been made** there is nothing but directories. -/
theorem below_mkdir {q : Path} (hq : q ≠ []) (hq' : q ≠ [[]]) (h : fs.mkdir q = some t)
    (hi : t.lstat (q ++ [c]) = some i ∨ t.stat (q ++ [c]) = some i) :
    ∃ names, t.kind i = some (.dir names) := by
  obtain ⟨hext, dc, hplace, -, -, hnew⟩ := create_spec h
  obtain ⟨-, ⟨names, hnames, -⟩, -⟩ := place_eq_some hplace
  obtain ⟨names', hup⟩ := hext.kind_dir (names_eq_some.mp hnames)
  have hkind : t.kind fs.inodes.length
      = some (.dir [([46], fs.inodes.length), ([46, 46], dc.1)]) := kind_eq_some.mpr ⟨_, hnew, rfl⟩
  have hparent : t.parent (q ++ [c]) = some (fs.inodes.length, c) := by
    rw [parent_append hq hq', create_stat h (by simp)]
    rfl
  have hlookup : ∀ j, t.lookup fs.inodes.length c = some j →
      ∃ l, t.kind j = some (.dir l) := by
    intro j hj
    unfold Fs.lookup at hj
    rw [names_eq_some.mpr hkind] at hj
    obtain ⟨x, hx⟩ := mem_of_lookup hj
    simp only [List.mem_cons, Prod.mk.injEq, List.not_mem_nil, or_false] at hx
    rcases hx with ⟨-, rfl⟩ | ⟨-, rfl⟩
    · exact ⟨_, hkind⟩
    · exact ⟨_, hup⟩
  rcases hi with hi | hi
  · obtain ⟨dc', hdc', hi, -⟩ := lstat_eq_some.mp hi
    rw [hparent, Option.some.injEq] at hdc'
    subst hdc'
    exact hlookup i hi
  · obtain ⟨dc', j, hdc', hj, hi⟩ := stat_eq_some.mp hi
    rw [hparent, Option.some.injEq] at hdc'
    subst hdc'
    obtain ⟨l, hl⟩ := hlookup j hj
    obtain ⟨rfl, -⟩ := follow_eq_self (by simp [hl]) hi
    exact ⟨l, hl⟩

end New

/-! ## §8. Where paths can lead to then. -/

/-- A path leads where it led to, or to something new that is in `X`. -/
def Adds (X : Ino → Prop) (fs t : Fs) : Prop := Leads (fun i => ¬ X i) t fs

/-- All names are the same, and what they lead to. -/
structure Alike (fs t : Fs) : Prop where
  root : t.root = fs.root
  cwd : t.cwd = fs.cwd
  names : ∀ i, t.names i = fs.names i
  links : ∀ i target, t.kind i = some (.symlink target) ↔ fs.kind i = some (.symlink target)
  there : ∀ i, t.kind i = none ↔ fs.kind i = none

section Adds

variable {X : Ino → Prop} {fs t u : Fs} {d i j : Ino} {c : Name} {names : Names} {p : Path}

/-- **Where a path leads to now**: to where it led, or to something new. -/
theorem Adds.stat (h : Adds X fs t) (hj : t.stat p = some j) : X j ∨ fs.stat p = some j := by
  by_cases hX : X j
  · exact Or.inl hX
  · exact Or.inr (Leads.stat h hj hX)

theorem Adds.refl
    (hX : ∀ i, X i → fs.names i = none ∧ ∀ target, fs.kind i ≠ some (.symlink target)) :
    Adds X fs fs where
  root := rfl
  cwd := rfl
  lookup := by
    refine fun {d c i} hi _ => ⟨fun hd => ?_, hi⟩
    obtain ⟨names, hnames⟩ := names_of_lookup hi
    rw [(hX d hd).1] at hnames
    cases hnames
  links hkind := ⟨fun hi => (hX _ hi).2 _ hkind, hkind⟩
  others _ hnone hlink := ⟨hnone, hlink⟩

theorem Alike.refl (fs : Fs) : Alike fs fs :=
  ⟨rfl, rfl, fun _ => rfl, fun _ _ => Iff.rfl, fun _ => Iff.rfl⟩

theorem Alike.trans (h : Alike fs t) (h' : Alike t u) : Alike fs u :=
  ⟨h'.root.trans h.root, h'.cwd.trans h.cwd, fun i => (h'.names i).trans (h.names i),
    fun i target => (h'.links i target).trans (h.links i target),
    fun i => (h'.there i).trans (h.there i)⟩

theorem Alike.lookup (h : Alike fs t) (d : Ino) (c : Name) : t.lookup d c = fs.lookup d c := by
  unfold Fs.lookup
  rw [h.names]

theorem Adds.alike (h : Adds X fs t) (hsame : Alike t u) : Adds X fs u where
  root := h.root.trans hsame.root.symm
  cwd := h.cwd.trans hsame.cwd.symm
  lookup hi hX := h.lookup (by rwa [hsame.lookup] at hi) hX
  links hkind := h.links ((hsame.links _ _).mp hkind)
  others hX hnone hlink := h.others hX (fun heq => hnone ((hsame.there _).mpr heq))
    fun target heq => hlink target ((hsame.links _ _).mpr heq)

/-- Changing an inode, but neither its names nor what it leads to. -/
theorem modify_alike (fs : Fs) (i : Ino) {f : Inode → Inode}
    (hf : ∀ n, (f n).kind = n.kind ∨ ∃ a b, n.kind = .file a ∧ (f n).kind = .file b) :
    Alike fs (fs.modify i f) := by
  have hkind : ∀ j, (fs.modify i f).kind j = fs.kind j
      ∨ ∃ a b, fs.kind j = some (.file a) ∧ (fs.modify i f).kind j = some (.file b) := by
    intro j
    unfold Fs.kind Fs.modify
    cases hn : fs.inodes[j]? with
    | none => simp [List.getElem?_eq_none_iff.mp hn]
    | some n =>
        by_cases hij : i = j
        · subst hij
          rcases hf n with hsame | ⟨a, b, ha, hb⟩
          · simp [hn, hsame]
          · exact Or.inr ⟨a, b, by simp [ha], by simp [hn, hb]⟩
        · simp [hij, hn]
  refine ⟨rfl, rfl, fun j => ?_, fun j target => ?_, fun j => ?_⟩
  · unfold Fs.names
    rcases hkind j with hsame | ⟨a, b, ha, hb⟩
    · rw [hsame]
    · rw [ha, hb]
  · rcases hkind j with hsame | ⟨a, b, ha, hb⟩
    · rw [hsame]
    · simp [ha, hb]
  · rcases hkind j with hsame | ⟨a, b, ha, hb⟩
    · rw [hsame]
    · simp [ha, hb]

theorem setAttrs_alike (fs : Fs) (i : Ino) (f : Attrs → Attrs) : Alike fs (fs.setAttrs i f) :=
  modify_alike fs i fun _ => Or.inl rfl

theorem write_alike (fs : Fs) (i : Ino) (b : List UInt8) : Alike fs (fs.write i b) :=
  modify_alike fs i fun n => by cases hkind : n.kind <;> simp [hkind]

theorem truncate_alike (fs : Fs) (i : Ino) : Alike fs (fs.truncate i) :=
  modify_alike fs i fun n => by cases hkind : n.kind <;> simp [hkind]

theorem kind_addName_self (hkind : fs.kind d = some (.dir names)) :
    (fs.addName d c i).kind d = some (.dir (names ++ [(c, i)])) := by
  obtain ⟨n, hn, hnkind⟩ := kind_eq_some.mp hkind
  refine kind_eq_some.mpr ⟨{ n with kind := .dir (names ++ [(c, i)]) }, ?_, rfl⟩
  unfold Fs.addName Fs.modify
  simp [hn, hnkind]

theorem kind_addName_of_ne (hj : j ≠ d) : (fs.addName d c i).kind j = fs.kind j := by
  unfold Fs.addName Fs.modify Fs.kind
  simp [hj.symm]

theorem kind_alloc_self (n : Inode) : (fs.alloc n).kind fs.inodes.length = some n.kind := by
  unfold Fs.alloc Fs.kind
  simp

theorem kind_alloc_of_ne (n : Inode) (hj : j ≠ fs.inodes.length) :
    (fs.alloc n).kind j = fs.kind j := by
  unfold Fs.alloc Fs.kind
  rcases Nat.lt_or_gt_of_ne hj with hlt | hgt
  · rw [List.getElem?_append_left hlt]
  · rw [List.getElem?_eq_none_iff.mpr (by simp; omega), List.getElem?_eq_none_iff.mpr (by omega)]

/-- A new name, in a directory that is there, for a new inode. -/
theorem Adds.new {n : Inode} {names : Names} (hd : fs.names d = some names)
    (hn : ∀ names, n.kind ≠ .dir names) (hn' : ∀ target, n.kind ≠ .symlink target) :
    Adds (· = fs.inodes.length) fs ((fs.alloc n).addName d c fs.inodes.length) := by
  have hdkind := names_eq_some.mp hd
  have hne : d ≠ fs.inodes.length := by
    rintro rfl
    obtain ⟨m, hm, -⟩ := kind_eq_some.mp hdkind
    exact absurd (List.getElem?_eq_some_iff.mp hm).1 (Nat.lt_irrefl _)
  have hdir := kind_addName_self (c := c) (i := fs.inodes.length)
    ((kind_alloc_of_ne n hne).trans hdkind)
  have hsame : ∀ j, j ≠ d → j ≠ fs.inodes.length →
      ((fs.alloc n).addName d c fs.inodes.length).kind j = fs.kind j :=
    fun j hj hj' => (kind_addName_of_ne hj).trans (kind_alloc_of_ne n hj')
  have hself : ((fs.alloc n).addName d c fs.inodes.length).kind fs.inodes.length = some n.kind :=
    (kind_addName_of_ne hne.symm).trans (kind_alloc_self n)
  have hleaf : ∀ l, ((fs.alloc n).addName d c fs.inodes.length).kind fs.inodes.length
      ≠ some (.dir l) := by
    intro l hl
    rw [hself, Option.some.injEq] at hl
    exact hn l hl
  refine ⟨rfl, rfl, fun {e x j} hj hnew => ⟨?_, ?_⟩, fun {j target} hj => ?_, fun {j} hnew => ?_⟩
  · rintro rfl
    obtain ⟨l, hl⟩ := names_of_lookup hj
    exact hleaf l (names_eq_some.mp hl)
  · unfold Fs.lookup at hj ⊢
    obtain ⟨l, hl, hj⟩ := Option.bind_eq_some_iff.mp hj
    rw [names_eq_some] at hl
    by_cases hed : e = d
    · subst hed
      rw [hdir] at hl
      cases hl
      rw [List.lookup_append, Option.or_eq_some_iff] at hj
      rw [hd]
      rcases hj with hold | ⟨-, hlast⟩
      · exact hold
      · obtain ⟨y, hy⟩ := mem_of_lookup hlast
        simp only [List.mem_singleton, Prod.mk.injEq] at hy
        exact absurd hy.2 hnew
    · have hel : e ≠ fs.inodes.length := by
        rintro rfl
        exact hleaf l hl
      rw [hsame e hed hel] at hl
      exact Option.bind_eq_some_iff.mpr ⟨l, names_eq_some.mpr hl, hj⟩
  · have hjl : j ≠ fs.inodes.length := by
      rintro rfl
      rw [hself, Option.some.injEq] at hj
      exact hn' target hj
    have hjd : j ≠ d := by
      rintro rfl
      rw [hdir] at hj
      cases hj
    rw [hsame j hjd hjl] at hj
    exact ⟨hjl, hj⟩
  · by_cases hjd : j = d
    · subst hjd
      simp [hdkind]
    · rw [hsame j hjd hnew]
      exact fun hnone hlink => ⟨hnone, hlink⟩

/-- A file that is not there is made in a directory. -/
theorem openPlace_names : ∀ {n : Nat} {d : Ino} {c : Name} {dc : Ino × Name},
    fs.openPlace n d c = some dc → ∃ names, fs.names dc.1 = some names := by
  intro n
  induction n with
  | zero =>
      intro d c dc h
      unfold Fs.openPlace at h
      split at h
      · split_ifs at h with hdir
        cases h
        simp only [Bool.and_eq_true, Option.isSome_iff_exists] at hdir
        exact hdir.1
      · cases h
  | succ n ih =>
      intro d c dc h
      unfold Fs.openPlace at h
      split at h
      · split_ifs at h with hdir
        cases h
        simp only [Bool.and_eq_true, Option.isSome_iff_exists] at hdir
        exact hdir.1
      · split at h
        · rename_i hsucc _
          rw [Nat.succ_inj] at hsucc
          subst hsucc
          obtain ⟨e, -, h⟩ := Option.bind_eq_some_iff.mp h
          exact ih h
        · cases h

/-- **What is opened for writing**: the path leads to that, or to what it led to. -/
theorem openWrite_adds (h : fs.openWrite p = some (t, i)) : Adds (· = i) fs t := by
  obtain ⟨d, c, hdc, rfl, rfl⟩ | ⟨-, rfl, hdir, hlink⟩ := openWrite_cases h
  · obtain ⟨e, -, hdc⟩ := Option.bind_eq_some_iff.mp hdc
    obtain ⟨names, hnames⟩ := openPlace_names hdc
    exact Adds.new hnames (by simp) (by simp)
  · refine (Adds.refl ?_).alike (truncate_alike _ _)
    rintro j rfl
    refine ⟨?_, hlink⟩
    rw [Option.eq_none_iff_forall_ne_some]
    intro l hl
    rw [names_eq_some] at hl
    exact hdir l hl

end Adds

end Inodes
