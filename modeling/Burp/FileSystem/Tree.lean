/-
  Burp.FileSystem.Tree — a directory tree with hard links.

  A file carries its inode number and its bytes; two files with the same number are hard
  links of one another, and writing through one writes through all.  Directories are
  lists of names in the order `readdir` delivers them.  Most proofs do not want the tree
  but its flat view: `look t p` says what `lstat` finds at the path `p`, and every
  operation on a leaf is a point update of that view.

  Main results:
    * `get_put` — what an update of one path does to every other path.
    * `look_put` — replacing a leaf is a point update of the flat view.
    * `look_mapData` — so is writing, at every link of the inode.
    * `look_ne_fresh` — a new inode number is in no file.
    * `nlink_put_of_absent`, `nlink_put_none` — the link count follows the links.
-/
import Mathlib.Tactic

namespace FileSystem

/-! ## §1. The tree. -/

abbrev Bytes := List UInt8

/-- A path below the root, one component after the other. -/
abbrev Path := List String

inductive Node where
  | file (ino : Nat) (data : Bytes)
  | symlink (target : String)
  | dir (entries : List (String × Node))

abbrev Entries := List (String × Node)

/-- The entry with a given name. -/
def find : Entries → String → Option Node
  | [], _ => none
  | (y, n) :: es, x => if y = x then some n else find es x

/-- Replace, add (at the end) or remove the entry with a given name. -/
def set : Entries → String → Option Node → Entries
  | [], x, some n => [(x, n)]
  | [], _, none => []
  | (y, m) :: es, x, some n => if y = x then (x, n) :: es else (y, m) :: set es x (some n)
  | (y, m) :: es, x, none => if y = x then set es x none else (y, m) :: set es x none

/-- The node at a path. -/
def Node.get : Node → Path → Option Node
  | n, [] => some n
  | .dir es, x :: p => (find es x).bind fun n => n.get p
  | _, _ :: _ => none

/-- Replace, add or remove the node at a path whose parent is a directory. -/
def Node.put : Node → Path → Option Node → Node
  | .dir es, [x], o => .dir (set es x o)
  | .dir es, x :: y :: p, o =>
      match find es x with
      | some n => .dir (set es x (some (n.put (y :: p) o)))
      | none => .dir es
  | n, _, _ => n

/-- What `lstat` tells about a node. -/
inductive Entry where
  | file (ino : Nat) (data : Bytes)
  | symlink (target : String)
  | dir
  deriving DecidableEq, Repr

def Node.entry : Node → Entry
  | .file i d => .file i d
  | .symlink t => .symlink t
  | .dir _ => .dir

/-- The flat view of a tree. -/
def look (t : Node) (p : Path) : Option Entry := (t.get p).map Node.entry

/-! ## §2. Lookup after an update. -/

section Lookup

attribute [local simp] find set

theorem find_set (es : Entries) (x y : String) (o : Option Node) :
    find (set es x o) y = if y = x then o else find es y := by
  induction es with
  | nil =>
      cases o with
      | none => simp
      | some n =>
          by_cases h : y = x
          · simp [h]
          · simp [h, Ne.symm h]
  | cons e es ih =>
      obtain ⟨z, m⟩ := e
      cases o with
      | none =>
          by_cases hzx : z = x
          · subst hzx
            simp only [set, if_true, ih, find]
            split
            · rfl
            · rw [if_neg (by rintro rfl; contradiction)]
          · simp only [set, if_neg hzx, find, ih]
            by_cases hzy : z = y
            · subst hzy
              simp [hzx]
            · simp [hzy]
      | some n =>
          by_cases hzx : z = x
          · subst hzx
            simp only [set, if_true, find]
            by_cases hzy : z = y
            · simp [hzy]
            · simp [hzy, Ne.symm hzy]
          · simp only [set, if_neg hzx, find, ih]
            by_cases hzy : z = y
            · subst hzy
              simp [hzx]
            · simp [hzy]

theorem find_split {es : Entries} {x : String} {n : Node} (h : find es x = some n) :
    ∃ l r, es = l ++ (x, n) :: r ∧ find l x = none := by
  induction es with
  | nil => simp at h
  | cons e es ih =>
      obtain ⟨y, m⟩ := e
      simp only [find] at h
      split at h
      next hyx =>
        simp only [Option.some.injEq] at h
        exact ⟨[], es, by rw [hyx, h]; rfl, rfl⟩
      next hyx =>
        obtain ⟨l, r, rfl, hl⟩ := ih h
        exact ⟨(y, m) :: l, r, rfl, by simp [hyx, hl]⟩

theorem find_append {es fs : Entries} {x : String} :
    find (es ++ fs) x = (find es x).or (find fs x) := by
  induction es with
  | nil => rfl
  | cons e es ih =>
      obtain ⟨y, m⟩ := e
      simp only [List.cons_append, find, ih]
      split <;> simp

theorem set_of_find_none {es : Entries} {x : String} (h : find es x = none) (n : Node) :
    set es x (some n) = es ++ [(x, n)] := by
  induction es with
  | nil => rfl
  | cons e es ih =>
      obtain ⟨y, m⟩ := e
      simp only [find] at h
      split at h
      · simp at h
      next hyx => simp [hyx, ih h]

/-- Removing what is not there changes nothing. -/
theorem set_none_of_find_none {es : Entries} {x : String} (h : find es x = none) :
    set es x none = es := by
  induction es with
  | nil => rfl
  | cons e es ih =>
      obtain ⟨y, m⟩ := e
      simp only [find] at h
      split at h
      · simp at h
      next hyx => simp [hyx, ih h]

theorem set_append_none {es fs : Entries} {x : String} :
    set (es ++ fs) x none = set es x none ++ set fs x none := by
  induction es with
  | nil => rfl
  | cons e es ih =>
      obtain ⟨y, m⟩ := e
      by_cases h : y = x
      · simp [h, ih]
      · simp [h, ih]

end Lookup

@[simp] theorem Node.get_nil (n : Node) : n.get [] = some n := by
  cases n <;> rfl

@[simp] theorem Node.get_dir_cons (es : Entries) (x : String) (p : Path) :
    (Node.dir es).get (x :: p) = (find es x).bind fun n => n.get p := rfl

theorem Node.get_append (n : Node) (p q : Path) :
    n.get (p ++ q) = (n.get p).bind fun m => m.get q := by
  induction p generalizing n with
  | nil => simp
  | cons x p ih =>
      cases n with
      | file i d => rfl
      | symlink t => rfl
      | dir es =>
          simp only [List.cons_append, Node.get_dir_cons]
          cases find es x with
          | none => rfl
          | some m => simpa using ih m

/-- A path is a directory of the tree. -/
def IsDir (t : Node) (p : Path) : Prop := look t p = some .dir

instance (t : Node) (p : Path) : Decidable (IsDir t p) :=
  inferInstanceAs (Decidable (look t p = some .dir))

theorem isDir_iff {t : Node} {p : Path} : IsDir t p ↔ ∃ es, t.get p = some (.dir es) := by
  unfold IsDir look
  constructor
  · intro h
    cases hget : t.get p with
    | none => rw [hget] at h; simp at h
    | some n =>
        rw [hget] at h
        cases n with
        | file i d => simp [Node.entry] at h
        | symlink s => simp [Node.entry] at h
        | dir es => exact ⟨es, rfl⟩
  · rintro ⟨es, h⟩
    rw [h]
    rfl

/-- Whatever is above something is a directory. -/
theorem isDir_of_look_append {t : Node} {p q : Path} (hq : q ≠ [])
    (h : look t (p ++ q) ≠ none) : IsDir t p := by
  obtain ⟨x, r, rfl⟩ := List.exists_cons_of_ne_nil hq
  rw [isDir_iff]
  unfold look at h
  rw [Node.get_append] at h
  cases hget : t.get p with
  | none => rw [hget] at h; simp at h
  | some n =>
      rw [hget] at h
      cases n with
      | file i d => simp [Node.get] at h
      | symlink s => simp [Node.get] at h
      | dir es => exact ⟨es, rfl⟩

section Update

attribute [local simp] Node.put

/-- **One update seen from every path**: at and below it, above it, elsewhere. -/
theorem get_put (o : Option Node) :
    ∀ (p : Path) (t : Node) (q : Path), p ≠ [] → IsDir t p.dropLast →
      (t.put p o).get q
        = if p <+: q then o.bind fun n => n.get (q.drop p.length)
          else if q <+: p then (t.get q).map fun n => n.put (p.drop q.length) o
          else t.get q
  | [], _, _, h, _ => absurd rfl h
  | [x], t, q, _, hdir => by
      obtain ⟨es, hes⟩ := isDir_iff.mp hdir
      simp only [List.dropLast_singleton, Node.get_nil, Option.some.injEq] at hes
      subst hes
      cases q with
      | nil => simp
      | cons y q =>
          simp only [Node.put, Node.get_dir_cons, find_set, List.cons_prefix_cons,
            List.nil_prefix, and_true]
          by_cases hyx : y = x
          · subst hyx
            simp
          · simp [hyx, Ne.symm hyx]
  | x :: y :: p, t, q, _, hdir => by
      obtain ⟨es, hes⟩ := isDir_iff.mp hdir
      cases t with
      | file i d => simp [Node.get] at hes
      | symlink s => simp [Node.get] at hes
      | dir fs =>
          simp only [List.dropLast_cons_cons, Node.get_dir_cons] at hes
          cases hfind : find fs x with
          | none => rw [hfind] at hes; simp at hes
          | some n =>
              rw [hfind] at hes
              have hdir' : IsDir n (y :: p).dropLast := isDir_iff.mpr ⟨es, hes⟩
              have ih := get_put o (y :: p) n
              cases q with
              | nil => simp [hfind]
              | cons z q =>
                  simp only [Node.put, hfind, Node.get_dir_cons, find_set,
                    List.cons_prefix_cons (a := x), List.cons_prefix_cons (a := z)]
                  by_cases hzx : z = x
                  · subst hzx
                    simp only [if_true, Option.bind_some, true_and, List.length_cons,
                      List.drop_succ_cons, hfind]
                    simpa using ih q (by simp) hdir'
                  · simp [hzx, Ne.symm hzx]

theorem set_self {es : Entries} {x : String} {n : Node} (h : find es x = some n) :
    set es x (some n) = es := by
  induction es with
  | nil => simp [find] at h
  | cons e es ih =>
      obtain ⟨y, m⟩ := e
      simp only [find] at h
      split at h
      next hyx =>
        simp only [Option.some.injEq] at h
        simp [set, hyx, h]
      next hyx => simp [set, hyx, ih h]

theorem set_set (es : Entries) (x : String) (m : Node) (o : Option Node) :
    set (set es x (some m)) x o = set es x o := by
  induction es with
  | nil => cases o <;> simp [set]
  | cons e es ih =>
      obtain ⟨y, m'⟩ := e
      by_cases hyx : y = x
      · cases o <;> simp [set, hyx]
      · cases o <;> simpa [set, hyx] using ih

/-- Putting back what is there. -/
theorem Node.put_self : ∀ {p : Path} {t n : Node}, p ≠ [] → t.get p = some n →
    t.put p (some n) = t
  | [], _, _, h, _ => absurd rfl h
  | x :: p, .file _ _, _, _, h => by simp [Node.get] at h
  | x :: p, .symlink _, _, _, h => by simp [Node.get] at h
  | [x], .dir es, n, _, h => by
      rw [Node.get_dir_cons] at h
      obtain ⟨m, hm, hmn⟩ := Option.bind_eq_some_iff.mp h
      simp only [Node.get_nil, Option.some.injEq] at hmn
      rw [Node.put, set_self (hmn ▸ hm)]
  | x :: y :: p, .dir es, n, _, h => by
      rw [Node.get_dir_cons] at h
      obtain ⟨m, hm, hmn⟩ := Option.bind_eq_some_iff.mp h
      simp only [Node.put, hm]
      rw [Node.put_self (by simp) hmn, set_self hm]

/-- The last of two updates of one path counts. -/
theorem Node.put_put : ∀ (p : Path) (t m : Node) (o : Option Node),
    (t.put p (some m)).put p o = t.put p o
  | [], t, _, _ => by cases t <;> rfl
  | [x], .file _ _, _, _ => rfl
  | [x], .symlink _, _, _ => rfl
  | [x], .dir es, m, o => by rw [Node.put, Node.put, Node.put, set_set]
  | _ :: _ :: _, .file _ _, _, _ => rfl
  | _ :: _ :: _, .symlink _, _, _ => rfl
  | x :: y :: p, .dir es, m, o => by
      cases hfind : find es x with
      | none => simp only [Node.put, hfind]
      | some n =>
          simp only [Node.put, hfind, find_set, if_true, set_set]
          rw [Node.put_put (y :: p) n m o]

/-- An update below a directory is an update of that directory. -/
theorem Node.put_append : ∀ {d : Path} {t n : Node} {p : Path} (o : Option Node), d ≠ [] →
    p ≠ [] → t.get d = some n → t.put (d ++ p) o = t.put d (some (n.put p o))
  | [], _, _, _, _, h, _, _ => absurd rfl h
  | x :: d, .file _ _, _, _, _, _, _, h => by simp [Node.get] at h
  | x :: d, .symlink _, _, _, _, _, _, h => by simp [Node.get] at h
  | [x], .dir es, n, p, o, _, hp, h => by
      obtain ⟨y, p, rfl⟩ := List.exists_cons_of_ne_nil hp
      rw [Node.get_dir_cons] at h
      obtain ⟨m, hm, hmn⟩ := Option.bind_eq_some_iff.mp h
      simp only [Node.get_nil, Option.some.injEq] at hmn
      subst hmn
      simp only [List.singleton_append, Node.put, hm]
  | x :: y :: d, .dir es, n, p, o, _, hp, h => by
      rw [Node.get_dir_cons] at h
      obtain ⟨m, hm, hmn⟩ := Option.bind_eq_some_iff.mp h
      simp only [List.cons_append, Node.put, hm]
      rw [← List.cons_append, Node.put_append o (by simp) hp hmn]

end Update

/-- What replaces a leaf, or what a leaf is replaced by. -/
def Leaf (o : Option Node) : Prop := ∀ es, o = some (.dir es) → es = []

theorem Leaf.get_cons {n : Node} (h : Leaf (some n)) (x : String) (p : Path) :
    n.get (x :: p) = none := by
  cases n with
  | file i d => rfl
  | symlink t => rfl
  | dir es =>
      rw [h es rfl]
      rfl

theorem Leaf.file (i : Nat) (d : Bytes) : Leaf (some (.file i d)) := by
  intro es h
  simp at h

theorem Leaf.none : Leaf Option.none := by
  intro es h
  simp at h

theorem leaf_of_look {t : Node} {p : Path} (h : look t p ≠ some .dir) : Leaf (t.get p) := by
  intro es hes
  exact absurd (isDir_iff.mpr ⟨es, hes⟩) h

/-- An update below a node leaves it what it is. -/
theorem Node.entry_put (n : Node) (p : Path) (o : Option Node) : (n.put p o).entry = n.entry := by
  match n, p with
  | .file _ _, p => rw [Node.put] <;> simp
  | .symlink _, p => rw [Node.put] <;> simp
  | .dir _, [] => rfl
  | .dir _, [_] => rfl
  | .dir es, x :: y :: p =>
      rw [Node.put]
      cases find es x <;> rfl

/-- **Replacing a leaf is a point update of the flat view.** -/
theorem look_put {t : Node} {p : Path} {o : Option Node} (hp : p ≠ []) (hdir : IsDir t p.dropLast)
    (hold : Leaf (t.get p)) (hnew : Leaf o) (q : Path) :
    look (t.put p o) q = if q = p then o.map Node.entry else look t q := by
  unfold look
  rw [get_put o p t q hp hdir]
  by_cases hqp : q = p
  · subst hqp
    simp
  · rw [if_neg hqp]
    by_cases hpre : p <+: q
    · -- below a leaf there is nothing, before and after
      obtain ⟨r, rfl⟩ := hpre
      obtain ⟨x, r, rfl⟩ : ∃ x r', r = x :: r' := by
        cases r with
        | nil => simp at hqp
        | cons x r => exact ⟨x, r, rfl⟩
      rw [if_pos (List.prefix_append _ _), List.drop_left, Node.get_append]
      have hleft : (o.bind fun n => n.get (x :: r)) = none := by
        cases o with
        | none => rfl
        | some n => exact hnew.get_cons x r
      have hright : ((t.get p).bind fun n => n.get (x :: r)) = none := by
        cases hget : t.get p with
        | none => rfl
        | some n =>
            rw [hget] at hold
            exact hold.get_cons x r
      rw [hleft, hright]
    · rw [if_neg hpre]
      by_cases hsuf : q <+: p
      · rw [if_pos hsuf, Option.map_map]
        exact congrArg (fun f => (t.get q).map f) (funext fun n => Node.entry_put n _ o)
      · rw [if_neg hsuf]

/-! ## §3. Writing through an inode. -/

mutual

/-- Change the bytes of every file, by inode number. -/
def Node.mapData (f : Nat → Bytes → Bytes) : Node → Node
  | .file i d => .file i (f i d)
  | .symlink t => .symlink t
  | .dir es => .dir (mapEntries f es)

def mapEntries (f : Nat → Bytes → Bytes) : List (String × Node) → List (String × Node)
  | [] => []
  | (x, n) :: es => (x, n.mapData f) :: mapEntries f es

end

def Entry.mapData (f : Nat → Bytes → Bytes) : Entry → Entry
  | .file i d => .file i (f i d)
  | e => e

theorem find_mapEntries (f : Nat → Bytes → Bytes) (es : Entries) (x : String) :
    find (mapEntries f es) x = (find es x).map (Node.mapData f) := by
  induction es with
  | nil => rfl
  | cons e es ih =>
      obtain ⟨y, n⟩ := e
      simp only [mapEntries, find]
      split
      · rfl
      · exact ih

theorem get_mapData (f : Nat → Bytes → Bytes) (t : Node) (p : Path) :
    (t.mapData f).get p = (t.get p).map (Node.mapData f) := by
  induction p generalizing t with
  | nil => simp
  | cons x p ih =>
      cases t with
      | file i d => simp [Node.mapData, Node.get]
      | symlink s => simp [Node.mapData, Node.get]
      | dir es =>
          simp only [Node.mapData, Node.get_dir_cons, find_mapEntries]
          cases find es x with
          | none => rfl
          | some n => simpa using ih n

theorem look_mapData (f : Nat → Bytes → Bytes) (t : Node) (p : Path) :
    look (t.mapData f) p = (look t p).map (Entry.mapData f) := by
  unfold look
  rw [get_mapData]
  cases t.get p with
  | none => rfl
  | some n => cases n <;> simp [Node.mapData, Node.entry, Entry.mapData]

/-! ## §4. Inode numbers. -/

mutual

/-- The inode numbers in the tree, one for each link. -/
def Node.inodes : Node → List Nat
  | .file i _ => [i]
  | .symlink _ => []
  | .dir es => inodesEntries es

def inodesEntries : List (String × Node) → List Nat
  | [] => []
  | (_, n) :: es => n.inodes ++ inodesEntries es

end

/-- `st_nlink` of an inode. -/
def nlink (t : Node) (i : Nat) : Nat := t.inodes.count i

/-- A number no file has. -/
def freshIno (t : Node) : Nat := t.inodes.foldr max 0 + 1

theorem mem_inodesEntries {es : Entries} {x : String} {n : Node} (h : find es x = some n) {i : Nat}
    (hi : i ∈ n.inodes) : i ∈ inodesEntries es := by
  induction es with
  | nil => simp [find] at h
  | cons e es ih =>
      obtain ⟨y, m⟩ := e
      simp only [find] at h
      simp only [inodesEntries, List.mem_append]
      split at h
      · simp only [Option.some.injEq] at h
        subst h
        exact Or.inl hi
      · exact Or.inr (ih h)

theorem mem_inodes_of_get {t n : Node} {p : Path} (h : t.get p = some n) {i : Nat}
    (hi : i ∈ n.inodes) : i ∈ t.inodes := by
  induction p generalizing t with
  | nil =>
      simp only [Node.get_nil, Option.some.injEq] at h
      rwa [h]
  | cons x p ih =>
      cases t with
      | file j d => simp [Node.get] at h
      | symlink s => simp [Node.get] at h
      | dir es =>
          rw [Node.get_dir_cons] at h
          cases hfind : find es x with
          | none => rw [hfind] at h; simp at h
          | some m =>
              rw [hfind] at h
              simp only [Option.bind_some] at h
              exact mem_inodesEntries hfind (ih h)

theorem mem_inodes_of_look {t : Node} {p : Path} {i : Nat} {d : Bytes}
    (h : look t p = some (.file i d)) : i ∈ t.inodes := by
  unfold look at h
  cases hget : t.get p with
  | none => rw [hget] at h; simp at h
  | some n =>
      rw [hget] at h
      cases n with
      | file j e =>
          simp only [Option.map_some, Node.entry, Option.some.injEq, Entry.file.injEq] at h
          exact mem_inodes_of_get hget (by simp [Node.inodes, h.1])
      | symlink s => simp [Node.entry] at h
      | dir es => simp [Node.entry] at h

theorem lt_freshIno {t : Node} {i : Nat} (h : i ∈ t.inodes) : i < freshIno t := by
  have key : ∀ l : List Nat, i ∈ l → i ≤ l.foldr max 0 := by
    intro l
    induction l with
    | nil => intro h; simp at h
    | cons a as ih =>
        intro h
        rw [List.foldr_cons]
        rcases List.mem_cons.mp h with rfl | h
        · exact Nat.le_max_left _ _
        · exact Nat.le_trans (ih h) (Nat.le_max_right _ _)
  exact Nat.lt_succ_of_le (key _ h)

/-- **A fresh number is in no file.** -/
theorem look_ne_fresh {t : Node} {p : Path} {i : Nat} {d : Bytes}
    (h : look t p = some (.file i d)) : i ≠ freshIno t :=
  Nat.ne_of_lt (lt_freshIno (mem_inodes_of_look h))

theorem inodesEntries_append (es fs : Entries) :
    inodesEntries (es ++ fs) = inodesEntries es ++ inodesEntries fs := by
  induction es with
  | nil => rfl
  | cons e es ih =>
      obtain ⟨x, n⟩ := e
      simp [inodesEntries, ih]

theorem count_inodesEntries_set {es : Entries} {x : String} {m n : Node} (h : find es x = some m)
    (i : Nat) : (inodesEntries (set es x (some n))).count i + m.inodes.count i
      = (inodesEntries es).count i + n.inodes.count i := by
  induction es with
  | nil => simp [find] at h
  | cons e es ih =>
      obtain ⟨y, m'⟩ := e
      simp only [find] at h
      simp only [set]
      split at h
      next hyx =>
        simp only [Option.some.injEq] at h
        subst h
        simp only [hyx, if_true, inodesEntries, List.count_append]
        omega
      next hyx =>
        have := ih h
        simp only [hyx, if_false, inodesEntries, List.count_append]
        omega

/-- A new link is counted. -/
theorem nlink_put_of_absent {n : Node} (i : Nat) :
    ∀ {p : Path} {t : Node}, p ≠ [] → IsDir t p.dropLast → t.get p = none →
      nlink (t.put p (some n)) i = nlink t i + n.inodes.count i
  | [], _, h, _, _ => absurd rfl h
  | [x], t, _, hdir, habs => by
      obtain ⟨es, hes⟩ := isDir_iff.mp hdir
      simp only [List.dropLast_singleton, Node.get_nil, Option.some.injEq] at hes
      subst hes
      have hfind : find es x = none := by
        simpa using habs
      simp only [nlink, Node.put, Node.inodes, set_of_find_none hfind, inodesEntries_append,
        List.count_append, inodesEntries, List.append_nil]
  | x :: y :: p, t, _, hdir, habs => by
      obtain ⟨es, hes⟩ := isDir_iff.mp hdir
      cases t with
      | file i d => simp [Node.get] at hes
      | symlink s => simp [Node.get] at hes
      | dir fs =>
          simp only [List.dropLast_cons_cons, Node.get_dir_cons] at hes
          cases hfind : find fs x with
          | none => rw [hfind] at hes; simp at hes
          | some m =>
              rw [hfind] at hes
              simp only [Node.get_dir_cons, hfind, Option.bind_some] at habs
              have ih := nlink_put_of_absent (n := n) i (p := y :: p) (t := m) (by simp)
                (isDir_iff.mpr ⟨es, hes⟩) habs
              have hset := count_inodesEntries_set (n := m.put (y :: p) (some n)) hfind i
              simp only [nlink, Node.put, hfind, Node.inodes] at ih hset ⊢
              omega

/-! ## §5. Distinct names. -/

mutual

/-- No directory has two entries of one name. -/
def Node.WF : Node → Prop
  | .file _ _ => True
  | .symlink _ => True
  | .dir es => (es.map Prod.fst).Nodup ∧ WFEntries es

def WFEntries : List (String × Node) → Prop
  | [] => True
  | (_, n) :: es => n.WF ∧ WFEntries es

end

theorem find_eq_none {es : Entries} {x : String} : find es x = none ↔ x ∉ es.map Prod.fst := by
  induction es with
  | nil => simp [find]
  | cons e es ih =>
      obtain ⟨y, n⟩ := e
      simp only [find, List.map_cons, List.mem_cons, not_or]
      by_cases h : y = x
      · simp [h]
      · simp [h, ih, Ne.symm h]

theorem WFEntries.find {es : Entries} (h : WFEntries es) {x : String} {n : Node}
    (hf : find es x = some n) : n.WF := by
  induction es with
  | nil => simp [FileSystem.find] at hf
  | cons e es ih =>
      obtain ⟨y, m⟩ := e
      simp only [FileSystem.find] at hf
      split at hf
      · simp only [Option.some.injEq] at hf
        rw [← hf]
        exact h.1
      · exact ih h.2 hf

theorem mem_map_set {es : Entries} {x y : String} {o : Option Node}
    (h : y ∈ (set es x o).map Prod.fst) : y = x ∨ y ∈ es.map Prod.fst := by
  by_contra hnot
  push Not at hnot
  obtain ⟨hyx, hy⟩ := hnot
  rw [← find_eq_none] at hy
  refine (find_eq_none.mp ?_) h
  rw [find_set, if_neg hyx, hy]

theorem wf_set {es : Entries} (h : (Node.dir es).WF) (x : String) {o : Option Node}
    (ho : ∀ n, o = some n → n.WF) : (Node.dir (set es x o)).WF := by
  obtain ⟨hnd, hwf⟩ := h
  induction es with
  | nil =>
      cases o with
      | none => exact ⟨by simp [set], trivial⟩
      | some n => exact ⟨by simp [set], ho n rfl, trivial⟩
  | cons e es ih =>
      obtain ⟨y, m⟩ := e
      rw [List.map_cons, List.nodup_cons] at hnd
      obtain ⟨hy, hnd⟩ := hnd
      obtain ⟨hm, hwf⟩ := hwf
      obtain ⟨ihnd, ihwf⟩ := ih hnd hwf
      cases o with
      | none =>
          by_cases hyx : y = x
          · simp only [set, if_pos hyx]
            exact ⟨ihnd, ihwf⟩
          · simp only [set, if_neg hyx]
            refine ⟨?_, hm, ihwf⟩
            rw [List.map_cons, List.nodup_cons]
            refine ⟨fun hmem => ?_, ihnd⟩
            rcases mem_map_set hmem with h | h
            · exact hyx h
            · exact hy h
      | some n =>
          by_cases hyx : y = x
          · simp only [set, if_pos hyx]
            refine ⟨?_, ho n rfl, hwf⟩
            rw [List.map_cons, List.nodup_cons]
            exact ⟨by rw [← hyx]; exact hy, hnd⟩
          · simp only [set, if_neg hyx]
            refine ⟨?_, hm, ihwf⟩
            rw [List.map_cons, List.nodup_cons]
            refine ⟨fun hmem => ?_, ihnd⟩
            rcases mem_map_set hmem with h | h
            · exact hyx h
            · exact hy h

/-- Every update keeps the names distinct. -/
theorem Node.WF.put {o : Option Node} (ho : ∀ n, o = some n → n.WF) :
    ∀ {p : Path} {t : Node}, t.WF → (t.put p o).WF
  | [], t, h => by cases t <;> exact h
  | [x], .file _ _, _ => trivial
  | [x], .symlink _, _ => trivial
  | [x], .dir es, h => wf_set h x ho
  | _ :: _ :: _, .file _ _, _ => trivial
  | _ :: _ :: _, .symlink _, _ => trivial
  | x :: y :: p, .dir es, h => by
      unfold Node.put
      cases hfind : find es x with
      | none => exact h
      | some n =>
          refine wf_set h x fun m hm => ?_
          simp only [Option.some.injEq] at hm
          rw [← hm]
          exact Node.WF.put ho (h.2.find hfind)

theorem Node.WF.get {t n : Node} (h : t.WF) {p : Path} (hget : t.get p = some n) : n.WF := by
  induction p generalizing t with
  | nil =>
      simp only [Node.get_nil, Option.some.injEq] at hget
      rwa [← hget]
  | cons x p ih =>
      cases t with
      | file i d => simp [Node.get] at hget
      | symlink s => simp [Node.get] at hget
      | dir es =>
          rw [Node.get_dir_cons] at hget
          cases hfind : find es x with
          | none => rw [hfind] at hget; simp at hget
          | some m =>
              rw [hfind] at hget
              exact ih (h.2.find hfind) hget

theorem map_fst_mapEntries (f : Nat → Bytes → Bytes) (es : Entries) :
    (mapEntries f es).map Prod.fst = es.map Prod.fst := by
  induction es with
  | nil => rfl
  | cons e es ih =>
      obtain ⟨x, n⟩ := e
      simp [mapEntries, ih]

mutual

theorem wf_mapData (f : Nat → Bytes → Bytes) : ∀ t : Node, t.WF → (t.mapData f).WF
  | .file _ _, _ => trivial
  | .symlink _, _ => trivial
  | .dir es, h => ⟨by rw [map_fst_mapEntries]; exact h.1, wf_mapEntries f es h.2⟩

theorem wf_mapEntries (f : Nat → Bytes → Bytes) :
    ∀ es : List (String × Node), WFEntries es → WFEntries (mapEntries f es)
  | [], _ => trivial
  | (_, n) :: es, h => ⟨wf_mapData f n h.1, wf_mapEntries f es h.2⟩

end

mutual

theorem inodes_mapData (f : Nat → Bytes → Bytes) : ∀ t : Node, (t.mapData f).inodes = t.inodes
  | .file _ _ => rfl
  | .symlink _ => rfl
  | .dir es => inodes_mapEntries f es

theorem inodes_mapEntries (f : Nat → Bytes → Bytes) :
    ∀ es : List (String × Node), inodesEntries (mapEntries f es) = inodesEntries es
  | [] => rfl
  | (_, n) :: es => by
      simp only [mapEntries, inodesEntries, inodes_mapData f n, inodes_mapEntries f es]

end

theorem count_inodesEntries_remove {es : Entries} (hnd : (es.map Prod.fst).Nodup) {x : String}
    {m : Node} (h : find es x = some m) (i : Nat) :
    (inodesEntries (set es x none)).count i + m.inodes.count i = (inodesEntries es).count i := by
  induction es with
  | nil => simp [find] at h
  | cons e es ih =>
      obtain ⟨y, m'⟩ := e
      rw [List.map_cons, List.nodup_cons] at hnd
      simp only [find] at h
      simp only [set]
      split at h
      next hyx =>
        simp only [Option.some.injEq] at h
        subst h
        have hnone : find es x = none := find_eq_none.mpr (by rw [← hyx]; exact hnd.1)
        simp only [hyx, if_true, set_none_of_find_none hnone, inodesEntries, List.count_append]
        omega
      next hyx =>
        have := ih hnd.2 h
        simp only [hyx, if_false, inodesEntries, List.count_append]
        omega

/-- A removed link is no longer counted. -/
theorem nlink_put_none {n : Node} (i : Nat) :
    ∀ {p : Path} {t : Node}, t.WF → p ≠ [] → t.get p = some n →
      nlink (t.put p none) i + n.inodes.count i = nlink t i
  | [], _, _, h, _ => absurd rfl h
  | x :: p, .file _ _, _, _, hget => by simp [Node.get] at hget
  | x :: p, .symlink _, _, _, hget => by simp [Node.get] at hget
  | [x], .dir es, hwf, _, hget => by
      rw [Node.get_dir_cons] at hget
      cases hfind : find es x with
      | none => rw [hfind] at hget; simp at hget
      | some m =>
          rw [hfind] at hget
          simp only [Option.bind_some, Node.get_nil, Option.some.injEq] at hget
          subst hget
          exact count_inodesEntries_remove hwf.1 hfind i
  | x :: y :: p, .dir es, hwf, _, hget => by
      rw [Node.get_dir_cons] at hget
      cases hfind : find es x with
      | none => rw [hfind] at hget; simp at hget
      | some m =>
          rw [hfind] at hget
          have ih := nlink_put_none i (p := y :: p) (hwf.2.find hfind) (by simp) hget
          have hset := count_inodesEntries_set (n := m.put (y :: p) none) hfind i
          simp only [nlink, Node.put, hfind, Node.inodes] at ih hset ⊢
          omega

end FileSystem
