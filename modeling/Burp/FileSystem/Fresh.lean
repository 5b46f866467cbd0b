/-
  Burp.FileSystem.Fresh — work in a new directory.

  A program makes a directory in the root and works below it only.  Then the tree is, at any
  time, the one from before with a directory put into it, and no file of that directory is one
  of the others.

  Main results:
    * `local_fresh` — the calls below the directory leave the rest of the tree alone.
    * `Fresh.remove` — without the directory it is the tree from before.
-/
import Burp.FileSystem.Local

namespace FileSystem

open Crash

/-- `symlink`. -/
def symlinkAt (target : String) (p : Path) (t : Node) : Node × Bool :=
  if look t p = none ∧ IsDir t p.dropLast then (t.put p (some (.symlink target)), true)
  else (t, false)

def symlink (target : String) (p : Path) : Prog Node Bool := .op (symlinkAt target p)

/-! ## §1. Inodes after an update. -/

theorem mem_inodesEntries_set {es : Entries} {x : String} {o : Option Node} {i : Nat}
    (h : i ∈ inodesEntries (set es x o)) :
    i ∈ inodesEntries es ∨ ∃ n, o = some n ∧ i ∈ n.inodes := by
  induction es with
  | nil =>
      cases o with
      | none => exact Or.inl h
      | some n =>
          simp only [set, inodesEntries, List.append_nil] at h
          exact Or.inr ⟨n, rfl, h⟩
  | cons e es ih =>
      obtain ⟨y, m⟩ := e
      cases o with
      | none =>
          simp only [set] at h
          split_ifs at h with hy
          · exact (ih h).imp_left (List.mem_append_right _)
          · rcases List.mem_append.mp h with h | h
            · exact Or.inl (List.mem_append_left _ h)
            · exact (ih h).imp_left (List.mem_append_right _)
      | some n =>
          simp only [set] at h
          split_ifs at h with hy
          · rcases List.mem_append.mp h with h | h
            · exact Or.inr ⟨n, rfl, h⟩
            · exact Or.inl (List.mem_append_right _ h)
          · rcases List.mem_append.mp h with h | h
            · exact Or.inl (List.mem_append_left _ h)
            · exact (ih h).imp_left (List.mem_append_right _)

/-- An update brings in no other inodes than those of the new node. -/
theorem mem_inodes_put {o : Option Node} {i : Nat} : ∀ {p : Path} {t : Node},
    i ∈ (t.put p o).inodes → i ∈ t.inodes ∨ ∃ n, o = some n ∧ i ∈ n.inodes
  | [], t, h => by
      cases t <;> exact Or.inl h
  | x :: p, .file _ _, h => by
      cases p <;> exact Or.inl h
  | x :: p, .symlink _, h => by
      cases p <;> exact Or.inl h
  | [x], .dir es, h => mem_inodesEntries_set h
  | x :: y :: p, .dir es, h => by
      unfold Node.put at h
      cases hfind : find es x with
      | none =>
          rw [hfind] at h
          exact Or.inl h
      | some n =>
          rw [hfind] at h
          rcases mem_inodesEntries_set h with h | ⟨m, hm, hi⟩
          · exact Or.inl h
          · rw [← Option.some.inj hm] at hi
            exact (mem_inodes_put hi).imp_left (mem_inodesEntries hfind)

mutual

/-- Writing to inodes that are not there. -/
theorem mapData_self {f : Nat → Bytes → Bytes} :
    ∀ t : Node, (∀ i ∈ t.inodes, ∀ d, f i d = d) → t.mapData f = t
  | .file i d, h => by rw [Node.mapData, h i (by simp [Node.inodes])]
  | .symlink _, _ => rfl
  | .dir es, h => by rw [Node.mapData, mapEntries_self es h]

theorem mapEntries_self {f : Nat → Bytes → Bytes} :
    ∀ es : List (String × Node), (∀ i ∈ inodesEntries es, ∀ d, f i d = d) → mapEntries f es = es
  | [], _ => rfl
  | (x, n) :: es, h => by
      rw [mapEntries, mapData_self n fun i hi => h i (List.mem_append_left _ hi),
        mapEntries_self es fun i hi => h i (List.mem_append_right _ hi)]

end

theorem mapEntries_set (f : Nat → Bytes → Bytes) (es : Entries) (x : String) (n : Node) :
    mapEntries f (set es x (some n)) = set (mapEntries f es) x (some (n.mapData f)) := by
  induction es with
  | nil => rfl
  | cons e es ih =>
      obtain ⟨y, m⟩ := e
      simp only [set, mapEntries]
      split_ifs with hy
      · rfl
      · rw [mapEntries, ih]

/-- A directory stays one. -/
theorem put_dir (es : Entries) (p : Path) (o : Option Node) :
    ∃ fs, (Node.dir es).put p o = .dir fs := by
  rcases p with _ | ⟨x, _ | ⟨y, p⟩⟩
  · exact ⟨es, rfl⟩
  · exact ⟨set es x o, rfl⟩
  · unfold Node.put
    cases find es x with
    | none => exact ⟨es, rfl⟩
    | some n => exact ⟨_, rfl⟩

/-! ## §2. A new directory. -/

namespace Local

variable {inside inside' : Path → Prop} {mine mine' : Nat → Prop} {I J : Node → Prop}

/-- A smaller region. -/
theorem mono (h : Local inside mine I) (hsub : ∀ p, inside' p → inside p)
    (hbelow : ∀ p q, inside' p → inside' (p ++ q)) : Local inside' mine I where
  below := hbelow
  mkdir := fun p t hp ht => h.mkdir p t (hsub p hp) ht
  unlink := fun p t hp ht => h.unlink p t (hsub p hp) ht
  rmdir := fun p t hp ht => h.rmdir p t (hsub p hp) ht
  rename := fun o q t ho hq ht => h.rename o q t (hsub o ho) (hsub q hq) ht
  openFile := fun b p t hp ht => h.openFile b p t (hsub p hp) ht
  write := h.write

/-- Two invariants of one region. -/
theorem and (h : Local inside mine I) (h' : Local inside mine' J) :
    Local inside (fun i => mine i ∧ mine' i) fun t => I t ∧ J t where
  below := h.below
  mkdir := fun p t hp ht => ⟨h.mkdir p t hp ht.1, h'.mkdir p t hp ht.2⟩
  unlink := fun p t hp ht => ⟨h.unlink p t hp ht.1, h'.unlink p t hp ht.2⟩
  rmdir := fun p t hp ht => ⟨h.rmdir p t hp ht.1, h'.rmdir p t hp ht.2⟩
  rename := fun o q t ho hq ht => ⟨h.rename o q t ho hq ht.1, h'.rename o q t ho hq ht.2⟩
  openFile := by
    intro b p t hp ht
    obtain ⟨hI, hmine⟩ := h.openFile b p t hp ht.1
    obtain ⟨hJ, hmine'⟩ := h'.openFile b p t hp ht.2
    exact ⟨⟨hI, hJ⟩, fun i hi => ⟨hmine i hi, hmine' i hi⟩⟩
  write := fun i f t hi ht => ⟨h.write i f t hi.1 ht.1, h'.write i f t hi.2 ht.2⟩

end Local

/-- Below the entry `x` of the root. -/
def Below (x : String) (p : Path) : Prop := ∃ y r, p = x :: y :: r

/-- **The tree `es` with a directory in it** that shares no file with the rest. -/
def Fresh (x : String) (es : Entries) (t : Node) : Prop :=
  ∃ fs, t = (Node.dir es).put [x] (some (.dir fs)) ∧ (Node.dir fs).WF
    ∧ ∀ i ∈ inodesEntries fs, i ∉ inodesEntries es

section Fresh

variable {x : String} {es : Entries} {t : Node}

theorem Fresh.get (h : Fresh x es t) : ∃ fs, t.get [x] = some (.dir fs) := by
  obtain ⟨fs, rfl, -⟩ := h
  exact ⟨fs, by simp [Node.put, find_set]⟩

/-- What is put below the directory. -/
theorem Fresh.put (h : Fresh x es t) {p : Path} (hp : Below x p) {o : Option Node}
    (ho : ∀ n, o = some n → n.WF ∧ ∀ i ∈ n.inodes, i ∉ inodesEntries es) :
    Fresh x es (t.put p o) := by
  obtain ⟨y, r, rfl⟩ := hp
  obtain ⟨fs, rfl, hwf, hnew⟩ := h
  have hget : ((Node.dir es).put [x] (some (.dir fs))).get [x] = some (.dir fs) := by
    simp [Node.put, find_set]
  obtain ⟨gs, hgs⟩ := put_dir fs (y :: r) o
  refine ⟨gs, ?_, ?_, ?_⟩
  · show ((Node.dir es).put [x] (some (.dir fs))).put ([x] ++ y :: r) o = _
    rw [Node.put_append o (by simp) (by simp) hget, Node.put_put, hgs]
  · rw [← hgs]
    exact hwf.put fun n hn => (ho n hn).1
  · intro i hi
    have hi' : i ∈ ((Node.dir fs).put (y :: r) o).inodes := by
      rw [hgs]
      exact hi
    rcases mem_inodes_put hi' with hi | ⟨n, hn, hi⟩
    · exact hnew i hi
    · exact (ho n hn).2 i hi

/-- What is below the directory. -/
theorem Fresh.node (h : Fresh x es t) {p : Path} (hp : Below x p) {n : Node}
    (hn : t.get p = some n) : n.WF ∧ ∀ i ∈ n.inodes, i ∉ inodesEntries es := by
  obtain ⟨y, r, rfl⟩ := hp
  obtain ⟨fs, rfl, hwf, hnew⟩ := h
  have hin : (Node.dir fs).get (y :: r) = some n := by
    simpa [Node.put, find_set] using hn
  exact ⟨hwf.get hin, fun i hi => hnew i (mem_inodes_of_get hin hi)⟩

/-- A new inode is none of the others. -/
theorem Fresh.freshIno (h : Fresh x es t) (hx : find es x = none) :
    freshIno t ∉ inodesEntries es := by
  obtain ⟨fs, rfl, -⟩ := h
  intro hi
  have hmem : FileSystem.freshIno ((Node.dir es).put [x] (some (.dir fs)))
      ∈ ((Node.dir es).put [x] (some (.dir fs))).inodes := by
    show _ ∈ inodesEntries (set es x (some (.dir fs)))
    rw [set_of_find_none hx, inodesEntries_append]
    exact List.mem_append_left _ hi
  exact lt_irrefl _ (lt_freshIno hmem)

/-- Writing to a file that is none of the others. -/
theorem Fresh.write (h : Fresh x es t) {i : Nat} (hi : i ∉ inodesEntries es)
    (f : Bytes → Bytes) : Fresh x es (onInode i f t) := by
  obtain ⟨fs, rfl, hwf, hnew⟩ := h
  refine ⟨mapEntries (fun j d => if j = i then f d else d) fs, ?_, wf_mapData _ _ hwf, ?_⟩
  · have hrest : mapEntries (fun j d => if j = i then f d else d) es = es := by
      apply mapEntries_self
      intro j hj d
      rw [if_neg]
      rintro rfl
      exact hi hj
    show Node.dir (mapEntries _ (set es x _)) = .dir (set es x _)
    rw [mapEntries_set, hrest]
    rfl
  · intro j hj
    rw [inodes_mapEntries] at hj
    exact hnew j hj

/-- **The calls below the new directory** leave the rest of the tree alone. -/
theorem local_fresh (hx : find es x = none) :
    Local (Below x) (fun i => i ∉ inodesEntries es) (Fresh x es) where
  below := by
    intro p q ⟨y, r, hp⟩
    exact ⟨y, r ++ q, by rw [hp]; rfl⟩
  mkdir := by
    intro p t hp ht
    unfold mkdirAt
    split_ifs
    · apply ht.put hp
      intro n hn
      rw [← Option.some.inj hn]
      exact ⟨⟨List.nodup_nil, trivial⟩, List.forall_mem_nil _⟩
    · exact ht
  unlink := by
    intro p t hp ht
    unfold unlinkAt
    split
    · exact ht.put hp (by simp)
    · exact ht.put hp (by simp)
    · exact ht
  rmdir := by
    intro p t hp ht
    unfold rmdirAt
    split
    · exact ht.put hp (by simp)
    · exact ht
  rename := by
    intro o q t ho hq ht
    rcases renameAt_cases o q t with hsame | ⟨n, hn, hmove⟩
    · rw [hsame]
      exact ht
    · rw [hmove]
      apply (ht.put ho (by simp)).put hq
      intro m hm
      rw [← Option.some.inj hm]
      exact ht.node ho hn
  openFile := by
    intro b p t hp ht
    unfold openAt
    split
    next i d hfile =>
      have hmine : i ∉ inodesEntries es :=
        (ht.node hp (get_of_look_file hfile)).2 i (by simp [Node.inodes])
      refine ⟨?_, fun j hj => Option.some.inj hj ▸ hmine⟩
      split_ifs
      · exact ht.write hmine _
      · exact ht
    next =>
      split_ifs
      · refine ⟨?_, fun j hj => Option.some.inj hj ▸ ht.freshIno hx⟩
        apply ht.put hp
        intro n hn
        rw [← Option.some.inj hn]
        refine ⟨trivial, fun i hi => ?_⟩
        rw [Node.inodes, List.mem_singleton] at hi
        rw [hi]
        exact ht.freshIno hx
      · exact ⟨ht, by simp⟩
    next => exact ⟨ht, by simp⟩
  write := fun i f t hi ht => ht.write hi f

/-- Without the directory. -/
theorem Fresh.remove (h : Fresh x es t) (hx : find es x = none) : t.put [x] none = .dir es := by
  obtain ⟨fs, rfl, -⟩ := h
  rw [Node.put_put, Node.put, set_none_of_find_none hx]

/-- What is apart from an entry of the root that is put. -/
theorem look_put_entry (o : Option Node) {p : Path} (hp : Apart x p) (t : Node) :
    look (t.put [x] o) p = look t p := by
  obtain ⟨y, r, rfl, hy⟩ := hp
  cases t with
  | file i d => rfl
  | symlink s => rfl
  | dir es => simp [look, Node.put, find_set, hy]

/-- The other entries of the root. -/
theorem Fresh.look (h : Fresh x es t) {p : Path} (hp : Apart x p) :
    look t p = FileSystem.look (.dir es) p := by
  obtain ⟨fs, rfl, -⟩ := h
  exact look_put_entry _ hp _

/-- An empty directory is one. -/
theorem fresh_mkdir (x : String) (es : Entries) :
    Fresh x es ((Node.dir es).put [x] (some (.dir []))) :=
  ⟨[], rfl, ⟨List.nodup_nil, trivial⟩, List.forall_mem_nil _⟩

end Fresh

end FileSystem
