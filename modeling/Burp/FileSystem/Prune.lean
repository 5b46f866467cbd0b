/-
  Burp.FileSystem.Prune — a tree without the directories that hold no file.

  A directory is worth keeping if there is something at or below it that is not a directory.
  What is left when all others are removed is the same tree at every path that is kept.

  Main results:
    * `Node.get_pruned` — each node of the pruned tree is a pruned node of the tree.
    * `Node.pruned_eq_none_iff` — nothing is left exactly of directories with only directories
      below them.
    * `look_put_pruned` — the flat view, where one directory of a tree has been pruned.
-/
import Burp.FileSystem.Ops

namespace FileSystem

/-! ## §1. Pruning. -/

mutual

/-- What is left of a node. -/
def Node.pruned : Node → Option Node
  | .file i d => some (.file i d)
  | .symlink s => some (.symlink s)
  | .dir es => if prunedEntries es = [] then none else some (.dir (prunedEntries es))

def prunedEntries : List (String × Node) → List (String × Node)
  | [] => []
  | (x, n) :: es =>
      match n.pruned with
      | none => prunedEntries es
      | some m => (x, m) :: prunedEntries es

end

theorem names_prunedEntries (es : Entries) :
    (prunedEntries es).map Prod.fst |>.Sublist (es.map Prod.fst) := by
  induction es with
  | nil => exact List.Sublist.slnil
  | cons e es ih =>
      obtain ⟨x, n⟩ := e
      rw [prunedEntries]
      cases n.pruned with
      | none => exact ih.cons x
      | some m => exact ih.cons_cons x

theorem find_prunedEntries {es : Entries} (hnd : (es.map Prod.fst).Nodup) (x : String) :
    find (prunedEntries es) x = (find es x).bind Node.pruned := by
  induction es with
  | nil => rfl
  | cons e es ih =>
      obtain ⟨y, n⟩ := e
      obtain ⟨hy, hnd'⟩ := List.nodup_cons.mp hnd
      rw [prunedEntries, find]
      by_cases hyx : y = x
      · subst hyx
        -- no other entry has the name
        have hnone : find (prunedEntries es) y = none := by
          rw [ih hnd', find_eq_none.mpr hy, Option.bind_none]
        rw [if_pos rfl, Option.bind_some]
        cases n.pruned with
        | none => exact hnone
        | some m => simp [find]
      · rw [if_neg hyx, ← ih hnd']
        cases n.pruned with
        | none => rfl
        | some m => simp [find, hyx]

/-! ## §2. The nodes that are left. -/

/-- **Each node of the pruned tree is a pruned node of the tree.** -/
theorem Node.get_pruned {n : Node} (hwf : n.WF) (q : Path) :
    (n.pruned.bind fun m => m.get q) = (n.get q).bind Node.pruned := by
  induction q generalizing n with
  | nil => simp
  | cons x q ih =>
      cases n with
      | file i d => rfl
      | symlink s => rfl
      | dir es =>
          have hpruned : ((Node.dir es).pruned.bind fun m => m.get (x :: q))
              = (find (prunedEntries es) x).bind fun m => m.get q := by
            rw [Node.pruned]
            split_ifs with hempty
            · simp [hempty, find]
            · rfl
          rw [hpruned, find_prunedEntries hwf.1, Node.get_dir_cons]
          cases hfind : find es x with
          | none => rfl
          | some m => simpa using ih (hwf.2.find hfind)

/-- Nothing but directories at or below the node. -/
def Node.OnlyDirs (n : Node) : Prop := ∀ q m, n.get q = some m → ∃ es, m = .dir es

mutual

theorem Node.pruned_of_onlyDirs : ∀ (n : Node), n.WF → n.OnlyDirs → n.pruned = none
  | .file i d, _, h => by
      obtain ⟨es, hes⟩ := h [] _ rfl
      cases hes
  | .symlink s, _, h => by
      obtain ⟨es, hes⟩ := h [] _ rfl
      cases hes
  | .dir es, hwf, h => by
      rw [Node.pruned, if_pos]
      refine prunedEntries_of_onlyDirs es hwf.1 hwf.2 fun x n hn q m hm => ?_
      exact h (x :: q) m (by rw [Node.get_dir_cons, hn]; exact hm)

theorem prunedEntries_of_onlyDirs : ∀ (es : List (String × Node)), (es.map Prod.fst).Nodup →
    WFEntries es → (∀ x n, find es x = some n → n.OnlyDirs) → prunedEntries es = []
  | [], _, _, _ => rfl
  | (x, n) :: es, hnd, hwf, h => by
      obtain ⟨hx, hnd'⟩ := List.nodup_cons.mp hnd
      rw [prunedEntries, Node.pruned_of_onlyDirs n hwf.1 (h x n (by simp [find]))]
      refine prunedEntries_of_onlyDirs es hnd' hwf.2 fun y m hm => h y m ?_
      have hxy : x ≠ y := by
        rintro rfl
        rw [find_eq_none.mpr hx] at hm
        cases hm
      rw [find, if_neg hxy, hm]

end

/-- **Nothing is left** exactly of directories with only directories below them. -/
theorem Node.pruned_eq_none_iff {n : Node} (hwf : n.WF) : n.pruned = none ↔ n.OnlyDirs := by
  refine ⟨fun hnone q m hm => ?_, Node.pruned_of_onlyDirs n hwf⟩
  have hget := Node.get_pruned hwf q
  rw [hnone, hm, Option.bind_none, Option.bind_some] at hget
  cases m with
  | file i d => cases hget
  | symlink s => cases hget
  | dir es => exact ⟨es, rfl⟩

theorem Node.entry_pruned {n m : Node} (h : n.pruned = some m) : m.entry = n.entry := by
  cases n with
  | file i d =>
      cases h
      rfl
  | symlink s =>
      cases h
      rfl
  | dir es =>
      rw [Node.pruned] at h
      split_ifs at h
      cases h
      rfl

/-! ## §3. The flat view. -/

/-- Nothing but directories at or below the path. -/
def OnlyDirsAt (t : Node) (p : Path) : Prop := ∀ q e, p <+: q → look t q = some e → e = .dir

theorem onlyDirsAt_iff {t : Node} {p : Path} :
    OnlyDirsAt t p ↔ ∀ n, t.get p = some n → n.OnlyDirs := by
  constructor
  · intro h n hn q m hm
    have hget : t.get (p ++ q) = some m := by
      rw [Node.get_append, hn]
      exact hm
    have hdir := h (p ++ q) m.entry (List.prefix_append p q) (by rw [look, hget]; rfl)
    cases m with
    | file i d => cases hdir
    | symlink s => cases hdir
    | dir es => exact ⟨es, rfl⟩
  · rintro h q e ⟨r, rfl⟩ he
    obtain ⟨m, hm, rfl⟩ := Option.map_eq_some_iff.mp he
    rw [Node.get_append] at hm
    obtain ⟨n, hn, hnm⟩ := Option.bind_eq_some_iff.mp hm
    obtain ⟨es, rfl⟩ := h n hn r m hnm
    rfl

/-- What is not below a path is not changed there. -/
theorem look_put_outside {t : Node} {d p : Path} (hd : d ≠ []) (hdir : IsDir t d.dropLast)
    (o : Option Node) (hp : ¬ d <+: p) : look (t.put d o) p = look t p := by
  rw [look, get_put o d t p hd hdir, if_neg hp, look]
  split_ifs
  · rw [Option.map_map]
    exact congrArg (fun f => (t.get p).map f) (funext fun m => Node.entry_put m _ _)
  · rfl

/-- **One directory of a tree has been pruned**: the directories with only directories below
them are gone, and everything else is as it was. -/
theorem look_put_pruned {t n : Node} {d : Path} (hd : d ≠ []) (hget : t.get d = some n)
    (hwf : n.WF) (p : Path) :
    (d <+: p → OnlyDirsAt t p → look (t.put d n.pruned) p = none)
      ∧ (¬ (d <+: p ∧ OnlyDirsAt t p) → look (t.put d n.pruned) p = look t p) := by
  have hdir : IsDir t d.dropLast := isDir_dropLast hd (by rw [look, hget]; simp)
  by_cases hpre : d <+: p
  · obtain ⟨q, rfl⟩ := hpre
    have hput := get_put n.pruned d t (d ++ q) hd hdir
    rw [if_pos (List.prefix_append d q), List.drop_left, Node.get_pruned hwf] at hput
    have hq : t.get (d ++ q) = n.get q := by
      rw [Node.get_append, hget]
      rfl
    cases hm : n.get q with
    | none =>
        have hnone : look (t.put d n.pruned) (d ++ q) = none := by rw [look, hput, hm]; rfl
        exact ⟨fun _ _ => hnone, fun _ => by rw [hnone, look, hq, hm]; rfl⟩
    | some m =>
        have honly : OnlyDirsAt t (d ++ q) ↔ m.pruned = none := by
          rw [onlyDirsAt_iff, hq, hm, Node.pruned_eq_none_iff (hwf.get hm)]
          simp
        have hlook : look (t.put d n.pruned) (d ++ q) = m.pruned.map Node.entry := by
          rw [look, hput, hm]
          rfl
        constructor
        · intro _ h
          rw [hlook, honly.mp h]
          rfl
        · intro h
          obtain ⟨m', hm'⟩ := Option.ne_none_iff_exists'.mp
            fun hnone => h ⟨List.prefix_append d q, honly.mpr hnone⟩
          rw [hlook, hm', look, hq, hm, Option.map_some, Option.map_some, Node.entry_pruned hm']
  · exact ⟨fun h => absurd h hpre, fun _ => look_put_outside hd hdir n.pruned hpre⟩

end FileSystem
