/-
  Burp.Store.Prune — `recursive_delete` with files and without.

  At the end of a backup the old data directory has the files that have been deleted on the
  client, and directories that are not needed any more.  `recursive_delete` is called for it
  with `delfiles` off: files stay, and a directory goes when everything in it has gone.

  Main results:
    * `recursiveDelete_prunes` — what is left is the pruned tree.
    * `recursiveDeleteAt_removes` — what is removed, in both modes.
-/
import Burp.FileSystem.Prune
import Burp.Store.Recursive

namespace Burp.Store

open Crash FileSystem

/-! ## §1. One entry. -/

theorem prunedEntries_cons (x : String) (n : Node) (es : Entries) :
    prunedEntries ((x, n) :: es) = n.pruned.toList.map (x, ·) ++ prunedEntries es := by
  rw [prunedEntries]
  cases n.pruned <;> rfl

/-! ## §2. Without files. -/

/-- What comes back for a part of a tree that is left, or is not. -/
def remaining {α : Type} : List α → RecDel
  | [] => .ok
  | _ :: _ => .entriesRemaining

mutual

/-- **`recursive_delete`** without `delfiles` leaves the pruned tree. -/
theorem recursiveDelete_prunes :
    ∀ (n : Node) {es : Entries} {d : Path} {t : Node}, n = .dir es → n.WF → d ≠ [] →
      IsDir t d.dropLast → t.get d = some n →
      (recursiveDelete false d n).result t = remaining n.pruned.toList
        ∧ (recursiveDelete false d n).final t = t.put d n.pruned
  | .file _ _, _, _, _, hn, _, _, _, _ => by simp at hn
  | .symlink _, _, _, _, hn, _, _, _, _ => by simp at hn
  | .dir es, _, d, t, _, hwf, hd, hdir, hget => by
      have hget' : t.get d = some (.dir ([] ++ es)) := hget
      obtain ⟨hres, hfinal⟩ := deleteEntries_prunes es hd hdir hget' hwf.1 hwf.2
      unfold recursiveDelete
      rw [Prog.result_bind, Prog.final_bind, hres, hfinal, Node.pruned]
      cases hleft : prunedEntries es with
      | nil =>
          have hempty : (t.put d (some (.dir []))).get d = some (.dir []) := by
            rw [get_put _ d t d hd hdir]
            simp
          obtain ⟨hrm, hgone⟩ := rmdir_empty hempty
          simp only [Walk.failed, Bool.false_eq_true, if_false, remaining, if_true,
            List.append_nil]
          rw [Prog.result_bind, Prog.final_bind, hrm, hgone, Node.put_put]
          exact ⟨rfl, rfl⟩
      | cons e fs =>
          simp only [Walk.failed, Bool.false_eq_true, if_false, remaining, reduceCtorEq,
            List.nil_append]
          exact ⟨rfl, rfl⟩

theorem deleteEntries_prunes :
    ∀ (es : List (String × Node)) {pre : Entries} {d : Path} {t : Node}, d ≠ [] →
      IsDir t d.dropLast → t.get d = some (.dir (pre ++ es)) →
      ((pre ++ es).map Prod.fst).Nodup → WFEntries es →
      (deleteEntries false d es).result t = (none, remaining (prunedEntries es))
        ∧ (deleteEntries false d es).final t = t.put d (some (.dir (pre ++ prunedEntries es)))
  | [], pre, d, t, hd, _, hget, _, _ => by
      rw [List.append_nil] at hget
      rw [deleteEntries, Prog.result_pure, Prog.final_pure, prunedEntries, List.append_nil,
        Node.put_self hd hget]
      exact ⟨rfl, rfl⟩
  | (x, n) :: es, pre, d, t, hd, hdir, hget, hnd, hwf => by
      have hsplit : pre ++ (x, n) :: es = (pre ++ [(x, n)]) ++ es := by simp
      rw [hsplit] at hget
      obtain ⟨hres, hfinal⟩ := deleteEntries_prunes es hd hdir hget (hsplit ▸ hnd) hwf.2
      rw [List.append_assoc, List.singleton_append] at hfinal
      -- no other entry has the name
      rw [List.map_append, List.map_cons, List.nodup_append, List.nodup_cons] at hnd
      have hpre : find pre x = none :=
        find_eq_none.mpr fun hmem => hnd.2.2 x hmem x List.mem_cons_self rfl
      have hpost : find (prunedEntries es) x = none :=
        find_eq_none.mpr fun hmem => hnd.2.1.1 ((names_prunedEntries es).subset hmem)
      have hentry := put_middle (n := n) hd hdir hpre hpost
      have hdir' : IsDir (t.put d (some (.dir (pre ++ (x, n) :: prunedEntries es))))
          (d ++ [x]).dropLast := by
        rw [List.dropLast_concat, isDir_iff]
        exact ⟨pre ++ (x, n) :: prunedEntries es, by rw [get_put _ d t d hd hdir]; simp⟩
      unfold deleteEntries
      rw [Prog.result_bind, Prog.final_bind, hres, hfinal, prunedEntries_cons]
      cases n with
      | dir fs =>
          obtain ⟨hr, hf⟩ := recursiveDelete_prunes (.dir fs) rfl hwf.1 (by simp) hdir'
            (get_middle hd hdir hpre)
          simp only
          rw [Prog.result_bind, Prog.final_bind, hr, hf, hentry]
          cases (Node.dir fs).pruned with
          | none => exact ⟨rfl, rfl⟩
          | some m => exact ⟨rfl, rfl⟩
      | file i b => exact ⟨rfl, rfl⟩
      | symlink s => exact ⟨rfl, rfl⟩

end

/-! ## §3. Both modes. -/

/-- What is left is at the directory itself. -/
theorem remaining_iff {t : Node} {d : Path} {es : Entries} (hd : d ≠ [])
    (hget : t.get d = some (.dir es)) (hwf : (Node.dir es).WF) :
    remaining (Node.dir es).pruned.toList = .entriesRemaining
      ↔ ∃ p, d <+: p ∧ look (t.put d (Node.dir es).pruned) p ≠ none := by
  have hdir : IsDir t d.dropLast := isDir_dropLast hd (by rw [look, hget]; simp)
  have hself : look (t.put d (Node.dir es).pruned) d = (Node.dir es).pruned.map Node.entry := by
    rw [look, get_put _ d t d hd hdir]
    simp
  constructor
  · intro h
    refine ⟨d, List.prefix_refl d, ?_⟩
    rw [hself]
    cases hp : (Node.dir es).pruned with
    | none =>
        rw [hp] at h
        cases h
    | some m => simp
  · rintro ⟨p, hp, hne⟩
    cases hpruned : (Node.dir es).pruned with
    | none =>
        refine absurd ((look_put_pruned hd hget hwf p).1 hp ?_) hne
        -- all of it has gone
        obtain ⟨q, rfl⟩ := hp
        have honly := (Node.pruned_eq_none_iff hwf).mp hpruned
        rw [onlyDirsAt_iff]
        intro n hn r m hm
        rw [Node.get_append, hget] at hn
        refine honly (q ++ r) m ?_
        rw [Node.get_append]
        exact Option.bind_eq_some_iff.mpr ⟨n, hn, hm⟩
    | some m => rfl

/-- **`recursive_delete` removes exactly what it should**: everything at or below the directory
with `delfiles`, and without only the directories that have nothing but directories below them.
It returns `RECDEL_ENTRIES_REMAINING` exactly if something is left. -/
theorem recursiveDeleteAt_removes (t : Node) (d : Path) (es : Entries) (hd : d ≠ [])
    (hget : t.get d = some (.dir es)) (hwf : (Node.dir es).WF) :
    ((recursiveDeleteAt d true).result t = .ok
        ∧ ∀ p, look ((recursiveDeleteAt d true).final t) p = if d <+: p then none else look t p)
      ∧ (∀ p, (d <+: p → OnlyDirsAt t p → look ((recursiveDeleteAt d false).final t) p = none)
        ∧ (¬ (d <+: p ∧ OnlyDirsAt t p) →
          look ((recursiveDeleteAt d false).final t) p = look t p))
      ∧ ((recursiveDeleteAt d false).result t = .ok
        ∨ (recursiveDeleteAt d false).result t = .entriesRemaining)
      ∧ ((recursiveDeleteAt d false).result t = .entriesRemaining
        ↔ ∃ p, d <+: p ∧ look ((recursiveDeleteAt d false).final t) p ≠ none) := by
  have hdir : IsDir t d.dropLast := isDir_dropLast hd (by rw [look, hget]; simp)
  have hresult : ∀ delfiles, (recursiveDeleteAt d delfiles).result t
      = (recursiveDelete delfiles d (.dir es)).result t :=
    fun delfiles => congrArg Prod.snd (recursiveDeleteAt_dir delfiles hget)
  have hfinal : ∀ delfiles, (recursiveDeleteAt d delfiles).final t
      = (recursiveDelete delfiles d (.dir es)).final t := by
    intro delfiles
    rw [Prog.final, Prog.final, Prog.visited, Prog.visited, recursiveDeleteAt_dir delfiles hget]
  obtain ⟨hres, hgone⟩ := recursiveDelete_spec (.dir es) rfl hwf hd hdir hget
  obtain ⟨hres', hleft⟩ := recursiveDelete_prunes (.dir es) rfl hwf hd hdir hget
  have hlook := look_put_pruned hd hget hwf
  rw [hresult, hresult, hfinal, hfinal, hres, hgone, hres', hleft]
  refine ⟨⟨rfl, fun p => ?_⟩, hlook, ?_, ?_⟩
  · split_ifs with hpre
    · rw [look, get_put none d t p hd hdir, if_pos hpre]
      rfl
    · exact look_put_outside hd hdir none hpre
  · cases (Node.dir es).pruned with
    | none => exact Or.inl rfl
    | some m => exact Or.inr rfl
  · exact remaining_iff hd hget hwf

/-- A directory with a file in it and one with a directory. -/
def oldData : Node :=
  .dir [("d", .dir [("a", .dir [("f", .file 1 [])]), ("b", .dir [("c", .dir [])])])]

theorem oldData_removed :
    (recursiveDeleteAt ["d"] true).result oldData = .ok
      ∧ look ((recursiveDeleteAt ["d"] false).final oldData) ["d", "a", "f"]
        = some (.file 1 []) := by
  have h := recursiveDeleteAt_removes oldData ["d"]
    [("a", .dir [("f", .file 1 [])]), ("b", .dir [("c", .dir [])])] (by simp) rfl
    (by simp [Node.WF, WFEntries])
  refine ⟨h.1.1, (h.2.1 ["d", "a", "f"]).2 ?_⟩
  rintro ⟨-, honly⟩
  cases honly ["d", "a", "f"] (.file 1 []) (List.prefix_refl _) rfl

end Burp.Store
