/-
  Burp.Store.Recursive — `recursive_hardlink` and `recursive_delete`.

  Both go through a directory as `scandir` lists it, from the last entry to the first, and
  call themselves for the directories in it.  Nobody else writes to these directories, so
  what a nested call finds is what was there at the start, and the recursion is over that
  tree.  An error breaks the loop with its index still in `n`, and only `n>0` makes the
  call fail: the entry with index 0 breaks the loop unnoticed.

  Main results:
    * `recursiveDelete_spec` — everything is deleted, and nothing else.
    * `mem_killed_recursiveDelete` — the states on the way, one for each entry.
-/
import Burp.Store.Files

namespace Burp.Store

open Crash FileSystem

/-! ## §1. The code. -/

/-- How the loop over a directory ends: it runs through, or `break` with this index. -/
abbrev Walk := Option Nat

/-- `if(n>0) ret=-1`. -/
def Walk.failed : Walk → Bool
  | none => false
  | some n => decide (0 < n)

/-- `RECDEL_ERROR`, `RECDEL_OK`, `RECDEL_ENTRIES_REMAINING`. -/
inductive RecDel
  | error | ok | entriesRemaining
  deriving DecidableEq, Repr

mutual

/-- `recursive_delete` of the directory `d`, in which there is the given node. -/
def recursiveDelete (delfiles : Bool) (d : Path) : Node → Prog Node RecDel
  | .dir es => do
      let (walk, ret) ← deleteEntries delfiles d es
      let ret := if walk.failed then RecDel.error else ret
      if ret = .ok then
        if ← rmdir d then pure .ok else pure .error
      else pure ret
  | .file _ _ => pure .error
  | .symlink _ => pure .error

/-- The loop, with the value of `ret` at its end. -/
def deleteEntries (delfiles : Bool) (d : Path) : List (String × Node) → Prog Node (Walk × RecDel)
  | [] => pure (none, .ok)
  | (x, n) :: es => do
      match ← deleteEntries delfiles d es with
      | (some k, ret) => pure (some (k + 1), ret)
      | (none, ret) =>
          match n with
          | .dir fs =>
              match ← recursiveDelete delfiles (d ++ [x]) (.dir fs) with
              | .error => pure (some 0, ret)
              | .entriesRemaining => pure (none, .entriesRemaining)
              | .ok => pure (none, ret)
          | _ =>
              if delfiles then
                if ← unlink (d ++ [x]) then pure (none, ret) else pure (none, .entriesRemaining)
              else pure (none, .entriesRemaining)

end

/-- `recursive_delete`. -/
def recursiveDeleteAt (d : Path) (delfiles : Bool) : Prog Node RecDel := do
  match ← Prog.read fun t => t.get d with
  | none => pure .ok
  | some n => recursiveDelete delfiles d n

mutual

/-- `recursive_hardlink` of `src`, in which there is the given node. -/
def recursiveHardlink (c : Codec) (conf : Conf) (src dst : Path) : Node → Prog Node Bool
  | .dir es => do
      if ← mkpath (dst ++ ["dummy"]) dst then
        let walk ← linkEntries c conf src dst es
        pure (!walk.failed)
      else pure false
  | .file _ _ => do
      let _ ← mkpath (dst ++ ["dummy"]) dst
      pure false
  | .symlink _ => do
      let _ ← mkpath (dst ++ ["dummy"]) dst
      pure false

/-- The loop. -/
def linkEntries (c : Codec) (conf : Conf) (src dst : Path) :
    List (String × Node) → Prog Node Walk
  | [] => pure none
  | (x, n) :: es => do
      match ← linkEntries c conf src dst es with
      | some k => pure (some (k + 1))
      | none =>
          match n with
          | .dir fs =>
              if ← recursiveHardlink c conf (src ++ [x]) (dst ++ [x]) (.dir fs) then pure none
              else pure (some 0)
          | _ =>
              if ← doLink c conf (src ++ [x]) (dst ++ [x]) then pure none else pure (some 0)

end

/-- `recursive_hardlink`. -/
def recursiveHardlinkAt (c : Codec) (conf : Conf) (src dst : Path) : Prog Node Bool := do
  match ← Prog.read fun t => t.get src with
  | none => do
      let _ ← mkpath (dst ++ ["dummy"]) dst
      pure false
  | some n => recursiveHardlink c conf src dst n

/-! ## §2. What a deletion leaves. -/

theorem set_middle {pre post : Entries} {x : String} {n : Node} (hpre : find pre x = none)
    (hpost : find post x = none) (o : Option Node) :
    set (pre ++ (x, n) :: post) x o = pre ++ (o.toList.map (x, ·) ++ post) := by
  cases o with
  | none =>
      rw [set_append_none, set_none_of_find_none hpre]
      simp [FileSystem.set, set_none_of_find_none hpost]
  | some m =>
      induction pre with
      | nil => simp [FileSystem.set]
      | cons e pre ih =>
          obtain ⟨y, k⟩ := e
          rw [find] at hpre
          split at hpre
          · cases hpre
          next hyx => simp [FileSystem.set, hyx, ih hpre]

section Entry

variable {t : Node} {d : Path} {pre post : Entries} {x : String} {n : Node} (hd : d ≠ [])
  (hdir : IsDir t d.dropLast) (hpre : find pre x = none)

include hd hdir hpre

/-- Replacing or removing one entry of a directory. -/
theorem put_middle (hpost : find post x = none) (o : Option Node) :
    (t.put d (some (.dir (pre ++ (x, n) :: post)))).put (d ++ [x]) o
      = t.put d (some (.dir (pre ++ (o.toList.map (x, ·) ++ post)))) := by
  have hget : (t.put d (some (.dir (pre ++ (x, n) :: post)))).get d
      = some (.dir (pre ++ (x, n) :: post)) := by
    rw [get_put _ d t d hd hdir]
    simp
  rw [Node.put_append o hd (by simp) hget, Node.put_put, Node.put, set_middle hpre hpost]

theorem get_middle :
    (t.put d (some (.dir (pre ++ (x, n) :: post)))).get (d ++ [x]) = some n := by
  rw [get_put _ d t _ hd hdir, if_pos (List.prefix_append _ _), List.drop_left]
  simp [find_append, hpre, find]

end Entry

theorem unlink_leaf {t : Node} {p : Path} {n : Node} (h : t.get p = some n)
    (hn : ∀ es, n ≠ .dir es) :
    (unlink p).result t = true ∧ (unlink p).final t = t.put p none := by
  simp only [unlink, Prog.result_op, Prog.final_op, unlinkAt, look, h, Option.map_some]
  cases n with
  | file i d => exact ⟨rfl, rfl⟩
  | symlink s => exact ⟨rfl, rfl⟩
  | dir es => exact absurd rfl (hn es)

theorem rmdir_empty {t : Node} {p : Path} (h : t.get p = some (.dir [])) :
    (rmdir p).result t = true ∧ (rmdir p).final t = t.put p none := by
  simp only [rmdir, Prog.result_op, Prog.final_op, rmdirAt, h, and_self]

mutual

/-- **`recursive_delete`** deletes the directory and nothing else. -/
theorem recursiveDelete_spec :
    ∀ (n : Node) {es : Entries} {d : Path} {t : Node}, n = .dir es → n.WF → d ≠ [] →
      IsDir t d.dropLast → t.get d = some n →
      (recursiveDelete true d n).result t = .ok
        ∧ (recursiveDelete true d n).final t = t.put d none
  | .file _ _, _, _, _, hn, _, _, _, _ => by simp at hn
  | .symlink _, _, _, _, hn, _, _, _, _ => by simp at hn
  | .dir es, _, d, t, _, hwf, hd, hdir, hget => by
      have hget' : t.get d = some (.dir ([] ++ es)) := hget
      obtain ⟨hres, hfinal⟩ := deleteEntries_spec es hd hdir hget' hwf.1 hwf.2
      have hempty : (t.put d (some (.dir []))).get d = some (.dir []) := by
        rw [get_put _ d t d hd hdir]
        simp
      obtain ⟨hrm, hgone⟩ := rmdir_empty hempty
      unfold recursiveDelete
      rw [Prog.result_bind, Prog.final_bind, hres, hfinal]
      simp only [Walk.failed, Bool.false_eq_true, if_false, if_true]
      rw [Prog.result_bind, Prog.final_bind, hrm, hgone, Node.put_put]
      exact ⟨rfl, rfl⟩

theorem deleteEntries_spec :
    ∀ (es : List (String × Node)) {pre : Entries} {d : Path} {t : Node}, d ≠ [] →
      IsDir t d.dropLast → t.get d = some (.dir (pre ++ es)) →
      ((pre ++ es).map Prod.fst).Nodup → WFEntries es →
      (deleteEntries true d es).result t = (none, .ok)
        ∧ (deleteEntries true d es).final t = t.put d (some (.dir pre))
  | [], pre, d, t, hd, _, hget, _, _ => by
      rw [List.append_nil] at hget
      rw [deleteEntries, Prog.result_pure, Prog.final_pure, Node.put_self hd hget]
      exact ⟨rfl, rfl⟩
  | (x, n) :: es, pre, d, t, hd, hdir, hget, hnd, hwf => by
      have hsplit : pre ++ (x, n) :: es = (pre ++ [(x, n)]) ++ es := by simp
      rw [hsplit] at hget hnd
      obtain ⟨hres, hfinal⟩ := deleteEntries_spec es hd hdir hget hnd hwf.2
      -- no other entry has the name
      rw [List.map_append, List.map_append, List.nodup_append] at hnd
      have hx : find pre x = none := by
        refine find_eq_none.mpr fun hmem => ?_
        exact (List.nodup_append.mp hnd.1).2.2 x hmem x (by simp) rfl
      have hlast : (t.put d (some (.dir (pre ++ [(x, n)])))).get (d ++ [x]) = some n :=
        get_middle hd hdir hx
      have hgone : (t.put d (some (.dir (pre ++ [(x, n)])))).put (d ++ [x]) none
          = t.put d (some (.dir pre)) := by
        have hnil : find [] x = none := rfl
        simpa using put_middle (n := n) hd hdir hx hnil none
      have hdir' : IsDir (t.put d (some (.dir (pre ++ [(x, n)])))) (d ++ [x]).dropLast := by
        rw [List.dropLast_concat, isDir_iff]
        exact ⟨pre ++ [(x, n)], by rw [get_put _ d t d hd hdir]; simp⟩
      unfold deleteEntries
      rw [Prog.result_bind, Prog.final_bind, hres, hfinal]
      cases n with
      | dir fs =>
          obtain ⟨hr, hf⟩ := recursiveDelete_spec (.dir fs) rfl hwf.1 (by simp) hdir' hlast
          simp only
          rw [Prog.result_bind, Prog.final_bind, hr, hf, hgone]
          exact ⟨rfl, rfl⟩
      | file i b =>
          obtain ⟨hr, hf⟩ := unlink_leaf hlast (by simp)
          simp only [if_true]
          rw [Prog.result_bind, Prog.final_bind, hr, hf, hgone]
          exact ⟨rfl, rfl⟩
      | symlink s =>
          obtain ⟨hr, hf⟩ := unlink_leaf hlast (by simp)
          simp only [if_true]
          rw [Prog.result_bind, Prog.final_bind, hr, hf, hgone]
          exact ⟨rfl, rfl⟩

end

/-! ## §3. Interrupted deletions. -/

/-- The entries at the end of a directory are the first to go. -/
theorem mem_killed_deleteEntries {delfiles : Bool} {d : Path} {t u : Node}
    {post : List (String × Node)} (h : u ∈ (deleteEntries delfiles d post).killed t)
    (pre : List (String × Node)) : u ∈ (deleteEntries delfiles d (pre ++ post)).killed t := by
  induction pre with
  | nil => exact h
  | cons e pre ih =>
      rw [List.cons_append]
      unfold deleteEntries
      exact Prog.mem_killed_bind.mpr (Or.inl ih)

/-- **A killed deletion** can leave any part of the directory that comes before one of its
entries, and nothing else of it. -/
theorem mem_killed_recursiveDelete {d : Path} {t : Node} {pre post : Entries} (hd : d ≠ [])
    (hdir : IsDir t d.dropLast) (hwf : (Node.dir (pre ++ post)).WF)
    (hget : t.get d = some (.dir (pre ++ post))) :
    t.put d (some (.dir pre)) ∈ (recursiveDelete true d (.dir (pre ++ post))).killed t := by
  have hpost : WFEntries post := by
    have := hwf.2
    clear hget hwf
    induction pre with
    | nil => exact this
    | cons e pre ih => exact ih this.2
  obtain ⟨-, hfinal⟩ := deleteEntries_spec post hd hdir hget hwf.1 hpost
  unfold recursiveDelete
  refine Prog.mem_killed_bind.mpr (Or.inl (mem_killed_deleteEntries ?_ pre))
  rw [← hfinal]
  exact Prog.final_mem_killed _ _

theorem recursiveDeleteAt_dir {d : Path} {t : Node} {es : Entries} (delfiles : Bool)
    (h : t.get d = some (.dir es)) :
    recursiveDeleteAt d delfiles t = recursiveDelete delfiles d (.dir es) t := by
  unfold recursiveDeleteAt
  rw [Prog.read_bind, h]

end Burp.Store
