/-
  Burp.Backups.Delete — deleting backups from the storage.

  `get_current_backups` takes every directory that has a readable `timestamp` for a
  backup, the ones that `working` and `finishing` point to excepted, and nothing else of
  the directory is looked at.  `delete_backup` renames the backup to `deleteme` and empties
  that directory in the order of `scandir`.  A kill in between leaves a `deleteme` that is
  a whole backup to the eye of `get_current_backups` as long as its timestamp is there, and
  afterwards one that no later deletion can be renamed onto.

  Main results:
    * `mem_collect`, `collect_path` — which directories are backups.
    * `deleteBackup_not_crashSafe` — every deletion has a point at which it must not be
      killed.
-/
import Burp.Backups.Retention
import Burp.Store.Recursive

namespace Burp.Backups.OnDisk

open Crash FileSystem Burp.Store

/-! ## §1. `get_current_backups`. -/

/-- `get_link`, with a buffer of 32 bytes. -/
def getLink (t : Node) (lnk : String) : String :=
  match look t [lnk] with
  | some (.symlink real) => String.ofList (real.toList.take 31)
  | _ => ""

/-- `read_timestamp` into a buffer of `len` bytes.  At the end of the file `fgets` leaves
the buffer alone. -/
def readTimestamp (len : Nat) (buf : Bytes) (file : Option Bytes) : Bytes × Bool :=
  match file with
  | none => ([], false)
  | some b =>
      let line :=
        if b = [] then buf else ((b.takeWhile (· ≠ 10)).take (len - 1)).takeWhile (· ≠ 0)
      (line, decide (line ≠ []))

/-- `isspace`. -/
def isSpace (c : UInt8) : Bool := c == 32 || decide (9 ≤ c ∧ c ≤ 13)

/-- `isdigit`. -/
def isDigit (c : UInt8) : Bool := decide (48 ≤ c ∧ c ≤ 57)

/-- `strtoul(.., 10)`. -/
def strtoul (b : Bytes) : Nat :=
  let b := b.dropWhile isSpace
  let (neg, b) :=
    match b with
    | 45 :: b => (true, b)
    | 43 :: b => (false, b)
    | b => (false, b)
  let n := (b.takeWhile isDigit).foldl (fun n c => 10 * n + (c.toNat - 48)) 0
  if 2 ^ 64 ≤ n then 2 ^ 64 - 1 else if neg then (2 ^ 64 - n) % 2 ^ 64 else n

/-- The file at a path, if it is a regular one. -/
def regular (t : Node) (p : Path) : Option Bytes :=
  match look t p with
  | some (.file _ b) => some b
  | _ => none

/-- One turn of the loop over the directory, with the buffer of `read_timestamp`. -/
def found (t : Node) (buf : Bytes) (name : String) : Bytes × Option Bu :=
  if name = getLink t "working" ∨ name = getLink t "finishing" then (buf, none)
  else if look t [name] ≠ none ∧ look t [name] ≠ some .dir then (buf, none)
  else
    match regular t [name, "timestamp"] with
    | none => (buf, none)
    | some b =>
        match readTimestamp 32 buf (some b) with
        | (buf, false) => (buf, none)
        | (buf, true) =>
            (buf, some { path := name, hardlinked := decide (look t [name, "hardlinked"] ≠ none),
                         index := strtoul buf })

/-- The loop. -/
def collect (t : Node) : Bytes → List String → List Bu
  | _, [] => []
  | buf, name :: names =>
      let (buf, b) := found t buf name
      b.toList ++ collect t buf names

/-- `get_current_backups`; `none` is a return value of -1. -/
def getCurrentBackups : Prog Node (Option (List Bu)) :=
  .read fun t =>
    match t with
    | .dir es => some (Backups.getCurrentBackups (collect t [] (es.map Prod.fst)))
    | _ => none

/-! ## §2. `remove_old_backups`. -/

/-- `delete_backup`. -/
def deleteBackup (b : Bu) : Prog Node Bool := do
  if ← rename [b.path] ["deleteme"] then
    match ← recursiveDeleteAt ["deleteme"] true with
    | .ok => pure true
    | _ => pure false
  else pure false

/-- The deletions of one pass: how many there were, or `none` after an error. -/
def deleteAll : List Bu → Prog Node (Option Nat)
  | [] => pure (some 0)
  | b :: bs => do
      if ← deleteBackup b then
        let deleted ← deleteAll bs
        pure (deleted.map (· + 1))
      else pure none

/-- `do_remove_old_backups`. -/
def doRemoveOldBackups (keep : List Nat) : Prog Node (Option Nat) := do
  match ← getCurrentBackups with
  | none => pure none
  | some arr => deleteAll (Backups.doRemoveOldBackups keep arr)

/-- `remove_old_backups`: whether it returns 0, or `none` when the fuel runs out. -/
def removeOldBackups (keep : List Nat) : Nat → Prog Node (Option Bool)
  | 0 => pure none
  | fuel + 1 => do
      match ← doRemoveOldBackups keep with
      | none => pure (some false)
      | some 0 => pure (some true)
      | some (_ + 1) => removeOldBackups keep fuel

/-! ## §3. Which directories are backups. -/

section Collect

variable {t : Node}

/-- A backup is a directory with a timestamp. -/
theorem found_spec {buf : Bytes} {name : String} {b : Bu} (h : (found t buf name).2 = some b) :
    b.path = name ∧ IsDir t [name] ∧ regular t [name, "timestamp"] ≠ none := by
  unfold found at h
  split_ifs at h with h1 h2
  cases hreg : regular t [name, "timestamp"] with
  | none => rw [hreg] at h; simp at h
  | some d =>
      rw [hreg] at h
      simp only at h
      split at h
      next heq => simp at h
      next heq =>
        obtain rfl := Option.some.inj h
        refine ⟨rfl, ?_, by simp⟩
        have hlook : look t ([name] ++ ["timestamp"]) ≠ none := by
          intro hnone
          have hnone' : look t [name, "timestamp"] = none := hnone
          unfold regular at hreg
          rw [hnone'] at hreg
          simp at hreg
        exact isDir_of_look_append (by simp) hlook

theorem mem_collect {b : Bu} :
    ∀ {names : List String} {buf : Bytes}, b ∈ collect t buf names →
      b.path ∈ names ∧ IsDir t [b.path] ∧ regular t [b.path, "timestamp"] ≠ none
  | [], _, h => by simp [collect] at h
  | name :: names, buf, h => by
      rw [collect, List.mem_append] at h
      rcases h with h | h
      · obtain ⟨hpath, hdir, hreg⟩ := found_spec (Option.mem_toList.mp h)
        rw [hpath]
        exact ⟨List.mem_cons_self, hdir, hreg⟩
      · obtain ⟨hmem, hrest⟩ := mem_collect h
        exact ⟨List.mem_cons_of_mem _ hmem, hrest⟩

/-- A timestamp that can be read is read, whatever the buffer holds. -/
theorem found_of_readable {name : String} {d : Bytes} (hlinks : name ≠ getLink t "working"
      ∧ name ≠ getLink t "finishing") (hdir : IsDir t [name])
    (hts : regular t [name, "timestamp"] = some d) (hread : (readTimestamp 32 [] (some d)).2 = true)
    (buf : Bytes) : ∃ b, (found t buf name).2 = some b ∧ b.path = name := by
  have hd : d ≠ [] := by
    rintro rfl
    simp [readTimestamp] at hread
  have hsame : readTimestamp 32 buf (some d) = readTimestamp 32 [] (some d) := by
    simp only [readTimestamp, if_neg hd]
  unfold found
  rw [if_neg (not_or.mpr hlinks), if_neg (fun h => h.2 hdir), hts]
  simp only [hsame]
  split
  next heq => rw [heq] at hread; simp at hread
  next heq => exact ⟨_, rfl, rfl⟩

theorem collect_path {name : String} {d : Bytes} (hlinks : name ≠ getLink t "working"
      ∧ name ≠ getLink t "finishing") (hdir : IsDir t [name])
    (hts : regular t [name, "timestamp"] = some d)
    (hread : (readTimestamp 32 [] (some d)).2 = true) :
    ∀ {names : List String} {buf : Bytes}, name ∈ names →
      name ∈ (collect t buf names).map Bu.path
  | n :: names, buf, h => by
      rw [collect, List.map_append, List.mem_append]
      rcases List.mem_cons.mp h with rfl | h
      · obtain ⟨b, hb, hpath⟩ := found_of_readable hlinks hdir hts hread buf
        left
        rw [hb]
        simp [hpath]
      · exact Or.inr (collect_path hlinks hdir hts hread h)

theorem mem_names {es : Entries} {x : String} (h : IsDir (.dir es) [x]) : x ∈ es.map Prod.fst := by
  by_contra hnot
  rw [← find_eq_none] at hnot
  simp [IsDir, look, hnot] at h

/-- The array that is read from a store. -/
theorem getCurrentBackups_result {es : Entries} (h : t = .dir es) :
    getCurrentBackups.result t
      = some (Backups.getCurrentBackups (collect t [] (es.map Prod.fst))) := by
  subst h
  rfl

end Collect

/-! ## §4. What is deleted. -/

theorem mem_of_mem_keepDeletions {arr : List Bu} {b : Bu} :
    ∀ {ks : List Nat} {m : Nat}, b ∈ keepDeletions arr m ks → b ∈ arr
  | [], _, h => by simp [keepDeletions] at h
  | [k], _, h => by simp [keepDeletions] at h
  | k :: k' :: ks, m, h => by
      rw [keepDeletions, List.mem_append] at h
      rcases h with h | h
      · obtain ⟨r, -, hr⟩ := List.mem_flatMap.mp h
        exact (mem_rangeDeletions hr).1
      · exact mem_of_mem_keepDeletions h

/-- A pass deletes backups of the array. -/
theorem mem_of_mem_doRemoveOldBackups {keep : List Nat} {arr : List Bu} {b : Bu}
    (h : b ∈ Backups.doRemoveOldBackups keep arr) : b ∈ arr := by
  rcases List.mem_append.mp h with h | h
  · exact mem_of_mem_keepDeletions h
  · unfold oldestDeletions at h
    split at h
    · simp at h
    · exact List.mem_of_mem_take (List.mem_reverse.mp h)

/-! ## §5. A killed deletion. -/

/-- The deletion of `b` in the store `s` is crash safe: wherever it is killed, no backup
with a missing part is handed out, and the next `remove_old_backups` succeeds and leaves
`deleteme` whole or not at all. -/
def CrashSafe (keep : List Nat) (s : Node) (b : Bu) : Prop :=
  ∀ u ∈ (deleteBackup b).killed s,
    (∀ arr, getCurrentBackups.result u = some arr → "deleteme" ∈ arr.map Bu.path →
      ∀ p, p = ["manifest.gz"] ∨ ["data"] <+: p → look u ("deleteme" :: p) = look s (b.path :: p))
    ∧ ∃ fuel, (removeOldBackups keep fuel).result u = some true
        ∧ (((removeOldBackups keep fuel).final u).get ["deleteme"] = none
          ∨ ((removeOldBackups keep fuel).final u).get ["deleteme"] = s.get [b.path])

/-- A backup that can be deleted: it has a readable timestamp and a manifest, and the name
`deleteme` is free. -/
structure Deletable (s : Node) (b : Bu) (es : Entries) : Prop where
  wf : s.WF
  dir : s.get [b.path] = some (.dir es)
  timestamp : ∃ i d, find es "timestamp" = some (.file i d) ∧ (readTimestamp 32 [] (some d)).2 = true
  manifest : ∃ i d, find es "manifest.gz" = some (.file i d)
  free : look s ["deleteme"] = none
  working : getLink s "working" ≠ "deleteme"
  finishing : getLink s "finishing" ≠ "deleteme"

/-- The store after a kill that has left the entries `pre` of the backup. -/
def remains (s : Node) (b : Bu) (pre : Entries) : Node :=
  (s.put [b.path] none).put ["deleteme"] (some (.dir pre))

section Killed

variable {s : Node} {b : Bu} {es pre : Entries} (h : Deletable s b es)

include h

theorem Deletable.root : ∃ fs, s = .dir fs ∧ find fs b.path = some (.dir es) := by
  have hget := h.dir
  cases s with
  | file i d => simp [Node.get] at hget
  | symlink x => simp [Node.get] at hget
  | dir fs =>
      rw [Node.get_dir_cons] at hget
      obtain ⟨n, hn, hnes⟩ := Option.bind_eq_some_iff.mp hget
      simp only [Node.get_nil, Option.some.injEq] at hnes
      exact ⟨fs, rfl, hnes ▸ hn⟩

theorem Deletable.path_ne : b.path ≠ "deleteme" := by
  intro hpath
  have hfree := h.free
  rw [look, ← hpath, h.dir] at hfree
  simp at hfree

/-- The remains, seen from a path. -/
theorem Deletable.remains_get (pre : Entries) (x : String) (p : Path) :
    (remains s b pre).get (x :: p)
      = if x = "deleteme" then (Node.dir pre).get p else if x = b.path then none
        else s.get (x :: p) := by
  obtain ⟨fs, rfl, -⟩ := h.root
  simp only [remains, Node.put, Node.get_dir_cons, find_set]
  split_ifs <;> simp

theorem Deletable.remains_eq (pre : Entries) : ∃ fs, remains s b pre = .dir fs := by
  obtain ⟨fs, rfl, -⟩ := h.root
  exact ⟨_, rfl⟩

/-- Every part of the backup that comes before one of its entries can be what is left. -/
theorem Deletable.mem_killed {post : Entries} (hes : es = pre ++ post) :
    remains s b pre ∈ (deleteBackup b).killed s := by
  have hne := h.path_ne
  have hroot : IsDir s [] := by
    obtain ⟨fs, rfl, -⟩ := h.root
    rfl
  have hfree : s.get ["deleteme"] = none := get_of_look_none h.free
  have hren : renameAt [b.path] ["deleteme"] s = (remains s b es, true) := by
    have hpre : ¬ [b.path] <+: ["deleteme"] := by simpa using hne
    unfold renameAt
    rw [h.dir]
    simp only [List.cons.injEq, and_true, if_neg hne, List.dropLast_singleton, not_not.mpr hroot,
      if_false, hfree, if_neg hpre]
    rfl
  have hget : (remains s b es).get ["deleteme"] = some (.dir (pre ++ post)) := by
    rw [h.remains_get, if_pos rfl, Node.get_nil, hes]
  have hkill : remains s b pre ∈ (recursiveDelete true ["deleteme"] (.dir (pre ++ post))).killed
      (remains s b es) := by
    have hroot' : IsDir (remains s b es) (["deleteme"] : Path).dropLast := by
      obtain ⟨fs, hfs⟩ := h.remains_eq es
      rw [hfs]
      rfl
    have := mem_killed_recursiveDelete (by simp) hroot'
      (by rw [← hes]; exact h.wf.get h.dir) hget
    rwa [remains, Node.put_put] at this
  unfold deleteBackup
  refine Prog.mem_killed_bind.mpr (Or.inr ?_)
  simp only [rename, Prog.result_op, Prog.final_op, hren, if_true]
  refine Prog.mem_killed_bind.mpr (Or.inl ?_)
  rw [Prog.killed_congr (congrArg Prod.fst (recursiveDeleteAt_dir true hget))]
  exact hkill

theorem Deletable.getLink_ne (lnk : String) (hlnk : lnk ≠ "deleteme")
    (hs : getLink s lnk ≠ "deleteme") : getLink (remains s b pre) lnk ≠ "deleteme" := by
  have hget := h.remains_get pre lnk []
  rw [if_neg hlnk] at hget
  unfold getLink look at hs ⊢
  rw [hget]
  split_ifs with hb
  · simp
  · exact hs

/-- With its timestamp, what is left is a backup. -/
theorem Deletable.listed {i : Nat} {d : Bytes} (hts : find pre "timestamp" = some (.file i d))
    (hread : (readTimestamp 32 [] (some d)).2 = true) :
    ∃ arr, getCurrentBackups.result (remains s b pre) = some arr
      ∧ "deleteme" ∈ arr.map Bu.path := by
  obtain ⟨fs, hfs⟩ := h.remains_eq pre
  refine ⟨_, getCurrentBackups_result hfs, ?_⟩
  rw [mem_path_getCurrentBackups]
  have hdir : IsDir (remains s b pre) ["deleteme"] := by
    rw [isDir_iff]
    exact ⟨pre, by rw [h.remains_get, if_pos rfl, Node.get_nil]⟩
  refine collect_path ⟨Ne.symm (h.getLink_ne _ (by decide) h.working),
    Ne.symm (h.getLink_ne _ (by decide) h.finishing)⟩ hdir (d := d) ?_ hread
        (mem_names (hfs ▸ hdir))
  unfold regular look
  rw [h.remains_get, if_pos rfl]
  simp [hts, Node.entry]

/-- Without its timestamp, what is left is not a backup. -/
theorem Deletable.unlisted (hts : find pre "timestamp" = none) {arr : List Bu}
    (harr : getCurrentBackups.result (remains s b pre) = some arr) {x : Bu} (hx : x ∈ arr) :
    x.path ≠ "deleteme" ∧ IsDir (remains s b pre) [x.path] := by
  obtain ⟨fs, hfs⟩ := h.remains_eq pre
  rw [getCurrentBackups_result hfs, Option.some.injEq] at harr
  subst harr
  obtain ⟨y, hy, hyx⟩ := List.mem_map.mp
    ((mem_path_getCurrentBackups _ _).mp (List.mem_map_of_mem hx))
  obtain ⟨-, hdir, hreg⟩ := mem_collect hy
  rw [hyx] at hdir hreg
  refine ⟨fun hpath => ?_, hdir⟩
  rw [hpath] at hreg
  refine hreg ?_
  unfold regular look
  rw [h.remains_get, if_pos rfl]
  simp [hts]

/-- Nothing can be renamed onto what is left. -/
theorem Deletable.stuck (hpre : pre ≠ []) {x : Bu} (hx : x.path ≠ "deleteme")
    (hdir : IsDir (remains s b pre) [x.path]) :
    (deleteBackup x).result (remains s b pre) = false := by
  have hget : (remains s b pre).get ["deleteme"] = some (.dir pre) := by
    rw [h.remains_get, if_pos rfl, Node.get_nil]
  obtain ⟨fs, hxget⟩ := isDir_iff.mp hdir
  have hren : renameAt [x.path] ["deleteme"] (remains s b pre) = (remains s b pre, false) := by
    obtain ⟨e, es', rfl⟩ := List.exists_cons_of_ne_nil hpre
    unfold renameAt
    rw [hxget]
    simp only [List.cons.injEq, and_true, if_neg hx, hget]
    split_ifs <;> rfl
  unfold deleteBackup
  rw [Prog.result_bind]
  simp only [rename, Prog.result_op, hren]
  rfl

/-- After a kill that has taken the timestamp, `remove_old_backups` either fails or leaves
the rest alone. -/
theorem Deletable.rubble (keep : List Nat) (hts : find pre "timestamp" = none) (hpre : pre ≠ [])
    (hne : pre ≠ es) (fuel : Nat) :
    ¬ ((removeOldBackups keep fuel).result (remains s b pre) = some true
      ∧ (((removeOldBackups keep fuel).final (remains s b pre)).get ["deleteme"] = none
        ∨ ((removeOldBackups keep fuel).final (remains s b pre)).get ["deleteme"]
          = s.get [b.path])) := by
  cases fuel with
  | zero => exact fun hr => by simp [removeOldBackups] at hr
  | succ fuel =>
      obtain ⟨fs, hfs⟩ := h.remains_eq pre
      have harr := getCurrentBackups_result hfs
      have hstill : getCurrentBackups (remains s b pre)
          = ([], some (Backups.getCurrentBackups
              (collect (remains s b pre) [] (fs.map Prod.fst)))) :=
        Prod.ext rfl harr
      have hpass : doRemoveOldBackups keep (remains s b pre)
          = deleteAll (Backups.doRemoveOldBackups keep (Backups.getCurrentBackups
              (collect (remains s b pre) [] (fs.map Prod.fst)))) (remains s b pre) :=
        Prog.still_bind hstill _
      unfold removeOldBackups
      rw [Prog.result_bind, Prog.final_bind, Prog.result_congr hpass, Prog.final_congr hpass]
      cases hplan : Backups.doRemoveOldBackups keep (Backups.getCurrentBackups
          (collect (remains s b pre) [] (fs.map Prod.fst))) with
      | nil =>
          rintro ⟨-, hgone | hwhole⟩
          · have hgone' : (remains s b pre).get ["deleteme"] = none := hgone
            rw [h.remains_get, if_pos rfl] at hgone'
            simp at hgone'
          · have hwhole' : (remains s b pre).get ["deleteme"] = s.get [b.path] := hwhole
            rw [h.remains_get, if_pos rfl, h.dir] at hwhole'
            simp only [Node.get_nil, Option.some.injEq, Node.dir.injEq] at hwhole'
            exact hne hwhole'
      | cons x xs =>
          have hx := mem_of_mem_doRemoveOldBackups
            (show x ∈ Backups.doRemoveOldBackups keep _ by rw [hplan]; simp)
          obtain ⟨hxne, hxdir⟩ := h.unlisted hts harr hx
          have hfail : (deleteAll (x :: xs)).result (remains s b pre) = none := by
            rw [deleteAll, Prog.result_bind, h.stuck hpre hxne hxdir]
            rfl
          rw [hfail]
          rintro ⟨hres, -⟩
          simp at hres

end Killed

/-- **No deletion of a backup is crash safe.**  If its manifest goes before its timestamp,
then a kill right after the manifest leaves half a backup that is handed out; otherwise a
kill right after the timestamp leaves rubble that no later deletion gets past. -/
theorem deleteBackup_not_crashSafe (keep : List Nat) (s : Node) (b : Bu) (es : Entries)
    (h : Deletable s b es) : ¬ CrashSafe keep s b := by
  intro hsafe
  obtain ⟨i, d, hts, hread⟩ := h.timestamp
  obtain ⟨j, m, hman⟩ := h.manifest
  obtain ⟨l, r, hes, hl⟩ := find_split hts
  cases hlm : find l "manifest.gz" with
  | some n =>
      -- the timestamp goes first
      have hkill := h.mem_killed hes
      have hlne : l ≠ [] := by
        rintro rfl
        simp [find] at hlm
      have hes' : l ≠ es := by
        rw [hes]
        simp
      obtain ⟨-, fuel, hfuel⟩ := hsafe _ hkill
      exact h.rubble keep hl hlne hes' fuel hfuel
  | none =>
      -- the manifest goes first
      have hr : find r "manifest.gz" = some (.file j m) := by
        have hne : ¬ "timestamp" = "manifest.gz" := by decide
        rw [hes, find_append, hlm] at hman
        simpa [find, hne] using hman
      obtain ⟨l', r', rfl, hl'⟩ := find_split hr
      have hkill := h.mem_killed (show es = (l ++ ("timestamp", .file i d) :: l')
        ++ ("manifest.gz", .file j m) :: r' by rw [hes]; simp)
      have hts' : find (l ++ ("timestamp", .file i d) :: l') "timestamp" = some (.file i d) := by
        rw [find_append, hl]
        simp [find]
      obtain ⟨arr, harr, hmem⟩ := h.listed hts' hread
      have hsame := (hsafe _ hkill).1 arr harr hmem ["manifest.gz"] (Or.inl rfl)
      have hgone : find (l ++ ("timestamp", .file i d) :: l') "manifest.gz" = none := by
        have hne : ¬ "timestamp" = "manifest.gz" := by decide
        rw [find_append, hlm]
        simpa [find, hne] using hl'
      have hold : look s [b.path, "manifest.gz"] = some (.file j m) := by
        have : s.get ([b.path] ++ ["manifest.gz"]) = some (.file j m) := by
          rw [Node.get_append, h.dir]
          simp [hman]
        unfold look
        rw [show ([b.path, "manifest.gz"] : Path) = [b.path] ++ ["manifest.gz"] from rfl, this]
        rfl
      rw [hold, look, h.remains_get, if_pos rfl] at hsame
      simp [hgone] at hsame

/-! ## §6. A backup that is deleted. -/

/-- A storage with two backups; the older one has lost nothing yet. -/
def sampleStore : Node :=
  .dir [("0000001", .dir [("manifest.gz", .file 1 [1]), ("timestamp", .file 2 [49, 10])]),
    ("0000002", .dir [("manifest.gz", .file 3 [2]), ("timestamp", .file 4 [50, 10])])]

def sampleBackup : Bu := { path := "0000001", hardlinked := false, deletable := true, index := 1 }

theorem sampleBackup_deletable : Deletable sampleStore sampleBackup
    [("manifest.gz", .file 1 [1]), ("timestamp", .file 2 [49, 10])] where
  wf := by simp [sampleStore, Node.WF, WFEntries]
  dir := rfl
  timestamp := ⟨2, [49, 10], rfl, by decide⟩
  manifest := ⟨1, [1], rfl⟩
  free := by decide
  working := by decide
  finishing := by decide

/-- The theorem for that backup. -/
theorem deleteBackup_not_crashSafe_sample : ¬ CrashSafe [1] sampleStore sampleBackup :=
  deleteBackup_not_crashSafe [1] sampleStore sampleBackup _ sampleBackup_deletable

/-- Killed right after `unlink(deleteme/timestamp)`, the deletion of that backup leaves a
`deleteme` that stays. -/
theorem sample_rubble : ¬ CrashSafe [1] sampleStore sampleBackup := by
  intro hsafe
  have hkill := sampleBackup_deletable.mem_killed
      (show _ = [("manifest.gz", .file 1 [1])] ++ _ from rfl)
  obtain ⟨-, fuel, hfuel⟩ := hsafe _ hkill
  exact sampleBackup_deletable.rubble [1] rfl (by simp) (by simp) fuel hfuel

end Burp.Backups.OnDisk
