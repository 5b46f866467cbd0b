/-
  Burp.Shuffle.Phase4 — `backup_phase4_server`, and restarting it.

  Phase 4 turns the backup that `finishing` points to into the current one.  If there is a
  current backup, it is duplicated first with hard links, the new files are shuffled into
  place, and the original goes to `deleteme` and is replaced by the duplicate; otherwise
  `data.tmp` only has to be renamed.  As long as `finishing` is there, `check_for_rubble`
  calls phase 4 again, which decides by `lstat` alone what is still to be done.

  Main results:
    * `stuck_fails` — where the directory that is renamed last has gone, no call returns 0.
    * `phase4_not_restartable` — every run has a point at which it must not be killed.
-/
import Burp.Backups.Delete
import Burp.Backups.Keep
import Burp.Phase2.Decide
import Burp.Shuffle.Jiggle
import Burp.Store.Confined
import Burp.Store.Manifest

namespace Burp.Shuffle

open Crash FileSystem Burp.Store Burp.Backups.OnDisk

/-! ## §1. `atomic_data_jiggle`. -/

/-- The least number whose square is not below `n`. -/
def ceilSqrt (n : Nat) : Nat := if n.sqrt * n.sqrt = n then n.sqrt else n.sqrt + 1

/-- `get_librsync_block_len`. -/
def librsyncBlockLen (endfile : Bytes) : Nat :=
  max 64 (16 * ((ceilSqrt (strtoul endfile) + 15) / 16))

/-- The loop over the manifest. -/
def jiggleAll (c : Codec) (conf : Conf) (fin : String) (hardlinked : Bool) :
    List Sbuf → Prog Node Bool
  | [] => pure true
  | sb :: sbs =>
      match sb.datapth with
      | none => jiggleAll c conf fin hardlinked sbs
      | some d => do
          if ← jiggle c conf (shuffleJob fin (Phase2.components d)
              (librsyncBlockLen (sb.endfile.getD [])) ((toManifest true sb).getD []) hardlinked
              sb.compression) then
            jiggleAll c conf fin hardlinked sbs
          else pure false

/-- A manifest, which is compressed, as a source of a merge loop. -/
def gzSource (c : Codec) (b : Bytes) : Source :=
  match c.gzread b with
  | none => ⟨[], true⟩
  | some b => Source.ofFile b

/-- The end of `maybe_delete_files_from_manifest`, where there is an error. -/
def dropTmp (manifesttmp : Path) : Prog Node Bool := do
  let _ ← unlink manifesttmp
  pure false

/-- `maybe_delete_files_from_manifest`. -/
def maybeDeleteFilesFromManifest (c : Codec) (conf : Conf) (manifest manifesttmp deletionsfile : Path) :
    Prog Node Bool := do
  match ← lstat deletionsfile with
  | none => pure true
  | some _ =>
      match ← readFile deletionsfile with
      | none => dropTmp manifesttmp
      | some del =>
          match ← readFile manifest with
          | none => dropTmp manifesttmp
          | some man =>
              match ← openWrite manifesttmp with
              | none => dropTmp manifesttmp
              | some i =>
                  let merged := deleteLoop (gzSource c man) (Source.ofFile del)
                  appendAll i (c.pieces (c.gzip conf.compression (manifestBytes merged.1)))
                  if merged.2 then
                    let _ ← unlink deletionsfile
                    if ← rename manifesttmp manifest then
                      let _ ← unlink manifesttmp
                      pure true
                    else pure false
                  else dropTmp manifesttmp

/-- `if(lstat(manifest, &statp)) do_rename(tmpman, manifest)`. -/
def recoverManifest (fin : String) : Prog Node Unit := do
  match ← lstat [fin, "manifest.gz"] with
  | some _ => pure ()
  | none =>
      let _ ← rename [fin, "manifest.gz.tmp"] [fin, "manifest.gz"]
      pure ()

/-- `atomic_data_jiggle`. -/
def atomicDataJiggle (c : Codec) (conf : Conf) (fin : String) (hardlinked : Bool) :
    Prog Node Bool := do
  recoverManifest fin
  match ← readFile [fin, "manifest.gz"] with
  | none => pure false
  | some b =>
      let _ ← mkdir [fin, "data"]
      let (sbs, ars, _) := entries ((c.gzread b).getD [])
      let shuffled ← jiggleAll c conf fin hardlinked sbs
      let kept ← maybeDeleteFilesFromManifest c conf [fin, "manifest.gz"]
        [fin, "manifest.gz.tmp"] [fin, "deletions"]
      let _ ← recursiveDeleteAt [fin, "deltas.forward"] false
      -- `ars` is 1 at the end of a manifest that can be read
      pure (shuffled && (c.gzread b).isSome && ars = .ended && kept)

/-! ## §2. `backup_phase4_server`. -/

/-- `readlink(current, realcurrent, 255)`; an error leaves the empty string. -/
def realCurrent (t : Node) : String :=
  match look t ["current"] with
  | some (.symlink target) => String.ofList (target.toList.take 255)
  | _ => ""

/-- `fullrealcurrent`, below the client's directory. -/
def fullRealCurrent (realcurrent : String) : Path :=
  if realcurrent = "" then [] else [realcurrent]

/-- Where `current` leads. -/
def currentDir (t : Node) : Path :=
  match look t ["current"] with
  | some (.symlink target) => [target]
  | _ => ["current"]

/-- Make room for the duplicate. -/
def removeCurrentduptmp (fin : String) : Prog Node Bool := do
  match ← lstat [fin, "currentdup.tmp"] with
  | none => pure true
  | some _ =>
      let deleted ← recursiveDeleteAt [fin, "currentdup.tmp"] true
      pure (deleted = .ok)

/-- Duplicate the current backup, unless an earlier attempt has: whether the duplicate is
new, or `none` after an error. -/
def duplicateCurrent (c : Codec) (conf : Conf) (fin : String) : Prog Node (Option Bool) := do
  match ← lstat [fin, "currentdup"] with
  | some _ => pure (some false)
  | none =>
      if ← removeCurrentduptmp fin then
        let current ← Prog.read currentDir
        if ← recursiveHardlinkAt c conf current [fin, "currentdup.tmp"] then
          if ← rename [fin, "currentdup.tmp"] [fin, "currentdup"] then pure (some true)
          else pure none
        else pure none
      else pure none

/-- Whether the previous backup is kept hardlinked: a new duplicate goes by the
configuration, an old one by what it started out as. -/
def isHardlinked (conf : Conf) (fin : String) (newdup : Bool) (bno : Nat) : Prog Node Bool :=
  if newdup then pure (Backups.doHardlinkedArchive conf.hardlinkedArchive conf.keep bno)
  else Prog.read fun t => decide (look t [fin, "currentdup", "hardlinked"] ≠ none)

/-- Write the file that says so, or remove it. -/
def markHardlinked (c : Codec) (fin : String) (hardlinked : Bool) (tstmp : Bytes) :
    Prog Node Bool := do
  if hardlinked then writeFile [fin, "currentdup", "hardlinked"] (c.pieces (tstmp ++ [10]))
  else
    let _ ← unlink [fin, "currentdup", "hardlinked"]
    pure true

/-- After the jiggle: remove what is left of the scratch directories. -/
def cleanUp (fin : String) : Prog Node Unit := do
  let _ ← recursiveDeleteAt [fin, "data.tmp"] true
  let _ ← recursiveDeleteAt [fin, "currentdup", "data"] false
  pure ()

/-- The branch with a previous backup, up to the rename of the old current. -/
def shufflePrevious (c : Codec) (conf : Conf) (fin : String) : Prog Node Bool := do
  match ← duplicateCurrent c conf fin with
  | none => pure false
  | some newdup =>
      let timestamp ← Prog.read fun t =>
        readTimestamp 64 [] (regular t [fin, "timestamp"])
      if timestamp.2 then
        let hardlinked ← isHardlinked conf fin newdup (strtoul timestamp.1)
        if ← markHardlinked c fin hardlinked timestamp.1 then
          if ← atomicDataJiggle c conf fin hardlinked then
            cleanUp fin
            pure true
          else pure false
        else pure false
      else pure false

/-- `compress_filename`; `pid` is the process id that ends the temporary name. -/
def compressFilename (c : Codec) (conf : Conf) (pid d file zfile : String) : Prog Node Bool := do
  match ← readFile [d, file] with
  | none =>
      let _ ← unlink [d, zfile ++ pid]
      pure false
  | some b =>
      match ← openWrite [d, zfile ++ pid] with
      | none =>
          let _ ← unlink [d, zfile ++ pid]
          pure false
      | some i =>
          appendAll i (c.pieces (c.gzip conf.compression b))
          if ← rename [d, zfile ++ pid] [d, zfile] then
            let _ ← unlink [d, file]
            pure true
          else
            let _ ← unlink [d, zfile ++ pid]
            pure false

/-- Put the duplicate where the old current was. -/
def replaceCurrent (fin : String) (realcurrent : String) : Prog Node Unit := do
  match ← lstat ["deleteme"] with
  | none => pure ()
  | some _ =>
      let _ ← rename [fin, "currentdup"] (fullRealCurrent realcurrent)
      let _ ← recursiveDeleteAt ["deleteme"] true
      pure ()

/-- The two branches: the directory that each of them renames at its end is the first
one that it has. -/
def shuffleOrRename (c : Codec) (conf : Conf) (fin : String) (realcurrent : String) :
    Prog Node Bool := do
  match ← lstat ["current"] with
  | some _ =>
      if ← shufflePrevious c conf fin then rename (fullRealCurrent realcurrent) ["deleteme"]
      else pure false
  | none => rename [fin, "data.tmp"] [fin, "data"]

/-- `backup_phase4_server` where `finishing` leads to `fin`. -/
def shuffleInto (c : Codec) (conf : Conf) (pid fin : String) (realcurrent : String) :
    Prog Node Bool := do
  match ← openAppend [fin, "log"] with
  | none => pure false
  | some _ =>
      if ← shuffleOrRename c conf fin realcurrent then
        replaceCurrent fin realcurrent
        let _ ← rename ["finishing"] ["current"]
        let _ ← compressFilename c conf pid fin "log" "log.gz"
        pure true
      else pure false

/-- `backup_phase4_server` in the client's directory; `true` is a return value of 0.
The lines of the log are left out. -/
def backupPhase4Server (c : Codec) (conf : Conf) (pid : String) : Prog Node Bool := do
  let realcurrent ← Prog.read realCurrent
  match ← lstat ["finishing"] with
  | some (.symlink fin) => shuffleInto c conf pid fin realcurrent
  | _ => pure false

/-! ## §3. What a shuffle leaves alone. -/

/-- The directories that a job works on are in a region. -/
structure Job.In (inside : Path → Prop) (j : Job) : Prop where
  currentdata : inside j.currentdata
  datadirtmp : inside j.datadirtmp
  datadir : inside j.datadir
  deltabdir : inside j.deltabdir
  deltafdir : inside j.deltafdir
  sigpath : inside j.sigpath
  deletionsfile : inside j.deletionsfile

section Confined

variable {inside : Path → Prop} {mine : Nat → Prop} {I : Node → Prop}
  (h : Local inside mine I) {c : Codec} {conf : Conf}

include h

theorem keeps_makeRevSig {dst sig : Path} {block : Nat} {compression : Int} (hsig : inside sig) :
    Keeps I (makeRevSig c dst sig block compression) := by
  unfold makeRevSig
  refine Keeps.bind (Keeps.read _) fun b => ?_
  cases b with
  | none => exact Keeps.pure _
  | some b =>
      refine h.keeps_openWrite hsig (Keeps.pure _) fun i hi => ?_
      refine Keeps.bind (Keeps.read _) fun d => ?_
      split
      · exact Keeps.pure _
      · exact Keeps.bind (h.keeps_appendAll hi _) fun _ => Keeps.pure _

theorem keeps_makeRevDelta {src sig del : Path} {compression : Int} (hdel : inside del) :
    Keeps I (makeRevDelta c conf src sig del compression) := by
  unfold makeRevDelta
  refine Keeps.bind (Keeps.read _) fun s => ?_
  cases s with
  | none => exact Keeps.pure _
  | some s =>
      refine Keeps.bind (Keeps.read _) fun b => ?_
      cases b with
      | none => exact Keeps.pure _
      | some b =>
          refine h.keeps_openWrite hdel (Keeps.pure _) fun i hi => ?_
          refine Keeps.bind (Keeps.read _) fun d => ?_
          split
          · exact Keeps.pure _
          · exact Keeps.bind (h.keeps_appendAll hi _) fun _ => Keeps.pure _

theorem keeps_genRevDelta {sigpath deltadir oldpath finpath path : Path} {block : Nat}
    {compression : Int} (hsig : inside sigpath) (hdel : inside deltadir) :
    Keeps I (genRevDelta c conf sigpath deltadir oldpath finpath path block compression) := by
  unfold genRevDelta
  refine Keeps.test (keeps_mkpath h hdel (List.prefix_append _ _)) ?_ (Keeps.pure _)
  refine Keeps.test (keeps_makeRevSig h hsig) ?_ (Keeps.pure _)
  refine Keeps.test (keeps_makeRevDelta h (h.below _ _ hdel)) ?_ (Keeps.pure _)
  exact Keeps.bind (h.keeps_unlink hsig) fun _ => Keeps.pure _

theorem keeps_noteDeletion {deletionsfile : Path} (hp : inside deletionsfile) (record : Bytes) :
    Keeps I (noteDeletion c deletionsfile record) := by
  unfold noteDeletion
  exact h.keeps_openAppend hp (Keeps.pure _) fun i hi =>
    Keeps.bind (h.keeps_appendAll hi _) fun _ => Keeps.pure _

theorem keeps_dropTmp {p : Path} (hp : inside p) : Keeps I (dropTmp p) :=
  Keeps.bind (h.keeps_unlink hp) fun _ => Keeps.pure _

theorem keeps_maybeDelete {man tmp del : Path} (hman : inside man) (htmp : inside tmp)
    (hdel : inside del) : Keeps I (maybeDeleteFilesFromManifest c conf man tmp del) := by
  have hdrop : Keeps I (dropTmp tmp) := keeps_dropTmp h htmp
  unfold maybeDeleteFilesFromManifest
  refine Keeps.bind (Keeps.read _) fun e => ?_
  cases e with
  | none => exact Keeps.pure _
  | some e =>
      refine Keeps.bind (Keeps.read _) fun d => ?_
      cases d with
      | none => exact hdrop
      | some d =>
          refine Keeps.bind (Keeps.read _) fun m => ?_
          cases m with
          | none => exact hdrop
          | some m =>
              refine h.keeps_openWrite htmp hdrop fun i hi => ?_
              refine Keeps.bind (h.keeps_appendAll hi _) fun _ => Keeps.ite ?_ hdrop
              refine Keeps.bind (h.keeps_unlink hdel) fun _ => ?_
              refine Keeps.test (h.keeps_rename htmp hman) ?_ (Keeps.pure _)
              exact Keeps.bind (h.keeps_unlink htmp) fun _ => Keeps.pure _

section Job

variable (hlink : Linkable inside I) {j : Job} (hj : j.In inside)

include hlink hj

theorem keeps_jigglePatch : Keeps I (jigglePatch c conf j) := by
  have hinf : inside j.infpath := h.below _ _ hj.deltafdir
  have hnew : inside j.newpath := h.below _ _ hj.datadirtmp
  unfold jigglePatch
  refine Keeps.test (keeps_inflateOrLink h hinf (keeps_doLink h hlink hinf)) ?_ (Keeps.pure _)
  refine Keeps.test (keeps_doPatch h hnew) ?_ ?_
  · refine Keeps.bind (h.keeps_unlink hinf) fun _ => Keeps.test ?_ ?_ (Keeps.pure _)
    · exact Keeps.ite (Keeps.pure _) (keeps_genRevDelta h hj.sigpath hj.deltabdir)
    · refine Keeps.test (h.keeps_rename hnew (h.below _ _ hj.datadir)) ?_ (Keeps.pure _)
      refine Keeps.bind (h.keeps_unlink (h.below _ _ hj.deltafdir)) fun _ => ?_
      exact Keeps.ite (Keeps.pure _)
        (Keeps.bind (h.keeps_unlink (h.below _ _ hj.currentdata)) fun _ => Keeps.pure _)
  · -- the delta does not apply
    exact Keeps.bind (h.keeps_unlink hnew) fun _ =>
      Keeps.bind (h.keeps_unlink hinf) fun _ => keeps_noteDeletion h hj.deletionsfile _

theorem keeps_jiggleLink : Keeps I (jiggleLink c conf j) := by
  unfold jiggleLink
  refine Keeps.test (keeps_doLink h hlink (h.below _ _ hj.datadir)) ?_ (Keeps.pure _)
  exact Keeps.ite (Keeps.pure _)
    (Keeps.bind (h.keeps_unlink (h.below _ _ hj.currentdata)) fun _ => Keeps.pure _)

/-- **`jiggle`** works in the directories of its job only. -/
theorem keeps_jiggle : Keeps I (jiggle c conf j) := by
  unfold jiggle jiggleFile
  refine Keeps.test (Keeps.read _) ?_ ?_
  · exact Keeps.test (Keeps.read _)
      (Keeps.bind (h.keeps_unlink (h.below _ _ hj.deltafdir)) fun _ => Keeps.pure _)
      (Keeps.pure _)
  · refine Keeps.test (keeps_mkpath h hj.datadir (List.prefix_append _ _)) ?_ (Keeps.pure _)
    refine Keeps.test (keeps_mkpath h hj.datadirtmp (List.prefix_append _ _)) ?_ (Keeps.pure _)
    refine Keeps.test (Keeps.read _) (keeps_jigglePatch h hlink hj) ?_
    refine Keeps.test (Keeps.read _)
      (h.keeps_rename (h.below _ _ hj.datadirtmp) (h.below _ _ hj.datadir)) ?_
    exact Keeps.test (Keeps.read _) (keeps_jiggleLink h hlink hj) (Keeps.pure _)

end Job

section Finishing

variable (hlink : Linkable inside I) {fin : String} (hin : inside [fin])

include hin

theorem inside_fin (r : Path) : inside (fin :: r) := h.below [fin] r hin

theorem shuffleJob_in {datapth : Path} {block : Nat} {record : Bytes} {hardlinked : Bool}
    {compression : Int} :
    (shuffleJob fin datapth block record hardlinked compression).In inside where
  currentdata := inside_fin h hin _
  datadirtmp := inside_fin h hin _
  datadir := inside_fin h hin _
  deltabdir := inside_fin h hin _
  deltafdir := inside_fin h hin _
  sigpath := inside_fin h hin _
  deletionsfile := inside_fin h hin _

include hlink

theorem keeps_jiggleAll (hardlinked : Bool) :
    ∀ sbs : List Sbuf, Keeps I (jiggleAll c conf fin hardlinked sbs)
  | [] => Keeps.pure _
  | sb :: sbs => by
      unfold jiggleAll
      cases sb.datapth with
      | none => exact keeps_jiggleAll hardlinked sbs
      | some d =>
          exact Keeps.test (keeps_jiggle h hlink (shuffleJob_in h hin))
            (keeps_jiggleAll hardlinked sbs) (Keeps.pure _)

theorem keeps_atomicDataJiggle (hardlinked : Bool) :
    Keeps I (atomicDataJiggle c conf fin hardlinked) := by
  have hrec : Keeps I (recoverManifest fin) := by
    unfold recoverManifest
    refine Keeps.bind (Keeps.read _) fun e => ?_
    cases e with
    | some e => exact Keeps.pure _
    | none =>
        exact Keeps.bind (h.keeps_rename (inside_fin h hin _) (inside_fin h hin _))
          fun _ => Keeps.pure _
  unfold atomicDataJiggle
  refine Keeps.bind hrec fun _ => Keeps.bind (Keeps.read _) fun b => ?_
  cases b with
  | none => exact Keeps.pure _
  | some b =>
      refine Keeps.bind (h.keeps_mkdir (inside_fin h hin _)) fun _ => ?_
      refine Keeps.bind (keeps_jiggleAll h hlink hin hardlinked _) fun _ => ?_
      refine Keeps.bind (keeps_maybeDelete h (inside_fin h hin _) (inside_fin h hin _)
        (inside_fin h hin _)) fun _ => ?_
      exact Keeps.bind (keeps_recursiveDeleteAt h (inside_fin h hin _) _) fun _ => Keeps.pure _

theorem keeps_duplicateCurrent : Keeps I (duplicateCurrent c conf fin) := by
  have hroom : Keeps I (removeCurrentduptmp fin) := by
    unfold removeCurrentduptmp
    refine Keeps.bind (Keeps.read _) fun e => ?_
    cases e with
    | none => exact Keeps.pure _
    | some e =>
        exact Keeps.bind (keeps_recursiveDeleteAt h (inside_fin h hin _) _) fun _ => Keeps.pure _
  unfold duplicateCurrent
  refine Keeps.bind (Keeps.read _) fun e => ?_
  cases e with
  | some e => exact Keeps.pure _
  | none =>
      refine Keeps.test hroom ?_ (Keeps.pure _)
      refine Keeps.bind (Keeps.read _) fun d => ?_
      refine Keeps.test (keeps_recursiveHardlinkAt h hlink (inside_fin h hin _)) ?_ (Keeps.pure _)
      exact Keeps.test (h.keeps_rename (inside_fin h hin _) (inside_fin h hin _))
        (Keeps.pure _) (Keeps.pure _)

/-- **The shuffle** works below `finishing` only. -/
theorem keeps_shufflePrevious : Keeps I (shufflePrevious c conf fin) := by
  unfold shufflePrevious
  refine Keeps.bind (keeps_duplicateCurrent h hlink hin) fun dup => ?_
  cases dup with
  | none => exact Keeps.pure _
  | some newdup =>
      refine Keeps.bind (Keeps.read _) fun ts => Keeps.ite ?_ (Keeps.pure _)
      refine Keeps.bind (Keeps.ite (Keeps.pure _) (Keeps.read _)) fun hardlinked => ?_
      refine Keeps.test ?_ ?_ (Keeps.pure _)
      · exact Keeps.ite (h.keeps_writeFile (inside_fin h hin _) _)
          (Keeps.bind (h.keeps_unlink (inside_fin h hin _)) fun _ => Keeps.pure _)
      · refine Keeps.test (keeps_atomicDataJiggle h hlink hin hardlinked) ?_ (Keeps.pure _)
        refine Keeps.bind ?_ fun _ => Keeps.pure _
        exact Keeps.bind (keeps_recursiveDeleteAt h (inside_fin h hin _) _) fun _ =>
          Keeps.bind (keeps_recursiveDeleteAt h (inside_fin h hin _) _) fun _ => Keeps.pure _

theorem keeps_shuffleOrRename {real : String} (hreal : real ≠ "" → inside [real])
    (hdel : inside ["deleteme"]) : Keeps I (shuffleOrRename c conf fin real) := by
  have hroot : Keeps I (rename (fullRealCurrent real) ["deleteme"]) := by
    unfold fullRealCurrent
    by_cases h0 : real = ""
    · rw [if_pos h0]
      exact Keeps.op fun t ht => by rwa [rename_of_root (by simp)]
    · rw [if_neg h0]
      exact h.keeps_rename (hreal h0) hdel
  unfold shuffleOrRename
  refine Keeps.bind (Keeps.read _) fun e => ?_
  cases e with
  | some e => exact Keeps.test (keeps_shufflePrevious h hlink hin) hroot (Keeps.pure _)
  | none => exact h.keeps_rename (inside_fin h hin _) (inside_fin h hin _)

omit hlink in
theorem keeps_replaceCurrent {real : String} (hreal : real ≠ "" → inside [real])
    (hdel : inside ["deleteme"]) : Keeps I (replaceCurrent fin real) := by
  have hroot : Keeps I (rename [fin, "currentdup"] (fullRealCurrent real)) := by
    unfold fullRealCurrent
    by_cases h0 : real = ""
    · rw [if_pos h0]
      exact Keeps.op fun t ht => by rwa [rename_to_root (by simp)]
    · rw [if_neg h0]
      exact h.keeps_rename (inside_fin h hin _) (hreal h0)
  unfold replaceCurrent
  refine Keeps.bind (Keeps.read _) fun e => ?_
  cases e with
  | none => exact Keeps.pure _
  | some e =>
      exact Keeps.bind hroot fun _ =>
        Keeps.bind (keeps_recursiveDeleteAt h hdel _) fun _ => Keeps.pure _

omit hlink in
theorem keeps_compressFilename {pid file zfile : String} :
    Keeps I (compressFilename c conf pid fin file zfile) := by
  have htmp : inside [fin, zfile ++ pid] := inside_fin h hin _
  have hdrop : Keeps I (do
      let _ ← unlink [fin, zfile ++ pid]
      pure false : Prog Node Bool) :=
    Keeps.bind (h.keeps_unlink htmp) fun _ => Keeps.pure _
  unfold compressFilename
  refine Keeps.bind (Keeps.read _) fun b => ?_
  cases b with
  | none => exact hdrop
  | some b =>
      refine h.keeps_openWrite htmp hdrop fun i hi => ?_
      refine Keeps.bind (h.keeps_appendAll hi _) fun _ => ?_
      refine Keeps.test (h.keeps_rename htmp (inside_fin h hin _)) ?_ hdrop
      exact Keeps.bind (h.keeps_unlink (inside_fin h hin _)) fun _ => Keeps.pure _

end Finishing

end Confined

/-! ## §4. Calling it again. -/

/-- Calls of a program that run to their end, up to the first one that returns 0, and the
state that this one leaves. -/
inductive Returns {σ : Type} (p : Prog σ Bool) : σ → σ → Prop
  | done {s : σ} : p.result s = true → Returns p s (p.final s)
  | again {s t : σ} : p.result s = false → Returns p (p.final s) t → Returns p s t

/-- An entry without its inode number. -/
def bare : Entry → Entry
  | .file _ d => .file 0 d
  | .symlink target => .symlink target
  | .dir => .dir

/-- The same directories, symlinks and contents of files, the log files of the backup
`fin` excepted. -/
def SameStore (fin : String) (t u : Node) : Prop :=
  ∀ p : Path, (∀ x r, p = fin :: x :: r → ¬ "log".toList <+: x.toList) →
    (look t p).map bare = (look u p).map bare

/-- Whatever number of killed attempts has left the store, as long as `finishing` is there:
phase 4 can be called until it returns 0, and then the store is that of an uninterrupted
run. -/
def Restartable (c : Codec) (conf : Conf) (pid fin : String) (s : Node) : Prop :=
  ∀ t, Attempts (backupPhase4Server c conf pid) s t → look t ["finishing"] ≠ none →
    ∃ u, Returns (backupPhase4Server c conf pid) t u
      ∧ SameStore fin u ((backupPhase4Server c conf pid).final s)

/-- A store at the start of phase 4: the first backup of a client, or one with a previous
backup in a directory of its own. -/
structure Received (s : Node) (fin : String) : Prop where
  finishing : look s ["finishing"] = some (.symlink fin)
  name : fin ≠ "finishing" ∧ fin ≠ "current" ∧ fin ≠ "deleteme"
  previous : look s ["current"] = none ∧ IsDir s [fin, "data.tmp"]
    ∨ ∃ cur, look s ["current"] = some (.symlink cur) ∧ IsDir s [cur] ∧ cur.length ≤ 255
      ∧ cur ≠ "" ∧ cur ≠ "deleteme" ∧ cur ≠ fin

/-- What `current` can be: nothing, or a link to another backup. -/
def Previous (fin : String) (e : Option Entry) : Prop :=
  e = none ∨ ∃ cur, e = some (.symlink cur) ∧ cur.length ≤ 255 ∧ cur ≠ "" ∧ cur ≠ "current"
    ∧ cur ≠ "finishing" ∧ cur ≠ fin

/-- The links while phase 4 is at work. -/
def Links (fin : String) (e : Option Entry) (t : Node) : Prop :=
  look t ["finishing"] = some (.symlink fin) ∧ look t ["current"] = e

section Restart

variable {c : Codec} {conf : Conf} {pid fin : String} {s t : Node} {e : Option Entry}

theorem Received.previous_links (h : Received s fin) :
    Previous fin (look s ["current"]) ∧ Links fin (look s ["current"]) s := by
  refine ⟨?_, h.finishing, rfl⟩
  rcases h.previous with ⟨hnone, -⟩ | ⟨cur, hcur, hdir, hlen, h0, -, hfin⟩
  · exact Or.inl hnone
  · refine Or.inr ⟨cur, hcur, hlen, h0, ?_, ?_, hfin⟩
    · rintro rfl
      rw [IsDir, hcur] at hdir
      simp at hdir
    · rintro rfl
      rw [IsDir, h.finishing] at hdir
      simp at hdir

theorem realCurrent_eq {cur : String} (h : look t ["current"] = some (.symlink cur))
    (hlen : cur.length ≤ 255) : realCurrent t = cur := by
  unfold realCurrent
  rw [h]
  simp only
  rw [List.take_of_length_le (by rwa [String.length_toList]), String.ofList_toList]

/-- A program that works below `fin`, the previous backup and `deleteme` leaves the links
alone. -/
theorem keeps_links {α : Type} {p : Prog Node α} (he : Previous fin e)
    (h : ∀ (x : String) (e : Option Entry), (x = "finishing" ∨ x = "current") →
      (∀ i b, e ≠ some (.file i b)) → Keeps (fun t => look t [x] = e) p) :
    Keeps (Links fin e) p := by
  refine Keeps.and (h _ _ (Or.inl rfl) (by simp)) (h _ _ (Or.inr rfl) ?_)
  rcases he with rfl | ⟨cur, rfl, -⟩ <;> simp

theorem phase4_eq (h : look t ["finishing"] = some (.symlink fin)) :
    backupPhase4Server c conf pid t = shuffleInto c conf pid fin (realCurrent t) t := by
  unfold backupPhase4Server lstat
  rw [Prog.read_bind, Prog.read_bind, h]

/-- Renaming `finishing` makes the backup the current one. -/
theorem promote_current (he : Previous fin e) (h : Links fin e t) :
    look ((rename ["finishing"] ["current"]).final t) ["current"] = some (.symlink fin) := by
  have hcur : look t ["current"] = none ∨ ∃ s', look t ["current"] = some (.symlink s') := by
    rcases he with rfl | ⟨cur, rfl, -⟩
    · exact Or.inl h.2
    · exact Or.inr ⟨cur, h.2⟩
  have hroot : IsDir t [] := isDir_of_look_append (q := ["finishing"]) (by simp)
    (by rw [List.nil_append, h.1]; simp)
  obtain ⟨es, hes⟩ := isDir_iff.mp hroot
  simp only [Node.get_nil, Option.some.injEq] at hes
  subst hes
  change look (renameAt _ _ _).1 _ = _
  rw [rename_symlink (by decide) h.1 hcur]
  simp [Node.put, look, find_set, Node.entry]

/-- What the programs of phase 4 work on lies apart from the links. -/
theorem apart_links (hfin : fin ≠ "finishing" ∧ fin ≠ "current") (he : Previous fin e)
    (h : Links fin e t) {x : String} (hx : x = "finishing" ∨ x = "current") :
    Apart x [fin] ∧ (realCurrent t ≠ "" → Apart x [realCurrent t]) ∧ Apart x ["deleteme"] := by
  refine ⟨?_, fun h0 => ?_, ?_⟩
  · rcases hx with rfl | rfl
    · exact Apart.cons hfin.1 _
    · exact Apart.cons hfin.2 _
  · rcases he with rfl | ⟨cur, rfl, hlen, -, hcur, hfinish, -⟩
    · exact absurd (by unfold realCurrent; rw [h.2]) h0
    · rw [realCurrent_eq h.2 hlen]
      rcases hx with rfl | rfl
      · exact Apart.cons hfinish _
      · exact Apart.cons hcur _
  · rcases hx with rfl | rfl <;> exact Apart.cons (by decide) _

/-- **A call** that fails leaves both links alone, and one that returns 0 moves
`finishing` to `current`. -/
theorem phase4_links (hfin : fin ≠ "finishing" ∧ fin ≠ "current") (he : Previous fin e)
    (h : Links fin e t) :
    ((backupPhase4Server c conf pid).result t = false →
        Links fin e ((backupPhase4Server c conf pid).final t))
      ∧ ((backupPhase4Server c conf pid).result t = true →
        look ((backupPhase4Server c conf pid).final t) ["current"] = some (.symlink fin)) := by
  have hapart := fun x hx => apart_links (x := x) hfin he h hx
  have hlog : Keeps (Links fin e) (openAppend [fin, "log"]) :=
    keeps_links he fun x e hx he => Keeps.op fun u hu =>
      ((local_entry he).openFile false _ u ((hapart x hx).1.append ["log"]) hu).1
  have hshuffle : Keeps (Links fin e) (shuffleOrRename c conf fin (realCurrent t)) :=
    keeps_links he fun x e hx he => keeps_shuffleOrRename (local_entry he) (linkable_entry e)
      (hapart x hx).1 (hapart x hx).2.1 (hapart x hx).2.2
  have hreplace : Keeps (Links fin e) (replaceCurrent fin (realCurrent t)) :=
    keeps_links he fun x e hx he => keeps_replaceCurrent (local_entry he)
      (hapart x hx).1 (hapart x hx).2.1 (hapart x hx).2.2
  have hcompress : Keeps (fun u => look u ["current"] = some (.symlink fin))
      (compressFilename c conf pid fin "log" "log.gz") :=
    keeps_compressFilename (local_entry (by simp)) (hapart _ (Or.inr rfl)).1
  rw [Prog.result_congr (phase4_eq h.1), Prog.final_congr (phase4_eq h.1)]
  unfold shuffleInto
  rw [Prog.result_bind, Prog.final_bind]
  have h1 := hlog.final h
  generalize (openAppend [fin, "log"]).result t = opened
  generalize (openAppend [fin, "log"]).final t = t1 at h1
  cases opened with
  | none => exact ⟨fun _ => h1, fun hr => by simp at hr⟩
  | some i =>
      simp only
      rw [Prog.result_bind, Prog.final_bind]
      have h2 := hshuffle.final h1
      generalize (shuffleOrRename c conf fin (realCurrent t)).final t1 = t2 at h2
      cases (shuffleOrRename c conf fin (realCurrent t)).result t1 with
      | false => exact ⟨fun _ => h2, fun hr => by simp at hr⟩
      | true =>
          simp only [if_true, Prog.result_bind, Prog.final_bind, Prog.result_pure,
            Prog.final_pure]
          have h3 := promote_current he (hreplace.final h2)
          exact ⟨fun hr => by simp at hr, fun _ => hcompress.final h3⟩

/-- The first call that returns 0 moves `finishing` to `current`. -/
theorem returns_current (hfin : fin ≠ "finishing" ∧ fin ≠ "current") (he : Previous fin e)
    {u : Node} (h : Links fin e t) (hu : Returns (backupPhase4Server c conf pid) t u) :
    look u ["current"] = some (.symlink fin) := by
  induction hu with
  | done hres => exact (phase4_links hfin he h).2 hres
  | again hres _ ih => exact ih ((phase4_links hfin he h).1 hres)

/-! ## §5. The last rename. -/

/-- The directory that phase 4 renames last is gone: `data.tmp` of a first backup, or the
previous backup. -/
structure Stuck (fin : String) (e : Option Entry) (t : Node) : Prop where
  links : Links fin e t
  gone : e = none ∧ look t [fin, "data.tmp"] = none
    ∨ ∃ cur, e = some (.symlink cur) ∧ look t [cur] = none

/-- Opening the log changes nothing else. -/
theorem openAppend_look {p q : Path} (hqp : q ≠ p) :
    look ((openAppend p).final t) q = look t q := by
  change look (openAt false p t).1 q = _
  unfold openAt
  split
  · rfl
  next hnone =>
    split_ifs with hdir
    · have hleaf : Leaf (t.get p) := by rw [get_of_look_none hnone]; exact Leaf.none
      rw [look_put (ne_nil_of_look_none hnone) hdir hleaf (Leaf.file _ _), if_neg hqp]
    · rfl
  · rfl

/-- Opening the log of a stuck backup. -/
theorem Stuck.openLog (h : Stuck fin e t) : Stuck fin e ((openAppend [fin, "log"]).final t) where
  links := by
    refine ⟨?_, ?_⟩
    · rw [openAppend_look (by simp), h.links.1]
    · rw [openAppend_look (by simp), h.links.2]
  gone := by
    rcases h.gone with ⟨hnone, hgone⟩ | ⟨cur, hcur, hgone⟩
    · exact Or.inl ⟨hnone, by rw [openAppend_look (by simp), hgone]⟩
    · exact Or.inr ⟨cur, hcur, by rw [openAppend_look (by simp), hgone]⟩

theorem shuffleOrRename_first {real : String} (h : look t ["current"] = none) :
    shuffleOrRename c conf fin real t = rename [fin, "data.tmp"] [fin, "data"] t := by
  unfold shuffleOrRename lstat
  rw [Prog.read_bind, h]

theorem shuffleOrRename_next {real : String} {target : Entry}
    (h : look t ["current"] = some target) :
    shuffleOrRename c conf fin real t
      = (shufflePrevious c conf fin >>= fun ok =>
          if ok = true then rename (fullRealCurrent real) ["deleteme"] else pure false) t := by
  unfold shuffleOrRename lstat
  rw [Prog.read_bind, h]

/-- The directory that a stuck branch has to rename is not there. -/
theorem Stuck.shuffle (hfin : fin ≠ "finishing" ∧ fin ≠ "current") (he : Previous fin e)
    (h : Stuck fin e t) {real : String} (hreal : ∀ cur, e = some (.symlink cur) → real = cur) :
    (shuffleOrRename c conf fin real).result t = false
      ∧ Stuck fin e ((shuffleOrRename c conf fin real).final t) := by
  rcases h.gone with ⟨rfl, hgone⟩ | ⟨cur, rfl, hgone⟩
  · rw [Prog.result_congr (shuffleOrRename_first h.links.2),
      Prog.final_congr (shuffleOrRename_first h.links.2)]
    obtain ⟨hres, hfinal⟩ := rename_absent (q := [fin, "data"]) hgone
    exact ⟨hres, by rw [hfinal]; exact h⟩
  · have hcur : cur ≠ "" ∧ cur ≠ fin := by
      rcases he with hnone | ⟨cur', heq, -, h0, -, -, hne⟩
      · simp at hnone
      · simp only [Option.some.injEq, Entry.symlink.injEq] at heq
        exact heq ▸ ⟨h0, hne⟩
    have hkeeps : Keeps (fun u => Links fin (some (.symlink cur)) u ∧ look u [cur] = none)
        (shufflePrevious c conf fin) := by
      refine Keeps.and (keeps_links he fun x e hx he => ?_) ?_
      · exact keeps_shufflePrevious (local_entry he) (linkable_entry e)
          (apart_links hfin (by assumption) h.links hx).1
      · exact keeps_shufflePrevious (local_entry (by simp)) (linkable_entry none)
          (Apart.cons (Ne.symm hcur.2) _)
    have hpath : fullRealCurrent real = [cur] := by
      rw [hreal cur rfl, fullRealCurrent, if_neg hcur.1]
    have h1 := hkeeps.final ⟨h.links, hgone⟩
    rw [Prog.result_congr (shuffleOrRename_next h.links.2),
      Prog.final_congr (shuffleOrRename_next h.links.2), Prog.result_bind, Prog.final_bind]
    generalize (shufflePrevious c conf fin).final t = t1 at h1
    cases (shufflePrevious c conf fin).result t with
    | false => exact ⟨rfl, h1.1, Or.inr ⟨cur, rfl, h1.2⟩⟩
    | true =>
        simp only [if_true, hpath]
        obtain ⟨hres, hfinal⟩ := rename_absent (q := ["deleteme"]) h1.2
        exact ⟨hres, by rw [hfinal]; exact ⟨h1.1, Or.inr ⟨cur, rfl, h1.2⟩⟩⟩

/-- **Where that directory has gone, no call returns 0**, and none brings it back. -/
theorem stuck_fails (hfin : fin ≠ "finishing" ∧ fin ≠ "current") (he : Previous fin e)
    (h : Stuck fin e t) :
    (backupPhase4Server c conf pid).result t = false
      ∧ Stuck fin e ((backupPhase4Server c conf pid).final t) := by
  have hreal : ∀ cur, e = some (.symlink cur) → realCurrent t = cur := by
    intro cur hcur
    rcases he with hnone | ⟨cur', heq, hlen, -⟩
    · rw [hnone] at hcur
      simp at hcur
    · obtain rfl : cur' = cur := by simpa using heq.symm.trans hcur
      exact realCurrent_eq (h.links.2.trans hcur) hlen
  rw [Prog.result_congr (phase4_eq h.links.1), Prog.final_congr (phase4_eq h.links.1)]
  unfold shuffleInto
  rw [Prog.result_bind, Prog.final_bind]
  have h1 := h.openLog
  generalize (openAppend [fin, "log"]).final t = t1 at h1
  cases (openAppend [fin, "log"]).result t with
  | none => exact ⟨rfl, h1⟩
  | some i =>
      have h2 : (shuffleOrRename c conf fin (realCurrent t)).result t1 = false
          ∧ Stuck fin e ((shuffleOrRename c conf fin (realCurrent t)).final t1) :=
        h1.shuffle hfin he hreal
      obtain ⟨hres, h2⟩ := h2
      simp only
      rw [Prog.result_bind, Prog.final_bind, hres]
      exact ⟨rfl, h2⟩

theorem not_returns (hfin : fin ≠ "finishing" ∧ fin ≠ "current") (he : Previous fin e) {u : Node}
    (h : Stuck fin e t) : ¬ Returns (backupPhase4Server c conf pid) t u := by
  intro hu
  induction hu with
  | done hres => rw [(stuck_fails hfin he h).1] at hres; simp at hres
  | again _ _ ih => exact ih (stuck_fails hfin he h).2

/-- The rename of `data.tmp` leaves nothing there. -/
theorem rename_datadirtmp (hdir : IsDir t [fin, "data.tmp"])
    (hres : (rename [fin, "data.tmp"] [fin, "data"]).result t = true) :
    look ((rename [fin, "data.tmp"] [fin, "data"]).final t) [fin, "data.tmp"] = none := by
  obtain ⟨gs, hget, hmoved⟩ := rename_dir (by simp) hdir hres
  change look (renameAt _ _ _).1 _ = none
  rw [hmoved]
  cases t with
  | file i d => simp [Node.get] at hget
  | symlink s => simp [Node.get] at hget
  | dir es =>
      obtain ⟨n, hn, hnget⟩ := Option.bind_eq_some_iff.mp hget
      cases n with
      | file i d => simp [Node.get] at hnget
      | symlink s => simp [Node.get] at hnget
      | dir fs => simp [Node.put, hn, find_set, look]

/-- The rename of the previous backup leaves nothing there. -/
theorem rename_previous {cur : String} (hcur : cur ≠ "deleteme") (hdir : IsDir t [cur])
    (hres : (rename [cur] ["deleteme"]).result t = true) :
    look ((rename [cur] ["deleteme"]).final t) [cur] = none := by
  obtain ⟨gs, hget, hmoved⟩ := rename_dir (by simpa using hcur) hdir hres
  change look (renameAt _ _ _).1 _ = none
  rw [hmoved]
  cases t with
  | file i d => simp [Node.get] at hget
  | symlink s => simp [Node.get] at hget
  | dir es => simp [Node.put, find_set, look, hcur]

/-- Every run that returns 0 passes through a state in which that directory has gone. -/
theorem Received.stuck (h : Received s fin)
    (hres : (backupPhase4Server c conf pid).result s = true) :
    ∃ t ∈ (backupPhase4Server c conf pid).killed s, Stuck fin (look s ["current"]) t := by
  obtain ⟨he, hlinks⟩ := h.previous_links
  have hfin : fin ≠ "finishing" ∧ fin ≠ "current" := ⟨h.name.1, h.name.2.1⟩
  have heq : backupPhase4Server c conf pid s
      = shuffleInto c conf pid fin (realCurrent s) s := phase4_eq h.finishing
  have hapart := fun x hx => apart_links (x := x) hfin he hlinks hx
  have hshuffle : Keeps (Links fin (look s ["current"]))
      (shuffleOrRename c conf fin (realCurrent s)) :=
    keeps_links he fun x e hx he => keeps_shuffleOrRename (local_entry he) (linkable_entry e)
      (hapart x hx).1 (hapart x hx).2.1 (hapart x hx).2.2
  rw [Prog.killed_congr (congrArg Prod.fst heq)]
  rw [Prog.result_congr heq] at hres
  unfold shuffleInto at hres ⊢
  rw [Prog.result_bind] at hres
  obtain ⟨i, hopened⟩ : ∃ i, (openAppend [fin, "log"]).result s = some i := by
    cases hopen : (openAppend [fin, "log"]).result s with
    | none => rw [hopen] at hres; simp at hres
    | some i => exact ⟨i, rfl⟩
  have hlook : ∀ q, q ≠ [fin, "log"] →
      look ((openAppend [fin, "log"]).final s) q = look s q := fun q hq => openAppend_look hq
  rw [hopened, Prog.result_bind] at hres
  have hmoved : (shuffleOrRename c conf fin (realCurrent s)).result
      ((openAppend [fin, "log"]).final s) = true := by
    cases hmoved : (shuffleOrRename c conf fin (realCurrent s)).result
      ((openAppend [fin, "log"]).final s) with
    | false => rw [hmoved] at hres; simp at hres
    | true => rfl
  refine ⟨(shuffleOrRename c conf fin (realCurrent s)).final
    ((openAppend [fin, "log"]).final s), ?_, ?_, ?_⟩
  · refine Prog.mem_killed_bind.mpr (Or.inr ?_)
    rw [hopened]
    exact Prog.mem_killed_bind.mpr (Or.inl (Prog.final_mem_killed _ _))
  · refine hshuffle.final ⟨?_, ?_⟩
    · rw [hlook _ (by simp), h.finishing]
    · rw [hlook _ (by simp)]
  · generalize (openAppend [fin, "log"]).final s = t1 at hlook hmoved
    rcases h.previous with ⟨hnone, hdir⟩ | ⟨cur, hcur, hdir, hlen, h0, hdel, hne⟩
    · have hnone' := (hlook ["current"] (by simp)).trans hnone
      have hdir' : IsDir t1 [fin, "data.tmp"] := (hlook _ (by simp)).trans hdir
      rw [Prog.result_congr (shuffleOrRename_first hnone')] at hmoved
      rw [Prog.final_congr (shuffleOrRename_first hnone')]
      exact Or.inl ⟨hnone, rename_datadirtmp hdir' hmoved⟩
    · have hcur' := (hlook ["current"] (by simp)).trans hcur
      have hdir' : IsDir t1 [cur] := (hlook _ (by simp)).trans hdir
      rw [realCurrent_eq hcur hlen, Prog.result_congr (shuffleOrRename_next hcur'),
        Prog.result_bind] at hmoved
      rw [realCurrent_eq hcur hlen, Prog.final_congr (shuffleOrRename_next hcur'),
        Prog.final_bind]
      have hkeeps : Keeps (fun u => look u [cur] = some .dir) (shufflePrevious c conf fin) :=
        keeps_shufflePrevious (local_entry (by simp)) (linkable_entry _)
          (Apart.cons (Ne.symm hne) _)
      have hdir2 := hkeeps.final hdir'
      generalize (shufflePrevious c conf fin).final t1 = t2 at hdir2 hmoved
      cases hshuffled : (shufflePrevious c conf fin).result t1 with
      | false => rw [hshuffled] at hmoved; simp at hmoved
      | true =>
          rw [hshuffled] at hmoved
          simp only [if_true, fullRealCurrent, if_neg h0] at hmoved ⊢
          exact Or.inr ⟨cur, hcur, rename_previous hdel hdir2 hmoved⟩

/-- **Phase 4 cannot be restarted from every point**, in whatever store it has started: killed
right after the rename of `data.tmp`, or right after the rename of the previous backup to
`deleteme`, it is stuck. -/
theorem phase4_not_restartable (c : Codec) (conf : Conf) (pid fin : String) (s : Node)
    (h : Received s fin) : ¬ Restartable c conf pid fin s := by
  intro hrestart
  obtain ⟨he, hlinks⟩ := h.previous_links
  have hfin : fin ≠ "finishing" ∧ fin ≠ "current" := ⟨h.name.1, h.name.2.1⟩
  cases hres : (backupPhase4Server c conf pid).result s with
  | true =>
      obtain ⟨t, hkill, hstuck⟩ := h.stuck hres
      obtain ⟨u, hu, -⟩ := hrestart t (Relation.ReflTransGen.single hkill)
        (by rw [hstuck.links.1]; simp)
      exact not_returns hfin he hstuck hu
  | false =>
      -- the uninterrupted run leaves `current` alone, a run that returns 0 does not
      obtain ⟨u, hu, hsame⟩ := hrestart s Relation.ReflTransGen.refl (by rw [hlinks.1]; simp)
      have hsame := hsame ["current"] (by simp)
      rw [returns_current hfin he hlinks hu, ((phase4_links hfin he hlinks).1 hres).2] at hsame
      rcases he with hnone | ⟨cur, hcur, -, -, -, -, hne⟩
      · rw [hnone] at hsame
        simp at hsame
      · rw [hcur] at hsame
        simp only [Option.map_some, bare, Option.some.injEq, Entry.symlink.injEq] at hsame
        exact hne hsame.symm

end Restart

/-! ## §6. Two stores. -/

/-- A first backup, of nothing. -/
def sampleFirst : Node :=
  .dir [("finishing", .symlink "0000001"),
    ("0000001", .dir [("data.tmp", .dir []), ("manifest.gz", .file 1 [31, 139]),
      ("timestamp", .file 2 [49, 10])])]

theorem sampleFirst_received : Received sampleFirst "0000001" where
  finishing := rfl
  name := by decide
  previous := Or.inl ⟨rfl, rfl⟩

/-- The theorem for that backup. -/
theorem phase4_not_restartable_first :
    ¬ Restartable sampleCodec {} "77" "0000001" sampleFirst :=
  phase4_not_restartable sampleCodec {} "77" "0000001" sampleFirst sampleFirst_received

/-- A second backup, in which the only file of the first one has been deleted. -/
def sampleSecond : Node :=
  .dir [("current", .symlink "0000001"), ("finishing", .symlink "0000002"),
    ("0000001", .dir [("data", .dir [("f", .file 1 [7])]), ("manifest.gz", .file 2 [31, 139]),
      ("timestamp", .file 3 [49, 10])]),
    ("0000002", .dir [("data.tmp", .dir []), ("manifest.gz", .file 4 [31, 139]),
      ("timestamp", .file 5 [50, 10])])]

theorem sampleSecond_received : Received sampleSecond "0000002" where
  finishing := rfl
  name := by decide
  previous := Or.inr ⟨"0000001", rfl, rfl, by decide, by decide, by decide, by decide⟩

/-- An uninterrupted run on it returns 0, but one that is killed right after the rename of
`0000001` to `deleteme` cannot be finished. -/
theorem sampleSecond_stuck :
    (backupPhase4Server sampleCodec {} "77").result sampleSecond = true
      ∧ ¬ Restartable sampleCodec {} "77" "0000002" sampleSecond := by
  have hres : (backupPhase4Server sampleCodec {} "77").result sampleSecond = true := by
    rfl
  refine ⟨hres, fun hrestart => ?_⟩
  obtain ⟨he, -⟩ := sampleSecond_received.previous_links
  obtain ⟨t, hkill, hstuck⟩ := sampleSecond_received.stuck hres
  obtain ⟨u, hu, -⟩ := hrestart t (Relation.ReflTransGen.single hkill)
    (by rw [hstuck.links.1]; simp)
  exact not_returns (by decide) he hstuck hu

end Burp.Shuffle
