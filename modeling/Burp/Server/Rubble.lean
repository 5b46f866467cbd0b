/-
  Burp.Server.Rubble — a backup that is interrupted, and the next one (server.c).

  `do_backup_server` makes a link `working` to a new directory, then the directory, and fills
  it in the first three phases; then it renames the link to `finishing`.  If it is killed before
  that, or stops with an error, `check_for_rubble` finds the link when the client comes again.
  With the method "delete" it deletes the directory and then the link.

  Main results:
    * `interrupted_leaves_nothing` — afterwards everything is as it was before the backup,
      wherever the backup and any number of attempts to delete it have been killed.
    * `unfinished_scan_is_deleted` — for any method, if phase 1 has not completed.
    * `other_backups_untouched` — the backup itself changes none of the others.
    * `use_before_phase1_stuck` — with the method "use", a backup that is killed before phase 1
      begins is in the way of all others.
-/
import Burp.FileSystem.Fresh
import Burp.Phase1.Server
import Burp.Server.Interrupted
import Burp.Shuffle.Phase4

namespace Burp.Server

open Crash FileSystem Burp.Store Burp.Phase2 Burp.Phase3

/-! ## §1. The backup. -/

/-- What phase 2 does with its files. -/
inductive Call where
  | mkdir (p : Path)
  | unlink (p : Path)
  | rename (o q : Path)
  /-- Open a file from its start, or at its end, and write. -/
  | write (p : Path) (pieces : List Bytes)
  | extend (p : Path) (pieces : List Bytes)

def Call.prog : Call → Prog Node Bool
  | .mkdir p => FileSystem.mkdir p
  | .unlink p => FileSystem.unlink p
  | .rename o q => FileSystem.rename o q
  | .write p pieces => writeFile p pieces
  | .extend p pieces => do
      match ← openAppend p with
      | none => pure false
      | some i =>
          appendAll i pieces
          pure true

/-- `backup_phase2_server`, as far as its files are concerned: any calls, and whether it
returns 0. -/
structure Phase2Run where
  calls : List Call
  ok : Bool

def Phase2Run.prog (r : Phase2Run) : Prog Node Bool := do
  Prog.forEach r.calls fun call => do
    let _ ← call.prog
    pure ()
  pure r.ok

/-- What a backup is made of. -/
structure Received where
  /-- The name of the new directory, from `get_new_timestamp`. -/
  tstmp : String
  /-- The include/exclude text of the client. -/
  incexc : Bytes
  /-- The messages of phase 1. -/
  msgs : List Phase1.Message
  phase2 : Phase2Run

/-- The files of a new backup, before phase 1. -/
def setUp (c : Codec) (b : Received) : Prog Node Bool := do
  match ← openAppend [b.tstmp, "log"] with
  | none => pure false
  | some _ =>
      if ← mkdir [b.tstmp, "data.tmp"] then
        if ← writeFile [b.tstmp, "timestamp"] (c.pieces (nameBytes b.tstmp ++ [10])) then
          if cString b.incexc = [] then pure true
          else writeFile [b.tstmp, "incexc"] (c.pieces (cString b.incexc))
        else pure false
      else pure false

/-- The three phases with the client. -/
def receivePhases (c : Codec) (conf : Conf) (b : Received) : Prog Node Bool := do
  if ← setUp c b then
    if ← Phase1.phase1In c conf.compression [b.tstmp] true true b.msgs then
      if ← b.phase2.prog then phase3In c conf.compression [b.tstmp] false true
      else pure false
    else pure false
  else pure false

/-- `do_backup_server` for a new backup, up to the rename that says that everything has been
received.  The lines of the log are left out. -/
def receiveBackup (c : Codec) (conf : Conf) (b : Received) : Prog Node Bool := do
  -- before the directory, because of bedup
  if ← symlink b.tstmp ["working"] then
    if ← mkdir [b.tstmp] then
      if ← receivePhases c conf b then rename ["working"] ["finishing"]
      else pure false
    else
      let _ ← unlink ["working"]
      pure false
  else pure false

/-! ## §2. The rubble. -/

/-- What `check_for_rubble` finds once the log in `realwork` is open. -/
def rubbleIn (realwork : String) (t : Node) : Rubble where
  finishing := false
  working := some true
  realwork := true
  logOpens := true
  phase1datatmp := decide (look t [realwork, "phase1.gz.tmp"] ≠ none)
  incexc := Backups.OnDisk.regular t [realwork, "incexc"]

/-- `check_for_rubble`: a return value of 0, and `*resume`. -/
def checkForRubbleIn (c : Codec) (conf : Conf) (pid : String) (wdrm incexc : Bytes) :
    Prog Node (Bool × Bool) := do
  match ← lstat ["finishing"] with
  | some _ =>
      let ok ← Shuffle.backupPhase4Server c conf pid
      pure (ok, false)
  | none =>
      match ← lstat ["working"] with
      | none => pure (true, false)
      | some (.symlink target) =>
          -- the buffer of `readlink`
          let realwork := String.ofList (target.toList.take 255)
          match ← lstat [realwork] with
          | none =>
              let _ ← unlink ["working"]
              pure (true, false)
          | some _ =>
              match ← openAppend [realwork, "log"] with
              | none => pure (false, false)
              | some _ =>
                  match checkForRubble (← Prog.read (rubbleIn realwork)) wdrm incexc with
                  | .deleteWorking =>
                      if (← recursiveDeleteAt [realwork] true) = .ok then
                        let _ ← unlink ["working"]
                        pure (true, false)
                      else pure (false, false)
                  | .resume => pure (true, true)
                  | .useAsItIs =>
                      if ← maybeRebuildManifest c conf.compression [realwork, "phase2"]
                          [realwork, "unchanged"] [realwork, "manifest.gz"] true then
                        if ← rename ["working"] ["finishing"] then
                          -- it calls itself, and there is a `finishing` now
                          let ok ← Shuffle.backupPhase4Server c conf pid
                          pure (ok, false)
                        else pure (false, false)
                      else pure (false, false)
                  | _ => pure (false, false)
      | some _ => pure (false, false)

/-! ## §3. What is written where. -/

/-- Below the new directory, but not the log. -/
def InBackup (x : String) (p : Path) : Prop := ∃ y r, p = x :: y :: r ∧ y ≠ "log"

/-- A call on files of the backup. -/
def Call.In (x : String) : Call → Prop
  | .mkdir p => InBackup x p
  | .unlink p => InBackup x p
  | .rename o q => InBackup x o ∧ InBackup x q
  | .write p _ => InBackup x p
  | .extend p _ => InBackup x p

/-- The log is a file, if it is there. -/
def LogFile (x : String) (t : Node) : Prop :=
  look t [x, "log"] = none ∨ ∃ i d, look t [x, "log"] = some (.file i d)

section Confined

variable {inside : Path → Prop} {mine : Nat → Prop} {I : Node → Prop}
  (h : Local inside mine I) {c : Codec} {level : Nat}

include h

theorem keeps_backupPhase1Server {p : Path} {replies closes : Bool} {msgs : List Phase1.Message}
    (hp : inside p) (htmp : inside (getTmpFilename p)) :
    Keeps I (Phase1.backupPhase1Server c level p replies closes msgs) := by
  unfold Phase1.backupPhase1Server
  refine h.keeps_openWrite htmp (Keeps.pure _) fun i hi => ?_
  refine Keeps.bind (h.keeps_appendAll hi _) fun _ => ?_
  exact Keeps.ite (h.keeps_rename htmp hp) (Keeps.pure _)

theorem keeps_backupPhase3Server {phase2data unchangeddata manifest : Path}
    {recovery compress : Bool} (h2 : inside phase2data) (hu : inside unchangeddata)
    (hm : inside manifest) (htmp : inside (getTmpFilename manifest)) :
    Keeps I (backupPhase3Server c level phase2data unchangeddata manifest recovery compress) := by
  unfold backupPhase3Server
  refine Keeps.bind (Keeps.read _) fun unchanged => ?_
  cases unchanged with
  | none => exact Keeps.pure _
  | some unchanged =>
      refine Keeps.bind (Keeps.read _) fun phase2 => ?_
      cases phase2 with
      | none => exact Keeps.pure _
      | some phase2 =>
          refine h.keeps_openWrite htmp (Keeps.pure _) fun i hi => ?_
          refine Keeps.bind (h.keeps_appendAll hi _) fun _ => ?_
          refine Keeps.ite ?_ (Keeps.pure _)
          refine Keeps.test (h.keeps_rename htmp hm) ?_ (Keeps.pure _)
          exact Keeps.bind (h.keeps_unlink h2) fun _ =>
            Keeps.bind (h.keeps_unlink hu) fun _ => Keeps.pure _

theorem keeps_call {x : String} (hx : ∀ p, InBackup x p → inside p) {call : Call}
    (hcall : call.In x) : Keeps I call.prog := by
  cases call with
  | mkdir p => exact h.keeps_mkdir (hx p hcall)
  | unlink p => exact h.keeps_unlink (hx p hcall)
  | rename o q => exact h.keeps_rename (hx o hcall.1) (hx q hcall.2)
  | write p pieces => exact h.keeps_writeFile (hx p hcall) pieces
  | extend p pieces =>
      refine h.keeps_openAppend (hx p hcall) (Keeps.pure _) fun i hi => ?_
      exact Keeps.bind (h.keeps_appendAll hi pieces) fun _ => Keeps.pure _

end Confined

section Log

variable {x : String} {t : Node}

/-- Nothing else is at the path of the log. -/
theorem look_put_log {p : Path} (hp : InBackup x p) (o : Option Node) (t : Node) :
    look (t.put p o) [x, "log"] = look t [x, "log"] := by
  obtain ⟨y, r, rfl, hy⟩ := hp
  cases t with
  | file i d => rfl
  | symlink s => rfl
  | dir es =>
      unfold Node.put
      cases hfind : find es x with
      | none => rfl
      | some n =>
          have hget : (n.put (y :: r) o).get ["log"] = n.get ["log"] :=
            get_put_apart (Apart.cons hy r) o n
          simp [look, find_set, hfind, hget]

theorem logFile_onInode {i : Nat} {f : Bytes → Bytes} (h : LogFile x t) :
    LogFile x (onInode i f t) := by
  unfold LogFile
  rw [look_onInode]
  rcases h with h | ⟨j, d, h⟩
  · exact Or.inl (by rw [h]; rfl)
  · exact Or.inr ⟨_, _, by rw [h]; rfl⟩

theorem local_log (x : String) : Local (InBackup x) (fun _ => True) (LogFile x) where
  below := by
    intro p q ⟨y, r, hp, hy⟩
    exact ⟨y, r ++ q, by rw [hp]; rfl, hy⟩
  mkdir := by
    intro p t hp ht
    unfold mkdirAt LogFile
    split_ifs
    · rwa [look_put_log hp]
    · exact ht
  unlink := by
    intro p t hp ht
    unfold unlinkAt LogFile
    split
    · rwa [look_put_log hp]
    · rwa [look_put_log hp]
    · exact ht
  rmdir := by
    intro p t hp ht
    unfold rmdirAt LogFile
    split
    · rwa [look_put_log hp]
    · exact ht
  rename := by
    intro o q t ho hq ht
    unfold LogFile
    rcases renameAt_cases o q t with hsame | ⟨n, -, hmove⟩
    · rwa [hsame]
    · rwa [hmove, look_put_log hq, look_put_log ho]
  openFile := by
    intro b p t hp ht
    refine ⟨?_, fun _ _ => trivial⟩
    unfold openAt
    split
    · split_ifs
      · exact logFile_onInode ht
      · exact ht
    · split_ifs
      · unfold LogFile
        rwa [look_put_log hp]
      · exact ht
    · exact ht
  write := fun _ _ _ _ ht => logFile_onInode ht

end Log

/-! ## §4. While the directory is deleted. -/

/-- What survives the calls of a deletion. -/
structure Shrinks (inside : Path → Prop) (I : Node → Prop) : Prop where
  below : ∀ p x, inside p → inside (p ++ [x])
  unlink : ∀ p t, inside p → I t → I (unlinkAt p t).1
  rmdir : ∀ p t, inside p → I t → I (rmdirAt p t).1

section Deletion

variable {inside : Path → Prop} {I : Node → Prop} (h : Shrinks inside I)

include h

mutual

theorem Shrinks.keeps_recursiveDelete :
    ∀ (n : Node) {d : Path}, inside d → Keeps I (recursiveDelete true d n)
  | .file _ _, _, _ => Keeps.pure _
  | .symlink _, _, _ => Keeps.pure _
  | .dir es, d, hd => by
      unfold recursiveDelete
      refine Keeps.bind (Shrinks.keeps_deleteEntries es hd) fun (walk, ret) => ?_
      refine Keeps.ite ?_ (Keeps.pure _)
      exact Keeps.test (Keeps.op fun t ht => h.rmdir d t hd ht) (Keeps.pure _) (Keeps.pure _)

theorem Shrinks.keeps_deleteEntries :
    ∀ (es : List (String × Node)) {d : Path}, inside d → Keeps I (deleteEntries true d es)
  | [], _, _ => Keeps.pure _
  | (x, n) :: es, d, hd => by
      unfold deleteEntries
      refine Keeps.bind (Shrinks.keeps_deleteEntries es hd) fun r => ?_
      have hunlink : Keeps I (FileSystem.unlink (d ++ [x])) :=
        Keeps.op fun t ht => h.unlink _ t (h.below d x hd) ht
      obtain ⟨walk, ret⟩ := r
      cases walk with
      | some k => exact Keeps.pure _
      | none =>
          cases n with
          | file i b => exact Keeps.test hunlink (Keeps.pure _) (Keeps.pure _)
          | symlink s => exact Keeps.test hunlink (Keeps.pure _) (Keeps.pure _)
          | dir fs =>
              refine Keeps.bind (Shrinks.keeps_recursiveDelete (.dir fs) (h.below d x hd))
                fun r => ?_
              cases r <;> exact Keeps.pure _

end

end Deletion

/-- What is left of the backup: the link alone, or the directory as well. -/
def Left (x : String) (ws : Entries) (t : Node) : Prop :=
  t = .dir ws ∨ Fresh x ws t ∧ LogFile x t

section Left

variable {x : String} {ws : Entries} {t : Node}

/-- Removing what is below the directory. -/
theorem fresh_put_none (h : Fresh x ws t ∧ LogFile x t) {y : String} {r : Path}
    (hget : t.get (x :: y :: r) ≠ none) :
    Fresh x ws (t.put (x :: y :: r) none) ∧ LogFile x (t.put (x :: y :: r) none) := by
  refine ⟨h.1.put ⟨y, r, rfl⟩ (by simp), ?_⟩
  by_cases hy : y = "log"
  · subst hy
    obtain ⟨fs, rfl, -⟩ := h.1
    cases r with
    | nil => exact Or.inl (by simp [look, Node.put, find_set])
    | cons z r =>
        -- there is nothing below a file
        rcases h.2 with hlog | ⟨i, d, hlog⟩
        · have hnone := get_of_look_none hlog
          rw [show x :: "log" :: z :: r = [x, "log"] ++ z :: r from rfl, Node.get_append, hnone]
            at hget
          exact absurd rfl hget
        · have hfile := get_of_look_file hlog
          rw [show x :: "log" :: z :: r = [x, "log"] ++ z :: r from rfl, Node.get_append, hfile]
            at hget
          exact absurd rfl hget
  · unfold LogFile
    rw [look_put_log ⟨y, r, rfl, hy⟩]
    exact h.2

/-- **A deletion of the directory** leaves the link, and nothing else but the directory. -/
theorem shrinks_left (hx : find ws x = none) : Shrinks (fun p => ∃ r, p = x :: r) (Left x ws) where
  below := by
    intro p y ⟨r, hp⟩
    exact ⟨r ++ [y], by rw [hp]; rfl⟩
  unlink := by
    intro p t ⟨r, hp⟩ ht
    subst hp
    unfold unlinkAt
    rcases ht with rfl | ht
    · have hnone : look (.dir ws) (x :: r) = none := by simp [look, hx]
      rw [hnone]
      exact Or.inl rfl
    · cases r with
      | nil =>
          obtain ⟨fs, hfs⟩ := ht.1.get
          have hdir : look t [x] = some .dir := by rw [look, hfs]; rfl
          rw [hdir]
          exact Or.inr ht
      | cons y r =>
          have hput : look t (x :: y :: r) ≠ none → Left x ws (t.put (x :: y :: r) none) :=
            fun hne => Or.inr (fresh_put_none ht fun hget => hne (by rw [look, hget]; rfl))
          split
          next hl => exact hput (by rw [hl]; simp)
          next hl => exact hput (by rw [hl]; simp)
          next => exact Or.inr ht
  rmdir := by
    intro p t ⟨r, hp⟩ ht
    subst hp
    unfold rmdirAt
    rcases ht with rfl | ht
    · have hnone : (Node.dir ws).get (x :: r) = none := by simp [hx]
      rw [hnone]
      exact Or.inl rfl
    · split
      next hget =>
        cases r with
        | nil => exact Or.inl (ht.1.remove hx)
        | cons y r => exact Or.inr (fresh_put_none ht (by rw [hget]; simp))
      next => exact Or.inr ht

/-- The deletion, run to its end. -/
theorem delete_spec (hx : find ws x = none) (h : Fresh x ws t ∧ LogFile x t) :
    Spec (recursiveDeleteAt [x] true) t (Left x ws) fun r u => r = .ok ∧ u = .dir ws := by
  obtain ⟨fs, hget⟩ := h.1.get
  obtain ⟨gs, hgs, hwf, -⟩ := h.1
  have hsame : gs = fs := by
    rw [hgs] at hget
    simpa [Node.put, find_set] using hget
  subst hsame
  have hroot : IsDir t ([x] : Path).dropLast := by
    rw [hgs]
    rfl
  have heq := recursiveDeleteAt_dir true hget
  obtain ⟨hres, hfinal⟩ := recursiveDelete_spec (.dir gs) rfl hwf (by simp) hroot hget
  constructor
  · rw [Prog.killed_congr (congrArg Prod.fst heq)]
    exact (shrinks_left hx).keeps_recursiveDelete _ ⟨[], rfl⟩ t (Or.inr h)
  · rw [Prog.result_congr heq, Prog.final_congr heq, hres, hfinal]
    exact ⟨rfl, h.1.remove hx⟩

end Left

/-! ## §5. The backup is killed. -/

/-- A name for the new directory, where no other backup is in progress. -/
structure NewName (es : Entries) (x : String) : Prop where
  absent : find es x = none
  working : find es "working" = none
  finishing : find es "finishing" = none
  ne : x ≠ "working" ∧ x ≠ "finishing"
  short : x.length ≤ 255

/-- The entries with the link. -/
def linked (es : Entries) (x : String) : Entries := set es "working" (some (.symlink x))

/-- What an interrupted backup can leave. -/
def Interrupted (es : Entries) (x : String) (t : Node) : Prop :=
  t = .dir es ∨ Left x (linked es x) t

section Receive

variable {es : Entries} {x : String} {t : Node}

theorem NewName.absent_linked (h : NewName es x) : find (linked es x) x = none := by
  rw [linked, find_set, if_neg h.ne.1]
  exact h.absent

/-- The directory while it is filled. -/
def Filling (es : Entries) (x : String) (t : Node) : Prop :=
  Fresh x (linked es x) t ∧ LogFile x t

theorem local_filling (h : NewName es x) :
    Local (InBackup x) (fun i => i ∉ inodesEntries (linked es x) ∧ True) (Filling es x) := by
  refine ((local_fresh h.absent_linked).mono ?_ (local_log x).below).and (local_log x)
  intro p ⟨y, r, hp, _⟩
  exact ⟨y, r, hp⟩

/-- The links while the directory is there. -/
theorem Filling.look (hn : NewName es x) (h : Filling es x t) :
    look t ["finishing"] = none ∧ look t ["working"] = some (.symlink x) ∧ look t [x] = some .dir := by
  refine ⟨?_, ?_, ?_⟩
  · rw [h.1.look (Apart.cons (Ne.symm hn.ne.2) [])]
    simp [FileSystem.look, linked, find_set, hn.finishing]
  · rw [h.1.look (Apart.cons (Ne.symm hn.ne.1) [])]
    simp [FileSystem.look, linked, find_set, Node.entry]
  · obtain ⟨fs, hfs⟩ := h.1.get
    rw [FileSystem.look, hfs]
    rfl

/-- The log can be opened. -/
theorem Filling.openLog (hn : NewName es x) (h : Filling es x t) :
    Filling es x ((openAppend [x, "log"]).final t)
      ∧ ∃ i, (openAppend [x, "log"]).result t = some i := by
  have hfresh := ((local_fresh hn.absent_linked).openFile false [x, "log"] t ⟨"log", [], rfl⟩
    h.1).1
  have hdir : IsDir t ([x, "log"] : Path).dropLast := (h.look hn).2.2
  change Filling es x (openAt false [x, "log"] t).1 ∧ ∃ i, (openAt false [x, "log"] t).2 = some i
  rcases h.2 with hnone | ⟨i, d, hfile⟩
  · have hopen : openAt false [x, "log"] t
        = (t.put [x, "log"] (some (.file (freshIno t) [])), some (freshIno t)) := by
      unfold openAt
      rw [hnone]
      exact if_pos hdir
    have hleaf : Leaf (t.get [x, "log"]) := by
      rw [get_of_look_none hnone]
      exact Leaf.none
    rw [hopen] at hfresh ⊢
    refine ⟨⟨hfresh, Or.inr ⟨freshIno t, [], ?_⟩⟩, freshIno t, rfl⟩
    rw [look_put (by simp) hdir hleaf (Leaf.file _ _), if_pos rfl]
    rfl
  · have hopen : openAt false [x, "log"] t = (t, some i) := by
      unfold openAt
      rw [hfile]
      rfl
    rw [hopen]
    exact ⟨h, i, rfl⟩

/-- Filling the directory. -/
theorem keeps_receivePhases (c : Codec) (conf : Conf) {b : Received} (hn : NewName es b.tstmp)
    (hcalls : ∀ call ∈ b.phase2.calls, call.In b.tstmp) :
    Keeps (Filling es b.tstmp) (receivePhases c conf b) := by
  have hl := local_filling hn
  have hin : ∀ y, y ≠ "log" → InBackup b.tstmp [b.tstmp, y] := fun y hy => ⟨y, [], rfl, hy⟩
  have hsetup : Keeps (Filling es b.tstmp) (setUp c b) := by
    unfold setUp
    refine Keeps.bind_result (Keeps.op fun t ht => (ht.openLog hn).1) fun t ht => ?_
    obtain ⟨i, hi⟩ := (ht.openLog hn).2
    rw [hi]
    refine Keeps.test (hl.keeps_mkdir (hin _ (by decide))) ?_ (Keeps.pure _)
    refine Keeps.test (hl.keeps_writeFile (hin _ (by decide)) _) ?_ (Keeps.pure _)
    exact Keeps.ite (Keeps.pure _) (hl.keeps_writeFile (hin _ (by decide)) _)
  have hphase1 : Keeps (Filling es b.tstmp)
      (Phase1.phase1In c conf.compression [b.tstmp] true true b.msgs) :=
    keeps_backupPhase1Server hl (hin "phase1.gz" (by decide)) (hin "phase1.gz.tmp" (by decide))
  have hphase2 : Keeps (Filling es b.tstmp) b.phase2.prog := by
    refine Keeps.bind (Keeps.forEach fun call hcall => ?_) fun _ => Keeps.pure _
    exact Keeps.bind (keeps_call hl (fun _ hp => hp) (hcalls call hcall)) fun _ => Keeps.pure _
  have hphase3 : Keeps (Filling es b.tstmp)
      (phase3In c conf.compression [b.tstmp] false true) :=
    keeps_backupPhase3Server hl (hin "phase2" (by decide)) (hin "unchanged" (by decide))
      (hin "manifest.gz" (by decide)) (hin "manifest.gz.tmp" (by decide))
  exact Keeps.test hsetup (Keeps.test hphase1 (Keeps.test hphase2 hphase3 (Keeps.pure _))
    (Keeps.pure _)) (Keeps.pure _)

/-- Apart from what a backup makes. -/
def Elsewhere (x : String) (p : Path) : Prop :=
  Apart x p ∧ Apart "working" p ∧ Apart "finishing" p

/-- The link has been renamed. -/
def Moved (es : Entries) (x : String) (t : Node) : Prop :=
  look t ["finishing"] = some (.symlink x) ∧ ∀ p, Elsewhere x p → look t p = look (.dir es) p

theorem Interrupted.look (h : Interrupted es x t) {p : Path} (hp : Elsewhere x p) :
    look t p = FileSystem.look (.dir es) p := by
  have hlinked : FileSystem.look (.dir (linked es x)) p = FileSystem.look (.dir es) p :=
    look_put_entry (some (.symlink x)) hp.2.1 (.dir es)
  rcases h with rfl | rfl | ⟨hfresh, -⟩
  · rfl
  · exact hlinked
  · rw [hfresh.look hp.1, hlinked]

/-- The rename at the end. -/
theorem Filling.rename (hn : NewName es x) (h : Filling es x t) :
    Moved es x (renameAt ["working"] ["finishing"] t).1 := by
  obtain ⟨hfinishing, hworking, -⟩ := h.look hn
  rw [rename_symlink (by decide) hworking (Or.inl hfinishing)]
  refine ⟨?_, fun p hp => ?_⟩
  · obtain ⟨fs, hfs, -⟩ := h.1
    rw [hfs]
    simp [FileSystem.look, Node.put, find_set, Node.entry]
  · rw [look_put_entry _ hp.2.2, look_put_entry _ hp.2.1]
    exact Interrupted.look (Or.inr (Or.inr h)) hp

/-- The link is made, ... -/
theorem symlink_linked (hn : NewName es x) :
    symlinkAt x ["working"] (.dir es) = (.dir (linked es x), true) := by
  unfold symlinkAt
  rw [if_pos ⟨by simp [FileSystem.look, hn.working], rfl⟩]
  rfl

/-- ... and then the directory. -/
theorem mkdir_linked (hn : NewName es x) :
    mkdirAt [x] (.dir (linked es x))
      = ((Node.dir (linked es x)).put [x] (some (.dir [])), true) := by
  unfold mkdirAt
  rw [if_pos ⟨by simp [FileSystem.look, hn.absent_linked], rfl⟩]

/-- **A backup that is killed** leaves the link and the directory, or has been received. -/
theorem receiveBackup_spec (c : Codec) (conf : Conf) {b : Received} (hn : NewName es b.tstmp)
    (hcalls : ∀ call ∈ b.phase2.calls, call.In b.tstmp) :
    Spec (receiveBackup c conf b) (.dir es)
      (fun u => Interrupted es b.tstmp u ∨ Moved es b.tstmp u) fun _ _ => True := by
  have hlink := symlink_linked hn
  have hmkdir := mkdir_linked hn
  have hempty : Filling es b.tstmp
      ((Node.dir (linked es b.tstmp)).put [b.tstmp] (some (.dir []))) :=
    ⟨fresh_mkdir _ _, Or.inl (by simp [FileSystem.look, Node.put, find_set, find])⟩
  unfold receiveBackup
  refine Spec.bind (Spec.op (Or.inl (Or.inl rfl)) ?_ ?_)
  · rw [hlink]
    exact Or.inl (Or.inr (Or.inl rfl))
  · rw [hlink, if_pos rfl]
    refine Spec.bind (Spec.op (Or.inl (Or.inr (Or.inl rfl))) ?_ ?_)
    · rw [hmkdir]
      exact Or.inl (Or.inr (Or.inr hempty))
    · rw [hmkdir, if_pos rfl]
      have hphases := (keeps_receivePhases c conf hn hcalls).spec hempty
      refine Spec.bind (hphases.mono (fun u hu => Or.inl (Or.inr (Or.inr hu))) ?_)
      intro ok u _ hu
      split_ifs
      · exact Spec.op (Or.inl (Or.inr (Or.inr hu))) (Or.inr (hu.rename hn)) trivial
      · exact Spec.pure (Or.inl (Or.inr (Or.inr hu))) trivial

end Receive

/-! ## §6. The next backup. -/

section Recover

variable {es : Entries} {x : String} {t : Node} {wdrm : Bytes}

/-- What is done about the directory is to delete it. -/
def Deletes (x : String) (wdrm : Bytes) (t : Node) : Prop :=
  wdrm = nameBytes "delete" ∨ look t [x, "phase1.gz.tmp"] ≠ none

theorem checkForRubble_deletes (h : Deletes x wdrm t) (incexc : Bytes) :
    checkForRubble (rubbleIn x t) wdrm incexc = .deleteWorking := by
  unfold checkForRubble rubbleIn
  dsimp only
  rcases h with h | h
  · rw [h]
    split_ifs <;> simp_all
  · rw [decide_eq_true h]
    simp

theorem readlink_name (h : x.length ≤ 255) : String.ofList (x.toList.take 255) = x := by
  rw [List.take_of_length_le (by rwa [String.length_toList]), String.ofList_toList]

/-- Removing the link. -/
theorem unlink_linked (h : NewName es x) :
    unlinkAt ["working"] (.dir (linked es x)) = (.dir es, true) := by
  have hlink : look (.dir (linked es x)) ["working"] = some (.symlink x) := by
    simp [look, linked, find_set, Node.entry]
  unfold unlinkAt
  rw [hlink]
  show (Node.dir (set (set es "working" _) "working" none), true) = _
  rw [set_set, set_none_of_find_none h.working]

variable (c : Codec) (conf : Conf) (pid : String) (incexc : Bytes) in
/-- **The directory is deleted**, and then the link. -/
theorem checkForRubbleIn_spec (hn : NewName es x) (h : Interrupted es x t)
    (hdel : t = .dir es ∨ t = .dir (linked es x) ∨ Deletes x wdrm t) :
    Spec (checkForRubbleIn c conf pid wdrm incexc) t (Interrupted es x)
      fun r u => r = (true, false) ∧ u = .dir es := by
  have hfinishing : look t ["finishing"] = none := by
    rcases h with rfl | rfl | h
    · simp [look, hn.finishing]
    · simp [look, linked, find_set, hn.finishing]
    · exact (Filling.look hn h).1
  have hunlink : Interrupted es x (unlinkAt ["working"] (.dir (linked es x))).1 := by
    rw [unlink_linked hn]
    exact Or.inl rfl
  unfold checkForRubbleIn lstat
  refine Spec.bind (Spec.read h ?_)
  rw [hfinishing]
  refine Spec.bind (Spec.read h ?_)
  have hlinked : Interrupted es x (.dir (linked es x)) := Or.inr (Or.inl rfl)
  rcases h with rfl | rfl | hfill
  · have hworking : look (.dir es) ["working"] = none := by simp [look, hn.working]
    rw [hworking]
    exact Spec.pure (Or.inl rfl) ⟨rfl, rfl⟩
  · -- the directory is not there
    have hworking : look (.dir (linked es x)) ["working"] = some (.symlink x) := by
      simp [look, linked, find_set, Node.entry]
    have habsent : look (.dir (linked es x)) [x] = none := by simp [look, hn.absent_linked]
    rw [hworking]
    dsimp only
    rw [readlink_name hn.short]
    refine Spec.bind (Spec.read hlinked ?_)
    rw [habsent]
    refine Spec.bind (Spec.op hlinked hunlink ?_)
    rw [unlink_linked hn]
    exact Spec.pure (Or.inl rfl) ⟨rfl, rfl⟩
  · obtain ⟨-, hworking, hdir⟩ := Filling.look hn hfill
    obtain ⟨hopened, i, hi⟩ := Filling.openLog hn hfill
    have hfilled : ∀ {u}, Filling es x u → Interrupted es x u := fun hu => Or.inr (Or.inr hu)
    have hdeletes : Deletes x wdrm ((openAppend [x, "log"]).final t) := by
      rcases hdel with rfl | rfl | hdel
      · simp [look, hn.absent] at hdir
      · simp [look, hn.absent_linked] at hdir
      · unfold Deletes
        rw [Shuffle.openAppend_look (by simp)]
        exact hdel
    rw [hworking]
    dsimp only
    rw [readlink_name hn.short]
    refine Spec.bind (Spec.read (hfilled hfill) ?_)
    rw [hdir]
    refine Spec.bind (Spec.op (hfilled hfill) (hfilled hopened) ?_)
    rw [show (openAt false [x, "log"] t).2 = some i from hi]
    refine Spec.bind (Spec.read (hfilled hopened) ?_)
    rw [show (openAt false [x, "log"] t).1 = (openAppend [x, "log"]).final t from rfl,
      checkForRubble_deletes hdeletes]
    refine Spec.bind ((delete_spec hn.absent_linked hopened).mono (fun u hu => Or.inr hu) ?_)
    intro r u _ hru
    obtain ⟨hr, hu⟩ := hru
    rw [if_pos hr, hu]
    refine Spec.bind (Spec.op hlinked hunlink ?_)
    rw [unlink_linked hn]
    exact Spec.pure (Or.inl rfl) ⟨rfl, rfl⟩

end Recover

/-- Until the link has got its last name, the backup has not been received. -/
theorem interrupted_of_killed (c : Codec) (conf : Conf) {es : Entries} {b : Received}
    (hn : NewName es b.tstmp) (hcalls : ∀ call ∈ b.phase2.calls, call.In b.tstmp) {u : Node}
    (hu : u ∈ (receiveBackup c conf b).killed (.dir es)) (hfin : look u ["finishing"] = none) :
    Interrupted es b.tstmp u := by
  rcases (receiveBackup_spec c conf hn hcalls).crash u hu with hu | hu
  · exact hu
  · rw [hu.1] at hfin
    exact absurd hfin nofun

/-- **A scan that has not been finished** is deleted with any method: if the server has been
killed in phase 1, then the next backup starts from what was there before. -/
theorem unfinished_scan_is_deleted (c : Codec) (conf : Conf) (pid : String) (wdrm incexc : Bytes)
    {es : Entries} {b : Received} (hn : NewName es b.tstmp)
    (hcalls : ∀ call ∈ b.phase2.calls, call.In b.tstmp) {u : Node}
    (hu : u ∈ (receiveBackup c conf b).killed (.dir es)) (hfin : look u ["finishing"] = none)
    (hscan : look u [b.tstmp, "phase1.gz.tmp"] ≠ none) :
    (checkForRubbleIn c conf pid wdrm incexc).result u = (true, false)
      ∧ (checkForRubbleIn c conf pid wdrm incexc).final u = .dir es := by
  have hstart := interrupted_of_killed c conf hn hcalls hu hfin
  exact (checkForRubbleIn_spec c conf pid incexc hn hstart (Or.inr (Or.inr (Or.inr hscan)))).post

/-- One backup, and the next one, of which no message of phase 1 arrives. -/
def oneBackup : Entries :=
  [("current", .symlink "0000001"), ("0000001", .dir [("manifest.gz", .file 1 [31, 139])])]

def nextReceived : Received where
  tstmp := "0000002"
  incexc := []
  msgs := []
  phase2 := ⟨[.write ["0000002", "phase2"] [[1]]], true⟩

theorem nextReceived_new : NewName oneBackup nextReceived.tstmp :=
  ⟨rfl, rfl, rfl, by decide, by decide⟩

theorem nextReceived_in : ∀ call ∈ nextReceived.phase2.calls, call.In nextReceived.tstmp := by
  intro call hcall
  rw [List.mem_singleton.mp hcall]
  exact ⟨"phase2", [], rfl, by decide⟩

/-- What it leaves. -/
def nextLeft : Node := (receiveBackup sampleCodec {} nextReceived).final (.dir oneBackup)

theorem unfinished_scan_is_deleted_next :
    (checkForRubbleIn sampleCodec {} "77" (nameBytes "use") []).final nextLeft
      = .dir oneBackup :=
  (unfinished_scan_is_deleted sampleCodec {} "77" (nameBytes "use") [] nextReceived_new
    nextReceived_in (Prog.final_mem_killed _ _) (by decide) (by decide)).2

/-- Nothing of phase 1 or the later phases is there. -/
structure Bare (es : Entries) (x : String) (t : Node) : Prop where
  filling : Filling es x t
  phase1 : look t [x, "phase1.gz.tmp"] = none
  unchanged : look t [x, "unchanged"] = none
  manifest : look t [x, "manifest.gz"] = none

variable (c : Codec) (conf : Conf) (pid : String) (incexc : Bytes) in
/-- With the method "use", there is nothing to make a backup of. -/
theorem checkForRubbleIn_use {es : Entries} {x : String} {t : Node} (hn : NewName es x)
    (h : Bare es x t) :
    Spec (checkForRubbleIn c conf pid (nameBytes "use") incexc) t (Bare es x)
      fun r _ => r = (false, false) := by
  obtain ⟨hfinishing, hworking, hdir⟩ := h.filling.look hn
  obtain ⟨hopened, i, hi⟩ := h.filling.openLog hn
  have hbare : Bare es x ((openAppend [x, "log"]).final t) := by
    refine ⟨hopened, ?_, ?_, ?_⟩
    · rw [Shuffle.openAppend_look (by simp), h.phase1]
    · rw [Shuffle.openAppend_look (by simp), h.unchanged]
    · rw [Shuffle.openAppend_look (by simp), h.manifest]
  generalize hu : (openAppend [x, "log"]).final t = u at hbare
  have hdecision : checkForRubble (rubbleIn x u) (nameBytes "use") incexc = .useAsItIs := by
    have hdelete : nameBytes "use" ≠ nameBytes "delete" := by decide
    have hresume : nameBytes "use" ≠ nameBytes "resume" := by decide
    unfold checkForRubble rubbleIn
    rw [hbare.phase1]
    simp [hdelete, hresume]
  unfold checkForRubbleIn lstat
  refine Spec.bind (Spec.read h ?_)
  rw [hfinishing]
  refine Spec.bind (Spec.read h ?_)
  rw [hworking]
  dsimp only
  rw [readlink_name hn.short]
  refine Spec.bind (Spec.read h ?_)
  rw [hdir]
  have hstate : (openAt false [x, "log"] t).1 = u := hu
  refine Spec.bind (Spec.op h ?_ ?_)
  · rw [hstate]
    exact hbare
  · rw [show (openAt false [x, "log"] t).2 = some i from hi, hstate]
    refine Spec.bind (Spec.read hbare ?_)
    rw [hdecision]
    dsimp only
    -- neither a manifest nor the file that it would be made from
    unfold maybeRebuildManifest backupPhase3Server lstat readFile
    refine Spec.bind (Spec.bind (Spec.read hbare ?_))
    rw [hbare.manifest]
    refine Spec.bind (Spec.read hbare ?_)
    rw [hbare.unchanged]
    exact Spec.pure hbare (Spec.pure hbare rfl)

/-- **A backup that is killed before phase 1** is in the way with the method "use": no attempt to
use it as it is succeeds, however many there are, and it stays where it is. -/
theorem use_before_phase1_stuck (c : Codec) (conf : Conf) (pid : String) {es : Entries}
    {b : Received} (hn : NewName es b.tstmp) :
    ∃ u ∈ (receiveBackup c conf b).killed (.dir es), ∀ incexc v,
      Attempts (checkForRubbleIn c conf pid (nameBytes "use") incexc) u v →
        (checkForRubbleIn c conf pid (nameBytes "use") incexc).result v = (false, false)
          ∧ look v ["working"] = some (.symlink b.tstmp) := by
  refine ⟨(Node.dir (linked es b.tstmp)).put [b.tstmp] (some (.dir [])), ?_, ?_⟩
  · unfold receiveBackup
    refine Prog.mem_killed_bind.mpr (Or.inr ?_)
    show _ ∈ Prog.killed (if (symlinkAt b.tstmp ["working"] (.dir es)).2 = true then _ else _)
      (symlinkAt b.tstmp ["working"] (.dir es)).1
    rw [symlink_linked hn, if_pos rfl]
    refine Prog.mem_killed_bind.mpr (Or.inl ?_)
    have hfinal := Prog.final_mem_killed (mkdir [b.tstmp]) (.dir (linked es b.tstmp))
    rwa [mkdir, Prog.final_op, mkdir_linked hn] at hfinal
  · intro incexc v hv
    have hbare : Bare es b.tstmp
        ((Node.dir (linked es b.tstmp)).put [b.tstmp] (some (.dir []))) := by
      refine ⟨⟨fresh_mkdir _ _, Or.inl ?_⟩, ?_, ?_, ?_⟩
      all_goals simp [FileSystem.look, Node.put, find_set, find]
    have hkeeps : Keeps (Bare es b.tstmp)
        (checkForRubbleIn c conf pid (nameBytes "use") incexc) := fun t ht =>
      (checkForRubbleIn_use c conf pid incexc hn ht).crash
    have hthen := hkeeps.restarts hbare hv
    exact ⟨(checkForRubbleIn_use c conf pid incexc hn hthen).post, (hthen.filling.look hn).2.1⟩

theorem use_before_phase1_stuck_next :
    ∃ u ∈ (receiveBackup sampleCodec {} nextReceived).killed (.dir oneBackup), ∀ incexc v,
      Attempts (checkForRubbleIn sampleCodec {} "77" (nameBytes "use") incexc) u v →
        (checkForRubbleIn sampleCodec {} "77" (nameBytes "use") incexc).result v = (false, false)
          ∧ look v ["working"] = some (.symlink "0000002") :=
  use_before_phase1_stuck sampleCodec {} "77" nextReceived_new

end Burp.Server
