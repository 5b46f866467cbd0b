/-
  Burp.Phase2.Decide — what phase 2 does about an entry of the client's list.

  `backup_phase2_server` walks the client's list and the old manifest side by side, both of
  them sorted, and `maybe_process_file` decides for a pair of entries: the old file is
  unchanged, a delta against it will do, the client has to send the whole file, or one of
  the two lists is behind.

  Main results:
    * `delta_spec` — when a delta is chosen.
    * `unchanged_spec` — what may be taken over from the old manifest as it is.
-/
import Burp.Store.Sbuf
import Burp.Store.Files

namespace Burp.Phase2

open FileSystem Burp.Store

/-! ## §1. The code. -/

/-- The components of a path that is given as text. -/
def components (b : Bytes) : Path :=
  ((b.splitOn 47).filter (· ≠ [])).map fun x => String.ofList (x.map fun c => Char.ofNat c.toNat)

/-- The functions that write to the unchanged file. -/
inductive Writer
  | newNonFile | changedNonFile | unchangedFile
  deriving DecidableEq, Repr

/-- What happens to an entry of the client's list: the client is asked for the whole file or
for a delta, or an entry goes to the unchanged file at once. -/
inductive Outcome
  | request
  | delta
  | unchanged (writer : Writer) (sb : Sbuf)
  deriving DecidableEq, Repr

/-- The result of `maybe_process_file`: 0, or 1 with what has been decided and whether the
entry of the old manifest is still needed. -/
inductive Verdict
  | behind
  | done (outcome : Outcome) (keep : Bool)
  deriving DecidableEq, Repr

/-- `process_new`. -/
def processNew (p1b : Sbuf) : Outcome :=
  if p1b.cmd.filedata then .request else .unchanged .newNonFile p1b

/-- The commands for which a change of the attributes needs the data again. -/
def Cmd.refreshed : Cmd → Bool
  | .encMetadata | .metadata | .vss | .encVss | .vssT | .encVssT | .efsFile => true
  | _ => false

/-- The commands that librsync is not used for. -/
def Cmd.whole : Cmd → Bool
  | .encFile | .encMetadata | .efsFile | .metadata | .vss | .encVss | .vssT | .encVssT => true
  | _ => false

/-- `oldcompressed`. -/
def oldCompressed (cb : Sbuf) : Bool :=
  match cb.datapth with
  | none => false
  | some d => dpthIsCompressed cb.compression (components d)

/-- `maybe_process_file`. -/
def maybeProcessFile (conf : Conf) (cb p1b : Sbuf) : Verdict :=
  let pcmp := sbufPathcmp cb p1b
  if pcmp = 0 then
    if cb.cmd ≠ p1b.cmd then .done (processNew p1b) false
    else if cb.statp.mtime = p1b.statp.mtime ∧ cb.statp.ctime = p1b.statp.ctime then
      .done (.unchanged .unchangedFile cb) false
    else if cb.statp.mtime = p1b.statp.mtime ∧ cb.statp.ctime ≠ p1b.statp.ctime then
      if Cmd.refreshed cb.cmd || Cmd.refreshed p1b.cmd then .done (processNew p1b) false
      else .done (.unchanged .unchangedFile cb) false
    else if !conf.librsync || Cmd.whole cb.cmd || Cmd.whole p1b.cmd then
      .done (processNew p1b) false
    else if (oldCompressed cb && decide (conf.compression = 0))
        || (!oldCompressed cb && decide (conf.compression ≠ 0)) then
      .done (processNew p1b) false
    else if p1b.cmd.filedata then .done .delta false
    else .done (.unchanged .changedNonFile p1b) false
  else if 0 < pcmp then .done (processNew p1b) true
  else .behind

/-! ## §2. When it decides what. -/

section Decisions

variable {conf : Conf} {cb p1b : Sbuf} {keep : Bool}

theorem processNew_ne_delta : processNew p1b ≠ .delta := by
  unfold processNew
  split <;> simp

/-- **A delta is chosen** for a plain file that has changed, if the old copy is compressed
exactly when the server compresses. -/
theorem delta_spec (h : maybeProcessFile conf cb p1b = .done .delta keep) :
    sbufPathcmp cb p1b = 0 ∧ cb.cmd = p1b.cmd ∧ p1b.cmd = .file ∧ conf.librsync = true
      ∧ cb.statp.mtime ≠ p1b.statp.mtime
      ∧ oldCompressed cb = decide (conf.compression ≠ 0) := by
  unfold maybeProcessFile at h
  simp only at h
  split_ifs at h with h0 hcmd hsame hctime hrefresh hwhole hcomp hdata hahead
  all_goals simp only [Verdict.done.injEq, reduceCtorEq, processNew_ne_delta, false_and] at h
  have hmtime : cb.statp.mtime ≠ p1b.statp.mtime := by
    intro hm
    by_cases hc : cb.statp.ctime = p1b.statp.ctime
    · exact hsame ⟨hm, hc⟩
    · exact hctime ⟨hm, hc⟩
  simp only [Bool.or_eq_true, Bool.not_eq_true', not_or, Bool.not_eq_false] at hwhole
  refine ⟨h0, not_not.mp hcmd, ?_, hwhole.1.1, hmtime, ?_⟩
  · -- the only file data that is not sent whole
    have hw := hwhole.2
    cases hc : p1b.cmd <;> simp_all [Cmd.whole, Store.Cmd.filedata]
  · cases hold : oldCompressed cb <;> simp_all

/-- The whole of a file is asked for if there is file data. -/
theorem request_spec (h : maybeProcessFile conf cb p1b = .done .request keep) :
    p1b.cmd.filedata = true := by
  have hnew : processNew p1b = .request → p1b.cmd.filedata = true := by
    unfold processNew
    split_ifs with hdata
    · exact fun _ => hdata
    · simp
  unfold maybeProcessFile at h
  simp only at h
  split_ifs at h
  all_goals simp only [Verdict.done.injEq, reduceCtorEq, false_and] at h
  all_goals exact hnew h.1

/-- **What goes to the unchanged file** is the old entry of a file with the same command and
modification time, or an entry without file data. -/
theorem unchanged_spec {writer : Writer} {sb : Sbuf}
    (h : maybeProcessFile conf cb p1b = .done (.unchanged writer sb) keep) :
    (writer = .unchangedFile ∧ sb = cb ∧ sbufPathcmp cb p1b = 0 ∧ cb.cmd = p1b.cmd
        ∧ cb.statp.mtime = p1b.statp.mtime)
      ∨ (writer ≠ .unchangedFile ∧ sb = p1b ∧ p1b.cmd.filedata = false) := by
  have hnew : processNew p1b = .unchanged writer sb →
      writer ≠ .unchangedFile ∧ sb = p1b ∧ p1b.cmd.filedata = false := by
    unfold processNew
    split_ifs with hdata
    · simp
    · intro heq
      simp only [Outcome.unchanged.injEq] at heq
      exact ⟨by rw [← heq.1]; decide, heq.2.symm, by simpa using hdata⟩
  unfold maybeProcessFile at h
  simp only at h
  split_ifs at h with h0 hcmd hsame hctime hrefresh hwhole hcomp hdata hahead
  all_goals simp only [Verdict.done.injEq, reduceCtorEq, false_and, Outcome.unchanged.injEq] at h
  · exact Or.inr (hnew h.1)
  · exact Or.inl ⟨h.1.1.symm, h.1.2.symm, h0, not_not.mp hcmd, hsame.1⟩
  · exact Or.inr (hnew h.1)
  · exact Or.inl ⟨h.1.1.symm, h.1.2.symm, h0, not_not.mp hcmd, hctime.1⟩
  · exact Or.inr (hnew h.1)
  · exact Or.inr (hnew h.1)
  · exact Or.inr ⟨by rw [← h.1.1]; decide, h.1.2.symm, by simpa using hdata⟩
  · exact Or.inr (hnew h.1)

end Decisions

end Burp.Phase2
