/-
  Burp.Phase2.Client — the other end of phase 2.

  A client answers the requests one after the other, each with the whole of a file or with an
  interrupt.  It begins no answer before it has been asked, may send warnings in between, and
  agrees to the end of phase 2 once it has been told of it and has answered everything.  When
  it does any of this is not said: the turns of the server and the messages of the client are
  interleaved in any way.

  Main results:
    * `served_ends` — what every turn with a client keeps, a run with it keeps.
    * `receive_message` — what each message of a client comes to.
-/
import Burp.Phase2.Steps

namespace Burp.Phase2

open FileSystem Burp.Store

/-! ## §1. Answers. -/

/-- What a client sends of a file; for a delta it begins with the data path. -/
structure Transfer where
  datapth : Option Bytes := none
  stat : Bytes
  appends : List Bytes
  endfile : Bytes
  deriving DecidableEq

/-- The messages with the data, and the one that ends them. -/
def dataMessages (appends : List Bytes) (endfile : Bytes) : List (Cmd × Bytes) :=
  appends.map (fun b => (.append, b)) ++ [(.endFile, endfile)]

/-- An answer to a request; without a transfer it is an interrupt. -/
structure Answer where
  request : Sbuf
  transfer : Option Transfer
  deriving DecidableEq

def Answer.path (a : Answer) : Bytes := a.request.path.getD []

/-- The messages of an answer. -/
def Answer.messages (a : Answer) : List (Cmd × Bytes) :=
  match a.transfer with
  | none => [(.interrupt, a.path)]
  | some x => x.datapth.toList.map (fun d => (.datapth, d)) ++ (.stat, x.stat)
      :: (a.request.cmd, a.path) :: dataMessages x.appends x.endfile

/-- A client: its answers so far, the last of which may not have been sent to its end, and what
is left to send of it. -/
structure Client where
  answers : List Answer := []
  todo : List (Cmd × Bytes) := []
  deriving DecidableEq

/-- The requests that it has answered. -/
def Client.requests (c : Client) : List Sbuf := c.answers.map Answer.request

/-- The requests that it has answered with an interrupt. -/
def Client.interrupted (c : Client) : List Sbuf :=
  (c.answers.filter fun a => a.transfer.isNone).map Answer.request

/-- **What a client sends**, after the server has done what is in the log. -/
inductive Client.Says (log : List Event) (c : Client) : Arrival → Client → Prop
  | nothing : Says log c .nothing c
  | warning (text : Bytes) : Says log c (.message .warning text) c
  | begins (a : Answer) (queue : List Sbuf) (cmd : Cmd) (text : Bytes)
      (todo : List (Cmd × Bytes)) (hidle : c.todo = [])
      (hasked : asked log = c.requests ++ a.request :: queue)
      (hmessages : a.messages = (cmd, text) :: todo) :
      Says log c (.message cmd text) { answers := c.answers ++ [a], todo := todo }
  | goesOn (cmd : Cmd) (text : Bytes) (todo : List (Cmd × Bytes))
      (htodo : c.todo = (cmd, text) :: todo) :
      Says log c (.message cmd text) { c with todo := todo }
  | agrees (text : Bytes) (htext : cString text = nameBytes "okbackupphase2end")
      (hidle : c.todo = []) (hasked : asked log = c.requests)
      (htold : Event.sent .gen (nameBytes "backupphase2end") ∈ log) :
      Says log c (.message .gen text) c

/-! ## §2. Runs with a client. -/

section Served

variable {conf : Conf} {working : Bytes}

/-- What has arrived in a turn, if the server looks at it, is from the client. -/
def Heard (t : Turn) (s : State) (c c' : Client) : Prop :=
  if receives t s then c.Says s.log t.arrival c' else c' = c

theorem heard_idle {t : Turn} {s : State} {c : Client} (h : receives t s = false) :
    Heard t s c c := by
  unfold Heard
  rw [h]
  rfl

theorem heard_said {t : Turn} {s : State} {c c' : Client} (h : receives t s = true)
    (hsaid : c.Says s.log t.arrival c') : Heard t s c c' := by
  unfold Heard
  rw [h]
  exact hsaid

variable (conf working) in
/-- **A run with a client**, from one state of the client to another. -/
inductive Served : List Turn → State → Client → Client → Prop
  | nil (s : State) (c : Client) : Served [] s c c
  | more {t : Turn} {ts : List Turn} {s : State} {c c' c'' : Client} (hheard : Heard t s c c')
      (hmore : (turn conf working t s).2 = .more)
      (hrest : Served ts (turn conf working t s).1 c' c'') : Served (t :: ts) s c c''
  | last {t : Turn} {ts : List Turn} {s : State} {c c' : Client} (hheard : Heard t s c c')
      (hlast : (turn conf working t s).2 ≠ .more) : Served (t :: ts) s c c'

/-- **Runs with a client**: `P` holds as long as the loop goes on, and `Q` of its end. -/
theorem served_ends {P : State → Client → Prop} {Q : State × Loop → Client → Prop}
    (hmore : ∀ s c, P s c → Q (s, .more) c)
    (hturn : ∀ t s c c', P s c → Heard t s c c' → (turn conf working t s).2 = .more →
      P (turn conf working t s).1 c')
    (hend : ∀ t s c c', P s c → Heard t s c c' → (turn conf working t s).2 ≠ .more →
      Q (turn conf working t s) c')
    {ts : List Turn} {s : State} {c c' : Client} (hserved : Served conf working ts s c c')
    (h : P s c) : Q (run conf working ts s) c' := by
  induction hserved with
  | nil s c => exact hmore s c h
  | @more t ts s c c' c'' hheard hmore' hrest ih =>
      have hgo := ih (hturn t s c c' h hheard hmore')
      unfold run
      generalize turn conf working t s = result at hmore' hgo
      obtain ⟨s', r⟩ := result
      rw [show r = .more from hmore']
      exact hgo
  | @last t ts s c c' hheard hlast =>
      have hstop := hend t s c c' h hheard hlast
      unfold run
      generalize turn conf working t s = result at hlast hstop
      obtain ⟨s', r⟩ := result
      cases r with
      | more => exact absurd rfl hlast
      | done => exact hstop
      | error => exact hstop

end Served

/-! ## §3. What the messages come to. -/

section Messages

variable {conf : Conf} {working : Bytes} {t : Turn} {s : State} {cmd : Cmd} {text : Bytes}

theorem receive_nothing (h : t.arrival = .nothing) :
    doStuffToReceive conf working t s = (s, .more) := by
  unfold doStuffToReceive
  rw [h]

theorem receive_warning (h : t.arrival = .message .warning text) :
    doStuffToReceive conf working t s = (s, .more) := by
  unfold doStuffToReceive
  rw [h]
  simp

theorem receive_datapth (h : t.arrival = .message .datapth text) (hclosed : s.rb.isOpen = false) :
    doStuffToReceive conf working t s
      = ({ s with rb := { s.rb with sb := { s.rb.sb with datapth := some text } } }, .more) := by
  unfold doStuffToReceive
  rw [h]
  simp [hclosed]

theorem receive_stat (h : t.arrival = .message .stat text) (hclosed : s.rb.isOpen = false) :
    doStuffToReceive conf working t s
      = ({ s with rb := { s.rb with sb := { s.rb.sb with statbuf := text } } }, .more) := by
  unfold doStuffToReceive
  rw [h]
  simp [hclosed]

/-- The commands of file data are none of the others. -/
theorem filedata_ne (h : cmd.filedata = true) :
    cmd ≠ .warning ∧ cmd ≠ .datapth ∧ cmd ≠ .stat := by
  refine ⟨?_, ?_, ?_⟩
  all_goals
    rintro rfl
    simp [Cmd.filedata] at h

theorem receive_file (h : t.arrival = .message cmd text) (hclosed : s.rb.isOpen = false)
    (hdata : cmd.filedata = true) :
    doStuffToReceive conf working t s
      = (if s.rb.sb.datapth.isSome then
          startToReceiveDelta working t { s.rb.sb with cmd := cmd, path := some text } s
        else startToReceiveNewFile conf working t
            { s.rb.sb with cmd := cmd, path := some text } s) := by
  obtain ⟨hwarning, hdatapth, hstat⟩ := filedata_ne hdata
  unfold doStuffToReceive
  rw [h]
  simp [hclosed, hwarning, hdatapth, hstat, hdata]

theorem receive_append (h : t.arrival = .message .append text) (hopen : s.rb.isOpen = true) :
    doStuffToReceive conf working t s = (s, if t.append then .more else .error) := by
  unfold doStuffToReceive
  rw [h]
  simp [hopen]

theorem receive_endFile (h : t.arrival = .message .endFile text) (hopen : s.rb.isOpen = true) :
    doStuffToReceive conf working t s = receiveEnd working t text s := by
  unfold doStuffToReceive
  rw [h]
  simp [hopen]

theorem receive_interrupt (h : t.arrival = .message .interrupt text)
    (hclosed : s.rb.isOpen = false) :
    doStuffToReceive conf working t s = (s.forget text, .more) := by
  unfold doStuffToReceive
  rw [h]
  simp [hclosed, Cmd.filedata]

/-- Phase 2 ends with no other message. -/
theorem receive_done :
    (doStuffToReceive conf working t s).2 = .done → ∃ text, t.arrival = .message .gen text := by
  apply doStuffToReceive_cases
    (P := fun r : State × Loop => r.2 = .done → ∃ text, t.arrival = .message .gen text)
  case done => intro text harr _; exact ⟨text, harr⟩
  case delta =>
    intro cmd text _ _ _ _ hdone
    obtain ⟨-, -, herror | ⟨hmore, -⟩⟩ := startToReceiveDelta_spec working t
      { s.rb.sb with cmd := cmd, path := some text } s
    · simp [hdone] at herror
    · simp [hdone] at hmore
  case whole =>
    intro cmd text _ _ _ _ hdone
    obtain ⟨paths, -, -, ⟨herror, -⟩ | ⟨hmore, -⟩⟩ := startToReceiveNewFile_spec conf working t
      { s.rb.sb with cmd := cmd, path := some text } s
    · simp [hdone] at herror
    · simp [hdone] at hmore
  case ended =>
    intro text _ _ hdone
    obtain ⟨es, -, -, -, paths, -, ⟨hmore, -⟩ | ⟨herror, -⟩⟩ := receiveEnd_spec working t text s
    · simp [hdone] at hmore
    · simp [hdone] at herror
  all_goals simp

theorem receive_agrees (h : t.arrival = .message .gen text) (hclosed : s.rb.isOpen = false)
    (htext : cString text = nameBytes "okbackupphase2end") :
    doStuffToReceive conf working t s = (s, .done) := by
  unfold doStuffToReceive
  rw [h]
  simp [hclosed, Cmd.filedata, htext]

end Messages

end Burp.Phase2
