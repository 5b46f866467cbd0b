/-
  Burp.Server.ExtraComms — what a client says before it says what it wants.

  After the authentication a client may send any number of messages: it takes part in a
  restore that the server has started or refuses to, exchanges include lists, and switches to
  another client whose files it would like to have.  Each of them is answered on the state that
  the earlier ones have left, the configuration and the name of the client included.

  Main results:
    * `step_changes` — the three kinds of things that a message can do.
    * `extraComms_keeps` — what every message keeps, a session keeps.
-/
import Burp.Phase2.Dpth
import Burp.Phase2.Paths

namespace Burp.Server

open FileSystem Burp.Store Burp.Phase2

/-! ## §1. Configurations. -/

/-- `struct config` of a client on the server, as far as a session looks at it. -/
structure ClientConf where
  directory : Bytes := []
  /-- `restore_client`: who may restore from this client. -/
  rclients : List Bytes := []
  clientCanForceBackup : Bool := true
  clientCanList : Bool := true
  clientCanRestore : Bool := true
  clientCanVerify : Bool := true
  directoryTree : Bool := true
  compression : Nat := 9
  incexcdir : List (Bytes × Bool) := []
  backup : Option Bytes := none
  regex : Option Bytes := none
  restorePath : Option Bytes := none
  /-- The client that has switched to this one. -/
  restoreClient : Option Bytes := none
  origClient : Option Bytes := none
  sendClientCounters : Bool := false

/-- What a restore file says; `none` of a field is that it does not say it. -/
structure RestoreFile where
  incexcdir : List (Bytes × Bool) := []
  backup : Option Bytes := none
  regex : Option Bytes := none
  origClient : Option Bytes := none

/-- What is at a path where a restore file may be. -/
inductive AtPath
  | nothing
  | regular (content : Option RestoreFile)
  | other

def AtPath.exists : AtPath → Bool
  | .nothing => false
  | _ => true

/-- `parse_incexcs_path`: the include list and the settings of a restore are replaced. -/
def parseIncexcsPath (files : Bytes → AtPath) (path : Option Bytes) (cconf : ClientConf) :
    Option ClientConf :=
  match path.map files with
  | some (.regular (some f)) =>
      some { cconf with
        incexcdir := f.incexcdir
        backup := f.backup
        regex := f.regex
        origClient := f.origClient <|> cconf.origClient }
  | _ => none

/-! ## §2. The session. -/

/-- Where `extra_comms` is reading. -/
inductive Reading
  | loop
  /-- In `incexc_recv_server`. -/
  | incexc
  /-- In `incexc_send_server` or `incexc_send_server_restore`, waiting for an answer. -/
  | sending (endrepstr : Bytes)
  deriving DecidableEq

structure Session where
  client : Bytes
  cconf : ClientConf
  srestore : Bool := false
  incexc : Option Bytes := none
  reading : Reading := .loop

/-- What `autoupgrade_server` comes to. -/
inductive Upgrade
  | goOn | error | exits
  deriving DecidableEq

/-- A message, and what there is around when it comes. -/
structure Arrival where
  cmd : Store.Cmd := .gen
  buf : Bytes
  files : Bytes → AtPath := fun _ => .nothing
  upgrade : Upgrade := .goOn
  /-- `async_write` does not fail. -/
  writes : Bool := true

/-- How `extra_comms` ends, or that it does not. -/
inductive Step
  | goOn | done | error | exits
  deriving DecidableEq

/-- The texts of the messages, as `extra_comms` compares them. -/
inductive Request
  | extraCommsEnd
  | autoupgrade (os : Bytes)
  | srestoreOk
  | srestoreNotOk
  | sincexcOk
  | incexc
  | countersok
  | origClient (name : Bytes)
  | unexpected
  deriving DecidableEq

def requestOf (text : Bytes) : Request :=
  if text = nameBytes "extra_comms_end" then .extraCommsEnd
  else if (nameBytes "autoupgrade:").isPrefixOf text then
    .autoupgrade (text.drop (nameBytes "autoupgrade:").length)
  else if text = nameBytes "srestore ok" then .srestoreOk
  else if text = nameBytes "srestore not ok" then .srestoreNotOk
  else if text = nameBytes "sincexc ok" then .sincexcOk
  else if text = nameBytes "incexc" then .incexc
  else if text = nameBytes "countersok" then .countersok
  else if (nameBytes "orig_client=").isPrefixOf text
      ∧ (nameBytes "orig_client=").length < text.length then
    .origClient (text.drop (nameBytes "orig_client=").length)
  else .unexpected

/-- The configuration after a switch, before the restore file is read again. -/
def switchedConf (s : Session) (name : Bytes) (sconf : ClientConf) : ClientConf :=
  { sconf with
    sendClientCounters := s.cconf.sendClientCounters
    restorePath := s.cconf.restorePath
    restoreClient := some s.client
    origClient := some name }

/-- The switch to another client, if its configuration can be loaded and has this one. -/
def switchTo (load : Bytes → Option ClientConf) (a : Arrival) (name : Bytes) (s : Session) :
    Session × Step :=
  match load name with
  | none => (s, .error)
  | some sconf =>
      if sconf.rclients.contains s.client then
        let cconf := switchedConf s name sconf
        -- if this started out as a server-initiated restore, load the restore file again
        match (if s.srestore then parseIncexcsPath a.files s.cconf.restorePath cconf
            else some cconf) with
        | none => ({ s with client := name, cconf := cconf }, .error)
        | some cconf =>
            ({ s with client := name, cconf := cconf }, if a.writes then .goOn else .error)
      else (s, .error)

/-- One turn of the loop, for a message with the command CMD_GEN. -/
def answerRequest (load : Bytes → Option ClientConf) (a : Arrival) (s : Session) :
    Session × Step :=
  match requestOf (cString a.buf) with
  | .extraCommsEnd => (s, if a.writes then .done else .error)
  | .autoupgrade os =>
      if os = [] then (s, .goOn)
      else
        match a.upgrade with
        | .goOn => (s, .goOn)
        | .error => (s, .error)
        | .exits => (s, .exits)
  | .srestoreOk =>
      let s := { s with srestore := true }
      match parseIncexcsPath a.files s.cconf.restorePath s.cconf with
      | none => (s, .error)
      | some cconf =>
          ({ s with cconf := cconf, reading := .sending (nameBytes "srestore end ok") },
            if a.writes then .goOn else .error)
  | .srestoreNotOk =>
      -- the file is unlinked
      ({ s with cconf := { s.cconf with restorePath := none } }, .goOn)
  | .sincexcOk =>
      ({ s with reading := .sending (nameBytes "sincexc end ok") },
        if a.writes then .goOn else .error)
  | .incexc =>
      ({ s with incexc := none, reading := .incexc }, if a.writes then .goOn else .error)
  | .countersok => ({ s with cconf := { s.cconf with sendClientCounters := true } }, .goOn)
  | .origClient name => switchTo load a name s
  | .unexpected => (s, .error)

/-- One message of `incexc_recv_server`. -/
def incexcRecv (a : Arrival) (s : Session) : Session × Step :=
  let text := cString a.buf
  if a.cmd ≠ .gen then (s, .error)
  else if text = nameBytes "incexc end" then
    -- need to put another new line at the end
    ({ s with incexc := s.incexc.map (· ++ [10]), reading := .loop },
      if a.writes then .goOn else .error)
  else
    ({ s with incexc := some (match s.incexc with
        | none => text
        | some b => b ++ 10 :: text) }, .goOn)

/-- A message, wherever `extra_comms` is reading. -/
def step (load : Bytes → Option ClientConf) (a : Arrival) (s : Session) : Session × Step :=
  match s.reading with
  | .loop => if a.cmd = .gen then answerRequest load a s else (s, .error)
  | .incexc => incexcRecv a s
  | .sending endrepstr =>
      if a.cmd = .gen ∧ cString a.buf = endrepstr then ({ s with reading := .loop }, .goOn)
      else (s, .error)

/-- The loop of `extra_comms`; at the end of the arrivals the reading fails. -/
def run (load : Bytes → Option ClientConf) : List Arrival → Session → Session × Step
  | [], s => (s, .error)
  | a :: arrivals, s =>
      match step load a s with
      | (s, .goOn) => run load arrivals s
      | r => r

/-- `version_to_long` of 1.2.7, 1.3.0 and 1.3.6. -/
def minVer : Int := 10207
def featListVer : Int := 10300
def directoryTreeVer : Int := 10306

/-- `get_restorepath`. -/
def getRestorepath (directory client : Bytes) : Bytes :=
  prependS (prependS directory client) (nameBytes "restore")

/-- What `extra_comms` does before the loop. -/
def prepare (cliVer : Int) (client : Bytes) (cconf : ClientConf) : ClientConf :=
  let cconf := if cliVer < directoryTreeVer then { cconf with directoryTree := false } else cconf
  -- 1.3.0 did not support the feature list
  if cliVer < minVer ∨ cliVer = featListVer then cconf
  else { cconf with restorePath := some (getRestorepath cconf.directory client) }

/-- The session as the loop finds it. -/
def start (cliVer : Int) (client : Bytes) (cconf : ClientConf) : Session where
  client := client
  cconf := prepare cliVer client cconf

/-- `extra_comms`: its session, and whether it returns 0. -/
def extraComms (load : Bytes → Option ClientConf) (cliVer : Int) (client : Bytes)
    (cconf : ClientConf) (arrivals : List Arrival) : Session × Step :=
  let s := start cliVer client cconf
  if cliVer < 0 then (s, .error)
  else if cliVer < minVer then (s, .done)
  else
    match arrivals with
    | [] => (s, .error)
    | a :: arrivals =>
        if a.cmd = .gen ∧ cString a.buf = nameBytes "extra_comms_begin" ∧ a.writes then
          run load arrivals s
        else (s, .error)

/-! ## §3. What a message can do. -/

/-- A name that `extra_comms` takes. -/
def IsName (name : Bytes) : Prop := name ≠ [] ∧ 0 ∉ name

/-- Where the name comes from. -/
theorem requestOf_origClient {text name : Bytes} (h : requestOf text = .origClient name) :
    name ≠ [] ∧ name = text.drop (nameBytes "orig_client=").length := by
  unfold requestOf at h
  split_ifs at h with h1 h2 h3 h4 h5 h6 h7 h8
  obtain rfl := Request.origClient.inj h
  refine ⟨?_, rfl⟩
  intro hnil
  have := congrArg List.length hnil
  rw [List.length_drop, List.length_nil] at this
  omega

theorem isName_of_request {b name : Bytes} (h : requestOf (cString b) = .origClient name) :
    IsName name := by
  obtain ⟨hne, hname⟩ := requestOf_origClient h
  refine ⟨hne, ?_⟩
  intro hmem
  rw [hname] at hmem
  exact zero_notMem_cString b (List.mem_of_mem_drop hmem)

/-- What a message can do if it is not an error. -/
inductive Changes (load : Bytes → Option ClientConf) (a : Arrival) (s s' : Session) : Prop
  /-- Neither the client nor what concerns permissions changes. -/
  | speaks (hclient : s'.client = s.client) (hsrestore : s'.srestore = s.srestore)
      (hrestoreClient : s'.cconf.restoreClient = s.cconf.restoreClient)
      (hcan : s'.cconf.clientCanRestore = s.cconf.clientCanRestore)
      (hincexc : s'.cconf.incexcdir = s.cconf.incexcdir)
      (hpath : s'.cconf.restorePath = s.cconf.restorePath ∨ s'.cconf.restorePath = none)
  | accepts (hclient : s'.client = s.client) (hsrestore : s'.srestore = true)
      (hparse : parseIncexcsPath a.files s.cconf.restorePath s.cconf = some s'.cconf)
  | switches (name : Bytes) (sconf : ClientConf) (hname : IsName name)
      (hload : load name = some sconf) (hallowed : s.client ∈ sconf.rclients)
      (hclient : s'.client = name) (hsrestore : s'.srestore = s.srestore)
      (hconf : (if s.srestore then
          parseIncexcsPath a.files s.cconf.restorePath (switchedConf s name sconf)
        else some (switchedConf s name sconf)) = some s'.cconf)

section Changes

variable {load : Bytes → Option ClientConf} {a : Arrival} {s : Session}

theorem switchTo_changes {name : Bytes} (hname : IsName name)
    (h : (switchTo load a name s).2 = .goOn ∨ (switchTo load a name s).2 = .done) :
    Changes load a s (switchTo load a name s).1 := by
  unfold switchTo at h ⊢
  cases hload : load name with
  | none => simp [hload] at h
  | some sconf =>
      simp only [hload] at h ⊢
      by_cases hallowed : s.client ∈ sconf.rclients
      · rw [if_pos (List.contains_iff_mem.mpr hallowed)] at h ⊢
        cases hconf : (if s.srestore then
            parseIncexcsPath a.files s.cconf.restorePath (switchedConf s name sconf)
          else some (switchedConf s name sconf)) with
        | none =>
            rw [hconf] at h
            simp at h
        | some cconf => exact .switches name sconf hname hload hallowed rfl rfl hconf
      · rw [if_neg (mt List.contains_iff_mem.mp hallowed)] at h
        simp at h

theorem incexcRecv_changes : Changes load a s (incexcRecv a s).1 := by
  unfold incexcRecv
  simp only
  split_ifs
  all_goals exact .speaks rfl rfl rfl rfl rfl (Or.inl rfl)

theorem answerRequest_changes
    (h : (answerRequest load a s).2 = .goOn ∨ (answerRequest load a s).2 = .done) :
    Changes load a s (answerRequest load a s).1 := by
  unfold answerRequest at h ⊢
  cases hreq : requestOf (cString a.buf) with
  | extraCommsEnd => exact .speaks rfl rfl rfl rfl rfl (Or.inl rfl)
  | autoupgrade os =>
      simp only
      split_ifs
      · exact .speaks rfl rfl rfl rfl rfl (Or.inl rfl)
      · cases a.upgrade
        all_goals exact .speaks rfl rfl rfl rfl rfl (Or.inl rfl)
  | srestoreOk =>
      simp only [hreq] at h ⊢
      cases hparse : parseIncexcsPath a.files s.cconf.restorePath s.cconf with
      | none => simp [hparse] at h
      | some cconf => exact .accepts rfl rfl hparse
  | srestoreNotOk => exact .speaks rfl rfl rfl rfl rfl (Or.inr rfl)
  | sincexcOk => exact .speaks rfl rfl rfl rfl rfl (Or.inl rfl)
  | incexc => exact .speaks rfl rfl rfl rfl rfl (Or.inl rfl)
  | countersok => exact .speaks rfl rfl rfl rfl rfl (Or.inl rfl)
  | origClient name =>
      rw [hreq] at h
      exact switchTo_changes (isName_of_request hreq) h
  | unexpected => simp [hreq] at h

/-- **A message** speaks, accepts the restore or switches to another client. -/
theorem step_changes (h : (step load a s).2 = .goOn ∨ (step load a s).2 = .done) :
    Changes load a s (step load a s).1 := by
  unfold step at h ⊢
  cases hreading : s.reading with
  | loop =>
      simp only [hreading] at h ⊢
      split_ifs at h ⊢ with hcmd
      · exact answerRequest_changes h
      · simp at h
  | incexc => exact incexcRecv_changes
  | sending endrepstr =>
      simp only
      split_ifs
      all_goals exact .speaks rfl rfl rfl rfl rfl (Or.inl rfl)

end Changes

/-! ## §4. Sessions. -/

section Run

variable {load : Bytes → Option ClientConf}

/-- **Sessions**: what every message keeps holds at the end. -/
theorem run_keeps {P : Session → Prop} : ∀ {arrivals : List Arrival} {s : Session},
    (∀ a ∈ arrivals, ∀ s s', P s → Changes load a s s' → P s') → P s →
    (run load arrivals s).2 = .done → P (run load arrivals s).1 := by
  intro arrivals
  induction arrivals with
  | nil =>
      intro s _ _ h
      simp [run] at h
  | cons a arrivals ih =>
      intro s hkeeps hs h
      have hstep := fun hret => hkeeps a List.mem_cons_self s _ hs (step_changes hret)
      unfold run at h ⊢
      generalize step load a s = r at h hstep ⊢
      obtain ⟨s', ret⟩ := r
      cases ret with
      | goOn =>
          exact ih (fun b hb => hkeeps b (List.mem_cons_of_mem _ hb)) (hstep (Or.inl rfl)) h
      | done => exact hstep (Or.inr rfl)
      | error => simp at h
      | exits => simp at h

/-- **`extra_comms`**: what every message keeps and holds at the start. -/
theorem extraComms_keeps {P : Session → Prop} {cliVer : Int} {client : Bytes} {cconf : ClientConf}
    {arrivals : List Arrival} (hkeeps : ∀ a ∈ arrivals, ∀ s s', P s → Changes load a s s' → P s')
    (hstart : P (start cliVer client cconf))
    (h : (extraComms load cliVer client cconf arrivals).2 = .done) :
    P (extraComms load cliVer client cconf arrivals).1 := by
  unfold extraComms at h ⊢
  simp only at h ⊢
  split_ifs at h ⊢ with hneg hold
  · exact hstart
  · cases arrivals with
    | nil => simp at h
    | cons a arrivals =>
        simp only at h ⊢
        split_ifs at h ⊢ with hbegin
        exact run_keeps (fun b hb => hkeeps b (List.mem_cons_of_mem _ hb)) hstart h

end Run

end Burp.Server
