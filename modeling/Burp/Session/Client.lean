/-
  Burp.Session.Client — a client until it does what it was started for (client.c).

  `do_client` looks at the features of the server one after the other: upgrades, a restore that
  the server has started, the switch to another client, include lists from the server, counters,
  and its own include lists.  Then it asks for what it was started for, or for the restore, and
  goes on if the server agrees.

  Main results:
    * `gives_up` — a client that hears nothing more, or cannot say something, does nothing else.
-/
import Burp.Session.Serving

namespace Burp.Session

open Dialogue FileSystem
open Burp.Phase2 (nameBytes)
open Burp.Conf (Config Loading atoi configGetPair incexcSend parseIncexcsBuf prepend)
open Burp.Restore (Message)
open Burp.Server (inBuffer)
open Burp.Store (cString Cmd)
open Burp.Text (tokens)

/-! ## §1. The configuration. -/

/-- `struct config` of a client, as far as `do_client` looks at it. -/
structure OwnConf where
  config : Config
  origClient : Option Bytes := none
  backup : Option Bytes := none
  regex : Option Bytes := none
  browsedir : Option Bytes := none
  /-- `autoupgrade_os`, if `autoupgrade_dir` is set, too. -/
  autoupgradeOs : Option Bytes := none
  serverCanRestore : Bool := true
  sendClientCounters : Bool := false
  compression : Int := 9

/-- What a line sets besides the include lists. -/
def readString (c : OwnConf) (line : Bytes) : OwnConf :=
  match configGetPair line with
  | some (some (field, value)) =>
      if field = nameBytes "orig_client" then { c with origClient := some value }
      else if field = nameBytes "backup" then { c with backup := some value }
      else if field = nameBytes "regex" then { c with regex := some value }
      else c
  | _ => c

/-- `parse_incexcs_buf`, for all that the client looks at. -/
def parseOverride (load : Bytes → Loading → Option Loading) (c : OwnConf) (incexc : Bytes) :
    Option OwnConf :=
  (parseIncexcsBuf load c.config incexc).map fun config =>
    { (tokens (· = 10) incexc).foldl readString { c with backup := none, regex := none } with
      config := config }

/-! ## §2. The client. -/

/-- What the client was started for. -/
inductive Action
  | backup | backupTimed | restore | verify | list
  deriving DecidableEq

/-- What a client has been sent with `incexc_recv`. -/
inductive ListKind
  | srestore | sincexc
  deriving DecidableEq

def ListKind.repstr : ListKind → Bytes
  | .srestore => nameBytes "srestore ok"
  | .sincexc => nameBytes "sincexc ok"

def ListKind.endreqstr : ListKind → Bytes
  | .srestore => nameBytes "srestore end"
  | .sincexc => nameBytes "sincexc end"

def ListKind.endrepstr : ListKind → Bytes
  | .srestore => nameBytes "srestore end ok"
  | .sincexc => nameBytes "sincexc end ok"

/-- What it goes on with. -/
inductive Goes
  | backup (resume : Bool)
  | restore (verify : Bool)
  | list
  deriving DecidableEq

/-- How far `do_client` is. -/
inductive ClientAt
  | begins
  | hearsFeatures
  | upgrade
  | hearsUpgrade
  | restore
  /-- In `incexc_recv`, for one of the lists. -/
  | receives (which : ListKind)
  | endsList (which : ListKind)
  | parses (which : ListKind)
  | switch
  | hearsSwitch
  | includes
  | counters
  | incexc
  | hearsIncexc
  | sendsIncexc (todo : List Message)
  | hearsIncexcEnd
  | ends
  | hearsEnd
  | asks
  | hearsAnswer
  | goes (op : Goes)
  /-- On to the files of the upgrade, with which it ends. -/
  | upgrades
  | done (ret : Int)
  deriving DecidableEq

structure Client where
  point : ClientAt := .begins
  act : Action
  conf : OwnConf
  feat : Bytes := []
  incexc : Option Bytes := none

namespace Client

/-- `server_supports`. -/
def supports (s : Client) (wanted : String) : Bool := decide (nameBytes wanted <:+: s.feat)

/-- `server_supports_autoupgrade`. -/
def supportsAutoupgrade (s : Client) : Bool :=
  decide (s.feat = nameBytes "extra_comms_begin ok") || s.supports ":autoupgrade:"

/-- On an error. -/
def fails (s : Client) : Client := { s with point := .done (-1) }

/-- `async_read_expect`. -/
def expects (s : Client) (text : Bytes) (next : ClientAt) : Option Message → Client
  | some (cmd, buf) => if cmd = .gen ∧ cString buf = text then { s with point := next } else s.fails
  | none => s.fails

/-- After a list has been read. -/
def afterList : ListKind → ClientAt
  | .srestore => .switch
  | .sincexc => .counters

/-- The request, in a buffer of 512 bytes unless it is one for a backup. -/
def request (s : Client) : Bytes :=
  match s.act with
  | .backup => nameBytes "backupphase1"
  | .backupTimed => nameBytes "backupphase1timed"
  | .restore =>
      (nameBytes "restore " ++ s.conf.backup.getD [] ++ [58] ++ s.conf.regex.getD []).take 511
  | .verify =>
      (nameBytes "verify " ++ s.conf.backup.getD [] ++ [58] ++ s.conf.regex.getD []).take 511
  | .list =>
      match s.conf.browsedir with
      | some dir => (nameBytes "listb " ++ s.conf.backup.getD [] ++ [58] ++ dir).take 511
      | none =>
          (nameBytes "list " ++ s.conf.backup.getD [] ++ [58] ++ s.conf.regex.getD []).take 511

/-- The compression that the server tells. -/
def told (s : Client) (rdst : Bytes) (complen : Nat) : OwnConf :=
  if 3 < rdst.length then { s.conf with compression := atoi (rdst.drop complen) } else s.conf

/-- `maybe_check_timer`, after the request. -/
def checkTimer (s : Client) : Option Message → Client
  | none => s.fails
  | some (cmd, buf) =>
      let rdst := cString buf
      if cmd = .gen ∧ rdst = nameBytes "timer conditions not met" then { s with point := .done 3 }
      else if cmd ≠ .gen then s.fails
      else if nameBytes "ok" <+: rdst then
        { s with point := .goes (.backup false), conf := s.told rdst 3 }
      else if nameBytes "resume" <+: rdst then
        { s with point := .goes (.backup true), conf := s.told rdst 7 }
      else s.fails

end Client

/-- A message of `incexc_recv`. -/
def receivesLine (which : ListKind) (s : Client) : Option Message → Client
  | some (cmd, buf) =>
      if cmd ≠ .gen then s.fails
      else if cString buf = which.endreqstr then { s with point := .endsList which }
      else
        { s with incexc := some (prepend (s.incexc.getD []) (cString buf)
            (if s.incexc.isSome then [10] else [])) }
  | none => s.fails

/-- After the list has come, it is parsed; a restore is done whatever the client was started
for. -/
def parsesList (load : Bytes → Loading → Option Loading) (which : ListKind) (s : Client) : Client :=
  match s.incexc with
  | none => { s with point := Client.afterList which }
  | some incexc =>
      match parseOverride load s.conf incexc with
      | none => s.fails
      | some conf =>
          { s with
            point := Client.afterList which
            conf := conf
            act := if which = .srestore then .restore else s.act }

/-- `do_client`, from `extra_comms_begin` on. -/
def doClient (load : Bytes → Loading → Option Loading) : Party Client Message := fun s =>
  match s.point with
  | .begins =>
      .say (gen (nameBytes "extra_comms_begin")) { s with point := .hearsFeatures } s.fails
  | .hearsFeatures =>
      .hear fun
        | some (cmd, buf) =>
            if cmd = .gen ∧ nameBytes "extra_comms_begin ok" <+: cString buf then
              { s with point := .upgrade, feat := cString buf }
            else s.fails
        | none => s.fails
  | .upgrade =>
      match s.conf.autoupgradeOs with
      | some os =>
          if s.supportsAutoupgrade then
            .say (gen (inBuffer (nameBytes "autoupgrade:" ++ os)))
              { s with point := .hearsUpgrade } s.fails
          else .act { s with point := .restore }
      | none => .act { s with point := .restore }
  | .hearsUpgrade =>
      .hear fun
        | some (cmd, buf) =>
            if cmd = .gen ∧ cString buf = nameBytes "do not autoupgrade" then
              { s with point := .restore }
            else if cmd = .gen ∧ cString buf = nameBytes "autoupgrade ok" then
              { s with point := .upgrades }
            else s.fails
        | none => s.fails
  | .restore =>
      if s.supports ":srestore:" then
        if s.conf.serverCanRestore then
          .say (gen ListKind.srestore.repstr) { s with point := .receives .srestore, incexc := none }
            s.fails
        else .say (gen (nameBytes "srestore not ok")) { s with point := .switch } s.fails
      else .act { s with point := .switch }
  | .receives which => .hear (receivesLine which s)
  | .endsList which =>
      -- Need to put another new line at the end.
      .say (gen which.endrepstr)
        { s with point := .parses which, incexc := s.incexc.map fun b => prepend b [10] [] } s.fails
  | .parses which => .act (parsesList load which s)
  | .switch =>
      match s.conf.origClient with
      | some name =>
          if s.supports ":orig_client:" then
            .say (gen ((nameBytes "orig_client=" ++ name).take 511))
              { s with point := .hearsSwitch } s.fails
          else .act s.fails
      | none => .act { s with point := .includes }
  | .hearsSwitch => .hear (s.expects (nameBytes "orig_client ok") .includes)
  | .includes =>
      if (s.act = .backup ∨ s.act = .backupTimed) ∧ s.incexc = none ∧ s.supports ":sincexc:" then
        .say (gen ListKind.sincexc.repstr) { s with point := .receives .sincexc, incexc := none } s.fails
      else .act { s with point := .counters }
  | .counters =>
      if s.supports ":counters:" then
        -- the return value is still 0 here
        .say (gen (nameBytes "countersok"))
          { s with point := .incexc, conf := { s.conf with sendClientCounters := true } }
          { s with point := .done 0 }
      else .act { s with point := .incexc }
  | .incexc =>
      if s.supports ":incexc:" then
        .say (gen (nameBytes "incexc")) { s with point := .hearsIncexc } s.fails
      else .act { s with point := .ends }
  | .hearsIncexc =>
      .hear (s.expects (nameBytes "incexc ok") (.sendsIncexc (incexcSend .client s.conf.config)))
  | .sendsIncexc (m :: todo) => .say m { s with point := .sendsIncexc todo } s.fails
  | .sendsIncexc [] => .act { s with point := .hearsIncexcEnd }
  | .hearsIncexcEnd => .hear (s.expects (nameBytes "incexc end ok") .ends)
  | .ends => .say (gen (nameBytes "extra_comms_end")) { s with point := .hearsEnd } s.fails
  | .hearsEnd => .hear (s.expects (nameBytes "extra_comms_end ok") .asks)
  | .asks =>
      -- Found no include paths!
      if (s.act = .backup ∨ s.act = .backupTimed) ∧ s.conf.config.startdir = [] then .act s.fails
      else .say (gen s.request) { s with point := .hearsAnswer } s.fails
  | .hearsAnswer =>
      match s.act with
      | .restore => .hear (s.expects (nameBytes "ok") (.goes (.restore false)))
      | .verify => .hear (s.expects (nameBytes "ok") (.goes (.restore true)))
      | .list => .hear (s.expects (nameBytes "ok") (.goes .list))
      | _ => .hear s.checkTimer
  | .goes _ => .stop
  | .upgrades => .stop
  | .done _ => .stop

/-! ## §3. Giving up. -/

section GivesUp

variable {load : Bytes → Loading → Option Loading} {s s' : Client}

/-- **A client that hears nothing more**, or cannot say something, does nothing else. -/
theorem gives_up (h : GivesUp (doClient load) s s') : ∃ ret, s'.point = .done ret := by
  obtain ⟨point, act, conf, feat, incexc⟩ := s
  cases h with
  | hear h =>
      cases point with
      | hearsFeatures | hearsUpgrade | receives which | hearsSwitch | hearsIncexc | hearsIncexcEnd
        | hearsEnd =>
          obtain rfl := Move.hear.inj h
          exact ⟨_, rfl⟩
      | hearsAnswer =>
          cases act with
          | backup | backupTimed | restore | verify | list =>
              obtain rfl := Move.hear.inj h
              exact ⟨_, rfl⟩
      | sendsIncexc todo => cases todo <;> exact absurd h nofun
      | upgrade | restore | switch | includes | counters | incexc | asks =>
          unfold doClient at h
          dsimp only at h
          repeat' split at h
          all_goals cases h
      | _ => exact absurd h nofun
  | say h =>
      cases point with
      | begins | endsList which | ends =>
          obtain ⟨-, -, rfl⟩ := Move.say.inj h
          exact ⟨_, rfl⟩
      | sendsIncexc todo =>
          cases todo with
          | nil => exact absurd h nofun
          | cons m todo =>
              obtain ⟨-, -, rfl⟩ := Move.say.inj h
              exact ⟨_, rfl⟩
      | upgrade | restore | switch | includes | counters | incexc | asks =>
          unfold doClient at h
          dsimp only at h
          repeat' split at h
          all_goals cases h
          all_goals exact ⟨_, rfl⟩
      | hearsAnswer => cases act <;> exact absurd h nofun
      | _ => exact absurd h nofun

/-- Without an answer the client does not go on. -/
theorem goes_only_after_answer {op : Goes}
    (h : doClient load s = .act s' ∨ ∃ m f, doClient load s = .say m s' f) : s'.point ≠ .goes op := by
  obtain ⟨point, act, conf, feat, incexc⟩ := s
  rcases h with h | ⟨m, f, h⟩
  · cases point with
    | parses which =>
        obtain rfl := Move.act.inj h
        unfold parsesList
        dsimp only
        split
        · cases which <;> (intro hgoes; cases hgoes)
        · split
          · intro hgoes
            cases hgoes
          · cases which <;> (intro hgoes; cases hgoes)
    | sendsIncexc todo =>
        cases todo with
        | nil =>
            obtain rfl := Move.act.inj h
            intro hgoes
            cases hgoes
        | cons m todo => cases h
    | hearsAnswer => cases act <;> cases h
    | upgrade | restore | switch | includes | counters | incexc | asks =>
        unfold doClient at h
        dsimp only at h
        repeat' split at h
        all_goals cases h
        all_goals (intro hgoes; cases hgoes)
    | _ => cases h
  · cases point with
    | begins | endsList which | ends =>
        obtain ⟨-, rfl, -⟩ := Move.say.inj h
        intro hgoes
        cases hgoes
    | sendsIncexc todo =>
        cases todo with
        | nil => cases h
        | cons m todo =>
            obtain ⟨-, rfl, -⟩ := Move.say.inj h
            intro hgoes
            cases hgoes
    | hearsAnswer => cases act <;> cases h
    | upgrade | restore | switch | includes | counters | incexc | asks =>
        unfold doClient at h
        dsimp only at h
        repeat' split at h
        all_goals cases h
        all_goals (intro hgoes; cases hgoes)
    | _ => cases h

end GivesUp

end Burp.Session
