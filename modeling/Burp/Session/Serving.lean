/-
  Burp.Session.Serving — the server before a client has said what it wants (server.c).

  `extra_comms` lists the features of the server and answers one message after the other;
  `child` then looks at the request.  What is around (restore files, packages, configurations)
  can be different each time a message comes.

  Main results:
    * `answer_loop` — an answer in the loop of `extra_comms`, and where it leads to.
    * `lastWord_serving` — a request that has been answered is the last one.
-/
import Burp.Conf.Incexc
import Burp.Dialogue.Answering
import Burp.Restore.Encodings
import Burp.Server.Authorise
import Burp.Server.Child

namespace Burp.Session

open Dialogue FileSystem
open Burp.Phase2 (nameBytes)
open Burp.Conf (Config doSends incexcSend sendIncexcStr sendIncexcInt sendIncexcLong)
open Burp.Restore (Message)
open Burp.Server (AtPath Around Answer Arrival ClientConf Upgrade child featListVer inBuffer minVer
  parseIncexcsPath requestOf)
open Burp.Store (cString Cmd)

/-! ## §1. What is sent. -/

/-- A text as a message. -/
def gen (text : Bytes) : Message := (.gen, text)

/-- What only the client looks at in a restore file. -/
structure RestoreOpts where
  restoreprefix : Option Bytes := none
  overwrite : Int := 0
  strip : Int := 0

/-- `send_incexc_str`, which does not send what is not set. -/
def sendSet (pre : Bytes) (str : Option Bytes) : List Bytes :=
  (str.map (sendIncexcStr pre)).toList

/-- `do_sends_restore`. -/
def doSendsRestore (cconf : ClientConf) (o : RestoreOpts) : List Bytes :=
  (cconf.incexcdir.map fun e =>
      sendIncexcStr (if e.2 then nameBytes "include" else nameBytes "exclude") e.1)
    ++ (sendSet (nameBytes "orig_client") cconf.origClient
    ++ (sendSet (nameBytes "backup") cconf.backup
    ++ (sendSet (nameBytes "restoreprefix") o.restoreprefix
    ++ (sendSet (nameBytes "regex") cconf.regex
    ++ [sendIncexcInt (nameBytes "overwrite") o.overwrite,
        sendIncexcLong (nameBytes "strip") (o.strip % 2 ^ 64).toNat]))))

/-- `incexc_send_server_restore`. -/
def incexcSendRestore (cconf : ClientConf) (o : RestoreOpts) : List Message :=
  (doSendsRestore cconf o ++ [nameBytes "srestore end"]).map gen

/-- What `autoupgrade_server` finds. -/
inductive Package
  /-- No upgrades, a client that is new enough, or no files for it. -/
  | nothing
  /-- What is there is no regular file. -/
  | irregular
  /-- The messages of the script and the package, as far as they can be sent. -/
  | files (ms : List Message) (whole : Bool)

def Package.upgrade : Package → Upgrade
  | .nothing => .goOn
  | .irregular => .error
  | .files _ whole => if whole then .exits else .error

def Package.messages : Package → List Message
  | .files ms _ => gen (nameBytes "autoupgrade ok") :: ms
  | _ => [gen (nameBytes "do not autoupgrade")]

/-! ## §2. The answers. -/

/-- What there is when a message comes. -/
structure Turn where
  files : Bytes → AtPath := fun _ => .nothing
  package : Package := .nothing
  /-- The configuration of the client, as `do_sends` finds it. -/
  config : Config
  opts : RestoreOpts := {}
  around : Around := {}

def Turn.arrival (turn : Turn) (m : Message) : Arrival where
  cmd := m.1
  buf := m.2
  files := turn.files
  upgrade := turn.package.upgrade

/-- Whether there is a regular file at the place of the restore file. -/
def Turn.initiates (turn : Turn) (path : Option Bytes) : Bool :=
  match path.map turn.files with
  | some (.regular _) => true
  | _ => false

/-- The answer to "extra_comms_begin". -/
def featureText (cliVer : Int) (turn : Turn) (cconf : ClientConf) : Bytes :=
  -- 1.3.0 did not support the feature list
  if cliVer = featListVer then nameBytes "extra_comms_begin ok"
  else
    nameBytes "extra_comms_begin ok:autoupgrade:incexc:orig_client:"
      ++ ((if turn.initiates cconf.restorePath then nameBytes "srestore:" else [])
      ++ ((if turn.config.startdir ≠ [] then nameBytes "sincexc:" else [])
      ++ nameBytes "counters:"))

/-- The server, as a client finds it. -/
structure ServerSide where
  load : Bytes → Option ClientConf
  cliVer : Int
  client : Bytes
  cconf : ClientConf
  turns : Nat → Turn

/-- Where the server is. -/
inductive Stage
  /-- In `extra_comms`, before "extra_comms_begin". -/
  | begins
  | talks (s : Server.Session)
  /-- Before the request. -/
  | asked (s : Server.Session)
  /-- What `child` has made of the request. -/
  | acts (s : Server.Session) (answer : Answer)
  | fails

/-- Where a message leads to. -/
def stageAfter : Server.Session × Server.Step → Stage
  | (s, .goOn) => .talks s
  | (s, .done) => .asked s
  | _ => .fails

/-- Where the server is, after so many messages. -/
structure Serving where
  turn : Nat := 0
  stage : Stage

/-- What the loop of `extra_comms` says to a message. -/
def requestSays (load : Bytes → Option ClientConf) (turn : Turn) (m : Message)
    (s : Server.Session) : List Message :=
  match requestOf (cString m.2) with
  | .extraCommsEnd => [gen (nameBytes "extra_comms_end ok")]
  | .autoupgrade os => if os = [] then [] else turn.package.messages
  | .srestoreOk =>
      match parseIncexcsPath turn.files s.cconf.restorePath s.cconf with
      | none => []
      | some cconf => incexcSendRestore cconf turn.opts
  | .srestoreNotOk => []
  | .sincexcOk => incexcSend .server turn.config
  | .incexc => [gen (nameBytes "incexc ok")]
  | .countersok => []
  | .origClient name =>
      match load name with
      | none => [(.error, inBuffer (nameBytes "Could not load alternate config: " ++ name))]
      | some sconf =>
          if sconf.rclients.contains s.client then
            match (Server.switchTo load (turn.arrival m) name s).2 with
            | .goOn => [gen (nameBytes "orig_client ok")]
            | _ => []
          else [(.error, inBuffer (nameBytes "Access to client is not allowed: " ++ name))]
  | .unexpected => []

/-- What is said to a message, wherever `extra_comms` is reading. -/
def replies (load : Bytes → Option ClientConf) (turn : Turn) (m : Message) (s : Server.Session) :
    List Message :=
  match s.reading with
  | .loop => if m.1 = .gen then requestSays load turn m s else []
  | .incexc =>
      if m.1 = .gen ∧ cString m.2 = nameBytes "incexc end" then [gen (nameBytes "incexc end ok")]
      else []
  | .sending _ => []

namespace ServerSide

variable (p : ServerSide)

/-- The session as the loop of `extra_comms` finds it. -/
def start : Server.Session := Server.start p.cliVer p.client p.cconf

/-- Before the first message. -/
def first : Serving where
  stage :=
    if p.cliVer < 0 then .fails
    -- clients before 1.2.7 did not know how to do extra comms
    else if p.cliVer < minVer then .asked p.start
    else .begins

/-- The stage after a message, and what is said to it. -/
def answer (t : Serving) (m : Message) : Serving × List Message :=
  let turn := p.turns t.turn
  match t.stage with
  | .begins =>
      if m.1 = .gen ∧ cString m.2 = nameBytes "extra_comms_begin" then
        (⟨t.turn + 1, .talks p.start⟩, [gen (featureText p.cliVer turn p.start.cconf)])
      else (⟨t.turn + 1, .fails⟩, [])
  | .talks s =>
      (⟨t.turn + 1, stageAfter (Server.step p.load (turn.arrival m) s)⟩, replies p.load turn m s)
  | .asked s =>
      let answer := child turn.around s.cconf m.1 m.2
      (⟨t.turn + 1, .acts s answer⟩, answer.said)
  | .acts s answer => (⟨t.turn + 1, .acts s answer⟩, [])
  | .fails => (⟨t.turn + 1, .fails⟩, [])

def ended (t : Serving) : Bool :=
  match t.stage with
  | .acts _ _ => true
  | .fails => true
  | _ => false

/-- `extra_comms` and `child`.  Without a connection `extra_comms` fails; `child` does not look. -/
def answerer : Answerer Serving Message where
  answer := p.answer
  ended := ended
  lost := fun t =>
    match t.stage with
    | .acts s answer => ⟨t.turn, .acts s answer⟩
    | _ => ⟨t.turn, .fails⟩

end ServerSide

/-! ## §3. One answer. -/

section Answers

variable {p : ServerSide} {t : Serving} {s : Server.Session} {m : Message} {n : Nat}

theorem answers_one (h : ServerSide.ended t = false) (m : Message) :
    p.answerer.answers t [m] = p.answer t m :=
  answers_single (b := p.answerer) h m

theorem answer_begins :
    p.answer ⟨n, .begins⟩ (gen (nameBytes "extra_comms_begin"))
      = (⟨n + 1, .talks p.start⟩,
          [gen (featureText p.cliVer (p.turns n) p.start.cconf)]) := by
  have hbegin : (gen (nameBytes "extra_comms_begin")).1 = Cmd.gen
      ∧ cString (gen (nameBytes "extra_comms_begin")).2 = nameBytes "extra_comms_begin" :=
    ⟨rfl, by decide⟩
  unfold ServerSide.answer
  dsimp only
  rw [if_pos hbegin]

/-- **An answer in the loop**, and where it leads to. -/
theorem answer_loop (hreading : s.reading = .loop) (n : Nat) (text : Bytes) :
    p.answer ⟨n, .talks s⟩ (gen text)
      = (⟨n + 1, stageAfter (Server.answerRequest p.load ((p.turns n).arrival (gen text)) s)⟩,
        requestSays p.load (p.turns n) (gen text) s) := by
  unfold ServerSide.answer Server.step replies
  dsimp only
  rw [hreading]
  rfl

/-- The texts of requests that have no argument. -/
theorem requests_known :
    requestOf (cString (nameBytes "countersok")) = .countersok
      ∧ requestOf (cString (nameBytes "srestore not ok")) = .srestoreNotOk
      ∧ requestOf (cString (nameBytes "srestore ok")) = .srestoreOk
      ∧ requestOf (cString (nameBytes "sincexc ok")) = .sincexcOk
      ∧ requestOf (cString (nameBytes "incexc")) = .incexc
      ∧ requestOf (cString (nameBytes "extra_comms_end")) = .extraCommsEnd := by
  decide

/-- A request in the loop. -/
theorem answer_request (hreading : s.reading = .loop) (n : Nat) {text : Bytes} {r : Server.Request}
    (hr : requestOf (cString text) = r) {q : Server.Session × Server.Step} {out : List Message}
    (hq : ∀ a : Arrival, a.files = (p.turns n).files → a.upgrade = (p.turns n).package.upgrade →
      a.writes = true → requestOf (cString a.buf) = r → Server.answerRequest p.load a s = q)
    (hout : ∀ m : Message, requestOf (cString m.2) = r → requestSays p.load (p.turns n) m s = out) :
    p.answer ⟨n, .talks s⟩ (gen text) = (⟨n + 1, stageAfter q⟩, out) := by
  rw [answer_loop hreading, hq ((p.turns n).arrival (gen text)) rfl rfl rfl hr, hout (gen text) hr]

theorem answer_countersok (n : Nat) (hreading : s.reading = .loop) :
    p.answer ⟨n, .talks s⟩ (gen (nameBytes "countersok"))
      = (⟨n + 1, .talks { s with cconf := { s.cconf with sendClientCounters := true } }⟩, []) :=
  answer_request hreading n requests_known.1
    (fun a _ _ _ ha => by rw [Server.answerRequest, ha]) fun m hm => by rw [requestSays, hm]

theorem answer_notOk (n : Nat) (hreading : s.reading = .loop) :
    p.answer ⟨n, .talks s⟩ (gen (nameBytes "srestore not ok"))
      = (⟨n + 1, .talks { s with cconf := { s.cconf with restorePath := none } }⟩, []) :=
  answer_request hreading n requests_known.2.1
    (fun a _ _ _ ha => by rw [Server.answerRequest, ha]) fun m hm => by rw [requestSays, hm]

theorem answer_sincexc (n : Nat) (hreading : s.reading = .loop) :
    p.answer ⟨n, .talks s⟩ (gen (nameBytes "sincexc ok"))
      = (⟨n + 1, .talks { s with reading := .sending (nameBytes "sincexc end ok") }⟩,
        incexcSend .server (p.turns n).config) :=
  answer_request hreading n requests_known.2.2.2.1
    (fun a _ _ hw ha => by rw [Server.answerRequest, ha]; dsimp only; rw [hw, if_pos rfl])
    fun m hm => by rw [requestSays, hm]

theorem answer_incexc (n : Nat) (hreading : s.reading = .loop) :
    p.answer ⟨n, .talks s⟩ (gen (nameBytes "incexc"))
      = (⟨n + 1, .talks { s with incexc := none, reading := .incexc }⟩,
        [gen (nameBytes "incexc ok")]) :=
  answer_request hreading n requests_known.2.2.2.2.1
    (fun a _ _ hw ha => by rw [Server.answerRequest, ha]; dsimp only; rw [hw, if_pos rfl])
    fun m hm => by rw [requestSays, hm]

theorem answer_end (n : Nat) (hreading : s.reading = .loop) :
    p.answer ⟨n, .talks s⟩ (gen (nameBytes "extra_comms_end"))
      = (⟨n + 1, .asked s⟩, [gen (nameBytes "extra_comms_end ok")]) :=
  answer_request hreading n requests_known.2.2.2.2.2
    (fun a _ _ hw ha => by rw [Server.answerRequest, ha]; dsimp only; rw [hw, if_pos rfl])
    fun m hm => by rw [requestSays, hm]

/-- The restore file that cannot be read, ... -/
theorem answer_srestore_none (n : Nat) (hreading : s.reading = .loop)
    (hparse : parseIncexcsPath (p.turns n).files s.cconf.restorePath s.cconf = none) :
    p.answer ⟨n, .talks s⟩ (gen (nameBytes "srestore ok")) = (⟨n + 1, .fails⟩, []) :=
  answer_request hreading n requests_known.2.2.1 (q := ({ s with srestore := true }, .error))
    (fun a hf _ _ ha => by rw [Server.answerRequest, ha]; dsimp only; rw [hf, hparse])
    fun m hm => by rw [requestSays, hm]; dsimp only; rw [hparse]

/-- ... and the one that can be: it is sent as it is then. -/
theorem answer_srestore (n : Nat) (hreading : s.reading = .loop) {cconf : ClientConf}
    (hparse : parseIncexcsPath (p.turns n).files s.cconf.restorePath s.cconf = some cconf) :
    p.answer ⟨n, .talks s⟩ (gen (nameBytes "srestore ok"))
      = (⟨n + 1, .talks { s with
            srestore := true
            cconf := cconf
            reading := .sending (nameBytes "srestore end ok") }⟩,
        incexcSendRestore cconf (p.turns n).opts) := by
  refine answer_request hreading n requests_known.2.2.1 (q := (_, .goOn)) (fun a hf _ hw ha => ?_)
    fun m hm => ?_
  · rw [Server.answerRequest, ha]
    dsimp only
    rw [hf, hparse]
    dsimp only
    rw [hw, if_pos rfl]
  · rw [requestSays, hm]
    dsimp only
    rw [hparse]

/-- A switch that is allowed, and goes on. -/
theorem answer_switch (n : Nat) (hreading : s.reading = .loop) {text name : Bytes}
    {sconf cconf : ClientConf} (hr : requestOf (cString text) = .origClient name)
    (hload : p.load name = some sconf) (hallowed : sconf.rclients.contains s.client = true)
    (hparse : (if s.srestore then
        parseIncexcsPath (p.turns n).files s.cconf.restorePath (Server.switchedConf s name sconf)
      else some (Server.switchedConf s name sconf)) = some cconf) :
    p.answer ⟨n, .talks s⟩ (gen text)
      = (⟨n + 1, .talks { s with client := name, cconf := cconf }⟩,
        [gen (nameBytes "orig_client ok")]) := by
  have hswitch : ∀ a : Arrival, a.files = (p.turns n).files → a.writes = true →
      Server.switchTo p.load a name s = ({ s with client := name, cconf := cconf }, .goOn) := by
    intro a hf hw
    unfold Server.switchTo
    rw [hload]
    dsimp only
    rw [if_pos hallowed, hf, hparse]
    dsimp only
    rw [hw, if_pos rfl]
  refine answer_request hreading n hr (q := (_, .goOn)) (fun a hf _ hw ha => ?_) fun m hm => ?_
  · rw [Server.answerRequest, ha]
    exact hswitch a hf hw
  · rw [requestSays, hm]
    dsimp only
    rw [hload]
    dsimp only
    rw [if_pos hallowed, hswitch _ rfl rfl]

/-- A list of the client, with one more line. -/
def addLine (incexc : Option Bytes) (line : Bytes) : Bytes :=
  match incexc with
  | none => line
  | some b => b ++ 10 :: line

/-- What is read while a list comes in. -/
theorem answer_line (n : Nat) (hreading : s.reading = .incexc) {text : Bytes}
    (hend : cString text ≠ nameBytes "incexc end") :
    p.answer ⟨n, .talks s⟩ (gen text)
      = (⟨n + 1, .talks { s with incexc := some (addLine s.incexc (cString text)) }⟩, []) := by
  have hstep : Server.step p.load ((p.turns n).arrival (gen text)) s
      = ({ s with incexc := some (addLine s.incexc (cString text)) }, .goOn) := by
    have hcmd : ¬ ((p.turns n).arrival (gen text)).cmd ≠ Cmd.gen := fun h => h rfl
    have hbuf : cString ((p.turns n).arrival (gen text)).buf ≠ nameBytes "incexc end" := hend
    unfold Server.step Server.incexcRecv
    rw [hreading]
    dsimp only
    rw [if_neg hcmd, if_neg hbuf]
    rfl
  have hsays : replies p.load (p.turns n) (gen text) s = [] := by
    unfold replies
    rw [hreading]
    exact if_neg fun h => hend h.2
  unfold ServerSide.answer
  dsimp only
  rw [hstep, hsays]
  rfl

theorem answer_incexcEnd (n : Nat) (hreading : s.reading = .incexc) :
    p.answer ⟨n, .talks s⟩ (gen (nameBytes "incexc end"))
      = (⟨n + 1, .talks { s with incexc := s.incexc.map (· ++ [10]), reading := .loop }⟩,
        [gen (nameBytes "incexc end ok")]) := by
  have htext : cString (nameBytes "incexc end") = nameBytes "incexc end" := by decide
  have hstep : Server.step p.load ((p.turns n).arrival (gen (nameBytes "incexc end"))) s
      = ({ s with incexc := s.incexc.map (· ++ [10]), reading := .loop }, .goOn) := by
    have hcmd : ¬ ((p.turns n).arrival (gen (nameBytes "incexc end"))).cmd ≠ Cmd.gen := fun h => h rfl
    have hbuf : cString ((p.turns n).arrival (gen (nameBytes "incexc end"))).buf
        = nameBytes "incexc end" := htext
    unfold Server.step Server.incexcRecv
    rw [hreading]
    dsimp only
    rw [if_neg hcmd, if_pos hbuf]
    rfl
  have hsays : replies p.load (p.turns n) (gen (nameBytes "incexc end")) s
      = [gen (nameBytes "incexc end ok")] := by
    unfold replies
    rw [hreading]
    exact if_pos ⟨rfl, htext⟩
  unfold ServerSide.answer
  dsimp only
  rw [hstep, hsays]
  rfl

/-- The end of a list that the server has sent. -/
theorem answer_endOk (n : Nat) {endrepstr : Bytes} (hreading : s.reading = .sending endrepstr)
    (hzero : 0 ∉ endrepstr) :
    p.answer ⟨n, .talks s⟩ (gen endrepstr) = (⟨n + 1, .talks { s with reading := .loop }⟩, []) := by
  have hstep : Server.step p.load ((p.turns n).arrival (gen endrepstr)) s
      = ({ s with reading := .loop }, .goOn) := by
    unfold Server.step
    rw [hreading]
    exact if_pos ⟨rfl, Store.cString_of_notMem hzero⟩
  have hsays : replies p.load (p.turns n) (gen endrepstr) s = [] := by
    unfold replies
    rw [hreading]
  unfold ServerSide.answer
  dsimp only
  rw [hstep, hsays]
  rfl

theorem answer_asked (n : Nat) (s : Server.Session) (m : Message) :
    p.answer ⟨n, .asked s⟩ m
      = (⟨n + 1, .acts s (child (p.turns n).around s.cconf m.1 m.2)⟩,
        (child (p.turns n).around s.cconf m.1 m.2).said) :=
  rfl

/-- The server has answered the request. -/
def Told (t : Serving) : Prop := ∃ s a, t.stage = .acts s a ∧ a.said ≠ []

/-- **A request that has been answered** is the last one. -/
theorem lastWord_serving (p : ServerSide) : p.answerer.LastWord Told := by
  refine ⟨?_, ?_, ?_⟩
  · rintro t ⟨s, a, hstage, -⟩
    show ServerSide.ended t = true
    rw [ServerSide.ended, hstage]
  · rintro ⟨n, stage⟩ m hended ⟨s, a, hstage, hsaid⟩
    cases stage with
    | begins =>
        change (p.answer ⟨n, .begins⟩ m).1.stage = _ at hstage
        unfold ServerSide.answer at hstage
        dsimp only at hstage
        split_ifs at hstage
    | talks s' =>
        change stageAfter (Server.step p.load ((p.turns n).arrival m) s') = _ at hstage
        unfold stageAfter at hstage
        split at hstage
        all_goals exact absurd hstage nofun
    | asked s' =>
        obtain ⟨rfl, rfl⟩ := Stage.acts.inj hstage
        exact hsaid
    | acts s' a' => exact absurd hended nofun
    | fails => exact absurd hended nofun
  · rintro ⟨n, stage⟩
    cases stage <;> rfl

end Answers

end Burp.Session
