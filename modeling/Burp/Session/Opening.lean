/-
  Burp.Session.Opening — how a client and a server open a session.

  Whatever a client of this version is started for, it first agrees with the server on a number of
  things: whose files it is about, who sets the include lists, whether the server has started a
  restore, and whether there will be counters.  Then it asks, and the server does what it is
  asked for or refuses.

  Main results:
    * `OnTrack.step` — what is true of a conversation stays true.
    * `session_agrees` — a client that goes on and its server agree on everything.
-/
import Burp.Session.Lists
import Burp.Session.Requests

namespace Burp.Session

open Dialogue FileSystem
open Burp.Phase2 (nameBytes)
open Burp.Conf (Config Loaded Loading endreqstr incexcRecv incexcSend recvLoop)
open Burp.Restore (Message)
open Burp.Server (Answer ClientConf child featListVer inBuffer minVer parseIncexcsPath requestOf)
open Burp.Store (cString Cmd)

/-! ## §1. What they agree on. -/

/-- A server that lists its features, with configurations that have been loaded. -/
structure ServerSide.Lists (p : ServerSide) : Prop where
  version : minVer ≤ p.cliVer
  features : p.cliVer ≠ featListVer
  counters : p.cconf.sendClientCounters = false
  loaded : ∀ n, Loaded (p.turns n).config

/-- A question for an upgrade that names no system, which the server does not answer. -/
def Unanswered (conf : OwnConf) : Prop := ∃ os, conf.autoupgradeOs = some os ∧ cString os = []

/-- The client gives its counters and its include lists to this server. -/
def Listed (feat : Bytes) : Prop :=
  nameBytes ":counters:" <:+: feat ∧ nameBytes ":incexc:" <:+: feat

/-- The name as the server gets it, after "orig_client=" in a buffer of 512 bytes. -/
def nameSaid (name : Bytes) : Bytes := cString (name.take 499)

/-- Whose files it is about. -/
def whoseFiles (p : ServerSide) (origClient : Option Bytes) : Bytes :=
  origClient.elim p.client nameSaid

/-- The include lists of the client, as the server keeps them. -/
def incexcText (config : Config) : Option Bytes :=
  (incexcRecv .client (incexcSend .client config)).2

/-- What the server knows. -/
structure Knows (who : Bytes) (counted restored : Bool) (incexc : Option Bytes)
    (s : Server.Session) : Prop where
  client : s.client = who
  counters : s.cconf.sendClientCounters = counted
  srestore : s.srestore = restored
  incexc : s.incexc = incexc

variable (p : ServerSide) (load : Bytes → Loading → Option Loading) (act₀ : Action) (conf₀ : OwnConf)

/-- What the client is doing: what it was started for, with its own include lists or those of the
server, unless the server has started a restore. -/
structure Doing (restored asked : Bool) (act : Action) (config : Config) (feat : Bytes) :
    Prop where
  act : act = if restored then .restore else act₀
  config : restored = false → config = conf₀.config
    ∨ asked = true ∧ ∃ n, Conf.transfer load .server conf₀.config (p.turns n).config = some config
  listed : Listed feat

/-- At the end of `extra_comms`. -/
structure Settled (restored : Bool) (act : Action) (conf : OwnConf) (feat : Bytes)
    (s : Server.Session) : Prop where
  knows : Knows (whoseFiles p conf.origClient) true restored (incexcText conf.config) s
  doing : Doing p load act₀ conf₀ restored true act conf.config feat
  counters : conf.sendClientCounters = true

abbrev Does (restored asked : Bool) (c : Client) : Prop :=
  Doing p load act₀ conf₀ restored asked c.act c.conf.config c.feat

abbrev Settles (restored : Bool) (c : Client) (s : Server.Session) : Prop :=
  Settled p load act₀ conf₀ restored c.act c.conf c.feat s

/-! ## §2. What is true of a conversation. -/

/-- The server is in the loop of `extra_comms`, or in one of its transfers. -/
def Talks (reading : Server.Reading) (coming : List Message) (K : Server.Session → Prop)
    (v : Asked Client Serving Message) : Prop :=
  v.coming = coming ∧ ∃ n s, v.state = ⟨n, .talks s⟩ ∧ s.reading = reading ∧ K s

/-- The server has failed, and has nothing to say to a client that waits for an answer. -/
def Dead (v : Asked Client Serving Message) : Prop :=
  v.state.stage = .fails ∧ v.coming = [] ∧ ∀ op, v.left.point ≠ .goes op

/-- What the server knows while a list is on its way to the client. -/
def KnowsFor (which : ListKind) (origClient : Option Bytes) : Server.Session → Prop :=
  match which with
  | .srestore => Knows p.client false true none
  | .sincexc => Knows (whoseFiles p origClient) false false none

/-- The lines that are still coming, after what has been received. -/
structure Coming (which : ListKind) (got : Option Bytes) (lines : List Bytes) : Prop where
  sent : ∀ b ∈ lines, IsSent b
  srestore : which = .srestore → lines ≠ [] ∨ got ≠ none
  sincexc : which = .sincexc → ∃ n, recvLoop (endreqstr .server) got
      (lines.map gen ++ [gen which.endreqstr])
    = recvLoop (endreqstr .server) none (incexcSend .server (p.turns n).config)

/-- All lines have been received. -/
structure AllCome (which : ListKind) (got : Option Bytes) : Prop where
  srestore : which = .srestore → got ≠ none
  sincexc : which = .sincexc → ∃ n,
    recvLoop (endreqstr .server) none (incexcSend .server (p.turns n).config) = (true, got)

/-- What is true of a conversation with a server that has not failed, from where the client is. -/
def Alive (v : Asked Client Serving Message) : Prop :=
  let c := v.left
  let who := whoseFiles p c.conf.origClient
  match c.point with
  | .begins => v.state.stage = .begins ∧ v.coming = [] ∧ c.act = act₀ ∧ c.conf = conf₀
  | .hearsFeatures =>
      ∃ feat, Listed (cString feat)
        ∧ Talks .loop [gen feat] (Knows p.client false false none) v
        ∧ c.act = act₀ ∧ c.conf = conf₀
  | .upgrade =>
      Talks .loop [] (Knows p.client false false none) v
        ∧ Does p load act₀ conf₀ false false c ∧ c.conf = conf₀
  | .hearsUpgrade =>
      Does p load act₀ conf₀ false false c
        ∧ ((∃ out, (out = [] ∧ Unanswered conf₀ ∨ out = [gen (nameBytes "do not autoupgrade")])
            ∧ Talks .loop out (Knows p.client false false none) v)
          ∨ v.state.stage = .fails ∧ (v.coming = [gen (nameBytes "do not autoupgrade")]
            ∨ ∃ ms, v.coming = gen (nameBytes "autoupgrade ok") :: ms))
  | .restore =>
      Talks .loop [] (Knows p.client false false none) v ∧ Does p load act₀ conf₀ false false c
  | .receives which =>
      Does p load act₀ conf₀ false false c ∧ ∃ lines : List Bytes, Coming p which c.incexc lines
        ∧ Talks (.sending which.endrepstr) (lines.map gen ++ [gen which.endreqstr])
          (KnowsFor p which c.conf.origClient) v
  | .endsList which =>
      Does p load act₀ conf₀ false false c ∧ AllCome p which c.incexc
        ∧ Talks (.sending which.endrepstr) [] (KnowsFor p which c.conf.origClient) v
  | .parses which =>
      Does p load act₀ conf₀ false false c ∧ (∃ got, AllCome p which got
          ∧ c.incexc = got.map fun b => Conf.prepend b [10] [])
        ∧ Talks .loop [] (KnowsFor p which c.conf.origClient) v
  | .switch =>
      ∃ restored, Talks .loop [] (Knows p.client false restored none) v
        ∧ Does p load act₀ conf₀ restored false c
  | .hearsSwitch =>
      ∃ restored, Does p load act₀ conf₀ restored false c
        ∧ (Talks .loop [gen (nameBytes "orig_client ok")] (Knows who false restored none) v
          ∨ v.state.stage = .fails ∧ ∀ m ∈ v.coming, m.1 ≠ .gen)
  | .includes =>
      ∃ restored, Talks .loop [] (Knows who false restored none) v
        ∧ Does p load act₀ conf₀ restored false c
  | .counters =>
      ∃ restored, Talks .loop [] (Knows who false restored none) v
        ∧ Does p load act₀ conf₀ restored true c
  | .incexc =>
      ∃ restored, Talks .loop [] (Knows who true restored none) v
        ∧ Does p load act₀ conf₀ restored true c ∧ c.conf.sendClientCounters = true
  | .hearsIncexc =>
      ∃ restored, Talks .incexc [gen (nameBytes "incexc ok")] (Knows who true restored none) v
        ∧ Does p load act₀ conf₀ restored true c ∧ c.conf.sendClientCounters = true
  | .sendsIncexc todo =>
      ∃ restored, Does p load act₀ conf₀ restored true c ∧ c.conf.sendClientCounters = true
        ∧ (todo = [] ∧ Talks .loop [gen (nameBytes "incexc end ok")]
              (Knows who true restored (incexcText c.conf.config)) v
          ∨ ∃ (lines : List Bytes) (got : Option Bytes), todo = lines.map gen ++ [gen (endreqstr .client)]
            ∧ (∀ b ∈ lines, IsSent b) ∧ Talks .incexc [] (Knows who true restored got) v
            ∧ recvLoop (endreqstr .client) got todo
              = recvLoop (endreqstr .client) none (incexcSend .client c.conf.config))
  | .hearsIncexcEnd =>
      ∃ restored, Talks .loop [gen (nameBytes "incexc end ok")] (Settles p load act₀ conf₀ restored c) v
  | .ends => ∃ restored, Talks .loop [] (Settles p load act₀ conf₀ restored c) v
  | .hearsEnd =>
      v.coming = [gen (nameBytes "extra_comms_end ok")]
        ∧ ∃ restored n s, v.state = ⟨n, .asked s⟩ ∧ Settles p load act₀ conf₀ restored c s
  | .asks =>
      v.coming = [] ∧ ∃ restored n s, v.state = ⟨n, .asked s⟩ ∧ Settles p load act₀ conf₀ restored c s
  | .hearsAnswer =>
      ∃ restored n s, v.state.stage = .acts s (child (p.turns n).around s.cconf .gen c.request)
        ∧ v.coming = (child (p.turns n).around s.cconf .gen c.request).said
        ∧ Settles p load act₀ conf₀ restored c s
  | .goes op =>
      v.coming = [] ∧ ∃ restored n s, v.state.stage
          = .acts s (child (p.turns n).around s.cconf .gen c.request)
        ∧ (child (p.turns n).around s.cconf .gen c.request).said ≠ []
        ∧ Serves c.act c.conf s.cconf (child (p.turns n).around s.cconf .gen c.request) op
        ∧ Settles p load act₀ conf₀ restored c s
  | .upgrades => True
  | .done _ => True

/-- What is true of a conversation. -/
def OnTrack (v : Asked Client Serving Message) : Prop := Dead v ∨ Alive p load act₀ conf₀ v

variable {p load act₀ conf₀}

section Step

variable {v v' : Asked Client Serving Message} {c : Client} {s : Server.Session} {n : Nat}
  {who : Bytes} {counted restored asked : Bool} {incexc : Option Bytes}

/-! ### The server has failed. -/

theorem Dead.step (h : Dead v) (hs : Ask (doClient load) p.answerer v v') : Dead v' := by
  obtain ⟨hstage, hcoming, -⟩ := h
  have hended : p.answerer.ended v.state = true := by
    show ServerSide.ended v.state = true
    rw [ServerSide.ended, hstage]
  cases hs with
  | act ha => exact ⟨hstage, hcoming, fun _ => goes_only_after_answer (Or.inl ha)⟩
  | say ha =>
      refine ⟨?_, ?_, fun _ => goes_only_after_answer (Or.inr ⟨_, _, ha⟩)⟩
      · show (p.answerer.answers v.state _).1.stage = _
        rw [answers_ended hended]
        exact hstage
      · show v.coming ++ (p.answerer.answers v.state _).2 = _
        rw [answers_ended hended, hcoming]
        rfl
  | hear _ hm =>
      rw [hcoming] at hm
      cases hm

/-! ### One answer. -/

/-- The client says something to a server in the loop, or in one of its transfers. -/
theorem Talks.say {reading : Server.Reading} {coming : List Message} {K : Server.Session → Prop}
    {m : Message} {f : Client} (h : Talks reading coming K v)
    (ha : doClient load v.left = .say m c f) (hs : Ask (doClient load) p.answerer v v') :
    ∃ n s, s.reading = reading ∧ K s
      ∧ v' = ⟨c, (p.answer ⟨n, .talks s⟩ m).1, coming ++ (p.answer ⟨n, .talks s⟩ m).2⟩ := by
  obtain ⟨hcoming, n, s, hstate, hreading, hK⟩ := h
  have hone : p.answerer.answers ⟨n, .talks s⟩ [m] = p.answer ⟨n, .talks s⟩ m := answers_one rfl m
  have heq := hs.of_say ha
  rw [hstate, hcoming, hone] at heq
  exact ⟨n, s, hreading, hK, heq⟩

theorem Talks.act {reading : Server.Reading} {coming : List Message} {K : Server.Session → Prop}
    (h : Talks reading coming K v) (c : Client) : Talks reading coming K { v with left := c } := h

/-- The client hears something. -/
theorem Talks.hear {reading : Server.Reading} {coming : List Message} {K : Server.Session → Prop}
    {k : Option Message → Client} (h : Talks reading coming K v) (ha : doClient load v.left = .hear k)
    (hs : Ask (doClient load) p.answerer v v') :
    ∃ m ms, coming = m :: ms ∧ v'.left = k (some m) ∧ Talks reading ms K v' := by
  obtain ⟨hcoming, hstate⟩ := h
  obtain ⟨m, ms, hm, rfl⟩ := hs.of_hear ha
  exact ⟨m, ms, hcoming.symm.trans hm, rfl, rfl, hstate⟩

theorem expects_text {text : Bytes} {next : ClientAt} (h : cString text = text) :
    c.expects text next (some (gen text)) = { c with point := next } :=
  if_pos ⟨rfl, h⟩

theorem supports_eq {wanted : String} (h : nameBytes wanted <:+: c.feat) : c.supports wanted = true :=
  decide_eq_true h

/-! ### The features. -/

/-- The texts that the two exchange, and the beginnings of those that end with something else. -/
def openingTexts : List String :=
  ["srestore:", "sincexc:", "counters:", "autoupgrade:", "do not autoupgrade", "autoupgrade ok",
    "srestore end", "srestore end ok", "orig_client=", "orig_client ok", "sincexc end",
    "sincexc end ok", "incexc ok", "incexc end ok", "extra_comms_end ok"]

theorem openingTexts_ok :
    ∀ x ∈ openingTexts, 0 ∉ nameBytes x ∧ (nameBytes x).length ≤ 255 := by
  decide

theorem cString_text {x : String} (h : x ∈ openingTexts) : cString (nameBytes x) = nameBytes x :=
  Store.cString_of_notMem (openingTexts_ok x h).1

/-- The features that are there in any case. -/
theorem fixed_features :
    0 ∉ nameBytes "extra_comms_begin ok:autoupgrade:incexc:orig_client:"
      ∧ nameBytes ":incexc:" <:+: nameBytes "extra_comms_begin ok:autoupgrade:incexc:orig_client:"
      ∧ (nameBytes "extra_comms_begin ok:autoupgrade:incexc:orig_client:").getLast? = some 58 := by
  decide

/-- The others, each of which ends as the ones before it do. -/
theorem other_features :
    ∀ x ∈ ["srestore:", "sincexc:"], 0 ∉ nameBytes x ∧ (nameBytes x).getLast? = some 58 := by
  decide

theorem feature_append {b : Bytes} {x : String} (hx : x ∈ ["srestore:", "sincexc:"]) (q : Prop)
    [Decidable q] (h : 0 ∉ b ∧ b.getLast? = some 58) :
    0 ∉ b ++ (if q then nameBytes x else []) ∧ (b ++ if q then nameBytes x else []).getLast? = some 58 := by
  obtain ⟨hzero, hlast⟩ := other_features x hx
  split_ifs
  · refine ⟨fun hmem => (List.mem_append.mp hmem).elim h.1 hzero, ?_⟩
    rw [List.getLast?_append, hlast]
    rfl
  · rw [List.append_nil]
    exact h

/-- The last feature, after another one. -/
theorem counters_listed {b : Bytes} (h : 0 ∉ b ∧ b.getLast? = some 58) :
    cString (b ++ nameBytes "counters:") = b ++ nameBytes "counters:"
      ∧ nameBytes ":counters:" <:+: b ++ nameBytes "counters:" := by
  have hzero := (openingTexts_ok "counters:" (by simp [openingTexts])).1
  refine ⟨Store.cString_of_notMem fun hmem => (List.mem_append.mp hmem).elim h.1 hzero, ?_⟩
  obtain ⟨front, rfl⟩ := List.getLast?_eq_some_iff.mp h.2
  exact ⟨front, [], by rw [List.append_nil, List.append_assoc]; rfl⟩

theorem listed_featureText {cliVer : Int} (h : cliVer ≠ featListVer) (turn : Turn)
    (cconf : ClientConf) : Listed (cString (featureText cliVer turn cconf)) := by
  obtain ⟨hzero, hincexc, hlast⟩ := fixed_features
  have hfeatures := feature_append (.head _) (turn.initiates cconf.restorePath = true) ⟨hzero, hlast⟩
  have hall := feature_append (.tail _ (.head _)) (turn.config.startdir ≠ []) hfeatures
  obtain ⟨htext, hcounters⟩ := counters_listed hall
  rw [featureText, if_neg h, ← List.append_assoc, ← List.append_assoc, htext]
  refine ⟨hcounters, hincexc.trans ?_⟩
  rw [List.append_assoc, List.append_assoc]
  exact (List.prefix_append _ _).isInfix

theorem knows_start (hp : p.Lists) : Knows p.client false false none p.start := by
  refine ⟨rfl, ?_, rfl, rfl⟩
  show (Server.prepare p.cliVer p.client p.cconf).sendClientCounters = false
  rw [← hp.counters]
  unfold Server.prepare
  split_ifs <;> rfl

theorem step_begins (hp : p.Lists) (hpoint : v.left.point = .begins)
    (h : Alive p load act₀ conf₀ v) (hs : Ask (doClient load) p.answerer v v') :
    Alive p load act₀ conf₀ v' := by
  obtain ⟨⟨point, act, conf, feat, incexc⟩, ⟨n, stage⟩, coming⟩ := v
  obtain rfl : point = .begins := hpoint
  obtain ⟨rfl, rfl, hact, hconf⟩ := h
  have hone : p.answerer.answers ⟨n, .begins⟩ [gen (nameBytes "extra_comms_begin")]
      = (⟨n + 1, .talks p.start⟩, [gen (featureText p.cliVer (p.turns n) p.start.cconf)]) :=
    (answers_one rfl _).trans answer_begins
  have ha : doClient load ⟨.begins, act, conf, feat, incexc⟩ = .say (gen (nameBytes "extra_comms_begin"))
      ⟨.hearsFeatures, act, conf, feat, incexc⟩ ⟨.done (-1), act, conf, feat, incexc⟩ := rfl
  have heq := hs.of_say ha
  rw [hone] at heq
  subst heq
  exact ⟨_, listed_featureText hp.features _ _, ⟨rfl, _, _, rfl, rfl, knows_start hp⟩, hact, hconf⟩

theorem step_hearsFeatures (hpoint : v.left.point = .hearsFeatures)
    (h : Alive p load act₀ conf₀ v) (hs : Ask (doClient load) p.answerer v v') :
    Alive p load act₀ conf₀ v' := by
  obtain ⟨⟨point, act, conf, feat, incexc⟩, state, coming⟩ := v
  obtain rfl : point = .hearsFeatures := hpoint
  obtain ⟨text, hlisted, htalks, hact, hconf⟩ := h
  obtain ⟨m, ms, hm, hleft, htalks⟩ := htalks.hear rfl hs
  obtain ⟨⟨⟩, rfl⟩ := List.cons.inj hm
  obtain ⟨left, state', coming'⟩ := v'
  obtain rfl : left = _ := hleft
  dsimp only [gen]
  split_ifs
  · exact ⟨htalks, ⟨hact, fun _ => Or.inl (by rw [← hconf]), hlisted⟩, hconf⟩
  · trivial

/-! ### Upgrades and the restore that the server has started. -/

/-- The question for an upgrade, in a buffer of 256 bytes. -/
theorem requestOf_upgrade (os : Bytes) :
    requestOf (cString (inBuffer (nameBytes "autoupgrade:" ++ os)))
      = .autoupgrade (cString (os.take 243)) := by
  have htext : cString (inBuffer (nameBytes "autoupgrade:" ++ os))
      = nameBytes "autoupgrade:" ++ cString (os.take 243) := by
    obtain ⟨hzero, hsize⟩ := openingTexts_ok "autoupgrade:" (by simp [openingTexts])
    exact cString_take hzero hsize
  have hhead : (nameBytes "autoupgrade:" ++ cString (os.take 243)).head? = some 97 := rfl
  rw [htext, requestOf, if_neg (Server.ne_of_head hhead (d := 101) rfl (by decide)).1,
    if_pos (List.isPrefixOf_iff_prefix.mpr (List.prefix_append _ _)), List.drop_left]

theorem cString_take_eq_nil {os : Bytes} (n : Nat) : cString (os.take (n + 1)) = [] ↔ cString os = [] := by
  cases os with
  | nil => exact Iff.rfl
  | cons x os =>
      by_cases hx : x = 0
      · subst hx
        exact Iff.rfl
      · have hcons : ∀ b : Bytes, cString (x :: b) = x :: cString b := fun b =>
          List.takeWhile_cons_of_pos (by simpa using hx)
        rw [List.take_succ_cons, hcons, hcons]
        exact ⟨fun h => absurd h nofun, fun h => absurd h nofun⟩

/-- What the child does after `autoupgrade_server`. -/
def stepAfter : Server.Upgrade → Server.Step
  | .goOn => .goOn
  | .error => .error
  | .exits => .exits

theorem answerRequest_upgrade {load : Bytes → Option ClientConf} {a : Server.Arrival} {os : Bytes}
    (hos : os ≠ []) (hr : requestOf (cString a.buf) = .autoupgrade os) :
    Server.answerRequest load a s = (s, stepAfter a.upgrade) := by
  rw [Server.answerRequest, hr]
  dsimp only
  rw [if_neg hos]
  cases a.upgrade <;> rfl

/-- The server does not answer a question that names no system, ... -/
theorem answer_unnamed (n : Nat) (hreading : s.reading = .loop) {os : Bytes} (hos : cString os = []) :
    p.answer ⟨n, .talks s⟩ (gen (inBuffer (nameBytes "autoupgrade:" ++ os)))
      = (⟨n + 1, .talks s⟩, []) := by
  have hnil : cString (os.take 243) = [] := (cString_take_eq_nil 242).mpr hos
  refine answer_request hreading n (requestOf_upgrade os) (q := (s, .goOn)) (fun a _ _ _ ha => ?_)
    fun m hm => ?_
  · rw [Server.answerRequest, ha]
    exact if_pos hnil
  · rw [requestSays, hm]
    exact if_pos hnil

/-- ... and what it makes of one that does. -/
theorem answer_upgrade (n : Nat) (hreading : s.reading = .loop) (os : Bytes) :
    ∃ stage out, p.answer ⟨n, .talks s⟩ (gen (inBuffer (nameBytes "autoupgrade:" ++ os)))
        = (⟨n + 1, stage⟩, out)
      ∧ (stage = .talks s ∧ (out = [] ∧ cString os = [] ∨ out = [gen (nameBytes "do not autoupgrade")])
        ∨ stage = .fails ∧ (out = [gen (nameBytes "do not autoupgrade")]
          ∨ ∃ ms, out = gen (nameBytes "autoupgrade ok") :: ms)) := by
  by_cases hnil : cString os = []
  · exact ⟨_, _, answer_unnamed n hreading hnil, Or.inl ⟨rfl, Or.inl ⟨rfl, hnil⟩⟩⟩
  · have hr := requestOf_upgrade os
    have hos : cString (os.take 243) ≠ [] := fun h => hnil ((cString_take_eq_nil 242).mp h)
    generalize cString (os.take 243) = os' at hr hos
    have hanswer : p.answer ⟨n, .talks s⟩ (gen (inBuffer (nameBytes "autoupgrade:" ++ os)))
          = (⟨n + 1, stageAfter (s, stepAfter (p.turns n).package.upgrade)⟩,
            (p.turns n).package.messages) := by
      refine answer_request hreading n hr (fun a _ hu _ ha => ?_) fun m hm => ?_
      · rw [answerRequest_upgrade hos ha, hu]
      · rw [requestSays, hm]
        exact if_neg hos
    cases hpackage : (p.turns n).package with
    | nothing =>
        rw [hpackage] at hanswer
        exact ⟨_, _, hanswer, Or.inl ⟨rfl, Or.inr rfl⟩⟩
    | irregular =>
        rw [hpackage] at hanswer
        exact ⟨_, _, hanswer, Or.inr ⟨rfl, Or.inl rfl⟩⟩
    | files ms whole =>
        rw [hpackage] at hanswer
        cases whole with
        | true => exact ⟨_, _, hanswer, Or.inr ⟨rfl, Or.inr ⟨ms, rfl⟩⟩⟩
        | false => exact ⟨_, _, hanswer, Or.inr ⟨rfl, Or.inr ⟨ms, rfl⟩⟩⟩

theorem step_upgrade (hpoint : v.left.point = .upgrade)
    (h : Alive p load act₀ conf₀ v) (hs : Ask (doClient load) p.answerer v v') :
    Alive p load act₀ conf₀ v' := by
  obtain ⟨⟨point, act, conf, feat, incexc⟩, state, coming⟩ := v
  obtain rfl : point = .upgrade := hpoint
  obtain ⟨htalks, hdoing, hconf⟩ := h
  have hask : ∀ os, conf.autoupgradeOs = some os → doClient load ⟨.upgrade, act, conf, feat, incexc⟩
        = .say (gen (inBuffer (nameBytes "autoupgrade:" ++ os)))
          ⟨.hearsUpgrade, act, conf, feat, incexc⟩ ⟨.done (-1), act, conf, feat, incexc⟩ →
      Alive p load act₀ conf₀ v' := by
    intro os hos ha
    obtain ⟨n, s, hreading, hK, rfl⟩ := htalks.say ha hs
    obtain ⟨stage, out, hanswer, hcases⟩ := answer_upgrade (p := p) n hreading os
    rw [hanswer, List.nil_append]
    refine ⟨hdoing, ?_⟩
    rcases hcases with ⟨rfl, hout⟩ | ⟨rfl, hout⟩
    · refine Or.inl ⟨out, hout.imp_left fun h => ⟨h.1, os, ?_, h.2⟩, rfl, _, _, rfl, hreading, hK⟩
      rw [← hconf]
      exact hos
    · exact Or.inr ⟨rfl, hout⟩
  have hpass : doClient load ⟨.upgrade, act, conf, feat, incexc⟩ = .act ⟨.restore, act, conf, feat, incexc⟩ →
      Alive p load act₀ conf₀ v' := by
    intro ha
    rw [hs.of_act ha]
    exact ⟨htalks, hdoing⟩
  cases hos : conf.autoupgradeOs with
  | none =>
      apply hpass
      unfold doClient
      dsimp only
      rw [hos]
  | some os =>
      cases hsupports : Client.supportsAutoupgrade ⟨.upgrade, act, conf, feat, incexc⟩ with
      | true =>
          apply hask os hos
          unfold doClient
          dsimp only
          rw [hos]
          dsimp only
          rw [hsupports]
          rfl
      | false =>
          apply hpass
          unfold doClient
          dsimp only
          rw [hos]
          dsimp only
          rw [hsupports]
          rfl

theorem step_hearsUpgrade (hpoint : v.left.point = .hearsUpgrade)
    (h : Alive p load act₀ conf₀ v) (hs : Ask (doClient load) p.answerer v v') :
    OnTrack p load act₀ conf₀ v' := by
  obtain ⟨⟨point, act, conf, feat, incexc⟩, state, coming⟩ := v
  obtain rfl : point = .hearsUpgrade := hpoint
  obtain ⟨hdoing, htalks⟩ := h
  obtain ⟨m, ms, hm, rfl⟩ := hs.of_hear (a := doClient load) rfl
  have hno := cString_text (x := "do not autoupgrade") (by simp [openingTexts])
  dsimp only at hm
  rcases htalks with ⟨out, hout, rfl, hstate⟩ | ⟨hstage, hout | ⟨ms', hout⟩⟩
  · rcases hout with ⟨rfl, -⟩ | rfl
    · exact absurd hm nofun
    · obtain ⟨rfl, rfl⟩ := List.cons.inj hm
      dsimp only [gen]
      rw [if_pos ⟨rfl, hno⟩]
      exact Or.inr ⟨⟨rfl, hstate⟩, hdoing⟩
  · obtain ⟨rfl, rfl⟩ := List.cons.inj (hm.symm.trans hout)
    dsimp only [gen]
    rw [if_pos ⟨rfl, hno⟩]
    exact Or.inl ⟨hstage, rfl, nofun⟩
  · obtain ⟨rfl, rfl⟩ := List.cons.inj (hm.symm.trans hout)
    have hok := cString_text (x := "autoupgrade ok") (by simp [openingTexts])
    have hne : ¬ (Cmd.gen = Cmd.gen ∧ cString (nameBytes "autoupgrade ok")
        = nameBytes "do not autoupgrade") := by
      rw [hok]
      exact fun h => absurd (congrArg List.head? h.2) (by decide)
    dsimp only [gen]
    rw [if_neg hne, if_pos ⟨rfl, hok⟩]
    exact Or.inr trivial

/-- The restore file as it is sent. -/
theorem coming_restore (cconf : ClientConf) (o : RestoreOpts) :
    Coming p .srestore none (doSendsRestore cconf o) :=
  ⟨fun _ hb => isSent_doSendsRestore hb, fun _ => Or.inl (doSendsRestore_ne_nil cconf o), nofun⟩

theorem parseIncexcsPath_counters {files : Bytes → Server.AtPath} {path : Option Bytes}
    {cconf cconf' : ClientConf} (h : parseIncexcsPath files path cconf = some cconf') :
    cconf'.sendClientCounters = cconf.sendClientCounters := by
  unfold parseIncexcsPath at h
  split at h
  · cases h
    rfl
  · cases h

theorem step_restore (hpoint : v.left.point = .restore)
    (h : Alive p load act₀ conf₀ v) (hs : Ask (doClient load) p.answerer v v') :
    OnTrack p load act₀ conf₀ v' := by
  obtain ⟨⟨point, act, conf, feat, incexc⟩, state, coming⟩ := v
  obtain rfl : point = .restore := hpoint
  obtain ⟨htalks, hdoing⟩ := h
  cases hsupports : Client.supports ⟨.restore, act, conf, feat, incexc⟩ ":srestore:" with
  | false =>
      have ha : doClient load ⟨.restore, act, conf, feat, incexc⟩ = .act ⟨.switch, act, conf, feat, incexc⟩ := by
        unfold doClient
        dsimp only
        rw [hsupports]
        rfl
      rw [hs.of_act ha]
      exact Or.inr ⟨false, htalks, hdoing⟩
  | true =>
      cases hcan : conf.serverCanRestore with
      | true =>
          have ha : doClient load ⟨.restore, act, conf, feat, incexc⟩
              = .say (gen ListKind.srestore.repstr) ⟨.receives .srestore, act, conf, feat, none⟩
                ⟨.done (-1), act, conf, feat, incexc⟩ := by
            unfold doClient
            dsimp only
            rw [hsupports, hcan]
            rfl
          obtain ⟨n, s, hreading, hK, rfl⟩ := htalks.say ha hs
          cases hparse : parseIncexcsPath (p.turns n).files s.cconf.restorePath s.cconf with
          | none =>
              rw [ListKind.repstr, answer_srestore_none n hreading hparse]
              exact Or.inl ⟨rfl, rfl, nofun⟩
          | some cconf =>
              rw [ListKind.repstr, answer_srestore n hreading hparse]
              have hkeeps := parseIncexcsPath_counters hparse
              refine Or.inr ⟨hdoing, _, coming_restore cconf (p.turns n).opts, ?_, _, _, rfl, rfl, ?_⟩
              · exact List.map_append
              · exact ⟨hK.client, hkeeps.trans hK.counters, rfl, hK.incexc⟩
      | false =>
          have ha : doClient load ⟨.restore, act, conf, feat, incexc⟩
              = .say (gen (nameBytes "srestore not ok")) ⟨.switch, act, conf, feat, incexc⟩
                ⟨.done (-1), act, conf, feat, incexc⟩ := by
            unfold doClient
            dsimp only
            rw [hsupports, hcan]
            rfl
          obtain ⟨n, s, hreading, hK, rfl⟩ := htalks.say ha hs
          rw [answer_notOk n hreading]
          exact Or.inr ⟨false, ⟨rfl, _, _, rfl, hreading, hK.client, hK.counters, hK.srestore,
            hK.incexc⟩, hdoing⟩

/-! ### Lists for the client. -/

theorem IsSent.not_end {b : Bytes} (h : IsSent b) (which : ListKind) : cString b ≠ which.endreqstr := by
  cases which with
  | srestore => exact h.cString_ne.2.2.2
  | sincexc => exact h.cString_ne.2.2.1

theorem Coming.line {which : ListKind} {got : Option Bytes} {b : Bytes} {lines : List Bytes}
    (h : Coming p which got (b :: lines)) :
    Coming p which (some (Conf.prepend (got.getD []) (cString b) (if got.isSome then [10] else [])))
      lines := by
  have hb := h.sent b List.mem_cons_self
  refine ⟨fun b' hb' => h.sent b' (List.mem_cons_of_mem _ hb'), fun _ => Or.inr nofun, fun hw => ?_⟩
  obtain ⟨n, hn⟩ := h.sincexc hw
  exact ⟨n, (recvLoop_gen hb.cString_ne.2.2.1 got _).symm.trans hn⟩

theorem Coming.all {which : ListKind} {got : Option Bytes} (h : Coming p which got []) :
    AllCome p which got := by
  refine ⟨fun hw => (h.srestore hw).resolve_left fun hne => hne rfl, fun hw => ?_⟩
  obtain ⟨n, hn⟩ := h.sincexc hw
  subst hw
  exact ⟨n, hn.symm.trans (recvLoop_end got [])⟩

theorem step_receives {which : ListKind} (hpoint : v.left.point = .receives which)
    (h : Alive p load act₀ conf₀ v) (hs : Ask (doClient load) p.answerer v v') :
    Alive p load act₀ conf₀ v' := by
  obtain ⟨⟨point, act, conf, feat, incexc⟩, state, coming⟩ := v
  obtain rfl : point = .receives which := hpoint
  obtain ⟨hdoing, lines, hcoming, htalks⟩ := h
  obtain ⟨m, ms, hm, hleft, htalks⟩ := htalks.hear (k := receivesLine which _) rfl hs
  obtain ⟨left, state', coming'⟩ := v'
  obtain rfl : left = _ := hleft
  cases lines with
  | nil =>
      obtain ⟨rfl, rfl⟩ := List.cons.inj hm
      have hend : cString which.endreqstr = which.endreqstr := by
        cases which with
        | srestore => exact cString_text (x := "srestore end") (by simp [openingTexts])
        | sincexc => exact cString_text (x := "sincexc end") (by simp [openingTexts])
      dsimp only [receivesLine, gen]
      rw [if_neg (by simp), if_pos hend]
      exact ⟨hdoing, hcoming.all, htalks⟩
  | cons b lines =>
      obtain ⟨rfl, rfl⟩ := List.cons.inj hm
      dsimp only [receivesLine, gen]
      rw [if_neg (by simp), if_neg ((hcoming.sent b List.mem_cons_self).not_end which)]
      exact ⟨hdoing, lines, hcoming.line, htalks⟩

theorem KnowsFor.reads {which : ListKind} {origClient : Option Bytes}
    (h : KnowsFor p which origClient s) (reading : Server.Reading) :
    KnowsFor p which origClient { s with reading := reading } := by
  cases which with
  | srestore => exact ⟨h.client, h.counters, h.srestore, h.incexc⟩
  | sincexc => exact ⟨h.client, h.counters, h.srestore, h.incexc⟩

theorem step_endsList {which : ListKind} (hpoint : v.left.point = .endsList which)
    (h : Alive p load act₀ conf₀ v) (hs : Ask (doClient load) p.answerer v v') :
    Alive p load act₀ conf₀ v' := by
  obtain ⟨⟨point, act, conf, feat, incexc⟩, state, coming⟩ := v
  obtain rfl : point = .endsList which := hpoint
  obtain ⟨hdoing, hall, htalks⟩ := h
  have ha : doClient load ⟨.endsList which, act, conf, feat, incexc⟩ = .say (gen which.endrepstr)
      ⟨.parses which, act, conf, feat, incexc.map fun b => Conf.prepend b [10] []⟩
      ⟨.done (-1), act, conf, feat, incexc⟩ := rfl
  obtain ⟨n, s, hreading, hK, rfl⟩ := htalks.say ha hs
  have hzero : 0 ∉ which.endrepstr := by
    cases which with
    | srestore => exact (openingTexts_ok "srestore end ok" (by simp [openingTexts])).1
    | sincexc => exact (openingTexts_ok "sincexc end ok" (by simp [openingTexts])).1
  rw [answer_endOk n hreading hzero]
  exact ⟨hdoing, ⟨incexc, hall, rfl⟩, rfl, _, _, rfl, rfl, KnowsFor.reads hK _⟩

theorem step_parses (hp : p.Lists) {which : ListKind} (hpoint : v.left.point = .parses which)
    (h : Alive p load act₀ conf₀ v) (hs : Ask (doClient load) p.answerer v v') :
    Alive p load act₀ conf₀ v' := by
  obtain ⟨⟨point, act, conf, feat, incexc⟩, state, coming⟩ := v
  obtain rfl : point = .parses which := hpoint
  obtain ⟨hdoing, ⟨got, hall, hgot⟩, htalks⟩ := h
  have ha : doClient load ⟨.parses which, act, conf, feat, incexc⟩
      = .act (parsesList load which ⟨.parses which, act, conf, feat, incexc⟩) := rfl
  rw [hs.of_act ha]
  dsimp only at hgot
  have hown : conf.config = conf₀.config :=
    (hdoing.config rfl).resolve_right fun h => Bool.false_ne_true h.1
  cases which with
  | srestore =>
      obtain ⟨t, rfl⟩ := Option.ne_none_iff_exists'.mp (hall.srestore rfl)
      rw [hgot, parsesList, Option.map_some]
      dsimp only
      cases hparse : parseOverride load conf (Conf.prepend t [10] []) with
      | none => trivial
      | some conf' =>
          rw [if_pos rfl]
          exact ⟨true, htalks, rfl, nofun, hdoing.listed⟩
  | sincexc =>
      cases got with
      | none =>
          rw [hgot, parsesList, Option.map_none]
          exact ⟨false, htalks, hdoing.act, fun _ => Or.inl hown, hdoing.listed⟩
      | some t =>
          rw [hgot, parsesList, Option.map_some]
          dsimp only
          cases hparse : parseOverride load conf (Conf.prepend t [10] []) with
          | none => trivial
          | some conf' =>
              obtain ⟨n, hn⟩ := hall.sincexc rfl
              have htext : incexcRecv .server (incexcSend .server (p.turns n).config)
                  = (true, some (Conf.prepend t [10] [])) := by
                unfold incexcRecv
                rw [hn]
                rfl
              obtain ⟨htransfer, horig⟩ := parseOverride_doSends (hp.loaded n) htext hparse
              rw [hown] at htransfer
              dsimp only
              rw [if_neg (by simp)]
              refine ⟨false, ?_, hdoing.act, fun _ => Or.inr ⟨rfl, n, htransfer⟩, hdoing.listed⟩
              show Talks _ _ (Knows (whoseFiles p conf'.origClient) _ _ _) _
              rw [horig]
              exact htalks

/-! ### The switch to another client. -/

/-- What the server makes of a switch. -/
theorem answer_orig (n : Nat) (hreading : s.reading = .loop)
    (hK : Knows who false restored none s) (name : Bytes) :
    ∃ stage out, p.answer ⟨n, .talks s⟩ (gen ((nameBytes "orig_client=" ++ name).take 511))
        = (⟨n + 1, stage⟩, out)
      ∧ ((∃ s', stage = .talks s' ∧ out = [gen (nameBytes "orig_client ok")] ∧ s'.reading = .loop
          ∧ Knows (nameSaid name) false restored none s')
        ∨ stage = .fails ∧ ∀ m ∈ out, m.1 ≠ .gen) := by
  obtain ⟨hpre, hsize⟩ := openingTexts_ok "orig_client=" (by simp [openingTexts])
  have htext : cString ((nameBytes "orig_client=" ++ name).take 511)
      = nameBytes "orig_client=" ++ nameSaid name :=
    cString_take hpre (hsize.trans (by decide))
  have hzero : 0 ∉ nameSaid name := Store.zero_notMem_cString _
  by_cases hnil : nameSaid name = []
  · have hr : requestOf (cString ((nameBytes "orig_client=" ++ name).take 511)) = .unexpected := by
      rw [htext, hnil]
      decide
    refine ⟨.fails, [], answer_request hreading n hr (q := (s, .error)) (fun a _ _ _ ha => ?_)
      fun m hm => ?_, Or.inr ⟨rfl, fun _ hm => absurd hm List.not_mem_nil⟩⟩
    · rw [Server.answerRequest, ha]
    · rw [requestSays, hm]
  have hr : requestOf (cString ((nameBytes "orig_client=" ++ name).take 511))
      = .origClient (nameSaid name) := by
    have hcString : cString (nameBytes "orig_client=" ++ nameSaid name)
        = nameBytes "orig_client=" ++ nameSaid name := by
      rw [Store.cString_append hpre, Store.cString_of_notMem hzero]
    rw [htext, ← hcString]
    exact Server.requestOf_switch ⟨hnil, hzero⟩
  -- the server fails, and what it has said is no answer
  have hfails : ∀ (s' : Server.Session) (out : List Message),
      (∀ a : Server.Arrival, a.files = (p.turns n).files → a.writes = true →
        Server.switchTo p.load a (nameSaid name) s = (s', .error)) →
      (∀ m : Message, requestOf (cString m.2) = .origClient (nameSaid name) →
        requestSays p.load (p.turns n) m s = out) → (∀ m ∈ out, m.1 ≠ .gen) →
      ∃ stage out, p.answer ⟨n, .talks s⟩ (gen ((nameBytes "orig_client=" ++ name).take 511))
          = (⟨n + 1, stage⟩, out)
        ∧ ((∃ s', stage = .talks s' ∧ out = [gen (nameBytes "orig_client ok")]
            ∧ s'.reading = .loop ∧ Knows (nameSaid name) false restored none s')
          ∨ stage = .fails ∧ ∀ m ∈ out, m.1 ≠ .gen) := by
    intro s' out hswitch hsays hout
    refine ⟨_, _, answer_request hreading n hr (q := (s', .error)) (fun a hf _ hw ha => ?_) hsays,
      Or.inr ⟨rfl, hout⟩⟩
    rw [Server.answerRequest, ha]
    exact hswitch a hf hw
  have hone : ∀ text : Bytes, ∀ m ∈ [((.error, text) : Message)], m.1 ≠ .gen := by
    intro text m hm
    rw [List.mem_singleton.mp hm]
    show Cmd.error ≠ Cmd.gen
    decide
  cases hload : p.load (nameSaid name) with
  | none =>
      refine hfails s [(.error, inBuffer (nameBytes "Could not load alternate config: "
        ++ nameSaid name))] (fun a _ _ => ?_) (fun m hm => ?_) (hone _)
      · rw [Server.switchTo, hload]
      · rw [requestSays, hm]
        dsimp only
        rw [hload]
  | some sconf =>
      cases hallowed : sconf.rclients.contains s.client with
      | false =>
          have hnot : ¬ sconf.rclients.contains s.client = true := by
            rw [hallowed]
            exact Bool.false_ne_true
          refine hfails s [(.error, inBuffer (nameBytes "Access to client is not allowed: "
            ++ nameSaid name))] (fun a _ _ => ?_) (fun m hm => ?_) (hone _)
          · rw [Server.switchTo, hload]
            dsimp only
            rw [if_neg hnot]
          · rw [requestSays, hm]
            dsimp only
            rw [hload]
            dsimp only
            rw [if_neg hnot]
      | true =>
          cases hparse : (if s.srestore then
              parseIncexcsPath (p.turns n).files s.cconf.restorePath
                (Server.switchedConf s (nameSaid name) sconf)
            else some (Server.switchedConf s (nameSaid name) sconf)) with
          | none =>
              have hswitch : ∀ a : Server.Arrival, a.files = (p.turns n).files →
                  Server.switchTo p.load a (nameSaid name) s = ({ s with
                    client := nameSaid name
                    cconf := Server.switchedConf s (nameSaid name) sconf }, .error) := by
                intro a hf
                unfold Server.switchTo
                rw [hload]
                dsimp only
                rw [if_pos hallowed, hf, hparse]
              refine hfails _ [] (fun a hf _ => hswitch a hf) (fun m hm => ?_)
                fun _ hm => absurd hm List.not_mem_nil
              rw [requestSays, hm]
              dsimp only
              rw [hload]
              dsimp only
              rw [if_pos hallowed, hswitch _ rfl]
          | some cconf =>
              have hcounters : cconf.sendClientCounters = s.cconf.sendClientCounters := by
                split_ifs at hparse
                · exact (parseIncexcsPath_counters hparse).trans rfl
                · rw [← Option.some.inj hparse]
                  rfl
              exact ⟨_, _, answer_switch n hreading hr hload hallowed hparse, Or.inl ⟨_, rfl, rfl,
                hreading, rfl, hcounters.trans hK.counters, hK.srestore, hK.incexc⟩⟩

theorem step_switch (hpoint : v.left.point = .switch)
    (h : Alive p load act₀ conf₀ v) (hs : Ask (doClient load) p.answerer v v') :
    Alive p load act₀ conf₀ v' := by
  obtain ⟨⟨point, act, conf, feat, incexc⟩, state, coming⟩ := v
  obtain rfl : point = .switch := hpoint
  obtain ⟨restored, htalks, hdoing⟩ := h
  cases horig : conf.origClient with
  | none =>
      have ha : doClient load ⟨.switch, act, conf, feat, incexc⟩
          = .act ⟨.includes, act, conf, feat, incexc⟩ := by
        unfold doClient
        dsimp only
        rw [horig]
      rw [hs.of_act ha]
      refine ⟨restored, ?_, hdoing⟩
      show Talks _ _ (Knows (whoseFiles p conf.origClient) _ _ _) _
      rw [horig]
      exact htalks
  | some name =>
      cases hsupports : Client.supports ⟨.switch, act, conf, feat, incexc⟩ ":orig_client:" with
      | false =>
          have ha : doClient load ⟨.switch, act, conf, feat, incexc⟩
              = .act ⟨.done (-1), act, conf, feat, incexc⟩ := by
            unfold doClient
            dsimp only
            rw [horig]
            dsimp only
            rw [hsupports]
            rfl
          rw [hs.of_act ha]
          trivial
      | true =>
          have ha : doClient load ⟨.switch, act, conf, feat, incexc⟩
              = .say (gen ((nameBytes "orig_client=" ++ name).take 511))
                ⟨.hearsSwitch, act, conf, feat, incexc⟩ ⟨.done (-1), act, conf, feat, incexc⟩ := by
            unfold doClient
            dsimp only
            rw [horig]
            dsimp only
            rw [hsupports]
            rfl
          obtain ⟨n, s, hreading, hK, rfl⟩ := htalks.say ha hs
          obtain ⟨stage, out, hanswer, hcases⟩ := answer_orig (p := p) n hreading hK name
          rw [hanswer]
          refine ⟨restored, hdoing, ?_⟩
          rcases hcases with ⟨s', rfl, rfl, hloop, hknows⟩ | ⟨rfl, hout⟩
          · refine Or.inl ⟨rfl, _, _, rfl, hloop, ?_⟩
            show Knows (whoseFiles p conf.origClient) _ _ _ _
            rw [horig]
            exact hknows
          · exact Or.inr ⟨rfl, hout⟩

theorem step_hearsSwitch (hpoint : v.left.point = .hearsSwitch)
    (h : Alive p load act₀ conf₀ v) (hs : Ask (doClient load) p.answerer v v') :
    Alive p load act₀ conf₀ v' := by
  obtain ⟨⟨point, act, conf, feat, incexc⟩, state, coming⟩ := v
  obtain rfl : point = .hearsSwitch := hpoint
  obtain ⟨restored, hdoing, htalks | ⟨-, hnot⟩⟩ := h
  · obtain ⟨m, ms, hm, hleft, htalks⟩ := htalks.hear
      (k := Client.expects _ (nameBytes "orig_client ok") .includes) rfl hs
    obtain ⟨left, state', coming'⟩ := v'
    obtain ⟨rfl, rfl⟩ := List.cons.inj hm
    rw [expects_text (cString_text (by simp [openingTexts]))] at hleft
    obtain rfl : left = _ := hleft
    exact ⟨restored, htalks, hdoing⟩
  · obtain ⟨⟨cmd, buf⟩, ms, hm, rfl⟩ := hs.of_hear (a := doClient load) rfl
    have hcmd : cmd ≠ .gen := hnot (cmd, buf) (by rw [hm]; exact List.mem_cons_self)
    dsimp only [Client.expects]
    rw [if_neg fun h => hcmd h.1]
    trivial

/-! ### Lists from the server, and counters. -/

/-- The lists of the server as they are sent. -/
theorem coming_includes (n : Nat) :
    Coming p .sincexc none (Conf.doSends (p.turns n).config) := by
  refine ⟨fun _ hb => isSent_doSends hb, nofun, fun _ => ⟨n, ?_⟩⟩
  rw [incexcSend, List.map_append]
  rfl

theorem step_includes (hpoint : v.left.point = .includes)
    (h : Alive p load act₀ conf₀ v) (hs : Ask (doClient load) p.answerer v v') :
    Alive p load act₀ conf₀ v' := by
  obtain ⟨⟨point, act, conf, feat, incexc⟩, state, coming⟩ := v
  obtain rfl : point = .includes := hpoint
  obtain ⟨restored, htalks, hdoing⟩ := h
  by_cases hask : (act = .backup ∨ act = .backupTimed) ∧ incexc = none
      ∧ Client.supports ⟨.includes, act, conf, feat, incexc⟩ ":sincexc:" = true
  · have ha : doClient load ⟨.includes, act, conf, feat, incexc⟩
        = .say (gen ListKind.sincexc.repstr) ⟨.receives .sincexc, act, conf, feat, none⟩
          ⟨.done (-1), act, conf, feat, incexc⟩ := if_pos hask
    obtain ⟨n, s, hreading, hK, rfl⟩ := htalks.say ha hs
    -- a client that makes a backup has not been given a restore
    obtain rfl : restored = false := by
      cases restored with
      | false => rfl
      | true =>
          have hact : act = .restore := hdoing.act
          rcases hask.1 with h | h
          all_goals exact absurd (hact.symm.trans h) nofun
    have hknows : KnowsFor p .sincexc conf.origClient _ := hK
    rw [ListKind.repstr, answer_sincexc n hreading]
    refine ⟨hdoing, _, coming_includes n, ?_, _, _, rfl, rfl, hknows.reads _⟩
    exact List.map_append
  · have ha : doClient load ⟨.includes, act, conf, feat, incexc⟩
        = .act ⟨.counters, act, conf, feat, incexc⟩ := if_neg hask
    rw [hs.of_act ha]
    refine ⟨restored, htalks, hdoing.act, fun hr => ?_, hdoing.listed⟩
    exact Or.inl ((hdoing.config hr).resolve_right fun h => Bool.false_ne_true h.1)

theorem step_counters (hpoint : v.left.point = .counters)
    (h : Alive p load act₀ conf₀ v) (hs : Ask (doClient load) p.answerer v v') :
    Alive p load act₀ conf₀ v' := by
  obtain ⟨⟨point, act, conf, feat, incexc⟩, state, coming⟩ := v
  obtain rfl : point = .counters := hpoint
  obtain ⟨restored, htalks, hdoing⟩ := h
  have ha : doClient load ⟨.counters, act, conf, feat, incexc⟩
      = .say (gen (nameBytes "countersok"))
        ⟨.incexc, act, { conf with sendClientCounters := true }, feat, incexc⟩
        ⟨.done 0, act, conf, feat, incexc⟩ := if_pos (supports_eq hdoing.listed.1)
  obtain ⟨n, s, hreading, hK, rfl⟩ := htalks.say ha hs
  rw [answer_countersok n hreading]
  exact ⟨restored, ⟨rfl, _, _, rfl, hreading, hK.client, rfl, hK.srestore, hK.incexc⟩, hdoing, rfl⟩

/-! ### Lists for the server. -/

theorem step_incexc (hpoint : v.left.point = .incexc)
    (h : Alive p load act₀ conf₀ v) (hs : Ask (doClient load) p.answerer v v') :
    Alive p load act₀ conf₀ v' := by
  obtain ⟨⟨point, act, conf, feat, incexc⟩, state, coming⟩ := v
  obtain rfl : point = .incexc := hpoint
  obtain ⟨restored, htalks, hdoing, hcounters⟩ := h
  have ha : doClient load ⟨.incexc, act, conf, feat, incexc⟩ = .say (gen (nameBytes "incexc"))
      ⟨.hearsIncexc, act, conf, feat, incexc⟩ ⟨.done (-1), act, conf, feat, incexc⟩ :=
    if_pos (supports_eq hdoing.listed.2)
  obtain ⟨n, s, hreading, hK, rfl⟩ := htalks.say ha hs
  rw [answer_incexc n hreading]
  exact ⟨restored, ⟨rfl, _, _, rfl, rfl, hK.client, hK.counters, hK.srestore, rfl⟩, hdoing, hcounters⟩

theorem step_hearsIncexc (hpoint : v.left.point = .hearsIncexc)
    (h : Alive p load act₀ conf₀ v) (hs : Ask (doClient load) p.answerer v v') :
    Alive p load act₀ conf₀ v' := by
  obtain ⟨⟨point, act, conf, feat, incexc⟩, state, coming⟩ := v
  obtain rfl : point = .hearsIncexc := hpoint
  obtain ⟨restored, htalks, hdoing, hcounters⟩ := h
  obtain ⟨m, ms, hm, hleft, htalks⟩ := htalks.hear (k := Client.expects _ (nameBytes "incexc ok") _) rfl hs
  obtain ⟨left, state', coming'⟩ := v'
  obtain ⟨rfl, rfl⟩ := List.cons.inj hm
  rw [expects_text (cString_text (by simp [openingTexts]))] at hleft
  obtain rfl : left = _ := hleft
  refine ⟨restored, hdoing, hcounters, Or.inr ⟨Conf.doSends conf.config, none, ?_,
    fun _ hb => isSent_doSends hb, htalks, rfl⟩⟩
  rw [incexcSend, List.map_append]
  rfl

theorem step_sendsIncexc {todo : List Message} (hpoint : v.left.point = .sendsIncexc todo)
    (h : Alive p load act₀ conf₀ v) (hs : Ask (doClient load) p.answerer v v') :
    Alive p load act₀ conf₀ v' := by
  obtain ⟨⟨point, act, conf, feat, incexc⟩, state, coming⟩ := v
  obtain rfl : point = .sendsIncexc todo := hpoint
  obtain ⟨restored, hdoing, hcounters, ⟨rfl, htalks⟩ | ⟨lines, got, rfl, hsent, htalks, hloop⟩⟩ := h
  · have ha : doClient load ⟨.sendsIncexc [], act, conf, feat, incexc⟩
        = .act ⟨.hearsIncexcEnd, act, conf, feat, incexc⟩ := rfl
    rw [hs.of_act ha]
    obtain ⟨hcoming, n, s, hstate, hreading, hK⟩ := htalks
    exact ⟨restored, hcoming, n, s, hstate, hreading, hK, hdoing, hcounters⟩
  · cases lines with
    | nil =>
        have ha : doClient load ⟨.sendsIncexc [gen (endreqstr .client)], act, conf, feat, incexc⟩
            = .say (gen (nameBytes "incexc end")) ⟨.sendsIncexc [], act, conf, feat, incexc⟩
              ⟨.done (-1), act, conf, feat, incexc⟩ := rfl
        obtain ⟨n, s, hreading, hK, rfl⟩ := htalks.say ha hs
        rw [answer_incexcEnd n hreading]
        refine ⟨restored, hdoing, hcounters, Or.inl ⟨rfl, rfl, _, _, rfl, rfl, hK.client, hK.counters,
          hK.srestore, ?_⟩⟩
        -- the server puts a line end behind the last line
        have hend : recvLoop (endreqstr .client) none (incexcSend .client conf.config) = (true, got) :=
          hloop.symm.trans (recvLoop_end got [])
        show s.incexc.map (· ++ [10]) = incexcText conf.config
        rw [hK.incexc, incexcText, incexcRecv, hend]
        rfl
    | cons b lines =>
        have hb := (hsent b List.mem_cons_self).cString_ne
        have ha : doClient load ⟨.sendsIncexc (gen b :: (lines.map gen ++ [gen (endreqstr .client)])), act,
              conf, feat, incexc⟩
            = .say (gen b) ⟨.sendsIncexc (lines.map gen ++ [gen (endreqstr .client)]), act, conf, feat,
                incexc⟩ ⟨.done (-1), act, conf, feat, incexc⟩ := rfl
        obtain ⟨n, s, hreading, hK, rfl⟩ := htalks.say ha hs
        rw [answer_line n hreading hb.2.1]
        refine ⟨restored, hdoing, hcounters, Or.inr ⟨lines, some (addLine got (cString b)), rfl,
          fun b' hb' => hsent b' (List.mem_cons_of_mem _ hb'),
          ⟨rfl, _, _, rfl, hreading, hK.client, hK.counters, hK.srestore, ?_⟩, ?_⟩⟩
        · show some (addLine s.incexc (cString b)) = _
          rw [hK.incexc]
        · exact (recvLoop_line hb.2.1 hb.1 got _).symm.trans hloop

theorem step_hearsIncexcEnd (hpoint : v.left.point = .hearsIncexcEnd)
    (h : Alive p load act₀ conf₀ v) (hs : Ask (doClient load) p.answerer v v') :
    Alive p load act₀ conf₀ v' := by
  obtain ⟨⟨point, act, conf, feat, incexc⟩, state, coming⟩ := v
  obtain rfl : point = .hearsIncexcEnd := hpoint
  obtain ⟨restored, htalks⟩ := h
  obtain ⟨m, ms, hm, hleft, htalks⟩ := htalks.hear
    (k := Client.expects _ (nameBytes "incexc end ok") .ends) rfl hs
  obtain ⟨left, state', coming'⟩ := v'
  obtain ⟨rfl, rfl⟩ := List.cons.inj hm
  rw [expects_text (cString_text (by simp [openingTexts]))] at hleft
  obtain rfl : left = _ := hleft
  exact ⟨restored, htalks⟩

theorem step_ends (hpoint : v.left.point = .ends)
    (h : Alive p load act₀ conf₀ v) (hs : Ask (doClient load) p.answerer v v') :
    Alive p load act₀ conf₀ v' := by
  obtain ⟨⟨point, act, conf, feat, incexc⟩, state, coming⟩ := v
  obtain rfl : point = .ends := hpoint
  obtain ⟨restored, htalks⟩ := h
  have ha : doClient load ⟨.ends, act, conf, feat, incexc⟩ = .say (gen (nameBytes "extra_comms_end"))
      ⟨.hearsEnd, act, conf, feat, incexc⟩ ⟨.done (-1), act, conf, feat, incexc⟩ := rfl
  obtain ⟨n, s, hreading, hK, rfl⟩ := htalks.say ha hs
  rw [answer_end n hreading]
  exact ⟨rfl, restored, _, _, rfl, hK⟩

theorem step_hearsEnd (hpoint : v.left.point = .hearsEnd)
    (h : Alive p load act₀ conf₀ v) (hs : Ask (doClient load) p.answerer v v') :
    Alive p load act₀ conf₀ v' := by
  obtain ⟨⟨point, act, conf, feat, incexc⟩, state, coming⟩ := v
  obtain rfl : point = .hearsEnd := hpoint
  obtain ⟨hcoming, hasked⟩ := h
  obtain ⟨m, ms, hm, rfl⟩ := hs.of_hear (a := doClient load) rfl
  obtain ⟨rfl, rfl⟩ := List.cons.inj (hm.symm.trans hcoming)
  rw [expects_text (cString_text (by simp [openingTexts]))]
  exact ⟨rfl, hasked⟩

/-! ### The request. -/

theorem Settled.same {act : Action} {conf conf' : OwnConf} {feat : Bytes}
    (h : Settled p load act₀ conf₀ restored act conf feat s) (hsame : conf.SameBut conf') :
    Settled p load act₀ conf₀ restored act conf' feat s := by
  rw [← hsame]
  exact ⟨h.knows, h.doing, h.counters⟩

theorem step_asks (hpoint : v.left.point = .asks)
    (h : Alive p load act₀ conf₀ v) (hs : Ask (doClient load) p.answerer v v') :
    Alive p load act₀ conf₀ v' := by
  obtain ⟨⟨point, act, conf, feat, incexc⟩, state, coming⟩ := v
  obtain rfl : point = .asks := hpoint
  obtain ⟨rfl, restored, n, s, rfl, hsettled⟩ := h
  by_cases hnothing : (act = .backup ∨ act = .backupTimed) ∧ conf.config.startdir = []
  · have ha : doClient load ⟨.asks, act, conf, feat, incexc⟩
        = .act ⟨.done (-1), act, conf, feat, incexc⟩ := if_pos hnothing
    rw [hs.of_act ha]
    trivial
  · have ha : doClient load ⟨.asks, act, conf, feat, incexc⟩
        = .say (gen (Client.request ⟨.asks, act, conf, feat, incexc⟩))
          ⟨.hearsAnswer, act, conf, feat, incexc⟩ ⟨.done (-1), act, conf, feat, incexc⟩ :=
      if_neg hnothing
    have heq := hs.of_say ha
    have hone : p.answerer.answers ⟨n, .asked s⟩ [gen (Client.request ⟨.asks, act, conf, feat, incexc⟩)]
        = p.answer ⟨n, .asked s⟩ (gen (Client.request ⟨.asks, act, conf, feat, incexc⟩)) :=
      answers_one rfl _
    dsimp only at heq
    rw [hone, answer_asked, List.nil_append] at heq
    subst heq
    exact ⟨restored, n, s, rfl, rfl, hsettled⟩

/-- The client goes on with what the server does. -/
theorem Alive.goes {c' : Client} {op : Goes} {w : Server.Around} {state : Serving} {ms : List Message}
    (hpoint : c'.point = .goes op) (hact : c'.act = c.act) (hfeat : c'.feat = c.feat)
    (hsame : c.conf.SameBut c'.conf) {m : Message}
    (hstate : state.stage = .acts s (child w s.cconf .gen c.request))
    (hsaid : (child w s.cconf .gen c.request).said = m :: ms) (hms : ms = [])
    (hn : (p.turns n).around = w)
    (hserves : Serves c.act c'.conf s.cconf (child w s.cconf .gen c.request) op)
    (hsettled : Settled p load act₀ conf₀ restored c.act c.conf c.feat s) :
    Alive p load act₀ conf₀ ⟨c', state, ms⟩ := by
  obtain ⟨point, act, conf, feat, incexc⟩ := c'
  obtain rfl : point = .goes op := hpoint
  obtain rfl : act = c.act := hact
  obtain rfl : feat = c.feat := hfeat
  have hrequest : Client.request ⟨.goes op, c.act, conf, c.feat, incexc⟩ = c.request := by
    obtain ⟨_, act, conf₁, _, _⟩ := c
    have hconf : conf = { conf₁ with compression := conf.compression } := hsame.symm
    rw [hconf]
    rfl
  refine ⟨hms, restored, n, s, ?_, ?_, ?_, hsettled.same hsame⟩
  · rw [hrequest, hn]
    exact hstate
  · rw [hrequest, hn, hsaid]
    exact List.cons_ne_nil _ _
  · rw [hrequest, hn]
    exact hserves

theorem alive_of_done {ret : Int} (h : v.left.point = .done ret) : Alive p load act₀ conf₀ v := by
  unfold Alive
  dsimp only
  rw [h]
  trivial

/-- What `maybe_check_timer` and `async_read_expect` lead to. -/
theorem expects_cases (c : Client) (text : Bytes) (next : Goes) (m : Message) :
    (c.expects text (.goes next) (some m)).point = .goes next
      ∨ ∃ ret, (c.expects text (.goes next) (some m)).point = .done ret := by
  obtain ⟨cmd, buf⟩ := m
  unfold Client.expects
  dsimp only
  split_ifs
  · exact Or.inl rfl
  · exact Or.inr ⟨_, rfl⟩

theorem checkTimer_cases (c : Client) (m : Message) :
    (∃ op, (c.checkTimer (some m)).point = .goes op) ∨ ∃ ret, (c.checkTimer (some m)).point = .done ret := by
  obtain ⟨cmd, buf⟩ := m
  unfold Client.checkTimer
  dsimp only
  split_ifs
  · exact Or.inr ⟨_, rfl⟩
  · exact Or.inr ⟨_, rfl⟩
  · exact Or.inl ⟨_, rfl⟩
  · exact Or.inl ⟨_, rfl⟩
  · exact Or.inr ⟨_, rfl⟩

theorem step_hearsAnswer (hpoint : v.left.point = .hearsAnswer)
    (h : Alive p load act₀ conf₀ v) (hs : Ask (doClient load) p.answerer v v') :
    Alive p load act₀ conf₀ v' := by
  obtain ⟨⟨point, act, conf, feat, incexc⟩, state, coming⟩ := v
  obtain rfl : point = .hearsAnswer := hpoint
  obtain ⟨restored, n, s, hstate, hcoming, hsettled⟩ := h
  -- a yes to a restore, a verification or a list
  have hyes : ∀ next : Goes,
      doClient load ⟨.hearsAnswer, act, conf, feat, incexc⟩
        = .hear (Client.expects ⟨.hearsAnswer, act, conf, feat, incexc⟩ (nameBytes "ok") (.goes next)) →
      (∀ m ms op, (child (p.turns n).around s.cconf .gen
          (Client.request ⟨.hearsAnswer, act, conf, feat, incexc⟩)).said = m :: ms →
        (Client.expects ⟨.hearsAnswer, act, conf, feat, incexc⟩ (nameBytes "ok") (.goes next)
          (some m)).point = .goes op →
        ms = [] ∧ Serves act conf s.cconf (child (p.turns n).around s.cconf .gen
          (Client.request ⟨.hearsAnswer, act, conf, feat, incexc⟩)) op) →
      Alive p load act₀ conf₀ v' := by
    intro next ha hserves
    obtain ⟨m, ms, hm, rfl⟩ := hs.of_hear ha
    have hsaid := hcoming.symm.trans hm
    rcases expects_cases ⟨.hearsAnswer, act, conf, feat, incexc⟩ (nameBytes "ok") next m
      with hgoes | ⟨ret, hdone⟩
    · obtain ⟨hms, hserves⟩ := hserves m ms next hsaid hgoes
      obtain ⟨-, -, -, heq⟩ := expects_goes hgoes
      rw [heq]
      exact Alive.goes (c := ⟨.hearsAnswer, act, conf, feat, incexc⟩) rfl rfl rfl rfl hstate hsaid hms
        rfl hserves hsettled
    · exact alive_of_done hdone
  have hback : act = .backup ∨ act = .backupTimed → Alive p load act₀ conf₀ v' := by
    intro hact
    have ha : doClient load ⟨.hearsAnswer, act, conf, feat, incexc⟩
        = .hear (Client.checkTimer ⟨.hearsAnswer, act, conf, feat, incexc⟩) := by
      rcases hact with rfl | rfl <;> rfl
    obtain ⟨m, ms, hm, rfl⟩ := hs.of_hear ha
    have hsaid := hcoming.symm.trans hm
    rcases checkTimer_cases ⟨.hearsAnswer, act, conf, feat, incexc⟩ m with ⟨op, hgoes⟩ | ⟨ret, hdone⟩
    · obtain ⟨hms, hsame, hact', hserves⟩ := serves_backup
        (c := ⟨.hearsAnswer, act, conf, feat, incexc⟩) hact hsaid hgoes
      refine Alive.goes (c := ⟨.hearsAnswer, act, conf, feat, incexc⟩) hgoes hact' ?_ hsame hstate hsaid
        hms rfl hserves hsettled
      obtain ⟨cmd, buf⟩ := m
      unfold Client.checkTimer
      dsimp only
      split_ifs <;> rfl
    · exact alive_of_done hdone
  cases act with
  | backup => exact hback (Or.inl rfl)
  | backupTimed => exact hback (Or.inr rfl)
  | restore =>
      exact hyes (.restore false) rfl fun m ms op hsaid hgoes =>
        serves_restore (c := ⟨.hearsAnswer, .restore, conf, feat, incexc⟩) rfl hsaid
          hgoes
  | verify =>
      exact hyes (.restore true) rfl fun m ms op hsaid hgoes =>
        serves_restore (c := ⟨.hearsAnswer, .verify, conf, feat, incexc⟩) rfl hsaid
          hgoes
  | list =>
      exact hyes .list rfl fun m ms op hsaid hgoes =>
        serves_list (c := ⟨.hearsAnswer, .list, conf, feat, incexc⟩) rfl hsaid hgoes

end Step

/-! ## §3. Whole sessions. -/

section Session

variable {v v' : Asked Client Serving Message}

/-- **What is true of a conversation** stays true. -/
theorem OnTrack.step (hp : p.Lists) (h : OnTrack p load act₀ conf₀ v)
    (hs : Ask (doClient load) p.answerer v v') : OnTrack p load act₀ conf₀ v' := by
  rcases h with h | h
  · exact Or.inl (h.step hs)
  cases hpoint : v.left.point with
  | begins => exact Or.inr (step_begins hp hpoint h hs)
  | hearsFeatures => exact Or.inr (step_hearsFeatures hpoint h hs)
  | upgrade => exact Or.inr (step_upgrade hpoint h hs)
  | hearsUpgrade => exact step_hearsUpgrade hpoint h hs
  | restore => exact step_restore hpoint h hs
  | receives which => exact Or.inr (step_receives hpoint h hs)
  | endsList which => exact Or.inr (step_endsList hpoint h hs)
  | parses which => exact Or.inr (step_parses hp hpoint h hs)
  | switch => exact Or.inr (step_switch hpoint h hs)
  | hearsSwitch => exact Or.inr (step_hearsSwitch hpoint h hs)
  | includes => exact Or.inr (step_includes hpoint h hs)
  | counters => exact Or.inr (step_counters hpoint h hs)
  | incexc => exact Or.inr (step_incexc hpoint h hs)
  | hearsIncexc => exact Or.inr (step_hearsIncexc hpoint h hs)
  | sendsIncexc todo => exact Or.inr (step_sendsIncexc hpoint h hs)
  | hearsIncexcEnd => exact Or.inr (step_hearsIncexcEnd hpoint h hs)
  | ends => exact Or.inr (step_ends hpoint h hs)
  | hearsEnd => exact Or.inr (step_hearsEnd hpoint h hs)
  | asks => exact Or.inr (step_asks hpoint h hs)
  | hearsAnswer => exact Or.inr (step_hearsAnswer hpoint h hs)
  | goes op | upgrades | done ret =>
      have hstop : doClient load v.left = .stop := by
        unfold doClient
        rw [hpoint]
      exact (hs.of_stop hstop).elim

/-- The server before the first message of a client that it can talk to. -/
theorem first_begins (hp : p.Lists) : p.first = ⟨0, .begins⟩ := by
  have hversion : ¬ p.cliVer < minVer := not_lt.mpr hp.version
  have hneg : ¬ p.cliVer < 0 := fun h => hversion (h.trans (by decide))
  unfold ServerSide.first
  rw [if_neg hneg, if_neg hversion]

/-- A client that has been started. -/
def startClient (act : Action) (conf : OwnConf) : Client := { act := act, conf := conf }

theorem onTrack_run (hp : p.Lists)
    (h : Relation.ReflTransGen (Ask (doClient load) p.answerer)
      ⟨startClient act₀ conf₀, p.first, []⟩ v) : OnTrack p load act₀ conf₀ v := by
  induction h with
  | refl => exact Or.inr ⟨by rw [first_begins hp], rfl, rfl, rfl⟩
  | tail _ hs ih => exact ih.step hp hs

/-- **Agreement.**  However the messages of the two are delayed, and whenever the connection is
cut: if the client goes on with something, it is what the server does, and the two agree on whose
files it is about, on the counters, on the restore that the server may have started, and on the
include lists, which the server has as the client has them. -/
theorem session_agrees (hp : p.Lists) {c : Talk Client (Answering Serving Message) Message}
    (hrun : Relation.ReflTransGen (Step (doClient load) p.answerer.party)
      ⟨startClient act₀ conf₀, ⟨p.first, []⟩, [], [], false⟩ c) {op : Goes}
    (hgoes : c.left.point = .goes op) :
    ∃ n turn s ans restored, c.right = ⟨⟨n, .acts s ans⟩, []⟩
      ∧ ans = child (p.turns turn).around s.cconf .gen c.left.request
      ∧ Serves c.left.act c.left.conf s.cconf ans op
      ∧ Settled p load act₀ conf₀ restored c.left.act c.left.conf c.left.feat s := by
  obtain ⟨v, hv, hfollows | ⟨s, hgives, h, o, hruns⟩⟩ := Step.asked (lastWord_serving p) hrun
  · have hleft := hfollows.left
    rw [hleft] at hgoes ⊢
    rcases onTrack_run hp hv with hdead | halive
    · exact absurd hgoes (hdead.2.2 op)
    · unfold Alive at halive
      dsimp only at halive
      rw [hgoes] at halive
      obtain ⟨hcoming, restored, turn, s, hstage, hsaid, hserves, hsettled⟩ := halive
      have hright := hfollows.lastWord (lastWord_serving p) hcoming ⟨s, _, hstage, hsaid⟩
      refine ⟨v.state.turn, turn, s, _, restored, ?_, rfl, hserves, hsettled⟩
      rw [hright, ← hstage]
  · -- a client that has given up does not go on with anything
    obtain ⟨ret, hret⟩ := gives_up hgives
    have hstop : doClient load s = .stop := by
      unfold doClient
      rw [hret]
    have heq := hruns.of_stop hstop
    rw [heq, hret] at hgoes
    exact absurd hgoes nofun

/-- A server without upgrades, restores or lists of its own. -/
def sampleServer : ServerSide where
  load := fun _ => none
  cliVer := minVer + 1000
  client := nameBytes "laptop"
  cconf := {}
  turns := fun _ => { config := Conf.initConfig }

/-- A client with something to back up. -/
def sampleConf : OwnConf where
  config :=
    { Conf.initConfig with
      lists := fun o => if o = .incexcdir then [⟨nameBytes "/home", 1⟩] else []
      startdir := [nameBytes "/home"] }

theorem lists_sampleServer : sampleServer.Lists :=
  ⟨by decide, by decide, rfl, fun _ => Conf.loaded_initConfig⟩

theorem session_agrees_backup :
    ∃ c : Talk Client (Answering Serving Message) Message, c.left.point = .goes (.backup false)
      ∧ ∃ n turn s ans restored, c.right = ⟨⟨n, .acts s ans⟩, []⟩
        ∧ ans = child (sampleServer.turns turn).around s.cconf .gen c.left.request
        ∧ Serves c.left.act c.left.conf s.cconf ans (.backup false)
        ∧ Settled sampleServer (fun _ _ => none) .backup sampleConf restored c.left.act c.left.conf
          c.left.feat s := by
  have hgoes : (converse (doClient fun _ _ => none) sampleServer.answerer 40
      ⟨startClient .backup sampleConf, sampleServer.first, []⟩).left.point = .goes (.backup false) := by
    decide +kernel
  obtain ⟨toRight, -, hcalm⟩ := calm_of_ask (ask_converse (a := doClient fun _ _ => none)
    (b := sampleServer.answerer) 40 ⟨startClient .backup sampleConf, sampleServer.first, []⟩)
  exact ⟨_, hgoes, session_agrees lists_sampleServer (Calm.steps rfl hcalm).1 hgoes⟩

end Session

end Burp.Session
