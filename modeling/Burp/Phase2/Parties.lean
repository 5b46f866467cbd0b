/-
  Burp.Phase2.Parties — server and client of phase 2, with the messages in flight.

  The turns of the server and those of the client come in any order.  What one of them has
  written is in flight until the other reads it, and is read in the order in which it was
  written; a turn of the server may find nothing there yet.

  Two grammars say what is in flight.  What the client has still to read, together with what
  the server has still to send of its last request, is a sequence of requests; what the
  server has still to read, together with what the client owes, is a sequence of answers.
  Every step of either party keeps both.

  Main results:
    * `Feeds.read`, `turn_feeds` — the first grammar, over a message read and over a turn.
    * `Hears.receive` — the second, over a message received.
    * `answered_iff` — every request is answered where none has failed for its metadata.
-/
import Burp.Phase2.ClientLoop
import Burp.Phase2.Accounts
import Mathlib.Logic.Relation

namespace Burp.Phase2

open FileSystem Burp.Store

/-! ## §1. The two parties. -/

/-- What goes out for an event, where a signature ends with the given blocks. -/
def Event.messages (blocks : List Bytes) : Event → List Message
  | .asked sb => [(sb.cmd, sb.path.getD [])]
  | .sent cmd text =>
      if cmd = .endFile then blocks.map (fun b => (.append, b)) ++ [(cmd, text)] else [(cmd, text)]
  | _ => []

/-- The signature job is at work. -/
def Asking.signing (a : Asking) : Bool :=
  a.sigjob && !a.senddatapth && !a.sendstat && !a.sendpath

/-- What a turn has sent: a signature that ends in it has ended with `blocks`, and one that
does not has gone on with `more`. -/
def emitted (blocks more : List Bytes) (s s' : State) : List Message :=
  (s'.log.drop s.log.length).flatMap (Event.messages blocks)
    ++ if s'.p1b.signing then more.map (fun b => (.append, b)) else []

/-- Server and client, and what is in flight. -/
structure Parties where
  server : State
  loop : Loop := .more
  client : ClientLoop := {}
  toClient : List Message := []
  toServer : List Message := []

/-- What `async_rw` may find in a queue, and what it leaves. -/
inductive Delivers : List Message → Arrival → List Message → Prop
  | error (queue : List Message) : Delivers queue .error queue
  | nothing (queue : List Message) : Delivers queue .nothing queue
  | message (cmd : Cmd) (text : Bytes) (queue : List Message) :
      Delivers ((cmd, text) :: queue) (.message cmd text) queue

/-- A turn of the server, which leaves `rest` of what is in flight to it. -/
def Parties.serverTurn (conf : Conf) (working : Bytes) (t : Turn) (rest : List Message)
    (blocks more : List Bytes) (p : Parties) : Parties :=
  { p with
    server := (turn conf working t p.server).1
    loop := (turn conf working t p.server).2
    toClient := p.toClient ++ emitted blocks more p.server (turn conf working t p.server).1
    toServer := rest }

/-- A turn of the client, which reads `m` and leaves `rest`. -/
def Parties.clientTurn (settings : Settings) (f : Finds) (m : Message) (rest : List Message)
    (p : Parties) : Parties :=
  { p with
    client := p.client.read settings f m
    toClient := rest
    toServer := p.toServer ++ (p.client.read settings f m).said.drop p.client.said.length }

/-- **A step** of one of the parties. -/
inductive Parties.Step (conf : Conf) (working : Bytes) (settings : Settings) :
    Parties → Parties → Prop
  | server (p : Parties) (t : Turn) (rest : List Message) (blocks more : List Bytes)
      (hmore : p.loop = .more)
      (hdelivers : if receives t p.server then Delivers p.toServer t.arrival rest
        else rest = p.toServer) :
      Step conf working settings p (p.serverTurn conf working t rest blocks more)
  | client (p : Parties) (f : Finds) (m : Message) (rest : List Message)
      (hreads : p.toClient = m :: rest) (hquit : p.client.doing ≠ .quit) :
      Step conf working settings p (p.clientTurn settings f m rest)

/-- What can be reached from the start of the loops. -/
def Parties.Reachable (conf : Conf) (working : Bytes) (settings : Settings) (p1 : List Sbuf)
    (cman : Option (List Sbuf)) (dpth : Dpth) : Parties → Prop :=
  Relation.ReflTransGen (Parties.Step conf working settings)
    { server := State.start p1 cman dpth }

/-- The server waits for an answer, and there is none: nothing is in flight, and the client
waits for the next request. -/
def Parties.Stuck (p : Parties) : Prop :=
  p.loop = .more ∧ p.server.lastRequested ≠ none ∧ p.toClient = [] ∧ p.toServer = []
    ∧ p.client.doing = .reading

/-- The command and the path of a request. -/
def askedFor (sb : Sbuf) : Message := (sb.cmd, sb.path.getD [])

def Taken.request (r : Taken) : Message := (r.cmd, r.path)

/-- **Every request is answered.** -/
structure Parties.Answered (p : Parties) : Prop where
  /-- The client has met no message that it does not expect, such as a signature unread. -/
  understood : p.client.failed = false
  /-- It has taken up the requests in order, and with nothing in flight all of them. -/
  taken : ∃ rest, (asked p.server.log).map askedFor = p.client.taken.map Taken.request ++ rest
    ∧ (p.toClient = [] → p.client.doing = .reading → rest = [])
  answers : p.client.AnswersInOrder
  notStuck : ¬ p.Stuck

/-! ## §2. Requests on their way. -/

/-- Where the client is in the requests. -/
inductive Mode
  | reading (datapth : Option Bytes)
  | loading
  | quit

def ClientLoop.mode (c : ClientLoop) : Mode :=
  match c.doing with
  | .reading => .reading c.datapth
  | .loading _ => .loading
  | .quit => .quit

/-- **Requests on their way**: the messages with them, for a client that is somewhere in the
first one.  `told` says that the end of phase 2 is among them, or has been read. -/
inductive Feeds (told : Bool) : Mode → List Message → List Message → Prop
  | done (htold : told = false) : Feeds told (.reading none) [] []
  | quit (htold : told = true) : Feeds told .quit [] []
  | told (text : Bytes) (htold : told = true) (htext : cString text = nameBytes "backupphase2end") :
      Feeds told (.reading none) [] [(.gen, text)]
  | datapth (d path : Bytes) (rs ms : List Message)
      (hrest : Feeds told (.reading (some d)) ((.file, path) :: rs) ms) :
      Feeds told (.reading none) ((.file, path) :: rs) ((.datapth, d) :: ms)
  | stat (d : Option Bytes) (text : Bytes) (r : Message) (rs ms : List Message)
      (hrest : Feeds told (.reading d) (r :: rs) ms) :
      Feeds told (.reading d) (r :: rs) ((.stat, text) :: ms)
  | whole (cmd : Cmd) (path : Bytes) (rs ms : List Message) (hdata : cmd.filedata = true)
      (hrest : Feeds told (.reading none) rs ms) :
      Feeds told (.reading none) ((cmd, path) :: rs) ((cmd, path) :: ms)
  | delta (d path : Bytes) (rs ms : List Message) (hrest : Feeds told .loading rs ms) :
      Feeds told (.reading (some d)) ((.file, path) :: rs) ((.file, path) :: ms)
  | append (b : Bytes) (rs ms : List Message) (hrest : Feeds told .loading rs ms) :
      Feeds told .loading rs ((.append, b) :: ms)
  | endFile (text : Bytes) (rs ms : List Message) (hrest : Feeds told (.reading none) rs ms) :
      Feeds told .loading rs ((.endFile, text) :: ms)

theorem Feeds.append_feeds {told : Bool} {mode : Mode} {rs rs' ms ms' : List Message}
    (h : Feeds false mode rs ms) (h' : Feeds told (.reading none) rs' ms') :
    Feeds told mode (rs ++ rs') (ms ++ ms') := by
  induction h with
  | done => exact h'
  | quit htold => cases htold
  | told text htold => cases htold
  | datapth d path rs ms _ ih => exact .datapth d path _ _ ih
  | stat d text r rs ms _ ih => exact .stat d text r _ _ ih
  | whole cmd path rs ms hdata _ ih => exact .whole cmd path _ _ hdata ih
  | delta d path rs ms _ ih => exact .delta d path _ _ ih
  | append b rs ms _ ih => exact .append b _ _ ih
  | endFile text rs ms _ ih => exact .endFile text _ _ ih

theorem Feeds.blocks {told : Bool} {rs ms : List Message} (h : Feeds told .loading rs ms)
    (blocks : List Bytes) :
    Feeds told .loading rs (blocks.map (fun b => (.append, b)) ++ ms) := by
  induction blocks with
  | nil => exact h
  | cons b blocks ih => exact .append b _ _ ih

/-- Blocks of a signature may be put in before its end. -/
theorem Feeds.insert {told : Bool} {text : Bytes} {rest : List Message} (blocks : List Bytes)
    {ms : List Message} : ∀ {mode : Mode} {rs : List Message},
    Feeds told mode rs (ms ++ (.endFile, text) :: rest) →
    Feeds told mode rs
        (ms ++ (blocks.map (fun b => (.append, b)) ++ (.endFile, text) :: rest)) := by
  induction ms with
  | nil =>
      intro mode rs h
      cases h with
      | endFile _ _ _ hrest => exact Feeds.blocks (.endFile text _ _ hrest) blocks
      | whole _ _ _ _ hdata _ => cases hdata
  | cons m ms ih =>
      intro mode rs h
      rw [List.cons_append] at h ⊢
      generalize hw : ms ++ (.endFile, text) :: rest = w at h
      cases h with
      | told _ _ _ => simp at hw
      | datapth d path rs _ hrest => exact .datapth d path _ _ (ih (hw ▸ hrest))
      | stat d t r rs _ hrest => exact .stat d t r _ _ (ih (hw ▸ hrest))
      | whole cmd path rs _ hdata hrest => exact .whole cmd path _ _ hdata (ih (hw ▸ hrest))
      | delta d path rs _ hrest => exact .delta d path _ _ (ih (hw ▸ hrest))
      | append b rs _ hrest => exact .append b _ _ (ih (hw ▸ hrest))
      | endFile t rs _ hrest => exact .endFile t _ _ (ih (hw ▸ hrest))

/-- There are as many messages with a path as there are requests. -/
theorem Feeds.countP {told : Bool} {mode : Mode} {rs ms : List Message}
    (h : Feeds told mode rs ms) :
    (∀ r ∈ rs, r.1.filedata = true) ∧ ms.countP (fun m => m.1.filedata) = rs.length := by
  induction h with
  | done => simp
  | quit => simp
  | told text => simp [Cmd.filedata]
  | datapth d path rs ms _ ih => exact ⟨ih.1, ih.2⟩
  | stat d text r rs ms _ ih => exact ⟨ih.1, ih.2⟩
  | whole cmd path rs ms hdata _ ih =>
      refine ⟨?_, ?_⟩
      · intro r hr
        rcases List.mem_cons.mp hr with rfl | hr
        · exact hdata
        · exact ih.1 r hr
      · rw [List.countP_cons, if_pos hdata, ih.2, List.length_cons]
  | delta d path rs ms _ ih =>
      refine ⟨?_, ?_⟩
      · intro r hr
        rcases List.mem_cons.mp hr with rfl | hr
        · rfl
        · exact ih.1 r hr
      · rw [List.countP_cons, ih.2]
        rfl
  | append b rs ms _ ih => exact ⟨ih.1, ih.2⟩
  | endFile text rs ms _ ih => exact ⟨ih.1, ih.2⟩

/-! ## §3. A message is read. -/

/-- **What reading one of these messages comes to.** -/
inductive ClientLoop.Reads (settings : Settings) (told : Bool) (rs ms : List Message)
    (c : ClientLoop) : ClientLoop → Prop
  | silent (c' : ClientLoop) (hfeeds : Feeds told c'.mode rs ms) (hdoing : c'.doing = c.doing)
      (hfailed : c'.failed = c.failed) (hsaid : c'.said = c.said) (htaken : c'.taken = c.taken)
      (hsettled : ∀ owed, c'.doing = .loading owed → c'.datapth = none) :
      Reads settings told rs ms c c'
  | takes (r : Taken) (rs' : List Message) (hreading : c.doing = .reading)
      (hrs : rs = r.request :: rs') (hdata : r.cmd.filedata = true)
      (hfeeds : Feeds told (if r.isDelta then .loading else .reading none) rs' ms) :
      Reads settings told rs ms c
        { c with datapth := none, doing := r.goesOn settings,
                 said := c.said ++ r.warnings settings ++ r.begins settings,
                 taken := c.taken ++ [r] }
  | finishes (owed : List Message) (hloading : c.doing = .loading owed)
      (hfeeds : Feeds told (.reading none) rs ms) (hdatapth : c.datapth = none) :
      Reads settings told rs ms c { c with doing := .reading, said := c.said ++ owed }
  | agrees (hreading : c.doing = .reading) (htold : told = true) (hrs : rs = []) (hms : ms = []) :
      Reads settings told rs ms c
        { c with doing := .quit, said := c.said ++ [(.gen, nameBytes "okbackupphase2end")] }

/-- What is being loaded is for no data path that is still to be read. -/
def ClientLoop.Settled (c : ClientLoop) : Prop :=
  ∀ owed, c.doing = .loading owed → c.datapth = none

/-- A request is read. -/
theorem ClientLoop.reads_request {settings : Settings} {told : Bool} {rs ms : List Message}
    {c : ClientLoop} {cmd : Cmd} {path : Bytes} (hreading : c.doing = .reading) (f : Finds)
    (hdata : cmd.filedata = true)
    (hfeeds : Feeds told (if (⟨cmd, path, c.datapth, f⟩ : Taken).isDelta then .loading
      else .reading none) rs ms) :
    c.Reads settings told ((cmd, path) :: rs) ms (c.read settings f (cmd, path)) := by
  have hread : c.read settings f (cmd, path) = c.takeUp settings f cmd path := by
    unfold ClientLoop.read
    rw [hreading]
    simp only [(filedata_ne hdata).2.1, (filedata_ne hdata).2.2, hdata, if_true, if_false]
  rw [hread]
  exact .takes ⟨cmd, path, c.datapth, f⟩ rs hreading rfl hdata hfeeds

/-- **A message is read.** -/
theorem Feeds.read (settings : Settings) {told : Bool} {rs ms : List Message} {m : Message}
    {c : ClientLoop} (h : Feeds told c.mode rs (m :: ms)) (hsettled : c.Settled) (f : Finds) :
    c.Reads settings told rs ms (c.read settings f m) := by
  unfold ClientLoop.mode at h
  cases hdoing : c.doing with
  | quit =>
      rw [hdoing] at h
      cases h
  | loading owed =>
      rw [hdoing] at h
      have hmode : c.mode = .loading := by
        unfold ClientLoop.mode
        rw [hdoing]
      cases h with
      | append b _ _ hrest =>
          have hread : c.read settings f (.append, b) = c := by
            unfold ClientLoop.read
            simp [hdoing]
          rw [hread]
          exact .silent c (hmode ▸ hrest) rfl rfl rfl rfl hsettled
      | endFile text _ _ hrest =>
          have hread : c.read settings f (.endFile, text)
              = { c with doing := .reading, said := c.said ++ owed } := by
            unfold ClientLoop.read
            simp [hdoing]
          rw [hread]
          exact .finishes owed hdoing hrest (hsettled owed hdoing)
  | reading =>
      rw [hdoing] at h
      simp only at h
      generalize hd : c.datapth = datapth at h
      cases h with
      | told text htold htext =>
          have hread : c.read settings f (.gen, text)
              = { c with doing := .quit,
                         said := c.said ++ [(.gen, nameBytes "okbackupphase2end")] } := by
            unfold ClientLoop.read
            simp [hdoing, htext, Cmd.filedata]
          rw [hread]
          exact .agrees hdoing htold rfl rfl
      | datapth d path rs _ hrest =>
          have hread : c.read settings f (.datapth, d) = { c with datapth := some d } := by
            unfold ClientLoop.read
            simp [hdoing]
          rw [hread]
          refine .silent _ ?_ rfl rfl rfl rfl ?_
          · unfold ClientLoop.mode
            simp only [hdoing]
            exact hrest
          · intro owed howed
            rw [hdoing] at howed
            cases howed
      | stat d text r rs _ hrest =>
          have hread : c.read settings f (.stat, text) = c := by
            unfold ClientLoop.read
            simp [hdoing]
          rw [hread]
          refine .silent _ ?_ rfl rfl rfl rfl hsettled
          unfold ClientLoop.mode
          simp only [hdoing, hd]
          exact hrest
      | whole cmd path rs _ hdata hrest =>
          apply ClientLoop.reads_request hdoing f hdata
          rw [hd]
          simpa [Taken.isDelta] using hrest
      | delta d path rs _ hrest =>
          apply ClientLoop.reads_request hdoing f rfl
          rw [hd]
          exact hrest

/-! ## §4. A turn of the server. -/

/-- What is still to be sent of a request, but for its signature. -/
def Asking.parts (a : Asking) : List Message :=
  (if a.senddatapth then [(.datapth, a.sb.datapth.getD [])] else [])
    ++ (if a.sendstat then [(.stat, a.sb.statbuf)] else [])
    ++ (if a.sendpath then [askedFor a.sb] else [])

/-- The end of its signature, unless that has been sent. -/
def Asking.ending (a : Asking) : List Message :=
  if a.sigjob || a.sendendofsig then [(.endFile, nameBytes "endfile")] else []

/-- What is still to be sent of a request; the blocks of the signature come in between. -/
def Asking.unsent (a : Asking) : List Message := a.parts ++ a.ending

/-- The last request of a log. -/
def lastAsked (es : List Event) (before : Option Bytes) : Option Bytes :=
  ((asked es).getLast?.map Sbuf.path).getD before

/-- **What sending does**, in messages. -/
structure Sending (blocks : List Bytes) (s : State) (r : State × Sts) (es : List Event) :
    Prop where
  log : r.1.log = s.log ++ es
  all : r.2 = .all → es.flatMap (Event.messages blocks) = s.p1b.parts
    ++ if s.p1b.ending = [] then [] else blocks.map (fun b => (.append, b)) ++ s.p1b.ending
  again : r.2 ≠ .all →
    es.flatMap (Event.messages blocks) ++ r.1.p1b.unsent = s.p1b.unsent
  last : r.1.lastRequested = lastAsked es s.lastRequested

/-- One message that goes out before the rest. -/
theorem Sending.cons {blocks : List Bytes} {s s' : State} {r : State × Sts} {es : List Event}
    {e : Event} (h : Sending blocks s' r es) (hlog : s'.log = s.log ++ [e])
    (hparts : e.messages blocks ++ s'.p1b.parts = s.p1b.parts)
    (hending : s'.p1b.ending = s.p1b.ending)
    (hlast : s'.lastRequested = lastAsked [e] s.lastRequested) : Sending blocks s r (e :: es) where
  log := by rw [h.log, hlog, List.append_assoc, List.singleton_append]
  all := by
    intro hall
    rw [List.flatMap_cons, h.all hall, ← hparts, hending, List.append_assoc]
  again := by
    intro hagain
    rw [List.flatMap_cons, List.append_assoc, h.again hagain, Asking.unsent, Asking.unsent,
      ← hparts, hending, List.append_assoc]
  last := by
    rw [h.last, hlast]
    unfold lastAsked
    rw [show e :: es = [e] ++ es from rfl, asked_append]
    cases hasked : asked es with
    | nil => simp
    | cons x xs =>
        have hsome : (x :: xs).getLast? = some ((x :: xs).getLast (by simp)) :=
          List.getLast?_eq_some_getLast (by simp)
        rw [List.getLast?_append, hsome]
        rfl

/-- With no room, nothing is sent. -/
theorem sending_stuck (blocks : List Bytes) (s : State) : Sending blocks s (s, .again) [] where
  log := (List.append_nil _).symm
  all := by
    intro hall
    cases hall
  again := fun _ => rfl
  last := rfl

/-- The signature and its end. -/
theorem sendSignature_sending (blocks : List Bytes) (t : Turn) (room : Nat) {s : State}
    (hparts : s.p1b.parts = []) : ∃ es, Sending blocks s (sendSignature t room s) es := by
  unfold sendSignature
  generalize (if s.p1b.sigjob && !s.p1b.sendendofsig then t.sig else .done) = sig
  cases sig with
  | error =>
      refine ⟨[], (List.append_nil _).symm, ?_, fun _ => rfl, rfl⟩
      intro hall
      cases hall
  | running => exact ⟨[], sending_stuck blocks s⟩
  | done =>
      simp only
      split_ifs with hsigns
      · have hending : s.p1b.ending = [(.endFile, nameBytes "endfile")] := if_pos hsigns
        cases room with
        | zero =>
            refine ⟨[], (List.append_nil _).symm, ?_, ?_, rfl⟩
            · intro hall
              cases hall
            · intro _
              -- the job is done, and its end is still to be sent
              show ({ s.p1b with sendendofsig := true } : Asking).unsent = s.p1b.unsent
              rw [Asking.unsent, Asking.unsent, hending, Asking.ending, if_pos (by simp)]
              rfl
        | succ room =>
            refine ⟨[.sent .endFile (nameBytes "endfile")], rfl, ?_, ?_, rfl⟩
            · intro _
              rw [hparts, hending]
              simp [Event.messages]
            · intro hagain
              exact absurd rfl hagain
      · have hending : s.p1b.ending = [] := if_neg hsigns
        refine ⟨[], (List.append_nil _).symm, ?_, ?_, rfl⟩
        · intro _
          rw [hparts, hending]
          rfl
        · intro hagain
          exact absurd rfl hagain

/-- `do_stuff_to_send` from the path on. -/
def sendFromPath (t : Turn) (r : State × Option Nat) : State × Sts :=
  match sendPart (·.sendpath)
    (fun s => { s with p1b := { s.p1b with sendpath := false },
                       lastRequested := s.p1b.sb.path }.emit [.asked s.p1b.sb]) r with
  | (s, none) => (s, .again)
  | (s, some room) => sendSignature t room s

/-- `do_stuff_to_send` from the stat on. -/
def sendFromStat (t : Turn) (r : State × Option Nat) : State × Sts :=
  sendFromPath t (sendPart (·.sendstat)
    (fun s => { s with p1b := { s.p1b with sendstat := false } }.emit
      [.sent .stat s.p1b.sb.statbuf]) r)

theorem sendFromPath_sending (blocks : List Bytes) (t : Turn) (room : Nat) {s : State}
    (hdatapth : s.p1b.senddatapth = false) (hstat : s.p1b.sendstat = false) :
    ∃ es, Sending blocks s (sendFromPath t (s, some room)) es := by
  unfold sendFromPath
  by_cases hpath : s.p1b.sendpath = true
  · cases room with
    | zero =>
        simp only [sendPart, hpath, if_true]
        exact ⟨[], sending_stuck blocks s⟩
    | succ room =>
        simp only [sendPart, hpath, if_true]
        obtain ⟨es, hes⟩ := sendSignature_sending blocks t room
          (s := { s with p1b := { s.p1b with sendpath := false },
                         lastRequested := s.p1b.sb.path }.emit [.asked s.p1b.sb])
          (by simp [Asking.parts, State.emit, hdatapth, hstat])
        refine ⟨_, hes.cons (e := .asked s.p1b.sb) rfl ?_ rfl rfl⟩
        simp [Asking.parts, State.emit, hdatapth, hstat, hpath, Event.messages, askedFor]
  · simp only [sendPart, hpath, Bool.false_eq_true, if_false]
    apply sendSignature_sending
    simp [Asking.parts, hdatapth, hstat, hpath]

theorem sendFromStat_sending (blocks : List Bytes) (t : Turn) (room : Nat) {s : State}
    (hdatapth : s.p1b.senddatapth = false) :
    ∃ es, Sending blocks s (sendFromStat t (s, some room)) es := by
  unfold sendFromStat
  by_cases hstat : s.p1b.sendstat = true
  · cases room with
    | zero =>
        simp only [sendPart, hstat, if_true]
        exact ⟨[], sending_stuck blocks s⟩
    | succ room =>
        simp only [sendPart, hstat, if_true]
        obtain ⟨es, hes⟩ := sendFromPath_sending blocks t room
          (s := { s with p1b := { s.p1b with sendstat := false } }.emit
            [.sent .stat s.p1b.sb.statbuf]) hdatapth rfl
        refine ⟨_, hes.cons (e := .sent .stat s.p1b.sb.statbuf) rfl ?_ rfl rfl⟩
        simp [Asking.parts, State.emit, hdatapth, hstat, Event.messages]
  · simp only [sendPart, hstat, Bool.false_eq_true, if_false]
    exact sendFromPath_sending blocks t room hdatapth (by simpa using hstat)

/-- **`do_stuff_to_send`**, in messages. -/
theorem doStuffToSend_sending (blocks : List Bytes) (t : Turn) (s : State) :
    ∃ es, Sending blocks s (doStuffToSend t s) es := by
  show ∃ es, Sending blocks s (sendFromStat t (sendPart (·.senddatapth)
    (fun s => { s with p1b := { s.p1b with senddatapth := false } }.emit
      [.sent .datapth (s.p1b.sb.datapth.getD [])]) (s, some t.room))) es
  by_cases hdatapth : s.p1b.senddatapth = true
  · generalize t.room = room
    cases room with
    | zero =>
        simp only [sendPart, hdatapth, if_true]
        exact ⟨[], sending_stuck blocks s⟩
    | succ room =>
        simp only [sendPart, hdatapth, if_true]
        obtain ⟨es, hes⟩ := sendFromStat_sending blocks t room
          (s := { s with p1b := { s.p1b with senddatapth := false } }.emit
            [.sent .datapth (s.p1b.sb.datapth.getD [])]) rfl
        refine ⟨_, hes.cons (e := .sent .datapth (s.p1b.sb.datapth.getD [])) rfl ?_ rfl rfl⟩
        simp only [Asking.parts, State.emit, hdatapth, Event.messages, if_true]
        rfl
  · simp only [sendPart, hdatapth, Bool.false_eq_true, if_false]
    exact sendFromStat_sending blocks t t.room (by simpa using hdatapth)

/-- A request that has been decided on is on its way, or there is none. -/
def Asking.Decided (a : Asking) : Prop :=
  Feeds false (.reading none) (a.pending.map askedFor) a.unsent

theorem decided_nothing (sb : Sbuf) : ({ sb := sb } : Asking).Decided := .done rfl

theorem decided_whole {sb : Sbuf} (hdata : sb.cmd.filedata = true) :
    ({ sb := sb, sendstat := true, sendpath := true } : Asking).Decided :=
  .stat _ _ _ _ _ (.whole _ _ _ _ hdata (.done rfl))

theorem decided_delta {sb : Sbuf} (hfile : sb.cmd = .file) :
    ({ sb := sb, senddatapth := true, sendstat := true, sendpath := true, sigjob := true }
      : Asking).Decided := by
  have hasked : askedFor sb = (.file, sb.path.getD []) := by
    unfold askedFor
    rw [hfile]
  show Feeds false (.reading none) [askedFor sb]
    [(.datapth, sb.datapth.getD []), (.stat, sb.statbuf), askedFor sb,
      (.endFile, nameBytes "endfile")]
  rw [hasked]
  exact .datapth _ _ _ _ (.stat _ _ _ _ _ (.delta _ _ _ _ (.endFile _ _ _ (.done rfl))))

/-- Only a plain file is asked for by delta. -/
theorem lookup_delta {conf : Conf} {cman : Option (List Sbuf)} {cb p1b : Sbuf}
    (h : (lookup conf cman cb p1b).outcome = .delta) : p1b.cmd = .file := by
  rcases lookup_cases conf cman cb p1b with hnew | ⟨keep, hdone, -⟩
  · rw [h] at hnew
    exact absurd hnew.symm processNew_ne_delta
  · rw [h] at hdone
    exact (delta_spec hdone).2.2.1

/-- **An entry is decided on.** -/
theorem compareEntry_decided (conf : Conf) (t : Turn) {s : State} (sb : Sbuf)
    (hp1b : s.p1b = { sb := sb }) :
    (compareEntry conf t s).1.p1 = s.p1 ∧ (compareEntry conf t s).1.p1b.Decided := by
  unfold compareEntry
  split_ifs with hread
  · rw [hp1b]
    exact ⟨rfl, decided_nothing sb⟩
  · rw [hp1b]
    unfold carryOut
    cases hout : (lookup conf s.cman s.cb sb).outcome with
    | request =>
        have hdata : sb.cmd.filedata = true := by
          apply lookup_request conf s.cman s.cb
          intro writer sb' h
          rw [hout] at h
          cases h
        simp only [hp1b]
        exact ⟨trivial, decided_whole hdata⟩
    | delta =>
        have hfile : sb.cmd = .file := lookup_delta hout
        simp only [hp1b]
        split_ifs
        · exact ⟨rfl, decided_delta hfile⟩
        · exact ⟨rfl, decided_nothing _⟩
    | unchanged writer sb' =>
        simp only
        split_ifs
        all_goals
          refine ⟨rfl, ?_⟩
          show s.p1b.Decided
          rw [hp1b]
          exact decided_nothing sb

/-- What is compared sends nothing. -/
theorem compareEntry_silent (conf : Conf) (t : Turn) (s : State) (blocks : List Bytes) :
    ∃ es, Advances s (compareEntry conf t s).1 es ∧ asked es = []
      ∧ es.flatMap (Event.messages blocks) = [] := by
  obtain ⟨es, hadv, hes⟩ := compareEntry_spec conf t s
  refine ⟨es, hadv, ?_⟩
  rcases hes with rfl | ⟨writer, sb, -, -, -, ⟨rfl, -⟩ | ⟨rfl, -, -⟩⟩
  all_goals exact ⟨rfl, rfl⟩

/-- **The next entry**, in messages: nothing when the list has ended before, and otherwise a
request, nothing, or the end of phase 2. -/
theorem nextEntry_feeds (conf : Conf) (t : Turn) (s : State) (blocks : List Bytes)
    (hended : s.p1 = none → s.p1b = {}) :
    ∃ es, Advances s (nextEntry conf t s).1 es ∧ asked es = []
      ∧ ((nextEntry conf t s).1.p1 = none → (nextEntry conf t s).1.p1b = {})
      ∧ (s.p1 = none ∧ es = [] ∧ (nextEntry conf t s).1 = s
        ∨ s.p1 ≠ none ∧ Feeds (nextEntry conf t s).1.p1.isNone (.reading none)
          ((nextEntry conf t s).1.p1b.pending.map askedFor)
          (es.flatMap (Event.messages blocks) ++ (nextEntry conf t s).1.p1b.unsent)) := by
  unfold nextEntry
  rcases hp1 : s.p1 with _ | _ | ⟨sb, p1⟩
  · exact ⟨[], ⟨rfl, rfl, rfl, (List.append_nil _).symm⟩, rfl, fun _ => hended hp1,
      Or.inl ⟨rfl, rfl, rfl⟩⟩
  · simp only
    split_ifs with hreads hend
    · exact ⟨[], ⟨rfl, rfl, rfl, (List.append_nil _).symm⟩, rfl, fun _ => rfl,
        Or.inr ⟨by simp, .done rfl⟩⟩
    · -- the end of the list
      generalize hs : ({ s with p1 := none, p1b := {} }.emit
        [.sent .gen (nameBytes "backupphase2end")] : State) = s₁
      obtain ⟨es, hadv, hasked, hsilent⟩ := compareEntry_silent conf t s₁ blocks
      obtain ⟨hkept, -⟩ := compareEntry_decided conf t {} (s := s₁) (by rw [← hs]; rfl)
      have hp1b : (compareEntry conf t s₁).1.p1b = {} := by
        unfold compareEntry
        split_ifs
        · rw [← hs]
          rfl
        · obtain ⟨writer, sb, hout, hpath⟩ := lookup_nothing conf s₁.cman s₁.cb
          have hsb : s₁.p1b.sb = {} := by
            rw [← hs]
            rfl
          unfold carryOut
          simp only [hsb, hout, hpath, Option.isNone_none, if_true]
          rw [← hs]
          rfl
      have hp1' : (compareEntry conf t s₁).1.p1 = none := by
        rw [hkept, ← hs]
        rfl
      refine ⟨.sent .gen (nameBytes "backupphase2end") :: es, ?_, ?_, fun _ => hp1b,
        Or.inr ⟨by simp, ?_⟩⟩
      · refine ⟨?_, ?_, ?_, ?_⟩
        · rw [hadv.rb, ← hs]
          rfl
        · rw [hadv.dpth, ← hs]
          rfl
        · rw [hadv.lastRequested, ← hs]
          rfl
        · rw [hadv.log, ← hs]
          simp [State.emit]
      · show asked ([.sent .gen (nameBytes "backupphase2end")] ++ es) = []
        rw [asked_append, hasked]
        rfl
      · rw [hp1', hp1b, List.flatMap_cons, hsilent]
        exact .told _ rfl (by decide)
    · exact ⟨[.sent .gen (nameBytes "backupphase2end")], ⟨rfl, rfl, rfl, rfl⟩, rfl, fun _ => rfl,
        Or.inr ⟨by simp, .told _ rfl (by decide)⟩⟩
  · simp only
    split_ifs with hreads
    · exact ⟨[], ⟨rfl, rfl, rfl, (List.append_nil _).symm⟩, rfl, fun _ => rfl,
        Or.inr ⟨by simp, .done rfl⟩⟩
    · generalize hs : ({ s with p1 := some p1, p1b := { sb := sb } } : State) = s₁
      obtain ⟨es, hadv, hasked, hsilent⟩ := compareEntry_silent conf t s₁ blocks
      obtain ⟨hkept, hdecided⟩ := compareEntry_decided conf t sb (s := s₁) (by rw [← hs])
      have hp1' : (compareEntry conf t s₁).1.p1 = some p1 := by rw [hkept, ← hs]
      refine ⟨es, ?_, hasked, ?_, Or.inr ⟨by simp, ?_⟩⟩
      · refine ⟨?_, ?_, ?_, ?_⟩
        · rw [hadv.rb, ← hs]
        · rw [hadv.dpth, ← hs]
        · rw [hadv.lastRequested, ← hs]
        · rw [hadv.log, ← hs]
      · intro hnone
        rw [hp1'] at hnone
        cases hnone
      · rw [hp1', hsilent]
        exact hdecided

/-- With nothing to send, nothing is sent. -/
theorem doStuffToSend_idle (t : Turn) {s : State} (h : s.p1b = {}) :
    doStuffToSend t s = (s, .all) := by
  unfold doStuffToSend
  simp [sendPart, sendSignature, h]

/-- What is decided before anything is received stays so, and nothing is sent for what is
received. -/
theorem receive_silent (conf : Conf) (working : Bytes) (t : Turn) (s : State) :
    ∃ es, Receives s (doStuffToReceive conf working t s).1 es
      ∧ ∀ e ∈ es, e.isMessage = false := by
  have hnil : ∀ s' : State, s'.p1 = s.p1 → s'.cman = s.cman → s'.cb = s.cb → s'.p1b = s.p1b →
      s'.log = s.log → ∃ es, Receives s s' es ∧ ∀ e ∈ es, e.isMessage = false := by
    intro s' h1 h2 h3 h4 h5
    exact ⟨[], ⟨h1, h2, h3, h4, by rw [h5, List.append_nil]⟩, by simp⟩
  have htouched : ∀ paths : List Bytes, ∀ e ∈ paths.map Event.touched, e.isMessage = false := by
    intro paths e he
    obtain ⟨p, -, rfl⟩ := List.mem_map.mp he
    rfl
  apply doStuffToReceive_cases
    (P := fun r => ∃ es, Receives s r.1 es ∧ ∀ e ∈ es, e.isMessage = false)
  case idle => intro lr; exact hnil _ rfl rfl rfl rfl rfl
  case done => intro text _; exact hnil _ rfl rfl rfl rfl rfl
  case error => exact hnil _ rfl rfl rfl rfl rfl
  case datapth => intro text _ _; exact hnil _ rfl rfl rfl rfl rfl
  case stat => intro text _ _; exact hnil _ rfl rfl rfl rfl rfl
  case delta =>
    intro cmd text _ _ _ _
    exact ⟨_, (startToReceiveDelta_spec working t _ s).1, htouched [_]⟩
  case whole =>
    intro cmd text _ _ _ _
    obtain ⟨paths, hrec, -⟩ := startToReceiveNewFile_spec conf working t
      { s.rb.sb with cmd := cmd, path := some text } s
    refine ⟨_, hrec, ?_⟩
    intro e he
    rcases List.mem_append.mp he with he | he
    · split_ifs at he
      · cases he
      · rw [List.mem_singleton.mp he]
        rfl
    · exact htouched paths e he
  case ended =>
    intro text _ _
    obtain ⟨es, hrec, -, -, paths, -, hes⟩ := receiveEnd_spec working t text s
    refine ⟨es, hrec, ?_⟩
    intro e he
    rcases hes with ⟨-, rfl, -⟩ | ⟨-, rfl | rfl⟩
    · rcases List.mem_append.mp he with he | he
      · exact htouched paths e he
      · rw [List.mem_singleton.mp he]
        rfl
    · exact htouched paths e he
    · rcases List.mem_append.mp he with he | he
      · exact htouched paths e he
      · rw [List.mem_singleton.mp he]
        rfl

theorem silent_messages {es : List Event} (h : ∀ e ∈ es, e.isMessage = false)
    (blocks : List Bytes) : asked es = [] ∧ es.flatMap (Event.messages blocks) = [] := by
  constructor
  · apply List.filterMap_eq_nil_iff.mpr
    intro e he
    have hmessage := h e he
    cases e <;> simp_all [Event.isMessage]
  · apply List.flatMap_eq_nil_iff.mpr
    intro e he
    have hmessage := h e he
    cases e <;> simp_all [Event.isMessage, Event.messages]

/-- What is known of a turn once it has received: `s` is what it has then, and `s'` the end. -/
structure Goes (blocks : List Bytes) (s s' : State) (es : List Event) : Prop where
  log : s'.log = s.log ++ es
  rb : s'.rb = s.rb
  last : s'.lastRequested = lastAsked es s.lastRequested
  ended : s'.p1 = none → s'.p1b = {}
  feeds : ∀ mode rs ms,
    Feeds s.p1.isNone mode (rs ++ s.p1b.pending.map askedFor) (ms ++ s.p1b.unsent) →
    Feeds s'.p1.isNone mode (rs ++ (asked es).map askedFor ++ s'.p1b.pending.map askedFor)
      (ms ++ es.flatMap (Event.messages blocks) ++ s'.p1b.unsent)

/-- Sending that does not get to its end. -/
theorem goes_again (blocks : List Bytes) (t : Turn) {s : State}
    (hended : s.p1 = none → s.p1b = {}) (h : (doStuffToSend t s).2 ≠ .all) :
    ∃ es, Goes blocks s (doStuffToSend t s).1 es := by
  obtain ⟨⟨es, hsends⟩, -⟩ := doStuffToSend_spec t s
  obtain ⟨es', hsending⟩ := doStuffToSend_sending blocks t s
  have hes : es' = es := List.append_cancel_left (hsending.log.symm.trans hsends.log)
  subst hes
  refine ⟨es', hsends.log, hsends.rb, hsending.last, ?_, ?_⟩
  · intro hp1
    rw [hsends.p1] at hp1
    rw [doStuffToSend_idle t (hended hp1)] at h
    exact absurd rfl h
  · intro mode rs ms hfeeds
    rw [hsends.p1, List.append_assoc rs, ← List.map_append, hsends.pending,
      List.append_assoc ms, hsending.again h]
    exact hfeeds

/-- Sending that does, and the next entry. -/
theorem goes_next (conf : Conf) (blocks : List Bytes) (t : Turn) {s : State}
    (hended : s.p1 = none → s.p1b = {}) (h : (doStuffToSend t s).2 = .all) :
    ∃ es, Goes blocks s (nextEntry conf t (doStuffToSend t s).1).1 es := by
  by_cases hp1 : s.p1 = none
  · -- the list has ended before
    rw [doStuffToSend_idle t (hended hp1)]
    obtain ⟨es, hadv, hasked, hended', ⟨-, rfl, hsame⟩ | ⟨hne, -⟩⟩ :=
      nextEntry_feeds conf t s blocks hended
    · refine ⟨[], hadv.log, hadv.rb, hadv.lastRequested, hended', ?_⟩
      intro mode rs ms hfeeds
      rw [hsame]
      simpa [asked] using hfeeds
    · exact absurd hp1 hne
  · obtain ⟨⟨es, hsends⟩, hpending⟩ := doStuffToSend_spec t s
    obtain ⟨es', hsending⟩ := doStuffToSend_sending blocks t s
    have hes : es' = es := List.append_cancel_left (hsending.log.symm.trans hsends.log)
    subst hes
    have hasked : asked es' = s.p1b.pending := by
      rw [← hsends.pending, hpending h, List.append_nil]
    have hp1' : (doStuffToSend t s).1.p1 ≠ none := by
      rw [hsends.p1]
      exact hp1
    have hnot : s.p1.isNone = false := by
      cases hs : s.p1 with
      | none => exact absurd hs hp1
      | some p1 => rfl
    obtain ⟨es, hadv, hnone, hended', ⟨habsurd, -⟩ | ⟨-, hnext⟩⟩ :=
      nextEntry_feeds conf t (doStuffToSend t s).1 blocks fun h => absurd h hp1'
    · exact absurd habsurd hp1'
    · refine ⟨es' ++ es, ?_, ?_, ?_, hended', ?_⟩
      · rw [hadv.log, hsends.log, List.append_assoc]
      · rw [hadv.rb, hsends.rb]
      · rw [hadv.lastRequested, hsending.last]
        unfold lastAsked
        rw [asked_append, hnone, List.append_nil]
      · intro mode rs ms hfeeds
        rw [hnot] at hfeeds
        have hfull : Feeds false mode (rs ++ (asked es').map askedFor)
            (ms ++ es'.flatMap (Event.messages blocks)) := by
          rw [hasked, hsending.all h]
          unfold Asking.unsent Asking.ending at hfeeds
          unfold Asking.ending
          split_ifs at hfeeds ⊢
          · simp at *
          · rw [← List.append_assoc] at hfeeds
            have hinsert := hfeeds.insert blocks
            rw [List.append_assoc] at hinsert
            exact hinsert
          · exact hfeeds
          · simp at *
        have happend := hfull.append_feeds hnext
        rw [asked_append, hnone, List.append_nil, List.flatMap_append, ← List.append_assoc ms,
          List.append_assoc (ms ++ _)]
        exact happend

theorem Goes.refl (blocks : List Bytes) {s : State} (hended : s.p1 = none → s.p1b = {}) :
    Goes blocks s s [] where
  log := (List.append_nil _).symm
  rb := rfl
  last := rfl
  ended := hended
  feeds := by
    intro mode rs ms hfeeds
    simpa [asked] using hfeeds

/-- A state after receiving, in a turn that may go on. -/
def Received (conf : Conf) (working : Bytes) (t : Turn) (s s₁ : State) (more : Prop) : Prop :=
  receives t s = false ∧ s₁ = s
    ∨ receives t s = true ∧ s₁ = (doStuffToReceive conf working t s).1
      ∧ (more → (doStuffToReceive conf working t s).2 = .more)

/-- **A turn** receives and then goes on from what it has received. -/
theorem turn_goes (conf : Conf) (working : Bytes) (blocks : List Bytes) (t : Turn) {s : State}
    (hended : s.p1 = none → s.p1b = {}) :
    ∃ s₁ es, Received conf working t s s₁ ((turn conf working t s).2 = .more)
      ∧ Goes blocks s₁ (turn conf working t s).1 es := by
  have hended' : (doStuffToReceive conf working t s).1.p1 = none →
      (doStuffToReceive conf working t s).1.p1b = {} := by
    obtain ⟨es, hrec, -⟩ := receive_silent conf working t s
    rw [hrec.p1, hrec.p1b]
    exact hended
  apply turn_cases
    (R := fun s₁ => (∀ more, Received conf working t s s₁ more) ∧ (s₁.p1 = none → s₁.p1b = {}))
    (P := fun r => ∃ s₁ es, Received conf working t s s₁ (r.2 = .more) ∧ Goes blocks s₁ r.1 es)
  case skipped =>
    intro hr
    exact ⟨fun _ => Or.inl ⟨hr, rfl⟩, hended⟩
  case received =>
    intro hr hmore
    exact ⟨fun _ => Or.inr ⟨hr, rfl, fun _ => hmore⟩, hended'⟩
  case stops =>
    intro hr hne
    exact ⟨_, [], Or.inr ⟨hr, rfl, fun h => h⟩, .refl blocks hended'⟩
  case again =>
    intro s₁ hs₁ hagain
    obtain ⟨es, hes⟩ := goes_again blocks t hs₁.2 (by simp [hagain])
    exact ⟨s₁, es, hs₁.1 _, hes⟩
  case fails =>
    intro s₁ hs₁ hfails
    obtain ⟨es, hes⟩ := goes_again blocks t hs₁.2 (by simp [hfails])
    exact ⟨s₁, es, hs₁.1 _, hes⟩
  case next =>
    intro s₁ hs₁ hall
    obtain ⟨es, hes⟩ := goes_next conf blocks t hs₁.2 hall
    exact ⟨s₁, es, hs₁.1 _, hes⟩

/-- What is received is no message to the client. -/
theorem Received.silent {conf : Conf} {working : Bytes} {t : Turn} {s s₁ : State} {more : Prop}
    (h : Received conf working t s s₁ more) :
    ∃ es, s₁.log = s.log ++ es ∧ s₁.p1 = s.p1 ∧ s₁.p1b = s.p1b
      ∧ ∀ e ∈ es, e.isMessage = false := by
  rcases h with ⟨-, rfl⟩ | ⟨-, rfl, -⟩
  · exact ⟨[], (List.append_nil _).symm, rfl, rfl, by simp⟩
  · obtain ⟨es, hrec, hes⟩ := receive_silent conf working t s
    exact ⟨es, hrec.log, hrec.p1, hrec.p1b, hes⟩

/-- **The requests on their way** after a turn. -/
theorem Goes.turn_feeds {conf : Conf} {working : Bytes} {blocks : List Bytes} {t : Turn}
    {s s₁ s' : State} {es : List Event} {goes : Prop} (more : List Bytes)
    (hgoes : Goes blocks s₁ s' es) (hrec : Received conf working t s s₁ goes)
    {mode : Mode} {rs ms : List Message}
    (h : Feeds s.p1.isNone mode (rs ++ s.p1b.pending.map askedFor) (ms ++ s.p1b.unsent)) :
    asked s'.log = asked s.log ++ asked es
      ∧ Feeds s'.p1.isNone mode (rs ++ (asked es).map askedFor ++ s'.p1b.pending.map askedFor)
        (ms ++ emitted blocks more s s' ++ s'.p1b.unsent) := by
  obtain ⟨er, hlog, hp1, hp1b, hsilent⟩ := hrec.silent
  obtain ⟨hnone, hquiet⟩ := silent_messages hsilent blocks
  have hlog' : s'.log = s.log ++ (er ++ es) := by
    rw [hgoes.log, hlog, List.append_assoc]
  have hfeeds : Feeds s'.p1.isNone mode
      (rs ++ (asked es).map askedFor ++ s'.p1b.pending.map askedFor)
      (ms ++ es.flatMap (Event.messages blocks) ++ s'.p1b.unsent) := by
    apply hgoes.feeds
    rw [hp1, hp1b]
    exact h
  constructor
  · rw [hlog', asked_append, asked_append, hnone, List.nil_append]
  · unfold emitted
    rw [hlog', List.drop_left, List.flatMap_append, hquiet, List.nil_append]
    split_ifs with hsigning
    · -- the signature goes on: its end is all that is unsent
      have hunsent : s'.p1b.unsent = [(.endFile, nameBytes "endfile")] := by
        unfold Asking.signing at hsigning
        simp only [Bool.and_eq_true, Bool.not_eq_true'] at hsigning
        obtain ⟨⟨⟨hjob, hdatapth⟩, hstat⟩, hpath⟩ := hsigning
        simp [Asking.unsent, Asking.parts, Asking.ending, hjob, hdatapth, hstat, hpath]
      rw [hunsent] at hfeeds ⊢
      have hinsert := hfeeds.insert more
      simpa [List.append_assoc] using hinsert
    · rw [List.append_nil]
      exact hfeeds

/-! ## §5. Answers on their way. -/

/-- **Answers on their way** to a server that is receiving the file `reading`, if any: the
messages with the answers to requests for some paths, in order. -/
inductive Hears (agreed : Bool) : Option Bytes → List Bytes → List Message → Prop
  | done (hnot : agreed = false) : Hears agreed none [] []
  | agrees (text : Bytes) (hagreed : agreed = true)
      (htext : cString text = nameBytes "okbackupphase2end") :
      Hears agreed none [] [(.gen, text)]
  | warning (reading : Option Bytes) (text : Bytes) (paths : List Bytes) (ms : List Message)
      (hrest : Hears agreed reading paths ms) :
      Hears agreed reading paths ((.warning, text) :: ms)
  | interrupt (path : Bytes) (paths : List Bytes) (ms : List Message)
      (hrest : Hears agreed none paths ms) :
      Hears agreed none (path :: paths) ((.interrupt, cString path) :: ms)
  | datapth (d : Bytes) (paths : List Bytes) (ms : List Message)
      (hrest : Hears agreed none paths ms) : Hears agreed none paths ((.datapth, d) :: ms)
  | stat (text : Bytes) (paths : List Bytes) (ms : List Message)
      (hrest : Hears agreed none paths ms) : Hears agreed none paths ((.stat, text) :: ms)
  | path (cmd : Cmd) (path : Bytes) (paths : List Bytes) (ms : List Message)
      (hdata : cmd.filedata = true) (hrest : Hears agreed (some path) paths ms) :
      Hears agreed none (path :: paths) ((cmd, cString path) :: ms)
  | append (path b : Bytes) (paths : List Bytes) (ms : List Message)
      (hrest : Hears agreed (some path) paths ms) :
      Hears agreed (some path) paths ((.append, b) :: ms)
  | endFile (path text : Bytes) (paths : List Bytes) (ms : List Message)
      (hrest : Hears agreed none paths ms) :
      Hears agreed (some path) paths ((.endFile, text) :: ms)

theorem Hears.append_hears {agreed : Bool} {reading : Option Bytes} {paths paths' : List Bytes}
    {ms ms' : List Message} (h : Hears false reading paths ms)
    (h' : Hears agreed none paths' ms') :
    Hears agreed reading (paths ++ paths') (ms ++ ms') := by
  induction h with
  | done => exact h'
  | agrees text hagreed => cases hagreed
  | warning reading text paths ms _ ih => exact .warning _ _ _ _ ih
  | interrupt path paths ms _ ih => exact .interrupt _ _ _ ih
  | datapth d paths ms _ ih => exact .datapth _ _ _ ih
  | stat text paths ms _ ih => exact .stat _ _ _ ih
  | path cmd path paths ms hdata _ ih => exact .path _ _ _ _ hdata ih
  | append path b paths ms _ ih => exact .append _ _ _ _ ih
  | endFile path text paths ms _ ih => exact .endFile _ _ _ _ ih

theorem Hears.warnings {agreed : Bool} {paths : List Bytes} {ms ws : List Message}
    (h : Hears agreed none paths ms) (hws : ∀ w ∈ ws, w.1 = .warning) :
    Hears agreed none paths (ws ++ ms) := by
  induction ws with
  | nil => exact h
  | cons w ws ih =>
      obtain ⟨cmd, text⟩ := w
      have hcmd : cmd = .warning := hws (cmd, text) List.mem_cons_self
      rw [hcmd]
      exact .warning _ _ _ _ (ih fun x hx => hws x (List.mem_cons_of_mem _ hx))

theorem hears_data (path : Bytes) (appends : List Bytes) (endfile : Bytes) :
    Hears false (some path) [] (dataMessages appends endfile) := by
  unfold dataMessages
  induction appends with
  | nil => exact .endFile _ _ _ _ (.done rfl)
  | cons b appends ih => exact .append _ _ _ _ ih

/-- **The answer to a request.** -/
theorem hears_reply {settings : Settings} {r : Taken} (hdata : r.cmd.filedata = true)
    (h : r.Answered settings) : Hears false none [r.path] (r.reply settings) := by
  obtain ⟨herror, hnone⟩ := h
  unfold Taken.reply Taken.begins Taken.owes
  cases hexit : r.exit settings
  case metaError => exact absurd hexit herror
  case noMeta => exact absurd hexit hnone
  case sends =>
    by_cases hdelta : r.isDelta = true
    · simp only [hdelta, if_true, true_and]
      exact .datapth _ _ _ (.stat _ _ _ (.path _ _ _ _ rfl (hears_data _ _ _)))
    · simp only [hdelta, Bool.false_eq_true, if_false, false_and, List.append_nil]
      exact .stat _ _ _ (.path _ _ _ _ hdata (hears_data _ _ _))
  all_goals
    simp only [reduceCtorEq, and_false, if_false]
    exact .interrupt _ _ _ (.done rfl)

/-- The file that the server is receiving. -/
def Reading (rb : Receiving) : Option Bytes → Prop
  | none => rb.isOpen = false
  | some path => rb.isOpen = true ∧ rb.sb.path = some (cString path)

/-- The last request, if it is remembered, is the last of the paths still to be answered. -/
def Last (lastRequested : Option Bytes) (paths : List Bytes) : Prop :=
  lastRequested = none ∨ paths.getLast? = lastRequested

theorem cString_cString (b : Bytes) : cString (cString b) = cString b := List.takeWhile_idem

/-- An answer to the first of them has come. -/
theorem Last.forget {s : State} {path : Bytes} {paths : List Bytes}
    (h : Last s.lastRequested (path :: paths)) :
    Last (s.forget (cString path)).lastRequested paths := by
  unfold State.forget
  simp only [cString_cString]
  split_ifs with hsame
  · exact Or.inl rfl
  · rcases h with hnone | hlast
    · exact Or.inl hnone
    · cases paths with
      | nil =>
          rw [List.getLast?_singleton] at hlast
          rw [← hlast] at hsame
          exact absurd rfl hsame
      | cons x xs =>
          right
          rw [← hlast]
          rfl

/-- New requests have been sent. -/
theorem Last.asked {lastRequested : Option Bytes} {paths : List Bytes} {es : List Event}
    (h : Last lastRequested paths) :
    Last (lastAsked es lastRequested) (paths ++ ((asked es).map askedFor).map Prod.snd) := by
  unfold lastAsked
  cases hlast : (Phase2.asked es).getLast? with
  | none =>
      rw [List.getLast?_eq_none_iff.mp hlast]
      simpa using h
  | some sb =>
      show Last sb.path _
      cases hpath : sb.path with
      | none => exact Or.inl rfl
      | some path =>
          right
          rw [List.getLast?_append, List.getLast?_map, List.getLast?_map, hlast]
          simp [askedFor, hpath]

section Receive

variable {conf : Conf} {working : Bytes} {t : Turn} {s : State} {agreed : Bool}
  {reading : Option Bytes} {paths : List Bytes} {cmd : Cmd} {text : Bytes} {ms : List Message}

theorem lastRequested_startToReceiveNewFile (conf : Conf) (working : Bytes) (t : Turn)
    (sb : Sbuf) (s : State) :
    (startToReceiveNewFile conf working t sb s).1.lastRequested = s.lastRequested := by
  unfold startToReceiveNewFile
  generalize (if conf.directoryTree then treedata sb else (sb, false)) = stored
  obtain ⟨sb', istreedata⟩ := stored
  simp only
  generalize mkpath t.world (datadirtmp working) _ = built
  obtain ⟨made, ok⟩ := built
  cases ok with
  | false => rfl
  | true =>
      cases t.opens with
      | false => rfl
      | true => rfl

/-- The path of a file is received. -/
theorem receive_reading {path : Bytes} (harr : t.arrival = .message cmd (cString path))
    (hclosed : s.rb.isOpen = false) (hdata : cmd.filedata = true)
    (hmore : (doStuffToReceive conf working t s).2 = .more) :
    Reading (doStuffToReceive conf working t s).1.rb (some path)
      ∧ (doStuffToReceive conf working t s).1.lastRequested = s.lastRequested := by
  rw [receive_file harr hclosed hdata] at hmore ⊢
  split_ifs at hmore ⊢ with hdelta
  · obtain ⟨-, -, herror | ⟨-, hrb⟩⟩ := startToReceiveDelta_spec working t
      { s.rb.sb with cmd := cmd, path := some (cString path) } s
    · simp [hmore] at herror
    · refine ⟨?_, ?_⟩
      · rw [hrb]
        exact ⟨rfl, rfl⟩
      · unfold startToReceiveDelta
        simp only
        split_ifs
        · rfl
        · rfl
  · obtain ⟨-, -, -, ⟨herror, -⟩ | ⟨-, -, hopen, -, hpath, -⟩⟩ :=
      startToReceiveNewFile_spec conf working t
        { s.rb.sb with cmd := cmd, path := some (cString path) } s
    · simp [hmore] at herror
    · exact ⟨⟨hopen, hpath⟩, lastRequested_startToReceiveNewFile conf working t _ s⟩

/-- **A message of an answer is received**: an answer may have come to its end with it. -/
theorem Hears.receive (h : Hears agreed reading paths ((cmd, text) :: ms))
    (hreading : Reading s.rb reading) (harr : t.arrival = .message cmd text)
    (hmore : (doStuffToReceive conf working t s).2 = .more) :
    ∃ reading' paths', Hears agreed reading' paths' ms
      ∧ Reading (doStuffToReceive conf working t s).1.rb reading'
      ∧ (reading'.toList ++ paths' = reading.toList ++ paths
          ∧ (doStuffToReceive conf working t s).1.lastRequested = s.lastRequested
        ∨ ∃ path, reading.toList ++ paths = path :: (reading'.toList ++ paths')
          ∧ (doStuffToReceive conf working t s).1.lastRequested
            = (s.forget (cString path)).lastRequested) := by
  cases h with
  | agrees _ _ htext =>
      rw [receive_agrees harr hreading htext] at hmore
      cases hmore
  | warning _ _ _ _ hrest =>
      rw [receive_warning harr]
      exact ⟨reading, paths, hrest, hreading, Or.inl ⟨rfl, rfl⟩⟩
  | interrupt path paths _ hrest =>
      rw [receive_interrupt harr hreading]
      exact ⟨none, paths, hrest, hreading, Or.inr ⟨path, rfl, rfl⟩⟩
  | datapth _ _ _ hrest =>
      rw [receive_datapth harr hreading]
      exact ⟨none, paths, hrest, hreading, Or.inl ⟨rfl, rfl⟩⟩
  | stat _ _ _ hrest =>
      rw [receive_stat harr hreading]
      exact ⟨none, paths, hrest, hreading, Or.inl ⟨rfl, rfl⟩⟩
  | path _ path paths _ hdata hrest =>
      obtain ⟨hrb, hlast⟩ := receive_reading harr hreading hdata hmore
      exact ⟨some path, paths, hrest, hrb, Or.inl ⟨rfl, hlast⟩⟩
  | append path _ paths _ hrest =>
      rw [receive_append harr hreading.1]
      exact ⟨some path, paths, hrest, hreading, Or.inl ⟨rfl, rfl⟩⟩
  | endFile path _ paths _ hrest =>
      rw [receive_endFile harr hreading.1] at hmore ⊢
      obtain ⟨-, -, -, hrb, -, -, ⟨-, -, hlast⟩ | ⟨herror, -⟩⟩ := receiveEnd_spec working t text s
      · refine ⟨none, paths, hrest, ?_, Or.inr ⟨path, rfl, ?_⟩⟩
        · rw [hrb]
          rfl
        · rw [hlast, hreading.2]
          rfl
      · simp [hmore] at herror

end Receive

/-! ## §6. Every step keeps both. -/

/-- What is said after the signature. -/
def Doing.owed : Doing → List Message
  | .loading owed => owed
  | _ => []

def ClientLoop.owed (c : ClientLoop) : List Message := c.doing.owed

/-- **The invariant** of a run in which no request has failed for its metadata. -/
structure Inv (p : Parties) : Prop where
  understood : p.client.failed = false
  settled : p.client.Settled
  ended : p.server.p1 = none → p.server.p1b = {}
  flight : ∃ rs, (asked p.server.log).map askedFor = p.client.taken.map Taken.request ++ rs
    ∧ Feeds p.server.p1.isNone p.client.mode (rs ++ p.server.p1b.pending.map askedFor)
      (p.toClient ++ p.server.p1b.unsent)
    ∧ (p.loop = .more → ∃ reading paths,
      Hears (decide (p.client.doing = .quit)) reading paths (p.toServer ++ p.client.owed)
        ∧ Reading p.server.rb reading
        ∧ Last p.server.lastRequested (reading.toList ++ paths ++ rs.map Prod.snd))

theorem inv_start (p1 : List Sbuf) (cman : Option (List Sbuf)) (dpth : Dpth) :
    Inv { server := State.start p1 cman dpth } where
  understood := rfl
  settled := by
    intro owed howed
    cases howed
  ended := fun _ => rfl
  flight := ⟨[], rfl, .done rfl, fun _ => ⟨none, [], .done rfl, rfl, Or.inl rfl⟩⟩

/-- What receiving leaves of the answers on their way. -/
theorem Received.hears {conf : Conf} {working : Bytes} {t : Turn} {s s₁ : State}
    {queue rest owed : List Message} {agreed : Bool} {reading : Option Bytes}
    {paths more : List Bytes}
    (hrec : Received conf working t s s₁ True)
    (hdelivers : if receives t s then Delivers queue t.arrival rest else rest = queue)
    (hhears : Hears agreed reading paths (queue ++ owed)) (hreading : Reading s.rb reading)
    (hlast : Last s.lastRequested (reading.toList ++ paths ++ more)) :
    ∃ reading' paths', Hears agreed reading' paths' (rest ++ owed) ∧ Reading s₁.rb reading'
      ∧ Last s₁.lastRequested (reading'.toList ++ paths' ++ more) := by
  rcases hrec with ⟨hr, rfl⟩ | ⟨hr, rfl, hmore⟩
  · rw [hr] at hdelivers
    have hrest : rest = queue := by simpa using hdelivers
    rw [hrest]
    exact ⟨reading, paths, hhears, hreading, hlast⟩
  · rw [if_pos hr] at hdelivers
    have hmore := hmore trivial
    generalize harr : t.arrival = arrival at hdelivers
    cases hdelivers with
    | error =>
        unfold doStuffToReceive at hmore
        rw [harr] at hmore
        cases hmore
    | nothing =>
        rw [receive_nothing harr]
        exact ⟨reading, paths, hhears, hreading, hlast⟩
    | message cmd text =>
        obtain ⟨reading', paths', hhears', hreading', ⟨hpaths, hsame⟩ | ⟨path, hpaths, hforget⟩⟩ :=
          hhears.receive hreading harr hmore
        · refine ⟨reading', paths', hhears', hreading', ?_⟩
          rw [hpaths, hsame]
          exact hlast
        · refine ⟨reading', paths', hhears', hreading', ?_⟩
          rw [hforget]
          apply Last.forget
          rw [hpaths] at hlast
          exact hlast

/-- **A turn of the server** keeps the invariant. -/
theorem Inv.server {conf : Conf} {working : Bytes} {p : Parties} (h : Inv p) (t : Turn)
    (rest : List Message) (blocks more : List Bytes) (hmore : p.loop = .more)
    (hdelivers : if receives t p.server then Delivers p.toServer t.arrival rest
      else rest = p.toServer) : Inv (p.serverTurn conf working t rest blocks more) := by
  obtain ⟨rs, hasked, hfeeds, hflight⟩ := h.flight
  obtain ⟨s₁, es, hrec, hgoes⟩ := turn_goes conf working blocks t h.ended
  obtain ⟨hasked', hfeeds'⟩ := hgoes.turn_feeds more hrec hfeeds
  refine ⟨h.understood, h.settled, hgoes.ended, rs ++ (asked es).map askedFor, ?_, hfeeds', ?_⟩
  · show (asked (turn conf working t p.server).1.log).map askedFor
      = p.client.taken.map Taken.request ++ (rs ++ (asked es).map askedFor)
    rw [hasked', List.map_append, hasked, List.append_assoc]
  · intro hgo
    obtain ⟨reading, paths, hhears, hreading, hlast⟩ := hflight hmore
    have hrec' : Received conf working t p.server s₁ True := by
      rcases hrec with hskip | ⟨hr, hs₁, hthen⟩
      · exact Or.inl hskip
      · exact Or.inr ⟨hr, hs₁, fun _ => hthen hgo⟩
    obtain ⟨reading', paths', hhears', hreading', hlast'⟩ :=
      hrec'.hears hdelivers hhears hreading hlast
    refine ⟨reading', paths', hhears', ?_, ?_⟩
    · show Reading (turn conf working t p.server).1.rb reading'
      rw [hgoes.rb]
      exact hreading'
    · show Last (turn conf working t p.server).1.lastRequested _
      rw [hgoes.last, List.map_append, ← List.append_assoc]
      exact hlast'.asked

/-- What is unsent has the path of a request that is still to be sent. -/
theorem countP_unsent {a : Asking} (hdata : ∀ r ∈ a.pending.map askedFor, r.1.filedata = true) :
    a.unsent.countP (fun m => m.1.filedata) = a.pending.length := by
  have hdatapth : Cmd.datapth.filedata = false := rfl
  have hstat : Cmd.stat.filedata = false := rfl
  have hend : Cmd.endFile.filedata = false := rfl
  have hparts : a.parts.countP (fun m => m.1.filedata) = a.pending.length := by
    unfold Asking.parts Asking.pending at *
    by_cases hpath : a.sendpath = true
    · simp only [hpath, if_true] at hdata ⊢
      have hsb : (askedFor a.sb).1.filedata = true := hdata _ (by simp)
      split_ifs <;> simp [hsb, hdatapth, hstat]
    · simp only [hpath, Bool.false_eq_true, if_false] at hdata ⊢
      split_ifs <;> simp [hdatapth, hstat]
  have hending : a.ending.countP (fun m => m.1.filedata) = 0 := by
    unfold Asking.ending
    split_ifs <;> simp [hend]
  rw [Asking.unsent, List.countP_append, hparts, hending, Nat.add_zero]

theorem Taken.warnings_warning (settings : Settings) (r : Taken) :
    ∀ w ∈ r.warnings settings, w.1 = .warning := by
  intro w hw
  rcases List.mem_append.mp hw with hw | hw
  · obtain ⟨text, -, rfl⟩ := List.mem_map.mp hw
    rfl
  · cases hexit : r.exit settings
    all_goals
      simp only [hexit, warningOf, List.mem_singleton, List.not_mem_nil] at hw
      try rw [hw]; rfl

/-- After a request that is answered, the client is where its signature is. -/
theorem Taken.goesOn_answered {settings : Settings} {r : Taken} (h : r.Answered settings) :
    r.goesOn settings = if r.isDelta then .loading (r.owes settings) else .reading := by
  unfold Taken.goesOn
  by_cases hdelta : r.isDelta = true
  · rw [if_pos ⟨hdelta, h⟩, if_pos hdelta]
  · rw [if_neg (fun hand => hdelta hand.1), if_neg hdelta]

theorem Taken.owed_goesOn {settings : Settings} {r : Taken} (h : r.Answered settings) :
    (r.goesOn settings).owed = r.owes settings ∧ r.goesOn settings ≠ .quit := by
  rw [Taken.goesOn_answered h]
  split_ifs with hdelta
  · exact ⟨rfl, by simp⟩
  · exact ⟨(if_neg (fun hand => hdelta hand.1)).symm, by simp⟩

/-- **A turn of the client** keeps the invariant, if its request does not fail for its
metadata. -/
theorem Inv.client {settings : Settings} {p : Parties} (h : Inv p) (f : Finds) {m : Message}
    {rest : List Message} (hreads : p.toClient = m :: rest)
    (hall : ∀ r ∈ (p.client.read settings f m).taken, r.Answered settings) :
    Inv (p.clientTurn settings f m rest) := by
  obtain ⟨rs, hasked, hfeeds, hflight⟩ := h.flight
  rw [hreads, List.cons_append] at hfeeds
  have hread := hfeeds.read settings h.settled f
  unfold Parties.clientTurn
  generalize p.client.read settings f m = c' at hread hall ⊢
  cases hread with
  | silent _ hfeeds' hdoing hfailed hsaid htaken hsettled =>
      have howed : c'.owed = p.client.owed := by
        unfold ClientLoop.owed
        rw [hdoing]
      refine ⟨hfailed.trans h.understood, hsettled, h.ended, rs, ?_, hfeeds', ?_⟩
      · rw [htaken]
        exact hasked
      · intro hgo
        show ∃ reading paths, Hears (decide (c'.doing = .quit)) reading paths
          (p.toServer ++ c'.said.drop p.client.said.length ++ c'.owed) ∧ _
        rw [hsaid, List.drop_length, List.append_nil, hdoing, howed]
        exact hflight hgo
  | takes r rs' hreading hrs hdata hfeeds' =>
      have hanswered : r.Answered settings := hall r (by simp)
      have hgoesOn := Taken.goesOn_answered hanswered
      -- the path of this request has been sent
      obtain ⟨rs₀, hrs₀, hrs'⟩ : ∃ rs₀, rs = r.request :: rs₀
          ∧ rs' = rs₀ ++ p.server.p1b.pending.map askedFor := by
        cases rs with
        | cons x rs₀ =>
            rw [List.cons_append] at hrs
            exact ⟨rs₀, by rw [(List.cons.inj hrs).1], (List.cons.inj hrs).2.symm⟩
        | nil =>
            have hcount := hfeeds'.countP.2
            have hunsent := countP_unsent (a := p.server.p1b) (by
              intro x hx
              exact hfeeds.countP.1 x hx)
            have hlength := congrArg List.length hrs
            rw [List.countP_append, hunsent] at hcount
            simp only [List.nil_append, List.length_map, List.length_cons] at hlength
            omega
      refine ⟨h.understood, ?_, h.ended, rs₀, ?_, ?_, ?_⟩
      · intro owed _
        rfl
      · show _ = (p.client.taken ++ [r]).map Taken.request ++ rs₀
        rw [hasked, hrs₀]
        simp
      · have hmode : ({ p.client with
            datapth := none
            doing := r.goesOn settings
            said := p.client.said ++ r.warnings settings ++ r.begins settings
            taken := p.client.taken ++ [r] } : ClientLoop).mode
            = if r.isDelta then .loading else .reading none := by
          unfold ClientLoop.mode
          rw [hgoesOn]
          split_ifs
          · rfl
          · rfl
        rw [hmode, ← hrs']
        exact hfeeds'
      · intro hgo
        obtain ⟨reading, paths, hhears, hrb, hlast⟩ := hflight hgo
        have hidle : p.client.owed = [] := by
          unfold ClientLoop.owed
          rw [hreading]
          rfl
        rw [hidle, List.append_nil, hreading] at hhears
        have hreply := Hears.warnings (hears_reply hdata hanswered) (r.warnings_warning settings)
        have hboth := Hears.append_hears (by simpa using hhears) hreply
        refine ⟨reading, paths ++ [r.path], ?_, hrb, ?_⟩
        · obtain ⟨howed, hquit⟩ := Taken.owed_goesOn hanswered
          show Hears (decide (r.goesOn settings = .quit)) reading (paths ++ [r.path])
            (p.toServer ++ (p.client.said ++ r.warnings settings ++ r.begins settings).drop
              p.client.said.length ++ (r.goesOn settings).owed)
          rw [howed, decide_eq_false hquit, List.append_assoc p.client.said, List.drop_left,
            List.append_assoc p.toServer, List.append_assoc (r.warnings settings)]
          exact hboth
        · rw [hrs₀] at hlast
          simpa [Taken.request] using hlast
  | finishes owed hloading hfeeds' hdatapth =>
      refine ⟨h.understood, ?_, h.ended, rs, hasked, ?_, ?_⟩
      · intro owed' howed'
        cases howed'
      · show Feeds _ (.reading p.client.datapth) _ _
        rw [hdatapth]
        exact hfeeds'
      · intro hgo
        obtain ⟨reading, paths, hhears, hrb, hlast⟩ := hflight hgo
        have howed : p.client.owed = owed := by
          unfold ClientLoop.owed
          rw [hloading]
          rfl
        rw [howed, hloading] at hhears
        refine ⟨reading, paths, ?_, hrb, hlast⟩
        show Hears false reading paths
          (p.toServer ++ (p.client.said ++ owed).drop p.client.said.length ++ [])
        rw [List.drop_left, List.append_nil]
        exact hhears
  | agrees hreading htold hrs hms =>
      refine ⟨h.understood, ?_, h.ended, rs, hasked, ?_, ?_⟩
      · intro owed' howed'
        cases howed'
      · rw [hrs, hms, htold]
        exact .quit rfl
      · intro hgo
        obtain ⟨reading, paths, hhears, hrb, hlast⟩ := hflight hgo
        have hidle : p.client.owed = [] := by
          unfold ClientLoop.owed
          rw [hreading]
          rfl
        rw [hidle, List.append_nil, hreading] at hhears
        have hboth := Hears.append_hears (by simpa using hhears)
          (.agrees (nameBytes "okbackupphase2end") rfl (by decide))
        refine ⟨reading, paths, ?_, hrb, hlast⟩
        show Hears true reading paths (p.toServer
          ++ (p.client.said ++ [(Cmd.gen, nameBytes "okbackupphase2end")]).drop
            p.client.said.length
          ++ [])
        rw [List.drop_left, List.append_nil, ← List.append_nil paths]
        exact hboth

/-! ## §7. Whole runs. -/

section Runs

variable {conf : Conf} {working : Bytes} {settings : Settings} {p1 : List Sbuf}
  {cman : Option (List Sbuf)} {dpth : Dpth} {p : Parties}

theorem read_taken (settings : Settings) (f : Finds) (m : Message) (c : ClientLoop) :
    c.taken <+: (c.read settings f m).taken := by
  unfold ClientLoop.read
  cases c.doing with
  | quit => exact List.prefix_rfl
  | reading =>
      simp only
      split_ifs
      · exact List.prefix_rfl
      · exact List.prefix_rfl
      · exact List.prefix_append _ _
      · exact List.prefix_rfl
      · exact List.prefix_rfl
      · exact List.prefix_rfl
  | loading owed =>
      simp only
      split_ifs
      all_goals exact List.prefix_rfl

/-- **Along a run** in which no request fails for its metadata. -/
theorem inv_of_reachable (h : Parties.Reachable conf working settings p1 cman dpth p)
    (hall : ∀ r ∈ p.client.taken, r.Answered settings) : Inv p := by
  induction h with
  | refl => exact inv_start p1 cman dpth
  | @tail p _ _ hstep ih =>
      cases hstep with
      | server t rest blocks more hmore hdelivers =>
          exact (ih hall).server t rest blocks more hmore hdelivers
      | client f m rest hreads hquit =>
          have hbefore := ih fun r hr => hall r ((read_taken settings f m p.client).subset hr)
          exact hbefore.client f hreads hall

theorem read_failed {f : Finds} {m : Message} {c : ClientLoop}
    (h : c.failed = true → c.doing = .quit) :
    (c.read settings f m).failed = true → (c.read settings f m).doing = .quit := by
  unfold ClientLoop.read
  cases hdoing : c.doing with
  | quit => exact fun _ => hdoing
  | reading =>
      have hnot : c.failed ≠ true := by
        intro hfailed
        rw [hdoing] at h
        cases h hfailed
      simp only
      split_ifs
      · exact fun hfailed => absurd hfailed hnot
      · exact fun hfailed => absurd hfailed hnot
      · exact fun hfailed => absurd hfailed hnot
      · exact fun hfailed => absurd hfailed hnot
      · exact fun hfailed => absurd hfailed hnot
      · exact fun _ => rfl
  | loading owed =>
      have hnot : c.failed ≠ true := by
        intro hfailed
        rw [hdoing] at h
        cases h hfailed
      simp only
      split_ifs
      · exact fun hfailed => absurd hfailed hnot
      · exact fun hfailed => absurd hfailed hnot
      · exact fun _ => rfl

/-- What the client has said, along any run. -/
theorem sound_of_reachable (h : Parties.Reachable conf working settings p1 cman dpth p) :
    p.client.Sound settings ∧ (p.client.failed = true → p.client.doing = .quit) := by
  induction h with
  | refl =>
      refine ⟨ClientLoop.sound_start settings, ?_⟩
      intro hfailed
      cases hfailed
  | @tail p _ _ hstep ih =>
      cases hstep with
      | server t rest blocks more hmore hdelivers => exact ih
      | client f m rest hreads hquit =>
          refine ⟨ih.1.read ?_ f m, read_failed ih.2⟩
          intro hnot
          cases hfailed : p.client.failed with
          | false => rfl
          | true => exact absurd (ih.2 hfailed) hnot

/-- A run in which no request fails for its metadata is not stuck, and with nothing in flight
everything has been taken up. -/
theorem Inv.settles (h : Inv p) :
    (∃ rest, (asked p.server.log).map askedFor = p.client.taken.map Taken.request ++ rest
      ∧ (p.toClient = [] → p.client.doing = .reading → rest = []))
    ∧ ¬ p.Stuck := by
  obtain ⟨rs, hasked, hfeeds, hflight⟩ := h.flight
  have hnone : p.toClient = [] → rs = [] := by
    intro hempty
    rw [hempty, List.nil_append] at hfeeds
    obtain ⟨hdata, hcount⟩ := hfeeds.countP
    rw [countP_unsent fun r hr => hdata r (List.mem_append_right _ hr), List.length_append,
      List.length_map] at hcount
    exact List.eq_nil_of_length_eq_zero (by omega)
  refine ⟨⟨rs, hasked, fun hempty _ => hnone hempty⟩, ?_⟩
  rintro ⟨hmore, hlast, hempty, hserver, hreading⟩
  obtain ⟨reading, paths, hhears, -, hpaths⟩ := hflight hmore
  have howed : p.client.owed = [] := by
    unfold ClientLoop.owed
    rw [hreading]
    rfl
  rw [hserver, howed] at hhears
  generalize hw : ([] ++ [] : List Message) = w at hhears
  cases hhears with
  | done =>
      rw [hnone hempty] at hpaths
      rcases hpaths with hno | hno
      · exact hlast hno
      · exact hlast hno.symm
  | _ => cases hw

/-- **Every request of phase 2 is answered** where none of them fails for its metadata, and only
there: in any order of the turns of the two parties. -/
theorem answered_iff (h : Parties.Reachable conf working settings p1 cman dpth p) :
    p.Answered ↔ ∀ r ∈ p.client.taken, r.Answered settings := by
  have hsound := (sound_of_reachable h).1
  constructor
  · intro hanswered
    exact (hsound.answersInOrder_iff hanswered.understood).mp hanswered.answers
  · intro hall
    have hinv := inv_of_reachable h hall
    obtain ⟨htaken, hnot⟩ := hinv.settles
    exact ⟨hinv.understood, htaken, (hsound.answersInOrder_iff hinv.understood).mpr hall, hnot⟩

end Runs

/-! ## §8. Two runs. -/

/-- The directories are there so that the server goes on after the request. -/
def oneRequest : List Sbuf :=
  [{ cmd := .metadata, path := some (nameBytes "/a") },
    { cmd := .directory, path := some (nameBytes "/b") },
    { cmd := .directory, path := some (nameBytes "/c") }]

/-- The server has sent the request. -/
def requestSent : Parties :=
  (({ server := State.start oneRequest none {} } : Parties).serverTurn {} [] {} [] [] []).serverTurn
    {} [] {} [] [] []

/-- The client has read it. -/
def requestRead (f : Finds) : Parties :=
  (requestSent.clientTurn {} f (.stat, []) [(.metadata, nameBytes "/a")]).clientTurn {} f
    (.metadata, nameBytes "/a") []

theorem requestRead_reachable (f : Finds) :
    Parties.Reachable {} [] {} oneRequest none {} (requestRead f) := by
  have hsent : requestSent.toClient = [(.stat, []), (.metadata, nameBytes "/a")] := by
    decide
  have hidle : requestSent.client.doing ≠ .quit := by decide
  have hsteps : Parties.Reachable {} [] {} oneRequest none {} requestSent := by
    apply Relation.ReflTransGen.tail
    · apply Relation.ReflTransGen.single
      exact .server _ {} [] [] [] rfl rfl
    · exact .server _ {} [] [] [] (by decide) (by
        rw [if_neg (by decide)]
        rfl)
  exact (hsteps.tail (.client _ f _ _ hsent hidle)).tail (.client _ f _ _ rfl hidle)

/-- **A file whose metadata can be read.** -/
theorem request_answered : (requestRead {}).client.taken ≠ [] ∧ (requestRead {}).Answered := by
  have hall : ∀ r ∈ (requestRead {}).client.taken, r.Answered {} := by decide
  have hsome : (requestRead {}).client.taken.length = 1 := by decide
  refine ⟨?_, (answered_iff (requestRead_reachable {})).mpr hall⟩
  intro hnil
  rw [hnil] at hsome
  cases hsome

/-- What the client says if there are none after all. -/
def noMetaWarning : Message := logw (nameBytes "No meta data after all: ") (nameBytes "/a")

/-- The server has heard that, and has gone on to the last entry. -/
def requestLost : Parties :=
  (requestRead { extrameta := some none }).serverTurn {} []
    { arrival := .message noMetaWarning.1 noMetaWarning.2 } [] [] []

theorem requestLost_stuck : requestLost.Stuck := by
  unfold Parties.Stuck
  decide

/-- **Not every request is answered**: without metadata the client says nothing, and the server
waits. -/
theorem not_every_request_answered :
    ¬ ∀ (conf : Conf) (working : Bytes) (settings : Settings) (p1 : List Sbuf)
        (cman : Option (List Sbuf)) (dpth : Dpth) (p : Parties),
      Parties.Reachable conf working settings p1 cman dpth p → p.Answered := by
  intro hall
  have hqueue : (requestRead { extrameta := some none }).toServer = [noMetaWarning] := by
    decide
  have hreach : Parties.Reachable {} [] {} oneRequest none {} requestLost := by
    apply (requestRead_reachable { extrameta := some none }).tail
    apply Parties.Step.server
    · decide
    · rw [if_pos (by decide), hqueue]
      exact .message _ _ _
  exact (hall _ _ _ _ _ _ _ hreach).notStuck requestLost_stuck

end Burp.Phase2
