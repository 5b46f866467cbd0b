/-
  Burp.Phase2.Server — the main loop of phase 2.

  The server goes through the client's list and the old manifest.  What is unchanged, and
  what has no data, is written to the unchanged file at once; for anything else the server
  sends a request, and the client answers with the data or with an interrupt, in its own
  time.  In every turn of the loop the server receives what has come, if there is something
  to wait for, then sends what is left of the last request, and only when all of that has
  been sent it looks at the next entry.

  Everything outside the loop is an argument of each turn: what arrives, how much can be
  sent, and which operations fail.  What the loop does to the world is in a log.
-/
import Burp.Phase2.Dpth
import Burp.Phase2.Paths

namespace Burp.Phase2

open FileSystem Burp.Store

/-! ## §1. What the loop works on. -/

/-- `p1b`, the entry of the client's list, with what is to be sent for it. -/
structure Asking where
  sb : Sbuf := {}
  senddatapth : Bool := false
  sendstat : Bool := false
  sendpath : Bool := false
  sigjob : Bool := false
  sendendofsig : Bool := false
  deriving DecidableEq

/-- `rb`, the file that is being received; `isOpen` says that there is an `fp` or a `zp`. -/
structure Receiving where
  sb : Sbuf := {}
  isOpen : Bool := false
  receivedelta : Bool := false
  deriving DecidableEq

/-- What the loop does to the world. -/
inductive Event
  /-- An entry is written to the unchanged file, or to the phase 2 file. -/
  | unchanged (sb : Sbuf)
  | phase2 (sb : Sbuf)
  /-- `sbuf_to_manifest` fails, for one of the functions that write to the unchanged file or
  for the phase 2 file. -/
  | failed (writer : Option Writer) (sb : Sbuf)
  /-- The path of an entry goes into the write buffer: this is the request. -/
  | asked (sb : Sbuf)
  /-- Another message goes into it. -/
  | sent (cmd : Cmd) (text : Bytes)
  /-- A whole file is given the name of the counter. -/
  | named (d : Dpth) (cmd : Cmd)
  /-- A path is made, opened for writing, or renamed to. -/
  | touched (path : Bytes)
  deriving DecidableEq

/-- The variables of the loop; a file that has been closed is `none`. -/
structure State where
  p1 : Option (List Sbuf)
  cman : Option (List Sbuf)
  cb : Sbuf := {}
  p1b : Asking := {}
  rb : Receiving := {}
  lastRequested : Option Bytes := none
  dpth : Dpth := {}
  log : List Event := []

def State.emit (s : State) (es : List Event) : State := { s with log := s.log ++ es }

/-- What `async_rw` gives. -/
inductive Arrival
  | error
  | nothing
  | message (cmd : Cmd) (text : Bytes)
  deriving DecidableEq

/-- `rs_result`, as far as the loop tells it apart. -/
inductive SigResult
  | done | running | error
  deriving DecidableEq

/-- What happens outside the loop during one turn of it. -/
structure Turn where
  /-- There is something in the write buffer. -/
  writebuf : Bool := false
  arrival : Arrival := .nothing
  /-- The number of messages that the write buffer has room for. -/
  room : Nat := 4
  sig : SigResult := .done
  /-- The client's list, and the old manifest, can be read. -/
  reads : Bool := true
  readsOld : Bool := true
  /-- `sbuf_to_manifest` can write to the unchanged file, and to the phase 2 file. -/
  writesUnchanged : Bool := true
  writesPhase2 : Bool := true
  /-- Received data can be written, and the file closed. -/
  append : Bool := true
  closes : Bool := true
  /-- The file to receive can be opened, the old one can, and the delta can be renamed. -/
  opens : Bool := true
  opensOld : Bool := true
  renames : Bool := true
  /-- "backupphase2end" can be sent. -/
  endSent : Bool := true
  world : World := {}

/-- How a turn ends. -/
inductive Loop
  | more | done | error
  deriving DecidableEq

def datadirtmp (working : Bytes) : Bytes := prependS working (nameBytes "data.tmp")

def deltmppath (working : Bytes) : Bytes := prependS working (nameBytes "delta.tmp")

/-! ## §2. Receiving. -/

/-- `treedata`: the entry with its stat decoded, and whether its data go into the tree. -/
def treedata (sb : Sbuf) : Sbuf × Bool :=
  let (statp, winattr, compression) := decodeStat sb sb.statbuf
  ({ sb with statp := statp, winattr := winattr, compression := compression },
    !statp.isDir && (sb.cmd = .file || sb.cmd = .encFile || sb.cmd = .efsFile))

/-- `start_to_receive_new_file`. -/
def startToReceiveNewFile (conf : Conf) (working : Bytes) (t : Turn) (sb : Sbuf) (s : State) :
    State × Loop :=
  let (sb, istreedata) := if conf.directoryTree then treedata sb else (sb, false)
  let datapth :=
    if istreedata then prependS [116] (sb.path.getD []) else mkDpth conf s.dpth sb.cmd
  let rpath := prependS (datadirtmp working) datapth
  let (made, ok) := mkpath t.world (datadirtmp working) rpath
  let rb := { s.rb with sb := { sb with datapth := some datapth } }
  let named := if istreedata then [] else [Event.named s.dpth sb.cmd]
  if !ok then ({ s with rb := rb }.emit (named ++ made.map Event.touched), .error)
  else if !t.opens then
    ({ s with rb := rb }.emit (named ++ (made ++ [rpath]).map Event.touched), .error)
  else
    -- an error of `incr_dpth` is not looked at
    ({ s with rb := { rb with isOpen := true },
              dpth := if istreedata then s.dpth else (incrDpth conf s.dpth).1 }.emit
      (named ++ (made ++ [rpath]).map Event.touched), .more)

/-- `start_to_receive_delta`. -/
def startToReceiveDelta (working : Bytes) (t : Turn) (sb : Sbuf) (s : State) : State × Loop :=
  let s := { s with rb := { s.rb with sb := sb } }.emit [.touched (deltmppath working)]
  if t.opens then ({ s with rb := { s.rb with isOpen := true, receivedelta := true } }, .more)
  else (s, .error)

/-- `finish_delta`: the paths that it makes or renames to, and whether it returns 0. -/
def finishDelta (working : Bytes) (t : Turn) (sb : Sbuf) : List Bytes × Bool :=
  let deltmp := prependS (nameBytes "deltas.forward") (sb.datapth.getD [])
  let delpath := prependS working deltmp
  let (made, ok) := mkpath t.world working delpath
  if ok then (made ++ [delpath], t.renames) else (made, false)

/-- Forget about the last request if this is its path. -/
def State.forget (s : State) (path : Bytes) : State :=
  { s with lastRequested := if s.lastRequested.map cString = some (cString path) then none
                            else s.lastRequested }

/-- `sbuf_to_manifest` returns 0. -/
def Written (ok : Bool) (sb : Sbuf) : Bool := ok && (toManifest true sb).isSome

/-- The end of a file: it is closed, a delta is put in its place, and the entry is written to
the phase 2 file. -/
def receiveEnd (working : Bytes) (t : Turn) (text : Bytes) (s : State) : State × Loop :=
  let sb := { s.rb.sb with endfile := some text }
  let free (s : State) : State := { s with rb := {} }
  if !t.closes then (free s, .error)
  else
    let (touched, ok) := if s.rb.receivedelta then finishDelta working t sb else ([], true)
    let s := s.emit (touched.map Event.touched)
    if !ok then (free s, .error)
    else if Written t.writesPhase2 sb then
      (free ((s.emit [.phase2 sb]).forget (sb.path.getD [])), .more)
    else (free (s.emit [.failed none sb]), .error)

/-- `do_stuff_to_receive`. -/
def doStuffToReceive (conf : Conf) (working : Bytes) (t : Turn) (s : State) : State × Loop :=
  match t.arrival with
  | .error => (s, .error)
  | .nothing => (s, .more)
  | .message cmd text =>
      if cmd = .warning then (s, .more)
      else if s.rb.isOpen then
        if cmd = .append then (s, if t.append then .more else .error)
        else if cmd = .endFile then receiveEnd working t text s
        else (s, .error)
      else if cmd = .datapth then
        ({ s with rb := { s.rb with sb := { s.rb.sb with datapth := some text } } }, .more)
      else if cmd = .stat then
        ({ s with rb := { s.rb with sb := { s.rb.sb with statbuf := text } } }, .more)
      else if cmd.filedata then
        let sb := { s.rb.sb with cmd := cmd, path := some text }
        if sb.datapth.isSome then startToReceiveDelta working t sb s
        else startToReceiveNewFile conf working t sb s
      else if cmd = .gen ∧ cString text = nameBytes "okbackupphase2end" then (s, .done)
      else if cmd = .interrupt then (s.forget text, .more)
      else (s, .error)

/-! ## §3. Sending. -/

/-- A result of `do_stuff_to_send`: 1, 0 or -1. -/
inductive Sts
  | again | all | error
  deriving DecidableEq

/-- One message, if it is to be sent and there is room for it; `none` if there was not. -/
def sendPart (flag : Asking → Bool) (part : State → State) :
    State × Option Nat → State × Option Nat
  | (s, none) => (s, none)
  | (s, some room) =>
      if flag s.p1b then
        match room with
        | 0 => (s, none)
        | room + 1 => (part s, some room)
      else (s, some room)

/-- The signature and its end. -/
def sendSignature (t : Turn) (room : Nat) (s : State) : State × Sts :=
  let sig := if s.p1b.sigjob && !s.p1b.sendendofsig then t.sig else .done
  match sig with
  | .error => (s, .error)
  | .running => (s, .again)
  | .done =>
      if s.p1b.sigjob || s.p1b.sendendofsig then
        match room with
        | 0 => ({ s with p1b := { s.p1b with sendendofsig := true } }, .again)
        | _ + 1 =>
            ({ s with p1b := { s.p1b with sendendofsig := false } }.emit
              [.sent .endFile (nameBytes "endfile")], .all)
      else (s, .all)

/-- `do_stuff_to_send`. -/
def doStuffToSend (t : Turn) (s : State) : State × Sts :=
  let r := sendPart (·.senddatapth)
    (fun s => { s with p1b := { s.p1b with senddatapth := false } }.emit
      [.sent .datapth (s.p1b.sb.datapth.getD [])]) (s, some t.room)
  let r := sendPart (·.sendstat)
    (fun s => { s with p1b := { s.p1b with sendstat := false } }.emit
      [.sent .stat s.p1b.sb.statbuf]) r
  let r := sendPart (·.sendpath)
    (fun s => { s with p1b := { s.p1b with sendpath := false },
                       lastRequested := s.p1b.sb.path }.emit [.asked s.p1b.sb]) r
  match r with
  | (s, none) => (s, .again)
  | (s, some room) => sendSignature t room s

/-! ## §4. The next entry. -/

/-- What has been found for an entry of the client's list: what happens to it, the entry of
the old manifest that it has been compared with, and where the old manifest is now. -/
structure Found where
  outcome : Outcome
  old : Sbuf := {}
  cman : Option (List Sbuf)
  cb : Sbuf := {}
  deriving DecidableEq

/-- A verdict as it is found. -/
def Found.of (cb : Sbuf) (rest : List Sbuf) (outcome : Outcome) (keep : Bool) : Found where
  outcome := outcome
  old := cb
  cman := some rest
  cb := if keep then cb else {}

/-- The `while(*cmanfp)` loop. -/
def scanManifest (conf : Conf) (p1b : Sbuf) : List Sbuf → Found
  | [] => { outcome := processNew p1b, cman := none }
  | cb :: rest =>
      match maybeProcessFile conf cb p1b with
      | .behind => scanManifest conf p1b rest
      | .done outcome keep => .of cb rest outcome keep

/-- Whether more has to be read from the old manifest. -/
def mustRead (conf : Conf) (cb p1b : Sbuf) : Bool :=
  cb.path.isNone || decide (maybeProcessFile conf cb p1b = .behind)

/-- Look an entry up in the old manifest, unless that has been closed. -/
def lookup (conf : Conf) (cman : Option (List Sbuf)) (cb p1b : Sbuf) : Found :=
  match cman with
  | none => { outcome := processNew p1b, cman := none, cb := cb }
  | some rest =>
      if cb.path.isNone then scanManifest conf p1b rest
      else
        match maybeProcessFile conf cb p1b with
        | .behind => scanManifest conf p1b rest
        | .done outcome keep => .of cb rest outcome keep

/-- Carry out what has been found. -/
def carryOut (t : Turn) (f : Found) (s : State) : State × Loop :=
  let s := { s with cman := f.cman, cb := f.cb }
  match f.outcome with
  | .request => ({ s with p1b := { s.p1b with sendstat := true, sendpath := true } }, .more)
  | .delta =>
      -- `process_changed_file`
      let s := { s with p1b := { s.p1b with sb := { s.p1b.sb with datapth := f.old.datapth } } }
      if t.opensOld then
        ({ s with p1b := { s.p1b with senddatapth := true, sendstat := true, sendpath := true,
                                      sigjob := true } }, .more)
      else (s, .error)
  | .unchanged writer sb =>
      if sb.path.isNone then (s, .more)
      else if Written t.writesUnchanged sb then (s.emit [.unchanged sb], .more)
      else
        -- `process_new` does not look at what `new_non_file` returns
        (s.emit [.failed (some writer) sb], if writer = .newNonFile then .more else .error)

/-- The entry `p1b`, against the old manifest. -/
def compareEntry (conf : Conf) (t : Turn) (s : State) : State × Loop :=
  if s.cman.isSome && mustRead conf s.cb s.p1b.sb && !t.readsOld then (s, .error)
  else carryOut t (lookup conf s.cman s.cb s.p1b.sb) s

/-- The part of a turn after everything has been sent. -/
def nextEntry (conf : Conf) (t : Turn) (s : State) : State × Loop :=
  match s.p1 with
  | none => (s, .more)
  | some p1 =>
      if !t.reads then ({ s with p1b := {} }, .error)
      else
        match p1 with
        | [] =>
            -- with the list at its end, `p1b` is empty
            let s := { s with p1 := none, p1b := {} }.emit
              [.sent .gen (nameBytes "backupphase2end")]
            if t.endSent then compareEntry conf t s else (s, .error)
        | sb :: p1 => compareEntry conf t { s with p1 := some p1, p1b := { sb := sb } }

/-! ## §5. The loop. -/

/-- There is something to wait for. -/
def receives (t : Turn) (s : State) : Bool :=
  s.lastRequested.isSome || s.p1.isNone || t.writebuf

/-- The part of a turn after what has arrived. -/
def sendAndGoOn (conf : Conf) (t : Turn) (s : State) : State × Loop :=
  match doStuffToSend t s with
  | (s, .error) => (s, .error)
  | (s, .again) => (s, .more)
  | (s, .all) => nextEntry conf t s

/-- One turn of the loop. -/
def turn (conf : Conf) (working : Bytes) (t : Turn) (s : State) : State × Loop :=
  if receives t s then
    match doStuffToReceive conf working t s with
    | (s, .more) => sendAndGoOn conf t s
    | r => r
  else sendAndGoOn conf t s

/-- The loop, as far as the given turns go. -/
def run (conf : Conf) (working : Bytes) : List Turn → State → State × Loop
  | [], s => (s, .more)
  | t :: ts, s =>
      match turn conf working t s with
      | (s, .more) => run conf working ts s
      | r => r

/-- What `backup_phase2_server` returns, and whether the phase 1 file is still there. -/
structure Returned where
  ok : Bool
  phase1 : Bool
  deriving DecidableEq

/-- `backup_phase2_server` from the loop on, if it gets to its end; `closes` says whether its
two files can be closed. -/
def backupPhase2Server (conf : Conf) (working : Bytes) (ts : List Turn) (closes : Bool)
    (s : State) : State × Option Returned :=
  match run conf working ts s with
  | (s, .more) => (s, none)
  | (s, .done) => (s, some { ok := closes, phase1 := !closes })
  | (s, .error) => (s, some { ok := false, phase1 := true })

end Burp.Phase2
