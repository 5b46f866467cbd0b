/-
  Burp.RestoreClient.Client — the loop of `do_restore_client`, message by message, and
  `restore_interrupt`, with which the client refuses an entry: it sends a warning and, for most
  of the commands that carry data, tells the server to interrupt the file and reads on to the
  end of it.

  Main result:
    restoreInterrupt_cases : the two ways of a refusal.
-/
import Burp.Phase2.Dpth
import Burp.Phase2.Paths

namespace Burp.RestoreClient

open FileSystem Burp.Store Burp.Phase2

/-! ## §1. The state of the client. -/

abbrev Message := Store.Cmd × Bytes

/-- The settings of `struct config` that decide what is restored. -/
structure Settings where
  strip : Int := 0
  overwrite : Bool := false
  restoreprefix : Bytes := []

/-- What the client finds while it deals with one message. -/
structure Finds where
  /-- `S_ISFIFO` of a `struct stat` that nothing has been written to. -/
  isFifo : Bool := false
  pathExists : Bool := false
  buildsPath : Bool := true
  isDir : Bool := false
  mkdirs : Bool := true
  opens : Bool := true
  links : Bool := true
  /-- The data is decrypted, inflated and written. -/
  writes : Bool := true
  /-- The error that is sent when it is not. -/
  complaint : Option Bytes := none
  closes : Bool := true
  /-- What `set_attributes`, `set_extrameta` and `restore_special` warn about. -/
  warnings : List Bytes := []
  strerror : Bytes := []

/-- Where `restore_interrupt` goes back to. -/
inductive After
  | next   -- to the top of the loop
  | transfer (rpath : Bytes)   -- from `open_for_restore`, to a transfer with no file
  | quit   -- after a transfer that failed
  deriving DecidableEq, Repr

/-- What the client reads next. -/
inductive Doing
  | stat (d : Option Bytes)
  | cmd (sb : Sbuf)
  | linkto (sb : Sbuf)
  | transfer (sb : Sbuf) (rpath : Bytes) (isOpen : Bool)
  | flush (sb : Sbuf) (after : After)
  | finished
  | quit
  deriving DecidableEq, Repr

/-- The client; `refused` is the entry that `restore_interrupt` has returned 0 for, until the
next message is read. -/
structure Client where
  doing : Doing := .stat none
  refused : Option Sbuf := none
  deriving DecidableEq, Repr

/-- The client and what it sends. -/
abbrev Result := Client × List Message

/-- The top of the loop. -/
def next (sent : List Message := []) : Result := (⟨.stat none, none⟩, sent)

/-- The client returns -1. -/
def failed (sent : List Message := []) : Result := (⟨.quit, none⟩, sent)

/-! ## §2. The refusal of an entry. -/

/-- The commands of which `restore_interrupt` interrupts the data. -/
def interruptible : Cmd → Bool
  | .file | .encFile | .efsFile | .vss | .encVss | .vssT | .encVssT => true
  | _ => false

/-- What the client does when `restore_interrupt` has returned 0. -/
def After.doing (sb : Sbuf) : After → Doing
  | .next => .stat none
  | .transfer rpath => .transfer sb rpath false
  | .quit => .quit

/-- `restore_interrupt`, up to the loop that reads to the end of the file. -/
def restoreInterrupt (sb : Sbuf) (msg : Bytes) (after : After) : Result :=
  match interruptible sb.cmd, sb.datapth with
  | true, some datapth =>
      (⟨.flush sb after, none⟩, [(.warning, msg), (.interrupt, cString datapth)])
  | _, _ => (⟨after.doing sb, some sb⟩, [(.warning, msg)])

/-- A turn of that loop. -/
def flushRead (sb : Sbuf) (after : After) (m : Message) : Client :=
  if m.2 = [] then ⟨.flush sb after, none⟩
  else if m.1 = .append then ⟨.flush sb after, none⟩
  else if m.1 = .endFile then ⟨after.doing sb, some sb⟩
  else ⟨.quit, none⟩

/-! ## §3. The path of an entry. -/

/-- The loop of `strip_path_components`. -/
def stripLoop : Nat → Bytes → Option Bytes
  | 0, cp => some cp
  | _ + 1, [] => some []
  | s + 1, cp =>
      match cp.dropWhile (· ≠ 47) with
      | [] => none
      | _ :: dp => stripLoop s dp

/-- `strip_path_components`; `none` says that too many components were stripped. -/
def stripPathComponents (strip : Int) (path : Bytes) : Option Bytes :=
  stripLoop strip.toNat (cString path)

/-- `overwrite_ok`. -/
def overwriteOk (conf : Settings) (f : Finds) (sb : Sbuf) : Bool :=
  if conf.overwrite then !sb.cmd.isVssT
  else if !sb.statp.isDir && !sb.cmd.isMetadata && !sb.cmd.isVss then
    if (sb.cmd = .file ∨ sb.cmd = .encFile) ∧ f.isFifo then true
    else !f.pathExists
  else true

/-- A message of `size` bytes at most with the NUL, as `snprintf` leaves it. -/
def text (size : Nat) (what : String) (arg : Bytes) : Bytes :=
  (nameBytes what ++ arg).take (size - 1)

/-! ## §4. The entries. -/

/-- What goes wrong is sent with `logw`. -/
def logged (warnings : List Bytes) : List Message := warnings.map fun w => (.warning, w)

/-- `restore_dir`. -/
def restoreDir (f : Finds) (sb : Sbuf) (dname : Bytes) : Result :=
  if !f.buildsPath then restoreInterrupt sb (text 256 "build path failed: " dname) .next
  else if !f.isDir then
    if f.mkdirs then next else restoreInterrupt sb (text 256 "mkdir error: " f.strerror) .next
  else next (logged f.warnings)

/-- `restore_link`. -/
def restoreLink (f : Finds) (sb : Sbuf) (fname : Bytes) : Result :=
  if !f.buildsPath then restoreInterrupt sb (text 256 "build path failed: " fname) .next
  else if !f.links then restoreInterrupt sb (nameBytes "could not create link") .next
  else next (logged f.warnings)

/-- `restore_special`. -/
def restoreSpecial (f : Finds) (sb : Sbuf) (fname : Bytes) : Result :=
  if !f.buildsPath then restoreInterrupt sb (text 256 "build path failed: " fname) .next
  else next (logged f.warnings)

/-- `restore_file_or_get_meta`, up to the transfer. -/
def restoreFileOrGetMeta (f : Finds) (sb : Sbuf) (fname : Bytes) (metadata : Bool) : Result :=
  if !f.buildsPath then restoreInterrupt sb (text 256 "build path failed: " fname) .next
  -- only open the file if it is not metadata
  else if !metadata && !f.opens then
    restoreInterrupt sb
      (text 256 "Could not open for writing " (fname ++ nameBytes ": " ++ f.strerror))
      (.transfer fname)
  else (⟨.transfer sb fname true, none⟩, [])

/-- `restore_metadata`, up to the transfer.  The call of `restore_dir` has no counters, so
nothing that goes wrong there is a refusal. -/
def restoreMetadata (f : Finds) (sb : Sbuf) (fname : Bytes) : Result :=
  let r := restoreFileOrGetMeta f sb fname true
  (r.1, (if sb.statp.isDir then logged f.warnings else []) ++ r.2)

/-- The commands whose path is looked at before anything is done. -/
def Entry : List Cmd :=
  [.directory, .file, .encFile, .softLink, .hardLink, .special, .metadata, .encMetadata, .vss,
   .encVss, .vssT, .encVssT, .efsFile]

/-- The second `switch` of `do_restore_client`. -/
def restoreEntry (f : Finds) (sb : Sbuf) (fullpath : Bytes) : Result :=
  match sb.cmd with
  | .warning => next
  | .directory => restoreDir f sb fullpath
  | .file | .vssT | .encFile | .encVssT | .efsFile => restoreFileOrGetMeta f sb fullpath false
  | .softLink | .hardLink => restoreLink f sb fullpath
  | .special => restoreSpecial f sb fullpath
  | .metadata | .vss | .encMetadata | .encVss => restoreMetadata f sb fullpath
  | _ => failed

/-- What `do_restore_client` does with an entry that has been read. -/
def entry (conf : Settings) (f : Finds) (sb : Sbuf) : Result :=
  if Entry.contains sb.cmd then
    let path := sb.path.getD []
    match if conf.strip ≠ 0 then stripPathComponents conf.strip path else some path with
    | none => restoreInterrupt sb (text 256 "Stripped too many components: " (cString path)) .next
    | some path =>
        let fullpath := prependS conf.restoreprefix path
        if overwriteOk conf f sb then restoreEntry f { sb with path := some path } fullpath
        else restoreInterrupt sb (text 512 "Path exists: " fullpath) .next
  else restoreEntry f sb []

/-! ## §5. One message. -/

/-- The commands that are restored by `restore_metadata`. -/
def isMeta (cmd : Cmd) : Bool := cmd.isMetadata || cmd.isVss

/-- The transfer has failed.  `restore_metadata` gives up without a refusal. -/
def transferFailed (sb : Sbuf) (rpath : Bytes) (complaint : Option Bytes) : Result :=
  let r :=
    if isMeta sb.cmd then failed
    else restoreInterrupt sb (text 256 "Could not transfer file in: " rpath) .quit
  (r.1, complaint.toList.map (fun t => (.error, t)) ++ r.2)

/-- A turn of the loop of `transfer_gzfile_in`, and what follows the last one. -/
def transferRead (f : Finds) (sb : Sbuf) (rpath : Bytes) (isOpen : Bool) (m : Message) : Result :=
  match m.1 with
  | .append =>
      if !isOpen then transferFailed sb rpath (some (nameBytes "append with no file or metadata"))
      else if f.writes then (⟨.transfer sb rpath isOpen, none⟩, [])
      else transferFailed sb rpath f.complaint
  | .endFile =>
      if !f.writes then transferFailed sb rpath f.complaint
      -- the file is closed
      else if isMeta sb.cmd || f.closes then next (logged f.warnings)
      else transferFailed sb rpath none
  | .warning => (⟨.transfer sb rpath isOpen, none⟩, [])
  | _ => transferFailed sb rpath none

/-- The entry as a stat record begins it. -/
def statOf (d : Option Bytes) (buf : Bytes) : Sbuf :=
  let r := decodeStat {} buf
  { statp := r.1, winattr := r.2.1, compression := r.2.2, statbuf := buf, datapth := d }

/-- A turn of the loop of `async_read_stat`. -/
def statRead (d : Option Bytes) (m : Message) : Result :=
  match m.1 with
  | .warning => (⟨.stat d, none⟩, [])
  | .datapth => (⟨.stat (some m.2), none⟩, [])
  | .stat => (⟨.cmd (statOf d m.2), none⟩, [])
  | .gen =>
      if endTexts.contains (cString m.2) then
        (⟨.finished, none⟩, [(.gen, nameBytes "restoreend ok")])
      else failed
  | _ => failed

/-- One message is read. -/
def Client.read (conf : Settings) (f : Finds) (m : Message) (c : Client) : Result :=
  match c.doing with
  | .stat d => statRead d m
  | .cmd sb =>
      let sb := { sb with cmd := m.1, path := some m.2 }
      if m.1.isLink then (⟨.linkto sb, none⟩, []) else entry conf f sb
  | .linkto sb =>
      if m.1.isLink then entry conf f { sb with linkto := some m.2 } else failed
  | .transfer sb rpath isOpen => transferRead f sb rpath isOpen m
  | .flush sb after => (flushRead sb after m, [])
  | .finished => (⟨.finished, none⟩, [])
  | .quit => (⟨.quit, none⟩, [])

/-- Whether the client still reads. -/
def Client.reads (c : Client) : Bool := decide (c.doing ≠ .finished ∧ c.doing ≠ .quit)

/-! ## §6. What a refusal leaves. -/

theorem interruptible_iff (cmd : Cmd) :
    interruptible cmd = true ↔ cmd.filedata = true ∧ cmd.isMetadata = false := by
  cases cmd <;> simp [interruptible, Cmd.filedata, Cmd.isMetadata]

/-- **The two ways of a refusal**: the data is interrupted, or `restore_interrupt` returns
at once. -/
theorem restoreInterrupt_cases (sb : Sbuf) (msg : Bytes) (after : After) :
    (interruptible sb.cmd = true ∧ sb.datapth.isSome = true
        ∧ (restoreInterrupt sb msg after).1 = ⟨.flush sb after, none⟩)
      ∨ ((interruptible sb.cmd = false ∨ sb.datapth = none)
        ∧ (restoreInterrupt sb msg after).1 = ⟨after.doing sb, some sb⟩) := by
  unfold restoreInterrupt
  cases h : interruptible sb.cmd with
  | false => exact Or.inr ⟨Or.inl rfl, rfl⟩
  | true =>
      cases hd : sb.datapth with
      | none => exact Or.inr ⟨Or.inr rfl, rfl⟩
      | some d => exact Or.inl ⟨rfl, rfl, rfl⟩

end Burp.RestoreClient
