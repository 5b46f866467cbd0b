/-
  Burp.Phase1.Find — the scan of the client's files.

  Phase 1 goes through the directories to start from.  For each name that it comes to, it
  looks at the file, follows the hard links that it has seen before, and sends an entry if the
  name is included; in a directory it goes through the names in order, and from a name that is
  excluded it jumps to the included ones below it.

  The file system does not change during the scan: it is what `lstat`, `opendir` and the other
  calls say about each path.  Warnings are left out, and so are the errors of the connection,
  which end the scan.

  Main results:
    * `backupPhase1Client_eq` — the scan is the sequence of the names that it comes to, each
      looked at by itself.
-/
import Burp.Phase2.Paths
import Burp.Shuffle.Encoding
import Burp.Store.Subdir

namespace Burp.Phase1

open FileSystem Burp.Store Burp.Phase2

/-! ## §1. Names that are included. -/

/-- The settings of the client that the scan looks at. -/
structure Conf where
  /-- The paths of the include and exclude lists, sorted; `true` is an include. -/
  incexcdir : List (Bytes × Bool) := []
  startdir : List Bytes := []
  incext : List Bytes := []
  excext : List Bytes := []
  /-- One of the excluding expressions matches. -/
  excreg : Bytes → Bool := fun _ => false
  minFileSize : Int := 0
  maxFileSize : Int := 0
  nobackup : List Bytes := []
  crossAllFilesystems : Bool := false
  fschgdir : List Bytes := []
  excfs : List Int := []
  readAllFifos : Bool := false
  fifos : List Bytes := []
  readAllBlockdevs : Bool := false
  blockdevs : List Bytes := []
  excmflag : Nat := 0
  excom : List Bytes := []
  compression : Int := 0
  splitVss : Bool := false
  stripVss : Bool := false
  encrypts : Bool := false

/-- `set_max_ext`. -/
def maxExt (list : List Bytes) : Nat := (list.map List.length).foldl max 0 + 1

/-- The loop over the end of a name: whether its extension is in the list, if it has one. -/
def extIn (list : List Bytes) (fname : Bytes) : Option Bool :=
  let tail := fname.reverse.take (maxExt list)
  if tail.contains 46 then
    let extension := (tail.takeWhile (· ≠ 46)).reverse
    some (list.any fun e => e.map Shuffle.toLower == extension.map Shuffle.toLower)
  else none

/-- `in_include_ext`.  Without an extension a name cannot be included. -/
def inIncludeExt (incext : List Bytes) (fname : Bytes) : Bool :=
  if incext = [] then true else (extIn incext fname).getD false

/-- `in_exclude_ext`. -/
def inExcludeExt (excext : List Bytes) (fname : Bytes) : Bool :=
  if excext = [] then false else (extIn excext fname).getD false

/-- The loop over the include and exclude lists: the flag of the longest match so far. -/
def bestMatch (fname : Bytes) : List (Bytes × Bool) → Nat → Bool → Bool
  | [], _, flag => flag
  | e :: list, longest, flag =>
      if longest < isSubdir (some e.1) (some fname) then
        bestMatch fname list (isSubdir (some e.1) (some fname)) e.2
      else bestMatch fname list longest flag

/-- `file_is_included_no_incext`. -/
def fileIsIncludedNoIncext (conf : Conf) (fname : Bytes) : Bool :=
  if inExcludeExt conf.excext fname || conf.excreg fname then false
  else bestMatch fname conf.incexcdir 0 false

/-- `file_is_included`. -/
def fileIsIncluded (conf : Conf) (fname : Bytes) (topLevel : Bool) : Bool :=
  if !topLevel && !inIncludeExt conf.incext fname then false
  else fileIsIncludedNoIncext conf fname

/-! ## §2. Entries. -/

/-- What the client finds at the paths. -/
structure Files where
  lstat : Bytes → Option Stat
  readlink : Bytes → Option Bytes
  /-- The names in a directory but for "." and "..". -/
  opendir : Bytes → Option (List Bytes)
  /-- The type of the file system, by `statfs`. -/
  fstype : Bytes → Option Int
  hasExtrameta : Bytes → Cmd → Bool

/-- The type bits of a mode. -/
def Stat.fmt (s : Stat) : Int := s.mode % 2 ^ 16 / 2 ^ 12

/-- `FT_LNKSAVED` and so on. -/
inductive Found
  | lnksaved | raw | fifo | rege | reg | lnk | dirend | nofschg | dirbegin | spec | nofollow
  | nostat | noopen
  deriving DecidableEq

/-- `filesymbol` and `metasymbol`. -/
def filesymbol (conf : Conf) : Cmd := if conf.encrypts then .encFile else .file

def metasymbol (conf : Conf) : Cmd := if conf.encrypts then .encMetadata else .metadata

/-- `maybe_send_extrameta`. -/
def maybeSendExtrameta (fs : Files) (conf : Conf) (path : Bytes) (cmd : Cmd) (attribs : Bytes) :
    List Sbuf :=
  if fs.hasExtrameta path cmd then
    [{ cmd := metasymbol conf, path := some path, statbuf := attribs }]
  else []

/-- `send_file`, as the entries that it sends. -/
def sendFile (fs : Files) (conf : Conf) (type : Found) (fname link : Bytes) (statp : Stat)
    (topLevel : Bool) : List Sbuf :=
  let attribs := encodeStat false statp 0 conf.compression
  if !fileIsIncluded conf fname topLevel then []
  else
    match type with
    | .lnksaved =>
        { cmd := .hardLink, path := some fname, linkto := some link, statbuf := attribs }
          :: maybeSendExtrameta fs conf fname .hardLink attribs
    | .raw | .fifo | .rege | .reg =>
        let attribs := encodeStat false statp 0
          (Shuffle.inExcludeComp conf.excmflag conf.excom fname conf.compression)
        { cmd := filesymbol conf, path := some fname, statbuf := attribs }
          :: maybeSendExtrameta fs conf fname (filesymbol conf) attribs
    | .lnk =>
        (if conf.splitVss && !conf.stripVss then
            maybeSendExtrameta fs conf fname .softLink attribs else [])
          ++ { cmd := .softLink, path := some fname, linkto := some link, statbuf := attribs }
          :: maybeSendExtrameta fs conf fname .softLink attribs
    | .dirbegin =>
        { cmd := .directory, path := some fname, statbuf := attribs }
          :: maybeSendExtrameta fs conf fname .directory attribs
    | .spec =>
        { cmd := .special, path := some fname, statbuf := attribs }
          :: maybeSendExtrameta fs conf fname .special attribs
    -- a directory has been sent at its beginning, and of the others there is only a warning
    | .dirend | .nofschg | .nofollow | .nostat | .noopen => []

/-! ## §3. The scan. -/

/-- An entry of the table of hard links. -/
structure Link where
  dev : Int
  ino : Int
  name : Bytes
  deriving DecidableEq

/-- The entry is one for this file. -/
def Link.same (dev ino : Int) (l : Link) : Bool := l.ino == ino && l.dev == dev

/-- What the scan has sent, and its table. -/
structure Scan where
  sent : List Sbuf := []
  links : List Link := []

def Scan.send (s : Scan) (es : List Sbuf) : Scan := { s with sent := s.sent ++ es }

/-- `found_regular_file`. -/
def foundRegularFile (fs : Files) (conf : Conf) (fname : Bytes) (statp : Stat) (topLevel : Bool) :
    List Sbuf :=
  if conf.minFileSize ≠ 0 ∧ statp.size < conf.minFileSize then []
  else if conf.maxFileSize ≠ 0 ∧ conf.maxFileSize < statp.size then []
  -- empty and readable by all
  else if statp.size = 0 ∧ statp.mode % 2 ^ 9 / 2 ^ 6 ≥ 4 ∧ statp.mode % 2 ^ 6 / 2 ^ 3 ≥ 4
      ∧ statp.mode % 2 ^ 3 ≥ 4 then
    sendFile fs conf .rege fname fname statp topLevel
  else sendFile fs conf .reg fname fname statp topLevel

/-- `found_soft_link`. -/
def foundSoftLink (fs : Files) (conf : Conf) (fname : Bytes) (statp : Stat) (topLevel : Bool) :
    List Sbuf :=
  match fs.readlink fname with
  | none => sendFile fs conf .nofollow fname fname statp topLevel
  | some link => sendFile fs conf .lnk fname link statp topLevel

/-- `found_other`, with `need_to_read_blockdev` and `need_to_read_fifo`. -/
def foundOther (fs : Files) (conf : Conf) (fname : Bytes) (statp : Stat) (topLevel : Bool) :
    List Sbuf :=
  if Stat.fmt statp = 6 ∧ (conf.readAllBlockdevs || conf.blockdevs.contains fname) then
    sendFile fs conf .raw fname fname statp topLevel
  else if Stat.fmt statp = 1 ∧ (conf.readAllFifos || conf.fifos.contains fname) then
    sendFile fs conf .fifo fname fname statp topLevel
  else sendFile fs conf .spec fname fname statp topLevel

/-- `nobackup_directory`. -/
def nobackupDirectory (fs : Files) (conf : Conf) (path : Bytes) : Bool :=
  conf.nobackup.any fun name => (fs.lstat (prependS path name)).isSome

/-- `fstype_excluded`, also if `statfs` fails. -/
def fstypeExcluded (fs : Files) (conf : Conf) (fname : Bytes) : Bool :=
  match fs.fstype fname with
  | none => true
  | some type => conf.excfs.contains type

/-- `fs_change_is_allowed`. -/
def fsChangeIsAllowed (conf : Conf) (fname : Bytes) : Bool :=
  conf.crossAllFilesystems || conf.fschgdir.contains fname

/-- The name of a directory with one slash at its end. -/
def canonical (fname : Bytes) : Bytes :=
  (fname.reverse.dropWhile (· = 47)).reverse ++ [47]

/-- The loop that skips what is below an include, by how far it goes: `bases` is the list from
`ex` on, and `ys` is the list from `ey` on. -/
def skips : List Bytes → List Bytes → Nat
  | base :: bases, y :: ys =>
      if 0 < isSubdir (some base) (some y) then skips bases ys + 1 else skips (base :: bases) ys
  | _, _ => 0

/-- The includes below an excluded name that `find_files` is called for; of the list,
`skip` entries are skipped first. -/
def jumps (link : Bytes) : Nat → List (Bytes × Bool) → List Bytes
  | _, [] => []
  | skip + 1, _ :: list => jumps link skip list
  | 0, e :: list =>
      if e.2 ∧ 0 < isSubdir (some link) (some e.1) then
        e.1 :: jumps link (skips (e.1 :: list.map Prod.fst) (list.map Prod.fst)) list
      else jumps link 0 list

/-- What `find_files` is called for in a directory, in order, name by name. -/
def calls (conf : Conf) (link : Bytes) (names : List Bytes) : List Bytes :=
  names.flatMap fun p =>
    if fileIsIncludedNoIncext conf (link ++ p) then [link ++ p]
    else jumps (link ++ p) 0 conf.incexcdir

/-- `get_files_in_directory` sorts the names. -/
def sortNames (names : List Bytes) : List Bytes :=
  names.insertionSort fun a b => pathcmp (some a) (some b) ≤ 0

/-- Whether a directory is gone into: its names then, in order. -/
def descends (fs : Files) (conf : Conf) (fname : Bytes) (statp : Stat) (parentDevice : Int)
    (topLevel : Bool) : Option (List Bytes) :=
  if !topLevel && parentDevice ≠ statp.dev
      && (fstypeExcluded fs conf fname || !fsChangeIsAllowed conf fname) then none
  else (fs.opendir fname).map sortNames

/-- The file may have other names. -/
def linkable (statp : Stat) : Bool :=
  decide (1 < statp.nlink) && [8, 2, 6, 1, 12].contains (Stat.fmt statp)

/-- `find_files`, with `found_directory` and `process_files_in_directory`.  Every call is for a
longer name than the one before it, but for slashes at the end, so that the length of the
longest name is fuel enough. -/
def findFiles (fs : Files) (conf : Conf) : Nat → Bytes → Int → Bool → Scan → Scan
  | 0, _, _, _, s => s
  | fuel + 1, fname, parentDevice, topLevel, s =>
      match fs.lstat fname with
      | none => s
      | some statp =>
          let dump (s : Scan) : Scan :=
            if Stat.fmt statp = 8 then s.send (foundRegularFile fs conf fname statp topLevel)
            else if Stat.fmt statp = 10 then s.send (foundSoftLink fs conf fname statp topLevel)
            else if Stat.fmt statp = 4 then
              if nobackupDirectory fs conf fname then s
              else
                let s := s.send
                  (sendFile fs conf .dirbegin fname (canonical fname) statp topLevel)
                match descends fs conf fname statp parentDevice topLevel with
                | none => s
                | some names =>
                    (calls conf (canonical fname) names).foldl
                      (fun s link => findFiles fs conf fuel link statp.dev false s) s
            else s.send (foundOther fs conf fname statp topLevel)
          if linkable statp then
            match s.links.find? (Link.same statp.dev statp.ino) with
            | some l =>
                if l.name = fname then s
                else s.send (sendFile fs conf .lnksaved fname l.name statp topLevel)
            | none => dump { s with links := ⟨statp.dev, statp.ino, fname⟩ :: s.links }
          else dump s

/-- `backup_phase1_client`. -/
def backupPhase1Client (fs : Files) (conf : Conf) (fuel : Nat) : Scan :=
  conf.startdir.foldl (fun s dir => findFiles fs conf fuel dir (-1) true s) {}

/-! ## §4. The names that the scan comes to. -/

/-- The names that `find_files` comes to, with whether each is a directory to start from. -/
def visits (fs : Files) (conf : Conf) : Nat → Bytes → Int → Bool → List (Bytes × Bool)
  | 0, _, _, _ => []
  | fuel + 1, fname, parentDevice, topLevel =>
      match fs.lstat fname with
      | none => []
      | some statp =>
          (fname, topLevel) ::
            if Stat.fmt statp = 4 ∧ nobackupDirectory fs conf fname = false then
              match descends fs conf fname statp parentDevice topLevel with
              | none => []
              | some names =>
                  (calls conf (canonical fname) names).flatMap
                    fun link => visits fs conf fuel link statp.dev false
            else []

/-- The names that `backup_phase1_client` comes to. -/
def visited (fs : Files) (conf : Conf) (fuel : Nat) : List (Bytes × Bool) :=
  conf.startdir.flatMap fun dir => visits fs conf fuel dir (-1) true

/-- What is sent for a file that is not a link to one seen before. -/
def dumped (fs : Files) (conf : Conf) (fname : Bytes) (statp : Stat) (topLevel : Bool) :
    List Sbuf :=
  if Stat.fmt statp = 8 then foundRegularFile fs conf fname statp topLevel
  else if Stat.fmt statp = 10 then foundSoftLink fs conf fname statp topLevel
  else if Stat.fmt statp = 4 then
    if nobackupDirectory fs conf fname then []
    else sendFile fs conf .dirbegin fname (canonical fname) statp topLevel
  else foundOther fs conf fname statp topLevel

/-- What the scan does at one name. -/
def enter (fs : Files) (conf : Conf) (s : Scan) (v : Bytes × Bool) : Scan :=
  match fs.lstat v.1 with
  | none => s
  | some statp =>
      if linkable statp then
        match s.links.find? (Link.same statp.dev statp.ino) with
        | some l =>
            if l.name = v.1 then s
            else s.send (sendFile fs conf .lnksaved v.1 l.name statp v.2)
        | none =>
            ({ s with links := ⟨statp.dev, statp.ino, v.1⟩ :: s.links } : Scan).send
              (dumped fs conf v.1 statp v.2)
      else s.send (dumped fs conf v.1 statp v.2)

theorem Scan.send_nil (s : Scan) : s.send [] = s := by
  simp [Scan.send]

/-- A file with several names is no directory. -/
theorem fmt_ne_of_linkable {statp : Stat} (h : linkable statp = true) : Stat.fmt statp ≠ 4 := by
  intro h4
  simp [linkable, h4] at h

theorem findFiles_eq (fs : Files) (conf : Conf) (fuel : Nat) (fname : Bytes) (dev : Int)
    (top : Bool) (s : Scan) :
    findFiles fs conf fuel fname dev top s
      = (visits fs conf fuel fname dev top).foldl (enter fs conf) s := by
  induction fuel generalizing fname dev top s with
  | zero => rfl
  | succ fuel ih =>
      rw [findFiles, visits]
      cases hstat : fs.lstat fname with
      | none => rfl
      | some statp =>
          have hrec : ∀ (links : List Bytes) (s : Scan),
              links.foldl (fun s link => findFiles fs conf fuel link statp.dev false s) s
                = (links.flatMap fun link => visits fs conf fuel link statp.dev false).foldl
                    (enter fs conf) s := by
            intro links
            induction links with
            | nil => intro s; rfl
            | cons link links ihl =>
                intro s
                rw [List.foldl_cons, List.flatMap_cons, List.foldl_append, ← ih, ← ihl]
          simp only [List.foldl_cons, enter, hstat]
          by_cases hl : linkable statp
          · -- not a directory, so that nothing is gone into
            have h4 := fmt_ne_of_linkable hl
            simp only [hl, if_true, h4, false_and, if_false, List.foldl_nil]
            cases s.links.find? (Link.same statp.dev statp.ino) with
            | some l => rfl
            | none =>
                by_cases h8 : Stat.fmt statp = 8
                · simp [dumped, h8]
                · by_cases h10 : Stat.fmt statp = 10
                  · simp [dumped, h10]
                  · simp [dumped, h8, h10, h4]
          · simp only [hl]
            by_cases h8 : Stat.fmt statp = 8
            · simp [dumped, h8]
            · by_cases h10 : Stat.fmt statp = 10
              · simp [dumped, h10]
              · by_cases h4 : Stat.fmt statp = 4
                · cases hn : nobackupDirectory fs conf fname with
                  | true => simp [dumped, h4, hn, Scan.send_nil]
                  | false =>
                      cases hd : descends fs conf fname statp dev top with
                      | none => simp [dumped, h4, hn]
                      | some names => simp [dumped, h4, hn, hrec]
                · simp [dumped, h8, h10, h4]

/-- **The scan looks at the names that it comes to, one by one.** -/
theorem backupPhase1Client_eq (fs : Files) (conf : Conf) (fuel : Nat) :
    backupPhase1Client fs conf fuel = (visited fs conf fuel).foldl (enter fs conf) {} := by
  have hrec : ∀ (dirs : List Bytes) (s : Scan),
      dirs.foldl (fun s dir => findFiles fs conf fuel dir (-1) true s) s
        = (dirs.flatMap fun dir => visits fs conf fuel dir (-1) true).foldl
            (enter fs conf) s := by
    intro dirs
    induction dirs with
    | nil => intro s; rfl
    | cons dir dirs ih =>
        intro s
        rw [List.foldl_cons, List.flatMap_cons, List.foldl_append, ← ih, findFiles_eq]
  exact hrec conf.startdir {}

end Burp.Phase1
