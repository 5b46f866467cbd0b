/-
  Burp.RestoreClient.Effects — what a restore does to the file system of the client
  (restore_client.c, handy.c, attribs.c, extrameta.c).

  Each entry that the server sends is dealt with in one turn of the loop of
  `do_restore_client`.  The file system may refuse any call, and what has been transferred may
  be anything.

  Main results:
    * `buildPath_cases` — a path is there, or below a directory that has just been made.
    * `restoreDir_extends`, `restoreFileOrGetMeta_extends`, `restoreSpecial_extends`,
      `restoreLink_extends`, `restoreMetadata_extends` — what must not be reached so that all
      that was there is kept.
-/
import Burp.FileSystem.Inodes
import Burp.Client.Extrameta
import Burp.RestoreClient.Client

namespace Burp.RestoreClient.Effects

open Inodes (Fs Ino Attrs Kind Extends)
open FileSystem Burp.Store Burp.Phase2

/-! ## §1. What a turn is given. -/

/-- A call that may be refused. -/
inductive Op
  | mkdir | openFile | mknod | unlink | link | symlink | lchown | chown | chmod | utime
  | extra (call : Client.Call)
  deriving DecidableEq

/-- What a turn meets outside the program. -/
structure Given where
  denied : Fs → Op → Inodes.Path → Bool := fun _ _ _ => false
  /-- What comes of the data, as far as it can be written. -/
  data : Bytes := []
  metadata : Option Bytes := none
  /-- `transfer_gzfile_in` returns 0. -/
  transfers : Bool := true
  closes : Bool := true
  /-- `restore_interrupt` returns 0. -/
  interrupts : Bool := true

/-- A call, which may be refused. -/
def Given.attempt {α : Type} (g : Given) (fs : Fs) (op : Op) (p : Inodes.Path) (r : Option α) :
    Option α :=
  if g.denied fs op p then none else r

/-- What is read in a turn, and what it meets. -/
structure Received where
  sb : Sbuf
  given : Given := {}
  /-- `S_ISFIFO` of a `struct stat` that nothing has been written to. -/
  isFifo : Bool := false

/-- What a turn leaves, and whether the loop goes on. -/
structure Turn where
  fs : Fs
  goesOn : Bool := true
  deriving DecidableEq

def components (path : Bytes) : Inodes.Path := (cString path).splitOn 47

/-! ## §2. Paths and attributes. -/

/-- `mkpath`, on a path from its end. -/
def mkpathRev (g : Given) : Inodes.Path → Fs → Fs × Bool
  | [], fs => (fs, true)
  | _ :: q, fs =>
      -- no slash, or down to the root
      if q = [] ∨ q = [[]] then (fs, true)
      else if (fs.lstat q.reverse).isSome then (fs, true)
      else
        match mkpathRev g q fs with
        | (fs, false) => (fs, false)
        | (fs, true) =>
            match g.attempt fs .mkdir q.reverse (fs.mkdir q.reverse) with
            | none => (fs, false)
            | some fs => (fs, true)

/-- `build_path`. -/
def buildPath (g : Given) (p : Inodes.Path) (fs : Fs) : Fs × Bool := mkpathRev g p.reverse fs

/-- `is_dir`. -/
def isDir (fs : Fs) (p : Inodes.Path) : Bool :=
  ((fs.lstat p).bind fs.names).isSome

def owned (s : Stat) (a : Attrs) : Attrs := { a with uid := s.uid, gid := s.gid }

def moded (s : Stat) (a : Attrs) : Attrs := { a with mode := s.mode % 2 ^ 12 }

def timed (s : Stat) (a : Attrs) : Attrs := { a with atime := s.atime, mtime := s.mtime }

/-- `chown`, `chmod` and `utime`; a call that is refused is only warned about. -/
def changed (g : Given) (fs : Fs) (p : Inodes.Path) (s : Stat) (a : Attrs) : Attrs :=
  let a := if g.denied fs .chown p then a else owned s a
  let a := if g.denied fs .chmod p then a else moded s a
  if g.denied fs .utime p then a else timed s a

/-- `set_attributes`. -/
def setAttributes (g : Given) (sb : Sbuf) (p : Inodes.Path) (fs : Fs) : Fs :=
  if sb.cmd = .softLink then
    match g.attempt fs .lchown p (fs.lstat p) with
    | none => fs
    | some i => fs.setAttrs i (owned sb.statp)
  else
    match fs.stat p with
    | none => fs
    | some i => fs.setAttrs i (changed g fs p sb.statp)

/-- Whose attributes a call sets: `lsetxattr` does not follow a symbolic link. -/
def callPlace (fs : Fs) (p : Inodes.Path) : Client.Call → Option Ino
  | .acl _ _ => fs.stat p
  | .lsetxattr _ _ => fs.lstat p

def callSucceeds (g : Given) (fs : Fs) (p : Inodes.Path) (call : Client.Call) : Bool :=
  (callPlace fs p call).isSome && !g.denied fs (.extra call) p

def callAttrs : Client.Call → Attrs → Attrs
  | .acl acltype acltext, a =>
      { a with acls := (acltype, acltext) :: a.acls.filter fun x => x.1 ≠ acltype }
  | .lsetxattr name value, a =>
      { a with xattrs := (name, value) :: a.xattrs.filter fun x => x.1 ≠ name }

def applyCall (i : Option Ino) (call : Client.Call) (fs : Fs) : Fs :=
  match i with
  | none => fs
  | some i => fs.setAttrs i (callAttrs call)

/-- `set_extrameta` and the calls that it makes.  No call changes where the path leads to. -/
def setExtrameta (g : Given) (p : Inodes.Path) (extrameta : Bytes) (fs : Fs) : Fs × Option Nat :=
  let r := Client.setExtrameta (callSucceeds g fs p) extrameta
  ((r.1.filter (callSucceeds g fs p)).foldl (fun t call => applyCall (callPlace fs p call) call t)
    fs, r.2)

/-! ## §3. The entries. -/

/-- `restore_dir`. -/
def restoreDir (g : Given) (sb : Sbuf) (dname : Inodes.Path) (fs : Fs) : Turn :=
  match buildPath g dname fs with
  | (fs, false) => ⟨fs, g.interrupts⟩
  | (fs, true) =>
      if isDir fs dname then ⟨setAttributes g sb dname fs, true⟩
      else
        match g.attempt fs .mkdir dname (fs.mkdir dname) with
        | none => ⟨fs, g.interrupts⟩
        | some fs => ⟨fs, true⟩

/-- The end of `restore_file_or_get_meta`, after a transfer to a file. -/
def transferred (g : Given) (sb : Sbuf) (fname : Inodes.Path) (fs : Fs) : Turn :=
  if g.transfers && g.closes then ⟨setAttributes g sb fname fs, true⟩ else ⟨fs, false⟩

/-- `restore_file_or_get_meta`, and the metadata. -/
def restoreFileOrGetMeta (g : Given) (sb : Sbuf) (fname : Inodes.Path) (metadata : Bool) (fs : Fs) :
    Turn × Option Bytes :=
  match buildPath g fname fs with
  | (fs, false) => (⟨fs, g.interrupts⟩, none)
  | (fs, true) =>
      if metadata then (⟨fs, g.transfers⟩, g.metadata)
      else
        match g.attempt fs .openFile fname (fs.openWrite fname) with
        -- the transfer goes on with no file
        | none => (if g.interrupts then transferred g sb fname fs else ⟨fs, false⟩, none)
        | some (fs, i) => (transferred g sb fname (fs.write i g.data), none)

/-- What `mkfifo` and `mknod` make for a mode; there is nothing for a directory's. -/
def nodeKind (s : Stat) : Option Kind :=
  match (s.mode % 2 ^ 16 / 2 ^ 12).toNat with
  | 1 => some .fifo
  | 0 | 8 => some (.file [])
  | 2 | 6 | 12 => some (.special s.rdev)
  | _ => none

/-- `restore_special`. -/
def restoreSpecial (g : Given) (sb : Sbuf) (fname : Inodes.Path) (fs : Fs) : Turn :=
  match buildPath g fname fs with
  | (fs, false) => ⟨fs, g.interrupts⟩
  | (fs, true) =>
      match nodeKind sb.statp with
      | none => ⟨fs, true⟩
      | some k =>
          match g.attempt fs .mknod fname (fs.mknod fname k) with
          | some fs => ⟨setAttributes g sb fname fs, true⟩
          | none =>
              -- EEXIST
              if (fs.lstat fname).isSome then ⟨setAttributes g sb fname fs, true⟩ else ⟨fs, true⟩

/-- `make_link`. -/
def makeLink (g : Given) (fname : Inodes.Path) (lnk : Bytes) (cmd : Store.Cmd)
    ( restoreprefix : Bytes) (fs : Fs) : Fs × Bool :=
  let fs := (g.attempt fs .unlink fname (fs.unlink fname)).getD fs
  let r :=
    match cmd with
    | .hardLink =>
        g.attempt fs .link fname (fs.link (components (prependS restoreprefix lnk)) fname)
    | .softLink => g.attempt fs .symlink fname (fs.symlink (components lnk) fname)
    | _ => none
  (r.getD fs, r.isSome)

/-- `restore_link`. -/
def restoreLink (g : Given) (sb : Sbuf) (fname : Inodes.Path) ( restoreprefix : Bytes) (fs : Fs) :
    Turn :=
  match buildPath g fname fs with
  | (fs, false) => ⟨fs, g.interrupts⟩
  | (fs, true) =>
      match makeLink g fname (sb.linkto.getD []) sb.cmd restoreprefix fs with
      | (fs, false) => ⟨fs, g.interrupts⟩
      | (fs, true) => ⟨setAttributes g sb fname fs, true⟩

/-- The directory that metadata is for is made before the metadata is read; its call of
`restore_dir` has no counters, so `restore_interrupt` returns 0. -/
def beforeMetadata (g : Given) (sb : Sbuf) (fname : Inodes.Path) (fs : Fs) : Fs :=
  if sb.statp.isDir then (restoreDir { g with interrupts := true } sb fname fs).fs else fs

/-- `restore_metadata`. -/
def restoreMetadata (g : Given) (sb : Sbuf) (fname : Inodes.Path) (fs : Fs) : Turn :=
  match restoreFileOrGetMeta g sb fname true (beforeMetadata g sb fname fs) with
  | (⟨fs, true⟩, some metadata) =>
      match setExtrameta g fname metadata fs with
      | (fs, some 0) => ⟨setAttributes g sb fname fs, true⟩
      -- carry on if it could not be done
      | (fs, _) => ⟨fs, true⟩
  | (t, _) => t

/-- The second `switch` of `do_restore_client`. -/
def restoreEntry (conf : Settings) (g : Given) (sb : Sbuf) (fullpath : Inodes.Path) (fs : Fs) :
    Turn :=
  match sb.cmd with
  | .warning => ⟨fs, true⟩
  | .directory => restoreDir g sb fullpath fs
  | .file | .vssT | .encFile | .encVssT | .efsFile =>
      (restoreFileOrGetMeta g sb fullpath false fs).1
  | .softLink | .hardLink => restoreLink g sb fullpath conf.restoreprefix fs
  | .special => restoreSpecial g sb fullpath fs
  | .metadata | .vss | .encMetadata | .encVss => restoreMetadata g sb fullpath fs
  | _ => ⟨fs, false⟩

/-- The path that an entry is restored to, if not too many components are stripped. -/
def fullpath (conf : Settings) (sb : Sbuf) : Option Inodes.Path :=
  let path := sb.path.getD []
  (if conf.strip ≠ 0 then stripPathComponents conf.strip path else some path).map fun path =>
    components (prependS conf.restoreprefix path)

/-- What `overwrite_ok` finds. -/
def finds (isFifo : Bool) (fs : Fs) (p : Inodes.Path) : Finds :=
  { isFifo := isFifo, pathExists := (fs.lstat p).isSome }

/-- A turn of the loop of `do_restore_client`. -/
def turn (conf : Settings) (e : Received) (fs : Fs) : Turn :=
  if Entry.contains e.sb.cmd then
    match fullpath conf e.sb with
    | none => ⟨fs, e.given.interrupts⟩
    | some p =>
        if overwriteOk conf (finds e.isFifo fs p) e.sb then restoreEntry conf e.given e.sb p fs
        -- "Path exists"
        else ⟨fs, e.given.interrupts⟩
  else restoreEntry conf e.given e.sb [] fs

/-- A turn, unless the loop has ended. -/
def Turn.next (conf : Settings) (t : Turn) (e : Received) : Turn :=
  if t.goesOn then turn conf e t.fs else t

/-- The loop, for the entries that the server sends. -/
def run (conf : Settings) (es : List Received) (fs : Fs) : Turn :=
  es.foldl (Turn.next conf) ⟨fs, true⟩

/-- An entry of a regular file. -/
def received (cmd : Store.Cmd) (path : String) (given : Given) : Received :=
  { sb := { cmd := cmd, path := some (nameBytes path), statp := { mode := 0o100644 } }
    given := given }

/-- An entry of a hard link. -/
def receivedLink (path linkto : String) : Received :=
  let e := received .hardLink path {}
  { e with sb := { e.sb with linkto := some (nameBytes linkto) } }

section Run

variable {conf : Settings} {es : List Received} {fs : Fs} {k : Nat}

theorem run_take_succ {e : Received} (he : es[k]? = some e) :
    run conf (es.take (k + 1)) fs = (run conf (es.take k) fs).next conf e := by
  unfold run
  rw [List.take_add_one, he, List.foldl_append]
  rfl

theorem run_take_of_none (he : es[k]? = none) :
    run conf (es.take (k + 1)) fs = run conf (es.take k) fs := by
  rw [List.take_add_one, he, Option.toList_none, List.append_nil]

end Run

/-! ## §4. Paths that are made. -/

/-- It does not lead to anything solid that was there. -/
def Clear (fs₀ : Fs) (o : Option Ino) : Prop := ∀ i, o = some i → ¬ fs₀.Solid i

section Kept

variable {conf : Settings} {g : Given} {sb : Sbuf} {p : Inodes.Path} {fs₀ fs t : Fs}

theorem attempt_eq_some {α : Type} {op : Op} {r : Option α} {x : α}
    (h : g.attempt fs op p r = some x) : r = some x := by
  unfold Given.attempt at h
  split_ifs at h
  exact h

theorem mkpathRev_extends : ∀ (q : Inodes.Path) {fs : Fs}, Extends fs₀ fs →
    Extends fs₀ (mkpathRev g q fs).1
  | [], _, h => h
  | c :: q, fs, h => by
      unfold mkpathRev
      split_ifs
      · exact h
      · exact h
      · have hrest := mkpathRev_extends q h
        split
        · rename_i heq
          rwa [heq] at hrest
        · rename_i heq
          rw [heq] at hrest
          split
          · exact hrest
          · rename_i hmade
            exact hrest.create (attempt_eq_some hmade)

theorem buildPath_extends (h : Extends fs₀ fs) : Extends fs₀ (buildPath g p fs).1 :=
  mkpathRev_extends _ h

/-- **A path that is built**: nothing was to be made, or its directory has just been made. -/
theorem buildPath_cases (h : buildPath g p fs = (t, true)) :
    t = fs ∨ ∃ (u : Fs) (q : Inodes.Path) (c : Inodes.Name), p = q ++ [c] ∧ q ≠ [] ∧ q ≠ [[]]
      ∧ u.mkdir q = some t := by
  unfold buildPath at h
  cases hrev : p.reverse with
  | nil =>
      rw [hrev] at h
      cases h
      exact Or.inl rfl
  | cons c q =>
      rw [hrev] at h
      unfold mkpathRev at h
      split_ifs at h with hroot hthere
      · cases h
        exact Or.inl rfl
      · cases h
        exact Or.inl rfl
      · split at h
        · cases h
        · split at h
          · cases h
          · rename_i hmade
            cases h
            rw [not_or] at hroot
            refine Or.inr ⟨_, q.reverse, c, ?_, ?_, ?_, attempt_eq_some hmade⟩
            · rw [← List.reverse_reverse p, hrev, List.reverse_cons]
            · simpa using hroot.1
            · intro heq
              exact hroot.2 (by rw [← List.reverse_reverse q, heq]; rfl)

/-- What a path leads to that has been built, it led to before, or it is a directory. -/
theorem Clear.built (h : Extends fs₀ fs) (ht : buildPath g p fs = (t, true)) :
    (Clear fs₀ (fs.lstat p) → Clear fs₀ (t.lstat p))
      ∧ (Clear fs₀ (fs.stat p) → Clear fs₀ (t.stat p)) := by
  have hext : Extends fs₀ t := by
    have hbuilt := buildPath_extends (g := g) (p := p) h
    rwa [ht] at hbuilt
  rcases buildPath_cases ht with rfl | ⟨u, q, c, rfl, hq, hq', hu⟩
  · exact ⟨id, id⟩
  · refine ⟨fun _ i hi => ?_, fun _ i hi => ?_⟩
    · obtain ⟨names, hnames⟩ := Inodes.below_mkdir hq hq' hu (Or.inl hi)
      exact Inodes.not_solid_dir hext hnames
    · obtain ⟨names, hnames⟩ := Inodes.below_mkdir hq hq' hu (Or.inr hi)
      exact Inodes.not_solid_dir hext hnames

/-! ## §5. What is kept. -/

theorem setAttributes_extends (h : Extends fs₀ fs)
    (hsoft : sb.cmd = .softLink → Clear fs₀ (fs.lstat p))
    (hother : sb.cmd ≠ .softLink → Clear fs₀ (fs.stat p)) :
    Extends fs₀ (setAttributes g sb p fs) := by
  unfold setAttributes
  split_ifs with hcmd
  · split
    · exact h
    · rename_i i hi
      exact h.setAttrs (hsoft hcmd i (attempt_eq_some hi)) _
  · split
    · exact h
    · rename_i i hi
      exact h.setAttrs (hother hcmd i hi) _

/-- Where nothing is found, nothing is led to. -/
theorem Clear.of_dir (h : Extends fs₀ fs) (hdir : isDir fs p = true) :
    Clear fs₀ (fs.lstat p) ∧ Clear fs₀ (fs.stat p) := by
  unfold isDir at hdir
  obtain ⟨names, hnames⟩ := Option.isSome_iff_exists.mp hdir
  obtain ⟨i, hi, hnames⟩ := Option.bind_eq_some_iff.mp hnames
  rw [Inodes.names_eq_some] at hnames
  have hclear := Inodes.not_solid_dir h hnames
  refine ⟨fun j hj => ?_, fun j hj => ?_⟩
  · rw [hi] at hj
    cases hj
    exact hclear
  · rw [Inodes.stat_of_lstat hi (by simp [hnames])] at hj
    cases hj
    exact hclear

/-- `restore_dir` keeps all that was there. -/
theorem restoreDir_extends (h : Extends fs₀ fs) : Extends fs₀ (restoreDir g sb p fs).fs := by
  have hbuilt := buildPath_extends (g := g) (p := p) h
  unfold restoreDir
  split
  · rename_i heq
    rwa [heq] at hbuilt
  · rename_i heq
    rw [heq] at hbuilt
    split_ifs with hdir
    · obtain ⟨hlstat, hstat⟩ := Clear.of_dir hbuilt hdir
      exact setAttributes_extends hbuilt (fun _ => hlstat) fun _ => hstat
    · split
      · exact hbuilt
      · rename_i hmade
        exact hbuilt.create (attempt_eq_some hmade)

theorem mknod_spec {k : Kind} (h : fs.mknod p k = some t) :
    fs.create p (fun _ _ => { kind := k }) = some t ∧ t.stat p = some fs.inodes.length := by
  unfold Fs.mknod at h
  split at h
  · cases h
  · cases h
  · rename_i hdir hlink
    exact ⟨h, Inodes.create_stat h fun _ _ target heq => hlink target heq⟩

theorem symlink_spec {target : Inodes.Path} (h : fs.symlink target p = some t) :
    fs.create p (fun _ _ => { kind := .symlink target }) = some t := by
  unfold Fs.symlink at h
  split_ifs at h
  exact h

/-- The name of a link was taken by nothing solid. -/
theorem makeLink_extends (g : Given) (lnk : Bytes) (cmd : Store.Cmd) ( restoreprefix : Bytes)
    (h : Extends fs₀ fs) (hclear : Clear fs₀ (fs.lstat p)) :
    Extends fs₀ (makeLink g p lnk cmd restoreprefix fs).1
      ∧ (cmd = .softLink → ∀ t, makeLink g p lnk cmd restoreprefix fs = (t, true) →
        Clear fs₀ (t.lstat p)) := by
  have hgone : Extends fs₀ ((g.attempt fs .unlink p (fs.unlink p)).getD fs) := by
    cases hcall : g.attempt fs .unlink p (fs.unlink p) with
    | none => exact h
    | some u => exact h.unlink hclear (attempt_eq_some hcall)
  unfold makeLink
  generalize (g.attempt fs .unlink p (fs.unlink p)).getD fs = u at hgone ⊢
  refine ⟨?_, ?_⟩
  · cases cmd
    case hardLink =>
      cases hcall : g.attempt u .link p (u.link (components (prependS restoreprefix lnk)) p) with
      | none => simpa [hcall] using hgone
      | some t => simpa [hcall] using hgone.link (attempt_eq_some hcall)
    case softLink =>
      cases hcall : g.attempt u .symlink p (u.symlink (components lnk) p) with
      | none => simpa [hcall] using hgone
      | some t => simpa [hcall] using hgone.create (symlink_spec (attempt_eq_some hcall))
    all_goals exact hgone
  · rintro rfl t ht
    obtain ⟨rfl, hsome⟩ := Prod.mk.inj ht
    obtain ⟨t, hcall⟩ := Option.isSome_iff_exists.mp hsome
    simp only at hcall
    simp only [hcall, Option.getD_some]
    rw [Clear, Inodes.create_lstat (symlink_spec (attempt_eq_some hcall))]
    rintro j ⟨⟩
    exact hgone.not_solid_new

theorem transferred_extends (h : Extends fs₀ fs) (hcmd : sb.cmd ≠ .softLink)
    (hclear : Clear fs₀ (fs.stat p)) : Extends fs₀ (transferred g sb p fs).fs := by
  unfold transferred
  split_ifs
  · exact setAttributes_extends h (fun heq => absurd heq hcmd) fun _ => hclear
  · exact h

/-- What is written to a file that is opened does not change anything that was there. -/
theorem written_extends (h : Extends fs₀ fs) (hcmd : sb.cmd ≠ .softLink)
    (hclear : Clear fs₀ (fs.stat p)) {i : Ino} (ht : fs.openWrite p = some (t, i)) :
    Extends fs₀ (transferred g sb p (t.write i g.data)).fs := by
  have hi := Inodes.not_solid_openWrite h hclear ht
  refine transferred_extends ((h.openWrite hclear ht).write hi _) hcmd fun j hj => ?_
  rcases ((Inodes.openWrite_adds ht).alike (Inodes.write_alike t i g.data)).stat hj with rfl | hj
  · exact hi
  · exact hclear j hj

/-- A file must not be there. -/
theorem restoreFile_extends (h : Extends fs₀ fs) (hcmd : sb.cmd ≠ .softLink)
    (hclear : Clear fs₀ (fs.stat p)) :
    Extends fs₀ (restoreFileOrGetMeta g sb p false fs).1.fs := by
  have hbuilt := buildPath_extends (g := g) (p := p) h
  unfold restoreFileOrGetMeta
  split
  · rename_i heq
    rwa [heq] at hbuilt
  · rename_i t heq
    rw [heq] at hbuilt
    have hclear' := (Clear.built h heq).2 hclear
    rw [if_neg (by simp)]
    split
    · split_ifs
      · exact transferred_extends hbuilt hcmd hclear'
      · exact hbuilt
    · rename_i hopen
      exact written_extends hbuilt hcmd hclear' (attempt_eq_some hopen)

/-- Nothing is made for a directory's mode, so nothing may be there for any other. -/
theorem restoreSpecial_extends (h : Extends fs₀ fs) (hcmd : sb.cmd ≠ .softLink)
    (hclear : nodeKind sb.statp ≠ none → Clear fs₀ (fs.stat p)) :
    Extends fs₀ (restoreSpecial g sb p fs).fs := by
  have hbuilt := buildPath_extends (g := g) (p := p) h
  unfold restoreSpecial
  split
  · rename_i heq
    rwa [heq] at hbuilt
  · rename_i t heq
    rw [heq] at hbuilt
    split
    · exact hbuilt
    · rename_i k hk
      have hclear' := (Clear.built h heq).2 (hclear (by simp [hk]))
      split
      · rename_i hmade
        obtain ⟨hmade, hstat⟩ := mknod_spec (attempt_eq_some hmade)
        refine setAttributes_extends (hbuilt.create hmade) (fun heq => absurd heq hcmd) fun _ => ?_
        rw [Clear, hstat]
        rintro j ⟨⟩
        exact hbuilt.not_solid_new
      · split_ifs
        · exact setAttributes_extends hbuilt (fun heq => absurd heq hcmd) fun _ => hclear'
        · exact hbuilt

/-- A link must not be there, and a hard link must not lead to anything that was. -/
theorem restoreLink_extends { restoreprefix : Bytes} (h : Extends fs₀ fs)
    (hcmd : sb.cmd.isLink = true) (hclear : Clear fs₀ (fs.lstat p))
    (hlink : sb.cmd = .hardLink → ∀ u t, buildPath g p fs = (u, true) →
      makeLink g p (sb.linkto.getD []) .hardLink restoreprefix u = (t, true) →
      Clear fs₀ (t.stat p)) :
    Extends fs₀ (restoreLink g sb p restoreprefix fs).fs := by
  have hbuilt := buildPath_extends (g := g) (p := p) h
  unfold restoreLink
  split
  · rename_i heq
    rwa [heq] at hbuilt
  · rename_i u heq
    rw [heq] at hbuilt
    have hclear' := (Clear.built h heq).1 hclear
    obtain ⟨hmade, hsoft⟩ := makeLink_extends g (sb.linkto.getD []) sb.cmd restoreprefix hbuilt
      hclear'
    split
    · rename_i heq
      rwa [heq] at hmade
    · rename_i t hdone
      rw [hdone] at hmade
      refine setAttributes_extends hmade (fun hsame => hsoft hsame t hdone) fun hne => ?_
      have hhard : sb.cmd = .hardLink := by
        revert hcmd hne
        cases sb.cmd <;> simp [Cmd.isLink]
      rw [hhard] at hdone
      exact hlink hhard u t heq hdone

/-- Setting what is found in metadata leaves paths where they led to. -/
theorem setExtrameta_extends {b : Bytes} (h : Extends fs₀ fs) (hlstat : Clear fs₀ (fs.lstat p))
    (hstat : Clear fs₀ (fs.stat p)) :
    Extends fs₀ (setExtrameta g p b fs).1 ∧ Clear fs₀ ((setExtrameta g p b fs).1.stat p) := by
  have hcall : ∀ call, Clear fs₀ (callPlace fs p call)
    | .acl _ _ => hstat
    | .lsetxattr _ _ => hlstat
  have hrun : ∀ (calls : List Client.Call) (t : Fs), Extends fs₀ t →
      Inodes.Adds (fun _ => False) fs t →
      Extends fs₀ (calls.foldl (fun t call => applyCall (callPlace fs p call) call t) t)
        ∧ Inodes.Adds (fun _ => False) fs
          (calls.foldl (fun t call => applyCall (callPlace fs p call) call t) t) := by
    intro calls
    induction calls with
    | nil => exact fun t ht hadds => ⟨ht, hadds⟩
    | cons call calls ih =>
        intro t ht hadds
        rw [List.foldl_cons]
        unfold applyCall
        cases hplace : callPlace fs p call with
        | none => exact ih t ht hadds
        | some i =>
            exact ih _ (ht.setAttrs (hcall call i hplace) _)
              (hadds.alike (Inodes.setAttrs_alike t i _))
  obtain ⟨hext, hadds⟩ := hrun _ fs h (Inodes.Adds.refl fun _ hfalse => hfalse.elim)
  exact ⟨hext, fun j hj => hstat j ((hadds.stat hj).resolve_left id)⟩

/-- What metadata is for must not be there. -/
theorem restoreMetadata_extends (h : Extends fs₀ fs) (hcmd : sb.cmd ≠ .softLink)
    (hlstat : Clear fs₀ ((beforeMetadata g sb p fs).lstat p))
    (hstat : Clear fs₀ ((beforeMetadata g sb p fs).stat p)) :
    Extends fs₀ (restoreMetadata g sb p fs).fs := by
  have hbefore : Extends fs₀ (beforeMetadata g sb p fs) := by
    unfold beforeMetadata
    split_ifs
    · exact restoreDir_extends h
    · exact h
  unfold restoreMetadata
  generalize beforeMetadata g sb p fs = u at hlstat hstat hbefore ⊢
  have hbuilt := buildPath_extends (g := g) (p := p) hbefore
  unfold restoreFileOrGetMeta
  cases hbuild : buildPath g p u with
  | mk t ok =>
      rw [hbuild] at hbuilt
      cases ok with
      | false => cases g.interrupts <;> exact hbuilt
      | true =>
          obtain ⟨hlstat', hstat'⟩ := Clear.built hbefore hbuild
          simp only [if_true]
          split
          · rename_i t' b heq
            obtain ⟨hturn, -⟩ := Prod.mk.inj heq
            obtain ⟨rfl, -⟩ := Turn.mk.inj hturn
            obtain ⟨hext, hclear⟩ := setExtrameta_extends (g := g) (b := b) hbuilt (hlstat' hlstat)
              (hstat' hstat)
            split
            · rename_i heq
              rw [heq] at hext hclear
              exact setAttributes_extends hext (fun heq => absurd heq hcmd) fun _ => hclear
            · rename_i heq
              rwa [heq] at hext
          · rename_i heq
            obtain ⟨rfl, -⟩ := Prod.mk.inj heq
            exact hbuilt

end Kept

end Burp.RestoreClient.Effects
