/-
  Burp.Bedup.CheckFiles — finding equal files and linking them (bedup.c).

  `process_dir` walks directories in the order of `readdir`.  Each regular file that is not
  empty is compared with the files remembered under its size, of which only 32 bits count:
  first by a checksum of its start, then by one of the whole file, then byte by byte.  A file
  equal to a remembered one becomes a link of it, a file equal to none is remembered.

  Main results:
    * `fullMatch_spec` — the byte comparison in chunks decides equality.
    * `sameContent_spec` — so does the comparison with its checksums in front.
    * `checkLoop_spec` — the loop stops at a remembered link of the file, stops at the first
      remembered file of the same device and content, or has passed them all.
-/
import Burp.FileSystem.Relink
import Burp.Phase2.Dpth

namespace Burp.Bedup

open FileSystem Crash
open Burp.Phase2 (nameBytes)

/-! ## §1. What is remembered of a file. -/

/-- `struct file`. -/
structure File where
  path : Option Path
  dev : Nat
  ino : Nat
  nlink : Nat
  fullCksum : Nat
  partCksum : Nat
  deriving DecidableEq

/-- What `lstat` tells of a regular file (`struct stat`). -/
structure Info where
  dev : Nat
  ino : Nat
  nlink : Nat
  size : Nat

/-- Several devices in one tree: the device of each file and its inode number there. -/
structure Disks where
  dev : Nat → Nat
  ino : Nat → Nat
  inj : ∀ i j, dev i = dev j → ino i = ino j → i = j

/-- A link that could not be made, as logged. -/
inductive LinkError where
  | hardlink (tmppath newpath : Path)
  | rename (oldpath newpath : Path)
  deriving DecidableEq

structure Settings where
  /-- The first four bytes of an MD5 digest, as a number. -/
  md5 : Bytes → Nat
  disks : Disks
  ext : String
  maxlinks : Nat
  makelinks : Bool

/-- The disk and the globals of the program. -/
structure State where
  tree : Node
  myfiles : Nat → List File
  count : Nat
  savedbytes : Nat
  errors : List LinkError

def start (t : Node) : State :=
  { tree := t, myfiles := fun _ => [], count := 0, savedbytes := 0, errors := [] }

def Settings.lstat (c : Settings) (t : Node) (i : Nat) (d : Bytes) : Info :=
  { dev := c.disks.dev i, ino := c.disks.ino i, nlink := nlink t i, size := d.length }

/-! ## §2. Comparing two files. -/

/-- What can be read once the file is open. -/
def openFile (t : Node) (f : File) : Option Bytes :=
  match f.path.bind (look t) with
  | some (.file _ d) => some d
  | _ => none

def partChunk : Nat := 1024
def fullChunk : Nat := 4096

def getPartCksum (md5 : Bytes → Nat) (t : Node) (f : File) : File :=
  match openFile t f with
  | none => { f with partCksum := 0 }
  | some d =>
      let sum := md5 (d.take partChunk)
      -- no need to read the file again if that was all of it
      if d.length < partChunk then { f with partCksum := sum, fullCksum := sum }
      else { f with partCksum := sum }

def getFullCksum (md5 : Bytes → Nat) (t : Node) (f : File) : File :=
  match openFile t f with
  | none => { f with fullCksum := 0 }
  | some d => { f with fullCksum := md5 d }

/-- The loop of `full_match`, which reads both files a chunk at a time. -/
def matchFrom : Nat → Bytes → Bytes → Bool
  | 0, _, _ => false
  | fuel + 1, o, n =>
      if (o.take fullChunk).length ≠ (n.take fullChunk).length then false
      else if o.take fullChunk ≠ n.take fullChunk then false
      else if (o.take fullChunk).length < fullChunk then true
      else matchFrom fuel (o.drop fullChunk) (n.drop fullChunk)

/-- `full_match`.  A file that cannot be opened is blanked. -/
def fullMatch (t : Node) (o n : File) : File × Bool :=
  match openFile t o with
  | none => ({ o with path := none }, false)
  | some od =>
      match openFile t n with
      | none => (o, false)
      | some nd => (o, matchFrom (od.length + 1) od nd)

/-- The tests of `check_files` on two files that are not links of one another; a checksum is
made when it is first needed. -/
def sameContent (md5 : Bytes → Nat) (t : Node) (newfile f : File) : File × File × Bool :=
  let newfile := if newfile.partCksum = 0 then getPartCksum md5 t newfile else newfile
  let f := if f.partCksum = 0 then getPartCksum md5 t f else f
  if newfile.partCksum ≠ f.partCksum then (newfile, f, false)
  else
    let newfile := if newfile.fullCksum = 0 then getFullCksum md5 t newfile else newfile
    let f := if f.fullCksum = 0 then getFullCksum md5 t f else f
    if newfile.fullCksum ≠ f.fullCksum then (newfile, f, false)
    else
      let r := fullMatch t newfile f
      (r.1, f, r.2)

/-! ## §3. Linking. -/

/-- `prepend(path, ext, "")`. -/
def tmpPath (ext : String) (p : Path) : Path := p.dropLast ++ [p.getLastD "" ++ ext]

/-- `do_hardlink`: make `o` a link of `n`. -/
def doHardlink (ext : String) (o n : Path) : Prog Node (Option LinkError) := do
  if ← link n (tmpPath ext o) then
    if ← FileSystem.rename (tmpPath ext o) o then pure none
    else pure (some (.rename (tmpPath ext o) o))
  else pure (some (.hardlink (tmpPath ext o) n))

/-- `reset_old_file`: only the path and the number of links are overwritten. -/
def resetOldFile (oldfile newfile : File) (info : Info) : File × File :=
  ({ oldfile with nlink := info.nlink, path := newfile.path }, { newfile with path := none })

/-- What `check_files` does with a file `newfile` that has the content of `f`. -/
def onMatch (c : Settings) (info : Info) (newfile f : File) (s : State) : File × File × State :=
  if c.maxlinks ≤ f.nlink then
    -- replace the memory of `f` with the new file, so that others can link to that
    ((resetOldFile f newfile info).1, (resetOldFile f newfile info).2, s)
  else if c.makelinks then
    let o := newfile.path.getD []
    let n := f.path.getD []
    let tree := (doHardlink c.ext o n).final s.tree
    match (doHardlink c.ext o n).result s.tree with
    | none =>
        ({ f with nlink := f.nlink + 1 }, newfile,
          { s with
            tree := tree
            count := s.count + 1
            -- only saved if the last link is gone
            savedbytes := if newfile.nlink = 1 then s.savedbytes + info.size
              else s.savedbytes })
    | some e =>
        ((resetOldFile f newfile info).1, (resetOldFile f newfile info).2,
          { s with tree := tree, errors := s.errors ++ [e] })
  else
    (f, newfile, { s with count := s.count + 1, savedbytes := s.savedbytes + info.size })

/-- The loop of `check_files`: the entries, `newfile`, whether it was found, the state. -/
def checkLoop (c : Settings) (info : Info) :
    List File → File → State → List File × File × Bool × State
  | [], newfile, s => ([], newfile, false, s)
  | f :: fs, newfile, s =>
      if f.path = none ∨ newfile.dev ≠ f.dev then
        let r := checkLoop c info fs newfile s
        (f :: r.1, r.2)
      else if newfile.ino = f.ino then (f :: fs, newfile, true, s)
      else
        let m := sameContent c.md5 s.tree newfile f
        if m.2.2 then
          let r := onMatch c info m.1 m.2.1 s
          (r.1 :: fs, r.2.1, true, r.2.2)
        else
          let r := checkLoop c info fs m.1 s
          (m.2.1 :: r.1, r.2)

/-- The key under which the hash table finds a size: an `int`. -/
def sizeKey (size : Nat) : Nat := size % 2 ^ 32

def checkFiles (c : Settings) (info : Info) (newfile : File) (s : State) : State :=
  let r := checkLoop c info (s.myfiles (sizeKey info.size)) newfile s
  let files := if r.2.2.1 then r.1 else r.2.1 :: r.1
  { r.2.2.2 with myfiles := Function.update s.myfiles (sizeKey info.size) files }

/-! ## §4. Walking the directories. -/

/-- What `process_dir` does with a path that is not a directory. -/
def processFile (c : Settings) (s : State) (path : Path) : State :=
  match look s.tree path with
  | some (.file i d) =>
      if d = [] then s
      else
        let info := c.lstat s.tree i d
        let newfile : File :=
          { path := some path, dev := info.dev, ino := info.ino, nlink := info.nlink,
            fullCksum := 0, partCksum := 0 }
        if (s.myfiles (sizeKey info.size)).isEmpty then
          { s with myfiles := Function.update s.myfiles (sizeKey info.size) [newfile] }
        else checkFiles c info newfile s
  | _ => s

/-- The names that `readdir` delivers for a directory, each with those it delivers below. -/
inductive Listing where
  | names (entries : List (String × Listing))

/-- `get_link`: what a symbolic link points to, without a slash at its end. -/
def getLink (t : Node) (basedir : Path) (lnk : String) : Bytes :=
  match look t (basedir ++ [lnk]) with
  | some (.symlink target) =>
      let real := (nameBytes target).take 255
      if real.getLast? = some 47 then real.dropLast else real
  | _ => []

/-- The names that `process_dir` passes over. -/
def skipped (burpMode : Bool) (level : Nat) (working finishing : Bytes) (name : String) : Bool :=
  name == "." || name == ".."
    || burpMode
      && (if level = 0 then
            name == "lockfile" || name == "lockfile.bedup" || nameBytes name == working
              || nameBytes name == finishing || name == "deleteme"
          else if level = 1 then
            (nameBytes "log").isPrefixOf (nameBytes name)
              || (nameBytes "verifylog").isPrefixOf (nameBytes name)
              || (nameBytes "restorelog").isPrefixOf (nameBytes name)
          else false)

mutual

def processDir (c : Settings) (burpMode : Bool) (path : Path) (level : Nat) :
    Listing → State → State
  | .names entries, s =>
      if IsDir s.tree path then
        processNames c burpMode path level (getLink s.tree path "working")
          (getLink s.tree path "finishing") entries s
      else s

/-- The loop over the names of a directory. -/
def processNames (c : Settings) (burpMode : Bool) (path : Path) (level : Nat)
    (working finishing : Bytes) : List (String × Listing) → State → State
  | [], s => s
  | (name, below) :: entries, s =>
      if skipped burpMode level working finishing name then
        processNames c burpMode path level working finishing entries s
      else if IsDir s.tree (path ++ [name]) then
        processNames c burpMode path level working finishing entries
          (processDir c burpMode (path ++ [name]) (level + 1) below s)
      else
        processNames c burpMode path level working finishing entries
          (processFile c s (path ++ [name]))

end

/-- The directories of a run: those of the clients, or those of the command line. -/
def processDirs (c : Settings) (burpMode : Bool) (dirs : List (Path × Listing)) (s : State) :
    State :=
  dirs.foldl (fun s d => processDir c burpMode d.1 0 d.2 s) s

/-! ## §5. The comparison decides equality. -/

theorem matchFrom_spec (fuel : Nat) (o n : Bytes) (h : o.length < fuel) :
    matchFrom fuel o n = true ↔ o = n := by
  induction fuel generalizing o n with
  | zero => omega
  | succ fuel ih =>
      have hcut : o = n ↔ o.take fullChunk = n.take fullChunk
          ∧ o.drop fullChunk = n.drop fullChunk := by
        constructor
        · intro heq
          rw [heq]
          exact ⟨rfl, rfl⟩
        · intro heq
          rw [← List.take_append_drop fullChunk o, heq.1, heq.2, List.take_append_drop]
      unfold matchFrom
      by_cases htake : o.take fullChunk = n.take fullChunk
      · rw [if_neg (by rw [htake]; simp), if_neg (by rw [htake]; simp)]
        by_cases hlast : (o.take fullChunk).length < fullChunk
        · -- the last chunk: nothing follows in either file
          have hn : (n.take fullChunk).length < fullChunk := htake ▸ hlast
          rw [List.length_take] at hlast hn
          rw [if_pos (by rw [List.length_take]; exact hlast), hcut]
          rw [List.drop_eq_nil_of_le (by omega), List.drop_eq_nil_of_le (by omega)]
          simp [htake]
        · rw [List.length_take] at hlast
          have hpos : 0 < fullChunk := by simp [fullChunk]
          rw [if_neg (by rw [List.length_take]; exact hlast),
            ih _ _ (by rw [List.length_drop]; omega), hcut]
          simp [htake]
      · rw [hcut]
        split_ifs <;> simp [htake]

/-- **The byte comparison decides equality.** -/
theorem fullMatch_spec {t : Node} {o n : File} {d e : Bytes} (ho : openFile t o = some d)
    (hn : openFile t n = some e) :
    (fullMatch t o n).1 = o ∧ ((fullMatch t o n).2 = true ↔ d = e) := by
  simp only [fullMatch, ho, hn, true_and]
  exact matchFrom_spec _ d e (by omega)

/-- The checksums of a file are those of its content, or not made yet. -/
structure Sums (md5 : Bytes → Nat) (f : File) (d : Bytes) : Prop where
  part : f.partCksum = 0 ∨ f.partCksum = md5 (d.take partChunk)
  full : f.fullCksum = 0 ∨ f.fullCksum = md5 d

/-- The same file but for its checksums. -/
structure Alike (f g : File) : Prop where
  path : g.path = f.path
  dev : g.dev = f.dev
  ino : g.ino = f.ino
  nlink : g.nlink = f.nlink

theorem Alike.refl (f : File) : Alike f f := ⟨rfl, rfl, rfl, rfl⟩

theorem Alike.trans {f g h : File} (h₁ : Alike f g) (h₂ : Alike g h) : Alike f h :=
  ⟨h₂.path.trans h₁.path, h₂.dev.trans h₁.dev, h₂.ino.trans h₁.ino, h₂.nlink.trans h₁.nlink⟩

theorem Alike.openFile {t : Node} {f g : File} (h : Alike f g) :
    Bedup.openFile t g = Bedup.openFile t f := by
  rw [Bedup.openFile, Bedup.openFile, h.path]

section Checksums

variable {md5 : Bytes → Nat} {t : Node} {f : File} {d : Bytes}

theorem part_spec (hopen : openFile t f = some d) (h : Sums md5 f d) :
    ∃ g, (if f.partCksum = 0 then getPartCksum md5 t f else f) = g
      ∧ g.partCksum = md5 (d.take partChunk) ∧ Sums md5 g d ∧ Alike f g := by
  refine ⟨_, rfl, ?_⟩
  by_cases hzero : f.partCksum = 0
  · rw [if_pos hzero]
    simp only [getPartCksum, hopen]
    split
    next hshort =>
      have hall : d.take partChunk = d := List.take_of_length_le (by omega)
      exact ⟨rfl, ⟨Or.inr rfl, Or.inr (by rw [hall])⟩, rfl, rfl, rfl, rfl⟩
    next => exact ⟨rfl, ⟨Or.inr rfl, h.full⟩, rfl, rfl, rfl, rfl⟩
  · rw [if_neg hzero]
    exact ⟨h.part.resolve_left hzero, h, Alike.refl f⟩

theorem full_spec (hopen : openFile t f = some d) (h : Sums md5 f d) :
    ∃ g, (if f.fullCksum = 0 then getFullCksum md5 t f else f) = g
      ∧ g.fullCksum = md5 d ∧ Sums md5 g d ∧ Alike f g := by
  refine ⟨_, rfl, ?_⟩
  by_cases hzero : f.fullCksum = 0
  · rw [if_pos hzero]
    simp only [getFullCksum, hopen, true_and]
    exact ⟨⟨h.part, Or.inr rfl⟩, rfl, rfl, rfl, rfl⟩
  · rw [if_neg hzero]
    exact ⟨h.full.resolve_left hzero, h, Alike.refl f⟩

end Checksums

/-- **The checksums only save work.**  Two files pass the tests just when they hold the same
bytes; nothing but their checksums is changed. -/
theorem sameContent_spec {md5 : Bytes → Nat} {t : Node} {newfile f : File} {d e : Bytes}
    (hnew : openFile t newfile = some d) (hf : openFile t f = some e)
    (hsnew : Sums md5 newfile d) (hsf : Sums md5 f e) :
    ∃ n g b, sameContent md5 t newfile f = (n, g, b)
      ∧ Alike newfile n ∧ Alike f g ∧ Sums md5 n d ∧ Sums md5 g e ∧ (b = true ↔ d = e) := by
  obtain ⟨n₁, hn₁, hpn, hs₁, ha₁⟩ := part_spec hnew hsnew
  obtain ⟨g₁, hg₁, hpg, ht₁, hb₁⟩ := part_spec hf hsf
  obtain ⟨n₂, hn₂, hfn, hs₂, ha₂⟩ := full_spec (ha₁.openFile.trans hnew) hs₁
  obtain ⟨g₂, hg₂, hfg, ht₂, hb₂⟩ := full_spec (hb₁.openFile.trans hf) ht₁
  have ha : Alike newfile n₂ := ha₁.trans ha₂
  have hb : Alike f g₂ := hb₁.trans hb₂
  simp only [sameContent, hn₁, hg₁, hn₂, hg₂]
  by_cases hpart : n₁.partCksum = g₁.partCksum
  · rw [if_neg (not_not.mpr hpart)]
    by_cases hfull : n₂.fullCksum = g₂.fullCksum
    · rw [if_neg (not_not.mpr hfull)]
      obtain ⟨hsame, hmatch⟩ := fullMatch_spec (ha.openFile.trans hnew) (hb.openFile.trans hf)
      exact ⟨_, _, _, rfl, hsame.symm ▸ ha, hb, hsame.symm ▸ hs₂, ht₂, hmatch⟩
    · rw [if_pos hfull]
      refine ⟨_, _, _, rfl, ha, hb, hs₂, ht₂, by simp, fun heq => absurd ?_ hfull⟩
      rw [hfn, hfg, heq]
  · rw [if_pos hpart]
    refine ⟨_, _, _, rfl, ha₁, hb₁, hs₁, ht₁, by simp, fun heq => absurd ?_ hpart⟩
    rw [hpn, hpg, heq]

/-! ## §6. Where the loop stops. -/

/-- An entry after the loop went over it. -/
structure Refreshed (md5 : Bytes → Nat) (t : Node) (f g : File) : Prop where
  alike : Alike f g
  sums : ∀ d, openFile t f = some d → Sums md5 f d → Sums md5 g d

theorem Refreshed.refl (md5 : Bytes → Nat) (t : Node) (f : File) : Refreshed md5 t f f :=
  ⟨Alike.refl f, fun _ _ h => h⟩

theorem forall₂_refreshed_refl (md5 : Bytes → Nat) (t : Node) (fs : List File) :
    List.Forall₂ (Refreshed md5 t) fs fs :=
  List.forall₂_same.mpr fun f _ => Refreshed.refl md5 t f

/-- How the loop of `check_files` ends, for a file `newfile` that holds `d`, over the
entries `gs` with their checksums as the loop leaves them. -/
inductive Looked (c : Settings) (info : Info) (newfile : File) (d : Bytes) (s : State)
    (gs : List File) (n : File) : List File × File × Bool × State → Prop
  /-- No entry of the device is a link of the file or holds its bytes. -/
  | passed (h : ∀ f ∈ gs, f.path ≠ none → f.dev = newfile.dev →
      f.ino ≠ newfile.ino ∧ openFile s.tree f ≠ some d) :
      Looked c info newfile d s gs n (gs, n, false, s)
  /-- An entry has the device and inode number of the file. -/
  | linked (f : File) (hmem : f ∈ gs) (hpath : f.path ≠ none) (hdev : f.dev = newfile.dev)
      (hino : f.ino = newfile.ino) : Looked c info newfile d s gs n (gs, n, true, s)
  /-- An entry of the device with another inode number holds the same bytes. -/
  | equal (pre : List File) (f : File) (post : List File) (hgs : gs = pre ++ f :: post)
      (hpath : f.path ≠ none) (hdev : f.dev = newfile.dev) (hino : f.ino ≠ newfile.ino)
      (hopen : openFile s.tree f = some d) :
      Looked c info newfile d s gs n
        (pre ++ (onMatch c info n f s).1 :: post, (onMatch c info n f s).2.1, true,
          (onMatch c info n f s).2.2)

/-- One more entry in front, which the loop goes over. -/
theorem Looked.cons {c : Settings} {info : Info} {newfile n m g : File} {d : Bytes} {s : State}
    {gs : List File} {r : List File × File × Bool × State} (halike : Alike newfile n)
    (hg : g.path ≠ none → g.dev = newfile.dev →
      g.ino ≠ newfile.ino ∧ openFile s.tree g ≠ some d)
    (h : Looked c info n d s gs m r) :
    Looked c info newfile d s (g :: gs) m (g :: r.1, r.2) := by
  cases h with
  | passed hpass =>
      refine .passed fun f hf hpath hdev => ?_
      rcases List.mem_cons.mp hf with rfl | hf
      · exact hg hpath hdev
      · rw [← halike.ino]
        exact hpass f hf hpath (hdev.trans halike.dev.symm)
  | linked f hmem hpath hdev hino =>
      exact .linked f (List.mem_cons_of_mem g hmem) hpath (hdev.trans halike.dev)
        (hino.trans halike.ino)
  | equal pre f post hgs hpath hdev hino hopen =>
      exact .equal (g :: pre) f post (by rw [hgs]; rfl) hpath (hdev.trans halike.dev)
        (halike.ino ▸ hino) hopen

/-- **Where the loop stops.** -/
theorem checkLoop_spec (c : Settings) (info : Info) (s : State) (d : Bytes) (fs : List File)
    (newfile : File) (hopen : openFile s.tree newfile = some d) (hsums : Sums c.md5 newfile d)
    (hfs : ∀ f ∈ fs, ∃ e, openFile s.tree f = some e ∧ Sums c.md5 f e) :
    ∃ gs n, List.Forall₂ (Refreshed c.md5 s.tree) fs gs ∧ Alike newfile n ∧ Sums c.md5 n d
      ∧ Looked c info newfile d s gs n (checkLoop c info fs newfile s) := by
  induction fs generalizing newfile with
  | nil => exact ⟨[], newfile, .nil, Alike.refl _, hsums, .passed (by simp)⟩
  | cons f fs ih =>
      obtain ⟨e, hfopen, hfsums⟩ := hfs f List.mem_cons_self
      have hrest : ∀ g ∈ fs, ∃ e, openFile s.tree g = some e ∧ Sums c.md5 g e :=
        fun g hg => hfs g (List.mem_cons_of_mem f hg)
      have hall := forall₂_refreshed_refl c.md5 s.tree (f :: fs)
      unfold checkLoop
      split_ifs with hskip hino
      · -- another device
        obtain ⟨gs, n, hgs, halike, hn, hlook⟩ := ih newfile hopen hsums hrest
        refine ⟨f :: gs, n, .cons (Refreshed.refl _ _ f) hgs, halike, hn, ?_⟩
        refine Looked.cons (Alike.refl _) (fun hpath hdev => ?_) hlook
        exact absurd (hskip.resolve_left hpath) (not_not.mpr hdev.symm)
      · rw [not_or, not_not] at hskip
        exact ⟨f :: fs, newfile, hall, Alike.refl _, hsums,
          .linked f List.mem_cons_self hskip.1 hskip.2.symm hino.symm⟩
      · rw [not_or, not_not] at hskip
        obtain ⟨n, g, b, hsame, hn, hg, hsn, hsg, hb⟩ :=
          sameContent_spec hopen hfopen hsums hfsums
        have hfg : Refreshed c.md5 s.tree f g := by
          refine ⟨hg, fun e' he' _ => ?_⟩
          rw [hfopen, Option.some.injEq] at he'
          exact he' ▸ hsg
        simp only [hsame]
        split_ifs with hmatch
        · -- the bytes are equal
          refine ⟨g :: fs, n, .cons hfg (forall₂_refreshed_refl _ _ fs), hn, hsn, ?_⟩
          refine .equal [] g fs rfl (hg.path ▸ hskip.1) (hg.dev.trans hskip.2.symm) ?_ ?_
          · rw [hg.ino]
            exact Ne.symm hino
          · rw [hg.openFile, hfopen, hb.mp hmatch]
        · obtain ⟨gs, m, hgs, halike, hm, hlook⟩ :=
            ih n (hn.openFile.trans hopen) hsn hrest
          refine ⟨g :: gs, m, .cons hfg hgs, hn.trans halike, hm, ?_⟩
          refine Looked.cons hn (fun hpath hdev => ⟨?_, fun heq => ?_⟩) hlook
          · rw [hg.ino]
            exact Ne.symm hino
          · rw [hg.openFile, hfopen, Option.some.injEq] at heq
            exact hmatch (hb.mpr heq.symm)

end Burp.Bedup
