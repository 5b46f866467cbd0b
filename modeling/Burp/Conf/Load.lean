/-
  Burp.Conf.Load — reading a configuration (conf.c).

  The loader takes the lines of a file, and those of the files that it names, one by one.  It
  collects the values of the options that say what is backed up in lists, and when all lines
  are read it sorts the lists, fills in their flags and decides where to start.  Options that
  have nothing to do with this are passed over here.

  Main results:
    * `configGetPair_isValue` — a value has no line end in it.
    * `loadConfig_loaded` — what a configuration is that the loader accepts.
    * `finaliseList_reread` — lists that are read again in their order come out the same.
-/
import Burp.Conf.Pairs
import Burp.Phase1.Lists
import Burp.Phase2.Dpth
import Burp.Phase2.Paths
import Burp.Status.Counters

namespace Burp.Conf

open FileSystem Burp.Store
open Burp.Backups.OnDisk (isSpace isDigit)
open Burp.Phase1 (startLoop)
open Burp.Phase2 (nameBytes prependS dropBlanks afterPrefix afterSign isHex hexValue)

/-! ## §1. Options. -/

/-- The lists of `struct config` that say what is backed up. -/
inductive ListOpt where
  | incexcdir
  | fschgdir
  | nobackup
  | incext
  | excext
  | increg
  | excreg
  | excfs
  | excom
  | fifos
  | blockdevs
  deriving DecidableEq

inductive IntOpt where
  | crossAllFilesystems
  | splitVss
  | stripVss
  | readAllFifos
  | readAllBlockdevs
  deriving DecidableEq

inductive SizeOpt where
  | minFileSize
  | maxFileSize
  deriving DecidableEq

/-- `struct strlist`. -/
structure Strlist where
  path : Bytes
  flag : Int
  deriving DecidableEq

/-- `struct config`, as far as it says what is backed up. -/
@[ext]
structure Config where
  lists : ListOpt → List Strlist
  ints : IntOpt → Int
  sizes : SizeOpt → Nat
  startdir : List Bytes

/-- `init_config`. -/
def initConfig : Config :=
  { lists := fun _ => [], ints := fun _ => 0, sizes := fun _ => 0, startdir := [] }

/-- `struct llists`: the lists while they are read. -/
abbrev Llists := ListOpt → List Strlist

abbrev Loading := Config × Llists

def intOptions : List (Bytes × IntOpt) :=
  [(nameBytes "cross_all_filesystems", .crossAllFilesystems),
    (nameBytes "read_all_fifos", .readAllFifos),
    (nameBytes "read_all_blockdevs", .readAllBlockdevs),
    (nameBytes "split_vss", .splitVss),
    (nameBytes "strip_vss", .stripVss)]

def sizeOptions : List (Bytes × SizeOpt) :=
  [(nameBytes "min_file_size", .minFileSize), (nameBytes "max_file_size", .maxFileSize)]

/-- The list of an option, and the flag of its entries. -/
def listOptions : List (Bytes × ListOpt × Int) :=
  [(nameBytes "include", .incexcdir, 1),
    (nameBytes "exclude", .incexcdir, 0),
    (nameBytes "cross_filesystem", .fschgdir, 0),
    (nameBytes "nobackup", .nobackup, 0),
    (nameBytes "read_fifo", .fifos, 0),
    (nameBytes "read_blockdev", .blockdevs, 0),
    (nameBytes "include_ext", .incext, 0),
    (nameBytes "exclude_ext", .excext, 0),
    (nameBytes "include_regex", .increg, 0),
    (nameBytes "exclude_regex", .excreg, 0),
    (nameBytes "exclude_fs", .excfs, 0),
    (nameBytes "exclude_comp", .excom, 0)]

/-- A number as an `int` or a `long` of `w` bits holds it. -/
def wrap (w : Nat) (n : Int) : Int :=
  if n % 2 ^ w < 2 ^ (w - 1) then n % 2 ^ w else n % 2 ^ w - 2 ^ w

/-- `atoi`. -/
def atoi (value : Bytes) : Int := wrap 32 (Status.atol value)

/-- `get_file_size`. -/
def getFileSize (value : Bytes) : Option Nat :=
  let dest := Backups.OnDisk.strtoul value
  match value.dropWhile fun c => isSpace c || isDigit c with
  | [] => some dest
  | c :: _ =>
      if c = 107 ∨ c = 75 then some (dest * 1024 % 2 ^ 64)
      else if c = 109 ∨ c = 77 then some (dest * (1024 * 1024) % 2 ^ 64)
      else if c = 103 ∨ c = 71 then some (dest * (1024 * 1024 * 1024) % 2 ^ 64)
      else if c = 98 then some dest
      else none

/-- `load_config_field_and_value`. -/
def loadFieldAndValue (field value : Bytes) (s : Loading) : Option Loading :=
  match sizeOptions.lookup field with
  | some o =>
      (getFileSize value).map fun n => ({ s.1 with sizes := Function.update s.1.sizes o n }, s.2)
  | none =>
      match intOptions.lookup field with
      | some o => some ({ s.1 with ints := Function.update s.1.ints o (atoi value) }, s.2)
      | none =>
          match listOptions.lookup field with
          | some (o, flag) => some (s.1, Function.update s.2 o (s.2 o ++ [⟨value, flag⟩]))
          | none => some s

/-! ## §2. Lines. -/

/-- The file that a line names; a relative path is one below the directory of the file. -/
def extraFile (configPath name : Bytes) : Bytes :=
  if name.head? = some 47 then name
  else
    prependS (if 47 ∈ configPath then (configPath.rdropWhile (· ≠ 47)).dropLast else configPath)
      name

/-- `parse_config_line`; `load` reads another file. -/
def parseConfigLine (load : Bytes → Loading → Option Loading) (configPath : Bytes) (s : Loading)
    (buf : Bytes) : Option Loading :=
  if [46, 32] <+: buf then
    let extrafile := (buf.drop 2).takeWhile (· ≠ 10)
    if extrafile = [] then none else load (extraFile configPath extrafile) s
  else
    match configGetPair buf with
    | none => none
    | some none => some s
    | some (some (field, value)) => loadFieldAndValue field value s

/-- The pieces in which `fgets` reads a file into a buffer of 4096 bytes. -/
def fgetsPieces : Nat → Bytes → List Bytes
  | 0, _ => []
  | fuel + 1, b =>
      if b = [] then []
      else
        let line := b.takeWhile (· ≠ 10)
        let piece := (if line.length < b.length then line ++ [10] else line).take 4095
        piece :: fgetsPieces fuel (b.drop piece.length)

/-- `load_config_lines`, with `fuel` files open at most. -/
def loadConfigLines (files : Bytes → Option Bytes) : Nat → Bytes → Loading → Option Loading
  | 0, _, _ => none
  | fuel + 1, configPath, s =>
      match files configPath with
      | none => none
      | some b =>
          ((fgetsPieces b.length b).map cString).foldlM
            (parseConfigLine (loadConfigLines files fuel) configPath) s

/-! ## §3. What is made of the lists. -/

def fstypes : List (Bytes × Int) :=
  [(nameBytes "debugfs", 0x64626720), (nameBytes "devfs", 0x00001373),
    (nameBytes "devpts", 0x00001CD1), (nameBytes "devtmpfs", 0x00009FA0),
    (nameBytes "ext2", 0x0000EF53), (nameBytes "ext3", 0x0000EF53),
    (nameBytes "ext4", 0x0000EF53), (nameBytes "iso9660", 0x00009660),
    (nameBytes "jfs", 0x3153464A), (nameBytes "nfs", 0x00006969),
    (nameBytes "ntfs", 0x5346544E), (nameBytes "proc", 0x00009fa0),
    (nameBytes "reiserfs", 0x52654973), (nameBytes "securityfs", 0x73636673),
    (nameBytes "sysfs", 0x62656572), (nameBytes "smbfs", 0x0000517B),
    (nameBytes "usbdevfs", 0x00009fa2), (nameBytes "xfs", 0x58465342),
    (nameBytes "ramfs", 0x858458f6), (nameBytes "romfs", 0x00007275),
    (nameBytes "tmpfs", 0x01021994)]

/-- `strtol(.., 16)`, which stays within a long. -/
def strtol16 (b : Bytes) : Int :=
  let b := dropBlanks b
  let v := hexValue ((afterPrefix (afterSign b)).takeWhile isHex)
  if b.head? = some 45 then -(min v (2 ^ 63) : Nat) else (min v (2 ^ 63 - 1) : Nat)

/-- The flag of an excluded file system. -/
def fsFlag (path : Bytes) : Int :=
  if path.take 2 = [48, 120] ∨ path.take 2 = [48, 88] then strtol16 (path.drop 2)
  else (fstypes.lookup path).getD 0

/-- `set_max_ext`. -/
def setMaxExt : List Strlist → List Strlist
  | [] => []
  | s :: list =>
      { s with flag := ((s :: list).map (·.path.length)).foldr max 0 + 1 } :: list

/-- `do_strlist_sort`. -/
def doStrlistSort (list : List Strlist) : List Strlist :=
  list.insertionSort fun a b => pathcmp (some a.path) (some b.path) ≤ 0

/-- What `finalise_config` makes of one list. -/
def finaliseList : ListOpt → List Strlist → List Strlist
  | .increg, l => l
  | .excreg, l => l
  | .excfs, l => doStrlistSort (l.map fun s => { s with flag := fsFlag s.path })
  | .incext, l => setMaxExt (doStrlistSort l)
  | .excext, l => setMaxExt (doStrlistSort l)
  | .excom, l => setMaxExt (doStrlistSort l)
  | _, l => doStrlistSort l

/-- `finalise_config`, without the options that are passed over. -/
def finaliseConfig (s : Loading) : Option Config :=
  -- a list of regular expressions is only put in place if it has any
  let lists := fun o =>
    if (o = .increg ∨ o = .excreg) ∧ s.2 o = [] then s.1.lists o else finaliseList o (s.2 o)
  (startLoop none [] ((lists .incexcdir).map fun e => (e.path, e.flag ≠ 0))).map fun starts =>
    { s.1 with lists := lists, startdir := starts }

/-- `load_config` into a new configuration. -/
def loadConfig (files : Bytes → Option Bytes) (fuel : Nat) (configPath : Bytes) : Option Config :=
  (loadConfigLines files fuel configPath (initConfig, fun _ => [])).bind finaliseConfig

/-! ## §4. Values have no line end. -/

/-- A line end is the last character, if there is one. -/
def OneLine (b : Bytes) : Prop := ∀ x y, b = x ++ 10 :: y → y = []

theorem OneLine.part {b q : Bytes} (h : OneLine b) (hq : q <:+: b) : OneLine q := by
  intro x y hxy
  obtain ⟨s, t, hst⟩ := hq
  have := h (s ++ x) (y ++ t) (by rw [← hst, hxy]; simp)
  exact (List.append_eq_nil_iff.mp this).1

theorem oneLine_concat {w : Bytes} (hw : 10 ∉ w) : OneLine (w ++ [10]) := by
  intro x y hxy
  rcases List.eq_nil_or_concat y with hy | ⟨y', z, hy⟩
  · exact hy
  · have hsplit : w ++ [10] = (x ++ 10 :: y') ++ [z] := by
      rw [hxy, hy, List.concat_eq_append]
      simp
    have hwx := (List.append_inj' hsplit rfl).1
    exact absurd (by rw [hwx]; simp) hw

theorem oneLine_of_notMem {w : Bytes} (hw : 10 ∉ w) : OneLine w :=
  (oneLine_concat hw).part ⟨[], [10], rfl⟩

theorem oneLine_of_mem_fgetsPieces {p : Bytes} (fuel : Nat) (b : Bytes)
    (h : p ∈ fgetsPieces fuel b) : OneLine p := by
  induction fuel generalizing b with
  | zero => simp [fgetsPieces] at h
  | succ fuel ih =>
      rw [fgetsPieces] at h
      split_ifs at h with hnil
      · simp at h
      · rcases List.mem_cons.mp h with h | h
        · have hline : (10 : UInt8) ∉ b.takeWhile (· ≠ 10) := fun hmem => by
            simpa using List.mem_takeWhile_imp hmem
          rw [h]
          refine OneLine.part ?_ (List.take_prefix 4095 _).isInfix
          split_ifs
          · exact oneLine_concat hline
          · exact oneLine_of_notMem hline
        · exact ih _ h

/-- A value that the loader can have: a text in one line. -/
structure IsValue (v : Bytes) : Prop where
  ne_nil : v ≠ []
  zero_notMem : 0 ∉ v
  newline_notMem : 10 ∉ v

/-- **A value has no line end in it.** -/
theorem configGetPair_isValue {buf field v : Bytes} (hzero : 0 ∉ buf) (hline : OneLine buf)
    (h : configGetPair buf = some (some (field, v))) : IsValue v := by
  unfold configGetPair at h
  simp only at h
  split_ifs at h with h₁ h₂ h₃
  · simp at h
  rw [Option.some.injEq, Option.some.injEq, Prod.mk.injEq] at h
  rw [not_or] at h₃
  obtain ⟨-, rfl⟩ := h
  generalize hx : ((buf.dropWhile isSpace).dropWhile (· ≠ 61)).tail = x at h₃
  have hxbuf : x <:+: buf := by
    rw [← hx]
    exact (List.tail_suffix _).isInfix.trans
      ((List.dropWhile_suffix _).isInfix.trans (List.dropWhile_suffix _).isInfix)
  refine ⟨h₃.2, fun hmem => hzero (hxbuf.mem (value_part x |>.mem hmem)), fun hmem => ?_⟩
  -- the line end would be the last character before the quotes are taken away: a blank
  have hr : 10 ∈ (x.dropWhile isSpace).rdropWhile isSpace := (unquote_part _).mem hmem
  have hrx : (x.dropWhile isSpace).rdropWhile isSpace <:+: buf :=
    ((List.rdropWhile_prefix _ _).isInfix.trans (List.dropWhile_suffix _).isInfix).trans hxbuf
  obtain ⟨y, z, hyz⟩ := List.append_of_mem hr
  have hz := hline.part hrx y z hyz
  have hne : (x.dropWhile isSpace).rdropWhile isSpace ≠ [] := List.ne_nil_of_mem hr
  have hlast := List.rdropWhile_last_not isSpace (x.dropWhile isSpace) hne
  have hten : ((x.dropWhile isSpace).rdropWhile isSpace).getLast hne = 10 := by
    simp only [hyz, hz, List.getLast_append_singleton]
  rw [hten] at hlast
  exact hlast (by decide)

/-! ## §5. What a configuration is that the loader accepts. -/

/-- The lists before they are finished. -/
structure RawOk (l : Llists) : Prop where
  values : ∀ o, ∀ e ∈ l o, IsValue e.path
  incexc : ∀ e ∈ l .incexcdir, e.flag = 1 ∨ e.flag = 0
  others : ∀ o, o ≠ .incexcdir → ∀ e ∈ l o, e.flag = 0

/-- Numbers as the types of the source hold them. -/
structure InRange (c : Config) : Prop where
  ints : ∀ o, -2 ^ 31 ≤ c.ints o ∧ c.ints o < 2 ^ 31
  sizes : ∀ o, c.sizes o < 2 ^ 64

/-- A configuration that the loader accepts. -/
structure Loaded (c : Config) : Prop where
  range : InRange c
  lists : ∃ l, RawOk l ∧ ∀ o, c.lists o = finaliseList o (l o)
  starts : startLoop none [] ((c.lists .incexcdir).map fun e => (e.path, e.flag ≠ 0))
    = some c.startdir

structure LoadingOk (s : Loading) : Prop where
  range : InRange s.1
  empty : ∀ o, s.1.lists o = []
  raw : RawOk s.2

theorem wrap_range (n : Int) : -2 ^ 31 ≤ wrap 32 n ∧ wrap 32 n < 2 ^ 31 := by
  unfold wrap
  split_ifs <;> omega

theorem getFileSize_lt {v : Bytes} {n : Nat} (h : getFileSize v = some n) : n < 2 ^ 64 := by
  have hlt : Backups.OnDisk.strtoul v < 2 ^ 64 := by
    unfold Backups.OnDisk.strtoul
    simp only
    split_ifs <;> omega
  unfold getFileSize at h
  simp only at h
  split at h
  · rw [Option.some.injEq] at h
    omega
  · split_ifs at h
    all_goals
      rw [Option.some.injEq] at h
      omega

/-- The flags in the table: of includes, and of all others. -/
theorem listOptions_flag : ∀ e ∈ listOptions,
    (e.2.1 = .incexcdir → e.2.2 = 1 ∨ e.2.2 = 0) ∧ (e.2.1 ≠ .incexcdir → e.2.2 = 0) := by
  decide

theorem mem_of_lookup {β : Type} {table : List (Bytes × β)} {field : Bytes} {b : β}
    (h : table.lookup field = some b) : (field, b) ∈ table := by
  obtain ⟨pre, post, rfl, -⟩ := List.lookup_eq_some_iff.mp h
  simp

/-- One more entry. -/
theorem RawOk.add {l : Llists} (h : RawOk l) {o : ListOpt} {e : Strlist} (hv : IsValue e.path)
    (hflag : (o = .incexcdir → e.flag = 1 ∨ e.flag = 0) ∧ (o ≠ .incexcdir → e.flag = 0)) :
    RawOk (Function.update l o (l o ++ [e])) := by
  have hmem : ∀ o' e', e' ∈ Function.update l o (l o ++ [e]) o' → e' ∈ l o' ∨ o' = o ∧ e' = e := by
    intro o' e' he'
    by_cases heq : o' = o
    · subst heq
      rw [Function.update_self, List.mem_append, List.mem_singleton] at he'
      exact he'.imp_right fun he' => ⟨rfl, he'⟩
    · rw [Function.update_of_ne heq] at he'
      exact Or.inl he'
  constructor
  · intro o' e' he'
    rcases hmem o' e' he' with he' | ⟨-, rfl⟩
    · exact h.values o' e' he'
    · exact hv
  · intro e' he'
    rcases hmem _ e' he' with he' | ⟨ho, rfl⟩
    · exact h.incexc e' he'
    · exact hflag.1 ho.symm
  · intro o' ho' e' he'
    rcases hmem o' e' he' with he' | ⟨rfl, rfl⟩
    · exact h.others o' ho' e' he'
    · exact hflag.2 ho'

theorem loadFieldAndValue_ok {field v : Bytes} {s s' : Loading} (hs : LoadingOk s)
    (hv : IsValue v) (h : loadFieldAndValue field v s = some s') : LoadingOk s' := by
  unfold loadFieldAndValue at h
  split at h
  next o ho =>
    obtain ⟨n, hn, rfl⟩ := Option.map_eq_some_iff.mp h
    have hsizes : ∀ o', Function.update s.1.sizes o n o' < 2 ^ 64 :=
      (Function.forall_update_iff s.1.sizes fun _ m => m < 2 ^ 64).mpr
        ⟨getFileSize_lt hn, fun o' _ => hs.range.sizes o'⟩
    exact ⟨⟨hs.range.ints, hsizes⟩, hs.empty, hs.raw⟩
  next ho =>
    split at h
    next o ho =>
      obtain rfl := Option.some.inj h
      have hints : ∀ o', -2 ^ 31 ≤ Function.update s.1.ints o (atoi v) o'
          ∧ Function.update s.1.ints o (atoi v) o' < 2 ^ 31 :=
        (Function.forall_update_iff s.1.ints fun _ z => -2 ^ 31 ≤ z ∧ z < 2 ^ 31).mpr
          ⟨wrap_range _, fun o' _ => hs.range.ints o'⟩
      exact ⟨⟨hints, hs.range.sizes⟩, hs.empty, hs.raw⟩
    next ho =>
      split at h
      next o flag ho =>
        obtain rfl := Option.some.inj h
        exact ⟨hs.range, hs.empty, hs.raw.add hv (listOptions_flag _ (mem_of_lookup ho))⟩
      next ho =>
        obtain rfl := Option.some.inj h
        exact hs

theorem parseConfigLine_ok {load : Bytes → Loading → Option Loading} {configPath buf : Bytes}
    {s s' : Loading} (hload : ∀ p s s', LoadingOk s → load p s = some s' → LoadingOk s')
    (hs : LoadingOk s) (hzero : 0 ∉ buf) (hline : OneLine buf)
    (h : parseConfigLine load configPath s buf = some s') : LoadingOk s' := by
  unfold parseConfigLine at h
  split_ifs at h with hdot
  · simp only at h
    split_ifs at h with hempty
    exact hload _ s s' hs h
  · split at h
    next => simp at h
    next =>
      rw [Option.some.injEq] at h
      exact h ▸ hs
    next field v hpair =>
      exact loadFieldAndValue_ok hs (configGetPair_isValue hzero hline hpair) h

/-- An invariant of every line is one of all lines. -/
theorem foldlM_ok {α σ : Type} {I : σ → Prop} {f : σ → α → Option σ} {as : List α}
    (hstep : ∀ a ∈ as, ∀ s s', I s → f s a = some s' → I s') {s s' : σ} (hs : I s)
    (h : as.foldlM f s = some s') : I s' := by
  induction as generalizing s with
  | nil =>
      rw [List.foldlM_nil] at h
      exact Option.some.inj h ▸ hs
  | cons a as ih =>
      rw [List.foldlM_cons] at h
      obtain ⟨t, ht, h⟩ := Option.bind_eq_some_iff.mp h
      exact ih (fun b hb => hstep b (List.mem_cons_of_mem _ hb))
        (hstep a List.mem_cons_self s t hs ht) h

theorem loadConfigLines_ok (files : Bytes → Option Bytes) (fuel : Nat) (configPath : Bytes)
    (s s' : Loading) (hs : LoadingOk s) (h : loadConfigLines files fuel configPath s = some s') :
    LoadingOk s' := by
  induction fuel generalizing configPath s s' with
  | zero => simp [loadConfigLines] at h
  | succ fuel ih =>
      rw [loadConfigLines] at h
      split at h
      next => simp at h
      next b hb =>
        refine foldlM_ok (fun buf hbuf t t' ht hstep => ?_) hs h
        obtain ⟨piece, hpiece, rfl⟩ := List.mem_map.mp hbuf
        refine parseConfigLine_ok (fun p => ih p) ht ?_ ?_ hstep
        · intro hmem
          simpa using List.mem_takeWhile_imp hmem
        · exact (oneLine_of_mem_fgetsPieces _ _ hpiece).part (List.takeWhile_prefix _).isInfix

theorem finaliseConfig_eq {s : Loading} (hempty : ∀ o, s.1.lists o = []) :
    finaliseConfig s
      = (startLoop none []
          ((finaliseList .incexcdir (s.2 .incexcdir)).map fun e => (e.path, e.flag ≠ 0))).map
        fun starts =>
          { s.1 with lists := fun o => finaliseList o (s.2 o), startdir := starts } := by
  have hlists : (fun o =>
      if (o = .increg ∨ o = .excreg) ∧ s.2 o = [] then s.1.lists o else finaliseList o (s.2 o))
        = fun o => finaliseList o (s.2 o) := by
    funext o
    split_ifs with hreg
    · rw [hempty, hreg.2]
      rcases hreg.1 with rfl | rfl <;> rfl
    · rfl
  unfold finaliseConfig
  rw [hlists]

theorem finaliseConfig_lists {s : Loading} {c : Config} (hempty : ∀ o, s.1.lists o = [])
    (h : finaliseConfig s = some c) :
    (∀ o, c.lists o = finaliseList o (s.2 o)) ∧ c.ints = s.1.ints ∧ c.sizes = s.1.sizes
      ∧ startLoop none [] ((c.lists .incexcdir).map fun e => (e.path, e.flag ≠ 0))
        = some c.startdir := by
  rw [finaliseConfig_eq hempty] at h
  obtain ⟨starts, hstarts, rfl⟩ := Option.map_eq_some_iff.mp h
  exact ⟨fun _ => rfl, rfl, rfl, hstarts⟩

/-- **A configuration that the loader accepts.** -/
theorem loadConfig_loaded {files : Bytes → Option Bytes} {fuel : Nat} {configPath : Bytes}
    {c : Config} (h : loadConfig files fuel configPath = some c) : Loaded c := by
  obtain ⟨s, hs, hfinal⟩ := Option.bind_eq_some_iff.mp h
  have hinit : LoadingOk (initConfig, fun _ => []) :=
    ⟨⟨fun _ => by simp [initConfig], fun _ => by simp [initConfig]⟩, fun _ => rfl,
      by simp, by simp, by simp⟩
  have hok := loadConfigLines_ok files fuel configPath _ s hinit hs
  obtain ⟨hlists, hints, hsizes, hstarts⟩ := finaliseConfig_lists hok.empty hfinal
  exact ⟨⟨fun o => hints ▸ hok.range.ints o, fun o => hsizes ▸ hok.range.sizes o⟩,
    ⟨s.2, hok.raw, hlists⟩, hstarts⟩

/-- A configuration without any lines. -/
theorem loaded_initConfig : Loaded initConfig := by
  refine ⟨⟨fun _ => ?_, fun _ => ?_⟩, ⟨fun _ => [], ?_, fun o => by cases o <;> rfl⟩, rfl⟩
  · show -2 ^ 31 ≤ (0 : Int) ∧ (0 : Int) < 2 ^ 31
    decide
  · show 0 < 2 ^ 64
    decide
  · exact ⟨fun _ _ h => absurd h nofun, fun _ h => absurd h nofun, fun _ _ _ h => absurd h nofun⟩

/-! ## §6. Lists that are read again. -/

/-- An entry with the flag that it is read with. -/
def reread (o : ListOpt) (e : Strlist) : Strlist :=
  { e with flag := if o = .incexcdir ∧ e.flag ≠ 0 then 1 else 0 }

theorem doStrlistSort_map {f : Strlist → Strlist} (hf : ∀ e, (f e).path = e.path)
    (list : List Strlist) : doStrlistSort (list.map f) = (doStrlistSort list).map f := by
  symm
  apply List.map_insertionSort
  intro a _ b _
  rw [hf a, hf b]

theorem doStrlistSort_sorted (list : List Strlist) :
    (doStrlistSort list).Pairwise fun a b => pathcmp (some a.path) (some b.path) ≤ 0 := by
  have : Std.Total fun a b : Strlist => pathcmp (some a.path) (some b.path) ≤ 0 :=
    ⟨fun a b => Phase1.pathcmp_total a.path b.path⟩
  have : IsTrans Strlist fun a b => pathcmp (some a.path) (some b.path) ≤ 0 :=
    ⟨fun _ _ _ => pathcmp_trans⟩
  exact List.pairwise_insertionSort _ _

theorem doStrlistSort_idem (list : List Strlist) :
    doStrlistSort (doStrlistSort list) = doStrlistSort list :=
  (doStrlistSort_sorted list).insertionSort_eq

theorem paths_setMaxExt (list : List Strlist) :
    (setMaxExt list).map (·.path) = list.map (·.path) := by
  cases list <;> rfl

theorem paths_doStrlistSort (list : List Strlist) :
    ((doStrlistSort list).map (·.path)).Perm (list.map (·.path)) :=
  (List.perm_insertionSort _ list).map _

/-- The lists hold the values that were read. -/
theorem paths_finaliseList (o : ListOpt) (list : List Strlist) :
    ((finaliseList o list).map (·.path)).Perm (list.map (·.path)) := by
  have hflags : ((doStrlistSort (list.map fun s => { s with flag := fsFlag s.path })).map
      (·.path)).Perm (list.map (·.path)) := by
    have := paths_doStrlistSort (list.map fun s => { s with flag := fsFlag s.path })
    rwa [List.map_map] at this
  cases o <;> simp only [finaliseList, paths_setMaxExt]
  case increg => exact List.Perm.refl _
  case excreg => exact List.Perm.refl _
  case excfs => exact hflags
  all_goals exact paths_doStrlistSort list

/-- The values of a configuration that the loader accepts. -/
theorem Loaded.isValue {c : Config} (h : Loaded c) {o : ListOpt} {e : Strlist}
    (he : e ∈ c.lists o) : IsValue e.path := by
  obtain ⟨l, hraw, hl⟩ := h.lists
  have hmem : e.path ∈ (l o).map (·.path) := by
    rw [hl o] at he
    exact (paths_finaliseList o (l o)).mem_iff.mp (List.mem_map_of_mem he)
  obtain ⟨e', he', hpath⟩ := List.mem_map.mp hmem
  exact hpath ▸ hraw.values o e' he'

/-- What a list is read as that was finished before. -/
theorem reread_eq_self {o : ListOpt} {l : Llists} (h : RawOk l) {e : Strlist} (he : e ∈ l o) :
    reread o e = e := by
  have hflag : (if o = .incexcdir ∧ e.flag ≠ 0 then 1 else 0) = e.flag := by
    by_cases ho : o = .incexcdir
    · subst ho
      rcases h.incexc e he with hone | hzero
      · rw [if_pos ⟨rfl, by omega⟩, hone]
      · rw [if_neg (fun h => h.2 hzero), hzero]
    · rw [if_neg (fun h => ho h.1), h.others o ho e he]
  rw [reread, hflag]

theorem map_reread {o : ListOpt} {l : Llists} (h : RawOk l) : (l o).map (reread o) = l o := by
  have hself : ∀ e ∈ l o, reread o e = id e := fun e he => reread_eq_self h he
  rw [List.map_congr_left hself, List.map_id]

theorem map_reread_sort {o : ListOpt} {l : Llists} (h : RawOk l) :
    (doStrlistSort (l o)).map (reread o) = doStrlistSort (l o) := by
  have hpath : ∀ e, (reread o e).path = e.path := fun _ => rfl
  rw [← doStrlistSort_map hpath, map_reread h]

theorem setMaxExt_reread {o : ListOpt} (ho : o ≠ .incexcdir) (list : List Strlist) :
    (setMaxExt list).map (reread o) = list.map (reread o) := by
  have hflag : ∀ (e : Strlist) (n : Int), reread o { e with flag := n } = reread o e := by
    intro e n
    simp only [reread, ho, false_and, if_false]
  cases list with
  | nil => rfl
  | cons e list => rw [setMaxExt, List.map_cons, hflag, List.map_cons]

/-- The numbers of the file systems are looked up anew. -/
theorem sort_fsFlag_reread (list : List Strlist) :
    let fs := fun e : Strlist => { e with flag := fsFlag e.path }
    doStrlistSort (((doStrlistSort (list.map fs)).map (reread .excfs)).map fs)
      = doStrlistSort (list.map fs) := by
  intro fs
  have hself : ∀ e ∈ doStrlistSort (list.map fs), (fs ∘ reread .excfs) e = id e := by
    intro e he
    obtain ⟨s, -, rfl⟩ := List.mem_map.mp ((List.mem_insertionSort _).mp he)
    rfl
  rw [List.map_map, List.map_congr_left hself, List.map_id, doStrlistSort_idem]

/-- **Lists that are read again** in their order are finished to the same lists. -/
theorem finaliseList_reread {l : Llists} (h : RawOk l) (o : ListOpt) :
    finaliseList o ((finaliseList o (l o)).map (reread o)) = finaliseList o (l o) := by
  have hsort : doStrlistSort ((doStrlistSort (l o)).map (reread o)) = doStrlistSort (l o) := by
    rw [map_reread_sort h, doStrlistSort_idem]
  -- the number of characters to look at is not read, but counted anew
  have hext : o ≠ .incexcdir →
      setMaxExt (doStrlistSort ((setMaxExt (doStrlistSort (l o))).map (reread o)))
        = setMaxExt (doStrlistSort (l o)) := by
    intro ho
    rw [setMaxExt_reread ho, hsort]
  cases o
  case increg => exact map_reread h
  case excreg => exact map_reread h
  case excfs => exact sort_fsFlag_reread _
  case incext => exact hext (by decide)
  case excext => exact hext (by decide)
  case excom => exact hext (by decide)
  all_goals exact hsort

end Burp.Conf
