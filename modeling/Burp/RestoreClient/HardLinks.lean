/-
  Burp.RestoreClient.HardLinks — hard links of a restore into an empty directory.

  The path of an entry has components stripped off, and the prefix put in front.  What a hard
  link is made to has only the prefix put in front.  The two agree if nothing is stripped, or
  only what is before the first slash.

  Main results:
    * `prepend_components` — where the prefix puts a path.
    * `fullpath_eq` — where an entry is restored to.
    * `hardLinks_restored` — each hard link is one to the file that its target was restored to.
-/
import Burp.RestoreClient.Steps

namespace Burp.RestoreClient.Effects

open Inodes (Fs Ino Kind Grows Alike Rooted Named plain)
open FileSystem Burp.Store Burp.Phase2

/-! ## §1. Where paths are restored to. -/

/-- The names in a path, after a slash that it begins with. -/
def pathNames (path : Bytes) : Inodes.Path :=
  match components path with
  | [] :: q => q
  | q => q

def isAbsolute (path : Bytes) : Bool := decide ((cString path).head? = some 47)

/-- The directory that everything is restored below: the prefix, the root, or where the client
runs. -/
def base (conf : Settings) (absolute : Bool) : Inodes.Path :=
  if conf.restoreprefix ≠ [] then components conf.restoreprefix
  else if absolute ∧ conf.strip ≤ 0 then [[]] else []

section Paths

variable {conf : Settings} {path : Bytes}

theorem eq_cons_tail {b : Bytes} (h : b.head? = some 47) : b = 47 :: b.tail := by
  cases b with
  | nil => cases h
  | cons x f =>
      rw [List.head?_cons, Option.some.injEq] at h
      rw [h]
      rfl

theorem pathNames_absolute {f : Bytes} (h : cString path = 47 :: f) :
    pathNames path = f.splitOn 47 := by
  have hsplit : components path = [] :: f.splitOn 47 := by
    unfold components
    rw [h]
    exact List.splitOn_append_cons_self [] f
  unfold pathNames
  rw [hsplit]

theorem pathNames_relative (h : isAbsolute path = false) (hne : cString path ≠ []) :
    pathNames path = components path := by
  unfold pathNames
  split
  · rename_i q hq
    unfold isAbsolute at h
    rw [decide_eq_false_iff_not] at h
    have hjoin : [47].intercalate ((cString path).splitOn 47) = cString path :=
      List.intercalate_splitOn 47
    unfold components at hq
    rw [hq] at hjoin
    cases q with
    | nil => exact absurd hjoin.symm hne
    | cons x q =>
        rw [← hjoin] at h
        exact absurd rfl h
  · rfl

theorem cString_ne_nil (hne : pathNames path ≠ []) : cString path ≠ [] := by
  intro h
  unfold pathNames components at hne
  rw [h] at hne
  exact hne rfl

/-- The path without the slash that it begins with. -/
theorem splitOn_tail (hne : pathNames path ≠ []) (hplain : ∀ x ∈ pathNames path, plain x) :
    ∃ f, (if (cString path).head? = some 47 then (cString path).tail else cString path) = f
      ∧ f ≠ [] ∧ 0 ∉ f ∧ f.splitOn 47 = pathNames path := by
  refine ⟨_, rfl, ?_⟩
  have hz := zero_notMem_cString path
  split_ifs with habs
  · have hf := eq_cons_tail habs
    rw [pathNames_absolute hf] at hplain ⊢
    refine ⟨fun hnil => ?_, fun hmem => hz (List.mem_of_mem_tail hmem), rfl⟩
    rw [hnil] at hplain
    exact (hplain [] (by simp)).1 rfl
  · refine ⟨cString_ne_nil hne, hz, ?_⟩
    rw [pathNames_relative (by unfold isAbsolute; simpa using habs) (cString_ne_nil hne)]
    rfl

/-- **Where the prefix puts a path.** -/
theorem prepend_components (path : Bytes) (hz : 0 ∉ conf.restoreprefix) (hne : pathNames path ≠ [])
    (hplain : ∀ x ∈ pathNames path, plain x) :
    components (prependS conf.restoreprefix path)
      = base { conf with strip := 0 } (isAbsolute path) ++ pathNames path := by
  obtain ⟨f, hf, hfne, hfz, hsplit⟩ := splitOn_tail hne hplain
  unfold prependS base
  by_cases hpref : conf.restoreprefix = []
  · simp only [hpref, if_true, ne_eq, not_true_eq_false, if_false, le_refl, and_true]
    have hpath : components (cString path) = components path := by
      unfold components
      rw [cString_of_notMem (zero_notMem_cString path)]
    rw [hpath]
    split_ifs with habs
    · unfold isAbsolute at habs
      rw [decide_eq_true_eq] at habs
      have hcons := eq_cons_tail habs
      rw [if_pos habs] at hf
      rw [hf] at hcons
      rw [pathNames_absolute hcons]
      unfold components
      rw [hcons]
      exact List.splitOn_append_cons_self [] f
    · rw [pathNames_relative (by simpa using habs) (cString_ne_nil hne)]
      rfl
  · simp only [hpref, if_false, ne_eq, not_false_eq_true, if_true]
    rw [hf, if_neg hfne]
    unfold components
    rw [cString_of_notMem hz, cString_of_notMem, List.append_assoc]
    · rw [← hsplit]
      exact List.splitOn_append_cons_self conf.restoreprefix f
    · simp [hz, hfz]

theorem stripLoop_zero (cp : Bytes) : stripLoop 0 cp = some cp := by
  unfold stripLoop
  rfl

/-- What is left of an absolute path after one component. -/
theorem strip_one {f : Bytes} (h : cString path = 47 :: f) :
    stripPathComponents 1 path = some f := by
  unfold stripPathComponents
  rw [h]
  show stripLoop 1 (47 :: f) = some f
  unfold stripLoop
  simp only [List.dropWhile_cons, ne_eq, not_true_eq_false, decide_false, Bool.false_eq_true,
    if_false, stripLoop_zero]

/-- **Where an entry is restored to**, if nothing is stripped but what is before the first
slash. -/
theorem fullpath_eq {sb : Sbuf} (hz : 0 ∉ conf.restoreprefix)
    (hne : pathNames (sb.path.getD []) ≠ []) (hplain : ∀ x ∈ pathNames (sb.path.getD []), plain x)
    (hstrip : conf.strip ≤ 0 ∨ conf.strip = 1 ∧ isAbsolute (sb.path.getD []) = true) :
    fullpath conf sb
      = some (base conf (isAbsolute (sb.path.getD [])) ++ pathNames (sb.path.getD [])) := by
  unfold fullpath
  generalize sb.path.getD [] = path at hne hplain hstrip ⊢
  dsimp only
  rcases hstrip with hle | ⟨hone, habs⟩
  · have hsame : base conf (isAbsolute path) = base { conf with strip := 0 } (isAbsolute path) := by
      unfold base
      simp [hle]
    rw [hsame, ← prepend_components _ hz hne hplain]
    split_ifs with hzero
    · have hstripped : stripPathComponents conf.strip path = some (cString path) := by
        unfold stripPathComponents
        rw [Int.toNat_eq_zero.mpr hle, stripLoop_zero]
      have hpath : prependS conf.restoreprefix (cString path)
          = prependS conf.restoreprefix path := by
        unfold prependS
        rw [cString_of_notMem (zero_notMem_cString path)]
      rw [hstripped, Option.map_some, hpath]
    · rfl
  · obtain ⟨f, hf, hfne, hfz, hsplit⟩ := splitOn_tail hne hplain
    have habs' : (cString path).head? = some 47 := by
      unfold isAbsolute at habs
      rwa [decide_eq_true_eq] at habs
    have hcons := eq_cons_tail habs'
    rw [if_pos habs'] at hf
    rw [hf] at hcons
    have hfpath : cString f = f := cString_of_notMem hfz
    have hrel : isAbsolute f = false := by
      unfold isAbsolute
      rw [hfpath, decide_eq_false_iff_not]
      intro hhead
      have hcut : (47 :: f.tail).splitOn 47 = [] :: f.tail.splitOn 47 :=
        List.splitOn_append_cons_self [] f.tail
      rw [← eq_cons_tail hhead, hsplit] at hcut
      exact (hplain [] (by simp [hcut])).1 rfl
    have hnames : pathNames f = pathNames path := by
      rw [pathNames_relative hrel (by rwa [hfpath]), ← hsplit]
      unfold components
      rw [hfpath]
    rw [if_pos (by omega), hone, strip_one hcons, Option.map_some,
      prepend_components _ hz (by rwa [hnames]) (by rwa [hnames]), hnames, hrel, habs]
    unfold base
    simp [hone]

end Paths

/-! ## §2. Manifests. -/

/-- The commands whose data is written to a file. -/
def isData : Store.Cmd → Bool
  | .file | .encFile | .efsFile | .vssT | .encVssT => true
  | _ => false

/-- What is made for an entry is not a directory. -/
def isLeaf (sb : Sbuf) : Bool := isData sb.cmd || sb.cmd.isLink || decide (sb.cmd = .special)

/-- What is made for an entry is its directory. -/
def makesDir (sb : Sbuf) : Bool :=
  decide (sb.cmd = .directory) || (isMeta sb.cmd && sb.statp.isDir)

def Received.names (e : Received) : Inodes.Path := pathNames (e.sb.path.getD [])

/-- There is nothing below what is not a directory, and its path is its own, but that there may
be metadata for it or data in two parts. -/
def Apart (e e' : Received) : Prop :=
  isLeaf e.sb = true → e.names <+: e'.names → e.names = e'.names
    ∧ (isLeaf e'.sb = false ∧ makesDir e'.sb = false
      ∨ isData e.sb.cmd = true ∧ isData e'.sb.cmd = true)

/-- A hard link names the entry of a file, of which there is more than trailing data. -/
def LinksTo (e e' : Received) : Prop :=
  isLeaf e'.sb = true ∧ e'.sb.cmd.isVssT = false
    ∧ cString (e.sb.linkto.getD []) = cString (e'.sb.path.getD [])

instance (e e' : Received) : Decidable (Apart e e') :=
  inferInstanceAs (Decidable (isLeaf e.sb = true → e.names <+: e'.names → e.names = e'.names
    ∧ (isLeaf e'.sb = false ∧ makesDir e'.sb = false
      ∨ isData e.sb.cmd = true ∧ isData e'.sb.cmd = true)))

instance (e e' : Received) : Decidable (LinksTo e e') :=
  inferInstanceAs (Decidable (isLeaf e'.sb = true ∧ e'.sb.cmd.isVssT = false
    ∧ cString (e.sb.linkto.getD []) = cString (e'.sb.path.getD [])))

/-- The entries of a backup. -/
structure Manifest (absolute : Bool) (es : List Received) : Prop where
  cmd : ∀ e ∈ es, Entry.contains e.sb.cmd = true
  absolute : ∀ e ∈ es, isAbsolute (e.sb.path.getD []) = absolute
  /-- The root has no names. -/
  path : ∀ e ∈ es, (e.names ≠ [] ∧ ∀ x ∈ e.names, plain x)
    ∨ cString (e.sb.path.getD []) = [47] ∧ makesDir e.sb = true
  special : ∀ e ∈ es, e.sb.cmd = .special → nodeKind e.sb.statp ≠ none
  softLink : ∀ e ∈ es, e.sb.cmd = .softLink → cString (e.sb.linkto.getD []) ≠ []
  apart : es.Pairwise fun e e' => Apart e e' ∧ Apart e' e
  hardLink : ∀ (k : Nat) (e : Received), es[k]? = some e → e.sb.cmd = .hardLink →
    ∃ j e', j < k ∧ es[j]? = some e' ∧ LinksTo e e'

/-- A directory with nothing in it. -/
structure EmptyAt (t : Fs) (base : Inodes.Path) (top : Ino) : Prop where
  origin : t.origin base = some top
  names : ∃ up, t.names top = some [([46], top), ([46, 46], up)]

/-- What is put in front of a path and of the target of a hard link leads to one directory. -/
def MappedAlike (conf : Settings) (absolute : Bool) (t : Fs) : Prop :=
  conf.strip ≤ 0
    ∨ conf.strip = 1 ∧ absolute = true ∧ ( conf.restoreprefix ≠ [] ∨ t.cwd = t.root)

/-- Each hard link leads to the file that was restored for its target. -/
def HardLinked (conf : Settings) (es : List Received) (fs : Fs) : Prop :=
  ∀ (k j : Nat) (e e' : Received) (p q : Inodes.Path), es[k]? = some e → e.sb.cmd = .hardLink →
    j < k → es[j]? = some e' → LinksTo e e' → fullpath conf e.sb = some p →
    fullpath conf e'.sb = some q →
    ∃ i, (run conf (es.take (j + 1)) fs).fs.lstat q = some i
      ∧ (run conf es fs).fs.lstat q = some i ∧ (run conf es fs).fs.lstat p = some i

/-! ## §3. What has been restored. -/

/-- All that is below the directory, after these entries. -/
structure Restored (base : Inodes.Path) (top : Ino) (es : List Received) (t : Fs) : Prop where
  ready : Ready base top t
  known : ∀ {a : Inodes.Path} {i : Ino}, (∀ x ∈ a, plain x) → a ≠ [] → t.climb top a = some i →
    ∃ e ∈ es, (a <+: e.names ∧ (t.names i).isSome ∧ (a = e.names → makesDir e.sb = true))
      ∨ (isLeaf e.sb = true ∧ e.names = a ∧ t.names i = none)
  done : ∀ e ∈ es, isLeaf e.sb = true → e.sb.cmd.isVssT = false → ∃ i, IsLeaf t top e.names i
  data : ∀ e ∈ es, isData e.sb.cmd = true → ∀ i, t.climb top e.names = some i →
    t.names i = none ∧ ∀ target, t.kind i ≠ some (.symlink target)

section Restored

variable {conf : Settings} {base' dirs q : Inodes.Path} {leaf : Option Inodes.Path} {top i : Ino}
  {c : Inodes.Name} {es : List Received} {e : Received} {t u : Fs}

theorem IsLeaf.grows {base : Inodes.Path} (hr : Ready base top t) (hq : ∀ x ∈ q, plain x)
    (h : IsLeaf t top q i) (hgrows : Grows t u) : IsLeaf u top q i := by
  obtain ⟨place, hrooted⟩ := hr.rooted
  refine ⟨hgrows.climb h.1, ?_⟩
  have hdir := hgrows.dirs (hrooted.kind_climb hq h.1)
  rw [h.2] at hdir
  simpa using hdir

theorem makesDir_of_leaf {sb : Sbuf} (h : isLeaf sb = true) : makesDir sb = false := by
  revert h
  unfold isLeaf makesDir isData isMeta
  cases sb.cmd <;> simp [Cmd.isLink, Cmd.isMetadata, Cmd.isVss]

theorem isLeaf_of_data {sb : Sbuf} (h : isData sb.cmd = true) : isLeaf sb = true := by
  unfold isLeaf
  rw [h]
  rfl

/-- On the way to what is next there are only directories. -/
theorem Restored.onlyDirs {base : Inodes.Path} (h : Restored base top es t)
    (hq : ∀ x ∈ q, plain x) (hnames : e.names = q ++ [c])
    (hapart : ∀ e' ∈ es, e'.names ≠ e.names → Apart e' e) : OnlyDirs t top q := by
  intro a ha i hi
  obtain ⟨place, hrooted⟩ := h.ready.rooted
  rcases List.eq_nil_or_concat a with rfl | ⟨r, x, rfl⟩
  · cases hi
    exact hrooted.dir hrooted.top
  · obtain ⟨e', he', hknown | ⟨hleaf, hsame, -⟩⟩ :=
      h.known (fun x hx => hq x (ha.subset hx)) (by simp) hi
    · exact hknown.2.1
    · have hpre : e'.names <+: e.names := by
        rw [hsame, hnames]
        exact ha.trans (List.prefix_append q [c])
      have hne : e'.names ≠ e.names := by
        intro heq
        have hlen := ha.length_le
        rw [← hsame, heq, hnames] at hlen
        simp at hlen
      exact absurd (hapart e' he' hne hleaf hpre).1 hne

/-- What is next is not there, unless it is more data. -/
theorem Restored.not_there {base : Inodes.Path} (h : Restored base top es t)
    (hq : ∀ x ∈ e.names, plain x) (hne : e.names ≠ []) (hleaf : isLeaf e.sb = true)
    (hapart : ∀ e' ∈ es, Apart e e') :
    t.climb top e.names = none ∨ isData e.sb.cmd = true ∧ ∃ i, IsLeaf t top e.names i
      ∧ ∀ target, t.kind i ≠ some (.symlink target) := by
  cases hi : t.climb top e.names with
  | none => exact Or.inl rfl
  | some i =>
      right
      obtain ⟨e', he', ⟨hpre, -, hdir⟩ | ⟨hleaf', hsame, -⟩⟩ := h.known hq hne hi
      · obtain ⟨hsame, ⟨-, hno⟩ | ⟨-, hdata⟩⟩ := hapart e' he' hleaf hpre
        · rw [hdir hsame] at hno
          cases hno
        · have hno := makesDir_of_leaf (isLeaf_of_data hdata)
          rw [hdir hsame] at hno
          cases hno
      · obtain ⟨-, ⟨hno, -⟩ | ⟨hdata, hdata'⟩⟩ :=
          hapart e' he' hleaf (by rw [hsame])
        · rw [hleaf'] at hno
          cases hno
        · obtain ⟨hnames, hlink⟩ := h.data e' he' hdata' i (by rw [hsame]; exact hi)
          exact ⟨hdata, i, ⟨hi, hnames⟩, hlink⟩

/-- **One entry more**, for which nothing has been added but what is its own. -/
theorem Restored.step {base : Inodes.Path} (h : Restored base top es t)
    (hs : Step base top dirs leaf t u)
    (hq : ∀ e' ∈ es ++ [e], isLeaf e'.sb = true → ∀ x ∈ e'.names, plain x)
    (hdirs : dirs <+: e.names) (hmakes : dirs = e.names → makesDir e.sb = true)
    (hleaf : ∀ a, leaf = some a → a = e.names ∧ isLeaf e.sb = true)
    (hapart : ∀ e' ∈ es, Apart e' e ∧ Apart e e')
    (hdone : isLeaf e.sb = true → e.sb.cmd.isVssT = false → ∃ i, IsLeaf u top e.names i)
    (hdata : isData e.sb.cmd = true → ∀ i, u.climb top e.names = some i →
      u.names i = none ∧ ∀ target, u.kind i ≠ some (.symlink target)) :
    Restored base top (es ++ [e]) u where
  ready := hs.ready
  known {a i} ha hne hi := by
    obtain ⟨place, hrooted⟩ := h.ready.rooted
    rcases hs.paths ha hi with hold | ⟨hpre, hdir⟩ | ⟨hsame, hnone⟩
    · have hgrows := hs.grows.dirs (hrooted.kind_climb ha hold)
      obtain ⟨e', he', ⟨hpre, hdir, hmakes'⟩ | ⟨hleaf', hsame, hnone⟩⟩ := h.known ha hne hold
      · exact ⟨e', by simp [he'], Or.inl ⟨hpre, hgrows.mpr hdir, hmakes'⟩⟩
      · refine ⟨e', by simp [he'], Or.inr ⟨hleaf', hsame, ?_⟩⟩
        rw [hnone] at hgrows
        simpa using hgrows
    · refine ⟨e, by simp, Or.inl ⟨hpre.trans hdirs, hdir, fun heq => hmakes ?_⟩⟩
      rw [heq] at hpre
      exact hdirs.eq_of_length_le hpre.length_le
    · obtain ⟨rfl, hleaf'⟩ := hleaf a hsame
      exact ⟨e, by simp, Or.inr ⟨hleaf', rfl, hnone⟩⟩
  done e' he' hleaf' hvss := by
    rcases List.mem_append.mp he' with hold | hnew
    · obtain ⟨i, hi⟩ := h.done e' hold hleaf' hvss
      exact ⟨i, hi.grows h.ready (hq e' he' hleaf') hs.grows⟩
    · rw [List.mem_singleton.mp hnew] at hleaf' hvss ⊢
      exact hdone hleaf' hvss
  data e' he' hdata' i hi := by
    have hplain := hq e' he' (isLeaf_of_data hdata')
    rcases List.mem_append.mp he' with hold | hnew
    · rcases hs.paths hplain hi with hthere | ⟨hpre, -⟩ | ⟨hsame, -⟩
      · obtain ⟨hnone, hlink⟩ := h.data e' hold hdata' i hthere
        obtain ⟨place, hrooted⟩ := h.ready.rooted
        have hkind := hrooted.kind_climb hplain hthere
        refine ⟨(IsLeaf.grows h.ready hplain ⟨hthere, hnone⟩ hs.grows).2, ?_⟩
        exact (hs.grows.leads.others trivial hkind hlink).2
      · obtain ⟨hsame, hwhy⟩ := (hapart e' hold).1 (isLeaf_of_data hdata') (hpre.trans hdirs)
        rw [hsame] at hpre
        have hno := hmakes (hdirs.eq_of_length_le hpre.length_le)
        rcases hwhy with ⟨-, hmakes'⟩ | ⟨-, hdata''⟩
        · rw [hno] at hmakes'
          cases hmakes'
        · rw [makesDir_of_leaf (isLeaf_of_data hdata'')] at hno
          cases hno
      · obtain ⟨hsame, hleaf'⟩ := hleaf _ hsame
        obtain ⟨-, ⟨hno, -⟩ | ⟨-, hdata''⟩⟩ :=
          (hapart e' hold).1 (isLeaf_of_data hdata') (by rw [hsame])
        · rw [hleaf'] at hno
          cases hno
        · exact hdata hdata'' i (by rw [← hsame]; exact hi)
    · rw [List.mem_singleton.mp hnew] at hdata' hi
      exact hdata hdata' i hi

end Restored

/-! ## §4. One turn. -/

section Turn

variable {conf : Settings} {absolute : Bool} {top i : Ino} {k : Nat} {es : List Received}
  {e : Received} {q : Inodes.Path} {c : Inodes.Name} {fs t u : Fs}

/-- What a restore into an empty directory is given. -/
structure Restore (conf : Settings) (absolute : Bool) (top : Ino) (es : List Received) (fs : Fs) :
    Prop where
  manifest : Manifest absolute es
  zero_notMem : 0 ∉ conf.restoreprefix
  mapped : MappedAlike conf absolute fs
  empty : EmptyAt fs (base conf absolute) top
  smooth : ∀ e ∈ es, e.given.Smooth

theorem MappedAlike.strip (h : MappedAlike conf absolute fs) :
    conf.strip ≤ 0 ∨ conf.strip = 1 ∧ absolute = true :=
  h.imp_right fun h => ⟨h.1, h.2.1⟩

theorem Restore.fullpath (h : Restore conf absolute top es fs) (he : e ∈ es)
    (hne : e.names ≠ []) (hplain : ∀ x ∈ e.names, plain x) :
    fullpath conf e.sb = some (base conf absolute ++ e.names) := by
  have habs := h.manifest.absolute e he
  rw [fullpath_eq h.zero_notMem hne hplain (by rw [habs]; exact h.mapped.strip), habs]
  rfl

/-- The directory that the target of a hard link is looked for in is the same. -/
theorem Restore.origin (h : Restore conf absolute top es fs) :
    fs.origin (base { conf with strip := 0 } absolute) = some top := by
  have horigin := h.empty.origin
  rcases h.mapped with hle | ⟨hone, rfl, hpref | hroot⟩
  · unfold base at horigin ⊢
    simpa [hle] using horigin
  · unfold base at horigin ⊢
    simpa [hpref] using horigin
  · unfold base at horigin ⊢
    by_cases hpref : conf.restoreprefix = []
    · simp only [hpref, ne_eq, not_true_eq_false, if_false, hone] at horigin ⊢
      simp only [le_refl, and_self, if_true]
      obtain ⟨up, hnames⟩ := h.empty.names
      have htop : fs.cwd = top := by simpa [Fs.origin, Fs.walk] using horigin
      unfold Fs.origin
      rw [List.head?_cons, if_pos rfl, ← hroot, htop]
      show (fs.step top []).bind _ = _
      have hlookup : fs.lookup top [] = some top := by
        unfold Fs.lookup
        rw [hnames]
        rfl
      have hkind := Inodes.names_eq_some.mp hnames
      unfold Fs.step
      rw [hlookup, Option.bind_some, Inodes.follow_self (by simp [hkind]) (by simp [hkind])]
      rfl
    · simpa [hpref] using horigin

theorem overwriteOk_new {b : Bool} {sb : Sbuf} {p : Inodes.Path} (h : t.lstat p = none)
    (hvss : sb.cmd.isVssT = false) : overwriteOk conf (finds b t p) sb = true := by
  unfold overwriteOk finds
  rw [h, hvss]
  split_ifs <;> rfl

theorem turn_eq (hentry : Entry.contains e.sb.cmd = true) (hg : e.given.Smooth)
    {p : Inodes.Path} (hp : fullpath conf e.sb = some p) :
    turn conf e t = if overwriteOk conf (finds e.isFifo t p) e.sb
      then restoreEntry conf e.given e.sb p t else ⟨t, true⟩ := by
  unfold turn
  rw [if_pos hentry, hp, hg.interrupts]

/-- The entries up to one that is next. -/
structure Next (conf : Settings) (absolute : Bool) (top : Ino) (es : List Received) (k : Nat)
    (e : Received) (fs t : Fs) : Prop where
  restore : Restore conf absolute top es fs
  next : es[k]? = some e
  restored : Restored (base conf absolute) top (es.take k) t
  grows : Grows fs t

theorem Restore.leaf_names (h : Restore conf absolute top es fs) (he : e ∈ es)
    (hleaf : isLeaf e.sb = true) : e.names ≠ [] ∧ ∀ x ∈ e.names, plain x := by
  refine (h.manifest.path e he).resolve_right ?_
  rintro ⟨-, hmakes⟩
  rw [makesDir_of_leaf hleaf] at hmakes
  cases hmakes

theorem Restore.apart (h : Restore conf absolute top es fs) {e' : Received} (he : e ∈ es)
    (he' : e' ∈ es) (hne : e'.names ≠ e.names) : Apart e' e := by
  have : Std.Symm fun e e' => Apart e e' ∧ Apart e' e := ⟨fun _ _ h => ⟨h.2, h.1⟩⟩
  have hne' : e' ≠ e := by
    rintro rfl
    exact hne rfl
  exact (h.manifest.apart.forall he' he hne').1

theorem Next.mem (h : Next conf absolute top es k e fs t) : e ∈ es :=
  List.mem_of_getElem? h.next

theorem Next.take (h : Next conf absolute top es k e fs t) :
    es.take (k + 1) = es.take k ++ [e] := by
  rw [List.take_add_one, h.next]
  rfl

theorem Next.apart (h : Next conf absolute top es k e fs t) :
    ∀ e' ∈ es.take k, Apart e' e ∧ Apart e e' := by
  intro e' he'
  have hsub : (es.take k ++ [e]).Sublist es := by
    rw [← h.take]
    exact List.take_sublist _ _
  have hpair := h.restore.manifest.apart.sublist hsub
  rw [List.pairwise_append] at hpair
  exact hpair.2.2 e' he' e (by simp)

theorem Next.onlyDirs (h : Next conf absolute top es k e fs t) (hq : ∀ x ∈ q, plain x)
    (hnames : e.names = q ++ [c]) : OnlyDirs t top q :=
  h.restored.onlyDirs hq hnames fun e' he' _ => (h.apart e' he').1

/-- The target of a hard link, wherever the directories of its path have been made. -/
theorem Next.target (h : Next conf absolute top es k e fs t) {e' : Received}
    (he' : e' ∈ es.take k) (hlink : LinksTo e e') (hi : IsLeaf t top e'.names i)
    (hs : Step (base conf absolute) top q none t u) :
    u.lstat (components (prependS conf.restoreprefix (e.sb.linkto.getD []))) = some i
      ∧ u.names i = none := by
  have hmem : e' ∈ es := List.mem_of_mem_take he'
  obtain ⟨hne, hplain⟩ := h.restore.leaf_names hmem hlink.1
  have hsame : ∀ a b : Bytes, cString a = cString b → pathNames a = pathNames b
      ∧ isAbsolute a = isAbsolute b := by
    intro a b hab
    unfold pathNames components isAbsolute
    rw [hab]
    exact ⟨rfl, rfl⟩
  obtain ⟨hnames, habs⟩ := hsame _ _ hlink.2.2
  rw [h.restore.manifest.absolute e' hmem] at habs
  have hpath := prepend_components (e.sb.linkto.getD []) h.restore.zero_notMem
    (by rw [hnames]; exact hne) (by rw [hnames]; exact hplain)
  rw [hnames, habs] at hpath
  obtain ⟨r, x, hrx⟩ := List.eq_nil_or_concat e'.names |>.resolve_left hne
  rw [List.concat_eq_append] at hrx
  have hr : ∀ y ∈ r, plain y := fun y hy => hplain y (by rw [hrx]; simp [hy])
  have hx : plain x := hplain x (by rw [hrx]; simp)
  have honly : OnlyDirs t top r := h.restored.onlyDirs hr hrx fun e'' he'' hne'' =>
    h.restore.apart hmem (List.mem_of_mem_take he'') hne''
  obtain ⟨place, hrooted⟩ := hs.ready.rooted
  have horigin := (h.grows.trans hs.grows).origin h.restore.origin
  have hleaf := hi.grows h.restored.ready hplain hs.grows
  have hlstat := Inodes.lstat_below horigin hrooted hr hx (honly.step h.restored.ready hr hs)
  rw [← hrx, hleaf.1] at hlstat
  rw [hpath]
  exact ⟨hlstat, hleaf.2⟩

/-- What makes no leaf: a directory, or metadata. -/
theorem Next.turn_noLeaf (h : Next conf absolute top es k e fs t) (hleaf : isLeaf e.sb = false)
    (hq : ∀ x ∈ q, plain x) (hc : plain c) (hnames : e.names = q ++ [c]) :
    ∃ u, turn conf e t = ⟨u, true⟩ ∧ Step (base conf absolute) top
      (if makesDir e.sb then q ++ [c] else q) none t u := by
  have hentry := h.restore.manifest.cmd e h.mem
  have hg := h.restore.smooth e h.mem
  have hp := h.restore.fullpath h.mem (by simp [hnames])
    (by rw [hnames]; exact plain_concat hq hc)
  rw [hnames] at hp
  rw [turn_eq hentry hg hp]
  have honly := h.onlyDirs hq hnames
  have hstay : ∃ u, (⟨t, true⟩ : Turn) = ⟨u, true⟩ ∧ Step (base conf absolute) top
      (if makesDir e.sb then q ++ [c] else q) none t u :=
    ⟨t, rfl, Step.refl h.restored.ready⟩
  by_cases hok : overwriteOk conf (finds e.isFifo t (base conf absolute ++ (q ++ [c]))) e.sb = true
  · rw [if_pos hok]
    unfold restoreEntry
    cases hcmd : e.sb.cmd
    case directory =>
      rw [if_pos (by simp [makesDir, hcmd])]
      exact restoreDir_below e.sb hg h.restored.ready hq hc honly
    case metadata | encMetadata | vss | encVss =>
      have hmakes : makesDir e.sb = e.sb.statp.isDir := by
        simp [makesDir, hcmd, isMeta, Cmd.isMetadata, Cmd.isVss]
      rw [hmakes]
      exact restoreMetadata_below hg h.restored.ready hq hc honly
    all_goals simp [isLeaf, isData, hcmd, Cmd.isLink, Entry] at hleaf hentry
  · rw [if_neg hok]
    exact hstay

/-- Data for a file that is there. -/
theorem Next.turn_there (h : Next conf absolute top es k e fs t) (hdata : isData e.sb.cmd = true)
    (hq : ∀ x ∈ q, plain x) (hc : plain c) (hnames : e.names = q ++ [c])
    (hi : IsLeaf t top (q ++ [c]) i) (hlink : ∀ target, t.kind i ≠ some (.symlink target)) :
    ∃ u, turn conf e t = ⟨u, true⟩ ∧ Step (base conf absolute) top q none t u := by
  have hentry := h.restore.manifest.cmd e h.mem
  have hg := h.restore.smooth e h.mem
  have hp := h.restore.fullpath h.mem (by simp [hnames])
    (by rw [hnames]; exact plain_concat hq hc)
  rw [hnames] at hp
  rw [turn_eq hentry hg hp]
  by_cases hok : overwriteOk conf (finds e.isFifo t (base conf absolute ++ (q ++ [c]))) e.sb = true
  · rw [if_pos hok]
    unfold restoreEntry
    cases hcmd : e.sb.cmd
    case file | encFile | efsFile | vssT | encVssT =>
      exact restoreFile_there hg h.restored.ready hq hc (h.onlyDirs hq hnames) hi hlink
    all_goals simp [isData, hcmd] at hdata
  · rw [if_neg hok]
    exact ⟨t, rfl, Step.refl h.restored.ready⟩

/-- **Something that is not there is made.** -/
theorem Next.turn_new (h : Next conf absolute top es k e fs t) (hleaf : isLeaf e.sb = true)
    (hq : ∀ x ∈ q, plain x) (hc : plain c) (hnames : e.names = q ++ [c])
    (hnew : t.climb top (q ++ [c]) = none)
    (hok : overwriteOk conf (finds e.isFifo t (base conf absolute ++ (q ++ [c]))) e.sb = true) :
    ∃ u i, turn conf e t = ⟨u, true⟩ ∧ Step (base conf absolute) top q (some (q ++ [c])) t u
      ∧ IsLeaf u top (q ++ [c]) i
      ∧ (isData e.sb.cmd = true → ∀ target, u.kind i ≠ some (.symlink target))
      ∧ (e.sb.cmd = .hardLink → ∀ e' ∈ es.take k, LinksTo e e' → IsLeaf t top e'.names i) := by
  have hentry := h.restore.manifest.cmd e h.mem
  have hg := h.restore.smooth e h.mem
  have hp := h.restore.fullpath h.mem (by simp [hnames])
    (by rw [hnames]; exact plain_concat hq hc)
  have honly := h.onlyDirs hq hnames
  rw [hnames] at hp
  rw [turn_eq hentry hg hp, if_pos hok]
  unfold restoreEntry
  cases hcmd : e.sb.cmd
  case file | encFile | efsFile | vssT | encVssT =>
    obtain ⟨u, i, hu, hs, hi, hlink⟩ := restoreFile_below e.sb hg h.restored.ready hq hc
      honly hnew
    exact ⟨u, i, hu, hs, hi, fun _ => hlink, by simp⟩
  case special =>
    obtain ⟨u, i, hu, hs, hi⟩ := restoreSpecial_below e.sb hg h.restored.ready hq hc
      honly hnew (h.restore.manifest.special e h.mem hcmd)
    exact ⟨u, i, hu, hs, hi, by simp [isData], by simp⟩
  case softLink =>
    have htarget : components (e.sb.linkto.getD []) ≠ [[]] := by
      intro heq
      have hjoin : [47].intercalate ((cString (e.sb.linkto.getD [])).splitOn 47)
          = cString (e.sb.linkto.getD []) := List.intercalate_splitOn 47
      unfold components at heq
      rw [heq] at hjoin
      exact h.restore.manifest.softLink e h.mem hcmd hjoin.symm
    obtain ⟨u, i, hu, hs, hi⟩ := restoreSoftLink_below e.sb hg h.restored.ready hq hc
      honly hnew hcmd htarget conf.restoreprefix
    exact ⟨u, i, hu, hs, hi, by simp [isData], by simp⟩
  case hardLink =>
    obtain ⟨j, e', hj, he', hlinks⟩ := h.restore.manifest.hardLink k e h.next hcmd
    have hmem : e' ∈ es.take k := List.mem_of_getElem? (i := j) (by
      rw [List.getElem?_take, if_pos hj, he'])
    obtain ⟨i, hi⟩ := h.restored.done e' hmem hlinks.1 hlinks.2.1
    obtain ⟨u, hu, hs, hi'⟩ := restoreHardLink_below e.sb hg h.restored.ready hq hc
      honly hnew hcmd fun u hs => h.target hmem hlinks hi hs
    refine ⟨u, i, hu, hs, hi', by simp [isData], fun _ e'' _ hlinks'' => ?_⟩
    have hsame : e''.names = e'.names := by
      unfold Received.names pathNames components
      rw [← hlinks''.2.2, ← hlinks.2.2]
    rwa [hsame]
  all_goals simp [isLeaf, isData, hcmd, Cmd.isLink] at hleaf

/-- What is left of the root's path when components have been taken off. -/
theorem Restore.strip_root (h : Restore conf absolute top es fs) {path : Bytes}
    (hroot : cString path = [47]) :
    ∃ path', (if conf.strip ≠ 0 then stripPathComponents conf.strip path else some path)
        = some path'
      ∧ (conf.strip ≤ 0 ∧ cString path' = [47] ∨ conf.strip = 1 ∧ path' = []) := by
  rcases h.mapped.strip with hle | ⟨hone, -⟩
  · split_ifs
    · refine ⟨cString path, ?_, Or.inl ⟨hle, ?_⟩⟩
      · unfold stripPathComponents
        rw [Int.toNat_eq_zero.mpr hle, stripLoop_zero]
      · rw [cString_of_notMem (zero_notMem_cString _), hroot]
    · exact ⟨_, rfl, Or.inl ⟨hle, hroot⟩⟩
  · rw [if_pos (by omega), hone]
    exact ⟨[], strip_one hroot, Or.inr ⟨rfl, rfl⟩⟩

/-- A directory that is given is not the root without a name. -/
theorem Restore.base_ne (h : Restore conf absolute top es fs) (hpref : conf.restoreprefix ≠ [])
    (b : Bool) : base conf b ≠ [] ∧ base conf b ≠ [[]] := by
  unfold base components
  rw [if_pos hpref, cString_of_notMem h.zero_notMem]
  refine ⟨List.splitOn_ne_nil _ _, fun heq => ?_⟩
  have hjoin : [47].intercalate ( conf.restoreprefix.splitOn 47) = conf.restoreprefix :=
    List.intercalate_splitOn 47
  rw [heq] at hjoin
  exact hpref hjoin.symm

/-- The root itself is the directory, or nothing. -/
theorem Restore.fullpath_root (h : Restore conf absolute top es fs) (he : e ∈ es)
    (hroot : cString (e.sb.path.getD []) = [47]) :
    ∃ p, Effects.fullpath conf e.sb = some p ∧ There fs p := by
  have habs := h.manifest.absolute e he
  unfold isAbsolute at habs
  rw [hroot] at habs
  have habs' : absolute = true := by simpa using habs.symm
  subst habs'
  have horigin := h.empty.origin
  obtain ⟨path', hpath', hwhich⟩ := h.strip_root hroot
  refine ⟨components (prependS conf.restoreprefix path'), ?_, ?_⟩
  · unfold Effects.fullpath
    dsimp only
    rw [hpath', Option.map_some]
  · by_cases hpref : conf.restoreprefix = []
    · rcases hwhich with ⟨hle, hslash⟩ | ⟨-, rfl⟩
      · left
        have hcomponents : components (prependS conf.restoreprefix path') = [[], []] := by
          unfold prependS
          rw [if_pos hpref, hslash]
          rfl
        obtain ⟨up, hnames⟩ := h.empty.names
        have hkind := Inodes.names_eq_some.mp hnames
        have hwalk : fs.walk fs.root [[]] = some top := by
          unfold base Fs.origin at horigin
          simpa [hpref, hle] using horigin
        have hlookup : fs.lookup top [] = some top := by
          unfold Fs.lookup
          rw [hnames]
          rfl
        have hparent : fs.parent [[], []] = some (top, []) := by
          show (fs.walk fs.root [[]]).map _ = _
          rw [hwalk]
          rfl
        rw [hcomponents, Inodes.stat_eq_some.mpr ⟨(top, []), top, hparent, hlookup,
          Inodes.follow_self (by simp [hkind]) (by simp [hkind]) _ _⟩]
        simp
      · right
        unfold prependS
        rw [if_pos hpref]
        rfl
    · left
      have hcomponents : components (prependS conf.restoreprefix path')
          = base conf true := by
        have hprep : prependS conf.restoreprefix path' = conf.restoreprefix := by
          unfold prependS
          rw [if_neg hpref]
          rcases hwhich with ⟨-, hslash⟩ | ⟨-, rfl⟩
          · rw [hslash]
            simp
          · rw [show cString [] = [] from rfl]
            simp
        unfold base
        rw [hprep, if_pos hpref]
      obtain ⟨hne', hne⟩ := h.base_ne hpref true
      rw [hcomponents, stat_base horigin hne' hne]
      simp

/-- The entry of the root adds nothing. -/
theorem Next.turn_root (h : Next conf absolute top es k e fs t)
    (hroot : cString (e.sb.path.getD []) = [47]) (hmakes : makesDir e.sb = true) :
    ∃ u, turn conf e t = ⟨u, true⟩ ∧ Alike t u := by
  have hentry := h.restore.manifest.cmd e h.mem
  have hg := h.restore.smooth e h.mem
  obtain ⟨p, hp, hthere⟩ := h.restore.fullpath_root h.mem hroot
  have hthere' := hthere.grows h.grows
  rw [turn_eq hentry hg hp]
  by_cases hok : overwriteOk conf (finds e.isFifo t p) e.sb = true
  · rw [if_pos hok]
    unfold restoreEntry
    cases hcmd : e.sb.cmd
    case directory => exact restoreDir_there e.sb hg hthere'
    case metadata | encMetadata | vss | encVss => exact restoreMetadata_there hg hthere'
    all_goals simp [makesDir, hcmd, isMeta, Cmd.isMetadata, Cmd.isVss] at hmakes
  · rw [if_neg hok]
    exact ⟨t, rfl, Alike.refl t⟩

/-- What is not there is made, but for trailing data that is refused. -/
theorem Next.turn_leaf (h : Next conf absolute top es k e fs t) (hleaf : isLeaf e.sb = true)
    (hplain : ∀ e' ∈ es.take k ++ [e], isLeaf e'.sb = true → ∀ x ∈ e'.names, plain x)
    (hq : ∀ x ∈ q, plain x) (hc : plain c) (hnames : e.names = q ++ [c])
    (hnew : t.climb top (q ++ [c]) = none) :
    ∃ u, turn conf e t = ⟨u, true⟩
      ∧ Restored (base conf absolute) top (es.take k ++ [e]) u ∧ Grows t u
      ∧ (e.sb.cmd = .hardLink → ∀ e' ∈ es.take k, LinksTo e e' →
        ∃ i, IsLeaf t top e'.names i ∧ IsLeaf u top e.names i) := by
  have hdirs : q <+: e.names := by
    rw [hnames]
    exact List.prefix_append q [c]
  have hmakes : q = e.names → makesDir e.sb = true := by
    intro hsame
    rw [hnames] at hsame
    simp at hsame
  by_cases hok : overwriteOk conf (finds e.isFifo t (base conf absolute ++ (q ++ [c]))) e.sb = true
  · obtain ⟨u, i, hu, hs, hi, hlink, htarget⟩ := h.turn_new hleaf hq hc hnames hnew hok
    refine ⟨u, hu, h.restored.step hs hplain hdirs hmakes (fun a ha => ?_) h.apart
      (fun _ _ => ⟨i, by rwa [hnames]⟩) (fun hdata j hj => ?_), hs.grows, fun hcmd e' he' hlinks =>
        ⟨i, htarget hcmd e' he' hlinks, by rwa [hnames]⟩⟩
    · rw [Option.some.injEq] at ha
      exact ⟨by rw [← ha, hnames], hleaf⟩
    · rw [hnames, hi.1, Option.some.injEq] at hj
      subst hj
      exact ⟨hi.2, hlink hdata⟩
  · have hp := h.restore.fullpath h.mem (by simp [hnames])
      (by rw [hnames]; exact plain_concat hq hc)
    rw [hnames] at hp
    have hvss : e.sb.cmd.isVssT = true := by
      by_contra hvss
      obtain ⟨place, hrooted⟩ := h.restored.ready.rooted
      have hlstat := Inodes.lstat_below h.restored.ready.origin hrooted hq hc
        (h.onlyDirs hq hnames)
      rw [hnew] at hlstat
      exact hok (overwriteOk_new hlstat (by simpa using hvss))
    have hs : Step (base conf absolute) top q none t t := Step.refl h.restored.ready
    refine ⟨t, ?_, h.restored.step hs hplain hdirs hmakes (by simp) h.apart (fun _ hno => ?_)
      (fun _ j hj => ?_), hs.grows, fun hcmd => ?_⟩
    · rw [turn_eq (h.restore.manifest.cmd e h.mem) (h.restore.smooth e h.mem) hp, if_neg hok]
    · rw [hvss] at hno
      cases hno
    · rw [hnames, hnew] at hj
      cases hj
    · rw [hcmd] at hvss
      cases hvss

/-- **One turn**: the entry is restored, and a hard link to what its target is. -/
theorem Next.turn_restored (h : Next conf absolute top es k e fs t) :
    ∃ u, turn conf e t = ⟨u, true⟩
      ∧ Restored (base conf absolute) top (es.take (k + 1)) u ∧ Grows t u
      ∧ (e.sb.cmd = .hardLink → ∀ e' ∈ es.take k, LinksTo e e' →
        ∃ i, IsLeaf t top e'.names i ∧ IsLeaf u top e.names i) := by
  have hplain : ∀ e' ∈ es.take k ++ [e], isLeaf e'.sb = true →
      ∀ x ∈ e'.names, plain x := by
    intro e' he' hleaf
    rw [← h.take] at he'
    exact (h.restore.leaf_names (List.mem_of_mem_take he') hleaf).2
  rw [h.take]
  rcases h.restore.manifest.path e h.mem with ⟨hne, hq⟩ | ⟨hroot, hmakes⟩
  · obtain ⟨q, c, hnames⟩ := List.eq_nil_or_concat e.names |>.resolve_left hne
    rw [List.concat_eq_append] at hnames
    have hq' : ∀ x ∈ q, plain x := fun x hx => hq x (by rw [hnames]; simp [hx])
    have hc : plain c := hq c (by rw [hnames]; simp)
    cases hleaf : isLeaf e.sb with
    | false =>
        obtain ⟨u, hu, hs⟩ := h.turn_noLeaf hleaf hq' hc hnames
        refine ⟨u, hu, h.restored.step hs hplain ?_ (fun hsame => ?_) (by simp) h.apart
          (fun hyes => ?_) (fun hdata => ?_), hs.grows, fun hcmd => ?_⟩
        · rw [hnames]
          split_ifs
          · exact List.prefix_refl _
          · exact List.prefix_append q [c]
        · rw [hnames] at hsame
          split_ifs at hsame with hmakes
          · exact hmakes
          · simp at hsame
        · rw [hleaf] at hyes
          cases hyes
        · rw [isLeaf_of_data hdata] at hleaf
          cases hleaf
        · simp [isLeaf, hcmd, Cmd.isLink] at hleaf
    | true =>
        rcases h.restored.not_there hq hne hleaf fun e' he' => (h.apart e' he').2 with
          hnew | ⟨hdata, i, hi, hlink⟩
        · exact h.turn_leaf hleaf hplain hq' hc hnames (by rwa [← hnames])
        · rw [hnames] at hi
          obtain ⟨u, hu, hs⟩ := h.turn_there hdata hq' hc hnames hi hlink
          have hplainq := plain_concat hq' hc
          have hi' := hi.grows h.restored.ready hplainq hs.grows
          obtain ⟨place, hrooted⟩ := h.restored.ready.rooted
          have hlink' := (hs.grows.leads.others trivial (hrooted.kind_climb hplainq hi.1) hlink).2
          refine ⟨u, hu, h.restored.step hs hplain (by rw [hnames]; exact List.prefix_append q [c])
            (fun hsame => ?_) (by simp) h.apart (fun _ _ => ⟨i, by rwa [hnames]⟩)
            (fun _ j hj => ?_), hs.grows, fun hcmd => ?_⟩
          · rw [hnames] at hsame
            simp at hsame
          · rw [hnames, hi'.1, Option.some.injEq] at hj
            subst hj
            exact ⟨hi'.2, hlink'⟩
          · rw [hcmd] at hdata
            cases hdata
  · obtain ⟨u, hu, hsame⟩ := h.turn_root hroot hmakes
    have hno : isLeaf e.sb = false := by
      by_contra hleaf
      rw [makesDir_of_leaf (by simpa using hleaf)] at hmakes
      cases hmakes
    have hs : Step (base conf absolute) top [] none t u := Step.of_alike hsame h.restored.ready
    refine ⟨u, hu, h.restored.step hs hplain List.nil_prefix (fun _ => hmakes) (by simp)
      h.apart (fun hleaf => ?_) (fun hdata => ?_), hsame.grows, fun hcmd => ?_⟩
    · rw [hno] at hleaf
      cases hleaf
    · rw [isLeaf_of_data hdata] at hno
      cases hno
    · simp [isLeaf, hcmd, Cmd.isLink] at hno

end Turn

/-! ## §5. A run. -/

section Run

variable {conf : Settings} {absolute : Bool} {top i : Ino} {k l : Nat} {es : List Received}
  {e : Received} {fs t : Fs}

/-- There is nothing in the directory. -/
theorem Restore.first (h : Restore conf absolute top es fs) :
    Restored (base conf absolute) top [] fs := by
  obtain ⟨up, hnames⟩ := h.empty.names
  have hnone : ∀ {c : Inodes.Name}, plain c → fs.lookup top c = none := by
    intro c hc
    have hdot : (c == [46]) = false := by simpa using hc.2.1
    have hup : (c == [46, 46]) = false := by simpa using hc.2.2
    unfold Fs.lookup
    rw [hnames, if_neg hc.1]
    show List.lookup c [([46], top), ([46, 46], up)] = none
    rw [List.lookup_cons, hdot, List.lookup_cons, hup]
    rfl
  refine ⟨⟨h.empty.origin, fun i => if i = top then some [] else none, ?_⟩, ?_, by simp, by simp⟩
  · refine ⟨if_pos rfl, fun {d q} hd => ?_, fun {d q c i} hd hc hi => ?_⟩
    · split_ifs at hd with htop
      rw [htop, hnames]
      rfl
    · split_ifs at hd with htop
      rw [htop, hnone hc] at hi
      cases hi
  · intro a i ha hne hi
    cases a with
    | nil => exact absurd rfl hne
    | cons c a =>
        rw [Inodes.climb_cons, hnone (ha c (by simp))] at hi
        cases hi

theorem run_restored (h : Restore conf absolute top es fs) : ∀ k,
    (run conf (es.take k) fs).goesOn = true
      ∧ Restored (base conf absolute) top (es.take k) (run conf (es.take k) fs).fs
      ∧ Grows fs (run conf (es.take k) fs).fs := by
  intro k
  induction k with
  | zero => exact ⟨rfl, h.first, Grows.refl fs⟩
  | succ k ih =>
      obtain ⟨hon, hrestored, hgrows⟩ := ih
      cases he : es[k]? with
      | none =>
          have hall : es.take (k + 1) = es.take k := by
            rw [List.take_add_one, he, Option.toList_none, List.append_nil]
          rw [hall]
          exact ⟨hon, hrestored, hgrows⟩
      | some e =>
          obtain ⟨u, hu, hrestored', hgrows', -⟩ :=
            Next.turn_restored ⟨h, he, hrestored, hgrows⟩
          rw [run_take_succ he]
          unfold Turn.next
          rw [if_pos hon, hu]
          exact ⟨rfl, hrestored', hgrows.trans hgrows'⟩

/-- Later states have all paths of earlier ones. -/
theorem run_grows (h : Restore conf absolute top es fs) (hkl : k ≤ l) :
    Grows (run conf (es.take k) fs).fs (run conf (es.take l) fs).fs := by
  induction l, hkl using Nat.le_induction with
  | base => exact Grows.refl _
  | succ l _ ih =>
      cases he : es[l]? with
      | none =>
          rw [run_take_of_none he]
          exact ih
      | some e =>
          obtain ⟨hon, hrestored, hgrows⟩ := run_restored h l
          obtain ⟨u, hu, -, hgrows', -⟩ := Next.turn_restored ⟨h, he, hrestored, hgrows⟩
          rw [run_take_succ he]
          unfold Turn.next
          rw [if_pos hon, hu]
          exact ih.trans hgrows'

/-- What an entry's path is, wherever it is looked at. -/
theorem lstat_restored (h : Restore conf absolute top es fs) (he : e ∈ es)
    (hleaf : isLeaf e.sb = true)
    (hrestored : Restored (base conf absolute) top (es.take k) t) :
    t.lstat (base conf absolute ++ e.names) = t.climb top e.names := by
  obtain ⟨hne, hplain⟩ := h.leaf_names he hleaf
  obtain ⟨q, c, hnames⟩ := List.eq_nil_or_concat e.names |>.resolve_left hne
  rw [List.concat_eq_append] at hnames
  have hq : ∀ x ∈ q, plain x := fun x hx => hplain x (by rw [hnames]; simp [hx])
  have hc : plain c := hplain c (by rw [hnames]; simp)
  have honly := hrestored.onlyDirs hq hnames fun e' he' hne' =>
    h.apart he (List.mem_of_mem_take he') hne'
  obtain ⟨place, hrooted⟩ := hrestored.ready.rooted
  rw [hnames]
  exact Inodes.lstat_below hrestored.ready.origin hrooted hq hc honly

theorem Restore.hardLinked (h : Restore conf absolute top es fs) : HardLinked conf es fs := by
  intro k j e e' p q he hcmd hj he' hlinks hp hq
  have hmem := List.mem_of_getElem? he
  have hmem' := List.mem_of_getElem? he'
  have hleaf : isLeaf e.sb = true := by simp [isLeaf, hcmd, Cmd.isLink]
  obtain ⟨hne, hplain⟩ := h.leaf_names hmem hleaf
  obtain ⟨hne', hplain'⟩ := h.leaf_names hmem' hlinks.1
  rw [h.fullpath hmem hne hplain, Option.some.injEq] at hp
  rw [h.fullpath hmem' hne' hplain', Option.some.injEq] at hq
  subst hp hq
  -- the turn of the hard link
  obtain ⟨hon, hrestored, hgrows⟩ := run_restored h k
  obtain ⟨u, hu, hrestored', -, htarget⟩ := Next.turn_restored ⟨h, he, hrestored, hgrows⟩
  have htake : e' ∈ es.take k := List.mem_of_getElem? (i := j) (by
    rw [List.getElem?_take, if_pos hj, he'])
  obtain ⟨i, hi', hi⟩ := htarget hcmd e' htake hlinks
  have hnext : (run conf (es.take (k + 1)) fs).fs = u := by
    rw [run_take_succ he]
    unfold Turn.next
    rw [if_pos hon, hu]
  -- the turn of its target
  obtain ⟨-, hrestored'', -⟩ := run_restored h (j + 1)
  have hdone : e' ∈ es.take (j + 1) := List.mem_of_getElem? (i := j) (by
    rw [List.getElem?_take, if_pos (Nat.lt_succ_self j), he'])
  obtain ⟨i', hi''⟩ := hrestored''.done e' hdone hlinks.1 hlinks.2.1
  have hsame : i' = i := by
    have hlater := (run_grows h (k := j + 1) hj).climb hi''.1
    rw [hi'.1, Option.some.injEq] at hlater
    exact hlater.symm
  subst hsame
  -- and the end
  have hlen : k + 1 ≤ es.length := (List.getElem?_eq_some_iff.mp he).1
  obtain ⟨-, hend, -⟩ := run_restored h es.length
  have hfrom := run_grows h (k := k) (Nat.le_of_succ_le hlen)
  have hfrom' := run_grows h hlen
  rw [hnext] at hfrom'
  have hstat := lstat_restored h hmem hleaf hend
  have hstat' := lstat_restored h hmem' hlinks.1 hend
  have hstat'' := lstat_restored h hmem' hlinks.1 hrestored''
  rw [List.take_length] at hfrom hfrom' hstat hstat'
  refine ⟨i', hstat''.trans hi''.1, hstat'.trans (hfrom.climb hi'.1), hstat.trans ?_⟩
  exact hfrom'.climb hi.1

/-- A file and a hard link to it. -/
def twoNames : List Received := [received .file "/h/a/f" {}, receivedLink "/h/a/g" "/h/a/f"]

/-- The directory to restore into. -/
def emptyDir : Fs :=
  { inodes := [{ kind := .dir [([46], 0), ([46, 46], 0), ([114], 1)] },
      { kind := .dir [([46], 1), ([46, 46], 0)] }] }

theorem twoNames_manifest : Manifest true twoNames where
  cmd := by decide
  absolute := by decide
  path e he := Or.inl (by revert e; decide)
  special := by decide
  softLink := by decide
  apart := by decide
  hardLink := by
    intro k e he hcmd
    match k with
    | 0 => cases he; cases hcmd
    | 1 => cases he; exact ⟨0, _, Nat.zero_lt_one, rfl, by decide⟩
    | k + 2 => cases he

theorem twoNames_smooth : ∀ e ∈ twoNames, e.given.Smooth := by
  intro e he
  rcases List.mem_pair.mp he with rfl | rfl
  · exact ⟨fun _ _ _ => rfl, rfl, rfl, rfl⟩
  · exact ⟨fun _ _ _ => rfl, rfl, rfl, rfl⟩

end Run

end Burp.RestoreClient.Effects
