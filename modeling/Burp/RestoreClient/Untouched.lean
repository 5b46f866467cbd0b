/-
  Burp.RestoreClient.Untouched — a restore without the overwrite option.

  `overwrite_ok` looks at the path of an entry, but not of every entry: metadata is always
  restored, and so is anything that comes with the stat of a directory.  For data it asks first
  whether the path is a fifo, of a `struct stat` that `lstat` has not filled yet.  And a hard
  link may be made to a file that was there, whose attributes are set then.

  Main results:
    * `turn_extends` — one turn keeps all that was there, if it keeps clear of these.
    * `untouched_of_clear` — so does a run, and it does not depend on what has not been
      initialised.
-/
import Burp.RestoreClient.Effects

namespace Burp.RestoreClient.Effects

open Inodes (Fs Ino Extends)
open FileSystem Burp.Store Burp.Phase2

/-! ## §1. What the option promises. -/

/-- The same, with whatever was in memory. -/
def Received.Alike (e e' : Received) : Prop := e'.sb = e.sb ∧ e'.given = e.given

/-- In every state that is reached, what was there is as it was, and the result depends on
nothing that has not been initialised. -/
def Untouched (conf : Settings) (es : List Received) (fs : Fs) : Prop :=
  (∀ (k : Nat) (p : Inodes.Path), Inodes.Unchanged fs (run conf (es.take k) fs).fs p)
    ∧ ∀ es', List.Forall₂ Received.Alike es es' → run conf es' fs = run conf es fs

/-! ## §2. Keeping clear of what was there. -/

instance (fs₀ : Fs) (o : Option Ino) : Decidable (Clear fs₀ o) :=
  match o with
  | none => isTrue fun _ h => by cases h
  | some i =>
      decidable_of_iff (¬ fs₀.Solid i)
        ⟨fun h _ hi => by cases hi; exact h, fun h => h i rfl⟩

/-- A link takes the place of what has its name, data goes to where the path leads, and
metadata is set on both. -/
structure Avoids (fs₀ : Fs) (sb : Sbuf) (p : Inodes.Path) (fs : Fs) : Prop where
  lstat : sb.cmd.isLink = true ∨ isMeta sb.cmd = true → Clear fs₀ (fs.lstat p)
  stat : sb.cmd.isLink = false → Clear fs₀ (fs.stat p)

instance (fs₀ : Fs) (sb : Sbuf) (p : Inodes.Path) (fs : Fs) : Decidable (Avoids fs₀ sb p fs) :=
  decidable_of_iff
    ((sb.cmd.isLink = true ∨ isMeta sb.cmd = true → Clear fs₀ (fs.lstat p))
      ∧ (sb.cmd.isLink = false → Clear fs₀ (fs.stat p)))
    ⟨fun h => ⟨h.1, h.2⟩, fun h => ⟨h.lstat, h.stat⟩⟩

/-- The entry for the path `p`, in a restore that began with `fs₀`. -/
structure KeepsClear ( restoreprefix : Bytes) (fs₀ : Fs) (e : Received) (p : Inodes.Path) (fs : Fs) :
    Prop where
  /-- Data for a path that is there is refused or not by what has not been initialised. -/
  data : e.sb.cmd = .file ∨ e.sb.cmd = .encFile → e.sb.statp.isDir = false → fs.lstat p = none
  /-- The stat of a directory makes `overwrite_ok` look no further.  A directory, or a node that
  cannot be made of it, does no harm. -/
  dirStat : e.sb.statp.isDir = true → isMeta e.sb.cmd = false → e.sb.cmd ≠ .directory →
    e.sb.cmd ≠ .special → Avoids fs₀ e.sb p fs
  metadata : isMeta e.sb.cmd = true → Avoids fs₀ e.sb p (beforeMetadata e.given e.sb p fs)
  /-- The attributes of what a hard link leads to are set. -/
  hardLink : e.sb.cmd = .hardLink → ∀ u t, buildPath e.given p fs = (u, true) →
    makeLink e.given p (e.sb.linkto.getD []) .hardLink restoreprefix u = (t, true) →
    Clear fs₀ (t.stat p)

/-- Every turn keeps clear of what was there when the restore began. -/
def KeptClear (conf : Settings) (es : List Received) (fs : Fs) : Prop :=
  ∀ k e, es[k]? = some e → (run conf (es.take k) fs).goesOn = true →
    ∀ p, fullpath conf e.sb = some p →
      KeepsClear conf.restoreprefix fs e p (run conf (es.take k) fs).fs

/-! ## §3. One turn. -/

section Turn

variable {conf : Settings} {e : Received} {p : Inodes.Path} {fs₀ fs : Fs}

theorem Avoids.of_lstat {sb : Sbuf} (h : fs.lstat p = none) : Avoids fs₀ sb p fs where
  lstat _ i hi := by
    rw [h] at hi
    cases hi
  stat _ i hi := by
    rw [Inodes.stat_eq_none h] at hi
    cases hi

/-- **What `overwrite_ok` lets through**: what it does not look at, or a path that is not
there. -/
theorem avoids_of_overwriteOk (hover : conf.overwrite = false)
    (h : KeepsClear conf.restoreprefix fs₀ e p fs)
    (hok : overwriteOk conf (finds e.isFifo fs p) e.sb = true) (hmeta : isMeta e.sb.cmd = false)
    (hdir : e.sb.cmd ≠ .directory) :
    e.sb.cmd ≠ .special ∨ e.sb.statp.isDir = false → Avoids fs₀ e.sb p fs := by
  intro hspecial
  by_cases hstat : e.sb.statp.isDir = true
  · exact h.dirStat hstat hmeta hdir (hspecial.resolve_right (by simp [hstat]))
  · refine Avoids.of_lstat ?_
    rw [Bool.not_eq_true] at hstat
    by_cases hdata : e.sb.cmd = .file ∨ e.sb.cmd = .encFile
    · exact h.data hdata hstat
    · unfold isMeta at hmeta
      rw [Bool.or_eq_false_iff] at hmeta
      unfold overwriteOk finds at hok
      simp only [hover, hstat, hmeta, hdata, Bool.not_false, Bool.and_self, if_true,
        Bool.false_eq_true, if_false, false_and, Bool.not_eq_true', Option.isSome_eq_false_iff,
        Option.isNone_iff_eq_none] at hok
      exact hok

theorem isDir_of_nodeKind {s : Stat} (h : nodeKind s ≠ none) : s.isDir = false := by
  unfold Stat.isDir
  rw [decide_eq_false_iff_not]
  intro hdir
  unfold nodeKind at h
  rw [hdir] at h
  exact h rfl

theorem restoreEntry_extends (hover : conf.overwrite = false) (hext : Extends fs₀ fs)
    (h : KeepsClear conf.restoreprefix fs₀ e p fs)
    (hok : overwriteOk conf (finds e.isFifo fs p) e.sb = true) :
    Extends fs₀ (restoreEntry conf e.given e.sb p fs).fs := by
  have havoids := avoids_of_overwriteOk hover h hok
  unfold restoreEntry
  cases hcmd : e.sb.cmd
  case directory => exact restoreDir_extends hext
  case file | vssT | encFile | encVssT | efsFile =>
    have hclear := havoids (by simp [hcmd, isMeta, Cmd.isMetadata, Cmd.isVss]) (by simp [hcmd])
      (Or.inl (by simp [hcmd]))
    exact restoreFile_extends hext (by simp [hcmd]) (hclear.stat (by simp [hcmd, Cmd.isLink]))
  case softLink | hardLink =>
    have hclear := havoids (by simp [hcmd, isMeta, Cmd.isMetadata, Cmd.isVss]) (by simp [hcmd])
      (Or.inl (by simp [hcmd]))
    exact restoreLink_extends hext (by simp [hcmd, Cmd.isLink])
      (hclear.lstat (by simp [hcmd, Cmd.isLink])) h.hardLink
  case special =>
    refine restoreSpecial_extends hext (by simp [hcmd]) fun hnode => ?_
    have hclear := havoids (by simp [hcmd, isMeta, Cmd.isMetadata, Cmd.isVss]) (by simp [hcmd])
      (Or.inr (isDir_of_nodeKind hnode))
    exact hclear.stat (by simp [hcmd, Cmd.isLink])
  case metadata | vss | encMetadata | encVss =>
    have hmeta : isMeta e.sb.cmd = true := by simp [hcmd, isMeta, Cmd.isMetadata, Cmd.isVss]
    have hclear := h.metadata hmeta
    exact restoreMetadata_extends hext (by simp [hcmd]) (hclear.lstat (Or.inr hmeta))
      (hclear.stat (by simp [hcmd, Cmd.isLink]))
  all_goals exact hext

/-- **One turn.** -/
theorem turn_extends (hover : conf.overwrite = false) (hext : Extends fs₀ fs)
    (h : ∀ p, fullpath conf e.sb = some p → KeepsClear conf.restoreprefix fs₀ e p fs) :
    Extends fs₀ (turn conf e fs).fs := by
  unfold turn
  split_ifs with hentry
  · split
    · exact hext
    · rename_i p hp
      split_ifs with hok
      · exact restoreEntry_extends hover hext (h p hp) hok
      · exact hext
  · unfold restoreEntry
    cases hcmd : e.sb.cmd <;> first | exact hext | simp [hcmd, Entry] at hentry

/-- What is in memory is not asked where it matters. -/
theorem turn_alike (hover : conf.overwrite = false) {e' : Received} (halike : e.Alike e')
    (h : ∀ p, fullpath conf e.sb = some p → KeepsClear conf.restoreprefix fs₀ e p fs) :
    turn conf e' fs = turn conf e fs := by
  obtain ⟨hsb, hgiven⟩ := halike
  unfold turn
  rw [hsb, hgiven]
  cases hp : fullpath conf e.sb with
  | none => rfl
  | some p =>
      have hok : overwriteOk conf (finds e'.isFifo fs p) e.sb
          = overwriteOk conf (finds e.isFifo fs p) e.sb := by
        unfold overwriteOk finds
        by_cases hdata : e.sb.cmd = .file ∨ e.sb.cmd = .encFile
        · cases hstat : e.sb.statp.isDir with
          | true => simp [hover]
          | false => simp [(h p hp).data hdata hstat]
        · simp [hdata]
      simp only [hok]

end Turn

/-! ## §4. A run. -/

section Run

variable {conf : Settings} {es : List Received} {fs : Fs}

/-- **A run**: all that was there is kept in every state. -/
theorem run_extends (hover : conf.overwrite = false) (h : KeptClear conf es fs) :
    ∀ k, Extends fs (run conf (es.take k) fs).fs := by
  intro k
  induction k with
  | zero => exact Extends.refl fs
  | succ k ih =>
      cases he : es[k]? with
      | none =>
          rw [run_take_of_none he]
          exact ih
      | some e =>
          rw [run_take_succ he]
          unfold Turn.next
          split_ifs with hon
          · exact turn_extends hover ih fun p hp => h k e he hon p hp
          · exact ih

/-- Runs on the same entries are the same. -/
theorem run_alike (hover : conf.overwrite = false) (h : KeptClear conf es fs)
    {es' : List Received} (halike : List.Forall₂ Received.Alike es es') :
    ∀ k, run conf (es'.take k) fs = run conf (es.take k) fs := by
  intro k
  induction k with
  | zero => rfl
  | succ k ih =>
      cases he : es[k]? with
      | none =>
          have he' : es'[k]? = none := by
            rw [List.getElem?_eq_none_iff] at he ⊢
            rwa [← halike.length_eq]
          rw [run_take_of_none he, run_take_of_none he', ih]
      | some e =>
          obtain ⟨hlt, rfl⟩ := List.getElem?_eq_some_iff.mp he
          have hlt' : k < es'.length := by rwa [← halike.length_eq]
          have he' : es'[k]? = some es'[k] := List.getElem?_eq_getElem hlt'
          have hsame : es[k].Alike es'[k] := halike.get hlt hlt'
          rw [run_take_succ he, run_take_succ he', ih]
          unfold Turn.next
          split_ifs with hon
          · exact turn_alike hover hsame fun p hp => h k _ he hon p hp
          · rfl

/-- **A restore without the overwrite option** leaves alone what was there, if every turn keeps
clear of it. -/
theorem untouched_of_clear (hover : conf.overwrite = false) (h : KeptClear conf es fs) :
    Untouched conf es fs := by
  refine ⟨fun k p => (run_extends hover h k).unchanged p, fun es' halike => ?_⟩
  have hrun := run_alike hover h halike es.length
  rw [List.take_length, halike.length_eq, List.take_length] at hrun
  exact hrun

/-- A file system with one file in it. -/
def oneFile : Fs :=
  { inodes := [{ kind := .dir [([46], 0), ([46, 46], 0), ([102], 1)] },
      { kind := .file [120], attrs := { mode := 0o600, uid := 7 } }] }

/-- A file that is not there, a hard link to it, and its metadata. -/
def newFile : List Received :=
  [received .file "/g" { data := [121] }, receivedLink "/h" "/g",
    received .metadata "/g" { metadata := some (nameBytes "A00000006u::rw-") }]

/-- It leaves the other file alone. -/
theorem newFile_untouched : ({} : Settings).overwrite = false ∧ KeptClear {} newFile oneFile
    ∧ Untouched {} newFile oneFile := by
  have hclear : KeptClear {} newFile oneFile := by
    intro k e he hon p hp
    match k with
    | 0 =>
        cases he
        cases hp
        exact ⟨by decide, by decide, by decide,
          fun h => absurd h (by decide)⟩
    | 1 =>
        cases he
        cases hp
        refine ⟨by decide, by decide, by decide, fun _ u t hu ht => ?_⟩
        obtain rfl := congrArg Prod.fst hu
        obtain rfl := congrArg Prod.fst ht
        decide
    | 2 =>
        cases he
        cases hp
        exact ⟨by decide, by decide, by decide,
          fun h => absurd h (by decide)⟩
    | k + 3 => cases he
  exact ⟨rfl, hclear, untouched_of_clear rfl hclear⟩

/-- A file that is there, which is refused. -/
def oldFile : List Received := [received .file "/f" { data := [121] }]

/-- Its metadata, which is not. -/
def oldMetadata : List Received :=
  [received .metadata "/f" { metadata := some (nameBytes "A00000006u::rw-") }]

/-- **What the option does not prevent**: the file is written to if memory says so, and metadata
or a hard link set its attributes. -/
theorem oldFile_touched : ({} : Settings).overwrite = false ∧ ¬ Untouched {} oldFile oneFile
    ∧ ¬ Untouched {} (oldFile ++ oldMetadata) oneFile
    ∧ ¬ Untouched {} (oldFile ++ [receivedLink "/h" "/f"]) oneFile := by
  refine ⟨rfl, fun h => ?_, fun h => ?_, fun h => ?_⟩
  · have hsame := h.2 [{ received .file "/f" { data := [121] } with isFifo := true }]
      (List.Forall₂.cons ⟨rfl, rfl⟩ List.Forall₂.nil)
    exact absurd hsame (by decide)
  all_goals
    have hsame := h.1 2 [[], [102]] 1 { kind := .file [120], attrs := { mode := 0o600, uid := 7 } }
      (by decide) rfl rfl
    exact absurd hsame.2 (by decide)

end Run

end Burp.RestoreClient.Effects
