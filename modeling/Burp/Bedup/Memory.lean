/-
  Burp.Bedup.Memory — when what is remembered is what is on disk (bedup.c).

  A remembered file that has as many links as are allowed is replaced in the memory by the
  file that was found equal to it: its path and its link count are overwritten, its inode
  number is not.  A later link of the new file is then not known for one, is linked to it
  once more, and keeps its temporary name, since `rename` of two links of one file does
  nothing.

  Main results:
    * `step_current` — a file that does not meet that limit keeps the memory current and
      leaves no name behind.
    * `step_stale` — a file that meets it makes the memory stale at once.
    * `current_iff` — so a run without link errors keeps memory and names in order just when
      no file meets the limit.
-/
import Burp.Bedup.Contents

namespace Burp.Bedup

open FileSystem Crash

/-! ## §1. The memory and the disk. -/

/-- An entry with a path holds the device, inode number and link count of what is there. -/
def Holds (c : Settings) (t : Node) (e : File) : Prop :=
  ∀ p, e.path = some p → ∃ i d, look t p = some (.file i d)
    ∧ e.dev = c.disks.dev i ∧ e.ino = c.disks.ino i ∧ e.nlink = nlink t i

def Current (c : Settings) (s : State) : Prop := ∀ k, ∀ e ∈ s.myfiles k, Holds c s.tree e

/-- `process_dir` calls `check_files` for this path. -/
def ChecksFiles (s : State) (p : Path) : Prop :=
  ∃ i d, look s.tree p = some (.file i d) ∧ d ≠ [] ∧ s.myfiles (sizeKey d.length) ≠ []

/-- The path holds what a remembered file of its device has, under another inode number, and
that file has as many links as are allowed. -/
def AtLimit (c : Settings) (s : State) (p : Path) : Prop :=
  ∃ j d, look s.tree p = some (.file j d) ∧ d ≠ []
    ∧ ∃ f ∈ s.myfiles (sizeKey d.length), f.dev = c.disks.dev j ∧ f.ino ≠ c.disks.ino j
      ∧ openFile s.tree f = some d ∧ c.maxlinks ≤ f.nlink

/-- `P` holds at every file of a run, before the file is processed. -/
def Along (c : Settings) (P : State → Path → Prop) : State → List Path → Prop
  | _, [] => True
  | s, p :: ps => P s p ∧ Along c P (processFile c s p) ps

theorem start_current (c : Settings) (t : Node) : Current c (start t) :=
  fun _ e he => absurd he (by simp [start])

/-! ## §2. Entries. -/

section Entries

variable {c : Settings} {t : Node} {e f : File} {p : Path} {i : Nat} {d : Bytes} {k : Nat}

theorem Holds.alike (h : Holds c t e) (ha : Alike e f) : Holds c t f := by
  intro p hp
  obtain ⟨i, d, hlook, hdev, hino, hnlink⟩ := h p (ha.path ▸ hp)
  exact ⟨i, d, hlook, ha.dev.trans hdev, ha.ino.trans hino, ha.nlink.trans hnlink⟩

theorem Tracks.holds (h : Tracks c t k e p i d) (hino : e.ino = c.disks.ino i) :
    Holds c t e := by
  intro p' hp'
  rw [h.path, Option.some.injEq] at hp'
  exact ⟨i, d, hp' ▸ h.look, h.dev, hino, h.nlink⟩

/-- A current entry has the inode number of the file it tracks. -/
theorem Tracks.ino (h : Tracks c t k e p i d) (hc : Holds c t e) : e.ino = c.disks.ino i := by
  obtain ⟨i', d', hlook, -, hino, -⟩ := hc p h.path
  rw [h.look, Option.some.injEq, Entry.file.injEq] at hlook
  rw [hino, hlook.1]

/-- An entry that a step leaves alone stays current. -/
theorem Holds.steady {u : Node} {dev : Nat} (h : Holds c t e) (hr : Remembered c t k e)
    (hs : Steady c dev d t u) (hne : (e.dev, openFile t e) ≠ (dev, some d)) : Holds c u e := by
  obtain ⟨p, i, d', htr⟩ := hr
  have htr' : Tracks c u k e p i d' := htr.steady hs fun hd hdev => hne (by
    rw [htr.openFile, hd, hdev])
  exact htr'.holds (htr.ino h)

/-- Two entries of one device and content are one. -/
theorem Group.eq_of_held {fs : List File} (h : Group c t k fs) (he : e ∈ fs) (hf : f ∈ fs)
    (hdev : e.dev = f.dev) (hopen : openFile t e = openFile t f) : e = f :=
  List.inj_on_of_nodup_map h.apart he hf (by rw [hdev, hopen])

/-- The entry that the loop left of one of the memory. -/
theorem exists_refreshed {md5 : Bytes → Nat} {fs gs : List File}
    (h : List.Forall₂ (Refreshed md5 t) fs gs) (hf : f ∈ fs) :
    ∃ g ∈ gs, Refreshed md5 t f g := by
  induction h with
  | nil => simp at hf
  | cons hr _ ih =>
      rcases List.mem_cons.mp hf with rfl | hf
      · exact ⟨_, List.mem_cons_self, hr⟩
      · obtain ⟨g, hg, hfg⟩ := ih hf
        exact ⟨g, List.mem_cons_of_mem _ hg, hfg⟩

theorem exists_before_refreshed {md5 : Bytes → Nat} {fs gs : List File}
    (h : List.Forall₂ (Refreshed md5 t) fs gs) (hg : f ∈ gs) :
    ∃ e ∈ fs, Refreshed md5 t e f := by
  induction h with
  | nil => simp at hg
  | cons hr _ ih =>
      rcases List.mem_cons.mp hg with rfl | hg
      · exact ⟨_, List.mem_cons_self, hr⟩
      · obtain ⟨e, he, hef⟩ := ih hg
        exact ⟨e, List.mem_cons_of_mem _ he, hef⟩

end Entries

/-! ## §3. One file. -/

variable {c : Settings} {s : State} {p : Path}

/-- Link errors stay logged. -/
theorem errors_of_processFile (hg : Good c s) (h : (processFile c s p).errors = []) :
    s.errors = [] := by
  have hv := processFile_cases hg p
  generalize processFile c s p = s' at h hv
  cases hv with
  | ignored => exact h
  | remembered => exact h
  | linked => exact h
  | equal j d pre post n f q i r hd hgs hn hino hf hdev hfino hmatch =>
      cases hmatch with
      | limit => exact h
      | counted hmax hmake s' htree herr => exact herr ▸ h
      | replaced hmax hij s' hwf hlook hlinks herr => exact herr ▸ h
      | leftover hmax hij s' hwf htmp hlook hlinks herr => exact herr ▸ h
      | failed hmax s' htree herr => exact absurd h herr

/-- **A file below the limit.**  The memory stays current, and no name comes or goes. -/
theorem step_current (hg : Good c s) (hc : Current c s) (hlim : ¬ AtLimit c s p)
    (herr : (processFile c s p).errors = []) :
    Current c (processFile c s p)
      ∧ ∀ q, look (processFile c s p).tree q = none ↔ look s.tree q = none := by
  have hv := processFile_cases hg p
  generalize processFile c s p = s' at herr hv ⊢
  -- the loop may make checksums in any case
  have hcur : ∀ {k gs}, List.Forall₂ (Refreshed c.md5 s.tree) (s.myfiles k) gs →
      ∀ e ∈ gs, Holds c s.tree e := by
    intro k gs hgs e he
    obtain ⟨e', he', hr⟩ := exists_before_refreshed hgs he
    exact (hc k e' he').alike hr.alike
  cases hv with
  | ignored => exact ⟨hc, fun _ => Iff.rfl⟩
  | remembered j d gs n hgs hn hino hpass =>
      refine ⟨fun k e he => ?_, fun _ => Iff.rfl⟩
      by_cases hk : k = sizeKey d.length
      · subst hk
        simp only [Function.update_self, List.mem_cons] at he
        rcases he with rfl | he
        · exact hn.holds hino
        · exact hcur hgs e he
      · simp only [Function.update_of_ne hk] at he
        exact hc k e he
  | linked j d gs n f hgs hn hino hmem hdev hfino =>
      refine ⟨fun k e he => ?_, fun _ => Iff.rfl⟩
      by_cases hk : k = sizeKey d.length
      · subst hk
        simp only [Function.update_self] at he
        exact hcur hgs e he
      · simp only [Function.update_of_ne hk] at he
        exact hc k e he
  | equal j d pre post n f q i r hd hgs hn hino hf hdev hfino hmatch =>
      have hsteady := hmatch.steady hg.sound hn.look hf.look hdev
      obtain ⟨hrdev, p', i', htr⟩ := hmatch.tracks hn hf hdev rfl
      have hgroup := (hg.groups (sizeKey d.length)).refreshed hgs
      have hfi : f.ino = c.disks.ino i := hf.ino (hcur hgs f (by simp))
      -- the entry that was matched is current again, and the names are the same
      have hentry : Holds c r.2.2.tree r.1
          ∧ ∀ q, look r.2.2.tree q = none ↔ look s.tree q = none := by
        cases hmatch with
        | limit hmax =>
            obtain ⟨e, he, hr⟩ := exists_before_refreshed hgs (by simp : f ∈ pre ++ f :: post)
            refine absurd ⟨j, d, hn.look, hd, e, he, ?_, ?_, ?_, ?_⟩ hlim
            · rw [← hr.alike.dev, hf.dev, hdev]
            · rw [← hr.alike.ino, ← hino]
              exact hfino
            · rw [← hr.alike.openFile, hf.openFile]
            · rw [← hr.alike.nlink]
              exact hmax
        | counted hmax hmake s' htree herr =>
            exact ⟨htree ▸ hf.holds hfi, fun _ => by rw [htree]⟩
        | failed hmax s' htree herr' => exact absurd herr herr'
        | leftover hmax hij => exact absurd (by rw [hfi, hino, hij]) hfino
        | replaced hmax hij s' hwf hlook hlinks herr =>
            constructor
            · have hqp : q ≠ p := by
                intro hqp
                have := hf.look
                rw [hqp, hn.look, Option.some.injEq, Entry.file.injEq] at this
                exact hij this.1
              have hcount := hlinks i
              rw [if_neg hij, if_pos rfl] at hcount
              intro q' hq'
              have hq'' : q = q' := Option.some.inj (hf.path.symm.trans hq')
              refine ⟨i, d, ?_, hf.dev, hfi, ?_⟩
              · show look s'.tree q' = some (.file i d)
                rw [← hq'', hlook, if_neg hqp, hf.look]
              · show f.nlink + 1 = nlink s'.tree i
                have := hf.nlink
                omega
            · intro q
              show look s'.tree q = none ↔ look s.tree q = none
              rw [hlook]
              by_cases hqp : q = p
              · rw [if_pos hqp, hqp, hn.look]
                simp
              · rw [if_neg hqp]
      refine ⟨fun k e he => ?_, hentry.2⟩
      -- every other entry has another device or content, and is left alone
      have hleft : ∀ e, Remembered c s.tree k e → Holds c s.tree e →
          (e.dev, openFile s.tree e) ≠ (c.disks.dev i, some d) → Holds c r.2.2.tree e :=
        fun e hr hh hne => hh.steady hr hsteady hne
      by_cases hk : k = sizeKey d.length
      · subst hk
        simp only [Function.update_self] at he
        have hapart := held_middle hgroup.apart hf.openFile
        rw [hf.dev] at hapart
        have hmem : ∀ e ∈ pre ++ post, Holds c r.2.2.tree e := by
          intro e he
          have he' : e ∈ pre ++ f :: post := by
            simp only [List.mem_append, List.mem_cons] at he ⊢
            exact he.imp id Or.inr
          exact hleft e (hgroup.remembered e he') (hcur hgs e he')
            fun heq => hapart.1 (List.mem_map.mpr ⟨e, he, heq⟩)
        simp only [List.mem_append, List.mem_cons] at he
        rcases he with he | rfl | he
        · exact hmem e (List.mem_append_left _ he)
        · exact hentry.1
        · exact hmem e (List.mem_append_right _ he)
      · simp only [Function.update_of_ne hk] at he
        obtain ⟨p'', i'', d'', htr''⟩ := (hg.groups k).remembered e he
        refine hleft e ⟨p'', i'', d'', htr''⟩ (hc k e he) fun heq => hk ?_
        rw [htr''.openFile, Prod.mk.injEq, Option.some.injEq] at heq
        rw [← htr''.key, heq.2]

/-- **A file at the limit.**  `check_files` is called, and the entry it leaves has the inode
number of the file that was remembered before. -/
theorem step_stale (hg : Good c s) (hc : Current c s) (hlim : AtLimit c s p) :
    ChecksFiles s p ∧ ¬ Current c (processFile c s p) := by
  obtain ⟨j, d, hp, hd, f, hmem, hfdev, hfino, hopen, hmax⟩ := hlim
  refine ⟨⟨j, d, hp, hd, List.ne_nil_of_mem hmem⟩, fun hcur => ?_⟩
  have hv := processFile_cases hg p
  generalize processFile c s p = s' at hcur hv
  -- the loop meets the same inode and the same bytes as `lstat`
  have hsame : ∀ {j' d' k n}, Tracks c s.tree k n p j' d' → j' = j ∧ d' = d := by
    intro j' d' k n hn
    have := hn.look
    rw [hp, Option.some.injEq, Entry.file.injEq] at this
    exact ⟨this.1.symm, this.2.symm⟩
  cases hv with
  | ignored h => exact hd (h j d hp)
  | remembered j' d' gs n hgs hn hino hpass =>
      obtain ⟨rfl, rfl⟩ := hsame hn
      obtain ⟨g, hgmem, hr⟩ := exists_refreshed hgs hmem
      refine (hpass g hgmem ?_).2 (hr.alike.openFile.trans hopen)
      rw [hr.alike.dev, hfdev, hn.dev]
  | linked j' d' gs n g hgs hn hino hgmem hgdev hgino =>
      obtain ⟨rfl, rfl⟩ := hsame hn
      have hgroup := (hg.groups (sizeKey d'.length)).refreshed hgs
      obtain ⟨f', hfmem, hr⟩ := exists_refreshed hgs hmem
      obtain ⟨q, i, e, htr⟩ := hgroup.remembered g hgmem
      -- the current entry `g` has the inode of the file, so also its content
      have hgi : g.ino = c.disks.ino i := by
        obtain ⟨g', hg', hr'⟩ := exists_before_refreshed hgs hgmem
        exact htr.ino ((hc _ g' hg').alike hr'.alike)
      have hij : i = j' := by
        apply c.disks.inj
        · rw [← htr.dev, hgdev, hn.dev]
        · rw [← hgi, hgino, hino]
      have hed : e = d' := hg.sound.oneData q p i e d' htr.look (hij ▸ hp)
      have heq : g = f' := by
        refine hgroup.eq_of_held hgmem hfmem ?_ ?_
        · rw [hr.alike.dev, hfdev, hgdev, hn.dev]
        · rw [hr.alike.openFile, hopen, htr.openFile, hed]
      exact hfino (by rw [← hr.alike.ino, ← heq, hgino, hino])
  | equal j' d' pre post n g q i r hd' hgs hn hino hf hdev hgino hmatch =>
      obtain ⟨rfl, rfl⟩ := hsame hn
      have hgroup := (hg.groups (sizeKey d'.length)).refreshed hgs
      obtain ⟨f', hfmem, hr⟩ := exists_refreshed hgs hmem
      have heq : g = f' := by
        refine hgroup.eq_of_held (by simp) hfmem ?_ ?_
        · rw [hr.alike.dev, hfdev, hf.dev, hdev]
        · rw [hr.alike.openFile, hopen, hf.openFile]
      have hgmax : c.maxlinks ≤ g.nlink := by
        rw [heq, hr.alike.nlink]
        exact hmax
      cases hmatch with
      | limit =>
          have hentry := hcur (sizeKey d'.length) (resetOldFile g n (c.lstat s.tree j' d')).1
            (by simp)
          obtain ⟨i', e, hlook, -, hstale, -⟩ := hentry p hn.path
          rw [hp, Option.some.injEq, Entry.file.injEq] at hlook
          exact hgino (by rw [hino, hlook.1]; exact hstale)
      | counted hlt => omega
      | replaced hlt => omega
      | leftover hlt => omega
      | failed hlt => omega

/-! ## §4. A run. -/

theorem errors_of_foldl (ps : List Path) (hg : Good c s)
    (h : (ps.foldl (processFile c) s).errors = []) : s.errors = [] := by
  induction ps generalizing s with
  | nil => exact h
  | cons p ps ih => exact errors_of_processFile hg (ih (processFile_good hg p).1 h)

theorem run_current (ps : List Path) (hg : Good c s) (hc : Current c s)
    (herr : (ps.foldl (processFile c) s).errors = [])
    (hlim : Along c (fun s p => ¬ AtLimit c s p) s ps) :
    Along c (fun s p => ChecksFiles s p → Current c (processFile c s p)) s ps
      ∧ ∀ q, look (ps.foldl (processFile c) s).tree q = none ↔ look s.tree q = none := by
  induction ps generalizing s with
  | nil => exact ⟨trivial, fun _ => Iff.rfl⟩
  | cons p ps ih =>
      have hg' := (processFile_good hg p).1
      obtain ⟨hc', hnames⟩ := step_current hg hc hlim.1 (errors_of_foldl ps hg' herr)
      obtain ⟨halong, hnames'⟩ := ih hg' hc' herr hlim.2
      exact ⟨⟨fun _ => hc', halong⟩, fun q => (hnames' q).trans (hnames q)⟩

theorem run_below_limit (ps : List Path) (hg : Good c s) (hc : Current c s)
    (herr : (ps.foldl (processFile c) s).errors = [])
    (hcur : Along c (fun s p => ChecksFiles s p → Current c (processFile c s p)) s ps) :
    Along c (fun s p => ¬ AtLimit c s p) s ps := by
  induction ps generalizing s with
  | nil => trivial
  | cons p ps ih =>
      have hg' := (processFile_good hg p).1
      have hlim : ¬ AtLimit c s p := by
        intro hlim
        obtain ⟨hchecks, hstale⟩ := step_stale hg hc hlim
        exact hstale (hcur.1 hchecks)
      have hc' := (step_current hg hc hlim (errors_of_foldl ps hg' herr)).1
      exact ⟨hlim, ih hg' hc' herr hcur.2⟩

/-- **When memory and names stay in order.**  In a run without link errors, the memory is
current after every call of `check_files` and the names at the end are those of the start,
just when no file is equal to a remembered one that has as many links as are allowed. -/
theorem current_iff (c : Settings) (burpMode : Bool) (dirs : List (Path × Listing)) (t : Node)
    (h : Sound t) (herr : (processDirs c burpMode dirs (start t)).errors = []) :
    (Along c (fun s p => ChecksFiles s p → Current c (processFile c s p)) (start t)
          (walk burpMode t dirs)
        ∧ ∀ q, look (processDirs c burpMode dirs (start t)).tree q = none ↔ look t q = none)
      ↔ Along c (fun s p => ¬ AtLimit c s p) (start t) (walk burpMode t dirs) := by
  rw [processDirs_eq c burpMode dirs h] at herr ⊢
  have hg := start_good c h
  have hc := start_current c t
  constructor
  · intro hall
    exact run_below_limit _ hg hc herr hall.1
  · intro hlim
    exact run_current _ hg hc herr hlim

theorem current_iff_equalFiles :
    (Along (oneDisk 10000) (fun s p => ChecksFiles s p → Current (oneDisk 10000)
            (processFile (oneDisk 10000) s p)) (start equalFiles) (walk false equalFiles equalNames)
        ∧ ∀ q, look (processDirs (oneDisk 10000) false equalNames (start equalFiles)).tree q = none
          ↔ look equalFiles q = none)
      ↔ Along (oneDisk 10000) (fun s p => ¬ AtLimit (oneDisk 10000) s p) (start equalFiles)
        (walk false equalFiles equalNames) :=
  current_iff (oneDisk 10000) false equalNames equalFiles equalFiles_sound (by decide +kernel)

/-- With three links allowed, the third file is linked and the fourth is remembered instead, as
inode 1 under the path `d`; the link `e` of `d` is then linked to it again, and its temporary
name stays. -/
theorem equalFiles_stale :
    (processDirs (oneDisk 3) false equalNames (start equalFiles)).errors = []
      ∧ ¬ (Along (oneDisk 3) (fun s p => ChecksFiles s p → Current (oneDisk 3)
              (processFile (oneDisk 3) s p)) (start equalFiles) (walk false equalFiles equalNames))
      ∧ ¬ ∀ q, look (processDirs (oneDisk 3) false equalNames (start equalFiles)).tree q = none
          ↔ look equalFiles q = none := by
  refine ⟨by decide +kernel, fun halong => ?_, fun hnames => ?_⟩
  · obtain ⟨-, -, -, hd, -⟩ := halong
    obtain ⟨i, e, hlook, -, hino, -⟩ :=
      hd ⟨4, [97], by decide +kernel, by decide, by decide +kernel⟩ 1
        ⟨some ["d"], 0, 1, 2, 0xb975c10c, 0xb975c10c⟩ (by decide +kernel) ["d"] rfl
    have hfour : look (processFile (oneDisk 3) (processFile (oneDisk 3) (processFile (oneDisk 3)
        (processFile (oneDisk 3) (start equalFiles) ["a"]) ["b"]) ["c"]) ["d"]).tree ["d"]
          = some (.file 4 [97]) := by decide +kernel
    have heq := hlook.symm.trans hfour
    rw [Option.some.injEq, Entry.file.injEq] at heq
    rw [heq.1] at hino
    exact absurd hino (by decide)
  · have := (hnames ["e.bedup.7"]).mpr (by decide +kernel)
    revert this
    decide +kernel

end Burp.Bedup
