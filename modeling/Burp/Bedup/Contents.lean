/-
  Burp.Bedup.Contents — linking equal files changes no content (bedup.c).

  What is remembered of a file may be stale in its inode number, but its path, device, link
  count and checksums are true of what is on disk, and no two remembered files of a device
  have one content.  A file is replaced by a link only of a file with its bytes, and of one
  that has fewer links than the limit.

  Main results:
    * `Matched` — everything that can happen to a file equal to a remembered one.
    * `processFile_good` — one file: the memory stays true, and nothing is lost on disk.
    * `processDirs_eq` — a run is a walk over the files in the order they were listed.
    * `contents_kept` — a run keeps every path and every content, and raises no link count
      above the limit.
-/
import Burp.Bedup.CheckFiles

namespace Burp.Bedup

open FileSystem Crash

/-! ## §1. What a step may do to the disk. -/

/-- Every path keeps its content, and link counts are raised up to `max` only. -/
structure Kept (max : Nat) (t u : Node) : Prop where
  files : ∀ p i d, look t p = some (.file i d) → ∃ j, look u p = some (.file j d)
  others : ∀ p e, (∀ i d, e ≠ .file i d) → (look u p = some e ↔ look t p = some e)
  links : ∀ i, nlink u i ≤ nlink t i ∨ nlink u i ≤ max

theorem Kept.refl (max : Nat) (t : Node) : Kept max t t :=
  ⟨fun _ i _ h => ⟨i, h⟩, fun _ _ _ => Iff.rfl, fun _ => Or.inl (le_refl _)⟩

theorem Kept.trans {max : Nat} {t u v : Node} (h₁ : Kept max t u) (h₂ : Kept max u v) :
    Kept max t v := by
  constructor
  · intro p i d h
    obtain ⟨j, hj⟩ := h₁.files p i d h
    exact h₂.files p j d hj
  · intro p e he
    exact (h₂.others p e he).trans (h₁.others p e he)
  · intro i
    rcases h₁.links i with h | h <;> rcases h₂.links i with h' | h' <;> omega

theorem Kept.isDir {max : Nat} {t u : Node} (h : Kept max t u) (p : Path) :
    IsDir u p ↔ IsDir t p := h.others p .dir (by simp)

/-- Files of another device or another content than `d` are left alone. -/
def Steady (c : Settings) (dev : Nat) (d : Bytes) (t u : Node) : Prop :=
  ∀ p i e, look t p = some (.file i e) → (e = d → c.disks.dev i ≠ dev) →
    look u p = some (.file i e) ∧ nlink u i = nlink t i

theorem Steady.refl (c : Settings) (dev : Nat) (d : Bytes) (t : Node) : Steady c dev d t t :=
  fun _ _ _ h _ => ⟨h, rfl⟩

/-! ## §2. The memory. -/

/-- What is remembered in `e` is true of the file `i` at `p`, but for its inode number. -/
structure Tracks (c : Settings) (t : Node) (k : Nat) (e : File) (p : Path) (i : Nat) (d : Bytes) :
    Prop where
  path : e.path = some p
  look : look t p = some (.file i d)
  key : sizeKey d.length = k
  dev : e.dev = c.disks.dev i
  nlink : e.nlink = nlink t i
  sums : Sums c.md5 e d

theorem Tracks.openFile {c : Settings} {t : Node} {k : Nat} {e : File} {p : Path} {i : Nat}
    {d : Bytes} (h : Tracks c t k e p i d) : openFile t e = some d := by
  simp only [Bedup.openFile, h.path, Option.bind_some, h.look]

theorem Tracks.steady {c : Settings} {t u : Node} {k dev : Nat} {e : File} {p : Path} {i : Nat}
    {d' d : Bytes} (h : Tracks c t k e p i d') (hs : Steady c dev d t u)
    (hne : d' = d → e.dev ≠ dev) : Tracks c u k e p i d' := by
  obtain ⟨hlook, hnlink⟩ := hs p i d' h.look (h.dev ▸ hne)
  exact ⟨h.path, hlook, h.key, h.dev, h.nlink.trans hnlink.symm, h.sums⟩

theorem Tracks.refreshed {c : Settings} {t : Node} {k : Nat} {e f : File} {p : Path} {i : Nat}
    {d : Bytes} (h : Tracks c t k e p i d) (hr : Refreshed c.md5 t e f) :
    Tracks c t k f p i d :=
  ⟨hr.alike.path.trans h.path, h.look, h.key, hr.alike.dev.trans h.dev,
    hr.alike.nlink.trans h.nlink, hr.sums d h.openFile h.sums⟩

def Remembered (c : Settings) (t : Node) (k : Nat) (e : File) : Prop :=
  ∃ p i d, Tracks c t k e p i d

/-- The devices and the contents of the remembered files. -/
def held (t : Node) (fs : List File) : List (Nat × Option Bytes) :=
  fs.map fun e => (e.dev, openFile t e)

/-- The entries of one size: true of the disk, and no content twice on a device. -/
structure Group (c : Settings) (t : Node) (k : Nat) (fs : List File) : Prop where
  remembered : ∀ e ∈ fs, Remembered c t k e
  apart : (held t fs).Nodup

structure Good (c : Settings) (s : State) : Prop where
  sound : Sound s.tree
  groups : ∀ k, Group c s.tree k (s.myfiles k)

theorem start_good (c : Settings) {t : Node} (h : Sound t) : Good c (start t) :=
  ⟨h, fun _ => ⟨by simp [start], List.nodup_nil⟩⟩

theorem held_refreshed {md5 : Bytes → Nat} {t : Node} {fs gs : List File}
    (h : List.Forall₂ (Refreshed md5 t) fs gs) : held t gs = held t fs := by
  induction h with
  | nil => rfl
  | cons hr _ ih =>
      simp only [held, List.map_cons] at ih ⊢
      rw [ih, hr.alike.dev, hr.alike.openFile]

/-- Checksums that were made since change nothing. -/
theorem Group.refreshed {c : Settings} {t : Node} {k : Nat} {fs gs : List File}
    (hg : Group c t k fs) (h : List.Forall₂ (Refreshed c.md5 t) fs gs) : Group c t k gs := by
  constructor
  · have hmem := hg.remembered
    clear hg
    induction h with
    | nil => simp
    | cons hr _ ih =>
        intro e he
        rcases List.mem_cons.mp he with rfl | he
        · obtain ⟨p, i, d, htr⟩ := hmem _ List.mem_cons_self
          exact ⟨p, i, d, htr.refreshed hr⟩
        · exact ih (fun e he => hmem e (List.mem_cons_of_mem _ he)) e he
  · rw [held_refreshed h]
    exact hg.apart

/-- Entries that a step leaves alone. -/
theorem Remembered.steady {c : Settings} {t u : Node} {k dev : Nat} {e : File} {d : Bytes}
    (h : Remembered c t k e) (hs : Steady c dev d t u)
    (hne : (e.dev, openFile t e) ≠ (dev, some d)) :
    Remembered c u k e ∧ openFile u e = openFile t e := by
  obtain ⟨p, i, d', htr⟩ := h
  have htr' : Tracks c u k e p i d' := htr.steady hs fun hd hdev => hne (by
    rw [htr.openFile, hd, hdev])
  exact ⟨⟨p, i, d', htr'⟩, htr'.openFile.trans htr.openFile.symm⟩

theorem Group.steady {c : Settings} {t u : Node} {k dev : Nat} {fs : List File} {d : Bytes}
    (h : Group c t k fs) (hs : Steady c dev d t u)
    (hne : (dev, some d) ∉ held t fs) : Group c u k fs := by
  have hne' : ∀ e ∈ fs, (e.dev, openFile t e) ≠ (dev, some d) :=
    fun e he heq => hne (List.mem_map.mpr ⟨e, he, heq⟩)
  have hheld : held u fs = held t fs := by
    apply List.map_congr_left
    intro e he
    rw [((h.remembered e he).steady hs (hne' e he)).2]
  constructor
  · exact fun e he => ((h.remembered e he).steady hs (hne' e he)).1
  · rw [hheld]
    exact h.apart

/-- The other entries of a group have another device or another content. -/
theorem held_middle {t : Node} {pre post : List File} {f : File} {d : Bytes}
    (h : (held t (pre ++ f :: post)).Nodup) (hf : openFile t f = some d) :
    (f.dev, some d) ∉ held t (pre ++ post) ∧ (held t (pre ++ post)).Nodup := by
  rw [held, List.map_append, List.map_cons, List.nodup_middle, ← List.map_append,
    List.nodup_cons, hf] at h
  exact h

/-- One entry is replaced by one that has its device and its content. -/
theorem Group.replace {c : Settings} {t u : Node} {k : Nat} {pre post : List File} {f g : File}
    {d : Bytes} (h : Group c t k (pre ++ f :: post)) (hs : Steady c f.dev d t u)
    (hf : openFile t f = some d) (hg : Remembered c u k g) (hdev : g.dev = f.dev)
    (hopen : openFile u g = some d) : Group c u k (pre ++ g :: post) := by
  have hapart := held_middle h.apart hf
  have hrest : Group c u k (pre ++ post) := by
    refine Group.steady ⟨fun e he => h.remembered e ?_, hapart.2⟩ hs hapart.1
    simp only [List.mem_append, List.mem_cons] at he ⊢
    exact he.imp id Or.inr
  have hsame : held u (pre ++ post) = held t (pre ++ post) := by
    apply List.map_congr_left
    intro e he
    have hmem : e ∈ pre ++ f :: post := by
      simp only [List.mem_append, List.mem_cons] at he ⊢
      exact he.imp id Or.inr
    rw [((h.remembered e hmem).steady hs fun heq => hapart.1 (List.mem_map.mpr ⟨e, he, heq⟩)).2]
  constructor
  · intro e he
    simp only [List.mem_append, List.mem_cons] at he
    rcases he with he | rfl | he
    · exact hrest.remembered e (List.mem_append_left _ he)
    · exact hg
    · exact hrest.remembered e (List.mem_append_right _ he)
  · rw [held, List.map_append, List.map_cons, List.nodup_middle, ← List.map_append,
      List.nodup_cons]
    constructor
    · rw [hdev, hopen]
      change _ ∉ held u (pre ++ post)
      rw [hsame]
      exact hapart.1
    · exact hrest.apart

/-! ## §3. A file equal to a remembered one. -/

theorem doHardlink_final (ext : String) (o n : Path) (t : Node) :
    (doHardlink ext o n).final t = (relink n (tmpPath ext o) o).final t := by
  simp only [doHardlink, relink, Prog.final_bind]
  cases (link n (tmpPath ext o)).result t with
  | false => rfl
  | true =>
      simp only [if_true, Prog.final_bind]
      split_ifs <;> rfl

theorem doHardlink_result (ext : String) (o n : Path) (t : Node) :
    (doHardlink ext o n).result t = none ↔ (relink n (tmpPath ext o) o).result t = true := by
  simp only [doHardlink, relink, Prog.result_bind]
  cases (link n (tmpPath ext o)).result t with
  | false => simp
  | true =>
      simp only [if_true, Prog.result_bind]
      split_ifs with h <;> simp [h]

/-- **Everything that `check_files` can do with a file equal to a remembered one.**  The file
`n` is at `p` and has the inode `j`, the remembered `f` has the inode `i`, both hold `d`. -/
inductive Matched (c : Settings) (info : Info) (n f : File) (s : State) (p : Path) (i j : Nat)
    (d : Bytes) : File × File × State → Prop
  /-- Too many links: the memory is turned to the new file. -/
  | limit (hmax : c.maxlinks ≤ f.nlink) :
      Matched c info n f s p i j d
        ((resetOldFile f n info).1, (resetOldFile f n info).2, s)
  /-- Links are not made, equal files only counted. -/
  | counted (hmax : f.nlink < c.maxlinks) (hmake : c.makelinks = false) (s' : State)
      (htree : s'.tree = s.tree) (herr : s'.errors = s.errors) :
      Matched c info n f s p i j d (f, n, s')
  /-- The new file is a link of the remembered one now. -/
  | replaced (hmax : f.nlink < c.maxlinks) (hij : j ≠ i) (s' : State) (hwf : s'.tree.WF)
      (hlook : ∀ r, look s'.tree r = if r = p then some (.file i d) else look s.tree r)
      (hlinks : ∀ x, nlink s'.tree x + (if j = x then 1 else 0)
        = nlink s.tree x + if i = x then 1 else 0)
      (herr : s'.errors = s.errors) :
      Matched c info n f s p i j d ({ f with nlink := f.nlink + 1 }, n, s')
  /-- It was a link of it before: the temporary name is left over. -/
  | leftover (hmax : f.nlink < c.maxlinks) (hij : j = i) (s' : State) (hwf : s'.tree.WF)
      (htmp : look s.tree (tmpPath c.ext p) = none)
      (hlook : ∀ r, look s'.tree r
        = if r = tmpPath c.ext p then some (.file i d) else look s.tree r)
      (hlinks : ∀ x, nlink s'.tree x = nlink s.tree x + if i = x then 1 else 0)
      (herr : s'.errors = s.errors) :
      Matched c info n f s p i j d ({ f with nlink := f.nlink + 1 }, n, s')
  /-- The link could not be made: the memory is turned to the new file. -/
  | failed (hmax : f.nlink < c.maxlinks) (s' : State) (htree : s'.tree = s.tree)
      (herr : s'.errors ≠ []) :
      Matched c info n f s p i j d
        ((resetOldFile f n info).1, (resetOldFile f n info).2, s')

section Match

variable {c : Settings} {info : Info} {n f : File} {s : State} {p q : Path} {i j : Nat}
  {d : Bytes}

theorem tmpPath_dropLast (ext : String) (p : Path) : (tmpPath ext p).dropLast = p.dropLast := by
  rw [tmpPath, List.dropLast_concat]

theorem onMatch_cases (hwf : s.tree.WF) (hn : n.path = some p)
    (hp : look s.tree p = some (.file j d)) (hf : f.path = some q)
    (hq : look s.tree q = some (.file i d)) :
    Matched c info n f s p i j d (onMatch c info n f s) := by
  unfold onMatch
  by_cases hmax : c.maxlinks ≤ f.nlink
  · rw [if_pos hmax]
    exact .limit hmax
  · rw [if_neg hmax]
    have hlt : f.nlink < c.maxlinks := by omega
    cases hmake : c.makelinks with
    | false =>
        simp only [Bool.false_eq_true, if_false]
        exact .counted hlt hmake _ rfl rfl
    | true =>
        have hgetn : n.path.getD [] = p := by rw [hn, Option.getD_some]
        have hgetf : f.path.getD [] = q := by rw [hf, Option.getD_some]
        simp only [if_true, hgetn, hgetf, doHardlink_final]
        by_cases hready : look s.tree (tmpPath c.ext p) = none
            ∧ IsDir s.tree (tmpPath c.ext p).dropLast
        · have hdir := hready.2
          rw [tmpPath_dropLast] at hdir
          have hnil := ne_nil_of_isDir_dropLast hp hdir
          by_cases hij : j = i
          · obtain ⟨hres, hlook, hlinks⟩ := relink_same hq hnil (hij ▸ hp) hready.1 hready.2
            rw [(doHardlink_result _ _ _ _).mpr hres]
            refine .leftover hlt hij _ ?_ hready.1 ?_ ?_ ?_
            · exact relink_wf hwf
            · exact hlook
            · exact hlinks
            · rfl
          · obtain ⟨hres, hlook, hlinks⟩ := relink_other hwf hq hnil hp hij hready.1 hready.2
            rw [(doHardlink_result _ _ _ _).mpr hres]
            refine .replaced hlt hij _ ?_ ?_ ?_ ?_
            · exact relink_wf hwf
            · exact hlook
            · exact hlinks
            · rfl
        · obtain ⟨hres, hfin⟩ := relink_not_ready (p := q) (q := p) hready
          cases herr : (doHardlink c.ext p q).result s.tree with
          | none =>
              rw [(doHardlink_result _ _ _ _).mp herr] at hres
              simp at hres
          | some e => exact .failed hlt _ hfin (by simp)

theorem Matched.kept {r : File × File × State} (h : Matched c info n f s p i j d r)
    (hp : look s.tree p = some (.file j d)) (hnlink : f.nlink = nlink s.tree i) :
    Kept c.maxlinks s.tree r.2.2.tree := by
  cases h with
  | limit => exact Kept.refl _ _
  | counted hmax hmake s' htree herr => exact htree ▸ Kept.refl _ _
  | failed hmax s' htree herr => exact htree ▸ Kept.refl _ _
  | replaced hmax hij s' hwf hlook hlinks herr =>
      constructor
      · intro r k e hr
        show ∃ j, look s'.tree r = some (.file j e)
        rw [hlook]
        by_cases hrp : r = p
        · rw [hrp, hp, Option.some.injEq, Entry.file.injEq] at hr
          exact ⟨i, by rw [if_pos hrp, hr.2]⟩
        · exact ⟨k, by rw [if_neg hrp, hr]⟩
      · intro r e he
        show look s'.tree r = some e ↔ look s.tree r = some e
        rw [hlook]
        by_cases hrp : r = p
        · rw [if_pos hrp, hrp, hp]
          simp only [Option.some.injEq]
          exact ⟨fun heq => absurd heq.symm (he i d), fun heq => absurd heq.symm (he j d)⟩
        · rw [if_neg hrp]
      · intro x
        show nlink s'.tree x ≤ nlink s.tree x ∨ nlink s'.tree x ≤ c.maxlinks
        have := hlinks x
        by_cases hx : i = x
        · rw [← hx] at this ⊢
          rw [if_neg hij] at this
          simp only [if_true] at this
          omega
        · rw [if_neg hx] at this
          omega
  | leftover hmax hij s' hwf htmp hlook hlinks herr =>
      constructor
      · intro r k e hr
        show ∃ j, look s'.tree r = some (.file j e)
        have hrt : r ≠ tmpPath c.ext p := by
          intro h
          rw [h, htmp] at hr
          simp at hr
        exact ⟨k, by rw [hlook, if_neg hrt, hr]⟩
      · intro r e he
        show look s'.tree r = some e ↔ look s.tree r = some e
        rw [hlook]
        by_cases hrt : r = tmpPath c.ext p
        · rw [if_pos hrt, hrt, htmp]
          simp only [Option.some.injEq, reduceCtorEq, iff_false]
          exact fun heq => he i d heq.symm
        · rw [if_neg hrt]
      · intro x
        show nlink s'.tree x ≤ nlink s.tree x ∨ nlink s'.tree x ≤ c.maxlinks
        have := hlinks x
        by_cases hx : i = x
        · rw [← hx] at this ⊢
          simp only [if_true] at this
          omega
        · rw [if_neg hx] at this
          omega

theorem Matched.sound {r : File × File × State} (h : Matched c info n f s p i j d r)
    (hs : Sound s.tree) (hq : look s.tree q = some (.file i d)) : Sound r.2.2.tree := by
  cases h with
  | limit => exact hs
  | counted hmax hmake s' htree herr => exact htree ▸ hs
  | failed hmax s' htree herr => exact htree ▸ hs
  | replaced hmax hij s' hwf hlook hlinks herr => exact hs.of_look hwf hq hlook
  | leftover hmax hij s' hwf htmp hlook hlinks herr => exact hs.of_look hwf hq hlook

theorem Matched.steady {r : File × File × State} (h : Matched c info n f s p i j d r)
    (hs : Sound s.tree) (hp : look s.tree p = some (.file j d))
    (hq : look s.tree q = some (.file i d)) (hdev : c.disks.dev i = c.disks.dev j) :
    Steady c (c.disks.dev i) d s.tree r.2.2.tree := by
  -- a file with the inode of one of the two has their content and their device
  have hother : ∀ r k e, look s.tree r = some (.file k e) →
      (e = d → c.disks.dev k ≠ c.disks.dev i) → k ≠ i ∧ k ≠ j := by
    intro r k e hr hne
    constructor
    · intro hki
      exact hne (hs.oneData r q i e d (hki ▸ hr) hq) (by rw [hki])
    · intro hkj
      exact hne (hs.oneData r p j e d (hkj ▸ hr) hp) (by rw [hkj, hdev])
  cases h with
  | limit => exact Steady.refl _ _ _ _
  | counted hmax hmake s' htree herr => exact htree ▸ Steady.refl _ _ _ _
  | failed hmax s' htree herr => exact htree ▸ Steady.refl _ _ _ _
  | replaced hmax hij s' hwf hlook hlinks herr =>
      intro r k e hr hne
      obtain ⟨hki, hkj⟩ := hother r k e hr hne
      have hrp : r ≠ p := by
        intro hrp
        rw [hrp, hp, Option.some.injEq, Entry.file.injEq] at hr
        exact hkj hr.1.symm
      have hcount := hlinks k
      rw [if_neg (Ne.symm hkj), if_neg (Ne.symm hki)] at hcount
      exact ⟨by rw [hlook, if_neg hrp, hr], by omega⟩
  | leftover hmax hij s' hwf htmp hlook hlinks herr =>
      intro r k e hr hne
      obtain ⟨hki, -⟩ := hother r k e hr hne
      have hrt : r ≠ tmpPath c.ext p := by
        intro h
        rw [h, htmp] at hr
        simp at hr
      have hcount := hlinks k
      rw [if_neg (Ne.symm hki)] at hcount
      exact ⟨by rw [hlook, if_neg hrt, hr], by omega⟩

/-- The entry after the match: of the same device, and true of the disk again. -/
theorem Matched.tracks {r : File × File × State} {k : Nat}
    (h : Matched c info n f s p i j d r) (hn : Tracks c s.tree k n p j d)
    (hf : Tracks c s.tree k f q i d) (hdev : c.disks.dev i = c.disks.dev j)
    (hinfo : info.nlink = nlink s.tree j) :
    r.1.dev = f.dev ∧ ∃ p' i', Tracks c r.2.2.tree k r.1 p' i' d := by
  have hreset : Tracks c s.tree k (resetOldFile f n info).1 p j d :=
    ⟨hn.path, hn.look, hf.key, hf.dev.trans hdev, hinfo, ⟨hf.sums.part, hf.sums.full⟩⟩
  cases h with
  | limit => exact ⟨rfl, p, j, hreset⟩
  | counted hmax hmake s' htree herr => exact ⟨rfl, q, i, htree ▸ hf⟩
  | failed hmax s' htree herr => exact ⟨rfl, p, j, htree ▸ hreset⟩
  | replaced hmax hij s' hwf hlook hlinks herr =>
      have hqp : q ≠ p := by
        intro hqp
        have := hf.look
        rw [hqp, hn.look, Option.some.injEq, Entry.file.injEq] at this
        exact hij this.1
      have hcount := hlinks i
      rw [if_neg hij, if_pos rfl] at hcount
      refine ⟨rfl, q, i, hf.path, ?_, hf.key, hf.dev, ?_, hf.sums.part, hf.sums.full⟩
      · show look s'.tree q = some (.file i d)
        rw [hlook, if_neg hqp, hf.look]
      · show f.nlink + 1 = nlink s'.tree i
        have := hf.nlink
        omega
  | leftover hmax hij s' hwf htmp hlook hlinks herr =>
      have hqt : q ≠ tmpPath c.ext p := by
        intro h
        have := hf.look
        rw [h, htmp] at this
        simp at this
      have hcount := hlinks i
      rw [if_pos rfl] at hcount
      refine ⟨rfl, q, i, hf.path, ?_, hf.key, hf.dev, ?_, hf.sums.part, hf.sums.full⟩
      · show look s'.tree q = some (.file i d)
        rw [hlook, if_neg hqt, hf.look]
      · show f.nlink + 1 = nlink s'.tree i
        have := hf.nlink
        omega

end Match

/-! ## §4. One file. -/

/-- **Everything that a file can do to the state.** -/
inductive Visited (c : Settings) (s : State) (p : Path) : State → Prop
  /-- Not a regular file, or an empty one. -/
  | ignored (h : ∀ j d, look s.tree p = some (.file j d) → d = []) : Visited c s p s
  /-- No remembered file is its equal or a link of it: it is remembered. -/
  | remembered (j : Nat) (d : Bytes) (gs : List File) (n : File)
      (hgs : List.Forall₂ (Refreshed c.md5 s.tree) (s.myfiles (sizeKey d.length)) gs)
      (hn : Tracks c s.tree (sizeKey d.length) n p j d) (hino : n.ino = c.disks.ino j)
      (hpass : ∀ f ∈ gs, f.dev = n.dev → f.ino ≠ n.ino ∧ openFile s.tree f ≠ some d) :
      Visited c s p
        { s with myfiles := Function.update s.myfiles (sizeKey d.length) (n :: gs) }
  /-- A remembered file has its device and inode number. -/
  | linked (j : Nat) (d : Bytes) (gs : List File) (n f : File)
      (hgs : List.Forall₂ (Refreshed c.md5 s.tree) (s.myfiles (sizeKey d.length)) gs)
      (hn : Tracks c s.tree (sizeKey d.length) n p j d) (hino : n.ino = c.disks.ino j)
      (hmem : f ∈ gs) (hdev : f.dev = n.dev) (hfino : f.ino = n.ino) :
      Visited c s p { s with myfiles := Function.update s.myfiles (sizeKey d.length) gs }
  /-- A remembered file of its device has its content. -/
  | equal (j : Nat) (d : Bytes) (pre post : List File) (n f : File) (q : Path) (i : Nat)
      (r : File × File × State) (hd : d ≠ [])
      (hgs : List.Forall₂ (Refreshed c.md5 s.tree) (s.myfiles (sizeKey d.length))
        (pre ++ f :: post))
      (hn : Tracks c s.tree (sizeKey d.length) n p j d) (hino : n.ino = c.disks.ino j)
      (hf : Tracks c s.tree (sizeKey d.length) f q i d) (hdev : c.disks.dev i = c.disks.dev j)
      (hfino : f.ino ≠ n.ino) (hmatch : Matched c (c.lstat s.tree j d) n f s p i j d r) :
      Visited c s p
        { r.2.2 with
          myfiles := Function.update s.myfiles (sizeKey d.length) (pre ++ r.1 :: post) }

/-- What `check_files` makes of the outcome of its loop. -/
def checkedWith (s : State) (k : Nat) (r : List File × File × Bool × State) : State :=
  { r.2.2.2 with
    myfiles := Function.update s.myfiles k (if r.2.2.1 then r.1 else r.2.1 :: r.1) }

theorem processFile_cases {c : Settings} {s : State} (hg : Good c s) (p : Path) :
    Visited c s p (processFile c s p) := by
  unfold processFile
  cases hp : look s.tree p with
  | none => exact .ignored (by simp [hp])
  | some entry =>
      cases entry with
      | symlink x => exact .ignored (by simp [hp])
      | dir => exact .ignored (by simp [hp])
      | file j d =>
          simp only
          by_cases hd : d = []
          · rw [if_pos hd]
            exact .ignored (by simp [hp, hd])
          · rw [if_neg hd]
            generalize hnew : File.mk (some p) (c.lstat s.tree j d).dev (c.lstat s.tree j d).ino
              (c.lstat s.tree j d).nlink 0 0 = newfile
            have htr : Tracks c s.tree (sizeKey d.length) newfile p j d := by
              rw [← hnew]
              exact ⟨rfl, hp, rfl, rfl, rfl, Or.inl rfl, Or.inl rfl⟩
            have hino : newfile.ino = c.disks.ino j := by rw [← hnew]; rfl
            have hgroup := hg.groups (sizeKey d.length)
            show Visited c s p (if (s.myfiles (sizeKey d.length)).isEmpty then _ else _)
            by_cases hnil : s.myfiles (sizeKey d.length) = []
            · rw [hnil, List.isEmpty_nil, if_pos rfl]
              exact .remembered j d [] newfile (by rw [hnil]; exact .nil) htr hino (by simp)
            · rw [if_neg (by simpa using hnil)]
              obtain ⟨gs, n, hgs, halike, hsums, hlook⟩ :=
                checkLoop_spec c (c.lstat s.tree j d) s d (s.myfiles (sizeKey d.length)) newfile
                  htr.openFile htr.sums fun f hf => by
                    obtain ⟨q, i, e, hf⟩ := hgroup.remembered f hf
                    exact ⟨e, hf.openFile, hf.sums⟩
              have hn : Tracks c s.tree (sizeKey d.length) n p j d :=
                ⟨halike.path.trans htr.path, hp, rfl, halike.dev.trans htr.dev,
                  halike.nlink.trans htr.nlink, hsums⟩
              have hnino : n.ino = c.disks.ino j := halike.ino.trans hino
              have hgroup' := hgroup.refreshed hgs
              have hpath : ∀ f ∈ gs, f.path ≠ none := by
                intro f hf
                obtain ⟨q, i, e, hf⟩ := hgroup'.remembered f hf
                rw [hf.path]
                simp
              have hcheck : checkFiles c (c.lstat s.tree j d) newfile s
                  = checkedWith s (sizeKey d.length) (checkLoop c (c.lstat s.tree j d)
                    (s.myfiles (sizeKey d.length)) newfile s) := rfl
              rw [hcheck]
              generalize checkLoop c (c.lstat s.tree j d) (s.myfiles (sizeKey d.length)) newfile s
                = r at hlook ⊢
              cases hlook with
              | passed hpass =>
                  refine .remembered j d gs n hgs hn hnino fun f hf hdev => ?_
                  rw [halike.dev] at hdev
                  rw [halike.ino]
                  exact hpass f hf (hpath f hf) hdev
              | linked f hmem _ hdev hfino =>
                  exact .linked j d gs n f hgs hn hnino hmem (hdev.trans halike.dev.symm)
                    (hfino.trans halike.ino.symm)
              | equal pre f post hsplit _ hdev hfino hopen =>
                  subst hsplit
                  obtain ⟨q, i, e, hf⟩ := hgroup'.remembered f (by simp)
                  rw [hf.openFile, Option.some.injEq] at hopen
                  subst hopen
                  refine .equal j e pre post n f q i _ hd hgs hn hnino hf ?_ ?_ ?_
                  · rw [← hf.dev, hdev, htr.dev]
                  · rw [halike.ino]
                    exact hfino
                  · exact onMatch_cases hg.sound.wf hn.path hp hf.path hf.look

/-- **One file.**  The memory stays true of the disk, and the disk keeps its contents. -/
theorem processFile_good {c : Settings} {s : State} (hg : Good c s) (p : Path) :
    Good c (processFile c s p) ∧ Kept c.maxlinks s.tree (processFile c s p).tree := by
  have h := processFile_cases hg p
  generalize processFile c s p = s' at h ⊢
  cases h with
  | ignored => exact ⟨hg, Kept.refl _ _⟩
  | remembered j d gs n hgs hn hino hpass =>
      have hgroup := (hg.groups (sizeKey d.length)).refreshed hgs
      refine ⟨⟨hg.sound, fun k => ?_⟩, Kept.refl _ _⟩
      by_cases hk : k = sizeKey d.length
      · subst hk
        simp only [Function.update_self]
        constructor
        · intro e he
          rcases List.mem_cons.mp he with rfl | he
          · exact ⟨p, j, d, hn⟩
          · exact hgroup.remembered e he
        · rw [held, List.map_cons, List.nodup_cons]
          refine ⟨fun hmem => ?_, hgroup.apart⟩
          obtain ⟨f, hf, heq⟩ := List.mem_map.mp hmem
          simp only [Prod.mk.injEq, hn.openFile] at heq
          exact (hpass f hf heq.1).2 heq.2
      · simp only [Function.update_of_ne hk]
        exact hg.groups k
  | linked j d gs n f hgs hn hino hmem hdev hfino =>
      refine ⟨⟨hg.sound, fun k => ?_⟩, Kept.refl _ _⟩
      by_cases hk : k = sizeKey d.length
      · subst hk
        simp only [Function.update_self]
        exact (hg.groups _).refreshed hgs
      · simp only [Function.update_of_ne hk]
        exact hg.groups k
  | equal j d pre post n f q i r hd hgs hn hino hf hdev hfino hmatch =>
      have hsteady := hmatch.steady hg.sound hn.look hf.look hdev
      obtain ⟨hrdev, p', i', htr⟩ := hmatch.tracks hn hf hdev rfl
      refine ⟨⟨hmatch.sound hg.sound hf.look, fun k => ?_⟩, hmatch.kept hn.look hf.nlink⟩
      by_cases hk : k = sizeKey d.length
      · subst hk
        simp only [Function.update_self]
        exact ((hg.groups _).refreshed hgs).replace (hf.dev ▸ hsteady) hf.openFile
          ⟨p', i', d, htr⟩ hrdev htr.openFile
      · simp only [Function.update_of_ne hk]
        -- the entries of another size hold other contents
        refine (hg.groups k).steady hsteady fun hmem => ?_
        obtain ⟨e, he, heq⟩ := List.mem_map.mp hmem
        obtain ⟨p'', i'', d'', htr''⟩ := (hg.groups k).remembered e he
        rw [htr''.openFile, Prod.mk.injEq, Option.some.injEq] at heq
        rw [heq.2] at htr''
        exact hk htr''.key.symm

/-- **A run over files in any order.** -/
theorem foldl_good {c : Settings} (ps : List Path) {s : State} (hg : Good c s) :
    Good c (ps.foldl (processFile c) s)
      ∧ Kept c.maxlinks s.tree (ps.foldl (processFile c) s).tree := by
  induction ps generalizing s with
  | nil => exact ⟨hg, Kept.refl _ _⟩
  | cons p ps ih =>
      obtain ⟨hg', hkept⟩ := processFile_good hg p
      obtain ⟨hg'', hkept'⟩ := ih hg'
      exact ⟨hg'', hkept.trans hkept'⟩

/-! ## §5. The walk. -/

mutual

/-- The paths below a directory that are no directories, in the order they are listed. -/
def walkDir (burpMode : Bool) (t : Node) (path : Path) (level : Nat) : Listing → List Path
  | .names entries =>
      if IsDir t path then
        walkNames burpMode t path level (getLink t path "working") (getLink t path "finishing")
          entries
      else []

def walkNames (burpMode : Bool) (t : Node) (path : Path) (level : Nat)
    (working finishing : Bytes) : List (String × Listing) → List Path
  | [] => []
  | (name, below) :: entries =>
      if skipped burpMode level working finishing name then
        walkNames burpMode t path level working finishing entries
      else if IsDir t (path ++ [name]) then
        walkDir burpMode t (path ++ [name]) (level + 1) below
          ++ walkNames burpMode t path level working finishing entries
      else (path ++ [name]) :: walkNames burpMode t path level working finishing entries

end

def walk (burpMode : Bool) (t : Node) (dirs : List (Path × Listing)) : List Path :=
  dirs.flatMap fun d => walkDir burpMode t d.1 0 d.2

theorem getLink_kept {max : Nat} {t u : Node} (h : Kept max t u) (p : Path) (lnk : String) :
    getLink u p lnk = getLink t p lnk := by
  have hsame : ∀ x, look u (p ++ [lnk]) = some (.symlink x)
      ↔ look t (p ++ [lnk]) = some (.symlink x) := fun x => h.others _ _ (by simp)
  unfold getLink
  split
  next x hu => rw [(hsame x).mp hu]
  next hu =>
    split
    next x ht => exact absurd ((hsame x).mpr ht) (hu x)
    next => rfl

mutual

theorem processDir_eq {c : Settings} {burpMode : Bool} {t : Node} (path : Path) (level : Nat) :
    ∀ (l : Listing) (s : State), Good c s → Kept c.maxlinks t s.tree →
      processDir c burpMode path level l s
        = (walkDir burpMode t path level l).foldl (processFile c) s
  | .names entries, s, hg, hkept => by
      unfold processDir walkDir
      simp only [hkept.isDir, getLink_kept hkept]
      split_ifs with hdir
      · exact processNames_eq path level _ _ entries s hg hkept
      · rfl

theorem processNames_eq {c : Settings} {burpMode : Bool} {t : Node} (path : Path) (level : Nat)
    (working finishing : Bytes) :
    ∀ (entries : List (String × Listing)) (s : State), Good c s → Kept c.maxlinks t s.tree →
      processNames c burpMode path level working finishing entries s
        = (walkNames burpMode t path level working finishing entries).foldl (processFile c) s
  | [], s, _, _ => by rw [processNames, walkNames, List.foldl_nil]
  | (name, below) :: entries, s, hg, hkept => by
      unfold processNames walkNames
      simp only [hkept.isDir]
      split_ifs with hskip hdir
      · exact processNames_eq path level working finishing entries s hg hkept
      · rw [processDir_eq (path ++ [name]) (level + 1) below s hg hkept, List.foldl_append]
        obtain ⟨hg', hkept'⟩ := foldl_good
          (walkDir burpMode t (path ++ [name]) (level + 1) below) hg
        exact processNames_eq path level working finishing entries _ hg' (hkept.trans hkept')
      · rw [List.foldl_cons]
        obtain ⟨hg', hkept'⟩ := processFile_good hg (path ++ [name])
        exact processNames_eq path level working finishing entries _ hg' (hkept.trans hkept')

end

/-- **A run is a walk over files.**  Directories stay what they are, so the files that a run
visits, and their order, are known from the start. -/
theorem processDirs_eq (c : Settings) (burpMode : Bool) (dirs : List (Path × Listing)) {t : Node}
    (h : Sound t) :
    processDirs c burpMode dirs (start t)
      = (walk burpMode t dirs).foldl (processFile c) (start t) := by
  have hrun : ∀ (dirs : List (Path × Listing)) (s : State), Good c s →
      Kept c.maxlinks t s.tree →
      processDirs c burpMode dirs s = (walk burpMode t dirs).foldl (processFile c) s := by
    intro dirs
    induction dirs with
    | nil => intro s _ _; rfl
    | cons d dirs ih =>
        intro s hg hkept
        obtain ⟨hg', hkept'⟩ := foldl_good (walkDir burpMode t d.1 0 d.2) hg
        rw [walk, List.flatMap_cons, List.foldl_append, processDirs, List.foldl_cons,
          processDir_eq d.1 0 d.2 s hg hkept]
        exact ih _ hg' (hkept.trans hkept')
  exact hrun dirs (start t) (start_good c h) (Kept.refl _ _)

/-- **No content is lost, and no inode gets too many links.**  Whatever the directories, the
order in which they list their names, the devices, the links that were there and the limit:
every file keeps its path and its bytes, what is no file is as it was, and a link count that
was raised is within the limit. -/
theorem contents_kept (c : Settings) (burpMode : Bool) (dirs : List (Path × Listing)) (t : Node)
    (h : Sound t) :
    (∀ p i d, look t p = some (.file i d) →
        ∃ j, look (processDirs c burpMode dirs (start t)).tree p = some (.file j d))
      ∧ (∀ p e, look t p = some e → (∀ i d, e ≠ .file i d) →
        look (processDirs c burpMode dirs (start t)).tree p = some e)
      ∧ ∀ i, nlink t i < nlink (processDirs c burpMode dirs (start t)).tree i →
        nlink (processDirs c burpMode dirs (start t)).tree i ≤ c.maxlinks := by
  rw [processDirs_eq c burpMode dirs h]
  obtain ⟨-, hkept⟩ := foldl_good (walk burpMode t dirs) (start_good c h)
  refine ⟨hkept.files, fun p e hp he => (hkept.others p e he).mpr hp, fun i hi => ?_⟩
  rcases hkept.links i with hle | hle
  · exact absurd hle (by simpa [start] using hi)
  · exact hle

/-- One device, files that hold the letter `a`, links allowed up to `maxlinks`. -/
def oneDisk (maxlinks : Nat) : Settings :=
  { md5 := fun _ => 0xb975c10c
    disks := ⟨fun _ => 0, fun i => i, fun _ _ _ h => h⟩
    ext := ".bedup.7"
    maxlinks := maxlinks
    makelinks := true }

/-- Three files of one content, and two links of a fourth. -/
def equalFiles : Node :=
  .dir [("a", .file 1 [97]), ("b", .file 2 [97]), ("c", .file 3 [97]), ("d", .file 4 [97]),
    ("e", .file 4 [97])]

def equalNames : List (Path × Listing) :=
  [([], .names [("a", .names []), ("b", .names []), ("c", .names []), ("d", .names []),
    ("e", .names [])])]

theorem equalFiles_sound : Sound equalFiles := by
  refine Sound.of_mapData (fun _ => [97]) ?_ rfl
  simp [equalFiles, Node.WF, WFEntries]

theorem contents_kept_equalFiles :
    (∀ p i d, look equalFiles p = some (.file i d) →
        ∃ j, look (processDirs (oneDisk 3) false equalNames (start equalFiles)).tree p
          = some (.file j d))
      ∧ (∀ p e, look equalFiles p = some e → (∀ i d, e ≠ .file i d) →
        look (processDirs (oneDisk 3) false equalNames (start equalFiles)).tree p = some e)
      ∧ ∀ i, nlink equalFiles i
          < nlink (processDirs (oneDisk 3) false equalNames (start equalFiles)).tree i →
        nlink (processDirs (oneDisk 3) false equalNames (start equalFiles)).tree i ≤ 3 :=
  contents_kept (oneDisk 3) false equalNames equalFiles equalFiles_sound

end Burp.Bedup
