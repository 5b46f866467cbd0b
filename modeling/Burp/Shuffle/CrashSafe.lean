/-
  Burp.Shuffle.CrashSafe — one attempt at patching a file, from wherever the last one
  was killed.

  Up to its last rename an attempt at `jiggle` only writes files that are its own: the new
  file, `inflate`, `sig.tmp` and the reverse delta.  `Ready` collects what the next attempt
  needs, and every operation before the rename keeps it.  The delicate
  file is `inflate`: it is a file of its own when the old file is inflated or copied,
  but a hard link of the old file when that is stored uncompressed.

  Main results:
    * `inflateOrLinkOldfile_spec` — the content of the old file gets to `inflate`.
    * `jigglePatch_spec` — from a state that can start over, patching ends with the new
      file in place, and a kill leaves either such a state or the finished one.
-/
import Burp.Shuffle.Jiggle

namespace Burp.Shuffle

open Crash FileSystem Burp.Store

/-! ## §1. Where the files are. -/

namespace Job

/-- The files of its own that an attempt writes before it is done. -/
def IsScratch (j : Job) (p : Path) : Prop :=
  p = j.infpath ∨ p = j.newpath ∨ p = j.sigpath ∨ p = j.delpath

/-- The paths whose directories an attempt makes, with the limit given to `mkpath`. -/
def Branch (j : Job) (limit p : Path) : Prop :=
  (limit = j.datadir ∧ p = j.finpath) ∨ (limit = j.datadirtmp ∧ p = j.newpath)
    ∨ (limit = j.deltabdir ∧ p = j.delpath)

/-- The paths of a job do not get in each other's way. -/
structure Apart (j : Job) : Prop where
  datapth : j.datapth ≠ []
  old : ¬ j.IsScratch j.oldpath
  fin : ¬ j.IsScratch j.finpath
  old_fin : j.oldpath ≠ j.finpath
  delta_old : j.deltafpath ≠ j.oldpath
  delta_fin : j.deltafpath ≠ j.finpath
  delta : ∀ p, j.IsScratch p → p ≠ j.infpath → p ≠ j.deltafpath
  inf : j.newpath ≠ j.infpath ∧ j.sigpath ≠ j.infpath ∧ j.delpath ≠ j.infpath
  new : j.sigpath ≠ j.newpath ∧ j.delpath ≠ j.newpath ∧ j.sigpath ≠ j.delpath
  grow : ∀ {limit p}, j.Branch limit p → ∀ {q}, limit <+: q → q <+: p → q ≠ p →
    ¬ j.IsScratch q ∧ q ≠ j.finpath
  limits : j.datadir ≠ [] ∧ j.datadirtmp ≠ [] ∧ j.deltabdir ≠ [] ∧ j.sigpath ≠ []
  datadirtmp : j.datadirtmp.dropLast = j.datadir.dropLast
  sigpath : j.sigpath.dropLast = j.deltabdir.dropLast

end Job

theorem Job.Apart.old_ne {j : Job} (hj : j.Apart) {p : Path} (hp : j.IsScratch p) :
    j.oldpath ≠ p := by
  rintro rfl
  exact hj.old hp

theorem Job.Apart.fin_ne {j : Job} (hj : j.Apart) {p : Path} (hp : j.IsScratch p) :
    j.finpath ≠ p := by
  rintro rfl
  exact hj.fin hp

/-- The directories of phase 4 are apart. -/
theorem shuffleJob_apart (fin : String) {datapth : Path} (hd : datapth ≠ []) (block : Nat)
    (record : Bytes) (hardlinked : Bool) (compression : Int) :
    (shuffleJob fin datapth block record hardlinked compression).Apart := by
  constructor <;> simp only [Job.IsScratch, Job.Branch, Job.infpath, Job.newpath, Job.delpath,
    Job.oldpath, Job.finpath, Job.deltafpath, shuffleJob]
  case datapth => exact hd
  case grow =>
    rintro limit p (⟨rfl, rfl⟩ | ⟨rfl, rfl⟩ | ⟨rfl, rfl⟩) q ⟨r, rfl⟩ hqp hne
    all_goals simp_all
  case delta =>
    rintro p (rfl | rfl | rfl | rfl) hne <;> simp_all
  all_goals simp

/-! ## §2. States that can start over. -/

/-- How the old file gets to `inflate`: inflated, copied because it has too many links,
or linked although there will be too many, which does no harm to an empty file. -/
inductive Basis (c : Codec) (conf : Conf) (j : Job) (io : Nat) (ob : Bytes) (t : Node) : Prop
  | inflate (comp : dpthIsCompressed j.compression j.oldpath = true) (own : Own t j.infpath)
  | copy (comp : dpthIsCompressed j.compression j.oldpath = false) (own : Own t j.infpath)
      (links : conf.maxHardlinks ≤ nlink t io)
  | absent (comp : dpthIsCompressed j.compression j.oldpath = false) (empty : ob = [])
      (gone : look t j.infpath = none) (links : nlink t io + 1 = conf.maxHardlinks)
  | linked (comp : dpthIsCompressed j.compression j.oldpath = false) (empty : ob = [])
      (there : look t j.infpath = some (.file io ob)) (links : nlink t io = conf.maxHardlinks)

/-- The new file is not in place, and nothing that is needed to make it is missing.  `D`
are directories that have been made on the way. -/
structure Ready (c : Codec) (conf : Conf) (j : Job) (io : Nat) (ob : Bytes) (jd : Nat)
    (db : Bytes) (D : List Path) (t : Node) : Prop where
  wf : t.WF
  root : IsDir t j.datadir.dropLast
  dup : IsDir t j.deltabdir.dropLast
  fwd : IsDir t j.deltafdir
  made : ∀ q ∈ D, IsDir t q
  old : look t j.oldpath = some (.file io ob)
  delta : look t j.deltafpath = some (.file jd db)
  fin : look t j.finpath = none
  apart : j.deltafpath ≠ j.infpath
  inos : jd ≠ io
  clear : ∀ {limit p}, j.Branch limit p → Clear limit p t
  own : ∀ {p}, j.IsScratch p → p ≠ j.infpath → Own t p
  basis : Basis c conf j io ob t

namespace Ready

variable {c : Codec} {conf : Conf} {j : Job} {io jd : Nat} {ob db : Bytes} {D : List Path}
  {t u : Node}

theorem scratch_ne_delta (hj : j.Apart) (h : Ready c conf j io ob jd db D t) {p : Path}
    (hp : j.IsScratch p) : p ≠ j.deltafpath := by
  by_cases hinf : p = j.infpath
  · rw [hinf]
    exact Ne.symm h.apart
  · exact hj.delta p hp hinf

theorem clear_changed (hj : j.Apart) (h : Ready c conf j io ob jd db D t) {p : Path}
    (hp : j.IsScratch p) {v : Option Entry} (hch : Changed t u p v) {limit q : Path}
    (hb : j.Branch limit q) : Clear limit q u := by
  intro r hl hr hne
  have hrp : r ≠ p := by
    rintro rfl
    exact (hj.grow hb hl hr hne).1 hp
  have := h.clear hb r hl hr hne
  unfold IsDir at this ⊢
  rwa [hch.look_ne hrp]

/-- A scratch file changes: all that is left to show is the state of `inflate`. -/
theorem changed (hj : j.Apart) (h : Ready c conf j io ob jd db D t) {p : Path} (hp : j.IsScratch p)
    {v : Option Entry} (hv : v = none ∨ ∃ i d, v = some (.file i d)) (hch : Changed t u p v)
    (hnew : ∀ q, IsDir t q → q ≠ p) (hbasis : Basis c conf j io ob u) :
    Ready c conf j io ob jd db D u where
  wf := hch.wf h.wf
  root := (hch.look_ne (hnew _ h.root)).trans h.root
  dup := (hch.look_ne (hnew _ h.dup)).trans h.dup
  fwd := (hch.look_ne (hnew _ h.fwd)).trans h.fwd
  made := fun q hq => (hch.look_ne (hnew _ (h.made q hq))).trans (h.made q hq)
  old := (hch.look_ne (hj.old_ne hp)).trans h.old
  delta := (hch.look_ne (Ne.symm (h.scratch_ne_delta hj hp))).trans h.delta
  fin := (hch.look_ne (hj.fin_ne hp)).trans h.fin
  apart := h.apart
  inos := h.inos
  clear := fun hb => h.clear_changed hj hp hch hb
  own := fun hq hne => (h.own hq hne).changed hch hv
  basis := hbasis

/-- A scratch file other than `inflate` changes. -/
theorem changed_ne (hj : j.Apart) (h : Ready c conf j io ob jd db D t) {p : Path}
    (hp : j.IsScratch p) (hinf : p ≠ j.infpath) {v : Option Entry}
    (hv : v = none ∨ ∃ i d, v = some (.file i d)) (hch : Changed t u p v) :
    Ready c conf j io ob jd db D u := by
  have hlinks : nlink u io = nlink t io :=
    hch.links j.oldpath io ob (hj.old_ne hp) h.old
  have hlook : look u j.infpath = look t j.infpath := hch.look_ne (Ne.symm hinf)
  refine h.changed hj hp hv hch (fun q hq => (h.own hp hinf).isDir_ne hq) ?_
  cases h.basis with
  | inflate comp own => exact .inflate comp (own.changed hch hv)
  | copy comp own links => exact .copy comp (own.changed hch hv) (by rw [hlinks]; exact links)
  | absent comp empty gone links =>
      exact .absent comp empty (hlook.trans gone) (by rw [hlinks]; exact links)
  | linked comp empty there links =>
      exact .linked comp empty (hlook.trans there) (by rw [hlinks]; exact links)

/-- `mkpath` for one of the three branches. -/
theorem grown (hj : j.Apart) (h : Ready c conf j io ob jd db D t) {limit p : Path}
    (hb : j.Branch limit p) (hg : Grown limit p t u) : Ready c conf j io ob jd db D u := by
  have hsame : ∀ q, j.IsScratch q ∨ q = j.finpath → look u q = look t q := by
    intro q hq
    apply hg.look_of_not_prefix
    by_contra hnot
    push Not at hnot
    obtain ⟨hl, hqp, hne⟩ := hnot
    have := hj.grow hb hl hqp hne
    rcases hq with hq | hq
    · exact this.1 hq
    · exact this.2 hq
  have hinf := hsame j.infpath (Or.inl (Or.inl rfl))
  refine ⟨hg.wf h.wf, hg.isDir h.root, hg.isDir h.dup, hg.isDir h.fwd,
    fun q hq => hg.isDir (h.made q hq), hg.look_of_some h.old, hg.look_of_some h.delta,
        (hsame _ (Or.inr rfl)).trans h.fin, h.apart, h.inos, ?_, ?_, ?_⟩
  · intro limit' p' hb' r hl hr hne
    rcases hg.grown r with hu | ⟨-, hu, -⟩
    · have := h.clear hb' r hl hr hne
      unfold IsDir at this ⊢
      rwa [hu]
    · exact Or.inr hu
  · intro q hq hne
    exact hg.own (h.own hq hne) (hsame q (Or.inl hq))
  · cases h.basis with
    | inflate comp own => exact .inflate comp (hg.own own hinf)
    | copy comp own links => exact .copy comp (hg.own own hinf) (by rw [hg.links]; exact links)
    | absent comp empty gone links =>
        exact .absent comp empty (hinf.trans gone) (by rw [hg.links]; exact links)
    | linked comp empty there links =>
        exact .linked comp empty (hinf.trans there) (by rw [hg.links]; exact links)

/-- The link `inflate` of the old file is made or removed. -/
theorem relink (hj : j.Apart) (h : Ready c conf j io ob jd db D t) {v : Option Entry}
    (hv : v = none ∨ v = some (.file io ob)) (hleaf : ∀ q, IsDir t q → q ≠ j.infpath)
    (hlook : ∀ r, look u r = if r = j.infpath then v else look t r) (hwf : u.WF)
    (hbasis : Basis c conf j io ob u) : Ready c conf j io ob jd db D u := by
  have hne : ∀ {q}, q ≠ j.infpath → look u q = look t q := fun hq => by rw [hlook, if_neg hq]
  have hdir : ∀ {q}, IsDir t q → IsDir u q := fun {q} hq => (hne (hleaf q hq)).trans hq
  refine ⟨hwf, hdir h.root, hdir h.dup, hdir h.fwd, fun q hq => hdir (h.made q hq),
    (hne (hj.old_ne (Or.inl rfl))).trans h.old, (hne h.apart).trans h.delta,
    (hne (hj.fin_ne (Or.inl rfl))).trans h.fin, h.apart, h.inos, ?_, ?_, hbasis⟩
  · intro limit p hb r hl hr hrp
    have hrinf : r ≠ j.infpath := by
      rintro rfl
      exact (hj.grow hb hl hr hrp).1 (Or.inl rfl)
    rcases h.clear hb r hl hr hrp with hr' | hr'
    · exact Or.inl ((hne hrinf).trans hr')
    · exact Or.inr (hdir hr')
  · intro p hp hinf
    obtain ⟨hown, hpriv⟩ := h.own hp hinf
    refine ⟨by rw [hne hinf]; exact hown, ?_⟩
    intro i d hi r e hr
    rw [hne hinf] at hi
    by_cases hrinf : r = j.infpath
    · -- the link is of the old file, which is no scratch file
      rw [hlook, if_pos hrinf] at hr
      rcases hv with rfl | rfl
      · simp at hr
      · simp only [Option.some.injEq, Entry.file.injEq] at hr
        have := hpriv i d hi j.oldpath ob (by rw [h.old, hr.1])
        exact absurd this (hj.old_ne hp)
    · rw [hne hrinf] at hr
      exact hpriv i d hi r e hr

/-- Writing nothing to the empty old file, through its link `inflate`. -/
theorem onInode (hj : j.Apart) (h : Ready c conf j io ob jd db D t)
    (comp : dpthIsCompressed j.compression j.oldpath = false) (empty : ob = [])
    (there : look t j.infpath = some (.file io ob)) (links : nlink t io = conf.maxHardlinks)
    {f : Bytes → Bytes} (hf : f [] = []) :
    Ready c conf j io ob jd db D (FileSystem.onInode io f t) := by
  have hfile : ∀ {q k e}, look (FileSystem.onInode io f t) q = some (.file k e) →
      ∃ e', look t q = some (.file k e') := by
    intro q k e hq
    rw [look_onInode] at hq
    cases hl : look t q with
    | none => rw [hl] at hq; simp at hq
    | some x =>
        rw [hl] at hq
        cases x <;> simp_all [Entry.mapData]
  have hio : ∀ {q}, look t q = some (.file io ob) →
      look (FileSystem.onInode io f t) q = some (.file io ob) := by
    intro q hq
    rw [look_onInode, hq]
    simp [Entry.mapData, empty, hf]
  have hother : ∀ {q k e}, look t q = some (.file k e) → k ≠ io →
      look (FileSystem.onInode io f t) q = some (.file k e) := by
    intro q k e hq hk
    rw [look_onInode, hq]
    simp [Entry.mapData, hk]
  have hnone : ∀ {q}, look t q = none → look (FileSystem.onInode io f t) q = none := by
    intro q hq
    rw [look_onInode, hq]
    rfl
  have hdir : ∀ {q}, IsDir t q → IsDir (FileSystem.onInode io f t) q := by
    intro q hq
    unfold IsDir at hq ⊢
    rw [look_onInode, hq]
    rfl
  have hlinks : ∀ k, nlink (FileSystem.onInode io f t) k = nlink t k := by
    intro k
    rw [nlink, FileSystem.onInode, inodes_mapData, nlink]
  refine ⟨wf_mapData _ _ h.wf, hdir h.root, hdir h.dup, hdir h.fwd,
    fun q hq => hdir (h.made q hq), hio h.old,
    hother h.delta h.inos, hnone h.fin, h.apart, h.inos, ?_, ?_, ?_⟩
  · intro limit p hb r hl hr hrp
    rcases h.clear hb r hl hr hrp with hr' | hr'
    · exact Or.inl (hnone hr')
    · exact Or.inr (hdir hr')
  · intro p hp hinf
    obtain ⟨hleaf, hpriv⟩ := h.own hp hinf
    constructor
    · rcases hleaf with hn | ⟨i, d, hd⟩
      · exact Or.inl (hnone hn)
      · refine Or.inr ⟨i, d, hother hd ?_⟩
        rintro rfl
        exact hj.old_ne hp (hpriv i d hd _ _ h.old)
    · intro i d hi r e hr
      obtain ⟨d', hd'⟩ := hfile hi
      obtain ⟨e', he'⟩ := hfile hr
      exact hpriv i d' hd' r e' he'
  · exact .linked comp empty (hio there) (by rw [hlinks]; exact links)

end Ready

/-! ## §3. One attempt that starts over. -/

section Attempt

variable {c : Codec} (hc : c.Lawful) {conf : Conf} {j : Job} (hj : j.Apart) {io jd : Nat}
  {ob db oc : Bytes} {D : List Path} {t : Node}
  (hstored : Stores c (dpthIsCompressed j.compression j.oldpath) ob oc)

theorem infpath_dropLast (j : Job) : j.infpath.dropLast = j.deltafdir := by
  unfold Job.infpath
  rw [List.dropLast_concat]

include hc hj hstored

/-- Every attempt gets the content of the old file into `inflate`. -/
theorem inflateOrLinkOldfile_spec (h : Ready c conf j io ob jd db D t) :
    Spec (inflateOrLinkOldfile c conf j.oldpath j.infpath j.compression) t
      (Ready c conf j io ob jd db D) fun ok u =>
        ok = true ∧ Ready c conf j io ob jd db D u ∧ ∃ i, look u j.infpath = some (.file i oc) := by
  have hinf : j.IsScratch j.infpath := Or.inl rfl
  have hne : j.oldpath ≠ j.infpath := hj.old_ne hinf
  have hput : ∀ (own : Own t j.infpath)
      (hb : ∀ u k e, Put t u j.infpath k e → Basis c conf j io ob u) u k e,
      Put t u j.infpath k e → Ready c conf j io ob jd db D u := by
    intro own hb u k e hp
    exact h.changed hj hinf (Or.inr ⟨k, e, rfl⟩) hp (fun q hq => own.isDir_ne hq) (hb u k e hp)
  cases h.basis with
  | inflate comp own =>
      rw [comp] at hstored
      have hI := hput own fun u k e hp => .inflate comp (.of_put hp)
      refine (inflate_spec hc comp h.old (hstored.inflate hc)
        (own.scratch (by rw [infpath_dropLast]; exact h.fwd)) hne h
        fun u k e _ => hI u k e).mono (fun _ hu => hu) ?_
      rintro ok u - ⟨hok, k, hp⟩
      exact ⟨hok, hI u k oc hp, k, hp.look_self⟩
  | copy comp own links =>
      rw [comp] at hstored
      obtain rfl : ob = oc := by simpa [Stores] using hstored
      have hI := hput own fun u k e hp =>
        .copy comp (.of_put hp) (by rw [hp.links _ io ob hne h.old]; exact links)
      refine inflateOrLink_plain comp h.old (doLink_copy h.old links ?_)
      refine (duplicateFile_spec hc h.old (own.scratch (by rw [infpath_dropLast]; exact h.fwd))
        hne h
        fun u k e _ => hI u k e).mono (fun _ hu => hu) ?_
      rintro ok u - ⟨hok, k, hp⟩
      exact ⟨hok, hI u k ob hp, k, hp.look_self⟩
  | absent comp empty gone links =>
      rw [comp] at hstored
      obtain rfl : ob = oc := by simpa [Stores] using hstored
      refine inflateOrLink_plain comp h.old (doLink_link h.old (by omega) ?_)
      obtain ⟨hres, hlook, hlinks⟩ :=
        link_file h.old gone (by rw [infpath_dropLast]; exact h.fwd)
      have hwf : ((FileSystem.link j.oldpath j.infpath).final t).WF := link_wf h.wf
      have hleaf : ∀ q, IsDir t q → q ≠ j.infpath := by
        rintro q hq rfl
        rw [IsDir, gone] at hq
        simp at hq
      have hready := h.relink hj (Or.inr rfl) hleaf hlook hwf
        (.linked comp empty ((hlook _).trans (if_pos rfl)) (by rw [hlinks, if_pos rfl, links]))
      refine Spec.op h hready ⟨hres, hready, io, ?_⟩
      exact (hlook _).trans (if_pos rfl)
  | linked comp empty there links =>
      rw [comp] at hstored
      obtain rfl : ob = oc := by simpa [Stores] using hstored
      -- the copy goes onto the file itself, which is empty
      refine inflateOrLink_plain comp h.old (doLink_copy h.old (by omega) ?_)
      let R : Node → Prop := fun u => Ready c conf j io ob jd db D u
        ∧ look u j.infpath = some (.file io ob) ∧ nlink u io = conf.maxHardlinks
      have hR : ∀ (u : Node) (f : Bytes → Bytes), f [] = [] → R u → R (onInode io f u) := by
        rintro u f hf ⟨hu, hinf', hlinks⟩
        refine ⟨hu.onInode hj comp empty hinf' hlinks hf, ?_, ?_⟩
        · rw [look_onInode, hinf']
          simp [Entry.mapData, empty, hf]
        · rw [nlink, onInode, inodes_mapData]
          exact hlinks
      have hopen : openAt true j.infpath t = (onInode io (fun _ => []) t, some io) := by
        simp [openAt, there]
      have hu : R (onInode io (fun _ => []) t) := hR t _ rfl ⟨h, there, links⟩
      unfold duplicateFile
      refine Spec.bind (Spec.read h ?_)
      simp only [h.old]
      refine Spec.bind (Spec.op h (by rw [hopen]; exact hu.1) ?_)
      simp only [hopen]
      refine Spec.bind (Spec.read hu.1 ?_)
      simp only [hu.1.old]
      have hpieces : ∀ b ∈ c.pieces ob, b = [] := by
        have hflat := hc.pieces_flatten ob
        rw [empty, List.flatten_eq_nil_iff] at hflat
        rw [empty]
        exact hflat
      have hkeep : Keeps R (appendAll io (c.pieces ob)) := by
        refine Keeps.forEach fun b hb => Keeps.op fun u hu => ?_
        rw [hpieces b hb]
        exact hR u _ rfl hu
      refine Spec.bind ((hkeep.spec hu).mono (fun _ hv => hv.1) ?_)
      intro _ v hv _
      exact Spec.pure hv.1 ⟨rfl, hv.1, io, hv.2.1⟩

omit hc hstored in
/-- Afterwards `inflate` is removed again. -/
theorem unlink_infpath_spec (h : Ready c conf j io ob jd db D t) {i : Nat} {x : Bytes}
    (hx : look t j.infpath = some (.file i x)) :
    Ready c conf j io ob jd db D ((unlink j.infpath).final t)
      ∧ ∀ r, r ≠ j.infpath → look ((unlink j.infpath).final t) r = look t r := by
  have hinf : j.IsScratch j.infpath := Or.inl rfl
  have hnil : j.infpath ≠ [] := by simp [Job.infpath]
  have hleaf : ∀ q, IsDir t q → q ≠ j.infpath := by
    rintro q hq rfl
    rw [IsDir, hx] at hq
    simp at hq
  have hown : ∀ (own : Own t j.infpath), Changed t ((unlink j.infpath).final t) j.infpath none :=
    fun own => (unlink_private h.wf hnil hx own.2).2
  obtain ⟨-, hlook, hlinks⟩ := unlink_file hnil hx
  have hne : ∀ r, r ≠ j.infpath → look ((unlink j.infpath).final t) r = look t r :=
    fun r hr => (hlook r).trans (if_neg hr)
  refine ⟨?_, hne⟩
  cases h.basis with
  | inflate comp own =>
      have hch := hown own
      exact h.changed hj hinf (Or.inl rfl) hch hleaf (.inflate comp (own.changed hch (Or.inl rfl)))
  | copy comp own links =>
      have hch := hown own
      refine h.changed hj hinf (Or.inl rfl) hch hleaf (.copy comp (own.changed hch (Or.inl rfl)) ?_)
      rw [hch.links _ io ob (hj.old_ne hinf) h.old]
      exact links
  | absent comp empty gone links =>
      rw [gone] at hx
      simp at hx
  | linked comp empty there links =>
      have hi : i = io := by
        rw [there] at hx
        simp only [Option.some.injEq, Entry.file.injEq] at hx
        exact hx.1.symm
      have hwf : ((unlink j.infpath).final t).WF := unlink_wf h.wf
      refine h.relink hj (Or.inl rfl) hleaf hlook hwf
        (.absent comp empty ((hlook _).trans (if_pos rfl)) ?_)
      have := hlinks h.wf io
      rw [if_pos hi, links] at this
      exact this

/-- The reverse delta. -/
theorem genRevDelta_spec (h : Ready c conf j io ob jd db D t) {k : Nat} {nb n : Bytes}
    (hnew : look t j.newpath = some (.file k nb))
    (hn : c.content (dpthIsCompressed j.compression j.newpath) nb = some n) :
    Spec (genRevDelta c conf j.sigpath j.deltabdir j.oldpath j.newpath j.datapth j.block
        j.compression) t (Ready c conf j io ob jd db D) fun ok u =>
      ok = true ∧ Ready c conf j io ob jd db D u ∧ look u j.newpath = some (.file k nb)
        ∧ ∃ m, look u j.delpath
            = some (.file m (c.encode conf.compression (c.delta (c.sig j.block n) oc))) := by
  have hb : j.Branch j.deltabdir j.delpath := Or.inr (Or.inr ⟨rfl, rfl⟩)
  have hnewS : j.IsScratch j.newpath := Or.inr (Or.inl rfl)
  have hsigS : j.IsScratch j.sigpath := Or.inr (Or.inr (Or.inl rfl))
  have hdelS : j.IsScratch j.delpath := Or.inr (Or.inr (Or.inr rfl))
  unfold genRevDelta
  refine Spec.bind ((mkpath_spec hj.limits.2.2.1 h.dup (List.prefix_append _ _)
    (h.clear hb)).mono (fun u hg => h.grown hj hb hg) ?_)
  rintro _ u - ⟨rfl, hg, hdir⟩
  have hu : Ready c conf j io ob jd db D u := h.grown hj hb hg
  rw [if_pos rfl]
  -- the signature of the new file
  have hsig : Scratch u j.sigpath :=
    (hu.own hsigS hj.inf.2.1).scratch (by rw [hj.sigpath]; exact hu.dup)
  have hnewu : look u j.newpath = some (.file k nb) := hg.look_of_some hnew
  refine Spec.bind ((makeRevSig_spec hc hnewu hn hsig (Ne.symm hj.new.1) hu
    fun v m e _ hp => hu.changed_ne hj hsigS hj.inf.2.1 (Or.inr ⟨m, e, rfl⟩) hp).mono
    (fun _ hv => hv) ?_)
  rintro _ v - ⟨rfl, ks, hpsig⟩
  have hv : Ready c conf j io ob jd db D v :=
    hu.changed_ne hj hsigS hj.inf.2.1 (Or.inr ⟨ks, _, rfl⟩) hpsig
  rw [if_pos rfl]
  -- the delta from it to the old file
  have hdirv : IsDir v j.delpath.dropLast :=
    (hpsig.look_ne ((hu.own hsigS hj.inf.2.1).isDir_ne hdir)).trans hdir
  have hdel : Scratch v j.delpath := (hv.own hdelS hj.inf.2.2).scratch hdirv
  refine Spec.bind ((makeRevDelta_spec hc hv.old (hstored.content hc) hpsig.look_self hdel
    (hj.old_ne hdelS) hv
    fun w m e _ hp => hv.changed_ne hj hdelS hj.inf.2.2 (Or.inr ⟨m, e, rfl⟩) hp).mono
    (fun _ hw => hw) ?_)
  rintro _ w - ⟨rfl, m, hpdel⟩
  have hw : Ready c conf j io ob jd db D w :=
    hv.changed_ne hj hdelS hj.inf.2.2 (Or.inr ⟨m, _, rfl⟩) hpdel
  rw [if_pos rfl]
  -- the signature is not needed any more
  have hsigw : look w j.sigpath = some (.file ks (c.sig j.block n)) :=
    (hpdel.look_ne hj.new.2.2).trans hpsig.look_self
  obtain ⟨-, hch⟩ := unlink_private hw.wf hj.limits.2.2.2 hsigw (hw.own hsigS hj.inf.2.1).2
  have hx := hw.changed_ne hj hsigS hj.inf.2.1 (Or.inl rfl) hch
  refine Spec.bind (Spec.op hw hx ?_)
  refine Spec.pure hx ⟨rfl, hx, ?_, m, ?_⟩
  · calc look ((unlink j.sigpath).final w) j.newpath = look w j.newpath :=
          hch.look_ne (Ne.symm hj.new.1)
      _ = look v j.newpath := hpdel.look_ne (Ne.symm hj.new.2.1)
      _ = look u j.newpath := hpsig.look_ne (Ne.symm hj.new.1)
      _ = _ := hnewu
  · exact (hch.look_ne (Ne.symm hj.new.2.2)).trans hpdel.look_self

/-- The new file is in place, and the old one is either still there or can be got back
with the reverse delta. -/
structure Finished (c : Codec) (conf : Conf) (j : Job) (ob oc n : Bytes) (t : Node) : Prop where
  fin : ∃ k, look t j.finpath = some (.file k (c.encode conf.compression n))
  old : (∃ i, look t j.oldpath = some (.file i ob))
    ∨ ∃ m, look t j.delpath
        = some (.file m (c.encode conf.compression (c.delta (c.sig j.block n) oc)))

/-- The reverse delta is there after this, unless the archive is hardlinked. -/
theorem reverseDelta_spec {kn : Nat} {n : Bytes}
    (h : Ready c conf j io ob jd db [j.newpath.dropLast, j.finpath.dropLast] t)
    (hnew : look t j.newpath = some (.file kn (c.encode conf.compression n)))
    (hgz : dpthIsCompressed j.compression j.newpath = decide (conf.compression ≠ 0)) :
    Spec (if j.hardlinked then (pure true : Prog Node Bool)
        else genRevDelta c conf j.sigpath j.deltabdir j.oldpath j.newpath j.datapth j.block
          j.compression) t
      (Ready c conf j io ob jd db [j.newpath.dropLast, j.finpath.dropLast])
      fun ok u => ok = true
        ∧ Ready c conf j io ob jd db [j.newpath.dropLast, j.finpath.dropLast] u
        ∧ look u j.newpath = some (.file kn (c.encode conf.compression n))
        ∧ (j.hardlinked = false → ∃ m, look u j.delpath
            = some (.file m (c.encode conf.compression (c.delta (c.sig j.block n) oc)))) := by
  cases hhl : j.hardlinked with
  | true => exact Spec.pure h ⟨rfl, h, hnew, by simp⟩
  | false =>
      have hcontent : c.content (dpthIsCompressed j.compression j.newpath)
          (c.encode conf.compression n) = some n := by
        rw [hgz]
        exact c.content_encode hc _ _
      refine (genRevDelta_spec hc hj hstored h hnew hcontent).mono (fun _ hu => hu) ?_
      rintro ok u - ⟨hok, hu, hnewu, hdel⟩
      exact ⟨hok, hu, hnewu, fun _ => hdel⟩

omit hc hstored in
/-- After the rename what is not needed any more is removed. -/
theorem removeOld_spec {kn : Nat} {n : Bytes}
    (hfin : look t j.finpath = some (.file kn (c.encode conf.compression n)))
    (hold : look t j.oldpath = some (.file io ob))
    (hdelta : look t j.deltafpath = some (.file jd db))
    (hdel : j.hardlinked = false → ∃ m, look t j.delpath
      = some (.file m (c.encode conf.compression (c.delta (c.sig j.block n) oc)))) :
    Spec (do
        let _ ← unlink j.deltafpath
        if j.hardlinked then pure true
        else
          let _ ← unlink j.oldpath
          pure true) t
      (Finished c conf j ob oc n) fun ok u => ok = true ∧ Finished c conf j ob oc n u := by
  have hdfnil : j.deltafpath ≠ [] := by
    have := hj.datapth
    simp [Job.deltafpath, this]
  obtain ⟨-, hlook, -⟩ := unlink_file hdfnil hdelta
  have hold' : look ((unlink j.deltafpath).final t) j.oldpath = some (.file io ob) := by
    rw [hlook, if_neg (Ne.symm hj.delta_old)]
    exact hold
  have hfin' : look ((unlink j.deltafpath).final t) j.finpath
      = some (.file kn (c.encode conf.compression n)) := by
    rw [hlook, if_neg (Ne.symm hj.delta_fin)]
    exact hfin
  have hmid : Finished c conf j ob oc n ((unlink j.deltafpath).final t) :=
    ⟨⟨kn, hfin'⟩, Or.inl ⟨io, hold'⟩⟩
  refine Spec.bind (Spec.op ⟨⟨kn, hfin⟩, Or.inl ⟨io, hold⟩⟩ hmid ?_)
  cases hhl : j.hardlinked with
  | true => exact Spec.pure hmid ⟨rfl, hmid⟩
  | false =>
      obtain ⟨m, hm⟩ := hdel hhl
      have hdelS : j.IsScratch j.delpath := Or.inr (Or.inr (Or.inr rfl))
      have holdnil : j.oldpath ≠ [] := by
        have := hj.datapth
        simp [Job.oldpath, this]
      obtain ⟨-, hlook', -⟩ := unlink_file holdnil hold'
      have hend : Finished c conf j ob oc n
          ((unlink j.oldpath).final ((unlink j.deltafpath).final t)) := by
        refine ⟨⟨kn, ?_⟩, Or.inr ⟨m, ?_⟩⟩
        · rw [hlook', if_neg (Ne.symm hj.old_fin)]
          exact hfin'
        · have hdeldf : j.delpath ≠ j.deltafpath := hj.delta _ hdelS hj.inf.2.2
          rw [hlook', if_neg (Ne.symm (hj.old_ne hdelS)), hlook, if_neg hdeldf]
          exact hm
      exact Spec.bind (Spec.op hmid hend (Spec.pure hend ⟨rfl, hend⟩))

/-- **One attempt at patching**, whatever the earlier ones have left. -/
theorem jigglePatch_spec (h : Ready c conf j io ob jd db [j.newpath.dropLast, j.finpath.dropLast] t)
    {d n : Bytes} (hd : Stores c (dpthIsCompressed j.compression j.deltafpath) db d)
    (hn : c.patch oc d = some n)
    (hgz : dpthIsCompressed j.compression j.newpath = decide (conf.compression ≠ 0)) :
    Spec (jigglePatch c conf j) t
      (fun u => Ready c conf j io ob jd db [j.newpath.dropLast, j.finpath.dropLast] u
        ∨ Finished c conf j ob oc n u)
      fun ok u => ok = true ∧ Finished c conf j ob oc n u := by
  have hnewS : j.IsScratch j.newpath := Or.inr (Or.inl rfl)
  have hinfS : j.IsScratch j.infpath := Or.inl rfl
  unfold jigglePatch
  refine Spec.bind ((inflateOrLinkOldfile_spec hc hj hstored h).mono (fun _ hu => Or.inl hu) ?_)
  rintro _ u - ⟨rfl, hu, ki, hinf⟩
  rw [if_pos rfl]
  -- patch into the new file
  have hnewO : Own u j.newpath := hu.own hnewS hj.inf.1
  refine Spec.bind ((doPatch_spec hc hinf hu.delta (hd.content hc) hn
    (hnewO.scratch (hu.made _ (by simp))) (Ne.symm hj.inf.1)
    (Ne.symm (hu.scratch_ne_delta hj hnewS)) hu
    fun v m e _ hp => hu.changed_ne hj hnewS hj.inf.1 (Or.inr ⟨m, e, rfl⟩) hp).mono
    (fun _ hv => Or.inl hv) ?_)
  rintro _ v - ⟨rfl, kn, hpnew⟩
  have hv := hu.changed_ne hj hnewS hj.inf.1 (Or.inr ⟨kn, _, rfl⟩) hpnew
  rw [if_pos rfl]
  have hinfv : look v j.infpath = some (.file ki oc) :=
    (hpnew.look_ne (Ne.symm hj.inf.1)).trans hinf
  obtain ⟨hw, hkeepw⟩ := unlink_infpath_spec hj hv hinfv
  refine Spec.bind (Spec.op (Or.inl hv) (Or.inl hw) ?_)
  have hneww : look ((unlink j.infpath).final v) j.newpath
      = some (.file kn (c.encode conf.compression n)) :=
    (hkeepw _ hj.inf.1).trans hpnew.look_self
  change Spec _ ((unlink j.infpath).final v) _ _
  generalize (unlink j.infpath).final v = w at hw hneww hkeepw
  refine Spec.bind ((reverseDelta_spec hc hj hstored hw hneww hgz).mono
    (fun _ hx => Or.inl hx) ?_)
  rintro _ x - ⟨rfl, hx, hnewx, hdelx⟩
  rw [if_pos rfl]
  -- the rename is the point of no return
  have hnil : j.newpath ≠ [] := by
    intro h0
    rw [h0] at hnewx
    have hroot := hx.made _ (List.mem_cons_self)
    rw [h0, List.dropLast_nil, IsDir, hnewx] at hroot
    simp at hroot
  obtain ⟨hres, hlook⟩ := rename_file hnil hnewx hx.fin (hx.made _ (by simp))
  have hfiny := (hlook j.finpath).trans (if_pos rfl)
  have holdy : look ((rename j.newpath j.finpath).final x) j.oldpath = some (.file io ob) := by
    rw [hlook, if_neg hj.old_fin, if_neg (hj.old_ne hnewS)]
    exact hx.old
  have hdelty : look ((rename j.newpath j.finpath).final x) j.deltafpath = some (.file jd db) := by
    rw [hlook, if_neg hj.delta_fin, if_neg (Ne.symm (hx.scratch_ne_delta hj hnewS))]
    exact hx.delta
  have hdely : j.hardlinked = false → ∃ m, look ((rename j.newpath j.finpath).final x) j.delpath
      = some (.file m (c.encode conf.compression (c.delta (c.sig j.block n) oc))) := by
    intro hhl
    obtain ⟨m, hm⟩ := hdelx hhl
    refine ⟨m, ?_⟩
    rw [hlook, if_neg (Ne.symm (hj.fin_ne (Or.inr (Or.inr (Or.inr rfl))))), if_neg hj.new.2.1]
    exact hm
  refine Spec.bind (Spec.op (Or.inl hx) (Or.inr ⟨⟨kn, hfiny⟩, Or.inl ⟨io, holdy⟩⟩) ?_)
  have hres' : (renameAt j.newpath j.finpath x).2 = true := hres
  rw [hres', if_pos rfl]
  exact (removeOld_spec hj hfiny holdy hdelty hdely).mono (fun _ hy => Or.inr hy)
    fun _ _ _ hy => hy

end Attempt

end Burp.Shuffle
