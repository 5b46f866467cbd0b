/-
  Burp.Shuffle.Restart — killing and restarting the shuffle of one file.

  An attempt at `jiggle` can be killed between any two of its operations and is then made
  again with the same arguments, any number of times.  Two branches are not prepared for
  that.  An uncompressed old file is hard linked to `inflate`; the next attempt finds the
  link in its way, or takes it for the destination of a copy and truncates the old file
  through it.  And an unchanged file with too many links is copied to its final
  place, where the next attempt takes a part of it for the whole.

  Main results:
    * `jiggle_begun` — what an attempt does before it looks for the file.
    * `jiggle_crash_safe_iff` — exactly when any number of killed attempts does no harm.
-/
import Burp.Shuffle.CrashSafe

namespace Burp.Shuffle

open Crash FileSystem Burp.Store

/-! ## §1. The start of an attempt. -/

/-- Nothing is at `finpath` yet, and nothing is in the way. -/
structure Begun (j : Job) (t : Node) : Prop where
  wf : t.WF
  root : IsDir t j.datadir.dropLast
  dup : IsDir t j.deltabdir.dropLast
  fin : look t j.finpath = none
  clear : ∀ {limit p}, j.Branch limit p → Clear limit p t

/-- The directories of the file are made, in `data` and then in `data.tmp`. -/
def Paving (j : Job) (t v : Node) : Prop :=
  ∃ u, Grown j.datadir j.finpath t u ∧ Grown j.datadirtmp j.newpath u v

namespace Paving

variable {j : Job} (hj : j.Apart) {t v : Node}

theorem file_iff (h : Paving j t v) {q : Path} {i : Nat} {d : Bytes} :
    look v q = some (.file i d) ↔ look t q = some (.file i d) := by
  obtain ⟨u, hu, hv⟩ := h
  rw [hv.file_iff, hu.file_iff]

theorem isDir (h : Paving j t v) {q : Path} (hq : IsDir t q) : IsDir v q := by
  obtain ⟨u, hu, hv⟩ := h
  exact hv.isDir (hu.isDir hq)

theorem links (h : Paving j t v) (k : Nat) : nlink v k = nlink t k := by
  obtain ⟨u, hu, hv⟩ := h
  rw [hv.links, hu.links]

include hj

theorem same (h : Paving j t v) {q : Path} (hq : j.IsScratch q ∨ q = j.finpath) :
    look v q = look t q := by
  obtain ⟨u, hu, hv⟩ := h
  have hkey : ∀ {limit p a b}, j.Branch limit p → Grown limit p a b → look b q = look a q := by
    intro limit p a b hb hg
    apply hg.look_of_not_prefix
    by_contra hnot
    push Not at hnot
    obtain ⟨hl, hqp, hne⟩ := hnot
    have := hj.grow hb hl hqp hne
    rcases hq with hq | hq
    · exact this.1 hq
    · exact this.2 hq
  rw [hkey (Or.inr (Or.inl ⟨rfl, rfl⟩)) hv, hkey (Or.inl ⟨rfl, rfl⟩) hu]

theorem begun (h : Paving j t v) (hb : Begun j t) : Begun j v where
  wf := by
    obtain ⟨u, hu, hv⟩ := h
    exact hv.wf (hu.wf hb.wf)
  root := h.isDir hb.root
  dup := h.isDir hb.dup
  fin := (h.same hj (Or.inr rfl)).trans hb.fin
  clear := by
    intro limit p hbr
    obtain ⟨u, hu, hv⟩ := h
    intro r hl hr hne
    rcases hv.grown r with hrv | ⟨-, hrv, -⟩
    · rcases hu.grown r with hru | ⟨-, hru, -⟩
      · have := hb.clear hbr r hl hr hne
        unfold IsDir at this ⊢
        rwa [hrv, hru]
      · exact Or.inr (hrv.trans hru)
    · exact Or.inr hrv

theorem ready {c : Codec} {conf : Conf} {io jd : Nat} {ob db : Bytes} {D : List Path}
    (h : Paving j t v) (hr : Ready c conf j io ob jd db D t) : Ready c conf j io ob jd db D v := by
  obtain ⟨u, hu, hv⟩ := h
  exact (hr.grown hj (Or.inl ⟨rfl, rfl⟩) hu).grown hj (Or.inr (Or.inl ⟨rfl, rfl⟩)) hv

end Paving

section Begin

variable {c : Codec} {conf : Conf} {j : Job} (hj : j.Apart) {t : Node}

include hj

variable (c conf) in
/-- **The start of an attempt**: the directories are made, and the branch is chosen in
the state this leaves. -/
theorem jiggle_begun (h : Begun j t) :
    ∃ u, Paving j t u ∧ IsDir u j.finpath.dropLast ∧ IsDir u j.newpath.dropLast
      ∧ (∀ v, v ∈ (jiggle c conf j).killed t →
          Paving j t v ∨ v ∈ (jiggleFile c conf j).killed u)
      ∧ (∀ v, v ∈ (jiggleFile c conf j).killed u → v ∈ (jiggle c conf j).killed t)
      ∧ (jiggle c conf j).result t = (jiggleFile c conf j).result u
      ∧ (jiggle c conf j).final t = (jiggleFile c conf j).final u := by
  have hfinB : j.Branch j.datadir j.finpath := Or.inl ⟨rfl, rfl⟩
  have hnewB : j.Branch j.datadirtmp j.newpath := Or.inr (Or.inl ⟨rfl, rfl⟩)
  have h₁ := mkpath_spec (p := j.finpath) hj.limits.1 h.root (List.prefix_append _ _)
      (h.clear hfinB)
  obtain ⟨hres₁, hg₁, hdir₁⟩ := h₁.post
  have hroot : IsDir ((mkpath j.finpath j.datadir).final t) j.datadirtmp.dropLast := by
    rw [hj.datadirtmp]
    exact hg₁.isDir h.root
  have hbegun : Begun j ((mkpath j.finpath j.datadir).final t) :=
    Paving.begun hj ⟨_, hg₁, Grown.refl _ _ _⟩ h
  have h₂ := mkpath_spec (p := j.newpath) hj.limits.2.1 hroot (List.prefix_append _ _)
      (hbegun.clear hnewB)
  obtain ⟨hres₂, hg₂, hdir₂⟩ := h₂.post
  have hreg : (isReg j.finpath).result t = false := isReg_of_none (by rw [h.fin]; simp)
  -- the program from `t`, with the two results filled in
  have hrun : jiggle c conf j t
      = (mkpath j.finpath j.datadir >>= fun ok => if ok then
          (mkpath j.newpath j.datadirtmp >>= fun ok => if ok then jiggleFile c conf j
            else pure false)
          else pure false) t := by
    unfold jiggle isReg
    rw [Prog.read_bind]
    simp only [isReg, Prog.result_read] at hreg
    simp only [hreg, Bool.false_eq_true, if_false]
  refine ⟨(mkpath j.newpath j.datadirtmp).final ((mkpath j.finpath j.datadir).final t),
    ⟨_, hg₁, hg₂⟩, hg₂.isDir hdir₁, hdir₂, ?_, ?_, ?_, ?_⟩
  · intro v hv
    rw [Prog.killed_congr (congrArg Prod.fst hrun)] at hv
    rcases Prog.mem_killed_bind.mp hv with hv | hv
    · exact Or.inl ⟨v, h₁.crash v hv, Grown.refl _ _ _⟩
    · rw [hres₁, if_pos rfl] at hv
      rcases Prog.mem_killed_bind.mp hv with hv | hv
      · exact Or.inl ⟨_, hg₁, h₂.crash v hv⟩
      · rw [hres₂, if_pos rfl] at hv
        exact Or.inr hv
  · intro v hv
    rw [Prog.killed_congr (congrArg Prod.fst hrun)]
    refine Prog.mem_killed_bind.mpr (Or.inr ?_)
    rw [hres₁, if_pos rfl]
    refine Prog.mem_killed_bind.mpr (Or.inr ?_)
    rw [hres₂, if_pos rfl]
    exact hv
  · have : (jiggle c conf j).result t = _ := congrArg Prod.snd hrun
    rw [this]
    change ((mkpath j.finpath j.datadir >>= _).result t) = _
    rw [Prog.result_bind, hres₁, if_pos rfl, Prog.result_bind, hres₂, if_pos rfl]
  · have hvis : (jiggle c conf j).final t = _ :=
      congrArg (fun l : List Node => l.getLastD t) (congrArg Prod.fst hrun)
    rw [hvis]
    change ((mkpath j.finpath j.datadir >>= _).final t) = _
    rw [Prog.final_bind, hres₁, if_pos rfl, Prog.final_bind, hres₂, if_pos rfl]

/-- The branch taken in the state that the start leaves. -/
theorem jiggle_spec_of_file (h : Begun j t) {I : Node → Prop} {Q : Bool → Node → Prop}
    (hI : ∀ v, Paving j t v → I v)
    (hfile : ∀ u, Paving j t u → IsDir u j.finpath.dropLast → IsDir u j.newpath.dropLast →
      Spec (jiggleFile c conf j) u I Q) : Spec (jiggle c conf j) t I Q := by
  obtain ⟨u, hpave, hdirf, hdirn, hkill, -, hres, hfinal⟩ := jiggle_begun c _ hj h
  have hspec := hfile u hpave hdirf hdirn
  refine ⟨fun v hv => ?_, ?_⟩
  · rcases hkill v hv with hv | hv
    · exact hI v hv
    · exact hspec.crash v hv
  · rw [hres, hfinal]
    exact hspec.post

/-- An attempt that finds the new file in place touches at most the forward delta. -/
theorem jiggle_placed {k : Nat} {b : Bytes} (h : look t j.finpath = some (.file k b)) :
    Spec (jiggle c conf j) t (fun u => ∀ q, q ≠ j.deltafpath → look u q = look t q)
      fun ok u => ok = true ∧ ∀ q, q ≠ j.deltafpath → look u q = look t q := by
  have hnil : j.deltafpath ≠ [] := by
    have := hj.datapth
    simp [Job.deltafpath, this]
  unfold jiggle
  refine Spec.bind (Spec.read (fun _ _ => rfl) ?_)
  simp only [h, if_true]
  refine Spec.bind (Spec.read (fun _ _ => rfl) ?_)
  cases hd : look t j.deltafpath with
  | none => exact Spec.pure (fun _ _ => rfl) ⟨rfl, fun _ _ => rfl⟩
  | some e =>
      cases e with
      | symlink s => exact Spec.pure (fun _ _ => rfl) ⟨rfl, fun _ _ => rfl⟩
      | dir => exact Spec.pure (fun _ _ => rfl) ⟨rfl, fun _ _ => rfl⟩
      | file i d =>
          obtain ⟨-, hlook, -⟩ := unlink_file hnil hd
          have hkeep : ∀ q, q ≠ j.deltafpath → look ((unlink j.deltafpath).final t) q = look t q :=
            fun q hq => (hlook q).trans (if_neg hq)
          exact Spec.bind (Spec.op (fun _ _ => rfl) hkeep (Spec.pure hkeep ⟨rfl, hkeep⟩))

end Begin

/-! ## §2. What has to hold. -/

/-- Whether the files of the entry are stored compressed. -/
def Job.gz (j : Job) : Bool := dpthIsCompressed j.compression j.datapth

/-- The old content can be read, from `oldpath`, or from `finpath` and the reverse delta
if there is one. -/
def Recoverable (c : Codec) (j : Job) (oc : Bytes) (t : Node) : Prop :=
  (∃ i b, look t j.oldpath = some (.file i b) ∧ c.content j.gz b = some oc)
    ∨ ∃ k b x, look t j.finpath = some (.file k b) ∧ c.content j.gz b = some x
      ∧ ((look t j.delpath = none ∧ x = oc)
        ∨ ∃ m rb rd, look t j.delpath = some (.file m rb) ∧ c.content j.gz rb = some rd
            ∧ c.patch x rd = some oc)

/-- The first attempt at an entry: what the old content is, if there is any, and the bytes
that have to end up at `finpath`. -/
inductive Start (c : Codec) (conf : Conf) (j : Job) (s : Node) : Option Bytes → Bytes → Prop
  /-- A forward delta has been received.  The manifest records the compression that the
  server uses, and no scratch file is left of another entry. -/
  | delta {io jd : Nat} {ob db oc d n : Bytes} (old : look s j.oldpath = some (.file io ob))
      (stored : Stores c j.gz ob oc) (delta : look s j.deltafpath = some (.file jd db))
      (deltaStored : Stores c j.gz db d) (inos : jd ≠ io) (patch : c.patch oc d = some n)
      (gz : j.gz = decide (conf.compression ≠ 0)) (own : ∀ p, j.IsScratch p → look s p = none) :
      Start c conf j s (some oc) (c.encode conf.compression n)
  /-- A new file has been received. -/
  | received {k : Nat} {nb : Bytes} {oldc : Option Bytes}
      (new : look s j.newpath = some (.file k nb))
      (nodelta : ∀ i d, look s j.deltafpath ≠ some (.file i d))
      (old : ∀ oc, oldc = some oc →
        ∃ io ob, look s j.oldpath = some (.file io ob) ∧ Stores c j.gz ob oc) :
      Start c conf j s oldc nb
  /-- The file is unchanged. -/
  | unchanged {io : Nat} {ob oc : Bytes} (old : look s j.oldpath = some (.file io ob))
      (stored : Stores c j.gz ob oc) (nonew : ∀ i d, look s j.newpath ≠ some (.file i d))
      (nodelta : ∀ i d, look s j.deltafpath ≠ some (.file i d))
      (norev : look s j.delpath = none) :
      Start c conf j s (some oc) ob

/-- After any number of killed attempts the old content is recoverable, and the next
attempt succeeds and puts the new bytes in place. -/
def CrashSafe (c : Codec) (conf : Conf) (j : Job) (s : Node) (oldc : Option Bytes)
    (want : Bytes) : Prop :=
  ∀ t, Attempts (jiggle c conf j) s t →
    (∀ oc, oldc = some oc → Recoverable c j oc t)
      ∧ (jiggle c conf j).result t = true
      ∧ ∃ k, look ((jiggle c conf j).final t) j.finpath = some (.file k want)

/-- The condition on the stored old file: with a forward delta it has to be compressed, or
to have too many links to be linked again, or to be empty and one link short of that; an
unchanged one must be possible to link, or be empty. -/
def Harmless (conf : Conf) (j : Job) (s : Node) : Bool :=
  match look s j.deltafpath, look s j.newpath, look s j.oldpath with
  | some (.file _ _), _, some (.file i b) =>
      j.gz || decide (conf.maxHardlinks ≤ nlink s i)
        || (decide (nlink s i + 1 = conf.maxHardlinks) && decide (b = []))
  | some (.file _ _), _, _ => true
  | _, some (.file _ _), _ => true
  | _, _, some (.file i b) => decide (nlink s i < conf.maxHardlinks) || decide (b = [])
  | _, _, _ => true

section Main

variable {c : Codec} (hc : c.Lawful) {conf : Conf} {j : Job} (hj : j.Apart) {s t : Node}

include hj in
theorem gz_eq : dpthIsCompressed j.compression j.oldpath = j.gz
    ∧ dpthIsCompressed j.compression j.newpath = j.gz
    ∧ dpthIsCompressed j.compression j.deltafpath = j.gz :=
  ⟨dpthIsCompressed_append hj.datapth, dpthIsCompressed_append hj.datapth,
    dpthIsCompressed_append hj.datapth⟩

/-- An invariant of every attempt that implies the conclusion makes the entry safe. -/
theorem crashSafe_of_invariant {oldc : Option Bytes} {want : Bytes} (J : Node → Prop)
    (hs : J s) (hrec : ∀ t, J t → ∀ oc, oldc = some oc → Recoverable c j oc t)
    (hrun : ∀ t, J t → Spec (jiggle c conf j) t J fun ok u =>
      ok = true ∧ ∃ k, look u j.finpath = some (.file k want)) :
    CrashSafe c conf j s oldc want := by
  intro t ht
  have hJ : J t := Keeps.restarts (fun s hs t ht => (hrun s hs).crash t ht) hs ht
  exact ⟨hrec t hJ, (hrun t hJ).post⟩

include hc

theorem Finished.recoverable {ob oc n : Bytes} (stored : Stores c j.gz ob oc)
    (gz : j.gz = decide (conf.compression ≠ 0)) (h : Finished c conf j ob oc n t) :
    Recoverable c j oc t := by
  obtain ⟨⟨k, hfin⟩, ⟨i, hold⟩ | ⟨m, hdel⟩⟩ := h
  · exact Or.inl ⟨i, ob, hold, stored.content hc⟩
  · refine Or.inr ⟨k, _, n, hfin, ?_, Or.inr ⟨m, _, _, hdel, ?_, hc.patch_delta j.block n oc⟩⟩
    · rw [gz]
      exact c.content_encode hc _ _
    · rw [gz]
      exact c.content_encode hc _ _

include hj

/-- A received file is moved into place by one rename. -/
theorem received_crashSafe (h : Begun j s) {k : Nat} {nb : Bytes} {oldc : Option Bytes}
    (new : look s j.newpath = some (.file k nb))
    (nodelta : ∀ i d, look s j.deltafpath ≠ some (.file i d))
    (old : ∀ oc, oldc = some oc →
      ∃ io ob, look s j.oldpath = some (.file io ob) ∧ Stores c j.gz ob oc) :
    CrashSafe c conf j s oldc nb := by
  have hnewS : j.IsScratch j.newpath := Or.inr (Or.inl rfl)
  let Old : Node → Prop := fun t => ∀ oc, oldc = some oc →
    ∃ io ob, look t j.oldpath = some (.file io ob) ∧ Stores c j.gz ob oc
  have hold : ∀ {t u}, (∀ i d, look t j.oldpath = some (.file i d) →
      look u j.oldpath = some (.file i d)) → Old t → Old u := by
    intro t u hkeep ht oc hoc
    obtain ⟨io, ob, hl, hst⟩ := ht oc hoc
    exact ⟨io, ob, hkeep io ob hl, hst⟩
  let Waiting : Node → Prop := fun t => Begun j t ∧ look t j.newpath = some (.file k nb)
    ∧ (∀ i d, look t j.deltafpath ≠ some (.file i d)) ∧ Old t
  let Placed : Node → Prop := fun t => (∃ k, look t j.finpath = some (.file k nb)) ∧ Old t
  refine crashSafe_of_invariant (fun t => Waiting t ∨ Placed t) (Or.inl ⟨h, new, nodelta, old⟩)
    ?_ ?_
  · intro t ht oc hoc
    obtain ⟨io, ob, hl, hst⟩ : ∃ io ob, look t j.oldpath = some (.file io ob)
        ∧ Stores c j.gz ob oc := by
      rcases ht with ht | ht
      · exact ht.2.2.2 oc hoc
      · exact ht.2 oc hoc
    exact Or.inl ⟨io, ob, hl, hst.content hc⟩
  · rintro t (⟨hb, hnew, hnodelta, hO⟩ | ⟨⟨k', hfin⟩, hO⟩)
    · have hpave : ∀ v, Paving j t v → Waiting v := fun v hp =>
        ⟨hp.begun hj hb, hp.file_iff.mpr hnew, fun i d hd => hnodelta i d (hp.file_iff.mp hd),
          hold (fun i d hd => hp.file_iff.mpr hd) hO⟩
      refine jiggle_spec_of_file hj hb (fun v hp => Or.inl (hpave v hp)) ?_
      intro u hp hdirf _
      obtain ⟨hbu, hnewu, hnodu, hOu⟩ := hpave u hp
      have hu : Waiting u := ⟨hbu, hnewu, hnodu, hOu⟩
      unfold jiggleFile
      refine Spec.bind (Spec.read (Or.inl hu) ?_)
      simp only [Bool.false_eq_true, if_false]
      refine Spec.bind (Spec.read (Or.inl hu) ?_)
      simp only [hnewu, if_true]
      have hnil : j.newpath ≠ [] := by
        have := hj.datapth
        simp [Job.newpath, this]
      obtain ⟨hres, hlook⟩ := rename_file hnil hnewu hbu.fin hdirf
      have hplaced : Placed ((rename j.newpath j.finpath).final u) := by
        refine ⟨⟨k, (hlook _).trans (if_pos rfl)⟩, hold (fun i d hd => ?_) hOu⟩
        rw [hlook, if_neg hj.old_fin, if_neg (hj.old_ne hnewS)]
        exact hd
      exact Spec.op (Or.inl hu) (Or.inr hplaced) ⟨hres, hplaced.1⟩
    · have hkeep : ∀ u, (∀ q, q ≠ j.deltafpath → look u q = look t q) → Placed u := by
        intro u hu
        refine ⟨⟨k', (hu _ (Ne.symm hj.delta_fin)).trans hfin⟩, hold (fun i d hd => ?_) hO⟩
        exact (hu _ (Ne.symm hj.delta_old)).trans hd
      refine (jiggle_placed hj hfin).mono (fun u hu => Or.inr (hkeep u hu)) ?_
      rintro ok u - ⟨hok, hu⟩
      exact ⟨hok, (hkeep u hu).1⟩

/-- An unchanged file that can be linked, or is empty. -/
theorem unchanged_crashSafe (h : Begun j s) {io : Nat} {ob oc : Bytes}
    (old : look s j.oldpath = some (.file io ob)) (stored : Stores c j.gz ob oc)
    (nonew : ∀ i d, look s j.newpath ≠ some (.file i d))
    (nodelta : ∀ i d, look s j.deltafpath ≠ some (.file i d))
    (norev : look s j.delpath = none)
    (hsafe : nlink s io < conf.maxHardlinks ∨ ob = []) :
    CrashSafe c conf j s (some oc) ob := by
  have hdelS : j.IsScratch j.delpath := Or.inr (Or.inr (Or.inr rfl))
  let Waiting : Node → Prop := fun t => Begun j t ∧ look t j.oldpath = some (.file io ob)
    ∧ (∀ i d, look t j.newpath ≠ some (.file i d))
    ∧ (∀ i d, look t j.deltafpath ≠ some (.file i d)) ∧ look t j.delpath = none
    ∧ (nlink t io < conf.maxHardlinks ∨ ob = [])
  let Placed : Node → Prop := fun t => (∃ k, look t j.finpath = some (.file k ob))
    ∧ look t j.delpath = none
  refine crashSafe_of_invariant (fun t => Waiting t ∨ Placed t)
    (Or.inl ⟨h, old, nonew, nodelta, norev, hsafe⟩) ?_ ?_
  · rintro t ht oc' hoc
    simp only [Option.some.injEq] at hoc
    subst hoc
    rcases ht with ⟨-, hold, -⟩ | ⟨⟨k, hfin⟩, hdel⟩
    · exact Or.inl ⟨io, ob, hold, stored.content hc⟩
    · exact Or.inr ⟨k, ob, oc, hfin, stored.content hc, Or.inl ⟨hdel, rfl⟩⟩
  · rintro t (⟨hb, hold, hnonew, hnodelta, hdel, hlinks⟩ | ⟨⟨k, hfin⟩, hdel⟩)
    · have hpave : ∀ v, Paving j t v → Waiting v := fun v hp =>
        ⟨hp.begun hj hb, hp.file_iff.mpr hold, fun i d hd => hnonew i d (hp.file_iff.mp hd),
          fun i d hd => hnodelta i d (hp.file_iff.mp hd), (hp.same hj (Or.inl hdelS)).trans hdel,
          by rw [hp.links]; exact hlinks⟩
      refine jiggle_spec_of_file hj hb (fun v hp => Or.inl (hpave v hp)) ?_
      intro u hp hdirf _
      have hu : Waiting u := hpave u hp
      obtain ⟨hbu, holdu, hnonewu, hnodu, hdelu, hlinksu⟩ := hpave u hp
      unfold jiggleFile
      refine Spec.bind (Spec.read (Or.inl hu) ?_)
      simp only [Bool.false_eq_true, if_false]
      refine Spec.bind (Spec.read (Or.inl hu) ?_)
      simp only [Bool.false_eq_true, if_false]
      refine Spec.bind (Spec.read (Or.inl hu) ?_)
      simp only [holdu, if_true]
      -- link or copy
      have hlinked : ∀ v, (∀ r, look v r = if r = j.finpath then some (.file io ob) else look u r) →
          Placed v := fun v hv =>
        ⟨⟨io, (hv _).trans (if_pos rfl)⟩,
          (hv _).trans ((if_neg (Ne.symm (hj.fin_ne hdelS))).trans hdelu)⟩
      have hdo : Spec (doLink c conf j.oldpath j.finpath) u (fun v => Waiting v ∨ Placed v)
          fun ok v => ok = true ∧ Placed v ∧ look v j.oldpath = some (.file io ob) := by
        by_cases hn : nlink u io < conf.maxHardlinks
        · obtain ⟨hres, hlook, -⟩ := link_file holdu hbu.fin hdirf
          refine doLink_link holdu hn (Spec.op (Or.inl hu) (Or.inr (hlinked _ hlook)) ?_)
          refine ⟨hres, hlinked _ hlook, (hlook _).trans ?_⟩
          rw [if_neg hj.old_fin]
          exact holdu
        · -- a copy of an empty file is complete as soon as it is there
          have hempty : ob = [] := hlinksu.resolve_left hn
          have hplaced : ∀ v k e, e <+: ob → Put u v j.finpath k e → Placed v := by
            intro v k e he hput
            have he' : e = ob := by
              rw [hempty] at he ⊢
              exact List.prefix_nil.mp he
            refine ⟨⟨k, he' ▸ hput.look_self⟩, ?_⟩
            rw [hput.look_ne (Ne.symm (hj.fin_ne hdelS))]
            exact hdelu
          refine doLink_copy holdu (Nat.not_lt.mp hn) ((duplicateFile_spec hc holdu
            (Scratch.of_absent hbu.fin hdirf) hj.old_fin (Or.inl hu)
            fun v k e he hput => Or.inr (hplaced v k e he hput)).mono (fun _ hv => hv) ?_)
          rintro ok v - ⟨hok, k, hput⟩
          exact ⟨hok, hplaced v k ob List.prefix_rfl hput, (hput.look_ne hj.old_fin).trans holdu⟩
      unfold jiggleLink
      refine Spec.bind (hdo.mono (fun _ hv => hv) ?_)
      rintro _ v - ⟨rfl, hv, holdv⟩
      rw [if_pos rfl]
      split
      · exact Spec.pure (Or.inr hv) ⟨rfl, hv.1⟩
      · have hnil : j.oldpath ≠ [] := by
          have := hj.datapth
          simp [Job.oldpath, this]
        obtain ⟨-, hlook, -⟩ := unlink_file hnil holdv
        have hend : Placed ((unlink j.oldpath).final v) := by
          obtain ⟨⟨k, hk⟩, hd⟩ := hv
          refine ⟨⟨k, ?_⟩, ?_⟩
          · rw [hlook, if_neg (Ne.symm hj.old_fin)]
            exact hk
          · rw [hlook, if_neg (Ne.symm (hj.old_ne hdelS))]
            exact hd
        exact Spec.bind (Spec.op (Or.inr hv) (Or.inr hend)
          (Spec.pure (Or.inr hend) ⟨rfl, hend.1⟩))
    · have hkeep : ∀ u, (∀ q, q ≠ j.deltafpath → look u q = look t q) → Placed u := by
        intro u hu
        refine ⟨⟨k, (hu _ (Ne.symm hj.delta_fin)).trans hfin⟩, (hu _ ?_).trans hdel⟩
        exact hj.delta _ hdelS hj.inf.2.2
      refine (jiggle_placed hj hfin).mono (fun u hu => Or.inr (hkeep u hu)) ?_
      rintro ok u - ⟨hok, hu⟩
      exact ⟨hok, (hkeep u hu).1⟩

/-- A forward delta, when `inflate` can be made over and over. -/
theorem delta_crashSafe (h : Begun j s) {io jd : Nat} {ob db oc d n : Bytes}
    (old : look s j.oldpath = some (.file io ob)) (stored : Stores c j.gz ob oc)
    (delta : look s j.deltafpath = some (.file jd db)) (deltaStored : Stores c j.gz db d)
    (inos : jd ≠ io) (patch : c.patch oc d = some n) (gz : j.gz = decide (conf.compression ≠ 0))
    (own : ∀ p, j.IsScratch p → look s p = none)
    (hsafe : j.gz = true ∨ conf.maxHardlinks ≤ nlink s io
      ∨ (nlink s io + 1 = conf.maxHardlinks ∧ ob = [])) :
    CrashSafe c conf j s (some oc) (c.encode conf.compression n) := by
  obtain ⟨hgzo, hgzn, hgzd⟩ := gz_eq hj
  have hown : ∀ p, j.IsScratch p → Own s p := by
    intro p hp
    exact .of_absent (own p hp)
  have hbasis : Basis c conf j io ob s := by
    cases hg : j.gz with
    | true => exact .inflate (hgzo.trans hg) (hown _ (Or.inl rfl))
    | false =>
        rcases hsafe with h1 | h1 | ⟨h1, h2⟩
        · rw [hg] at h1
          exact absurd h1 Bool.false_ne_true
        · exact .copy (hgzo.trans hg) (hown _ (Or.inl rfl)) h1
        · exact .absent (hgzo.trans hg) h2 (own _ (Or.inl rfl)) h1
  have hready : Ready c conf j io ob jd db [] s := by
    refine ⟨h.wf, h.root, h.dup, ?_, by simp, old, delta, h.fin, ?_, inos, h.clear,
      fun hp _ => hown _ hp, hbasis⟩
    · exact isDir_of_look_append hj.datapth (q := j.datapth) (by
        rw [show j.deltafdir ++ j.datapth = j.deltafpath from rfl, delta]
        simp)
    · intro heq
      rw [heq, own _ (Or.inl rfl)] at delta
      simp at delta
  refine crashSafe_of_invariant
    (fun t => Ready c conf j io ob jd db [] t ∨ Finished c conf j ob oc n t) (Or.inl hready) ?_ ?_
  · rintro t ht oc' hoc
    simp only [Option.some.injEq] at hoc
    subst hoc
    rcases ht with ht | ht
    · exact Or.inl ⟨io, ob, ht.old, stored.content hc⟩
    · exact ht.recoverable hc stored gz
  · rintro t (ht | ht)
    · have hb : Begun j t := ⟨ht.wf, ht.root, ht.dup, ht.fin, ht.clear⟩
      refine jiggle_spec_of_file hj hb (fun v hp => Or.inl (hp.ready hj ht)) ?_
      intro u hp hdirf hdirn
      have hu : Ready c conf j io ob jd db [j.newpath.dropLast, j.finpath.dropLast] u :=
        { hp.ready hj ht with
          made := by
            intro q hq
            rcases List.mem_cons.mp hq with rfl | hq
            · exact hdirn
            · rw [List.mem_singleton] at hq
              rwa [hq] }
      have hdrop : ∀ v, Ready c conf j io ob jd db [j.newpath.dropLast, j.finpath.dropLast] v →
          Ready c conf j io ob jd db [] v := fun v hv => { hv with made := by simp }
      unfold jiggleFile
      refine Spec.bind (Spec.read (Or.inl (hdrop u hu)) ?_)
      simp only [hu.delta, if_true]
      refine (jigglePatch_spec hc hj (by rw [hgzo]; exact stored) hu
        (by rw [hgzd]; exact deltaStored) patch (by rw [hgzn]; exact gz)).mono
        (fun v hv => hv.imp (hdrop v) id) ?_
      rintro ok v - ⟨hok, hv⟩
      exact ⟨hok, hv.fin⟩
    · obtain ⟨k, hfin⟩ := ht.fin
      have hdelS : j.IsScratch j.delpath := Or.inr (Or.inr (Or.inr rfl))
      have hkeep : ∀ u, (∀ q, q ≠ j.deltafpath → look u q = look t q) →
          Finished c conf j ob oc n u := by
        intro u hu
        refine ⟨⟨k, (hu _ (Ne.symm hj.delta_fin)).trans hfin⟩, ?_⟩
        rcases ht.old with ⟨i, hi⟩ | ⟨m, hm⟩
        · exact Or.inl ⟨i, (hu _ (Ne.symm hj.delta_old)).trans hi⟩
        · exact Or.inr ⟨m, (hu _ (hj.delta _ hdelS hj.inf.2.2)).trans hm⟩
      refine (jiggle_placed hj hfin).mono (fun u hu => Or.inr (hkeep u hu)) ?_
      rintro ok u - ⟨hok, hu⟩
      exact ⟨hok, (hkeep u hu).fin⟩

end Main

/-! ## §3. Where it goes wrong. -/

section Harm

variable {c : Codec} {conf : Conf} {j : Job} (hj : j.Apart) {s t u : Node}

variable (c conf) in
theorem jiggleFile_eq_patch {i : Nat} {d : Bytes} (h : look t j.deltafpath = some (.file i d)) :
    jiggleFile c conf j t = jigglePatch c conf j t := by
  unfold jiggleFile isReg
  rw [Prog.read_bind]
  simp only [h, if_true]

theorem jiggleFile_eq_link {i : Nat} {d : Bytes}
    (nodelta : ∀ i d, look t j.deltafpath ≠ some (.file i d))
    (nonew : ∀ i d, look t j.newpath ≠ some (.file i d))
    (old : look t j.oldpath = some (.file i d)) :
    jiggleFile c conf j t = jiggleLink c conf j t := by
  unfold jiggleFile isReg
  rw [Prog.read_bind]
  simp only [Bool.false_eq_true, if_false]
  rw [Prog.read_bind]
  simp only [Bool.false_eq_true, if_false]
  rw [Prog.read_bind]
  simp only [old, if_true]

variable (c conf) in
/-- An uncompressed old file goes straight to `do_link`. -/
theorem inflateOrLinkOldfile_eq {i : Nat} {d : Bytes}
    (comp : dpthIsCompressed j.compression j.oldpath = false)
    (old : look t j.oldpath = some (.file i d)) :
    inflateOrLinkOldfile c conf j.oldpath j.infpath j.compression t
      = (if conf.maxHardlinks ≤ nlink t i then duplicateFile c j.oldpath j.infpath
          else link j.oldpath j.infpath) t := by
  unfold inflateOrLinkOldfile inflateOrLink lstat
  rw [Prog.read_bind]
  simp only [old, comp, Bool.false_eq_true, if_false]
  unfold doLink linkCount
  rw [Prog.read_bind]
  simp only [old]

/-- The truncation at the start of a copy is one of the points of a kill. -/
theorem mem_killed_duplicateFile {o p : Path} {i : Nat} {d : Bytes}
    (ho : look t o = some (.file i d)) : (openAt true p t).1 ∈ (duplicateFile c o p).killed t := by
  have hread : readFile o t = ([], some d) := by
    simp only [readFile, Prog.read, ho]
  unfold duplicateFile
  rw [Prog.killed_congr (congrArg Prod.fst (Prog.still_bind hread _))]
  refine Prog.mem_killed_bind.mpr (Or.inl ?_)
  rw [openWrite, Prog.killed_op]
  exact List.mem_cons_of_mem _ List.mem_cons_self

theorem mem_killed_jigglePatch
    (h : u ∈ (inflateOrLinkOldfile c conf j.oldpath j.infpath j.compression).killed t) :
    u ∈ (jigglePatch c conf j).killed t :=
  Prog.mem_killed_bind.mpr (Or.inl h)

include hj

/-- A first attempt can be killed when `inflate` is a link to the old file. -/
theorem exists_killed_linked (h : Begun j s) {io jd : Nat} {ob db : Bytes}
    (old : look s j.oldpath = some (.file io ob))
    (delta : look s j.deltafpath = some (.file jd db)) (inf : look s j.infpath = none)
    (comp : dpthIsCompressed j.compression j.oldpath = false)
    (links : nlink s io < conf.maxHardlinks) :
    ∃ v ∈ (jiggle c conf j).killed s, Begun j v ∧ look v j.oldpath = some (.file io ob)
      ∧ look v j.deltafpath = some (.file jd db) ∧ look v j.infpath = some (.file io ob)
      ∧ nlink v io = nlink s io + 1 := by
  have hinfS : j.IsScratch j.infpath := Or.inl rfl
  have hdf : j.deltafpath ≠ j.infpath := by
    intro heq
    rw [heq, inf] at delta
    simp at delta
  have hfwd : IsDir s j.deltafdir := isDir_of_look_append hj.datapth (q := j.datapth) (by
    rw [show j.deltafdir ++ j.datapth = j.deltafpath from rfl, delta]
    simp)
  obtain ⟨u, hpave, -, -, -, hback, -, -⟩ := jiggle_begun c conf hj h
  have holdu := hpave.file_iff.mpr old
  have hinfu : look u j.infpath = none := (hpave.same hj (Or.inl hinfS)).trans inf
  obtain ⟨-, hlook, hlinks⟩ := link_file holdu hinfu
    (by rw [infpath_dropLast]; exact hpave.isDir hfwd)
  have hne : ∀ {q}, q ≠ j.infpath → look ((link j.oldpath j.infpath).final u) q = look u q :=
    fun hq => (hlook _).trans (if_neg hq)
  refine ⟨(link j.oldpath j.infpath).final u, ?_, ?_, (hne (hj.old_ne hinfS)).trans holdu,
    (hne hdf).trans (hpave.file_iff.mpr delta), (hlook _).trans (if_pos rfl), ?_⟩
  · apply hback
    rw [Prog.killed_congr
        (congrArg Prod.fst (jiggleFile_eq_patch c conf (hpave.file_iff.mpr delta)))]
    apply mem_killed_jigglePatch
    rw [Prog.killed_congr
        (congrArg Prod.fst (inflateOrLinkOldfile_eq c conf comp holdu)), hpave.links,
      if_neg (Nat.not_le.mpr links)]
    exact Prog.final_mem_killed _ _
  · have hbu := hpave.begun hj h
    have hdir : ∀ {q}, IsDir u q → IsDir ((link j.oldpath j.infpath).final u) q := by
      intro q hq
      refine (hne ?_).trans hq
      rintro rfl
      rw [IsDir, hinfu] at hq
      simp at hq
    refine ⟨link_wf hbu.wf, hdir hbu.root, hdir hbu.dup, (hne (hj.fin_ne hinfS)).trans hbu.fin, ?_⟩
    intro limit p hb r hl hr hrp
    have hrinf : r ≠ j.infpath := by
      rintro rfl
      exact (hj.grow hb hl hr hrp).1 hinfS
    rcases hbu.clear hb r hl hr hrp with hr' | hr'
    · exact Or.inl ((hne hrinf).trans hr')
    · exact Or.inr (hdir hr')
  · rw [hlinks, if_pos rfl, hpave.links]

omit hj in
/-- Where `inflate` is there, it cannot be linked again. -/
theorem jiggleFile_link_exists {w : Node} {io jd : Nat} {ob db : Bytes}
    (old : look w j.oldpath = some (.file io ob))
    (delta : look w j.deltafpath = some (.file jd db))
    (inf : look w j.infpath = some (.file io ob))
    (comp : dpthIsCompressed j.compression j.oldpath = false)
    (links : nlink w io < conf.maxHardlinks) : (jiggleFile c conf j).result w = false := by
  have hinflate := inflateOrLinkOldfile_eq c conf comp old
  rw [if_neg (Nat.not_le.mpr links)] at hinflate
  have hres : (jiggleFile c conf j).result w = (jigglePatch c conf j).result w :=
    congrArg Prod.snd (jiggleFile_eq_patch c conf delta)
  have hlinkres : (inflateOrLinkOldfile c conf j.oldpath j.infpath j.compression).result w
      = (link j.oldpath j.infpath).result w := congrArg Prod.snd hinflate
  rw [hres]
  unfold jigglePatch
  rw [Prog.result_bind, hlinkres, (link_exists (by rw [inf]; simp)).1]
  rfl

/-- **The link is in the way.**  Killed after linking an uncompressed old file to
`inflate`, the next attempt fails, or truncates the old file. -/
theorem delta_not_crashSafe (h : Begun j s) {io jd : Nat} {ob db oc : Bytes} {want : Bytes}
    (old : look s j.oldpath = some (.file io ob)) (stored : Stores c j.gz ob oc)
    (delta : look s j.deltafpath = some (.file jd db)) (inf : look s j.infpath = none)
    (plain : j.gz = false) (links : nlink s io < conf.maxHardlinks)
    (harm : nlink s io + 1 < conf.maxHardlinks ∨ ob ≠ []) :
    ¬ CrashSafe c conf j s (some oc) want := by
  intro hsafe
  have comp : dpthIsCompressed j.compression j.oldpath = false := (gz_eq hj).1.trans plain
  -- the first attempt, up to the link
  obtain ⟨v, hkill, hbv, holdv, hdeltav, hinfv, hlinksv⟩ :
      ∃ v ∈ (jiggle c conf j).killed s, Begun j v ∧ _ :=
    exists_killed_linked hj h old delta inf comp links
  -- the second attempt
  obtain ⟨w, hpavew, -, -, -, hbackw, hresw, -⟩ := jiggle_begun c conf hj hbv
  have holdw := hpavew.file_iff.mpr holdv
  have hinfw := hpavew.file_iff.mpr hinfv
  have hdeltaw := hpavew.file_iff.mpr hdeltav
  by_cases hn : conf.maxHardlinks ≤ nlink s io + 1
  · -- too many links now: the copy truncates the old file through its link
    have hob : ob ≠ [] := harm.resolve_left (by omega)
    have hinflate := inflateOrLinkOldfile_eq c conf comp holdw
    rw [hpavew.links, hlinksv, if_pos hn] at hinflate
    have hkillw : (openAt true j.infpath w).1 ∈ (jiggle c conf j).killed v := by
      apply hbackw
      rw [Prog.killed_congr (congrArg Prod.fst (jiggleFile_eq_patch c conf hdeltaw))]
      apply mem_killed_jigglePatch
      rw [Prog.killed_congr (congrArg Prod.fst hinflate)]
      exact mem_killed_duplicateFile holdw
    have hrec := (hsafe _ (Relation.ReflTransGen.tail (Relation.ReflTransGen.single hkill)
      hkillw)).1 oc rfl
    have hopen : (openAt true j.infpath w).1 = onInode io (fun _ => []) w := by
      simp [openAt, hinfw]
    rw [plain] at stored
    obtain rfl : ob = oc := by simpa [Stores] using stored
    rcases hrec with ⟨i, b, hl, hcontent⟩ | ⟨k, b, x, hl, -⟩
    · rw [hopen, look_onInode, holdw] at hl
      simp only [Option.map_some, Entry.mapData, if_true, Option.some.injEq,
        Entry.file.injEq] at hl
      rw [plain, ← hl.2] at hcontent
      simp only [Codec.content, Bool.false_eq_true, if_false, Option.some.injEq] at hcontent
      exact hob hcontent.symm
    · have hbw := hpavew.begun hj hbv
      rw [hopen, look_onInode, hbw.fin] at hl
      simp at hl
  · have hfail : (jiggle c conf j).result v = false := by
      rw [hresw]
      refine jiggleFile_link_exists holdw hdeltaw hinfw comp ?_
      rw [hpavew.links, hlinksv]
      omega
    have := (hsafe v (Relation.ReflTransGen.single hkill)).2.1
    rw [hfail] at this
    exact Bool.false_ne_true this

/-- **A part is taken for the whole.**  Killed while an unchanged file is being copied,
the next attempt skips it. -/
theorem unchanged_not_crashSafe (h : Begun j s) {io : Nat} {ob : Bytes} {oldc : Option Bytes}
    (old : look s j.oldpath = some (.file io ob))
    (nonew : ∀ i d, look s j.newpath ≠ some (.file i d))
    (nodelta : ∀ i d, look s j.deltafpath ≠ some (.file i d))
    (links : conf.maxHardlinks ≤ nlink s io) (hob : ob ≠ []) :
    ¬ CrashSafe c conf j s oldc ob := by
  intro hsafe
  obtain ⟨u, hpave, hdirf, -, -, hback, -, -⟩ := jiggle_begun c conf hj h
  have holdu := hpave.file_iff.mpr old
  have hfinu := (hpave.begun hj h).fin
  obtain ⟨k, -, hput⟩ := openWrite_scratch (Scratch.of_absent hfinu hdirf)
  have hkill : (openWrite j.finpath).final u ∈ (jiggle c conf j).killed s := by
    apply hback
    rw [Prog.killed_congr (congrArg Prod.fst (jiggleFile_eq_link
      (fun i d hd => nodelta i d (hpave.file_iff.mp hd))
      (fun i d hd => nonew i d (hpave.file_iff.mp hd)) holdu))]
    unfold jiggleLink
    refine Prog.mem_killed_bind.mpr (Or.inl ?_)
    have hdo : doLink c conf j.oldpath j.finpath u = duplicateFile c j.oldpath j.finpath u := by
      unfold doLink linkCount
      rw [Prog.read_bind]
      simp only [holdu, hpave.links, links, if_true]
    rw [Prog.killed_congr (congrArg Prod.fst hdo)]
    exact mem_killed_duplicateFile holdu
  obtain ⟨k', hfin⟩ := (hsafe _ (Relation.ReflTransGen.single hkill)).2.2
  have hagain : Spec (jiggle c conf j) ((openWrite j.finpath).final u) _ _ :=
    jiggle_placed hj hput.look_self
  have hkeep := hagain.post.2 _ (Ne.symm hj.delta_fin)
  rw [hkeep, hput.look_self] at hfin
  simp only [Option.some.injEq, Entry.file.injEq] at hfin
  exact hob hfin.2.symm

end Harm

/-- **The shuffle of one file is crash safe exactly when it is harmless** to link or copy
the old file. -/
theorem jiggle_crash_safe_iff {c : Codec} (hc : c.Lawful) (conf : Conf) (fin : String)
    {datapth : Path} (hd : datapth ≠ []) (block : Nat) (record : Bytes) (hardlinked : Bool)
    (compression : Int) (s : Node) (oldc : Option Bytes) (want : Bytes)
    (h : Begun (shuffleJob fin datapth block record hardlinked compression) s)
    (hs : Start c conf (shuffleJob fin datapth block record hardlinked compression) s oldc want) :
    CrashSafe c conf (shuffleJob fin datapth block record hardlinked compression) s oldc want
      ↔ Harmless conf (shuffleJob fin datapth block record hardlinked compression) s = true := by
  have hj := shuffleJob_apart fin hd block record hardlinked compression
  generalize shuffleJob fin datapth block record hardlinked compression = j at h hs hj ⊢
  cases hs with
  | @delta io jd ob db oc d n old stored delta deltaStored inos patch gz own =>
      have hharm : Harmless conf j s = true ↔ j.gz = true ∨ conf.maxHardlinks ≤ nlink s io
          ∨ (nlink s io + 1 = conf.maxHardlinks ∧ ob = []) := by
        unfold Harmless
        rw [delta, own _ (Or.inr (Or.inl rfl)), old]
        simp [or_assoc]
      rw [hharm]
      constructor
      · intro hsafe
        by_contra hnot
        push Not at hnot
        obtain ⟨hgz, hlinks, hempty⟩ := hnot
        refine delta_not_crashSafe hj h old stored delta (own _ (Or.inl rfl))
          (Bool.eq_false_iff.mpr hgz) hlinks ?_ hsafe
        by_cases hn : nlink s io + 1 = conf.maxHardlinks
        · exact Or.inr (hempty hn)
        · exact Or.inl (by omega)
      · exact delta_crashSafe hc hj h old stored delta deltaStored inos patch gz own
  | @received k nb oldc new nodelta old =>
      have hharm : Harmless conf j s = true := by
        unfold Harmless
        rw [new]
        split <;> simp_all
      exact iff_of_true (received_crashSafe hc hj h new nodelta old) hharm
  | @unchanged io _ oc old stored nonew nodelta norev =>
      have hharm : Harmless conf j s = true ↔ nlink s io < conf.maxHardlinks ∨ want = [] := by
        unfold Harmless
        rw [old]
        split <;> simp_all
      rw [hharm]
      constructor
      · intro hsafe
        by_contra hnot
        push Not at hnot
        exact unchanged_not_crashSafe hj h old nonew nodelta hnot.1 hnot.2 hsafe
      · exact unchanged_crashSafe hc hj h old stored nonew nodelta norev

/-! ## §4. A store with an uncompressed file. -/

/-- The storage of a client with a forward delta for `f`, which is stored uncompressed. -/
def sampleStore : Node :=
  .dir [("w", .dir [("currentdup", .dir [("data", .dir [("f", .file 1 [1, 2])])]),
    ("deltas.forward", .dir [("f", .file 2 [65, 3])])])]

/-- The entry for `f`, without compression. -/
def sampleJob : Job := shuffleJob "w" ["f"] 64 [] false 0

theorem sampleJob_begun : Begun sampleJob sampleStore where
  wf := by simp [sampleStore, Node.WF, WFEntries]
  root := by decide
  dup := by decide
  fin := by decide
  clear := by
    rintro limit p (⟨rfl, rfl⟩ | ⟨rfl, rfl⟩ | ⟨rfl, rfl⟩)
    · exact clear_single (Or.inl (by decide))
    · exact clear_single (Or.inl (by decide))
    · exact clear_single (Or.inl (by decide))

theorem stores_plain {c : Codec} {j : Job} (h : j.gz = false) (b : Bytes) :
    Stores c j.gz b b := by
  rw [h]
  simp [Stores]

theorem sampleJob_old : look sampleStore sampleJob.oldpath = some (.file 1 [1, 2]) := by decide

theorem sampleJob_delta : look sampleStore sampleJob.deltafpath = some (.file 2 [65, 3]) := by
  decide

theorem sampleJob_start : Start sampleCodec { compression := 0 } sampleJob sampleStore
    (some [1, 2]) [3] :=
  .delta sampleJob_old (stores_plain (by decide) _) sampleJob_delta (stores_plain (by decide) _)
    (by decide) rfl (by decide) (by rintro p (rfl | rfl | rfl | rfl) <;> decide)

/-- The equivalence for that entry. -/
theorem jiggle_crash_safe_iff_sample :
    CrashSafe sampleCodec { compression := 0 } sampleJob sampleStore (some [1, 2]) [3]
      ↔ Harmless { compression := 0 } sampleJob sampleStore = true :=
  jiggle_crash_safe_iff sampleCodec_lawful { compression := 0 } "w" (by decide) 64 [] false 0
    sampleStore (some [1, 2]) [3] sampleJob_begun sampleJob_start

/-- Killed right after the link to `inflate`, the shuffle of that entry fails from then
on. -/
theorem uncompressed_delta_not_crash_safe :
    ¬ CrashSafe sampleCodec { compression := 0 } sampleJob sampleStore (some [1, 2]) [3] :=
  delta_not_crashSafe (shuffleJob_apart "w" (by decide) 64 [] false 0) sampleJob_begun
    sampleJob_old (stores_plain (by decide) _) sampleJob_delta (by decide) (by decide) (by decide)
    (Or.inl (by decide))

end Burp.Shuffle
