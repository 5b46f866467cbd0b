/-
  Burp.Phase3.Server — `backup_phase3_server`.

  Phase 3 merges the unchanged and phase 2 files into the manifest of the new backup.  Both
  are in the order of `sbuf_pathcmp`; of an entry that both of them have, the phase 2 file
  has the newer version.  In recovery mode, for a backup that has been interrupted, the
  loop ends with the phase 2 file.

  Main results:
    * `mergeLoop_isMerge` — the loop merges, in recovery mode up to the end of the second
      source.
    * `backupPhase3Server_run` — what becomes of the files.
    * `phase3_sorted_merge` — two completely written files are merged into a manifest.
-/
import Burp.Phase2.Decide
import Burp.Store.Order
import Burp.Store.Torn

namespace Burp.Phase3

open Crash FileSystem SortedMerge Burp.Store

/-! ## §1. The code. -/

/-- `get_tmp_filename`. -/
def getTmpFilename (p : Path) : Path := p.dropLast ++ [p.getLastD "" ++ ".tmp"]

/-- What the loop makes of the bytes of its two files. -/
def mergeFiles (recovery : Bool) (unchanged phase2 : Bytes) : Merged :=
  let u := Source.ofFile unchanged
  let p := if recovery then Source.whole phase2 else Source.ofFile phase2
  mergeLoop { lone := true, same := true, recovery := recovery } u.broken p.broken u.held p.held

/-- `backup_phase3_server`, with the compression level of a compressed manifest.  A call of
`sbuf_to_manifest` that fails ends the loop. -/
def backupPhase3Server (c : Codec) (level : Nat) (phase2data unchangeddata manifest : Path)
    (recovery compress : Bool) : Prog Node Bool := do
  match ← readFile unchangeddata with
  | none => pure false
  | some unchanged =>
      match ← readFile phase2data with
      | none => pure false
      | some phase2 =>
          match ← openWrite (getTmpFilename manifest) with
          | none => pure false
          | some i =>
              let merged := mergeFiles recovery unchanged phase2
              let written := merged.1.takeWhile fun sb => (sbufToManifest compress true sb).isSome
              appendAll i (c.pieces (listFile c compress true level written))
              if merged.2 ∧ written.length = merged.1.length then
                if ← rename (getTmpFilename manifest) manifest then
                  let _ ← unlink phase2data
                  let _ ← unlink unchangeddata
                  pure true
                else pure false
              else pure false

/-- `maybe_rebuild_manifest`. -/
def maybeRebuildManifest (c : Codec) (level : Nat) (phase2data unchangeddata manifest : Path)
    (compress : Bool) : Prog Node Bool := do
  match ← lstat manifest with
  | some _ =>
      let _ ← unlink phase2data
      let _ ← unlink unchangeddata
      pure true
  | none => backupPhase3Server c level phase2data unchangeddata manifest true compress

/-! ## §2. The loop. -/

/-- What the loop takes from the first source. -/
def kept (recovery : Bool) (ps us : List Sbuf) : List Sbuf :=
  if recovery then upTo Sbuf.key ps us else us

theorem increasing_kept {recovery : Bool} {ps us : List Sbuf} (h : Increasing Sbuf.key us) :
    Increasing Sbuf.key (kept recovery ps us) := by
  unfold kept
  split
  · exact h.filter _
  · exact h

theorem mem_of_kept {recovery : Bool} {ps us : List Sbuf} {x : Sbuf}
    (h : x ∈ kept recovery ps us) : x ∈ us := by
  unfold kept at h
  split at h
  · exact (mem_upTo.mp h).1
  · exact h

/-- The first entry is taken if the other source has one that is not before it. -/
theorem kept_cons {recovery : Bool} {u : Sbuf} {ps us : List Sbuf}
    (h : ∃ p ∈ ps, u.key ≤ p.key) : kept recovery ps (u :: us) = u :: kept recovery ps us := by
  unfold kept
  cases recovery with
  | false => rfl
  | true => exact upTo_cons h

theorem kept_drop {recovery : Bool} {p : Sbuf} {ps us : List Sbuf}
    (h : ∀ a ∈ us, p.key < a.key) : kept recovery (p :: ps) us = kept recovery ps us := by
  unfold kept
  cases recovery with
  | false => rfl
  | true => exact upTo_drop h

/-- The turns in which the first source is at `u`. -/
theorem mergeAt_isMerge {recovery : Bool} {u : Sbuf} {us : List Sbuf}
    {rest : List Sbuf → Merged} (hu : Increasing Sbuf.key (u :: us))
    (hrest : ∀ ps, Increasing Sbuf.key ps → (∀ a ∈ us, ∀ b ∈ ps, Compatible a b) →
      ∃ m, rest ps = (m, true) ∧ IsMerge Sbuf.key (kept recovery ps us) ps m) :
    ∀ ps, Increasing Sbuf.key ps → (∀ a ∈ u :: us, ∀ b ∈ ps, Compatible a b) →
      ∃ m, mergeAt { lone := true, same := true, recovery := recovery } false u rest ps = (m, true)
        ∧ IsMerge Sbuf.key (kept recovery ps (u :: us)) ps m := by
  intro ps
  induction ps with
  | nil =>
      intro hp hc
      unfold mergeAt
      cases recovery with
      | true =>
          refine ⟨[], rfl, ?_⟩
          rw [kept, if_pos rfl, upTo_nil]
          exact IsMerge.nil_left hp
      | false =>
          obtain ⟨m, hm, hmerge⟩ := hrest [] hp (by simp)
          refine ⟨u :: m, by simp [hm, Merged.write], ?_⟩
          exact IsMerge.left hu (by simp) hmerge
  | cons p ps ih =>
      intro hp hc
      have hpu := sbufPathcmp_spec (hc u List.mem_cons_self p List.mem_cons_self)
      unfold mergeAt
      by_cases heq : sbufPathcmp u p = 0
      · -- both are at the same key
        have hkey : u.key = p.key := hpu.2.mp heq
        have hus : ∀ a ∈ us, p.key < a.key := fun a ha => hkey ▸ hu.head a ha
        obtain ⟨m, hm, hmerge⟩ := hrest ps hp.tail fun a ha b hb =>
          hc a (List.mem_cons_of_mem _ ha) b (List.mem_cons_of_mem _ hb)
        refine ⟨p :: m, by simp [heq, hm, Merged.write], ?_⟩
        rw [kept_cons ⟨p, List.mem_cons_self, hkey.le⟩, kept_drop hus]
        refine IsMerge.both ?_ hp hkey hmerge
        rw [increasing_cons]
        exact ⟨fun a ha => hu.head a (mem_of_kept ha), increasing_kept hu.tail⟩
      · by_cases hlt : sbufPathcmp u p < 0
        · -- the first source is behind
          have hkey : u.key < p.key := hpu.1.mp hlt
          obtain ⟨m, hm, hmerge⟩ := hrest (p :: ps) hp fun a ha b hb =>
            hc a (List.mem_cons_of_mem _ ha) b hb
          refine ⟨u :: m, by simp [heq, hlt, hm, Merged.write], ?_⟩
          rw [kept_cons ⟨p, List.mem_cons_self, hkey.le⟩]
          refine IsMerge.left ?_ (hp.below hkey) hmerge
          rw [increasing_cons]
          exact ⟨fun a ha => hu.head a (mem_of_kept ha), increasing_kept hu.tail⟩
        · -- the second source is behind
          have hkey : p.key < u.key := by
            have hne : u.key ≠ p.key := fun h => heq (hpu.2.mpr h)
            have hnlt : ¬ u.key < p.key := fun h => hlt (hpu.1.mpr h)
            exact lt_of_le_of_ne (not_lt.mp hnlt) (Ne.symm hne)
          have hall := hu.below hkey
          obtain ⟨m, hm, hmerge⟩ := ih hp.tail fun a ha b hb =>
            hc a ha b (List.mem_cons_of_mem _ hb)
          refine ⟨p :: m, by simp [heq, hlt, hm, Merged.write], ?_⟩
          rw [kept_drop hall]
          exact IsMerge.right hp (fun a ha => hall a (mem_of_kept ha)) hmerge

/-- **The loop merges** its two sources, in recovery mode up to the last entry of the
second one. -/
theorem mergeLoop_isMerge (recovery : Bool) :
    ∀ {us ps : List Sbuf}, Increasing Sbuf.key us → Increasing Sbuf.key ps →
      (∀ a ∈ us, ∀ b ∈ ps, Compatible a b) →
      ∃ m, mergeLoop { lone := true, same := true, recovery := recovery } false false us ps
          = (m, true)
        ∧ IsMerge Sbuf.key (kept recovery ps us) ps m := by
  intro us
  induction us with
  | nil =>
      intro ps _ hp _
      refine ⟨ps, rfl, ?_⟩
      have hnil : kept recovery ps [] = [] := by
        unfold kept
        split <;> rfl
      rw [hnil]
      exact IsMerge.nil_left hp
  | cons u us ih =>
      intro ps hu hp hc
      exact mergeAt_isMerge hu (fun ps hp hc => ih hu.tail hp hc) ps hp hc

/-! ## §3. The files. -/

/-- A working directory in which phase 3 can begin.  There may be a temporary manifest that
an earlier attempt has left. -/
structure Prepared (w : Path) (t : Node) (unchanged phase2 : Bytes) : Prop where
  wf : t.WF
  dir : IsDir t w
  unchanged : ∃ i, look t (w ++ ["unchanged"]) = some (.file i unchanged)
  phase2 : ∃ i, look t (w ++ ["phase2"]) = some (.file i phase2)
  tmp : Own t (w ++ ["manifest.gz.tmp"])
  manifest : look t (w ++ ["manifest.gz"]) = none
    ∨ ∃ i d, look t (w ++ ["manifest.gz"]) = some (.file i d)

theorem getTmpFilename_manifest (w : Path) :
    getTmpFilename (w ++ ["manifest.gz"]) = w ++ ["manifest.gz.tmp"] := by
  unfold getTmpFilename
  rw [List.dropLast_concat, List.getLastD_concat]
  rfl

/-- `backup_phase3_server` on the files of a working directory. -/
def phase3In (c : Codec) (level : Nat) (w : Path) (recovery compress : Bool) : Prog Node Bool :=
  backupPhase3Server c level (w ++ ["phase2"]) (w ++ ["unchanged"]) (w ++ ["manifest.gz"])
    recovery compress

section Run

variable {c : Codec} {level : Nat} {w : Path} {t : Node} {unchanged phase2 : Bytes}
  {recovery compress : Bool} {out : List Sbuf}

/-- The files of a working directory have different names. -/
theorem name_ne {x y : String} (h : x ≠ y) : w ++ [x] ≠ w ++ [y] := by
  simpa using h

variable (level) in
/-- **What becomes of the files**, if the loop comes to its end and every entry can be
written. -/
theorem backupPhase3Server_run (hc : c.Lawful) (h : Prepared w t unchanged phase2)
    (hmerge : mergeFiles recovery unchanged phase2 = (out, true))
    (hout : ∀ sb ∈ out, (sbufToManifest compress true sb).isSome) :
    (phase3In c level w recovery compress).result t = true
      ∧ (∃ i, look ((phase3In c level w recovery compress).final t) (w ++ ["manifest.gz"])
          = some (.file i (listFile c compress true level out)))
      ∧ look ((phase3In c level w recovery compress).final t) (w ++ ["phase2"]) = none
      ∧ look ((phase3In c level w recovery compress).final t) (w ++ ["unchanged"]) = none := by
  obtain ⟨iu, hu⟩ := h.unchanged
  obtain ⟨ip, hp⟩ := h.phase2
  have hlen : out.takeWhile (fun sb => (sbufToManifest compress true sb).isSome) = out := by
    rw [List.takeWhile_eq_self_iff]
    exact hout
  have hparent : ∀ x : String, (w ++ [x]).dropLast = w := fun x => List.dropLast_concat
  have hscratch : Scratch t (w ++ ["manifest.gz.tmp"]) :=
    h.tmp.scratch (by rw [hparent]; exact h.dir)
  suffices hspec : Spec (phase3In c level w recovery compress) t (fun _ => True) fun ok u =>
      ok = true
        ∧ (∃ i, look u (w ++ ["manifest.gz"])
            = some (.file i (listFile c compress true level out)))
        ∧ look u (w ++ ["phase2"]) = none ∧ look u (w ++ ["unchanged"]) = none from hspec.post
  unfold phase3In backupPhase3Server
  refine Spec.bind (Spec.read trivial ?_)
  simp only [hu]
  refine Spec.bind (Spec.read trivial ?_)
  simp only [hp]
  obtain ⟨i, hres, hput⟩ := openWrite_scratch hscratch
  rw [getTmpFilename_manifest]
  refine Spec.bind (Spec.op trivial trivial ?_)
  have hres' : (openAt true (w ++ ["manifest.gz.tmp"]) t).2 = some i := hres
  simp only [hres', hmerge, hlen, and_self, if_true]
  refine Spec.bind ((appendAll_spec _ _ [] (fun _ _ _ _ => trivial) hput).mono
    (fun _ h => h) ?_)
  intro _ v _ hv
  rw [List.nil_append, hc.pieces_flatten] at hv
  -- the manifest gets its name, and the two files go
  have hmantmp : w ++ ["manifest.gz"] ≠ w ++ ["manifest.gz.tmp"] := name_ne (by decide)
  have hdirv : IsDir v (w ++ ["manifest.gz"]).dropLast := by
    rw [hparent]
    unfold IsDir
    rw [hv.look_ne (by simp)]
    exact h.dir
  have hman : look v (w ++ ["manifest.gz"]) = none
      ∨ ∃ j e, look v (w ++ ["manifest.gz"]) = some (.file j e) ∧ j ≠ i := by
    rw [hv.look_ne hmantmp]
    refine h.manifest.imp id ?_
    rintro ⟨j, e, hj⟩
    refine ⟨j, e, hj, ?_⟩
    rintro rfl
    exact hv.ino_new j _ rfl _ e hmantmp hj
  obtain ⟨hren, hlook⟩ := rename_over (by simp) (by simp) hv.look_self hman hdirv
  refine Spec.bind (Spec.op trivial trivial ?_)
  have hren' : (renameAt (w ++ ["manifest.gz.tmp"]) (w ++ ["manifest.gz"]) v).2 = true := hren
  have hlook' : ∀ r, look (renameAt (w ++ ["manifest.gz.tmp"]) (w ++ ["manifest.gz"]) v).1 r
      = if r = w ++ ["manifest.gz"] then some (.file i (listFile c compress true level out))
        else if r = w ++ ["manifest.gz.tmp"] then none else look v r := hlook
  rw [hren', if_pos rfl]
  generalize (renameAt (w ++ ["manifest.gz.tmp"]) (w ++ ["manifest.gz"]) v).1 = v₁ at hlook' ⊢
  have hp₁ : look v₁ (w ++ ["phase2"]) = some (.file ip phase2) := by
    rw [hlook', if_neg (name_ne (by decide)), if_neg (name_ne (by decide)),
      hv.look_ne (name_ne (by decide)), hp]
  obtain ⟨-, hdel, -⟩ := unlink_file (by simp) hp₁
  refine Spec.bind (Spec.op trivial trivial ?_)
  have hdel' : ∀ r, look (unlinkAt (w ++ ["phase2"]) v₁).1 r
      = if r = w ++ ["phase2"] then none else look v₁ r := hdel
  generalize (unlinkAt (w ++ ["phase2"]) v₁).1 = v₂ at hdel' ⊢
  have hu₂ : look v₂ (w ++ ["unchanged"]) = some (.file iu unchanged) := by
    rw [hdel', if_neg (name_ne (by decide)), hlook', if_neg (name_ne (by decide)),
      if_neg (name_ne (by decide)), hv.look_ne (name_ne (by decide)), hu]
  obtain ⟨-, hdel₂, -⟩ := unlink_file (by simp) hu₂
  refine Spec.bind (Spec.op trivial trivial ?_)
  have hdel₂' : ∀ r, look (unlinkAt (w ++ ["unchanged"]) v₂).1 r
      = if r = w ++ ["unchanged"] then none else look v₂ r := hdel₂
  refine Spec.pure trivial ⟨rfl, ⟨i, ?_⟩, ?_, ?_⟩
  · rw [hdel₂', if_neg (name_ne (by decide)), hdel', if_neg (name_ne (by decide)), hlook',
      if_pos rfl]
  · rw [hdel₂', if_neg (name_ne (by decide)), hdel', if_pos rfl]
  · rw [hdel₂', if_pos rfl]

end Run

/-! ## §4. A backup that has run to its end. -/

/-- Two files as phase 2 leaves them: what a record can hold, in the order of
`sbuf_pathcmp`, and no path with both metadata and trailing vss data. -/
structure Mergeable (us ps : List Sbuf) : Prop where
  recordable : ∀ sb ∈ us ++ ps, Recordable sb
  unchanged : us.Pairwise fun a b => sbufPathcmp a b < 0
  phase2 : ps.Pairwise fun a b => sbufPathcmp a b < 0
  compatible : ∀ a ∈ us ++ ps, ∀ b ∈ us ++ ps, Compatible a b

/-- `m` is in order and holds each entry of either file once; where both have one of the
same key, the phase 2 version. -/
structure Merges (us ps m : List Sbuf) : Prop where
  increasing : m.Pairwise fun a b => sbufPathcmp a b < 0
  mem_iff : ∀ x, x ∈ m ↔ x ∈ ps ∨ x ∈ us ∧ ∀ p ∈ ps, sbufPathcmp p x ≠ 0

theorem increasing_iff {l : List Sbuf} (hc : ∀ a ∈ l, ∀ b ∈ l, Compatible a b) :
    Increasing Sbuf.key l ↔ l.Pairwise fun a b => sbufPathcmp a b < 0 :=
  List.Pairwise.iff_of_mem fun ha hb => (sbufPathcmp_spec (hc _ ha _ hb)).1.symm

/-- The merge by keys is the one by `sbuf_pathcmp`. -/
theorem merges_iff {us ps m : List Sbuf} (hc : ∀ a ∈ us ++ ps, ∀ b ∈ us ++ ps, Compatible a b) :
    Merges us ps m ↔ IsMerge Sbuf.key us ps m := by
  have hkey : ∀ x ∈ us, ((∀ p ∈ ps, sbufPathcmp p x ≠ 0) ↔ ∀ p ∈ ps, p.key ≠ x.key) := by
    intro x hx
    refine forall₂_congr fun p hp => not_congr ?_
    exact (sbufPathcmp_spec (hc p (List.mem_append_right _ hp) x
      (List.mem_append_left _ hx))).2
  have hmem : (∀ x, x ∈ m ↔ x ∈ ps ∨ x ∈ us ∧ ∀ p ∈ ps, sbufPathcmp p x ≠ 0)
      ↔ ∀ x, x ∈ m ↔ x ∈ ps ∨ x ∈ us ∧ ∀ p ∈ ps, p.key ≠ x.key := by
    refine forall_congr' fun x => iff_congr Iff.rfl (or_congr_right ?_)
    exact and_congr_right fun hx => hkey x hx
  have hsub : (∀ x, x ∈ m ↔ x ∈ ps ∨ x ∈ us ∧ ∀ p ∈ ps, p.key ≠ x.key) →
      ∀ a ∈ m, ∀ b ∈ m, Compatible a b := by
    intro h
    have hin : ∀ a ∈ m, a ∈ us ++ ps := by
      intro a ha
      rcases (h a).mp ha with ha | ha
      · exact List.mem_append_right _ ha
      · exact List.mem_append_left _ ha.1
    exact fun a ha b hb => hc a (hin a ha) b (hin b hb)
  constructor
  · intro h
    have hm := hmem.mp h.mem_iff
    exact ⟨(increasing_iff (hsub hm)).mpr h.increasing, hm⟩
  · intro h
    exact ⟨(increasing_iff (hsub h.mem_iff)).mp h.increasing, hmem.mpr h.mem_iff⟩

/-- The manifest in the working directory, as a list of entries. -/
def manifestOf (c : Codec) (compress : Bool) (w : Path) (u : Node) : Option (List Sbuf × Ars) :=
  match look u (w ++ ["manifest.gz"]) with
  | some (.file _ d) => (c.content compress d).map (readAll true)
  | _ => none

theorem manifestOf_listFile {c : Codec} (hc : c.Lawful) {compress : Bool} {level : Nat}
    {w : Path} {u : Node} {out : List Sbuf} (hout : ∀ sb ∈ out, Recordable sb)
    (h : ∃ i, look u (w ++ ["manifest.gz"]) = some (.file i (listFile c compress true level out))) :
    manifestOf c compress w u = some (out, .ended) := by
  obtain ⟨i, hi⟩ := h
  unfold manifestOf
  rw [hi]
  exact readsBack_of_short hc compress true level (fun sb hsb => (hout sb hsb).toWellFormed)
    (fun sb hsb => by rw [(hout sb hsb).written]; rfl) fun sb hsb => (hout sb hsb).sbufShort

/-- **Phase 3 is a sorted merge.** -/
theorem phase3_sorted_merge {c : Codec} (hc : c.Lawful) {level : Nat} {w : Path} {t : Node}
    {us ps : List Sbuf} (compress : Bool) (h : Mergeable us ps)
    (ht : Prepared w t (manifestBytes us) (manifestBytes ps)) :
    (phase3In c level w false compress).result t = true
      ∧ ∃ m, manifestOf c compress w ((phase3In c level w false compress).final t)
          = some (m, .ended)
        ∧ Merges us ps m := by
  have hu : ∀ sb ∈ us, Recordable sb := fun sb hsb => h.recordable sb (List.mem_append_left _ hsb)
  have hp : ∀ sb ∈ ps, Recordable sb := fun sb hsb => h.recordable sb (List.mem_append_right _ hsb)
  have hcu : ∀ a ∈ us, ∀ b ∈ us, Compatible a b := fun a ha b hb =>
    h.compatible a (List.mem_append_left _ ha) b (List.mem_append_left _ hb)
  have hcp : ∀ a ∈ ps, ∀ b ∈ ps, Compatible a b := fun a ha b hb =>
    h.compatible a (List.mem_append_right _ ha) b (List.mem_append_right _ hb)
  obtain ⟨m, hloop, hmerge⟩ := mergeLoop_isMerge false
    ((increasing_iff hcu).mpr h.unchanged) ((increasing_iff hcp).mpr h.phase2)
    fun a ha b hb => h.compatible a (List.mem_append_left _ ha) b (List.mem_append_right _ hb)
  have hfiles : mergeFiles false (manifestBytes us) (manifestBytes ps) = (m, true) := by
    unfold mergeFiles
    simp only [Bool.false_eq_true, if_false, ofFile_manifestBytes hu, ofFile_manifestBytes hp]
    exact hloop
  have hm : ∀ sb ∈ m, Recordable sb := by
    intro sb hsb
    rcases (hmerge.mem_iff sb).mp hsb with hsb | hsb
    · exact hp sb hsb
    · exact hu sb hsb.1
  obtain ⟨hres, hman, -, -⟩ := backupPhase3Server_run level hc ht hfiles
    fun sb hsb => by rw [(hm sb hsb).written]; rfl
  exact ⟨hres, m, manifestOf_listFile hc hm hman, (merges_iff h.compatible).mpr hmerge⟩

theorem recordable_sample : ∀ sb ∈ [sampleFile] ++ [sampleLink], Recordable sb := by
  intro sb hsb
  simp only [List.cons_append, List.nil_append, List.mem_cons, List.not_mem_nil, or_false] at hsb
  rcases hsb with rfl | rfl
  · exact ⟨wellFormed_sampleFile, length_texts_sample.1⟩
  · exact ⟨wellFormed_sampleLink, length_texts_sample.2⟩

/-- A file that is unchanged, and a link that comes after it. -/
theorem mergeable_sample : Mergeable [sampleFile] [sampleLink] where
  recordable := recordable_sample
  unchanged := by simp
  phase2 := by simp
  compatible := by
    intro a ha b hb
    simp only [List.cons_append, List.nil_append, List.mem_cons, List.not_mem_nil, or_false]
      at ha hb
    rcases ha with rfl | rfl <;> rcases hb with rfl | rfl <;> decide

/-- The client's directory, with a working directory `w`. -/
def sampleTree (unchanged phase2 : Bytes) : Node :=
  .dir [("w", .dir [("unchanged", .file 1 unchanged), ("phase2", .file 2 phase2)])]

theorem prepared_sampleTree (unchanged phase2 : Bytes) :
    Prepared ["w"] (sampleTree unchanged phase2) unchanged phase2 where
  wf := by simp [sampleTree, Node.WF, WFEntries]
  dir := rfl
  unchanged := ⟨1, rfl⟩
  phase2 := ⟨2, rfl⟩
  tmp := Own.of_absent rfl
  manifest := Or.inl rfl

/-- The merge of the two. -/
theorem phase3_sorted_merge_sample :
    (phase3In sampleCodec 9 ["w"] false true).result
      (sampleTree (manifestBytes [sampleFile]) (manifestBytes [sampleLink])) = true :=
  (phase3_sorted_merge sampleCodec_lawful true mergeable_sample (prepared_sampleTree _ _)).1

end Burp.Phase3
