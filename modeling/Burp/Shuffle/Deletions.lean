/-
  Burp.Shuffle.Deletions — the entries that are deleted from a manifest.

  Where a delta does not apply, `jiggle` appends the entry to the deletions file, and at the
  end of the shuffling these entries are left out of the manifest.  A shuffling that is killed
  is begun again and appends to the same file, so that the file holds several passes over the
  manifest, one behind the other, and is not in order.  The loop that leaves the entries out
  passes over those that are behind in the deletions file, and these have been there before.

  Main results:
    * `deleteLoop_eq` — the loop leaves out the entries of several passes.
    * `maybeDelete_exact` — the manifest afterwards.
-/
import Burp.Shuffle.Phase4
import Burp.Store.Order
import Burp.Store.Torn

namespace Burp.Shuffle

open Crash FileSystem SortedMerge Burp.Store

/-! ## §1. Passes. -/

/-- What one pass over a manifest records, and the place that it reaches. -/
abbrev Pass := Nat × List Sbuf

/-- The entries of the deletions file. -/
def recorded (passes : List Pass) : List Sbuf := passes.flatMap Prod.snd

/-- The passes of several shufflings: each one records entries of the manifest, in order,
from its beginning up to the place that it reaches.  Up to there a later pass records only
what this one has recorded, because the other files have been put into place. -/
structure Passes (m : List Sbuf) (passes : List Pass) : Prop where
  sub : ∀ q ∈ passes, q.2.Sublist m ∧ ∀ sb ∈ q.2, sb ∈ m.take q.1
  again : passes.Pairwise fun q r => ∀ sb ∈ r.2, sb ∈ m.take q.1 → sb ∈ q.2

/-- The entries of the manifest that are at the place of none of the deletions. -/
def undeleted (deletions m : List Sbuf) : List Sbuf :=
  m.filter fun sb => !deletions.any fun d => decide (sbufPathcmp sb d = 0)

/-! ## §2. The loop. -/

/-- The turns of the loop in which the manifest is at `u`. -/
theorem mergeAt_without {u : Sbuf} {us : List Sbuf} {rest : List Sbuf → Merged}
    (hu : Increasing Sbuf.key (u :: us))
    (hrest : ∀ ps, Removable Sbuf.key us ps → (∀ a ∈ us, ∀ b ∈ ps, Compatible a b) →
      rest ps = (without Sbuf.key ps us, true)) :
    ∀ ps, Removable Sbuf.key (u :: us) ps → (∀ a ∈ u :: us, ∀ b ∈ ps, Compatible a b) →
      mergeAt { lone := false, same := false } false u rest ps
        = (without Sbuf.key ps (u :: us), true) := by
  intro ps
  induction ps with
  | nil =>
      intro hr hc
      simp [mergeAt, hrest [] (hr.left hu) (by simp), Merged.write, without_nil]
  | cons p ps ih =>
      intro hr hc
      have hpu := sbufPathcmp_spec (hc u List.mem_cons_self p List.mem_cons_self)
      have hcu : ∀ a ∈ us, ∀ b ∈ p :: ps, Compatible a b := fun a ha =>
        hc a (List.mem_cons_of_mem _ ha)
      unfold mergeAt
      by_cases heq : sbufPathcmp u p = 0
      · -- both are at the same key: nothing else of the manifest is
        have hkey : u.key = p.key := hpu.2.mp heq
        have hbelow : ∀ a ∈ us, p.key < a.key := fun a ha => hkey ▸ hu.head a ha
        have hright := (hr.left hu).right hbelow
        have hout : without Sbuf.key (p :: ps) (u :: us) = without Sbuf.key ps us := by
          rw [← without_below hbelow]
          unfold without
          rw [List.filter_cons_of_neg]
          simp [hkey]
        simp [heq, hout, hrest ps hright fun a ha b hb => hcu a ha b (List.mem_cons_of_mem _ hb)]
      · by_cases hlt : sbufPathcmp u p < 0
        · -- behind in the manifest
          have hstays := hr.not_any (hpu.1.mp hlt)
          have hout : without Sbuf.key (p :: ps) (u :: us)
              = u :: without Sbuf.key (p :: ps) us := by
            unfold without
            rw [List.filter_cons_of_pos]
            simpa using hstays
          simp [heq, hlt, hout, hrest (p :: ps) (hr.left hu) hcu, Merged.write]
        · -- behind in the deletions file
          have hkey : p.key < u.key := by
            have hne : u.key ≠ p.key := fun h => heq (hpu.2.mpr h)
            have hnlt : ¬ u.key < p.key := fun h => hlt (hpu.1.mpr h)
            exact lt_of_le_of_ne (not_lt.mp hnlt) (Ne.symm hne)
          have hall := hu.below hkey
          have hnext := ih (hr.right hall) fun a ha b hb => hc a ha b (List.mem_cons_of_mem _ hb)
          simp [heq, hlt, hnext, without_below hall]

theorem mergeLoop_without :
    ∀ {us ps : List Sbuf}, Increasing Sbuf.key us → Removable Sbuf.key us ps →
      (∀ a ∈ us, ∀ b ∈ ps, Compatible a b) →
      mergeLoop { lone := false, same := false } false false us ps
        = (without Sbuf.key ps us, true) := by
  intro us
  induction us with
  | nil =>
      intro ps _ _ _
      rfl
  | cons u us ih =>
      intro ps hu hr hc
      exact mergeAt_without hu (fun ps hr hc => ih hu.tail hr hc) ps hr hc

/-- The entries of the passes are entries of the manifest. -/
theorem Passes.mem {m : List Sbuf} {passes : List Pass} (h : Passes m passes) :
    ∀ sb ∈ recorded passes, sb ∈ m := by
  intro sb hsb
  obtain ⟨q, hq, hsbq⟩ := List.mem_flatMap.mp hsb
  exact (h.sub q hq).1.subset hsbq

/-- **The loop leaves out the entries of the passes**, and no others. -/
theorem deleteLoop_eq {m : List Sbuf} {passes : List Pass}
    (hm : m.Pairwise fun a b => sbufPathcmp a b < 0) (h : Passes m passes) :
    deleteLoop ⟨m, false⟩ ⟨recorded passes, false⟩ = (undeleted (recorded passes) m, true) := by
  have hc := compatible_of_pairwise hm
  have hinc : Increasing Sbuf.key m :=
    (List.Pairwise.iff_of_mem fun ha hb => (sbufPathcmp_spec (hc _ ha _ hb)).1).mp hm
  have hloop := mergeLoop_without hinc (Removable.of_passes hinc h.sub h.again)
    fun a ha b hb => hc a ha b (h.mem b hb)
  unfold deleteLoop
  refine hloop.trans (congrArg (fun out => (out, true)) ?_)
  apply without_eq_filter
  intro sb hsb
  simp only [Bool.not_eq_true', List.any_eq_false, decide_eq_true_eq]
  refine forall_congr' fun d => forall_congr' fun hd => not_congr ?_
  rw [(sbufPathcmp_spec (hc sb hsb d (h.mem d hd))).2]
  exact eq_comm

/-! ## §3. The files. -/

/-- A finishing directory with deletions.  There may be a temporary manifest that an earlier
attempt has left. -/
structure Pending (fin : Path) (t : Node) (manifest deletions : Bytes) : Prop where
  dir : IsDir t fin
  manifest : ∃ i, look t (fin ++ ["manifest.gz"]) = some (.file i manifest)
  deletions : ∃ i, look t (fin ++ ["deletions"]) = some (.file i deletions)
  tmp : Own t (fin ++ ["manifest.gz.tmp"])

/-- `maybe_delete_files_from_manifest` on the files of the finishing directory. -/
def deleteIn (c : Codec) (conf : Conf) (fin : Path) : Prog Node Bool :=
  maybeDeleteFilesFromManifest c conf (fin ++ ["manifest.gz"]) (fin ++ ["manifest.gz.tmp"])
    (fin ++ ["deletions"])

theorem file_ne {fin : Path} {x y : String} (h : x ≠ y) : fin ++ [x] ≠ fin ++ [y] := by
  simpa using h

/-- What becomes of the files, if the loop comes to its end. -/
theorem deleteIn_run {c : Codec} (hc : c.Lawful) (conf : Conf) {fin : Path} {t : Node}
    {man del : Bytes} {out : List Sbuf} (h : Pending fin t man del)
    (hloop : deleteLoop (gzSource c man) (Source.ofFile del) = (out, true)) :
    (deleteIn c conf fin).result t = true
      ∧ (∃ i, look ((deleteIn c conf fin).final t) (fin ++ ["manifest.gz"])
          = some (.file i (c.gzip conf.compression (manifestBytes out))))
      ∧ look ((deleteIn c conf fin).final t) (fin ++ ["deletions"]) = none := by
  obtain ⟨im, hm⟩ := h.manifest
  obtain ⟨id, hd⟩ := h.deletions
  have hparent : ∀ x : String, (fin ++ [x]).dropLast = fin := fun x => List.dropLast_concat
  have hscratch : Scratch t (fin ++ ["manifest.gz.tmp"]) :=
    h.tmp.scratch (by rw [hparent]; exact h.dir)
  suffices hspec : Spec (deleteIn c conf fin) t (fun _ => True) fun ok u =>
      ok = true
        ∧ (∃ i, look u (fin ++ ["manifest.gz"])
            = some (.file i (c.gzip conf.compression (manifestBytes out))))
        ∧ look u (fin ++ ["deletions"]) = none from hspec.post
  unfold deleteIn maybeDeleteFilesFromManifest
  refine Spec.bind (Spec.read trivial ?_)
  simp only [hd]
  refine Spec.bind (Spec.read trivial ?_)
  simp only [hd]
  refine Spec.bind (Spec.read trivial ?_)
  simp only [hm]
  obtain ⟨i, hres, hput⟩ := openWrite_scratch hscratch
  refine Spec.bind (Spec.op trivial trivial ?_)
  have hres' : (openAt true (fin ++ ["manifest.gz.tmp"]) t).2 = some i := hres
  simp only [hres', hloop, if_true]
  refine Spec.bind ((appendAll_spec _ _ [] (fun _ _ _ _ => trivial) hput).mono
    (fun _ h => h) ?_)
  intro _ v _ hv
  rw [List.nil_append, hc.pieces_flatten] at hv
  -- the deletions go, and the manifest gets its name
  have hdv : look v (fin ++ ["deletions"]) = some (.file id del) := by
    rw [hv.look_ne (file_ne (by decide)), hd]
  obtain ⟨-, hunl, -⟩ := unlink_file (by simp) hdv
  refine Spec.bind (Spec.op trivial trivial ?_)
  have hunl' : ∀ r, look (unlinkAt (fin ++ ["deletions"]) v).1 r
      = if r = fin ++ ["deletions"] then none else look v r := hunl
  generalize (unlinkAt (fin ++ ["deletions"]) v).1 = v₁ at hunl' ⊢
  have htmp : look v₁ (fin ++ ["manifest.gz.tmp"])
      = some (.file i (c.gzip conf.compression (manifestBytes out))) := by
    rw [hunl', if_neg (file_ne (by decide)), hv.look_self]
  have hman : look v₁ (fin ++ ["manifest.gz"]) = some (.file im man) := by
    rw [hunl', if_neg (file_ne (by decide)), hv.look_ne (file_ne (by decide)), hm]
  have hne : im ≠ i := by
    rintro rfl
    exact hv.ino_new im _ rfl _ man (file_ne (by decide)) hm
  have hdir : IsDir v₁ (fin ++ ["manifest.gz"]).dropLast := by
    rw [hparent]
    unfold IsDir
    rw [hunl', if_neg (by simp), hv.look_ne (by simp)]
    exact h.dir
  obtain ⟨hren, hlook⟩ := rename_over (by simp) (by simp) htmp (Or.inr ⟨im, man, hman, hne⟩) hdir
  refine Spec.bind (Spec.op trivial trivial ?_)
  have hren' : (renameAt (fin ++ ["manifest.gz.tmp"]) (fin ++ ["manifest.gz"]) v₁).2 = true := hren
  have hlook' : ∀ r, look (renameAt (fin ++ ["manifest.gz.tmp"]) (fin ++ ["manifest.gz"]) v₁).1 r
      = if r = fin ++ ["manifest.gz"]
          then some (.file i (c.gzip conf.compression (manifestBytes out)))
        else if r = fin ++ ["manifest.gz.tmp"] then none else look v₁ r := hlook
  rw [hren', if_pos rfl]
  generalize (renameAt (fin ++ ["manifest.gz.tmp"]) (fin ++ ["manifest.gz"]) v₁).1 = v₂
    at hlook' ⊢
  have hgone : look v₂ (fin ++ ["manifest.gz.tmp"]) = none := by
    rw [hlook', if_neg (file_ne (by decide)), if_pos rfl]
  refine Spec.bind (Spec.op trivial trivial ?_)
  have hlast : (unlinkAt (fin ++ ["manifest.gz.tmp"]) v₂).1 = v₂ := (unlink_absent hgone).2
  rw [hlast]
  refine Spec.pure trivial ⟨rfl, ⟨i, ?_⟩, ?_⟩
  · rw [hlook', if_pos rfl]
  · rw [hlook', if_neg (file_ne (by decide)), if_neg (file_ne (by decide)), hunl', if_pos rfl]

/-- The manifest in the finishing directory, as a merge loop reads it. -/
def manifestIn (c : Codec) (fin : Path) (t : Node) : Option Source :=
  match look t (fin ++ ["manifest.gz"]) with
  | some (.file _ b) => some (gzSource c b)
  | _ => none

/-- **Deletions are removed from the manifest exactly:** what is left are, in their order, the
entries that no pass has recorded. -/
theorem maybeDelete_exact {c : Codec} (hc : c.Lawful) (conf : Conf) {fin : Path} {t : Node}
    {m : List Sbuf} {passes : List Pass} {man : Bytes} (hrec : ∀ sb ∈ m, Recordable sb)
    (hm : m.Pairwise fun a b => sbufPathcmp a b < 0) (hp : Passes m passes)
    (hman : c.gzread man = some (manifestBytes m))
    (ht : Pending fin t man (manifestBytes (recorded passes))) :
    (deleteIn c conf fin).result t = true
      ∧ manifestIn c fin ((deleteIn c conf fin).final t)
          = some ⟨undeleted (recorded passes) m, false⟩ := by
  have hsource : gzSource c man = ⟨m, false⟩ := by
    rw [gzSource, hman]
    exact ofFile_manifestBytes hrec
  have hdel : Source.ofFile (manifestBytes (recorded passes)) = ⟨recorded passes, false⟩ :=
    ofFile_manifestBytes fun sb hsb => hrec sb (hp.mem sb hsb)
  obtain ⟨hres, ⟨i, hfile⟩, -⟩ := deleteIn_run hc conf ht
    (by rw [hsource, hdel]; exact deleteLoop_eq hm hp)
  refine ⟨hres, ?_⟩
  rw [manifestIn, hfile]
  show some (gzSource c _) = _
  rw [gzSource, hc.gzread_gzip]
  exact congrArg some (ofFile_manifestBytes fun sb hsb => hrec sb (List.mem_filter.mp hsb).1)

/-- A finishing directory `f`: a file and a link, and two passes that have recorded the
file. -/
def twicePending : Node :=
  .dir [("f", .dir
    [("manifest.gz", .file 1 (31 :: 139 :: manifestBytes [sampleFile, sampleLink])),
      ("deletions", .file 2 (manifestBytes [sampleFile, sampleFile]))])]

/-- The link is left. -/
theorem maybeDelete_exact_twice :
    manifestIn sampleCodec ["f"] ((deleteIn sampleCodec {} ["f"]).final twicePending)
      = some ⟨[sampleLink], false⟩ := by
  have hp : Passes [sampleFile, sampleLink] [(1, [sampleFile]), (2, [sampleFile])] :=
    ⟨by decide, by decide⟩
  have hrec : ∀ sb ∈ [sampleFile, sampleLink], Recordable sb := by
    intro sb hsb
    simp only [List.mem_cons, List.not_mem_nil, or_false] at hsb
    rcases hsb with rfl | rfl
    · exact ⟨wellFormed_sampleFile, length_texts_sample.1⟩
    · exact ⟨wellFormed_sampleLink, length_texts_sample.2⟩
  have ht : Pending ["f"] twicePending (31 :: 139 :: manifestBytes [sampleFile, sampleLink])
      (manifestBytes (recorded [(1, [sampleFile]), (2, [sampleFile])])) :=
    ⟨rfl, ⟨1, rfl⟩, ⟨2, rfl⟩, Own.of_absent rfl⟩
  have hleft : undeleted (recorded [(1, [sampleFile]), (2, [sampleFile])])
      [sampleFile, sampleLink] = [sampleLink] := by decide
  exact hleft ▸ (maybeDelete_exact sampleCodec_lawful {} hrec (by decide) hp rfl ht).2

end Burp.Shuffle
