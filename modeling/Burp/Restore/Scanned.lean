/-
  Burp.Restore.Scanned — what a restore sends of what the client has scanned.

  A backup goes through three lists: the entries of the scan, the unchanged and phase 2 files
  that phase 2 makes of them, and the manifest that phase 3 makes of these.  A restore goes
  through the manifest.

  Main results:
    * `newManifest_labels` — the new manifest has the entries of the scan in their order,
      without the ones that the client has interrupted.
    * `restore_sends_scanned` — a restore sends each of them that is selected once, and a
      directory after all that is below it.
-/
import Burp.Phase2.Attributes
import Burp.Restore.Manifest

namespace Burp.Restore

open FileSystem SortedMerge Burp.Store Burp.Phase2 Burp.Phase3

/-! ## §1. The new manifest. -/

/-- The entries of the scan that have not been interrupted. -/
def backedUp (p1 : List Sbuf) (c : Client) : List (Store.Cmd × Option Bytes) :=
  (p1.map Sbuf.label).filter fun l => l ∉ c.interrupted.map Sbuf.label

section NewManifest

variable {conf : Conf} {p1 : List Sbuf} {cman : Option (List Sbuf)} {s : State} {c : Client}

/-- What is in the two files is called like an entry of the list. -/
theorem label_mem (h : Closed (decisions conf cman {} p1) s c) (hp1 : InOrder p1) {a : Sbuf}
    (ha : a ∈ unchangeds s.log ++ phase2s s.log) : Sbuf.label a ∈ p1.map Sbuf.label := by
  rcases List.mem_append.mp ha with ha | ha
  · exact h.split.2.1.mem (List.mem_map_of_mem ha)
  · have hrec : Sbuf.label a ∈ c.received.map Sbuf.label := by
      rw [← h.received hp1.paths]
      exact List.mem_map_of_mem ha
    exact h.split.2.2.mem (((received_sublist c).map _).mem hrec)

/-- Whether two entries can be compared depends on what they are called. -/
theorem compatible_of_labels (hp1 : InOrder p1) {a b : Sbuf}
    (ha : Sbuf.label a ∈ p1.map Sbuf.label) (hb : Sbuf.label b ∈ p1.map Sbuf.label) :
    Compatible a b := by
  obtain ⟨x, hx, hxa⟩ := List.mem_map.mp ha
  obtain ⟨y, hy, hyb⟩ := List.mem_map.mp hb
  obtain ⟨hxcmd, hxpath⟩ := Prod.mk.inj hxa
  obtain ⟨hycmd, hypath⟩ := Prod.mk.inj hyb
  have hxy := compatible_of_pairwise hp1.sorted x hx y hy
  unfold Compatible at hxy ⊢
  rwa [hxcmd, hxpath, hycmd, hypath] at hxy

/-- **The two files are merged.** -/
theorem newManifest_merges (h : Closed (decisions conf cman {} p1) s c) (hp1 : InOrder p1) :
    Merges (unchangeds s.log) (phase2s s.log) (newManifest (unchangeds s.log) (phase2s s.log)) := by
  obtain ⟨-, hus, hps⟩ := h.sorted hp1.paths hp1.sorted
  have hcompat : ∀ a ∈ unchangeds s.log ++ phase2s s.log,
      ∀ b ∈ unchangeds s.log ++ phase2s s.log, Compatible a b := fun a ha b hb =>
    compatible_of_labels hp1 (label_mem h hp1 ha) (label_mem h hp1 hb)
  have hcu : ∀ a ∈ unchangeds s.log, ∀ b ∈ unchangeds s.log, Compatible a b := fun a ha b hb =>
    hcompat a (List.mem_append_left _ ha) b (List.mem_append_left _ hb)
  have hcp : ∀ a ∈ phase2s s.log, ∀ b ∈ phase2s s.log, Compatible a b := fun a ha b hb =>
    hcompat a (List.mem_append_right _ ha) b (List.mem_append_right _ hb)
  obtain ⟨m, hm, hmerge⟩ := mergeLoop_isMerge false ((increasing_iff hcu).mpr hus)
    ((increasing_iff hcp).mpr hps)
    fun a ha b hb => hcompat a (List.mem_append_left _ ha) b (List.mem_append_right _ hb)
  have hnew : newManifest (unchangeds s.log) (phase2s s.log) = m := by
    unfold newManifest
    rw [hm]
  rw [hnew]
  exact (merges_iff hcompat).mpr hmerge

/-- What has been interrupted, received and left as it was is the list. -/
theorem accounts (h : Closed (decisions conf cman {} p1) s c) (hp1 : InOrder p1)
    (hfailed : NoneFailed s) :
    ((unchangeds s.log).map Sbuf.label ++ ((phase2s s.log).map Sbuf.label
      ++ c.interrupted.map Sbuf.label)).Perm (p1.map Sbuf.label) := by
  rw [h.received hp1.paths, ← List.map_append, h.unchanged hfailed]
  exact (((received_interrupted c).map _).append_left _).trans h.split.1

/-- A list of labels in order is known by its elements. -/
theorem labels_ext {l m : List (Store.Cmd × Option Bytes)} (hl : l.Pairwise Phase2.Below)
    (hm : m.Pairwise Phase2.Below) (h : ∀ x, x ∈ l ↔ x ∈ m) : l = m := by
  have hnodup : ∀ {l : List (Store.Cmd × Option Bytes)}, l.Pairwise Phase2.Below → l.Nodup := by
    intro l hl
    apply hl.imp
    intro a b hab heq
    rw [heq] at hab
    exact below_irrefl b hab
  apply List.Perm.eq_of_pairwise ?_ hl hm
  · exact (List.perm_ext_iff_of_nodup (hnodup hl) (hnodup hm)).mpr h
  · intro a b _ _ hab hba
    have hgt := sbufPathcmp_asymm hab
    unfold Phase2.Below at hba
    omega

/-- **The new manifest is the scan**, in its order, without what has been interrupted. -/
theorem labels_of_closed (h : Closed (decisions conf cman {} p1) s c) (hp1 : InOrder p1)
    (hfailed : NoneFailed s) :
    (newManifest (unchangeds s.log) (phase2s s.log)).map Sbuf.label = backedUp p1 c := by
  have haccounts := accounts h hp1 hfailed
  have hparts := haccounts.nodup_iff.mpr (h.sorted hp1.paths hp1.sorted).1
  apply labels_ext (pairwise_label.mpr (newManifest_merges h hp1).increasing)
    ((pairwise_label.mpr hp1.sorted).filter _)
  intro l
  have hmem : l ∈ (newManifest (unchangeds s.log) (phase2s s.log)).map Sbuf.label
      ↔ l ∈ (unchangeds s.log).map Sbuf.label ∨ l ∈ (phase2s s.log).map Sbuf.label := by
    simp only [List.mem_map, mem_newManifest h hp1]
    constructor
    · intro ⟨e, he, heq⟩
      exact he.symm.imp (fun he => ⟨e, he, heq⟩) fun he => ⟨e, he, heq⟩
    · intro hl
      exact hl.elim (fun ⟨e, he, heq⟩ => ⟨e, Or.inr he, heq⟩) fun ⟨e, he, heq⟩ =>
        ⟨e, Or.inl he, heq⟩
  show _ ↔ l ∈ List.filter _ _
  rw [hmem, List.mem_filter, ← haccounts.mem_iff, List.mem_append, List.mem_append,
    decide_eq_true_iff]
  -- no label is in two of the three parts
  rw [List.nodup_append', List.nodup_append'] at hparts
  obtain ⟨-, ⟨-, -, hphase2⟩, hunchanged⟩ := hparts
  constructor
  · intro hl
    cases hl with
    | inl hl => exact ⟨Or.inl hl, fun hi => hunchanged hl (List.mem_append_right _ hi)⟩
    | inr hl => exact ⟨Or.inr (Or.inl hl), fun hi => hphase2 hl hi⟩
  · intro ⟨hl, hi⟩
    exact hl.imp_right fun hl => hl.resolve_right hi

end NewManifest

/-- **The new manifest**: if `backup_phase2_server` returns 0 and no entry could not be written,
then phase 3 makes of its two files a manifest with the entries of the scan, each once and in the
order of the scan, and only what the client has interrupted is missing. -/
theorem newManifest_labels (conf : Conf) (working : Bytes) (ts : List Turn) (closes : Bool)
    (p1 : List Sbuf) (cman : Option (List Sbuf)) (dpth : Dpth) (s : State) (ret : Returned)
    (c : Client) (hp1 : InOrder p1) (hserved : Served conf working ts (.start p1 cman dpth) {} c)
    (hret : backupPhase2Server conf working ts closes (.start p1 cman dpth) = (s, some ret))
    (hok : ret.ok = true) (hfailed : NoneFailed s) :
    (newManifest (unchangeds s.log) (phase2s s.log)).map Sbuf.label = backedUp p1 c := by
  obtain ⟨hdone, hs⟩ := returned_ok hret hok
  have hclosed := run_closed hp1.paths hserved hdone
  rw [hs] at hclosed
  exact labels_of_closed hclosed hp1 hfailed

theorem newManifest_labels_three :
    (newManifest (unchangeds threeEnd.log) (phase2s threeEnd.log)).map Sbuf.label
      = backedUp threeEntries { answers := threeAnswers } :=
  newManifest_labels { directoryTree := false } [119] threeTurns true threeEntries none {}
    threeEnd { ok := true, phase1 := false } { answers := threeAnswers }
    ⟨by decide, by decide⟩ threeTurns_served (Prod.ext rfl (by decide)) rfl (by decide)

/-! ## §2. The restore. -/

/-- An entry is selected by its path. -/
def selectsLabel (sel : Selection) (l : Store.Cmd × Option Bytes) : Bool :=
  sel.selects { path := l.2 }

/-- **What comes back**: after such a backup, a restore that returns 0 has sent the entries of the
scan that are selected and have not been interrupted, each once; and a directory has been sent
after everything that is below it. -/
theorem restore_sends_scanned (conf : Conf) (working : Bytes) (ts : List Turn) (closes : Bool)
    (p1 : List Sbuf) (cman : Option (List Sbuf)) (dpth : Dpth) (s : State) (ret : Returned)
    (c : Client) (hp1 : InOrder p1) (hserved : Served conf working ts (.start p1 cman dpth) {} c)
    (hret : backupPhase2Server conf working ts closes (.start p1 cman dpth) = (s, some ret))
    (hok : ret.ok = true) (hfailed : NoneFailed s)
    (ok : Sbuf → Bool) (sel : Selection) (ends : Bool)
    (arrivals : List (List (Store.Cmd × Bytes))) (last : List (Store.Cmd × Bytes))
    (sent : List Sbuf)
    (hrestored : restoreManifest ok sel ends arrivals
      (newManifest (unchangeds s.log) (phase2s s.log)) last = (true, sent)) :
    (sent.map Sbuf.label).Perm ((backedUp p1 c).filter (selectsLabel sel))
      ∧ ∀ before d after, sent = before ++ d :: after → d.statp.isDir = true →
        ∀ e ∈ after, ¬ Store.Below d.path e.path := by
  obtain ⟨hdone, hs⟩ := returned_ok hret hok
  have hclosed := run_closed hp1.paths hserved hdone
  rw [hs] at hclosed
  obtain ⟨hand, hsent⟩ := Prod.mk.inj hrestored
  have hloop := (Bool.and_eq_true _ _ ▸ hand).1
  rw [← hsent]
  constructor
  · have hperm := (restoreLoop_perm _ arrivals [] hloop).map Sbuf.label
    rw [← labels_of_closed hclosed hp1 hfailed, List.filter_map]
    exact hperm
  · intro before d after hsplit hdir e he
    have hsettled := restoreLoop_settled _ arrivals []
      ((newManifest_merges hclosed hp1).increasing.imp fun h => upto_of_sbufPathcmp h.le)
      List.Pairwise.nil (by simp) hloop
    rw [hsplit] at hsettled
    exact (List.pairwise_cons.mp (List.pairwise_append.mp hsettled).2.1).1 e he hdir

/-- The directory and the first of the two files come back. -/
theorem restore_sends_scanned_three :
    ((restoreManifest (fun _ => true) ⟨false, [], none⟩ true []
        (newManifest (unchangeds threeEnd.log) (phase2s threeEnd.log))
        [(.gen, nameBytes "restoreend ok")]).2.map Sbuf.label).Perm
      ((backedUp threeEntries { answers := threeAnswers }).filter
        (selectsLabel ⟨false, [], none⟩)) :=
  (restore_sends_scanned { directoryTree := false } [119] threeTurns true threeEntries none {}
    threeEnd { ok := true, phase1 := false } { answers := threeAnswers }
    ⟨by decide, by decide⟩ threeTurns_served (Prod.ext rfl (by decide)) rfl (by decide)
    (fun _ => true) ⟨false, [], none⟩ true [] [(.gen, nameBytes "restoreend ok")] _
    (Prod.ext (by decide) rfl)).1

end Burp.Restore
