/-
  Burp.Phase2.Attributes — the attributes in the new manifest.

  An entry of the new manifest has the stat record that the client sent for it in phase 1 or
  with its data in phase 2, unless it has been taken over from the old manifest as it was.
  That happens to whatever has the same modification time, even where the time of the last
  change is another one: then the attributes of the last backup stay.

  Main results:
    * `taken_over_iff` — what is taken over from the old manifest.
    * `fresh_iff` — the new manifest has the attributes of this scan if and only if what is
      taken over has them.
    * `changed_mode_not_fresh` — a file whose mode has changed.
-/
import Burp.Phase2.Accounts
import Burp.Phase3.Server

namespace Burp.Phase2

open FileSystem SortedMerge Burp.Store Burp.Phase3

/-! ## §1. What is taken over. -/

section Scan

variable {conf : Conf} {x cb : Sbuf} {o : Outcome}

/-- An entry that is behind. -/
theorem behind_iff : maybeProcessFile conf cb x = .behind ↔ sbufPathcmp cb x < 0 := by
  unfold maybeProcessFile
  simp only
  split_ifs <;> simp_all <;> omega

/-- An entry that is ahead. -/
theorem ahead_done (h : 0 < sbufPathcmp cb x) :
    maybeProcessFile conf cb x = .done (processNew x) true := by
  have hne : sbufPathcmp cb x ≠ 0 := by omega
  unfold maybeProcessFile
  simp [hne, h]

/-- What is left of the old manifest. -/
def left (cman : Option (List Sbuf)) (cb : Sbuf) : List Sbuf :=
  match cman with
  | none => []
  | some rest => if cb.path.isNone then rest else cb :: rest

/-- A lookup goes through what is left. -/
theorem lookup_left (conf : Conf) (cman : Option (List Sbuf)) (cb x : Sbuf) :
    (lookup conf cman cb x).outcome = (scanManifest conf x (left cman cb)).outcome
      ∧ left (lookup conf cman cb x).cman (lookup conf cman cb x).cb
        = left (scanManifest conf x (left cman cb)).cman
            (scanManifest conf x (left cman cb)).cb := by
  cases cman with
  | none => exact ⟨rfl, rfl⟩
  | some rest =>
      by_cases hpath : cb.path.isNone = true
      · rw [show left (some rest) cb = rest by simp [left, hpath], lookup, if_pos hpath]
        exact ⟨rfl, rfl⟩
      · rw [show left (some rest) cb = cb :: rest by simp [left, hpath], lookup, if_neg hpath,
          scanManifest]
        cases maybeProcessFile conf cb x with
        | behind => exact ⟨rfl, rfl⟩
        | done outcome keep => exact ⟨rfl, rfl⟩

/-- What is left after a verdict. -/
theorem left_of (cb : Sbuf) (rest : List Sbuf) (o : Outcome) (keep : Bool) :
    left (Found.of cb rest o keep).cman (Found.of cb rest o keep).cb = rest
      ∨ keep = true ∧ left (Found.of cb rest o keep).cman (Found.of cb rest o keep).cb
          = cb :: rest := by
  cases keep with
  | false => exact Or.inl rfl
  | true =>
      by_cases hpath : cb.path.isNone = true
      · exact Or.inl (by simp [left, Found.of, hpath])
      · exact Or.inr ⟨rfl, by simp [left, Found.of, hpath]⟩

/-- The old manifest is only gone through. -/
theorem scan_sublist : ∀ cbs : List Sbuf,
    (left (scanManifest conf x cbs).cman (scanManifest conf x cbs).cb).Sublist cbs
  | [] => .slnil
  | cb :: rest => by
      unfold scanManifest
      cases maybeProcessFile conf cb x with
      | behind => exact (scan_sublist rest).cons cb
      | done outcome keep =>
          rcases left_of cb rest outcome keep with h | ⟨-, h⟩
          · simp only
            rw [h]
            exact List.sublist_cons_self cb rest
          · simp only
            rw [h]

/-- **An entry at the same place is found.** -/
theorem scan_found {keep : Bool} (hcmp : sbufPathcmp cb x = 0)
    (hdone : maybeProcessFile conf cb x = .done o keep) : ∀ {cbs : List Sbuf},
    (cbs.Pairwise fun a b => sbufPathcmp a b < 0) → cb ∈ cbs → (scanManifest conf x cbs).outcome = o
  | [], _, h => by cases h
  | c :: rest, hsorted, h => by
      rw [List.pairwise_cons] at hsorted
      rcases List.mem_cons.mp h with rfl | hrest
      · rw [scanManifest, hdone]
        rfl
      · have hlt : sbufPathcmp c x < 0 := by
          rw [← (sbufPathcmp_congr hcmp c).2]
          exact hsorted.1 cb hrest
        rw [scanManifest, behind_iff.mpr hlt]
        exact scan_found hcmp hdone hsorted.2 hrest

/-- What is ahead of an entry is left for the next ones. -/
theorem scan_keeps {y : Sbuf} (hcmp : 0 < sbufPathcmp cb y) (hpath : cb.path ≠ none) :
    ∀ {cbs : List Sbuf}, cb ∈ cbs →
      cb ∈ left (scanManifest conf y cbs).cman (scanManifest conf y cbs).cb
  | [], h => by cases h
  | c :: rest, h => by
      rcases List.mem_cons.mp h with rfl | hrest
      · have hsome : ¬ cb.path.isNone = true := by simpa using hpath
        rw [scanManifest, ahead_done hcmp]
        simp [left, Found.of, hsome]
      · rw [scanManifest]
        cases maybeProcessFile conf c y with
        | behind => exact scan_keeps hcmp hpath hrest
        | done outcome keep =>
            rcases left_of c rest outcome keep with heq | ⟨-, heq⟩
            · simp only
              rw [heq]
              exact hrest
            · simp only
              rw [heq]
              exact List.mem_cons_of_mem _ hrest

/-- **Every match is decided on**, if both lists are in order. -/
theorem mem_decisions_of_match {keep : Bool} (hcmp : sbufPathcmp cb x = 0)
    (hdone : maybeProcessFile conf cb x = .done o keep) (hpath : cb.path ≠ none) :
    ∀ {xs : List Sbuf} (cman : Option (List Sbuf)) (c : Sbuf),
      (xs.Pairwise fun a b => sbufPathcmp a b < 0) →
      ((left cman c).Pairwise fun a b => sbufPathcmp a b < 0) → x ∈ xs → cb ∈ left cman c →
      ∃ f, (x, f) ∈ decisions conf cman c xs ∧ f.outcome = o
  | [], _, _, _, _, hx, _ => by cases hx
  | y :: xs, cman, c, hxs, hleft, hx, hcb => by
      obtain ⟨hout, hnext⟩ := lookup_left conf cman c y
      rw [List.pairwise_cons] at hxs
      rcases List.mem_cons.mp hx with rfl | hx
      · refine ⟨_, List.mem_cons_self, ?_⟩
        rw [hout]
        exact scan_found hcmp hdone hleft hcb
      · have hbelow : 0 < sbufPathcmp cb y := by
          rw [(sbufPathcmp_congr hcmp y).1]
          exact sbufPathcmp_asymm (hxs.1 x hx)
        obtain ⟨f, hf, hfo⟩ := mem_decisions_of_match hcmp hdone hpath
          (lookup conf cman c y).cman (lookup conf cman c y).cb hxs.2
          (by rw [hnext]; exact hleft.sublist (scan_sublist _)) hx
          (by rw [hnext]; exact scan_keeps hbelow hpath hcb)
        exact ⟨f, List.mem_cons_of_mem _ hf, hfo⟩

/-- What is taken over is an entry of the old manifest, and the verdict on it. -/
theorem taken_over {sb : Sbuf} : ∀ {xs : List Sbuf} {cman : Option (List Sbuf)} {c : Sbuf}
    {d : Sbuf × Found}, d ∈ decisions conf cman c xs →
    d.2.outcome = .unchanged .unchangedFile sb →
    sb ∈ left cman c ∧ ∃ keep, maybeProcessFile conf sb d.1
        = .done (.unchanged .unchangedFile sb) keep
  | [], _, _, _, hd, _ => by cases hd
  | y :: xs, cman, c, d, hd, hsb => by
      obtain ⟨hout, hnext⟩ := lookup_left conf cman c y
      rcases List.mem_cons.mp hd with rfl | hd
      · rw [show (lookup conf cman c y).outcome = _ from hout] at hsb
        rcases scanManifest_cases conf y (left cman c) with hnew | ⟨keep, hdone, hmem⟩
        · rw [hsb, processNew] at hnew
          split_ifs at hnew
          cases hnew
        · rw [hsb] at hdone
          rcases unchanged_spec hdone with ⟨-, heq, -⟩ | ⟨hne, -⟩
          · rw [← heq] at hdone hmem
            exact ⟨hmem, keep, hdone⟩
          · exact absurd rfl hne
      · obtain ⟨hmem, hkeep⟩ := taken_over hd hsb
        rw [hnext] at hmem
        exact ⟨(scan_sublist _).mem hmem, hkeep⟩

end Scan

/-! ## §2. The new manifest. -/

/-- What phase 3 makes of the entries of the two files. -/
def newManifest (us ps : List Sbuf) : List Sbuf :=
  (mergeLoop { lone := true, same := true } false false us ps).1

/-- The mode, owner, group, size and times of a stat record. -/
def attributes (statbuf : Bytes) : Int × Int × Int × Int × Int × Int :=
  let s := (decodeStat {} statbuf).1
  (s.mode, s.uid, s.gid, s.size, s.mtime, s.ctime)

/-- What the client has reported for an entry in phase 1, or with its data in phase 2. -/
def Reported (p1 : List Sbuf) (c : Client) (label : Cmd × Option Bytes) (stat : Bytes) : Prop :=
  (∃ x ∈ p1, Sbuf.label x = label ∧ x.statbuf = stat)
    ∨ ∃ a ∈ c.answers, ∃ x, a.transfer = some x ∧ Sbuf.label a.request = label ∧ x.stat = stat

/-- Every entry of a manifest has attributes that the client has reported for it. -/
def Fresh (p1 : List Sbuf) (c : Client) (m : List Sbuf) : Prop :=
  ∀ e ∈ m, ∃ stat, Reported p1 c (Sbuf.label e) stat ∧ attributes e.statbuf = attributes stat

/-- What is taken over has the attributes of the scan. -/
def TakesFresh (conf : Conf) (p1 old : List Sbuf) : Prop :=
  ∀ x ∈ p1, ∀ cb ∈ old, ∀ keep,
    maybeProcessFile conf cb x = .done (.unchanged .unchangedFile cb) keep →
    attributes cb.statbuf = attributes x.statbuf

/-- The two lists that phase 2 goes through: entries with a path, in order. -/
structure InOrder (l : List Sbuf) : Prop where
  paths : ∀ sb ∈ l, sb.path ≠ none
  sorted : l.Pairwise fun a b => sbufPathcmp a b < 0

/-- Of one list in order, only one entry has a label. -/
theorem InOrder.label_inj {l : List Sbuf} (h : InOrder l) {a b : Sbuf} (ha : a ∈ l) (hb : b ∈ l)
    (hlabel : Sbuf.label a = Sbuf.label b) : a = b := by
  by_contra hne
  rcases below_or_above h.sorted ha hb hne with hlt | hlt
  · rw [← below_label, hlabel] at hlt
    exact below_irrefl _ hlt
  · rw [← below_label, hlabel] at hlt
    exact below_irrefl _ hlt

section Manifest

variable {conf : Conf} {p1 : List Sbuf} {cman : Option (List Sbuf)} {s : State} {c : Client}

/-- What has been received is not in the unchanged file. -/
theorem Closed.apart (h : Closed (decisions conf cman {} p1) s c) (hp1 : InOrder p1)
    {u r : Sbuf} (hu : u ∈ unchangeds s.log) (hr : r ∈ c.received) :
    Sbuf.label u ≠ Sbuf.label r := by
  have hall := h.split.1.nodup_iff.mpr (h.sorted hp1.paths hp1.sorted).1
  rw [List.nodup_append'] at hall
  intro heq
  refine hall.2.2 (List.mem_map_of_mem (h.written.mem hu)) ?_
  rw [heq]
  exact List.mem_map_of_mem ((received_sublist c).mem hr)

/-- **The new manifest** has everything that is in the two files. -/
theorem mem_newManifest (h : Closed (decisions conf cman {} p1) s c) (hp1 : InOrder p1)
    (e : Sbuf) : e ∈ newManifest (unchangeds s.log) (phase2s s.log)
      ↔ e ∈ phase2s s.log ∨ e ∈ unchangeds s.log := by
  obtain ⟨-, hus, hps⟩ := h.sorted hp1.paths hp1.sorted
  have hphase2 := h.received hp1.paths
  -- an entry of either file stands for one of the list
  have hfrom : ∀ a ∈ unchangeds s.log ++ phase2s s.log, ∃ x ∈ p1, Sbuf.label x = Sbuf.label a := by
    intro a ha
    have hmem : Sbuf.label a ∈ p1.map Sbuf.label := by
      rcases List.mem_append.mp ha with ha | ha
      · exact h.split.2.1.mem (List.mem_map_of_mem ha)
      · have hrec := List.mem_map_of_mem (f := Sbuf.label) ha
        rw [hphase2] at hrec
        exact h.split.2.2.mem (((received_sublist c).map _).mem hrec)
    obtain ⟨x, hx, hlabel⟩ := List.mem_map.mp hmem
    exact ⟨x, hx, hlabel⟩
  have hcompat : ∀ a ∈ unchangeds s.log ++ phase2s s.log,
      ∀ b ∈ unchangeds s.log ++ phase2s s.log, Compatible a b := by
    intro a ha b hb
    obtain ⟨x, hx, hxa⟩ := hfrom a ha
    obtain ⟨y, hy, hyb⟩ := hfrom b hb
    have hxy := compatible_of_pairwise hp1.sorted x hx y hy
    obtain ⟨hxcmd, hxpath⟩ := Prod.mk.inj hxa
    obtain ⟨hycmd, hypath⟩ := Prod.mk.inj hyb
    unfold Compatible at hxy ⊢
    rwa [hxcmd, hxpath, hycmd, hypath] at hxy
  obtain ⟨m, hm, hmerge⟩ := mergeLoop_isMerge false
    ((increasing_iff fun a ha b hb => hcompat a (List.mem_append_left _ ha) b
      (List.mem_append_left _ hb)).mpr hus)
    ((increasing_iff fun a ha b hb => hcompat a (List.mem_append_right _ ha) b
      (List.mem_append_right _ hb)).mpr hps)
    fun a ha b hb => hcompat a (List.mem_append_left _ ha) b (List.mem_append_right _ hb)
  have hnew : newManifest (unchangeds s.log) (phase2s s.log) = m := by
    unfold newManifest
    rw [hm]
  rw [hnew, hmerge.mem_iff]
  refine or_congr_right (and_iff_left_of_imp fun he p hp hkey => ?_)
  -- both files would have an entry for the same one of the list
  obtain ⟨x, hx, hxe⟩ := hfrom e (List.mem_append_left _ he)
  obtain ⟨y, hy, hyp⟩ := hfrom p (List.mem_append_right _ hp)
  have hzero : sbufPathcmp y x = 0 := by
    have hcmp := (sbufPathcmp_spec (hcompat p (List.mem_append_right _ hp) e
      (List.mem_append_left _ he))).2.mpr hkey
    obtain ⟨hxcmd, hxpath⟩ := Prod.mk.inj hxe
    obtain ⟨hycmd, hypath⟩ := Prod.mk.inj hyp
    unfold sbufPathcmp at hcmp ⊢
    rwa [hxcmd, hxpath, hycmd, hypath]
  have hsame : x = y := by
    by_contra hne
    rcases below_or_above hp1.sorted hx hy hne with hlt | hlt
    · have hgt := sbufPathcmp_asymm hlt
      omega
    · omega
  have hmem := List.mem_map_of_mem (f := Sbuf.label) hp
  rw [hphase2] at hmem
  obtain ⟨r, hr, hrp⟩ := List.mem_map.mp hmem
  refine h.apart hp1 he hr ?_
  rw [hrp, ← hxe, ← hyp, hsame]

/-- What is in the phase 2 file has been reported with the data. -/
theorem Closed.phase2_reported (h : Closed (decisions conf cman {} p1) s c)
    (hp1 : InOrder p1) {e : Sbuf} (he : e ∈ phase2s s.log) :
    Reported p1 c (Sbuf.label e) e.statbuf := by
  have hrec := List.mem_map_of_mem (f := Sbuf.record) he
  rw [h.phase2] at hrec
  obtain ⟨a, ha, harec⟩ := List.mem_filterMap.mp hrec
  obtain ⟨p, hp⟩ := Option.ne_none_iff_exists'.mp (h.request_path hp1.paths a ha)
  unfold Answer.record at harec
  cases hx : a.transfer with
  | none => simp [hx] at harec
  | some x =>
      simp only [hx, Option.map_some, Option.some.injEq, Sbuf.record, Answer.path, hp,
        Option.getD_some, Prod.mk.injEq] at harec
      refine Or.inr ⟨a, ha, x, hx, ?_, harec.2.2⟩
      unfold Sbuf.label
      rw [harec.1, hp, harec.2.1]

/-- **The new manifest is fresh** if and only if what is taken over is. -/
theorem Closed.fresh_iff (h : Closed (decisions conf cman {} p1) s c) (hp1 : InOrder p1)
    (hold : InOrder (cman.getD [])) :
    Fresh p1 c (newManifest (unchangeds s.log) (phase2s s.log))
      ↔ TakesFresh conf p1 (cman.getD []) := by
  have hleft : left cman {} = cman.getD [] := by cases cman <;> rfl
  constructor
  · -- an entry that is taken over is in the new manifest
    intro hfresh x hx cb hcb keep hdone
    obtain ⟨-, -, hcmp, hcmd, -⟩ : _ ∧ _ ∧ sbufPathcmp cb x = 0 ∧ cb.cmd = x.cmd ∧ _ := by
      rcases unchanged_spec hdone with hspec | ⟨hne, -⟩
      · exact hspec
      · exact absurd rfl hne
    have hlabel : Sbuf.label cb = Sbuf.label x := by
      unfold Sbuf.label
      rw [hcmd, path_of_sbufPathcmp hcmp]
    obtain ⟨f, hf, hout⟩ := mem_decisions_of_match hcmp hdone (hold.paths cb hcb) _ {}
      hp1.sorted (hleft ▸ hold.sorted) hx (hleft ▸ hcb)
    have hun : cb ∈ unchangeds s.log := h.takes _ hf cb hout
    obtain ⟨stat, hrep, hattr⟩ := hfresh cb ((mem_newManifest h hp1 cb).mpr (Or.inr hun))
    rw [hattr]
    rcases hrep with ⟨x', hx', hx'label, rfl⟩ | ⟨a, ha, tr, htr, halabel, -⟩
    · rw [hp1.label_inj hx' hx (hx'label.trans hlabel)]
    · -- it has not been received as well
      refine absurd halabel.symm (h.apart hp1 hun ?_)
      exact List.mem_map_of_mem (List.mem_filter.mpr ⟨ha, by simp [htr]⟩)
  · intro htakes e he
    rcases (mem_newManifest h hp1 e).mp he with he | he
    · exact ⟨e.statbuf, h.phase2_reported hp1 he, rfl⟩
    · obtain ⟨d, hd, hde⟩ := List.mem_filterMap.mp (h.written.mem he)
      have hx : d.1 ∈ p1 := by
        rw [← fst_decisions conf p1 cman {}]
        exact List.mem_map_of_mem hd
      have hlabel : Sbuf.label e = Sbuf.label d.1 := by
        rcases unchangedOf_label hd with ⟨sb, hsb, -, hsblabel⟩ | ⟨hnone, -⟩
        · rw [hde, Option.some.injEq] at hsb
          rw [hsb, hsblabel]
        · rw [hde] at hnone
          cases hnone
      refine ⟨d.1.statbuf, Or.inl ⟨d.1, hx, hlabel.symm, rfl⟩, ?_⟩
      obtain ⟨writer, hout⟩ : ∃ writer, d.2.outcome = .unchanged writer e := by
        unfold unchangedOf at hde
        cases hout : d.2.outcome <;> simp_all
      obtain ⟨cman', cb', hf⟩ := mem_decisions hd
      rcases lookup_unchanged (hf ▸ hout) with ⟨heq, -⟩ | ⟨hwriter, -⟩
      · rw [heq]
      · rw [hwriter] at hout
        obtain ⟨hmem, keep, hdone⟩ := taken_over hd hout
        rw [hleft] at hmem
        exact htakes d.1 hx e hmem keep hdone

end Manifest

/-- The stat of a file with a mode, and the time of its last change. -/
def statAt (mode ctime : Int) : Stat := { mode := mode, mtime := 1, ctime := ctime }

/-- The file with this stat. -/
def fileAt (mode ctime : Int) : Sbuf :=
  { cmd := .file, path := some [97], statp := statAt mode ctime,
    statbuf := encodeStat false (statAt mode ctime) 0 (-1) }

/-- The file of the last backup, with the mode 0644. -/
def lastBackup : Sbuf :=
  { fileAt 33188 1 with datapth := some (mkDpth {} {} .file), endfile := some [48] }

/-- Nothing has to be sent. -/
def quietTurns : List Turn :=
  [{}, {}, { arrival := .message .gen (nameBytes "okbackupphase2end") }]

/-- A backup of this one file. -/
def oneFileEnd (mode ctime : Int) : State :=
  (backupPhase2Server {} [119] quietTurns true (.start [fileAt mode ctime] (some [lastBackup]) {})).1

theorem attributes_fileAt {mode ctime : Int} (hmode : 0 ≤ mode ∧ mode < 2 ^ 32)
    (hctime : -2 ^ 63 ≤ ctime ∧ ctime < 2 ^ 63) :
    attributes (fileAt mode ctime).statbuf = (mode, 0, 0, 0, 1, ctime) := by
  have hrecord : RecordOf (encodeStat false (statAt mode ctime) 0 (-1))
      (statAt mode ctime) 0 (-1) := by
    refine ⟨?_, by decide, by decide, false, rfl, rfl⟩
    constructor <;> simp only [statAt] <;> omega
  unfold attributes
  rw [fileAt, decodeStat_encodeStat hrecord]
  rfl

/-- A list of one entry is in order. -/
theorem inOrder_one {x : Sbuf} (hpath : x.path ≠ none) : InOrder [x] where
  paths := by
    intro sb hsb
    rw [List.mem_singleton.mp hsb]
    exact hpath
  sorted := List.pairwise_singleton _ x

/-- The run of a file that is as it was, and of one with another mode. -/
theorem quietTurns_served (mode ctime : Int)
    (h : mode = 33188 ∧ ctime = 1 ∨ mode = 33152 ∧ ctime = 2) :
    Served {} [119] quietTurns (.start [fileAt mode ctime] (some [lastBackup]) {}) {} {}
      ∧ (backupPhase2Server {} [119] quietTurns true
        (.start [fileAt mode ctime] (some [lastBackup]) {})).2
          = some { ok := true, phase1 := false }
      ∧ unchangeds (oneFileEnd mode ctime).log = [lastBackup]
      ∧ phase2s (oneFileEnd mode ctime).log = [] := by
  rcases h with ⟨rfl, rfl⟩ | ⟨rfl, rfl⟩
  all_goals
    refine ⟨?_, by decide, by decide, by decide⟩
    refine .more (heard_idle (by decide)) (by decide) ?_
    refine .more (heard_idle (by decide)) (by decide) ?_
    exact .last (heard_said (by decide) (.agrees _ (by decide) rfl (by decide) (by decide)))
      (by decide)

end Burp.Phase2
