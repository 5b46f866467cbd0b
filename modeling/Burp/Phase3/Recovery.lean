/-
  Burp.Phase3.Recovery — rebuilding the manifest of an interrupted backup.

  `maybe_rebuild_manifest` runs phase 3 in recovery mode on whatever prefixes of the
  unchanged and phase 2 files a crash has left.  The loop tests `ucb.path` after the end of
  the unchanged file has been reached, so that an entry of it that is cut off after its
  path counts as one: it is written without the target of its link or with an empty
  checksum.

  Main results:
    * `mergeFiles_take` — what the loop makes of two prefixes.
    * `torn_not_recovered` — an entry that is cut off spoils the manifest if it is written.
    * `recovered_iff` — which pairs of prefixes are recovered.
-/
import Burp.Phase3.Server

namespace Burp.Phase3

open Crash FileSystem SortedMerge Burp.Store

/-! ## §1. What recovery is for. -/

/-- What is not after the last entry of `ps`. -/
def notAfter (ps us : List Sbuf) : List Sbuf :=
  us.filter fun u => ps.any fun p => decide (sbufPathcmp u p ≤ 0)

/-- Either both files stay in place, or there is a manifest of the completely written
entries up to the last one of the phase 2 file, in order. -/
def Recovered (c : Codec) (level : Nat) (compress : Bool) (w : Path) (t : Node)
    (us ps : List Sbuf) : Prop :=
  let run := maybeRebuildManifest c level (w ++ ["phase2"]) (w ++ ["unchanged"])
    (w ++ ["manifest.gz"]) compress
  (run.result t = false
      ∧ look (run.final t) (w ++ ["unchanged"]) = look t (w ++ ["unchanged"])
      ∧ look (run.final t) (w ++ ["phase2"]) = look t (w ++ ["phase2"]))
    ∨ (run.result t = true
      ∧ ∃ m, manifestOf c compress w (run.final t) = some (m, .ended)
        ∧ Merges (notAfter ps us) ps m)

/-- An entry of the unchanged file is cut off after its path, comes before the last complete
entry of the phase 2 file and is not in that file. -/
def Spoiled (us : List Sbuf) (n : Nat) (ps : List Sbuf) (m : Nat) : Prop :=
  ∃ e, cutEntry us n = some e
    ∧ (∃ p ∈ Store.whole ps m, sbufPathcmp e p < 0)
    ∧ ∀ p ∈ Store.whole ps m, sbufPathcmp p e ≠ 0

/-! ## §2. The loop on two prefixes. -/

section Prefixes

variable {us ps : List Sbuf}

theorem Mergeable.recordable_left (h : Mergeable us ps) : ∀ sb ∈ us, Recordable sb :=
  fun sb hsb => h.recordable sb (List.mem_append_left _ hsb)

theorem Mergeable.recordable_right (h : Mergeable us ps) : ∀ sb ∈ ps, Recordable sb :=
  fun sb hsb => h.recordable sb (List.mem_append_right _ hsb)

theorem Mergeable.increasing_left (h : Mergeable us ps) : Increasing Sbuf.key us :=
  (increasing_iff fun a ha b hb =>
    h.compatible a (List.mem_append_left _ ha) b (List.mem_append_left _ hb)).mpr h.unchanged

theorem Mergeable.increasing_right (h : Mergeable us ps) : Increasing Sbuf.key ps :=
  (increasing_iff fun a ha b hb =>
    h.compatible a (List.mem_append_right _ ha) b (List.mem_append_right _ hb)).mpr h.phase2

/-- Prefixes of the two lists can be merged as well. -/
theorem Mergeable.of_prefix {us' ps' : List Sbuf} (h : Mergeable us ps) (hu : us' <+: us)
    (hp : ps' <+: ps) : Mergeable us' ps' := by
  have hsub : ∀ sb ∈ us' ++ ps', sb ∈ us ++ ps := by
    intro sb hsb
    rcases List.mem_append.mp hsb with hsb | hsb
    · exact List.mem_append_left _ (hu.mem hsb)
    · exact List.mem_append_right _ (hp.mem hsb)
  exact ⟨fun sb hsb => h.recordable sb (hsub sb hsb), h.unchanged.sublist hu.sublist,
    h.phase2.sublist hp.sublist,
    fun a ha b hb => h.compatible a (hsub a ha) b (hsub b hb)⟩

/-- Cutting off the end of an entry does not move it. -/
theorem increasing_torn {l : List Sbuf} {e : Sbuf} (h : Increasing Sbuf.key (l ++ [e])) :
    Increasing Sbuf.key (l ++ [e.torn]) := by
  unfold Increasing at h ⊢
  rw [List.pairwise_append] at h ⊢
  refine ⟨h.1, List.pairwise_singleton _ _, ?_⟩
  intro a ha b hb
  rw [List.mem_singleton] at hb
  rw [hb]
  exact h.2.2 a ha e List.mem_cons_self

theorem notAfter_eq (h : Mergeable us ps) : notAfter ps us = upTo Sbuf.key ps us := by
  unfold notAfter upTo
  apply List.filter_congr
  intro u hu
  have hle : ∀ p ∈ ps, decide (sbufPathcmp u p ≤ 0) = decide (u.key ≤ p.key) := by
    intro p hp
    have hspec := sbufPathcmp_spec (h.compatible u (List.mem_append_left _ hu) p
      (List.mem_append_right _ hp))
    rw [decide_eq_decide, Int.le_iff_lt_or_eq, le_iff_lt_or_eq]
    exact or_congr hspec.1 hspec.2
  rw [Bool.eq_iff_iff]
  simp only [List.any_eq_true]
  exact exists_congr fun p => and_congr_right fun hp => by rw [hle p hp]

/-- **What the loop makes of two prefixes**: the entry that is cut off counts as an entry of
the unchanged file. -/
theorem mergeFiles_take (h : Mergeable us ps) (n m : Nat) :
    ∃ out, mergeFiles true ((manifestBytes us).take n) ((manifestBytes ps).take m) = (out, true)
      ∧ IsMerge Sbuf.key
          (upTo Sbuf.key (Store.whole ps m)
            (Store.whole us n ++ (cutEntry us n).toList.map Sbuf.torn))
          (Store.whole ps m) out := by
  obtain ⟨lastu, hentu, hlastu⟩ := entries_take h.recordable_left n
  obtain ⟨lastp, hentp, -⟩ := entries_take h.recordable_right m
  have hu : Source.ofFile ((us.flatMap record).take n)
      = ⟨Store.whole us n ++ (cutEntry us n).toList.map Sbuf.torn, false⟩ := by
    unfold Source.ofFile
    rw [hentu, ← hlastu]
    simp only
    split <;> simp
  have hp : Source.whole ((ps.flatMap record).take m) = ⟨Store.whole ps m, false⟩ := by
    unfold Source.whole
    rw [hentp]
  have hwhole := h.of_prefix (whole_initial us n) (whole_initial ps m)
  have hinc : Increasing Sbuf.key (Store.whole us n ++ (cutEntry us n).toList.map Sbuf.torn) := by
    cases hcut : cutEntry us n with
    | none => simpa using hwhole.increasing_left
    | some e =>
        have hpre := h.of_prefix (cutEntry_next hcut) (whole_initial ps m)
        exact increasing_torn hpre.increasing_left
  have hcompat : ∀ a ∈ Store.whole us n ++ (cutEntry us n).toList.map Sbuf.torn,
      ∀ b ∈ Store.whole ps m, Compatible a b := by
    intro a ha b hb
    rcases List.mem_append.mp ha with ha | ha
    · exact hwhole.compatible a (List.mem_append_left _ ha) b (List.mem_append_right _ hb)
    · cases hcut : cutEntry us n with
      | none => rw [hcut] at ha; simp at ha
      | some e =>
          rw [hcut] at ha
          simp only [Option.toList_some, List.map_cons, List.map_nil, List.mem_singleton] at ha
          have hpre := h.of_prefix (cutEntry_next hcut) (whole_initial ps m)
          have he := hpre.compatible e (by simp) b (List.mem_append_right _ hb)
          rw [ha]
          exact he
  obtain ⟨out, hloop, hmerge⟩ := mergeLoop_isMerge true hinc
    hwhole.increasing_right hcompat
  refine ⟨out, ?_, hmerge⟩
  unfold mergeFiles
  rw [manifestBytes_eq h.recordable_left, manifestBytes_eq h.recordable_right]
  simp only [if_true, hu, hp]
  exact hloop

/-- Where no entry is cut off or the entry does not count, the loop merges what is
complete. -/
theorem isMerge_whole (h : Mergeable us ps) {n m : Nat} {out : List Sbuf}
    (hgood : ¬ Spoiled us n ps m)
    (hmerge : IsMerge Sbuf.key
      (upTo Sbuf.key (Store.whole ps m)
        (Store.whole us n ++ (cutEntry us n).toList.map Sbuf.torn))
      (Store.whole ps m) out) :
    IsMerge Sbuf.key (upTo Sbuf.key (Store.whole ps m) (Store.whole us n)) (Store.whole ps m)
      out := by
  refine ⟨hmerge.increasing, fun x => (hmerge.mem_iff x).trans (or_congr_right ?_)⟩
  refine and_congr_left fun hne => ?_
  simp only [mem_upTo, List.mem_append]
  refine and_congr_left fun hle => ⟨?_, Or.inl⟩
  rintro (hx | hx)
  · exact hx
  · exfalso
    cases hcut : cutEntry us n with
    | none => rw [hcut] at hx; simp at hx
    | some e =>
        rw [hcut] at hx
        simp only [Option.toList_some, List.map_cons, List.map_nil, List.mem_singleton] at hx
        have hkey : x.key = e.key := by rw [hx]; rfl
        have hpre := h.of_prefix (cutEntry_next hcut) (whole_initial ps m)
        have hspec : ∀ p ∈ Store.whole ps m, Compatible e p ∧ Compatible p e := fun p hp =>
          ⟨hpre.compatible e (by simp) p (List.mem_append_right _ hp),
            hpre.compatible p (List.mem_append_right _ hp) e (by simp)⟩
        obtain ⟨p, hp, hlep⟩ := hle
        refine hgood ⟨e, hcut, ⟨p, hp, ?_⟩, fun q hq heq => ?_⟩
        · rw [(sbufPathcmp_spec (hspec p hp).1).1, ← hkey]
          exact lt_of_le_of_ne hlep fun heq => hne p hp heq.symm
        · exact hne q hq (((sbufPathcmp_spec (hspec q hq).2).2.mp heq).trans hkey.symm)

end Prefixes

/-! ## §3. An entry that is cut off, in the manifest. -/

/-- The bytes of an entry in a manifest. -/
def written (compress : Bool) (sb : Sbuf) : Bytes := (sbufToManifest compress true sb).getD []

theorem written_record {compress : Bool} {sb : Sbuf} (h : Recordable sb) :
    written compress sb = record sb := by
  rw [written, h.written, Option.getD_some]

theorem flatMap_written {compress : Bool} {sbs : List Sbuf} (h : ∀ sb ∈ sbs, Recordable sb) :
    sbs.flatMap (written compress) = sbs.flatMap record :=
  List.flatMap_congr fun sb hsb => written_record (h sb hsb)

/-- A link without its target takes the next record for it. -/
theorem sbufFill_headless {e x : Sbuf} (he : Recordable e) (hlink : e.cmd.isLink = true)
    (hx : Recordable x) (rest : Bytes) :
    (sbufFill (recordHead e ++ (record x ++ rest))).1 = .error := by
  obtain ⟨p, hp⟩ := he.path
  have hname := fun rest =>
    readFp_whole (entry_named _ he.cmd) (he.short p (by simp [Sbuf.texts, hp])) rest
  -- the first message of the next record is no link
  have hnext : ∃ cmd text b, readFp (record x ++ rest) = (.ok, cmd, text, b)
      ∧ cmd.isLink = false := by
    unfold record recordHead
    cases hd : x.datapth with
    | none =>
        refine ⟨.stat, x.statbuf, message x.cmd (x.path.getD []) ++ (recordTail x ++ rest), ?_, rfl⟩
        simp only [messageIf, List.nil_append, List.append_assoc]
        exact readFp_whole (by decide) hx.stat.length_lt_four _
    | some d =>
        refine ⟨.datapth, d, message .stat x.statbuf
          ++ (message x.cmd (x.path.getD []) ++ (recordTail x ++ rest)), ?_, rfl⟩
        simp only [messageIf, List.append_assoc]
        exact readFp_whole (by decide) (hx.short d (by simp [Sbuf.texts, hd])) _
  obtain ⟨cmd, text, b, hread, hcmd⟩ := hnext
  unfold sbufFill fillFromFile recordHead
  simp only [List.append_assoc, readStat_head_record he, hp, Option.getD_some, hname, hlink,
    if_true, hread, hcmd, Bool.false_eq_true, if_false]

/-- The entry that a file without its checksum is read as. -/
def emptied (e : Sbuf) : Sbuf := { e with linkto := none, endfile := some [] }

theorem recordable_emptied {e : Sbuf} (he : Recordable e) (hfile : e.cmd.filedata = true) :
    Recordable (emptied e) where
  cmd := he.cmd
  path := he.path
  datapth := he.datapth
  linkto := by
    have : e.cmd.isLink = false := by
      cases hl : e.cmd.isLink with
      | false => rfl
      | true => rw [isLink_filedata _ hl] at hfile; simp at hfile
    simp [emptied, this]
  endfile := by simp [emptied, hfile]
  stat := he.stat
  short := by
    intro text ht
    simp only [Sbuf.texts, emptied, Option.toList, List.append_nil, List.mem_append,
      List.mem_singleton] at ht
    rcases ht with (ht | ht) | ht
    · exact he.short text
        (by simp only [Sbuf.texts, List.mem_append]; exact Or.inl (Or.inl (Or.inl ht)))
    · exact he.short text
        (by simp only [Sbuf.texts, List.mem_append]; exact Or.inl (Or.inl (Or.inr ht)))
    · rw [ht]
      decide

theorem written_torn_file {compress : Bool} {e : Sbuf} (he : Recordable e)
    (hfile : e.cmd.filedata = true) : written compress e.torn = record (emptied e) := by
  rw [written, he.written_torn, Option.getD_some, if_pos hfile]
  rfl

/-- **An entry that is cut off spoils the manifest**: it cannot be read to its end, or it has
an entry of that key. -/
theorem torn_not_recovered {compress : Bool} {e : Sbuf} {o₁ o₂ m : List Sbuf} (he : Recordable e)
    (htail : recordTail e ≠ []) (ho₁ : ∀ sb ∈ o₁, Recordable sb) (ho₂ : ∀ sb ∈ o₂, Recordable sb)
    (hne : o₂ ≠ [])
    (hread : readAll true ((o₁ ++ e.torn :: o₂).flatMap (written compress)) = (m, .ended)) :
    ∃ x ∈ m, x.key = e.key := by
  rcases he.recordTail_cases with ⟨hlink, hfile, -⟩ | ⟨-, hfile, -⟩ | ⟨-, -, -, -, hnil⟩
  · -- a link takes what comes next for its target
    exfalso
    obtain ⟨x, xs, rfl⟩ := List.exists_cons_of_ne_nil hne
    have htext : (o₁ ++ e.torn :: x :: xs).flatMap (written compress)
        = o₁.flatMap record ++ (recordHead e ++ (record x ++ xs.flatMap record)) := by
      rw [List.flatMap_append, flatMap_written ho₁, List.flatMap_cons, flatMap_written ho₂,
        List.flatMap_cons, written, he.written_torn, hfile]
      simp
    have herr := sbufFill_headless he hlink (ho₂ x List.mem_cons_self) (xs.flatMap record)
    have hfills := fills_append sbufFill record
      (recordHead e ++ (record x ++ xs.flatMap record)) (by rw [herr]; simp) o₁
      (fun sb hsb rest => (ho₁ sb hsb).sbufFill_record rest)
      ((o₁.flatMap record ++ (recordHead e ++ (record x ++ xs.flatMap record))).length + 1) (by
        have := length_le_flatMap record o₁ fun sb _ => record_ne_nil sb
        rw [List.length_append]
        omega)
    unfold readAll at hread
    simp only [htext, if_true, hfills, herr, Prod.mk.injEq, reduceCtorEq, and_false] at hread
  · -- a file is read with an empty checksum
    have hall : ∀ sb ∈ o₁ ++ emptied e :: o₂, Recordable sb := by
      intro sb hsb
      rcases List.mem_append.mp hsb with hsb | hsb
      · exact ho₁ sb hsb
      · rcases List.mem_cons.mp hsb with rfl | hsb
        · exact recordable_emptied he hfile
        · exact ho₂ sb hsb
    have htext : (o₁ ++ e.torn :: o₂).flatMap (written compress)
        = (o₁ ++ emptied e :: o₂).flatMap record := by
      rw [List.flatMap_append, List.flatMap_append, List.flatMap_cons, List.flatMap_cons,
        flatMap_written ho₁, flatMap_written ho₂, written_torn_file he hfile]
    rw [htext, readAll_records hall, Prod.mk.injEq] at hread
    refine ⟨emptied e, ?_, rfl⟩
    rw [← hread.1]
    simp
  · exact absurd hnil htail

/-! ## §4. Recovery. -/

section Recovery

variable {c : Codec} {level : Nat} {compress : Bool} {w : Path} {t : Node} {us ps : List Sbuf}
  {n m : Nat}

variable (c level compress) in
/-- Without a manifest there is something to rebuild. -/
theorem maybeRebuildManifest_absent (h : look t (w ++ ["manifest.gz"]) = none) :
    maybeRebuildManifest c level (w ++ ["phase2"]) (w ++ ["unchanged"]) (w ++ ["manifest.gz"])
        compress t
      = phase3In c level w true compress t := by
  unfold maybeRebuildManifest lstat
  rw [Prog.read_bind, h]
  rfl

/-- A manifest as a list of entries, whatever can be read of it. -/
theorem manifestOf_written (hc : c.Lawful) {u : Node} {out : List Sbuf}
    (h : ∃ i, look u (w ++ ["manifest.gz"]) = some (.file i (listFile c compress true level out))) :
    manifestOf c compress w u = some (readAll true (out.flatMap (written compress))) := by
  obtain ⟨i, hi⟩ := h
  unfold manifestOf
  rw [hi]
  show (c.content compress (listFile c compress true level out)).map (readAll true) = _
  unfold listFile
  cases compress with
  | false => rfl
  | true => simp only [Codec.content, if_true, hc.gzread_gzip, Option.map_some]; rfl

/-- Everything the loop passes on can be written. -/
theorem merged_written (h : Mergeable us ps) {out : List Sbuf}
    (hmerge : IsMerge Sbuf.key
      (upTo Sbuf.key (Store.whole ps m)
        (Store.whole us n ++ (cutEntry us n).toList.map Sbuf.torn))
      (Store.whole ps m) out) {sb : Sbuf} (hsb : sb ∈ out) :
    Recordable sb ∨ ∃ e, cutEntry us n = some e ∧ Recordable e ∧ sb = e.torn := by
  rcases (hmerge.mem_iff sb).mp hsb with hsb | hsb
  · exact Or.inl (h.recordable_right sb ((whole_initial ps m).mem hsb))
  · rcases List.mem_append.mp (mem_upTo.mp hsb.1).1 with hsb | hsb
    · exact Or.inl (h.recordable_left sb ((whole_initial us n).mem hsb))
    · cases hcut : cutEntry us n with
      | none => rw [hcut] at hsb; simp at hsb
      | some e =>
          rw [hcut] at hsb
          simp only [Option.toList_some, List.map_cons, List.map_nil, List.mem_singleton] at hsb
          exact Or.inr ⟨e, rfl, h.recordable_left e ((cutEntry_next hcut).mem (by simp)), hsb⟩

variable (level compress) in
theorem run_prefixes (hc : c.Lawful) (h : Mergeable us ps)
    (ht : Prepared w t ((manifestBytes us).take n) ((manifestBytes ps).take m))
    {out : List Sbuf}
    (hfiles : mergeFiles true ((manifestBytes us).take n) ((manifestBytes ps).take m) = (out, true))
    (hmerge : IsMerge Sbuf.key
      (upTo Sbuf.key (Store.whole ps m)
        (Store.whole us n ++ (cutEntry us n).toList.map Sbuf.torn))
      (Store.whole ps m) out) :
    (phase3In c level w true compress).result t = true
      ∧ manifestOf c compress w ((phase3In c level w true compress).final t)
          = some (readAll true (out.flatMap (written compress))) := by
  have hout : ∀ sb ∈ out, (sbufToManifest compress true sb).isSome := by
    intro sb hsb
    rcases merged_written h hmerge hsb with hrec | ⟨e, -, he, rfl⟩
    · rw [hrec.written]
      rfl
    · rw [he.written_torn]
      rfl
  obtain ⟨hres, hman, -, -⟩ := backupPhase3Server_run level hc ht hfiles hout
  exact ⟨hres, manifestOf_written hc hman⟩

/-- An entry that spoils the manifest is in it, and not at its end. -/
theorem spoiled_split (h : Mergeable us ps) {out : List Sbuf} {e : Sbuf}
    (hcut : cutEntry us n = some e) (hbefore : ∃ p ∈ Store.whole ps m, sbufPathcmp e p < 0)
    (hnone : ∀ p ∈ Store.whole ps m, sbufPathcmp p e ≠ 0)
    (hmerge : IsMerge Sbuf.key
      (upTo Sbuf.key (Store.whole ps m)
        (Store.whole us n ++ (cutEntry us n).toList.map Sbuf.torn))
      (Store.whole ps m) out) :
    ∃ o₁ o₂, out = o₁ ++ e.torn :: o₂ ∧ o₂ ≠ []
      ∧ (∀ sb ∈ o₁, Recordable sb) ∧ ∀ sb ∈ o₂, Recordable sb := by
  have hpre := h.of_prefix (cutEntry_next hcut) (whole_initial ps m)
  have hcompat : ∀ p ∈ Store.whole ps m, Compatible e p ∧ Compatible p e := fun p hp =>
    ⟨hpre.compatible e (by simp) p (List.mem_append_right _ hp),
      hpre.compatible p (List.mem_append_right _ hp) e (by simp)⟩
  obtain ⟨p, hp, hlt⟩ := hbefore
  have hkey : e.key < p.key := (sbufPathcmp_spec (hcompat p hp).1).1.mp hlt
  have hmem : e.torn ∈ out := by
    refine (hmerge.mem_iff _).mpr (Or.inr ⟨mem_upTo.mpr ⟨?_, p, hp, hkey.le⟩, ?_⟩)
    · rw [hcut]
      simp
    · intro q hq heq
      exact hnone q hq ((sbufPathcmp_spec (hcompat q hq).2).2.mpr heq)
  obtain ⟨o₁, o₂, rfl⟩ := List.append_of_mem hmem
  have hinc := hmerge.increasing
  unfold Increasing at hinc
  rw [List.pairwise_append, List.pairwise_cons] at hinc
  -- the other entries are not the one that is cut off
  have hother : ∀ sb ∈ o₁ ++ e.torn :: o₂, sb.key ≠ e.key → Recordable sb := by
    intro sb hsb hne
    rcases merged_written h hmerge hsb with hrec | ⟨e', he', -, rfl⟩
    · exact hrec
    · rw [hcut, Option.some.injEq] at he'
      subst he'
      exact absurd rfl hne
  refine ⟨o₁, o₂, rfl, ?_, ?_, ?_⟩
  · rintro rfl
    -- `p` comes after it
    have hpout : p ∈ o₁ ++ [e.torn] := (hmerge.mem_iff p).mpr (Or.inl hp)
    rcases List.mem_append.mp hpout with hpo | hpo
    · have hlt' : p.key < e.key := hinc.2.2 p hpo e.torn List.mem_cons_self
      exact absurd (hkey.trans hlt') (lt_irrefl _)
    · rw [List.mem_singleton] at hpo
      rw [hpo] at hkey
      exact absurd hkey (lt_irrefl _)
  · intro sb hsb
    have hlt' : sb.key < e.key := hinc.2.2 sb hsb e.torn List.mem_cons_self
    exact hother sb (List.mem_append_left _ hsb) hlt'.ne
  · intro sb hsb
    have hlt' : e.key < sb.key := hinc.2.1.1 sb hsb
    exact hother sb (List.mem_append_right _ (List.mem_cons_of_mem _ hsb)) hlt'.ne'

/-- What a recovered manifest has to be. -/
theorem recovered_manifest (hc : c.Lawful) (h : Mergeable us ps)
    (ht : Prepared w t ((manifestBytes us).take n) ((manifestBytes ps).take m))
    (hman : look t (w ++ ["manifest.gz"]) = none) {out : List Sbuf}
    (hfiles : mergeFiles true ((manifestBytes us).take n) ((manifestBytes ps).take m) = (out, true))
    (hmerge : IsMerge Sbuf.key
      (upTo Sbuf.key (Store.whole ps m)
        (Store.whole us n ++ (cutEntry us n).toList.map Sbuf.torn))
      (Store.whole ps m) out) :
    Recovered c level compress w t (Store.whole us n) (Store.whole ps m)
      ↔ ∃ l, readAll true (out.flatMap (written compress)) = (l, .ended)
        ∧ IsMerge Sbuf.key (upTo Sbuf.key (Store.whole ps m) (Store.whole us n))
            (Store.whole ps m) l := by
  obtain ⟨hres, hmanifest⟩ := run_prefixes level compress hc h ht hfiles
    hmerge
  have habs := maybeRebuildManifest_absent c level compress hman
  have hwhole := h.of_prefix (whole_initial us n) (whole_initial ps m)
  have hsub : ∀ a ∈ upTo Sbuf.key (Store.whole ps m) (Store.whole us n) ++ Store.whole ps m,
      a ∈ Store.whole us n ++ Store.whole ps m := by
    intro a ha
    rcases List.mem_append.mp ha with ha | ha
    · exact List.mem_append_left _ (mem_upTo.mp ha).1
    · exact List.mem_append_right _ ha
  unfold Recovered
  simp only [Prog.result_congr habs, Prog.final_congr habs, hres, hmanifest, reduceCtorEq,
    false_and, false_or, true_and, Option.some.injEq]
  refine exists_congr fun l => and_congr_right fun _ => ?_
  rw [notAfter_eq hwhole]
  exact merges_iff fun a ha b hb => hwhole.compatible a (hsub a ha) b (hsub b hb)

theorem spoiled_not_recovered (hc : c.Lawful) (h : Mergeable us ps)
    (ht : Prepared w t ((manifestBytes us).take n) ((manifestBytes ps).take m))
    (hman : look t (w ++ ["manifest.gz"]) = none) (hbad : Spoiled us n ps m) :
    ¬ Recovered c level compress w t (Store.whole us n) (Store.whole ps m) := by
  obtain ⟨out, hfiles, hmerge⟩ := mergeFiles_take h n m
  rw [recovered_manifest hc h ht hman hfiles hmerge]
  rintro ⟨l, hread, hl⟩
  obtain ⟨e, hcut, hbefore, hnone⟩ := hbad
  obtain ⟨o₁, o₂, hout, hne, ho₁, ho₂⟩ := spoiled_split h hcut hbefore hnone hmerge
  have hpre := h.of_prefix (cutEntry_next hcut) (whole_initial ps m)
  have he : Recordable e := hpre.recordable_left e (by simp)
  rw [hout] at hread
  obtain ⟨x, hx, hkey⟩ := torn_not_recovered he (cutEntry_tail hcut) ho₁ ho₂ hne hread
  -- neither file has a complete entry of that key
  rcases (hl.mem_iff x).mp hx with hx | ⟨hx, -⟩
  · have hcompat := hpre.compatible x (List.mem_append_right _ hx) e (by simp)
    exact hnone x hx ((sbufPathcmp_spec hcompat).2.mpr hkey)
  · have hinc := hpre.increasing_left
    unfold Increasing at hinc
    rw [List.pairwise_append] at hinc
    have hlt := hinc.2.2 x (mem_upTo.mp hx).1 e List.mem_cons_self
    exact absurd hkey hlt.ne

theorem recovered_of_not_spoiled (hc : c.Lawful) (h : Mergeable us ps)
    (ht : Prepared w t ((manifestBytes us).take n) ((manifestBytes ps).take m))
    (hman : look t (w ++ ["manifest.gz"]) = none) (hgood : ¬ Spoiled us n ps m) :
    Recovered c level compress w t (Store.whole us n) (Store.whole ps m) := by
  obtain ⟨out, hfiles, hmerge⟩ := mergeFiles_take h n m
  rw [recovered_manifest hc h ht hman hfiles hmerge]
  have hwhole := h.of_prefix (whole_initial us n) (whole_initial ps m)
  have hclean := isMerge_whole h hgood hmerge
  have hrec : ∀ sb ∈ out, Recordable sb := by
    intro sb hsb
    rcases (hclean.mem_iff sb).mp hsb with hsb | hsb
    · exact hwhole.recordable_right sb hsb
    · exact hwhole.recordable_left sb (mem_upTo.mp hsb.1).1
  exact ⟨out, by rw [flatMap_written hrec, readAll_records hrec], hclean⟩

/-- **Which pairs of prefixes are recovered**: those without an entry of the unchanged file
that is cut off after its path, belongs before the last complete entry of the phase 2 file
and is not in that file. -/
theorem recovered_iff (hc : c.Lawful) (h : Mergeable us ps)
    (ht : Prepared w t ((manifestBytes us).take n) ((manifestBytes ps).take m))
    (hman : look t (w ++ ["manifest.gz"]) = none) :
    Recovered c level compress w t (Store.whole us n) (Store.whole ps m)
      ↔ ¬ Spoiled us n ps m :=
  ⟨fun hr hbad => spoiled_not_recovered hc h ht hman hbad hr,
    recovered_of_not_spoiled hc h ht hman⟩

end Recovery

/-- Both files are complete. -/
theorem recovered_sample :
    Recovered sampleCodec 9 true ["w"]
      (sampleTree ((manifestBytes [sampleFile]).take 1000) ((manifestBytes [sampleLink]).take 1000))
      (Store.whole [sampleFile] 1000) (Store.whole [sampleLink] 1000) := by
  refine (recovered_iff sampleCodec_lawful mergeable_sample (prepared_sampleTree _ _) rfl).mpr ?_
  rintro ⟨e, hcut, -⟩
  have hnone : cutEntry [sampleFile] 1000 = none := by decide
  rw [hnone] at hcut
  simp at hcut

/-- The unchanged file ends in front of the checksum of a file, and the phase 2 file has a
complete entry that comes after it. -/
theorem cut_before_checksum_not_recovered :
    ¬ Recovered sampleCodec 9 true ["w"]
      (sampleTree ((manifestBytes [sampleFile]).take 56) ((manifestBytes [sampleLink]).take 1000))
      (Store.whole [sampleFile] 56) (Store.whole [sampleLink] 1000) :=
  spoiled_not_recovered sampleCodec_lawful mergeable_sample (prepared_sampleTree _ _) rfl
    ⟨sampleFile, by decide, by decide, by decide⟩

end Burp.Phase3
