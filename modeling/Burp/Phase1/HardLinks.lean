/-
  Burp.Phase1.HardLinks — the targets of the hard links.

  The scan puts the first name of a file with several names into a table, and sends every
  later name as a hard link to it.  The table is filled before the size limits and the filters
  of `send_file` are looked at: the first name may be left out, and then the links point to
  nothing.

  Main results:
    * `scan_links`, `scan_sent_concat` — the table holds the first names, and what is sent at
      a name depends only on these.
    * `hardLinks_iff` — the links point to data exactly when the first name of every file
      that is sent by another name is kept.
-/
import Burp.Phase2.Dpth
import Burp.Phase1.Find

namespace Burp.Phase1

open FileSystem Burp.Store Burp.Phase2

/-! ## §1. First names. -/

/-- The name is one of a file with several names, and the file is this one. -/
def isName (fs : Files) (dev ino : Int) (v : Bytes × Bool) : Bool :=
  match fs.lstat v.1 with
  | none => false
  | some statp => linkable statp && decide (statp.ino = ino ∧ statp.dev = dev)

/-- The first of the names that is one of this file. -/
def firstName (fs : Files) (dev ino : Int) (vs : List (Bytes × Bool)) : Option (Bytes × Bool) :=
  vs.find? (isName fs dev ino)

/-- What is sent at a name, after these. -/
def sends (fs : Files) (conf : Conf) (pre : List (Bytes × Bool)) (v : Bytes × Bool) :
    List Sbuf :=
  match fs.lstat v.1 with
  | none => []
  | some statp =>
      if linkable statp then
        match firstName fs statp.dev statp.ino pre with
        | some u =>
            if u.1 = v.1 then [] else sendFile fs conf .lnksaved v.1 u.1 statp v.2
        | none => dumped fs conf v.1 statp v.2
      else dumped fs conf v.1 statp v.2

theorem isName_iff {fs : Files} {dev ino : Int} {v : Bytes × Bool} :
    isName fs dev ino v = true
      ↔ ∃ statp, fs.lstat v.1 = some statp ∧ linkable statp = true ∧ statp.ino = ino
          ∧ statp.dev = dev := by
  cases h : fs.lstat v.1 with
  | none => simp [isName, h]
  | some statp => simp [isName, h]

theorem firstName_concat (fs : Files) (dev ino : Int) (vs : List (Bytes × Bool))
    (v : Bytes × Bool) :
    firstName fs dev ino (vs ++ [v])
      = (firstName fs dev ino vs).or (if isName fs dev ino v then some v else none) := by
  rw [firstName, firstName, List.find?_append, List.find?_singleton]

/-- The scan of these names. -/
def scanOf (fs : Files) (conf : Conf) (vs : List (Bytes × Bool)) : Scan :=
  vs.foldl (enter fs conf) {}

theorem scanOf_concat (fs : Files) (conf : Conf) (vs : List (Bytes × Bool)) (v : Bytes × Bool) :
    scanOf fs conf (vs ++ [v]) = enter fs conf (scanOf fs conf vs) v := by
  simp [scanOf]

/-- **The table holds the first names.** -/
theorem scan_links (fs : Files) (conf : Conf) (vs : List (Bytes × Bool)) (dev ino : Int) :
    (scanOf fs conf vs).links.find? (Link.same dev ino)
      = (firstName fs dev ino vs).map fun u => ⟨dev, ino, u.1⟩ := by
  induction vs using List.reverseRecOn generalizing dev ino with
  | nil => rfl
  | append_singleton vs v ih =>
      rw [scanOf_concat, firstName_concat, enter]
      cases hstat : fs.lstat v.1 with
      | none => simp [ih, isName, hstat]
      | some statp =>
          by_cases hl : linkable statp
          · have hih := ih statp.dev statp.ino
            cases hf : firstName fs statp.dev statp.ino vs with
            | some u =>
                -- the file is in the table already
                rw [hf] at hih
                simp only [hl, if_true, hih, Option.map_some]
                have hkeep : ((if u.1 = v.1 then scanOf fs conf vs else
                    (scanOf fs conf vs).send
                      (sendFile fs conf .lnksaved v.1 u.1 statp v.2)).links.find?
                        (Link.same dev ino))
                    = (firstName fs dev ino vs).map fun u => ⟨dev, ino, u.1⟩ := by
                  split
                  · exact ih dev ino
                  · exact ih dev ino
                rw [hkeep]
                by_cases hn : isName fs dev ino v
                · obtain ⟨statp', h', -, hi, hd⟩ := isName_iff.1 hn
                  cases hstat.symm.trans h'
                  subst hi hd
                  rw [hf]
                  rfl
                · simp [hn]
            | none =>
                rw [hf] at hih
                simp only [hl, if_true, hih, Option.map_none]
                by_cases hn : isName fs dev ino v
                · obtain ⟨statp', h', -, hi, hd⟩ := isName_iff.1 hn
                  cases hstat.symm.trans h'
                  subst hi hd
                  simp [Scan.send, Link.same, hf, hn]
                · have hne : Link.same dev ino ⟨statp.dev, statp.ino, v.1⟩ = false := by
                    by_contra h
                    have h' : statp.ino = ino ∧ statp.dev = dev := by simpa [Link.same] using h
                    exact hn (isName_iff.2 ⟨statp, hstat, hl, h'.1, h'.2⟩)
                  show List.find? _ (_ :: (scanOf fs conf vs).links) = _
                  rw [List.find?_cons_of_neg (by simp [hne]), ih dev ino]
                  simp [hn]
          · have hn : isName fs dev ino v = false := by
              simp [isName, hstat, hl]
            have := ih dev ino
            simp [hl, hn, Scan.send, this]

/-- **What is sent at a name depends on the first names before it.** -/
theorem scan_sent_concat (fs : Files) (conf : Conf) (vs : List (Bytes × Bool))
    (v : Bytes × Bool) :
    (scanOf fs conf (vs ++ [v])).sent = (scanOf fs conf vs).sent ++ sends fs conf vs v := by
  rw [scanOf_concat, enter, sends]
  cases hstat : fs.lstat v.1 with
  | none => simp
  | some statp =>
      by_cases hl : linkable statp
      · have hlinks := scan_links fs conf vs statp.dev statp.ino
        cases hf : firstName fs statp.dev statp.ino vs with
        | none =>
            rw [hf] at hlinks
            simp [hl, hf, hlinks, Scan.send]
        | some u =>
            rw [hf] at hlinks
            by_cases hu : u.1 = v.1
            · simp [hl, hf, hlinks, hu]
            · simp [hl, hf, hlinks, hu, Scan.send]
      · simp [hl, Scan.send]

theorem mem_scan_sent {fs : Files} {conf : Conf} {vs : List (Bytes × Bool)} {e : Sbuf} :
    e ∈ (scanOf fs conf vs).sent
      ↔ ∃ pre v post, vs = pre ++ v :: post ∧ e ∈ sends fs conf pre v := by
  induction vs using List.reverseRecOn with
  | nil => simp [scanOf]
  | append_singleton vs v ih =>
      rw [scan_sent_concat, List.mem_append, ih]
      constructor
      · intro h
        cases h with
        | inl h =>
            obtain ⟨pre, u, post, hvs, he⟩ := h
            exact ⟨pre, u, post ++ [v], by simp [hvs], he⟩
        | inr h => exact ⟨vs, v, [], rfl, h⟩
      · intro ⟨pre, u, post, hvs, he⟩
        cases post using List.reverseRecOn with
        | nil =>
            have := List.append_inj' hvs rfl
            obtain ⟨rfl, hv⟩ := this
            cases hv
            exact Or.inr he
        | append_singleton post x =>
            have : vs ++ [v] = (pre ++ u :: post) ++ [x] := by simp [hvs]
            obtain ⟨rfl, -⟩ := List.append_inj' this rfl
            exact Or.inl ⟨pre, u, post, rfl, he⟩

/-! ## §2. The entries for one name. -/

/-- A first name gets past the filters. -/
def kept (conf : Conf) (fname : Bytes) (statp : Stat) (topLevel : Bool) : Bool :=
  fileIsIncluded conf fname topLevel
    && (Stat.fmt statp != 8
      || decide (¬ (conf.minFileSize ≠ 0 ∧ statp.size < conf.minFileSize)
          ∧ ¬ (conf.maxFileSize ≠ 0 ∧ conf.maxFileSize < statp.size)))

/-- An entry that brings the contents of a file, or makes it. -/
def isData (conf : Conf) (e : Sbuf) : Bool :=
  e.cmd == filesymbol conf || e.cmd == .special

theorem metasymbol_ne (conf : Conf) :
    metasymbol conf ≠ .hardLink ∧ metasymbol conf ≠ filesymbol conf
      ∧ metasymbol conf ≠ .special := by
  cases h : conf.encrypts <;> simp [metasymbol, filesymbol, h]

theorem filesymbol_ne (conf : Conf) :
    filesymbol conf ≠ .hardLink ∧ filesymbol conf ≠ .directory ∧ filesymbol conf ≠ .softLink := by
  cases h : conf.encrypts <;> simp [filesymbol, h]

theorem mem_extrameta {fs : Files} {conf : Conf} {path : Bytes} {cmd : Cmd} {attribs : Bytes}
    {e : Sbuf} (h : e ∈ maybeSendExtrameta fs conf path cmd attribs) :
    e.path = some path ∧ e.cmd = metasymbol conf := by
  rw [maybeSendExtrameta] at h
  split at h
  · cases List.mem_singleton.1 h
    exact ⟨rfl, rfl⟩
  · cases h

/-- The main entry of a kind of file, by its command. -/
def mainCmd (conf : Conf) : Found → Option Cmd
  | .lnksaved => some .hardLink
  | .raw | .fifo | .rege | .reg => some (filesymbol conf)
  | .lnk => some .softLink
  | .dirbegin => some .directory
  | .spec => some .special
  | .dirend | .nofschg | .nofollow | .nostat | .noopen => none

theorem mem_sendFile {fs : Files} {conf : Conf} {type : Found} {fname link : Bytes}
    {statp : Stat} {top : Bool} {e : Sbuf}
    (h : e ∈ sendFile fs conf type fname link statp top) :
    fileIsIncluded conf fname top = true ∧ e.path = some fname
      ∧ (e.cmd = metasymbol conf ∨ some e.cmd = mainCmd conf type) := by
  unfold sendFile at h
  cases hi : fileIsIncluded conf fname top with
  | false => simp [hi] at h
  | true =>
      have hmeta : ∀ {cmd : Cmd} {attribs : Bytes},
          e ∈ maybeSendExtrameta fs conf fname cmd attribs →
            e.path = some fname ∧ (e.cmd = metasymbol conf ∨ some e.cmd = mainCmd conf type) :=
        fun he => ⟨(mem_extrameta he).1, Or.inl (mem_extrameta he).2⟩
      refine ⟨rfl, ?_⟩
      rw [hi] at h
      cases type with
      | dirend => cases h
      | nofschg => cases h
      | nofollow => cases h
      | nostat => cases h
      | noopen => cases h
      | lnk =>
          obtain h | h := List.mem_append.1 h
          · split at h
            · exact hmeta h
            · cases h
          · obtain rfl | h := List.mem_cons.1 h
            · exact ⟨rfl, Or.inr rfl⟩
            · exact hmeta h
      | _ =>
          obtain rfl | h := List.mem_cons.1 h
          · exact ⟨rfl, Or.inr rfl⟩
          · exact hmeta h

/-- The file itself is sent if its name is included. -/
theorem exists_mem_sendFile {fs : Files} {conf : Conf} {type : Found} {fname link : Bytes}
    {statp : Stat} {top : Bool} (hi : fileIsIncluded conf fname top = true) {cmd : Cmd}
    (hcmd : mainCmd conf type = some cmd) :
    ∃ e ∈ sendFile fs conf type fname link statp top, e.cmd = cmd ∧ e.path = some fname := by
  unfold sendFile
  rw [hi]
  cases type with
  | lnk =>
      cases hcmd
      exact ⟨_, List.mem_append_right _ List.mem_cons_self, rfl, rfl⟩
  | dirend => cases hcmd
  | nofschg => cases hcmd
  | nofollow => cases hcmd
  | nostat => cases hcmd
  | noopen => cases hcmd
  | _ =>
      cases hcmd
      exact ⟨_, List.mem_cons_self, rfl, rfl⟩

theorem mem_dumped {fs : Files} {conf : Conf} {fname : Bytes} {statp : Stat} {top : Bool}
    {e : Sbuf} (h : e ∈ dumped fs conf fname statp top) :
    e.path = some fname ∧ e.cmd ≠ .hardLink := by
  have hsend : ∀ {type : Found} {link : Bytes}, mainCmd conf type ≠ some .hardLink →
      e ∈ sendFile fs conf type fname link statp top →
        e.path = some fname ∧ e.cmd ≠ .hardLink := by
    intro type link hne he
    obtain ⟨-, hp, hc⟩ := mem_sendFile he
    refine ⟨hp, fun hh => ?_⟩
    rw [hh] at hc
    obtain hc | hc := hc
    · exact (metasymbol_ne conf).1 hc.symm
    · exact hne hc.symm
  have hfile : some (filesymbol conf) ≠ some Cmd.hardLink :=
    fun hh => (filesymbol_ne conf).1 (Option.some.inj hh)
  rw [dumped] at h
  split at h
  · rw [foundRegularFile] at h
    split at h
    · cases h
    split at h
    · cases h
    split at h
    · exact @hsend .rege _ hfile h
    · exact @hsend .reg _ hfile h
  split at h
  · rw [foundSoftLink] at h
    split at h
    · exact hsend (by simp [mainCmd]) h
    · exact hsend (by simp [mainCmd]) h
  split at h
  · split at h
    · cases h
    · exact hsend (by simp [mainCmd]) h
  · rw [foundOther] at h
    split at h
    · exact @hsend .raw _ hfile h
    split at h
    · exact @hsend .fifo _ hfile h
    · exact hsend (by simp [mainCmd]) h

/-- A file with several names that is kept is sent as data, and so is no other. -/
theorem dumped_data_iff {fs : Files} {conf : Conf} {fname : Bytes} {statp : Stat} {top : Bool}
    (hl : linkable statp = true) :
    (∃ e ∈ dumped fs conf fname statp top, isData conf e = true)
      ↔ kept conf fname statp top = true := by
  have hsend : ∀ {type : Found} {link : Bytes} {cmd : Cmd}, mainCmd conf type = some cmd →
      (cmd = filesymbol conf ∨ cmd = .special) →
      ((∃ e ∈ sendFile fs conf type fname link statp top, isData conf e = true)
        ↔ fileIsIncluded conf fname top = true) := by
    intro type link cmd hm hcmd
    constructor
    · intro ⟨e, he, _⟩
      exact (mem_sendFile he).1
    · intro hi
      obtain ⟨e, he, hc, -⟩ := @exists_mem_sendFile fs conf type fname link statp top hi cmd hm
      refine ⟨e, he, ?_⟩
      obtain rfl | rfl := hcmd
      · simp [isData, hc]
      · simp [isData, hc]
  rw [dumped, kept]
  by_cases h8 : Stat.fmt statp = 8
  · rw [if_pos h8, foundRegularFile]
    by_cases hmin : conf.minFileSize ≠ 0 ∧ statp.size < conf.minFileSize
    · simp [hmin, h8]
    by_cases hmax : conf.maxFileSize ≠ 0 ∧ conf.maxFileSize < statp.size
    · simp [hmin, hmax, h8]
    rw [if_neg hmin, if_neg hmax]
    have hk : (Stat.fmt statp != 8 || decide (¬ (conf.minFileSize ≠ 0
        ∧ statp.size < conf.minFileSize) ∧ ¬ (conf.maxFileSize ≠ 0
          ∧ conf.maxFileSize < statp.size))) = true := by
      simp only [hmin, hmax, not_false_eq_true, and_self, decide_true, Bool.or_true]
    rw [hk, Bool.and_true]
    split
    · exact hsend rfl (Or.inl rfl)
    · exact hsend rfl (Or.inl rfl)
  · have h10 : Stat.fmt statp ≠ 10 := by
      intro h10
      simp [linkable, h10] at hl
    have h4 := fmt_ne_of_linkable hl
    have h8' : (Stat.fmt statp != 8) = true := by simpa using h8
    rw [if_neg h8, if_neg h10, if_neg h4, foundOther, h8', Bool.true_or, Bool.and_true]
    split
    · exact hsend rfl (Or.inl rfl)
    split
    · exact hsend rfl (Or.inl rfl)
    · exact hsend rfl (Or.inr rfl)

/-! ## §3. The entries of the scan. -/

theorem sends_path {fs : Files} {conf : Conf} {pre : List (Bytes × Bool)} {v : Bytes × Bool}
    {e : Sbuf} (h : e ∈ sends fs conf pre v) : e.path = some v.1 := by
  rw [sends] at h
  cases hstat : fs.lstat v.1 with
  | none => simp [hstat] at h
  | some statp =>
      simp only [hstat] at h
      split at h
      · split at h
        · split at h
          · cases h
          · exact (mem_sendFile h).2.1
        · exact (mem_dumped h).1
      · exact (mem_dumped h).1

/-- A hard link is the first entry that is sent for its name. -/
theorem sends_hardLink {fs : Files} {conf : Conf} {pre : List (Bytes × Bool)}
    {w : Bytes × Bool} {es es' : List Sbuf} {e : Sbuf}
    (h : sends fs conf pre w = es ++ e :: es') (he : e.cmd = .hardLink) :
    es = [] ∧ ∃ statp u, fs.lstat w.1 = some statp ∧ linkable statp = true
      ∧ firstName fs statp.dev statp.ino pre = some u ∧ u.1 ≠ w.1
      ∧ fileIsIncluded conf w.1 w.2 = true ∧ e.path = some w.1 ∧ e.linkto = some u.1 := by
  have hmem : e ∈ sends fs conf pre w := by simp [h]
  rw [sends] at h hmem
  cases hstat : fs.lstat w.1 with
  | none => simp [hstat] at hmem
  | some statp =>
      simp only [hstat] at h hmem
      by_cases hl : linkable statp
      · simp only [hl, if_true] at h hmem
        cases hf : firstName fs statp.dev statp.ino pre with
        | none =>
            simp only [hf] at hmem
            exact absurd he (mem_dumped hmem).2
        | some u =>
            simp only [hf] at h hmem
            split at h
            · cases es <;> cases h
            · rename_i hne
              rw [if_neg hne] at hmem
              have hi := (mem_sendFile hmem).1
              simp only [sendFile, hi, Bool.not_true] at h
              cases es with
              | nil =>
                  obtain ⟨rfl, -⟩ := List.cons.inj h
                  exact ⟨rfl, statp, u, rfl, hl, hf, hne, hi, rfl, rfl⟩
              | cons x xs =>
                  -- the rest of the entries are metadata
                  have hx : e ∈ maybeSendExtrameta fs conf w.1 .hardLink
                      (encodeStat false statp 0 conf.compression) := by
                    have := (List.cons.inj h).2
                    exact this ▸ List.mem_append_right xs List.mem_cons_self
                  rw [(mem_extrameta hx).2] at he
                  exact absurd he (metasymbol_ne conf).1
      · simp only [hl] at hmem
        exact absurd he (mem_dumped hmem).2

/-- What comes before a hard link was sent for the names before it. -/
theorem hardLink_split {fs : Files} {conf : Conf} {vs : List (Bytes × Bool)}
    {es es' : List Sbuf} {e : Sbuf} (h : (scanOf fs conf vs).sent = es ++ e :: es')
    (he : e.cmd = .hardLink) :
    ∃ pre w post, vs = pre ++ w :: post ∧ es = (scanOf fs conf pre).sent
      ∧ ∃ statp u, fs.lstat w.1 = some statp ∧ linkable statp = true
        ∧ firstName fs statp.dev statp.ino pre = some u ∧ u.1 ≠ w.1
        ∧ fileIsIncluded conf w.1 w.2 = true ∧ e.path = some w.1 ∧ e.linkto = some u.1 := by
  induction vs using List.reverseRecOn generalizing es' with
  | nil => cases es <;> cases h
  | append_singleton vs v ih =>
      rw [scan_sent_concat] at h
      obtain ⟨xs, hes, hs⟩ | ⟨xs, hvs, hs⟩ := List.append_eq_append_iff.1 h
      · -- it is sent at the last name
        obtain ⟨rfl, hlink⟩ := sends_hardLink hs he
        rw [List.append_nil] at hes
        exact ⟨vs, v, [], rfl, hes, hlink⟩
      · cases xs with
        | nil =>
            rw [List.append_nil] at hvs
            obtain ⟨-, hlink⟩ := @sends_hardLink fs conf vs v [] es' e hs.symm he
            exact ⟨vs, v, [], rfl, hvs.symm, hlink⟩
        | cons x xs =>
            cases (List.cons.inj hs).1
            obtain ⟨pre, w, post, rfl, hrest⟩ := ih hvs
            exact ⟨pre, w, post ++ [v], by simp, hrest⟩

/-! ## §4. The targets of the links. -/

/-- Two names of one file. -/
def SameFile (fs : Files) (p q : Bytes) : Prop :=
  ∃ s t, fs.lstat p = some s ∧ fs.lstat q = some t ∧ s.dev = t.dev ∧ s.ino = t.ino

/-- Every hard link names a path that was sent before it as a data or special entry, and is
another name of the same file. -/
def LinksPointToData (fs : Files) (conf : Conf) (sent : List Sbuf) : Prop :=
  ∀ es e es', sent = es ++ e :: es' → e.cmd = .hardLink →
    ∃ p q, e.path = some p ∧ e.linkto = some q ∧ SameFile fs p q
      ∧ ∃ d ∈ es, d.path = some q ∧ isData conf d = true

/-- The first name that the scan comes to of a file is kept, if the file has a later name that
is included. -/
def FirstNamesKept (fs : Files) (conf : Conf) (vs : List (Bytes × Bool)) : Prop :=
  ∀ pre v mid w post statp, vs = pre ++ v :: mid ++ w :: post → fs.lstat v.1 = some statp →
    linkable statp = true → firstName fs statp.dev statp.ino pre = none →
    isName fs statp.dev statp.ino w = true → w.1 ≠ v.1 →
    fileIsIncluded conf w.1 w.2 = true → kept conf v.1 statp v.2 = true

theorem firstName_eq_some {fs : Files} {dev ino : Int} {vs : List (Bytes × Bool)}
    {u : Bytes × Bool} (h : firstName fs dev ino vs = some u) :
    ∃ pre post, vs = pre ++ u :: post ∧ firstName fs dev ino pre = none
      ∧ isName fs dev ino u = true := by
  obtain ⟨hu, pre, post, hvs, hpre⟩ := List.find?_eq_some_iff_append.1 h
  refine ⟨pre, post, hvs, ?_, hu⟩
  rw [firstName, List.find?_eq_none]
  intro x hx
  simpa using hpre x hx

/-- At a first name the file itself is sent. -/
theorem sends_first {fs : Files} {conf : Conf} {pre : List (Bytes × Bool)} {v : Bytes × Bool}
    {statp : Stat} (hstat : fs.lstat v.1 = some statp)
    (hf : firstName fs statp.dev statp.ino pre = none) :
    sends fs conf pre v = dumped fs conf v.1 statp v.2 := by
  simp [sends, hstat, hf]

/-- At another name of the file, a link to its first name is sent. -/
theorem sends_later {fs : Files} {conf : Conf} {pre : List (Bytes × Bool)} {u w : Bytes × Bool}
    {statp : Stat} (hstat : fs.lstat w.1 = some statp) (hl : linkable statp = true)
    (hf : firstName fs statp.dev statp.ino pre = some u) :
    sends fs conf pre w
      = if u.1 = w.1 then [] else sendFile fs conf .lnksaved w.1 u.1 statp w.2 := by
  simp [sends, hstat, hl, hf]

theorem firstName_append_cons {fs : Files} {pre mid : List (Bytes × Bool)} {v : Bytes × Bool}
    {dev ino : Int} (hpre : firstName fs dev ino pre = none) (hv : isName fs dev ino v = true) :
    firstName fs dev ino (pre ++ v :: mid) = some v := by
  rw [firstName] at hpre ⊢
  rw [List.find?_append, hpre, Option.none_or, List.find?_cons_of_pos hv]

theorem linksPointToData_of_kept {fs : Files} {conf : Conf} {vs : List (Bytes × Bool)}
    (hkept : FirstNamesKept fs conf vs) : LinksPointToData fs conf (scanOf fs conf vs).sent := by
  intro es e es' hsent he
  obtain ⟨pre, w, post, rfl, rfl, statp, u, hw, hl, hf, hne, hi, hp, ht⟩ :=
    hardLink_split hsent he
  obtain ⟨pre', mid, rfl, hpre', hu⟩ := firstName_eq_some hf
  obtain ⟨statu, hstatu, hlu, hino, hdev⟩ := isName_iff.1 hu
  have hwn : isName fs statu.dev statu.ino w = true :=
    isName_iff.2 ⟨statp, hw, hl, hino.symm, hdev.symm⟩
  have hpre : firstName fs statu.dev statu.ino pre' = none := by
    rw [hino, hdev]
    exact hpre'
  -- the first name was sent as data when the scan came to it
  have hk := hkept pre' u mid w post statu rfl hstatu hlu hpre hwn (Ne.symm hne) hi
  obtain ⟨d, hd, hdata⟩ := (@dumped_data_iff fs _ _ _ _ hlu).2 hk
  refine ⟨w.1, u.1, hp, ht, ⟨statp, statu, hw, hstatu, hdev.symm, hino.symm⟩, d, ?_,
    (mem_dumped hd).1, hdata⟩
  rw [mem_scan_sent]
  refine ⟨pre', u, mid, rfl, ?_⟩
  rw [sends_first hstatu hpre]
  exact hd

theorem kept_of_linksPointToData {fs : Files} {conf : Conf} {vs : List (Bytes × Bool)}
    (h : LinksPointToData fs conf (scanOf fs conf vs).sent) : FirstNamesKept fs conf vs := by
  intro pre v mid w post statp hvs hv hl hpre hw hne hi
  have hvn : isName fs statp.dev statp.ino v = true := isName_iff.2 ⟨statp, hv, hl, rfl, rfl⟩
  obtain ⟨statw, hstatw, hlw, hino, hdev⟩ := isName_iff.1 hw
  have hf : firstName fs statw.dev statw.ino (pre ++ v :: mid) = some v := by
    rw [hino, hdev]
    exact firstName_append_cons hpre hvn
  -- the link that is sent at the later name
  have hsends := @sends_later fs conf _ v w statw hstatw hlw hf
  rw [if_neg (Ne.symm hne), sendFile, hi] at hsends
  simp only [Bool.not_true, Bool.false_eq_true, if_false] at hsends
  have hsplit : ∃ e es', e.cmd = Cmd.hardLink ∧ e.linkto = some v.1
      ∧ (scanOf fs conf vs).sent = (scanOf fs conf (pre ++ v :: mid)).sent ++ e :: es' := by
    have hlast : (scanOf fs conf (pre ++ v :: mid ++ [w])).sent
        = (scanOf fs conf (pre ++ v :: mid)).sent ++ sends fs conf (pre ++ v :: mid) w :=
      scan_sent_concat fs conf _ w
    rw [hsends] at hlast
    have hmore : ∀ us : List (Bytes × Bool), ∃ es',
        (scanOf fs conf (pre ++ v :: mid ++ [w] ++ us)).sent
          = (scanOf fs conf (pre ++ v :: mid ++ [w])).sent ++ es' := by
      intro us
      induction us using List.reverseRecOn with
      | nil => exact ⟨[], by simp⟩
      | append_singleton us x ih =>
          obtain ⟨es', hes⟩ := ih
          refine ⟨es' ++ sends fs conf (pre ++ v :: mid ++ [w] ++ us) x, ?_⟩
          rw [← List.append_assoc, scan_sent_concat, hes, List.append_assoc]
    obtain ⟨es', hes⟩ := hmore post
    have hvs' : vs = pre ++ v :: mid ++ [w] ++ post := by simp [hvs]
    rw [← hvs', hlast] at hes
    rw [List.append_assoc] at hes
    exact ⟨_, _, rfl, rfl, hes⟩
  obtain ⟨e, es', he, ht, hsent⟩ := hsplit
  obtain ⟨p, q, -, hq, -, d, hd, hdp, hdata⟩ := h _ e es' hsent he
  cases ht.symm.trans hq
  -- the entry for the first name can only have been sent when the scan first came to it
  obtain ⟨pre', x, post', hx, hdx⟩ := mem_scan_sent.1 hd
  have hxv : x.1 = v.1 := Option.some.inj ((sends_path hdx).symm.trans hdp)
  have hstatx : fs.lstat x.1 = some statp := by rw [hxv, hv]
  cases hfx : firstName fs statp.dev statp.ino pre' with
  | none =>
      -- the first of the names in `pre' ++ x :: post'` is `v`, so that `x` is `v`
      have hxn : isName fs statp.dev statp.ino x = true :=
        isName_iff.2 ⟨statp, hstatx, hl, rfl, rfl⟩
      have h1 := @firstName_append_cons fs pre' post' x _ _ hfx hxn
      rw [← hx, firstName_append_cons hpre hvn] at h1
      cases Option.some.inj h1
      rw [sends_first hv hfx] at hdx
      exact (dumped_data_iff hl).1 ⟨d, hdx, hdata⟩
  | some y =>
      have h1 : firstName fs statp.dev statp.ino (pre' ++ x :: post') = some y := by
        rw [firstName] at hfx ⊢
        rw [List.find?_append, hfx, Option.some_or]
      rw [← hx, firstName_append_cons hpre hvn] at h1
      cases Option.some.inj h1
      -- the same name again sends nothing
      rw [sends_later hstatx hl hfx, if_pos hxv.symm] at hdx
      cases hdx

/-- **The links point to data exactly when the first names are kept.** -/
theorem hardLinks_iff (fs : Files) (conf : Conf) (fuel : Nat) :
    LinksPointToData fs conf (backupPhase1Client fs conf fuel).sent
      ↔ FirstNamesKept fs conf (visited fs conf fuel) := by
  rw [backupPhase1Client_eq]
  exact ⟨kept_of_linksPointToData, linksPointToData_of_kept⟩

/-- A directory with two names of one file. -/
def twoNames : Files where
  lstat p :=
    if p = nameBytes "/a" then some { mode := 0o040755, nlink := 2 }
    else if p = nameBytes "/a/x.dat" then some { ino := 7, mode := 0o100644, nlink := 2, size := 3 }
    else if p = nameBytes "/a/y.txt" then some { ino := 7, mode := 0o100644, nlink := 2, size := 3 }
    else none
  readlink _ := none
  opendir p :=
    if p = nameBytes "/a" then some [nameBytes "y.txt", nameBytes "x.dat"] else none
  fstype _ := some 61267
  hasExtrameta _ _ := false

/-- The names that end in ".txt" are to be backed up. -/
def onlyTxt : Conf where
  incexcdir := [(nameBytes "/a", true)]
  startdir := [nameBytes "/a"]
  incext := [nameBytes "txt"]

/-- **A link that points to nothing.**  The first name is left out for its extension, and the
second one is sent as a link to it. -/
theorem link_to_nothing :
    ¬ LinksPointToData twoNames onlyTxt (backupPhase1Client twoNames onlyTxt 3).sent := by
  intro h
  rw [backupPhase1Client_eq] at h
  have hkept := kept_of_linksPointToData h [(nameBytes "/a", true)] (nameBytes "/a/x.dat", false)
    [] (nameBytes "/a/y.txt", false) []
    { ino := 7, mode := 0o100644, nlink := 2, size := 3 }
    (by decide) (by decide) (by decide) (by decide)
    (by decide) (by decide) (by decide)
  revert hkept
  decide

end Burp.Phase1
