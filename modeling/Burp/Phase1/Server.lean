/-
  Burp.Phase1.Server — the list of the client is written down (backup_phase1_server.c, sbuf.c).

  In phase 1 the client tells the server what there is to back up, one entry after the other,
  with warnings in between.  The server writes the entries to a temporary file, and gives that
  file its name when the client has said that it is done.  Phase 2 reads the file entry by entry.

  Main results:
    * `phase1Loop_scan` — a list that comes whole is written, a list that is cut off is not.
    * `phase1_commits` — whenever the server is killed, the file holds the whole list or is what
      it was before.
-/
import Burp.Phase2.Dpth
import Burp.Phase3.Server

namespace Burp.Phase1

open FileSystem Crash Burp.Store Burp.Phase3
open Burp.Phase2 (nameBytes)

/-! ## §1. Entries from the connection. -/

abbrev Message := Cmd × Bytes

/-- `async_read_stat` on a connection; a warning is logged and counted. -/
def readStatNet : Option Bytes → Sbuf → List Message → Ars × Sbuf × List Message
  | _, sb, [] => (.error, sb, [])
  | d, sb, (.warning, _) :: msgs => readStatNet d sb msgs
  | _, sb, (.datapth, buf) :: msgs => readStatNet (some buf) sb msgs
  | d, sb, (.stat, buf) :: msgs =>
      let (statp, winattr, compression) := decodeStat sb buf
      (.ok, { sb with statp := statp, winattr := winattr, compression := compression,
                      statbuf := buf, datapth := d }, msgs)
  | _, sb, (.gen, buf) :: msgs => (if endTexts.contains (cString buf) then .ended else .error, sb, msgs)
  | _, sb, _ :: msgs => (.error, sb, msgs)

/-- `do_sbuf_fill_from_net`, into a new entry. -/
def fillFromNet (msgs : List Message) : Ars × Sbuf × List Message :=
  match readStatNet none {} msgs with
  | (.ok, sb, (cmd, path) :: msgs) =>
      let sb := { sb with cmd := cmd, path := some path }
      if cmd.isLink then
        match msgs with
        | (cmd', linkto) :: msgs =>
            (if cmd'.isLink then .ok else .error, { sb with linkto := some linkto }, msgs)
        | [] => (.error, sb, [])
      else (.ok, sb, msgs)
  | (.ok, sb, []) => (.error, sb, [])
  | r => r

/-! ## §2. The server. -/

/-- What stands at the end of the file. -/
def phase1End : Bytes := (sendMsgZp .gen (nameBytes "phase1end")).getD []

/-- The loop of `backup_phase1_server`: what it writes, and whether nothing has failed.  `replies`
says that "ok" can be written. -/
def phase1Loop (replies : Bool) : Nat → List Message → Bytes × Bool
  | 0, _ => ([], false)
  | fuel + 1, msgs =>
      match fillFromNet msgs with
      | (.ok, sb, rest) =>
          match sbufToManifest true false sb with
          | none => ([], false)
          | some text =>
              let r := phase1Loop replies fuel rest
              (text ++ r.1, r.2)
      | (ars, _, _) => if replies then (phase1End, ars = .ended) else ([], false)

/-- `backup_phase1_server`, for the messages that arrive; `closes` says that `gzclose` does not
fail. -/
def backupPhase1Server (c : Codec) (level : Nat) (phase1data : Path) (replies closes : Bool)
    (msgs : List Message) : Prog Node Bool := do
  match ← openWrite (getTmpFilename phase1data) with
  | none => pure false
  | some i =>
      -- an entry takes at least one message
      let written := phase1Loop replies (msgs.length + 1) msgs
      appendAll i (c.pieces (c.gzip level written.1))
      if written.2 ∧ closes then rename (getTmpFilename phase1data) phase1data else pure false

/-! ## §3. A list that comes whole. -/

/-- An entry as the scan finds it. -/
structure Scanned (sb : Sbuf) : Prop extends WellFormed false sb where
  noDatapth : sb.datapth = none
  short : ∀ text ∈ sb.texts, text.length < 65536

/-- The messages that `send_file` sends of an entry. -/
def entryMessages (sb : Sbuf) : List Message :=
  (.stat, sb.statbuf) :: (sb.cmd, sb.path.getD []) :: sb.linkto.toList.map fun l => (sb.cmd, l)

/-- The client scans: entries and warnings, and then it asks for phase 2. -/
inductive ScanSent : List Sbuf → List Message → Prop
  | done : ScanSent [] [(.gen, nameBytes "backupphase2")]
  | warning (text : Bytes) {sbs : List Sbuf} {msgs : List Message} (h : ScanSent sbs msgs) :
      ScanSent sbs ((.warning, text) :: msgs)
  | entry {sb : Sbuf} {sbs : List Sbuf} {msgs : List Message} (hsb : Scanned sb)
      (h : ScanSent sbs msgs) : ScanSent (sb :: sbs) (entryMessages sb ++ msgs)

section ScanSent

variable {sb : Sbuf} {sbs : List Sbuf} {msgs pre rest : List Message}

/-- Nothing else is known of it. -/
theorem Scanned.eta (h : Scanned sb) :
    sb = { cmd := sb.cmd, path := sb.path, linkto := sb.linkto, statbuf := sb.statbuf,
           statp := sb.statp, winattr := sb.winattr, compression := sb.compression } := by
  have hend := h.endfile
  rw [Bool.false_and, Option.isSome_eq_false_iff, Option.isNone_iff_eq_none] at hend
  have hdata := h.noDatapth
  cases sb
  subst hend hdata
  rfl

theorem readStatNet_stat (h : Scanned sb) (msgs : List Message) :
    readStatNet none {} ((.stat, sb.statbuf) :: msgs)
      = (.ok, { statp := sb.statp, winattr := sb.winattr, compression := sb.compression,
                statbuf := sb.statbuf }, msgs) := by
  rw [readStatNet, decodeStat_encodeStat h.stat]

/-- One entry is read from its messages. -/
theorem fillFromNet_entry (h : Scanned sb) (rest : List Message) :
    fillFromNet (entryMessages sb ++ rest) = (.ok, sb, rest) := by
  obtain ⟨p, hp⟩ := h.path
  have hstat : readStatNet none {} (entryMessages sb ++ rest)
      = (.ok, { statp := sb.statp, winattr := sb.winattr, compression := sb.compression,
                statbuf := sb.statbuf },
          (sb.cmd, p) :: ((sb.linkto.toList.map fun l => (sb.cmd, l)) ++ rest)) := by
    rw [entryMessages, hp, List.cons_append, readStatNet_stat h]
    rfl
  unfold fillFromNet
  rw [hstat]
  dsimp only
  cases hlink : sb.cmd.isLink with
  | true =>
      obtain ⟨l, hl⟩ := Option.isSome_iff_exists.mp (h.linkto.trans hlink)
      rw [if_pos rfl, hl]
      show (if sb.cmd.isLink = true then Ars.ok else Ars.error, _, rest) = _
      rw [hlink, if_pos rfl, ← hl, ← hp]
      exact congrArg (fun x => (Ars.ok, x, rest)) h.eta.symm
  | false =>
      have hl := h.linkto
      rw [hlink, Option.isSome_eq_false_iff, Option.isNone_iff_eq_none] at hl
      rw [if_neg (by decide), hl]
      show (Ars.ok, Sbuf.mk sb.cmd (some p) none none sb.statbuf sb.statp sb.winattr
        sb.compression none, rest) = _
      have heta := h.eta
      rw [hp, hl] at heta
      exact congrArg (fun x => (Ars.ok, x, rest)) heta.symm

theorem fillFromNet_warning (text : Bytes) (msgs : List Message) :
    fillFromNet ((.warning, text) :: msgs) = fillFromNet msgs := rfl

/-- The messages of an entry that are cut off give none. -/
theorem fillFromNet_cut (h : Scanned sb) (hpre : pre <+: entryMessages sb)
    (hne : pre ≠ entryMessages sb) : (fillFromNet pre).1 = .error := by
  obtain ⟨p, hp⟩ := h.path
  obtain ⟨t, ht⟩ := hpre
  rw [entryMessages, hp, Option.getD_some] at ht hne
  rcases pre with _ | ⟨m₁, _ | ⟨m₂, pre⟩⟩
  · rfl
  · rw [List.cons_append, List.cons.injEq] at ht
    rw [ht.1, fillFromNet, readStatNet_stat h]
  · rw [List.cons_append, List.cons_append, List.cons.injEq, List.cons.injEq] at ht
    obtain ⟨rfl, rfl, ht⟩ := ht
    -- only the target of a link is missing
    cases hl : sb.linkto with
    | none =>
        rw [hl] at ht hne
        rw [(List.append_eq_nil_iff.mp ht).1] at hne
        exact absurd rfl hne
    | some l =>
        have hlink : sb.cmd.isLink = true := by rw [← h.linkto, hl]; rfl
        have hnil : pre = [] := by
          rw [hl] at ht hne
          rcases pre with _ | ⟨m₃, pre⟩
          · rfl
          · have hpair : m₃ = (sb.cmd, l) ∧ pre ++ t = [] := by simpa using ht
            rw [hpair.1, (List.append_eq_nil_iff.mp hpair.2).1] at hne
            exact absurd rfl hne
        rw [hnil, fillFromNet, readStatNet_stat h]
        dsimp only
        rw [if_pos hlink]

/-- What is written of the entries. -/
def entriesText (sbs : List Sbuf) : Bytes := sbs.flatMap fun sb => (toManifestZp false sb).getD []

theorem length_entryMessages (sb : Sbuf) : 2 ≤ (entryMessages sb).length := by
  show 2 ≤ (sb.linkto.toList.map fun l => (sb.cmd, l)).length + 1 + 1
  omega

/-- An entry that the scan finds can be written. -/
theorem Scanned.written (h : Scanned sb) : (toManifestZp false sb).isSome := by
  obtain ⟨p, hp⟩ := h.path
  have hsend : ∀ cmd (text : Bytes), text.length < 65536 →
      sendMsgZp cmd text = some (message cmd text) := fun _ _ => sendMsgZp_message
  have hname := hsend sb.cmd p (h.short p (by simp [Sbuf.texts, hp]))
  have hst := hsend .stat sb.statbuf h.stat.length_lt_four
  have hl := sendIf_message hsend sb.cmd sb.linkto
    fun text ht => h.short text (by simp [Sbuf.texts, ht])
  show (sbufTo sendMsgZp false sb).isSome
  unfold sbufTo
  rw [hp, h.noDatapth, hl, hst]
  dsimp only
  rw [hname]
  rfl

variable (replies : Bool) in
/-- **The loop writes the whole list**, or it fails if the list is cut off. -/
theorem phase1Loop_scan (h : ScanSent sbs msgs) {fuel : Nat} (hpre : pre <+: msgs)
    (hfuel : pre.length < fuel) :
    (pre = msgs → phase1Loop true fuel pre = (entriesText sbs ++ phase1End, true))
      ∧ (pre ≠ msgs → (phase1Loop replies fuel pre).2 = false) := by
  induction h generalizing pre fuel with
  | done =>
      obtain ⟨fuel, rfl⟩ : ∃ n, fuel = n + 1 := ⟨fuel - 1, by omega⟩
      refine ⟨fun heq => by rw [heq]; rfl, fun hne => ?_⟩
      rcases pre with _ | ⟨m, pre⟩
      · cases replies <;> rfl
      · obtain ⟨t, ht⟩ := hpre
        rw [List.cons_append, List.cons.injEq] at ht
        rw [ht.1, (List.append_eq_nil_iff.mp ht.2).1] at hne
        exact absurd rfl hne
  | @warning text sbs msgs _ ih =>
      obtain ⟨fuel, rfl⟩ : ∃ n, fuel = n + 1 := ⟨fuel - 1, by omega⟩
      rcases pre with _ | ⟨m, pre⟩
      · exact ⟨fun heq => absurd heq (by simp), fun _ => by cases replies <;> rfl⟩
      · obtain ⟨rfl, hin⟩ := List.cons_prefix_cons.mp hpre
        rw [List.length_cons] at hfuel
        have hlen : pre.length < fuel + 1 := by omega
        obtain ⟨hall, hcut⟩ := ih hin hlen
        have hskip : ∀ r, phase1Loop r (fuel + 1) ((.warning, text) :: pre)
            = phase1Loop r (fuel + 1) pre := fun r => by
          rw [phase1Loop, phase1Loop, fillFromNet_warning]
        rw [hskip, hskip]
        exact ⟨fun heq => hall (List.cons.inj heq).2, fun hne => hcut fun heq => hne (by rw [heq])⟩
  | @entry sb sbs msgs hsb _ ih =>
      obtain ⟨fuel, rfl⟩ : ∃ n, fuel = n + 1 := ⟨fuel - 1, by omega⟩
      have htwo := length_entryMessages sb
      obtain ⟨text, htext⟩ := Option.isSome_iff_exists.mp hsb.written
      by_cases hentry : entryMessages sb <+: pre
      · -- the whole entry is there
        obtain ⟨rest, rfl⟩ := hentry
        rw [List.length_append] at hfuel
        have hrest : rest <+: msgs := (List.prefix_append_right_inj _).mp hpre
        have hlen : rest.length < fuel := by omega
        obtain ⟨hall, hcut⟩ := ih hrest hlen
        have hloop : ∀ r, phase1Loop r (fuel + 1) (entryMessages sb ++ rest)
            = (text ++ (phase1Loop r fuel rest).1, (phase1Loop r fuel rest).2) := fun r => by
          rw [phase1Loop, fillFromNet_entry hsb]
          dsimp only
          rw [show sbufToManifest true false sb = some text from htext]
        rw [hloop, hloop]
        refine ⟨fun heq => ?_, fun hne => hcut fun heq => hne (by rw [heq])⟩
        rw [hall (List.append_cancel_left heq), entriesText, entriesText, List.flatMap_cons, htext,
          Option.getD_some, List.append_assoc]
      · have hin : pre <+: entryMessages sb := by
          rcases List.prefix_or_prefix_of_prefix hpre (List.prefix_append (entryMessages sb) msgs)
            with h | h
          · exact h
          · exact absurd h hentry
        have hne : pre ≠ entryMessages sb := fun heq => hentry (by rw [heq])
        have herror := fillFromNet_cut hsb hin hne
        refine ⟨fun heq => absurd (List.prefix_append _ _) (heq ▸ hentry), fun _ => ?_⟩
        rw [phase1Loop]
        rcases hfill : fillFromNet pre with ⟨ars, sb', rest⟩
        rw [hfill] at herror
        obtain rfl : ars = .error := herror
        cases replies <;> rfl

/-- The end of the file ends the list. -/
theorem sbufFillPhase1_end : (fillFromFile true {} phase1End).1 = .ended := by decide

/-- **What is written reads as the list.** -/
theorem readAll_entriesText (h : ∀ sb ∈ sbs, Scanned sb) :
    readAll false (entriesText sbs ++ phase1End) = (sbs, .ended) := by
  have hread : ∀ sb ∈ sbs, ∀ rest,
      fillFromFile true {} ((toManifestZp false sb).getD [] ++ rest) = (.ok, sb, rest) := by
    intro sb hsb rest
    have hscan := h sb hsb
    obtain ⟨b, hb⟩ := Option.isSome_iff_exists.mp hscan.written
    rw [hb, Option.getD_some]
    have hshort : sb.Short := fun text ht => (hscan.short text ht).trans (by decide)
    exact fillFromFile_sbufTo message_sendMsgZp hscan.toWellFormed hshort hscan.stat.length_lt hb
      rest
  have hne : ∀ sb ∈ sbs, (toManifestZp false sb).getD [] ≠ [] := by
    intro sb hsb hnil
    have := hread sb hsb []
    rw [hnil, List.nil_append, fillFromFile_nil] at this
    exact absurd (congrArg Prod.fst this) nofun
  have hlen := length_le_flatMap _ sbs hne
  have hfills := fills_append (fillFromFile true {}) _ phase1End
    (by rw [sbufFillPhase1_end]; decide) sbs hread ((entriesText sbs ++ phase1End).length + 1)
    (by rw [List.length_append, entriesText]; omega)
  have hall : fills (fillFromFile true {}) ((entriesText sbs ++ phase1End).length + 1)
      (entriesText sbs ++ phase1End) = _ := hfills
  unfold readAll
  rw [sbufFill_eq, Bool.not_false, hall, sbufFillPhase1_end]

theorem ScanSent.scanned (h : ScanSent sbs msgs) : ∀ sb ∈ sbs, Scanned sb := by
  induction h with
  | done => exact List.forall_mem_nil _
  | warning _ _ ih => exact ih
  | entry hsb _ ih => exact List.forall_mem_cons.mpr ⟨hsb, ih⟩

end ScanSent

/-! ## §4. The file. -/

/-- The file of a working directory. -/
def phase1In (c : Codec) (level : Nat) (w : Path) (replies closes : Bool) (msgs : List Message) :
    Prog Node Bool :=
  backupPhase1Server c level (w ++ ["phase1.gz"]) replies closes msgs

/-- A working directory in which phase 1 can begin. -/
structure Ready (w : Path) (t : Node) : Prop where
  dir : IsDir t w
  tmp : Own t (w ++ ["phase1.gz.tmp"])
  phase1 : look t (w ++ ["phase1.gz"]) = none
    ∨ ∃ i d, look t (w ++ ["phase1.gz"]) = some (.file i d)

/-- The file holds the list, and its end. -/
def HoldsList (c : Codec) (w : Path) (sbs : List Sbuf) (u : Node) : Prop :=
  ∃ i d text, look u (w ++ ["phase1.gz"]) = some (.file i d) ∧ c.content true d = some text
    ∧ readAll false text = (sbs, .ended)

section File

variable {c : Codec} {level : Nat} {w : Path} {t : Node} {sbs : List Sbuf}
  {msgs pre : List Message} {replies closes : Bool}

theorem getTmpFilename_phase1 (w : Path) :
    getTmpFilename (w ++ ["phase1.gz"]) = w ++ ["phase1.gz.tmp"] := by
  unfold getTmpFilename
  rw [List.dropLast_concat, List.getLastD_concat]
  rfl

/-- While the temporary file is written, nothing else changes. -/
theorem writes_tmp (hc : c.Lawful) (h : Ready w t) (text : Bytes) :
    ∃ i, (openWrite (w ++ ["phase1.gz.tmp"])).result t = some i
      ∧ Spec (appendAll i (c.pieces (c.gzip level text))) ((openWrite (w ++ ["phase1.gz.tmp"])).final t)
        (fun u => ∃ e, Put t u (w ++ ["phase1.gz.tmp"]) i e)
        fun _ u => Put t u (w ++ ["phase1.gz.tmp"]) i (c.gzip level text) := by
  have hscratch : Scratch t (w ++ ["phase1.gz.tmp"]) :=
    h.tmp.scratch (by rw [List.dropLast_concat]; exact h.dir)
  obtain ⟨i, hres, hput⟩ := openWrite_scratch hscratch
  refine ⟨i, hres, ?_⟩
  have hspec := appendAll_spec (I := fun u => ∃ e, Put t u (w ++ ["phase1.gz.tmp"]) i e)
    (c.pieces (c.gzip level text)) _ [] (fun u e _ hu => ⟨e, hu⟩) hput
  rwa [List.nil_append, hc.pieces_flatten] at hspec

variable (level) in
/-- **A list that comes whole** gets its name, and not before it is whole. -/
theorem phase1_whole (hc : c.Lawful) (h : Ready w t) (hscan : ScanSent sbs msgs) :
    Spec (phase1In c level w true true msgs) t
      (fun u => look u (w ++ ["phase1.gz"]) = look t (w ++ ["phase1.gz"]) ∨ HoldsList c w sbs u)
      fun ok u => ok = true ∧ HoldsList c w sbs u := by
  have hloop := (phase1Loop_scan true hscan List.prefix_rfl (Nat.lt_succ_self msgs.length)).1 rfl
  obtain ⟨i, hres, hspec⟩ := writes_tmp hc h (entriesText sbs ++ phase1End)
  have hnames : w ++ ["phase1.gz"] ≠ w ++ ["phase1.gz.tmp"] := name_ne (by decide)
  have hkept : ∀ {u e}, Put t u (w ++ ["phase1.gz.tmp"]) i e →
      look u (w ++ ["phase1.gz"]) = look t (w ++ ["phase1.gz"]) := fun hu => hu.look_ne hnames
  unfold phase1In backupPhase1Server
  rw [getTmpFilename_phase1]
  have hopen := hspec.start
  obtain ⟨e₀, he₀⟩ := hopen
  refine Spec.bind (Spec.op (Or.inl rfl) (Or.inl (hkept he₀)) ?_)
  have hres' : (openAt true (w ++ ["phase1.gz.tmp"]) t).2 = some i := hres
  rw [hres']
  dsimp only
  rw [hloop]
  refine Spec.bind (hspec.mono (fun u ⟨e, hu⟩ => Or.inl (hkept hu)) ?_)
  intro _ v _ hv
  rw [if_pos ⟨rfl, rfl⟩]
  -- the file gets its name
  have hdirv : IsDir v (w ++ ["phase1.gz"]).dropLast := by
    rw [List.dropLast_concat]
    unfold IsDir
    rw [hv.look_ne (by simp)]
    exact h.dir
  have hold : look v (w ++ ["phase1.gz"]) = none
      ∨ ∃ j e, look v (w ++ ["phase1.gz"]) = some (.file j e) ∧ j ≠ i := by
    rw [hkept hv]
    refine h.phase1.imp id ?_
    rintro ⟨j, e, hj⟩
    refine ⟨j, e, hj, ?_⟩
    rintro rfl
    exact hv.ino_new j _ rfl _ e hnames hj
  obtain ⟨hren, hlook⟩ := rename_over (by simp) (by simp) hv.look_self hold hdirv
  have hholds : HoldsList c w sbs
      (renameAt (w ++ ["phase1.gz.tmp"]) (w ++ ["phase1.gz"]) v).1 := by
    refine ⟨i, c.gzip level (entriesText sbs ++ phase1End), _, ?_, hc.gzread_gzip level _,
      readAll_entriesText hscan.scanned⟩
    exact (hlook _).trans (if_pos rfl)
  exact Spec.op (Or.inl (hkept hv)) (Or.inr hholds) ⟨hren, hholds⟩

variable (level replies closes) in
/-- **A list that is cut off** gets no name. -/
theorem phase1_cut (hc : c.Lawful) (h : Ready w t) (hscan : ScanSent sbs msgs) (hpre : pre <+: msgs)
    (hne : pre ≠ msgs) :
    Spec (phase1In c level w replies closes pre) t
      (fun u => look u (w ++ ["phase1.gz"]) = look t (w ++ ["phase1.gz"]))
      fun ok _ => ok = false := by
  have hloop := (phase1Loop_scan replies hscan hpre (Nat.lt_succ_self pre.length)).2 hne
  obtain ⟨i, hres, hspec⟩ := writes_tmp hc h
    (phase1Loop replies (pre.length + 1) pre).1
  have hkept : ∀ {u e}, Put t u (w ++ ["phase1.gz.tmp"]) i e →
      look u (w ++ ["phase1.gz"]) = look t (w ++ ["phase1.gz"]) :=
    fun hu => hu.look_ne (name_ne (by decide))
  unfold phase1In backupPhase1Server
  rw [getTmpFilename_phase1]
  obtain ⟨e₀, he₀⟩ := hspec.start
  refine Spec.bind (Spec.op rfl (hkept he₀) ?_)
  have hres' : (openAt true (w ++ ["phase1.gz.tmp"]) t).2 = some i := hres
  rw [hres']
  dsimp only
  refine Spec.bind (hspec.mono (fun u ⟨e, hu⟩ => hkept hu) ?_)
  intro _ v _ hv
  rw [if_neg (by rw [hloop]; simp)]
  exact Spec.pure (hkept hv) rfl

end File

/-- **Phase 1 commits.**  Of the messages of a scan, any number may arrive.  Whenever the server is
killed, the phase 1 file is as it was before or holds the list, whole and with its end; and it
comes to hold the list if and only if all messages have arrived. -/
theorem phase1_commits {c : Codec} (hc : c.Lawful) (level : Nat) {w : Path} {t : Node}
    {sbs : List Sbuf} {msgs pre : List Message} (h : Ready w t) (hscan : ScanSent sbs msgs)
    (hpre : pre <+: msgs) :
    ((phase1In c level w true true pre).result t = true ↔ pre = msgs)
      ∧ (pre = msgs → HoldsList c w sbs ((phase1In c level w true true pre).final t))
      ∧ ∀ u ∈ (phase1In c level w true true pre).killed t,
          look u (w ++ ["phase1.gz"]) = look t (w ++ ["phase1.gz"])
            ∨ pre = msgs ∧ HoldsList c w sbs u := by
  by_cases heq : pre = msgs
  · subst heq
    have hspec := phase1_whole level hc h hscan
    exact ⟨⟨fun _ => rfl, fun _ => hspec.post.1⟩, fun _ => hspec.post.2,
      fun u hu => (hspec.crash u hu).imp_right fun hlist => ⟨rfl, hlist⟩⟩
  · have hspec := phase1_cut level true true hc h hscan hpre heq
    refine ⟨⟨fun hok => ?_, fun hpre => absurd hpre heq⟩, fun hpre => absurd hpre heq,
      fun u hu => Or.inl (hspec.crash u hu)⟩
    exact absurd (hspec.post.symm.trans hok) (by decide)

/-- A link, of which the last message does not arrive. -/
theorem scanned_sampleLink : Scanned sampleLink where
  toWellFormed := ⟨by decide, ⟨_, rfl⟩, by simp [sampleLink], rfl, rfl, recordOf_zero⟩
  noDatapth := rfl
  short := length_texts_sample.2

theorem phase1_commits_sample :
    ((phase1In sampleCodec 9 ["w"] true true (entryMessages sampleLink)).result
        (.dir [("w", .dir [])]) = true
      ↔ entryMessages sampleLink = entryMessages sampleLink ++ [(.gen, nameBytes "backupphase2")]) :=
  have hready : Ready ["w"] (.dir [("w", .dir [])]) :=
    ⟨rfl, Own.of_absent rfl, Or.inl rfl⟩
  (phase1_commits sampleCodec_lawful 9 hready (.entry scanned_sampleLink .done)
    (List.prefix_append _ _)).1

end Burp.Phase1
