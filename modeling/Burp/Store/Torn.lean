/-
  Burp.Store.Torn — files that are cut off.

  The phase 2 and unchanged files are plain, so that a crash leaves a prefix of what has
  been written.  The reader takes the end of the file for an error nowhere: the entry that
  is cut off is lost, but if the cut comes after its path, the `sbuf` has been filled with
  everything but the target of the link or the checksum of the file.

  Main results:
    * `sbufFill_cutHead`, `sbufFill_cutTail` — what reading makes of an entry that is cut
      off before and after the end of its path.
    * `entries_take` — the entries of a prefix of a file.
-/
import Burp.Store.RoundTrip

namespace Burp.Store

open FileSystem

/-! ## §1. Records. -/

/-- A message. -/
def message (cmd : Cmd) (text : Bytes) : Bytes := cmd.toByte :: hex4 text.length ++ text ++ [10]

def messageIf (cmd : Cmd) : Option Bytes → Bytes
  | none => []
  | some text => message cmd text

/-- An entry that a record can hold. -/
structure Recordable (sb : Sbuf) : Prop extends WellFormed true sb where
  short : ∀ text ∈ sb.texts, text.length < 65536

/-- The record of an entry up to its path. -/
def recordHead (sb : Sbuf) : Bytes :=
  messageIf .datapth sb.datapth ++ message .stat sb.statbuf ++ message sb.cmd (sb.path.getD [])

/-- The rest of it. -/
def recordTail (sb : Sbuf) : Bytes := messageIf sb.cmd sb.linkto ++ messageIf .endFile sb.endfile

def record (sb : Sbuf) : Bytes := recordHead sb ++ recordTail sb

/-- An entry without what comes after its path. -/
def Sbuf.torn (sb : Sbuf) : Sbuf := { sb with linkto := none, endfile := none }

theorem message_ne_nil (cmd : Cmd) (text : Bytes) : message cmd text ≠ [] := by
  simp [message]

theorem length_message (cmd : Cmd) (text : Bytes) :
    (message cmd text).length = text.length + 6 := by
  simp [message, hex4]

theorem sendMsg_message {cmd : Cmd} {text : Bytes} (h : text.length < 65536) :
    sendMsg cmd text = some (message cmd text) := by
  unfold sendMsg
  have hmod : text.length % 2 ^ 32 = text.length := Nat.mod_eq_of_lt (by omega)
  simp only [hmod, h, if_true, message]

theorem readFp_whole {cmd : Cmd} (hcmd : cmd ∈ Cmd.named) {text : Bytes}
    (h : text.length < 65536) (rest : Bytes) :
    readFp (message cmd text ++ rest) = (.ok, cmd, text, rest) :=
  readFp_message hcmd h rest

theorem Recordable.sbufShort {sb : Sbuf} (h : Recordable sb) : sb.Short :=
  fun text ht => (h.short text ht).trans (by decide)

theorem RecordOf.length_lt_four {buf : Bytes} {s : Stat} {winattr compression : Int}
    (h : RecordOf buf s winattr compression) : buf.length < 65536 :=
  Nat.lt_of_le_of_lt h.length_le (by decide)

theorem sendMsgZp_message {cmd : Cmd} {text : Bytes} (h : text.length < 65536) :
    sendMsgZp cmd text = some (message cmd text) := by
  unfold sendMsgZp
  have hmod : text.length % 2 ^ 32 = text.length := Nat.mod_eq_of_lt (by omega)
  simp only [hmod, h, if_true, List.take_length, message]

section Writer

variable {send : Cmd → Bytes → Option Bytes}
  (hsend : ∀ cmd text, text.length < 65536 → send cmd text = some (message cmd text))

include hsend

theorem sendIf_message (cmd : Cmd) (o : Option Bytes)
    (ho : ∀ text, o = some text → text.length < 65536) :
    sendIf send cmd o = some (messageIf cmd o) := by
  cases o with
  | none => rfl
  | some text => exact hsend cmd text (ho text rfl)

/-- The messages up to the path. -/
theorem Recordable.sbufTo_head {sb : Sbuf} (h : Recordable sb) (sb' : Sbuf)
    (hcmd : sb'.cmd = sb.cmd) (hpath : sb'.path = sb.path) (hdata : sb'.datapth = sb.datapth)
    (hstat : sb'.statbuf = sb.statbuf) :
    sbufTo send true sb' = (do
      let linkto ← sendIf send sb.cmd sb'.linkto
      let endfile ← sendIf send .endFile
        (if sb.cmd.filedata then some (sb'.endfile.getD []) else none)
      some (recordHead sb ++ (linkto ++ endfile))) := by
  obtain ⟨p, hp⟩ := h.path
  have hname := hsend sb.cmd p (h.short p (by simp [Sbuf.texts, hp]))
  have hst := hsend .stat sb.statbuf h.stat.length_lt_four
  have hdat : sb.datapth.map cString = sb.datapth := by
    cases hd : sb.datapth with
    | none => rfl
    | some d => rw [Option.map_some, cString_of_notMem (h.datapth d hd)]
  have hd := sendIf_message hsend .datapth sb.datapth
    fun text ht => h.short text (by simp [Sbuf.texts, ht])
  unfold sbufTo
  simp only [hcmd, hpath, hdata, hstat, hp, hdat, hd, hst, hname, Option.bind_eq_bind,
    Option.bind_some, recordHead, Option.getD_some, List.append_assoc, Bool.true_and]

/-- What the writer writes, with any sender that writes messages. -/
theorem Recordable.sbufTo_eq {sb : Sbuf} (h : Recordable sb) :
    sbufTo send true sb = some (record sb) := by
  have hend : (if sb.cmd.filedata then some (sb.endfile.getD []) else none) = sb.endfile := by
    have := h.endfile
    cases he : sb.endfile with
    | none => rw [he] at this; simp at this; simp [this]
    | some e => rw [he] at this; simp at this; simp [this]
  have hl := sendIf_message hsend sb.cmd sb.linkto
    fun text ht => h.short text (by simp [Sbuf.texts, ht])
  have he := sendIf_message hsend .endFile sb.endfile
    fun text ht => h.short text (by simp [Sbuf.texts, ht])
  rw [h.sbufTo_head hsend sb rfl rfl rfl rfl, hend, hl, he]
  rfl

/-- What it writes of an entry that has been cut off after its path. -/
theorem Recordable.sbufTo_torn {sb : Sbuf} (h : Recordable sb) :
    sbufTo send true sb.torn
      = some (recordHead sb ++ if sb.cmd.filedata then message .endFile [] else []) := by
  rw [h.sbufTo_head hsend sb.torn rfl rfl rfl rfl]
  cases hfile : sb.cmd.filedata with
  | true => simp [Sbuf.torn, sendIf, hsend .endFile [] (by decide)]
  | false => simp [Sbuf.torn, sendIf]

end Writer

theorem Recordable.toManifest_eq {sb : Sbuf} (h : Recordable sb) :
    toManifest true sb = some (record sb) :=
  h.sbufTo_eq fun _ _ => sendMsg_message

/-- Neither writer refuses it. -/
theorem Recordable.written {sb : Sbuf} (h : Recordable sb) (zip : Bool) :
    sbufToManifest zip true sb = some (record sb) := by
  cases zip with
  | false => exact h.toManifest_eq
  | true => exact h.sbufTo_eq fun _ _ => sendMsgZp_message

theorem Recordable.written_torn {sb : Sbuf} (h : Recordable sb) (zip : Bool) :
    sbufToManifest zip true sb.torn
      = some (recordHead sb ++ if sb.cmd.filedata then message .endFile [] else []) := by
  cases zip with
  | false => exact h.sbufTo_torn fun _ _ => sendMsg_message
  | true => exact h.sbufTo_torn fun _ _ => sendMsgZp_message

theorem manifestBytes_eq {sbs : List Sbuf} (h : ∀ sb ∈ sbs, Recordable sb) :
    manifestBytes sbs = sbs.flatMap record := by
  apply List.flatMap_congr
  intro sb hsb
  rw [(h sb hsb).toManifest_eq, Option.getD_some]

/-- **A record is read back.** -/
theorem Recordable.sbufFill_record {sb : Sbuf} (h : Recordable sb) (rest : Bytes) :
    sbufFill (record sb ++ rest) = (.ok, sb, rest) :=
  fillFromFile_sbufTo message_sendMsg h.toWellFormed h.sbufShort h.stat.length_lt h.toManifest_eq
    rest

theorem record_ne_nil (sb : Sbuf) : record sb ≠ [] := by
  have := message_ne_nil .stat sb.statbuf
  simp [record, recordHead, this]

/-- A file of records, as a source of a merge loop. -/
theorem ofFile_manifestBytes {sbs : List Sbuf} (h : ∀ sb ∈ sbs, Recordable sb) :
    Source.ofFile (manifestBytes sbs) = ⟨sbs, false⟩ := by
  have hfills := fills_append sbufFill record [] (by decide) sbs
    (fun sb hsb rest => (h sb hsb).sbufFill_record rest) ((sbs.flatMap record).length + 1)
    (Nat.lt_succ_of_le (length_le_flatMap record sbs fun sb _ => record_ne_nil sb))
  rw [List.append_nil] at hfills
  unfold Source.ofFile entries
  rw [manifestBytes_eq h, hfills]
  rfl

/-- A file of records is read back. -/
theorem readAll_records {sbs : List Sbuf} (h : ∀ sb ∈ sbs, Recordable sb) :
    readAll true (sbs.flatMap record) = (sbs, .ended) := by
  have hback := readAll_written message_sendMsg (fun sb hsb => (h sb hsb).toWellFormed)
    (fun sb hsb => (h sb hsb).sbufShort) fun sb hsb => by
      have : sbufTo sendMsg true sb = some (record sb) := (h sb hsb).toManifest_eq
      rw [this]
      rfl
  have htext : (sbs.flatMap fun sb => (sbufTo sendMsg true sb).getD []) = sbs.flatMap record :=
    manifestBytes_eq h
  rwa [htext] at hback

/-! ## §2. Records that are cut off. -/

/-- A message that is cut off is the end of the file. -/
theorem readFp_cut {cmd : Cmd} (hcmd : cmd ∈ Cmd.named) {text : Bytes}
    (h : text.length < 65536) {n : Nat} (hn : n < (message cmd text).length) :
    (readFp ((message cmd text).take n)).1 = .ended := by
  rw [length_message] at hn
  have hlen : ((message cmd text).take n).length = n := by
    rw [List.length_take, length_message]
    omega
  by_cases h5 : n < 5
  · have hshort : readFpMsg 5 ((message cmd text).take n) = none := by
      unfold readFpMsg
      rw [hlen, if_neg (by omega)]
    unfold readFp
    rw [hshort]
  · -- the length is there, but not all of the text
    obtain ⟨k, rfl⟩ : ∃ k, n = k + 5 := ⟨n - 5, by omega⟩
    have hhead : readFpMsg 5 ((message cmd text).take (k + 5))
        = some (cmd.toByte :: hex4 text.length, (text ++ [10]).take k) := by
      unfold readFpMsg
      rw [hlen, if_pos (by omega)]
      simp [message, hex4]
    have hrest : readFpMsg (text.length + 1) ((text ++ [10]).take k) = none := by
      unfold readFpMsg
      rw [if_neg]
      simp only [List.length_take, List.length_append, List.length_singleton]
      omega
    unfold readFp
    simp only [hhead, takeWhile_header hcmd, scanHex_hex4 h, hrest]

/-- What comes after the path is one message at most. -/
theorem Recordable.recordTail_cases {sb : Sbuf} (h : Recordable sb) :
    (sb.cmd.isLink = true ∧ sb.cmd.filedata = false ∧ sb.endfile = none
        ∧ ∃ l, sb.linkto = some l ∧ recordTail sb = message sb.cmd l)
      ∨ (sb.cmd.isLink = false ∧ sb.cmd.filedata = true ∧ sb.linkto = none
        ∧ ∃ e, sb.endfile = some e ∧ recordTail sb = message .endFile e)
      ∨ (sb.cmd.isLink = false ∧ sb.cmd.filedata = false ∧ sb.linkto = none ∧ sb.endfile = none
        ∧ recordTail sb = []) := by
  have hl := h.linkto
  have he := h.endfile
  rw [Bool.true_and] at he
  cases hlink : sb.cmd.isLink with
  | true =>
      have hfile := isLink_filedata _ hlink
      obtain ⟨l, hl⟩ := Option.isSome_iff_exists.mp (hl.trans hlink)
      rw [hfile, Option.isSome_eq_false_iff, Option.isNone_iff_eq_none] at he
      refine Or.inl ⟨rfl, hfile, he, l, hl, ?_⟩
      simp [recordTail, hl, he, messageIf]
  | false =>
      rw [hlink, Option.isSome_eq_false_iff, Option.isNone_iff_eq_none] at hl
      cases hfile : sb.cmd.filedata with
      | true =>
          obtain ⟨e, he⟩ := Option.isSome_iff_exists.mp (he.trans hfile)
          refine Or.inr (Or.inl ⟨rfl, rfl, hl, e, he, ?_⟩)
          simp [recordTail, hl, he, messageIf]
      | false =>
          rw [hfile, Option.isSome_eq_false_iff, Option.isNone_iff_eq_none] at he
          refine Or.inr (Or.inr ⟨rfl, rfl, hl, he, ?_⟩)
          simp [recordTail, hl, he, messageIf]

theorem readStat_head_record {sb : Sbuf} (h : Recordable sb) (rest : Bytes) :
    readStat ((messageIf .datapth sb.datapth ++ (message .stat sb.statbuf ++ rest)).length + 1)
        none {} (messageIf .datapth sb.datapth ++ (message .stat sb.statbuf ++ rest))
      = (.ok, { statp := sb.statp, winattr := sb.winattr, compression := sb.compression,
                statbuf := sb.statbuf, datapth := sb.datapth }, rest) := by
  refine readStat_head message_sendMsg h.sbufShort h.datapth h.stat h.stat.length_lt ?_
    (sendMsg_message h.stat.length_lt_four) rest
  cases hd : sb.datapth with
  | none => rfl
  | some d =>
      rw [Option.map_some, cString_of_notMem (h.datapth d hd)]
      exact sendMsg_message (h.short d (by simp [Sbuf.texts, hd]))

/-- **A cut after the path** leaves the path in the `sbuf`. -/
theorem sbufFill_cutTail {sb : Sbuf} (h : Recordable sb) {n : Nat}
    (hn : n < (recordTail sb).length) :
    ∃ b, sbufFill (recordHead sb ++ (recordTail sb).take n) = (.ended, sb.torn, b) := by
  obtain ⟨p, hp⟩ := h.path
  have hnamed := entry_named _ h.cmd
  have hhead := readStat_head_record h
  have hname := fun rest =>
    readFp_whole hnamed (h.short p (by simp [Sbuf.texts, hp])) rest
  unfold sbufFill fillFromFile recordHead
  simp only [List.append_assoc, hhead, hp, Option.getD_some, hname]
  rcases h.recordTail_cases with ⟨hlink, -, -, l, hl, htail⟩ | ⟨hlink, hfile, -, e, he, htail⟩
      | ⟨-, -, -, -, htail⟩
  · have hcut := readFp_cut hnamed (h.short l (by simp [Sbuf.texts, hl])) (htail ▸ hn)
    rw [htail]
    generalize readFp ((message sb.cmd l).take n) = r at hcut ⊢
    obtain ⟨ars, cmd, text, b⟩ := r
    simp only at hcut
    simp only [hlink, hcut, if_true, Sbuf.torn, hp]
    exact ⟨_, rfl⟩
  · have hcut := readFp_cut (by decide) (h.short e (by simp [Sbuf.texts, he])) (htail ▸ hn)
    rw [htail]
    generalize readFp ((message .endFile e).take n) = r at hcut ⊢
    obtain ⟨ars, cmd, text, b⟩ := r
    simp only at hcut
    simp only [hlink, hfile, hcut, Bool.not_false, Bool.and_true, Bool.false_eq_true, if_true,
      if_false, Sbuf.torn, hp]
    exact ⟨_, rfl⟩
  · rw [htail] at hn
    simp at hn

/-- **A cut before the end of the path** leaves no path. -/
theorem sbufFill_cutHead {sb : Sbuf} (h : Recordable sb) {n : Nat}
    (hn : n < (recordHead sb).length) :
    ∃ last b, sbufFill ((recordHead sb).take n) = (.ended, last, b) ∧ last.path = none := by
  obtain ⟨p, hp⟩ := h.path
  have hnamed := entry_named _ h.cmd
  -- a cut in the messages that `async_read_stat` reads
  have hstat : ∀ (fuel : Nat) (d : Option Bytes) (cmd : Cmd) (text : Bytes) (k : Nat),
      cmd ∈ Cmd.named → text.length < 65536 → k < (message cmd text).length →
      ∃ b, readStat (fuel + 1) d {} ((message cmd text).take k) = (.ended, {}, b) := by
    intro fuel d cmd text k hcmd htext hk
    have hcut := readFp_cut hcmd htext hk
    rw [readStat]
    generalize readFp ((message cmd text).take k) = r at hcut ⊢
    obtain ⟨ars, cmd', text', b⟩ := r
    simp only at hcut
    exact ⟨b, by simp only [hcut]⟩
  have hfill : ∀ b, (∃ b', readStat (b.length + 1) none {} b = (.ended, {}, b')) →
      ∃ last b', sbufFill b = (.ended, last, b') ∧ last.path = none := by
    intro b hb
    obtain ⟨b', hb'⟩ := hb
    refine ⟨{}, b', ?_, rfl⟩
    unfold sbufFill fillFromFile
    simp only [hb']
  by_cases hstatlen : n < (messageIf .datapth sb.datapth ++ message .stat sb.statbuf).length
  · -- the stat is not complete
    rw [recordHead, List.take_append_of_le_length (by omega)]
    apply hfill
    have hslen := h.stat.length_lt_four
    cases hd : sb.datapth with
    | none =>
        rw [hd] at hstatlen
        exact hstat _ _ _ _ _ (by decide) hslen hstatlen
    | some d =>
        have hdlen := h.short d (by simp [Sbuf.texts, hd])
        rw [hd, messageIf, List.length_append] at hstatlen
        rw [messageIf, List.take_append]
        by_cases hn' : n < (message .datapth d).length
        · rw [Nat.sub_eq_zero_of_le (by omega), List.take_zero, List.append_nil]
          exact hstat _ _ _ _ _ (by decide) hdlen hn'
        · rw [List.take_of_length_le (by omega)]
          have hlen : ∃ k, (message .datapth d
              ++ (message .stat sb.statbuf).take (n - (message .datapth d).length)).length
                = k + 1 := by
            apply Nat.exists_eq_succ_of_ne_zero
            rw [List.length_append, length_message]
            omega
          obtain ⟨k, hk⟩ := hlen
          rw [hk, readStat, readFp_whole (by decide) hdlen]
          exact hstat _ _ _ _ _ (by decide) hslen (by omega)
  · -- the path is not complete
    have hlen : n - (messageIf .datapth sb.datapth ++ message .stat sb.statbuf).length
        < (message sb.cmd p).length := by
      rw [recordHead, List.length_append, hp, Option.getD_some] at hn
      omega
    have hcut := readFp_cut hnamed (h.short p (by simp [Sbuf.texts, hp])) hlen
    have hhead := readStat_head_record h
    rw [recordHead, List.take_append, List.take_of_length_le (by omega), List.append_assoc, hp,
      Option.getD_some]
    generalize n - _ = k at hcut hlen ⊢
    unfold sbufFill fillFromFile
    simp only [hhead]
    generalize readFp ((message sb.cmd p).take k) = r at hcut ⊢
    obtain ⟨ars, cmd, text, b⟩ := r
    simp only at hcut
    simp only [hcut]
    exact ⟨_, _, rfl, rfl⟩

/-! ## §3. Files that are cut off. -/

/-- The entries that are completely in the first `n` bytes of a file. -/
def whole : List Sbuf → Nat → List Sbuf
  | [], _ => []
  | sb :: sbs, n =>
      if (record sb).length ≤ n then sb :: whole sbs (n - (record sb).length) else []

/-- The entry that the end of the first `n` bytes cuts off after its path. -/
def cutEntry : List Sbuf → Nat → Option Sbuf
  | [], _ => none
  | sb :: sbs, n =>
      if (record sb).length ≤ n then cutEntry sbs (n - (record sb).length)
      else if (recordHead sb).length ≤ n then some sb
      else none

theorem whole_initial : ∀ (sbs : List Sbuf) (n : Nat), whole sbs n <+: sbs := by
  intro sbs
  induction sbs with
  | nil => intro n; exact List.nil_prefix
  | cons sb sbs ih =>
      intro n
      unfold whole
      split
      · exact (List.prefix_cons_inj sb).mpr (ih _)
      · exact List.nil_prefix

/-- The entry that is cut off comes right after those that are not. -/
theorem cutEntry_next :
    ∀ {sbs : List Sbuf} {n : Nat} {e : Sbuf}, cutEntry sbs n = some e →
      whole sbs n ++ [e] <+: sbs := by
  intro sbs
  induction sbs with
  | nil => intro n e h; simp [cutEntry] at h
  | cons sb sbs ih =>
      intro n e h
      unfold cutEntry at h
      unfold whole
      split at h
      next hlen =>
        rw [if_pos hlen, List.cons_append]
        exact (List.prefix_cons_inj sb).mpr (ih h)
      next hlen =>
        rw [if_neg hlen]
        split at h
        · rw [Option.some.injEq] at h
          rw [h]
          exact ⟨sbs, rfl⟩
        · simp at h

/-- There is something to cut off. -/
theorem cutEntry_tail :
    ∀ {sbs : List Sbuf} {n : Nat} {e : Sbuf}, cutEntry sbs n = some e → recordTail e ≠ [] := by
  intro sbs
  induction sbs with
  | nil => intro n e h; simp [cutEntry] at h
  | cons sb sbs ih =>
      intro n e h
      unfold cutEntry at h
      split at h
      · exact ih h
      · split at h
        · rw [Option.some.injEq] at h
          subst h
          intro htail
          have : (record sb).length = (recordHead sb).length := by
            rw [record, htail, List.append_nil]
          omega
        · simp at h

/-- A prefix of a file: the entries that are complete, and a part of a record. -/
theorem take_flatMap_record :
    ∀ (sbs : List Sbuf) (n : Nat), ∃ tail,
      (sbs.flatMap record).take n = (whole sbs n).flatMap record ++ tail
        ∧ ((tail = [] ∧ cutEntry sbs n = none)
          ∨ ∃ sb ∈ sbs, ∃ k, k < (record sb).length ∧ tail = (record sb).take k
            ∧ cutEntry sbs n = if (recordHead sb).length ≤ k then some sb else none) := by
  intro sbs
  induction sbs with
  | nil => intro n; exact ⟨[], by simp [whole], Or.inl ⟨rfl, rfl⟩⟩
  | cons sb sbs ih =>
      intro n
      rw [List.flatMap_cons, List.take_append]
      unfold whole cutEntry
      by_cases hlen : (record sb).length ≤ n
      · obtain ⟨tail, htake, htail⟩ := ih (n - (record sb).length)
        refine ⟨tail, ?_, ?_⟩
        · rw [if_pos hlen, List.flatMap_cons, List.take_of_length_le hlen, htake,
            List.append_assoc]
        · rw [if_pos hlen]
          refine htail.imp id ?_
          rintro ⟨sb', hmem, hrest⟩
          exact ⟨sb', List.mem_cons_of_mem _ hmem, hrest⟩
      · refine ⟨(record sb).take n, ?_, Or.inr ⟨sb, List.mem_cons_self, n, by omega, rfl, ?_⟩⟩
        · rw [if_neg hlen, Nat.sub_eq_zero_of_le (by omega), List.take_zero, List.append_nil]
          rfl
        · rw [if_neg hlen]

/-- **The entries of a prefix of a file.** -/
theorem entries_take {sbs : List Sbuf} (h : ∀ sb ∈ sbs, Recordable sb) (n : Nat) :
    ∃ last, entries ((sbs.flatMap record).take n) = (whole sbs n, .ended, last)
      ∧ (if last.path.isSome then [last] else []) = (cutEntry sbs n).toList.map Sbuf.torn := by
  obtain ⟨tail, htake, htail⟩ := take_flatMap_record sbs n
  -- what the reader makes of the part of a record
  have hlast : ∃ last b, sbufFill tail = (.ended, last, b)
      ∧ (if last.path.isSome then [last] else []) = (cutEntry sbs n).toList.map Sbuf.torn := by
    rcases htail with ⟨rfl, hcut⟩ | ⟨sb, hmem, k, hk, rfl, hcut⟩
    · exact ⟨{}, [], rfl, by rw [hcut]; rfl⟩
    · rw [hcut]
      by_cases hhead : (recordHead sb).length ≤ k
      · have hk' : k - (recordHead sb).length < (recordTail sb).length := by
          rw [record, List.length_append] at hk
          omega
        obtain ⟨b, hb⟩ := sbufFill_cutTail (h sb hmem) hk'
        obtain ⟨p, hp⟩ := (h sb hmem).path
        refine ⟨sb.torn, b, ?_, ?_⟩
        · rw [record, List.take_append, List.take_of_length_le hhead, hb]
        · rw [if_pos hhead, if_pos (by simp [Sbuf.torn, hp])]
          rfl
      · obtain ⟨last, b, hb, hpath⟩ := sbufFill_cutHead (h sb hmem) (Nat.lt_of_not_le hhead)
        refine ⟨last, b, ?_, ?_⟩
        · rw [record, List.take_append_of_le_length (by omega), hb]
        · rw [if_neg hhead, hpath]
          rfl
  obtain ⟨last, b, hfill, hmap⟩ := hlast
  refine ⟨last, ?_, hmap⟩
  have hwhole : ∀ sb ∈ whole sbs n, Recordable sb := fun sb hsb =>
    h sb ((whole_initial sbs n).mem hsb)
  have hlen := length_le_flatMap record (whole sbs n) fun sb _ => record_ne_nil sb
  have hfills := fills_append sbufFill _ tail (by rw [hfill]; simp)
    (whole sbs n) (fun sb hsb rest => (hwhole sb hsb).sbufFill_record rest)
    (((whole sbs n).flatMap record ++ tail).length + 1)
    (by rw [List.length_append]; omega)
  unfold entries
  rw [htake, hfills, hfill]

end Burp.Store
