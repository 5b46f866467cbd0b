/-
  Burp.Store.RoundTrip — reading a manifest undoes writing it.

  The writer puts a message for each part of an entry that it has, the reader expects one
  for each part that the command calls for; the two agree on well-formed entries.  They do
  not agree on the length of a text: the writer cuts it to an `unsigned int` before it
  looks at the number of digits, so that a text of 2^32 bytes passes for an empty one.

  Main results:
    * `readFp_sendMsg` — a message is read back.
    * `fillFromFile_sbufTo` — an entry is read back, whatever comes after it.
    * `readsBack_iff` — a list of entries is read back where no text has 2^32 bytes, and
      only there.
-/
import Burp.Store.Files
import Burp.Store.Manifest
import Burp.Store.StatRecord
import Mathlib.Data.List.TakeWhile

namespace Burp.Store

open FileSystem

/-! ## §1. Messages. -/

/-- A digit is read as its value, and is none of the characters that `scanf` skips. -/
theorem hexDigit_spec :
    ∀ n : Fin 16, hexVal (hexDigit n) = some n.val ∧ hexDigit n ≠ 0 ∧ hexDigit n ≠ 32
      ∧ ¬ (9 ≤ hexDigit n ∧ hexDigit n ≤ 13) ∧ hexDigit n ≠ 45 ∧ hexDigit n ≠ 43
      ∧ hexDigit n ≠ 120 ∧ hexDigit n ≠ 88 := by
  decide

/-- The sign of a number that begins with a digit, and its `0x`. -/
theorem scanHex_digits (a b c d : Fin 16) :
    scanHex [hexDigit a, hexDigit b, hexDigit c, hexDigit d]
      = some (16 * (16 * (16 * a.val + b) + c) + d) := by
  obtain ⟨ha, -, ha32, hablank, ha45, ha43, -, -⟩ := hexDigit_spec a
  obtain ⟨hb, -, -, -, -, -, hb120, hb88⟩ := hexDigit_spec b
  have hc := (hexDigit_spec c).1
  have hd := (hexDigit_spec d).1
  generalize hexDigit a = x at *
  generalize hexDigit b = y at *
  generalize hexDigit c = z at *
  generalize hexDigit d = w at *
  have hdrop : [x, y, z, w].dropWhile (fun c => decide (c = 32 ∨ (9 ≤ c ∧ c ≤ 13)))
      = [x, y, z, w] := by
    rw [List.dropWhile_cons_of_neg]
    simp only [decide_eq_true_eq]
    rintro (h | h)
    · exact ha32 h
    · exact hablank h
  have htake : [x, y, z, w].takeWhile (fun c => (hexVal c).isSome) = [x, y, z, w] := by
    simp [ha, hb, hc, hd]
  unfold scanHex
  simp only [hdrop]
  -- the sign comes first, then `0x`
  split
  next heq =>
    split at heq
    next h => exact absurd (List.cons.inj h).1 ha45
    next h => exact absurd (List.cons.inj h).1 ha43
    next => exact absurd (List.cons.inj (List.cons.inj heq).2).1 hb120
  next heq =>
    split at heq
    next h => exact absurd (List.cons.inj h).1 ha45
    next h => exact absurd (List.cons.inj h).1 ha43
    next => exact absurd (List.cons.inj (List.cons.inj heq).2).1 hb88
  next =>
    split
    next h => exact absurd (List.cons.inj h).1 ha45
    next h => exact absurd (List.cons.inj h).1 ha43
    next =>
      simp only [htake, List.foldl_cons, List.foldl_nil, ha, hb, hc, hd, Option.getD_some,
        reduceCtorEq, if_false, Bool.false_eq_true]
      congr 1
      omega

/-- `%04X` is read back. -/
theorem scanHex_hex4 {n : Nat} (h : n < 65536) : scanHex (hex4 n) = some n := by
  have hd := scanHex_digits ⟨n / 4096 % 16, by omega⟩ ⟨n / 256 % 16, by omega⟩
    ⟨n / 16 % 16, by omega⟩ ⟨n % 16, by omega⟩
  unfold hex4
  rw [hd]
  congr 1
  simp only
  omega

theorem zero_notMem_hex4 (n : Nat) : (0 : UInt8) ∉ hex4 n := by
  have h : ∀ m : Nat, (0 : UInt8) ≠ hexDigit (m % 16) :=
    fun m => Ne.symm (hexDigit_spec ⟨m % 16, by omega⟩).2.1
  simp only [hex4, List.mem_cons, List.not_mem_nil, or_false, not_or]
  exact ⟨h _, h _, h _, h _⟩

theorem readFpMsg_append (a rest : Bytes) : readFpMsg a.length (a ++ rest) = some (a, rest) := by
  unfold readFpMsg
  rw [if_pos (by simp), List.take_left, List.drop_left]

/-- The commands that a byte gives back. -/
theorem ofByte_toByte : ∀ cmd ∈ Cmd.named, Cmd.ofByte cmd.toByte = cmd ∧ cmd.toByte ≠ 0 := by
  decide

/-- The header of a message has no NUL. -/
theorem takeWhile_header {cmd : Cmd} (hcmd : cmd ∈ Cmd.named) (n : Nat) :
    (cmd.toByte :: hex4 n).takeWhile (fun c => decide (c ≠ 0)) = cmd.toByte :: hex4 n := by
  rw [List.takeWhile_eq_self_iff]
  intro c hc
  rcases List.mem_cons.mp hc with rfl | hc
  · simpa using (ofByte_toByte cmd hcmd).2
  · have : c ≠ 0 := by
      rintro rfl
      exact zero_notMem_hex4 _ hc
    simpa using this

/-- **A message is read back.** -/
theorem readFp_message {cmd : Cmd} (hcmd : cmd ∈ Cmd.named) {text : Bytes}
    (hlen : text.length < 65536) (rest : Bytes) :
    readFp (cmd.toByte :: hex4 text.length ++ text ++ [10] ++ rest) = (.ok, cmd, text, rest) := by
  have hof := (ofByte_toByte cmd hcmd).1
  have hhead : readFpMsg 5 (cmd.toByte :: hex4 text.length ++ text ++ [10] ++ rest)
      = some (cmd.toByte :: hex4 text.length, text ++ [10] ++ rest) := by
    have := readFpMsg_append (cmd.toByte :: hex4 text.length) (text ++ [10] ++ rest)
    simpa [hex4] using this
  have htext : readFpMsg (text.length + 1) (text ++ [10] ++ rest) = some (text ++ [10], rest) := by
    have := readFpMsg_append (text ++ [10]) rest
    simpa using this
  unfold readFp
  simp only [hhead, takeWhile_header hcmd, scanHex_hex4 hlen, htext, hof, List.take_left]

/-- What a sender makes of a text that is below the limit. -/
def Message (send : Cmd → Bytes → Option Bytes) : Prop :=
  ∀ cmd text b, text.length < 2 ^ 32 → send cmd text = some b →
    text.length < 65536 ∧ b = cmd.toByte :: hex4 text.length ++ text ++ [10]

theorem message_sendMsg : Message sendMsg := by
  intro cmd text b hlen h
  unfold sendMsg at h
  simp only [Nat.mod_eq_of_lt hlen] at h
  split at h
  next hs => exact ⟨hs, (Option.some.inj h).symm⟩
  next => simp at h

theorem message_sendMsgZp : Message sendMsgZp := by
  intro cmd text b hlen h
  unfold sendMsgZp at h
  simp only [Nat.mod_eq_of_lt hlen, List.take_length] at h
  split at h
  next hs => exact ⟨hs, (Option.some.inj h).symm⟩
  next => simp at h

theorem readFp_sendMsg {send : Cmd → Bytes → Option Bytes} (hsend : Message send) {cmd : Cmd}
    (hcmd : cmd ∈ Cmd.named) {text b : Bytes} (hlen : text.length < 2 ^ 32)
    (h : send cmd text = some b) (rest : Bytes) : readFp (b ++ rest) = (.ok, cmd, text, rest) := by
  obtain ⟨hlt, rfl⟩ := hsend cmd text b hlen h
  exact readFp_message hcmd hlt rest

/-! ## §2. Entries. -/

/-- The commands of entries. -/
def Cmd.entry : List Cmd :=
  [.file, .encFile, .directory, .softLink, .hardLink, .special, .metadata, .encMetadata,
   .efsFile, .vss, .encVss, .vssT, .encVssT]

/-- An entry as phase 1 (`full` is false) or phase 2 hands it to the writer. -/
structure WellFormed (full : Bool) (sb : Sbuf) : Prop where
  cmd : sb.cmd ∈ Cmd.entry
  path : ∃ p, sb.path = some p
  datapth : ∀ d, sb.datapth = some d → 0 ∉ d
  linkto : sb.linkto.isSome = sb.cmd.isLink
  endfile : sb.endfile.isSome = (full && sb.cmd.filedata)
  stat : RecordOf sb.statbuf sb.statp sb.winattr sb.compression

/-- The texts of an entry. -/
def Sbuf.texts (sb : Sbuf) : List Bytes :=
  sb.path.toList ++ sb.datapth.toList ++ sb.linkto.toList ++ sb.endfile.toList

/-- No text is as long as an `unsigned int` cannot say. -/
def Sbuf.Short (sb : Sbuf) : Prop := ∀ text ∈ sb.texts, text.length < 2 ^ 32

theorem entry_named : ∀ cmd ∈ Cmd.entry, cmd ∈ Cmd.named := by decide

/-- Only file data has an endfile, and a link is no file data. -/
theorem isLink_filedata (cmd : Cmd) (h : cmd.isLink = true) : cmd.filedata = false := by
  cases cmd <;> simp_all [Cmd.isLink, Cmd.filedata]

theorem zero_notMem_cString (b : Bytes) : (0 : UInt8) ∉ cString b := by
  intro h
  have hne := List.mem_takeWhile_imp h
  simp at hne

theorem cString_of_notMem {b : Bytes} (h : (0 : UInt8) ∉ b) : cString b = b := by
  unfold cString
  rw [List.takeWhile_eq_self_iff]
  intro c hc
  have : c ≠ 0 := by
    rintro rfl
    exact h hc
  simpa using this

theorem cString_append {a b : Bytes} (h : (0 : UInt8) ∉ a) : cString (a ++ b) = a ++ cString b :=
  List.takeWhile_append_of_pos fun _ hx => decide_eq_true fun heq => h (heq ▸ hx)

/-- A string ends before the NUL, whatever lies behind that. -/
theorem cString_append_nul (front behind : Bytes) :
    cString (front ++ 0 :: behind) = cString front := by
  unfold cString
  induction front with
  | nil => simp
  | cons c front ih =>
      rw [List.cons_append, List.takeWhile_cons, List.takeWhile_cons, ih]

theorem cString_append_zero {b : Bytes} (h : (0 : UInt8) ∉ b) (behind : Bytes) :
    cString (b ++ 0 :: behind) = b := by
  rw [cString_append_nul, cString_of_notMem h]

section Entry

variable {send : Cmd → Bytes → Option Bytes} (hsend : Message send)

include hsend

/-- A data path in front of the stat. -/
theorem readStat_datapth {text b : Bytes} (hlen : text.length < 2 ^ 32)
    (h : send .datapth text = some b) (fuel : Nat) (d : Option Bytes) (sb : Sbuf) (rest : Bytes) :
    readStat (fuel + 1) d sb (b ++ rest) = readStat fuel (some text) sb rest := by
  rw [readStat, readFp_sendMsg hsend (by decide) hlen h]

theorem readStat_stat {statp : Stat} {statbuf b : Bytes} {winattr compression : Int}
    (hrec : RecordOf statbuf statp winattr compression) (hlen : statbuf.length < 2 ^ 32)
    (h : send .stat statbuf = some b) (fuel : Nat) (d : Option Bytes) (sb : Sbuf) (rest : Bytes) :
    readStat (fuel + 1) d sb (b ++ rest)
      = (.ok, { sb with statp := statp, winattr := winattr, compression := compression,
                        statbuf := statbuf, datapth := d }, rest) := by
  rw [readStat, readFp_sendMsg hsend (by decide) hlen h]
  simp only [decodeStat_encodeStat hrec]

/-- The first messages of an entry. -/
theorem readStat_head {sb : Sbuf} {d st : Bytes} (hshort : sb.Short)
    (hnul : ∀ text, sb.datapth = some text → 0 ∉ text)
    (hrec : RecordOf sb.statbuf sb.statp sb.winattr sb.compression)
    (hlen : sb.statbuf.length < 2 ^ 32)
    (hd : sendIf send .datapth (sb.datapth.map cString) = some d)
    (hst : send .stat sb.statbuf = some st) (rest : Bytes) :
    readStat ((d ++ (st ++ rest)).length + 1) none {} (d ++ (st ++ rest))
      = (.ok, { statp := sb.statp, winattr := sb.winattr, compression := sb.compression,
                statbuf := sb.statbuf, datapth := sb.datapth }, rest) := by
  cases hdp : sb.datapth with
  | none =>
      rw [hdp, Option.map_none, sendIf, Option.some.injEq] at hd
      rw [← hd, List.nil_append, readStat_stat hsend hrec hlen hst]
  | some text =>
      have htext : text.length < 2 ^ 32 := hshort text (by simp [Sbuf.texts, hdp])
      rw [hdp, Option.map_some, cString_of_notMem (hnul text hdp), sendIf] at hd
      have hmsg := (hsend _ _ _ htext hd).2
      -- the data path takes a turn of its own
      have hfuel : ∃ n, (d ++ (st ++ rest)).length = n + 1 := by
        rw [hmsg]
        exact ⟨_, rfl⟩
      obtain ⟨n, hn⟩ := hfuel
      rw [hn, readStat_datapth hsend htext hd, readStat_stat hsend hrec hlen hst]

/-- **An entry is read back.** -/
theorem fillFromFile_sbufTo {full : Bool} {sb : Sbuf} {b : Bytes} (hw : WellFormed full sb)
    (hshort : sb.Short) (hlen : sb.statbuf.length < 2 ^ 32) (h : sbufTo send full sb = some b)
    (rest : Bytes) : fillFromFile (!full) {} (b ++ rest) = (.ok, sb, rest) := by
  obtain ⟨p, hp⟩ := hw.path
  have hnamed := entry_named _ hw.cmd
  have hplen : p.length < 2 ^ 32 := hshort p (by simp [Sbuf.texts, hp])
  unfold sbufTo at h
  simp only [hp, Option.bind_eq_bind, Option.bind_eq_some_iff, Option.some.injEq] at h
  obtain ⟨d, hd, st, hst, nm, hnm, lk, hlk, ef, hef, rfl⟩ := h
  have hhead := fun rest =>
    readStat_head hsend hshort hw.datapth hw.stat hlen hd hst rest
  have hname := fun rest => readFp_sendMsg hsend hnamed hplen hnm rest
  unfold fillFromFile
  simp only [List.append_assoc, hhead, hname, Bool.not_not]
  cases hlink : sb.cmd.isLink with
  | true =>
      obtain ⟨l, hl⟩ := Option.isSome_iff_exists.mp (hw.linkto.trans hlink)
      have hllen : l.length < 2 ^ 32 := hshort l (by simp [Sbuf.texts, hl])
      have hfile := isLink_filedata _ hlink
      have hend := hw.endfile
      simp only [hfile, Bool.and_false, Option.isSome_eq_false_iff, Option.isNone_iff_eq_none]
        at hend
      rw [hl, sendIf] at hlk
      simp only [hfile, Bool.and_false, Bool.false_eq_true, if_false, sendIf, Option.some.injEq]
        at hef
      rw [← hef, List.nil_append]
      simp only [if_true, readFp_sendMsg hsend hnamed hllen hlk, hlink, ← hp, ← hl, ← hend]
  | false =>
      have hl := hw.linkto
      simp only [hlink, Option.isSome_eq_false_iff, Option.isNone_iff_eq_none] at hl
      rw [hl, sendIf, Option.some.injEq] at hlk
      rw [← hlk, List.nil_append]
      cases hfile : full && sb.cmd.filedata with
      | true =>
          obtain ⟨e, he⟩ := Option.isSome_iff_exists.mp (hw.endfile.trans hfile)
          have helen : e.length < 2 ^ 32 := hshort e (by simp [Sbuf.texts, he])
          rw [hfile, if_pos rfl, he, Option.getD_some, sendIf] at hef
          simp only [Bool.false_eq_true, if_false, if_true,
            readFp_sendMsg hsend (by decide : Cmd.endFile ∈ Cmd.named) helen hef, ← hp, ← hl,
            ← he]
      | false =>
          have hend := hw.endfile
          simp only [hfile, Option.isSome_eq_false_iff, Option.isNone_iff_eq_none] at hend
          rw [hfile, if_neg (by simp), sendIf, Option.some.injEq] at hef
          simp only [Bool.false_eq_true, if_false, ← hef, List.nil_append]
          show _ = (Ars.ok, Sbuf.mk sb.cmd sb.path sb.linkto sb.datapth sb.statbuf sb.statp
            sb.winattr sb.compression sb.endfile, rest)
          rw [hp, hl, hend]

end Entry

/-! ## §3. A text that is too long. -/

theorem hexVal_le (c : UInt8) : (hexVal c).getD 0 ≤ 15 := by
  unfold hexVal
  split_ifs
  all_goals
    simp_all [UInt8.le_iff_toNat_le]
    try omega

/-- The value of some digits. -/
theorem foldl_hexVal_lt (l : Bytes) :
    ∀ v : Nat, l.foldl (fun v c => 16 * v + (hexVal c).getD 0) v < (v + 1) * 16 ^ l.length := by
  induction l with
  | nil => intro v; simp
  | cons c l ih =>
      intro v
      have hc := hexVal_le c
      rw [List.foldl_cons, List.length_cons, pow_succ]
      calc l.foldl (fun v c => 16 * v + (hexVal c).getD 0) (16 * v + (hexVal c).getD 0)
          < (16 * v + (hexVal c).getD 0 + 1) * 16 ^ l.length := ih _
        _ ≤ ((v + 1) * 16) * 16 ^ l.length := Nat.mul_le_mul_right _ (by omega)
        _ = (v + 1) * (16 ^ l.length * 16) := by ring

/-- `scanf` stores an `unsigned int`. -/
theorem scanHex_lt {b : Bytes} {n : Nat} (hb : b.length ≤ 4) (h : scanHex b = some n) :
    n < 2 ^ 32 := by
  have hdigits : ∀ (neg : Bool) (b : Bytes), b.length ≤ 4 →
      (if b.takeWhile (fun c => (hexVal c).isSome) = [] then none
        else some (if neg then (2 ^ 32 - (b.takeWhile fun c => (hexVal c).isSome).foldl
            (fun v c => 16 * v + (hexVal c).getD 0) 0) % 2 ^ 32
          else (b.takeWhile fun c => (hexVal c).isSome).foldl
            (fun v c => 16 * v + (hexVal c).getD 0) 0)) = some n → n < 2 ^ 32 := by
    intro neg b hb h
    have hfold := foldl_hexVal_lt (b.takeWhile fun c => (hexVal c).isSome) 0
    have hlen : (b.takeWhile fun c => (hexVal c).isSome).length ≤ 4 :=
      (List.takeWhile_prefix _).length_le.trans hb
    have hpow : 16 ^ (b.takeWhile fun c => (hexVal c).isSome).length ≤ 16 ^ 4 :=
      Nat.pow_le_pow_right (by omega) hlen
    split at h
    · simp at h
    · rw [Option.some.injEq] at h
      rw [← h]
      split <;> omega
  have hdrop : (b.dropWhile fun c => decide (c = 32 ∨ (9 ≤ c ∧ c ≤ 13))).length ≤ 4 :=
    (List.dropWhile_suffix _).length_le.trans hb
  unfold scanHex at h
  generalize b.dropWhile (fun c => decide (c = 32 ∨ (9 ≤ c ∧ c ≤ 13))) = b at h hdrop
  simp only at h
  refine hdigits _ _ ?_ h
  -- neither the sign nor `0x` makes it longer
  clear h hdigits hb
  split
  next heq =>
    split at heq
    all_goals
      have hlen := congrArg List.length heq
      simp only [List.length_cons] at hlen hdrop
      omega
  next heq =>
    split at heq
    all_goals
      have hlen := congrArg List.length heq
      simp only [List.length_cons] at hlen hdrop
      omega
  next =>
    split
    all_goals
      simp only [List.length_cons] at hdrop ⊢
      omega

/-- Nor can the reader return more bytes. -/
theorem readFp_lt (b : Bytes) : (readFp b).2.2.1.length < 2 ^ 32 := by
  unfold readFp
  cases hhead : readFpMsg 5 b with
  | none => simp
  | some r =>
      obtain ⟨head, b'⟩ := r
      simp only
      have hlen : (head.takeWhile fun c => decide (c ≠ 0)).length ≤ 5 := by
        unfold readFpMsg at hhead
        split at hhead
        · rw [Option.some.injEq, Prod.mk.injEq] at hhead
          rw [← hhead.1]
          exact (List.takeWhile_prefix _).length_le.trans (List.length_take_le _ _)
        · simp at hhead
      generalize head.takeWhile (fun c => decide (c ≠ 0)) = text at hlen ⊢
      cases text with
      | nil => simp
      | cons c len =>
          simp only [List.length_cons] at hlen
          cases hr : scanHex len with
          | none => simp [hr]
          | some r =>
              have hlt := scanHex_lt (by omega) hr
              simp only [hr]
              cases readFpMsg (r + 1) b' with
              | none => simp
              | some q => exact (List.length_take_le _ _).trans_lt hlt

/-- What `async_read_stat` fills in. -/
theorem readStat_short :
    ∀ (fuel : Nat) (d : Option Bytes) (sb sb' : Sbuf) (b b' : Bytes), sb.Short →
      (∀ text, d = some text → text.length < 2 ^ 32) → readStat fuel d sb b = (.ok, sb', b') →
      sb'.Short := by
  intro fuel
  induction fuel with
  | zero =>
      intro d sb sb' b b' _ _ h
      simp [readStat] at h
  | succ fuel ih =>
      intro d sb sb' b b' hsb hd h
      have hlt := readFp_lt b
      rw [readStat] at h
      split at h
      next buf rest hread =>
        rw [hread] at hlt
        refine ih _ _ _ _ _ hsb (fun text ht => ?_) h
        rw [← Option.some.inj ht]
        exact hlt
      next buf rest hread =>
        simp only [Prod.mk.injEq, true_and] at h
        rw [← h.1]
        intro text ht
        simp only [Sbuf.texts, List.mem_append, Option.mem_toList] at ht
        rcases ht with ((ht | ht) | ht) | ht
        · exact hsb text (by simp [Sbuf.texts, ht])
        · exact hd text ht
        · exact hsb text (by simp [Sbuf.texts, ht])
        · exact hsb text (by simp [Sbuf.texts, ht])
      next => split at h <;> simp at h
      next => simp at h
      next => simp at h
      next => simp at h

/-- The fields that are read after the stat. -/
theorem Sbuf.Short.put {sb sb' : Sbuf} (h : sb.Short) (hd : sb'.datapth = sb.datapth)
    (hp : sb'.path = sb.path ∨ ∃ b, sb'.path = some (readFp b).2.2.1)
    (hl : sb'.linkto = sb.linkto ∨ ∃ b, sb'.linkto = some (readFp b).2.2.1)
    (he : sb'.endfile = sb.endfile ∨ ∃ b, sb'.endfile = some (readFp b).2.2.1) : sb'.Short := by
  have hput : ∀ (o o' : Option Bytes), (∀ text, o = some text → text ∈ sb.texts) →
      (o' = o ∨ ∃ b, o' = some (readFp b).2.2.1) → ∀ text, o' = some text →
      text.length < 2 ^ 32 := by
    intro o o' ho ho' text ht
    rcases ho' with rfl | ⟨b, rfl⟩
    · exact h text (ho text ht)
    · rw [← Option.some.inj ht]
      exact readFp_lt b
  intro text ht
  simp only [Sbuf.texts, List.mem_append, Option.mem_toList] at ht
  rcases ht with ((ht | ht) | ht) | ht
  · exact hput _ _ (fun t h => by simp [Sbuf.texts, h]) hp text ht
  · exact h text (by simp [Sbuf.texts, ← hd, ht])
  · exact hput _ _ (fun t h => by simp [Sbuf.texts, h]) hl text ht
  · exact hput _ _ (fun t h => by simp [Sbuf.texts, h]) he text ht

/-- No entry that is read has a text of 2^32 bytes. -/
theorem fillFromFile_short {phase1 : Bool} {b b' : Bytes} {sb : Sbuf}
    (h : fillFromFile phase1 {} b = (.ok, sb, b')) : sb.Short := by
  unfold fillFromFile at h
  split at h
  next sb₁ b₁ hstat =>
    have h₁ : sb₁.Short :=
      readStat_short _ _ _ _ _ _ (by simp [Sbuf.Short, Sbuf.texts]) (by simp) hstat
    split at h
    next cmd path b₂ hread =>
      have hpath : path = (readFp b₁).2.2.1 := by rw [hread]
      simp only at h
      split at h
      · split at h
        next cmd' linkto b₃ hread' =>
          simp only [Prod.mk.injEq] at h
          rw [← h.2.1]
          exact h₁.put rfl (Or.inr ⟨b₁, by rw [hpath]⟩) (Or.inr ⟨b₂, by rw [hread']⟩)
            (Or.inl rfl)
        next hne _ =>
          simp only [Prod.mk.injEq] at h
          exact absurd h.1 hne
      · split at h
        · split at h
          next cmd' endfile b₃ hread' =>
            simp only [Prod.mk.injEq] at h
            rw [← h.2.1]
            exact h₁.put rfl (Or.inr ⟨b₁, by rw [hpath]⟩) (Or.inl rfl)
              (Or.inr ⟨b₂, by rw [hread']⟩)
          next hne _ =>
            simp only [Prod.mk.injEq] at h
            exact absurd h.1 hne
        · simp only [Prod.mk.injEq, true_and] at h
          rw [← h.1]
          exact h₁.put rfl (Or.inr ⟨b₁, by rw [hpath]⟩) (Or.inl rfl) (Or.inl rfl)
    next hne _ =>
      simp only [Prod.mk.injEq] at h
      exact absurd h.1 hne
  next hne _ =>
    simp only [Prod.mk.injEq] at h
    exact absurd h.1 hne

/-! ## §4. Lists of entries. -/

/-- `sbuf_to_manifest` (`full`) and `sbuf_to_manifest_phase1`, to a `gzFile` (`zip`) or to a
`FILE`. -/
def sbufToManifest (zip full : Bool) : Sbuf → Option Bytes :=
  if zip then toManifestZp full else toManifest full

/-- The file that the writer makes of a list of entries. -/
def listFile (c : Codec) (zip full : Bool) (level : Nat) (sbs : List Sbuf) : Bytes :=
  let text := sbs.flatMap fun sb => (sbufToManifest zip full sb).getD []
  if zip then c.gzip level text else text

/-- What repeated calls of `sbuf_fill` (`full`) or `sbuf_fill_phase1` return. -/
def readAll (full : Bool) (text : Bytes) : List Sbuf × Ars :=
  let r := fills (if full then sbufFill else sbufFillPhase1) (text.length + 1) text
  (r.1, r.2.1)

/-- The reader returns the list and then 1. -/
def ReadsBack (c : Codec) (zip full : Bool) (level : Nat) (sbs : List Sbuf) : Prop :=
  (c.content zip (listFile c zip full level sbs)).map (readAll full) = some (sbs, .ended)

theorem sbufFill_eq (full : Bool) :
    (if full then sbufFill else sbufFillPhase1) = fillFromFile (!full) {} := by
  cases full <;> rfl

theorem message_of (zip full : Bool) :
    ∃ send, Message send ∧ sbufToManifest zip full = sbufTo send full := by
  cases zip with
  | false => exact ⟨sendMsg, message_sendMsg, rfl⟩
  | true => exact ⟨sendMsgZp, message_sendMsgZp, rfl⟩

theorem length_base64Digits : ∀ fuel n : Nat, (base64Digits fuel n).length ≤ fuel + 1 := by
  intro fuel
  induction fuel with
  | zero => intro n; simp [base64Digits]
  | succ fuel ih =>
      intro n
      have := ih (n / 64)
      unfold base64Digits
      split
      · simp
      · simp only [List.length_append, List.length_singleton]
        omega

theorem length_toBase64 (v : Int) : (toBase64 v).length ≤ 12 := by
  unfold toBase64
  split
  · have := length_base64Digits 10 (-v).toNat
    simp only [List.length_cons]
    omega
  · have := length_base64Digits 10 v.toNat
    omega

/-- A record has sixteen fields of twelve characters at most. -/
theorem RecordOf.length_le {buf : Bytes} {s : Stat} {winattr compression : Int}
    (h : RecordOf buf s winattr compression) : buf.length ≤ 207 := by
  obtain ⟨win32, rfl, -⟩ := h.written
  have hfield : ∀ (v : Int) (rest : Bytes),
      (toBase64 v ++ 32 :: rest).length ≤ rest.length + 13 := by
    intro v rest
    have := length_toBase64 v
    rw [List.length_append, List.length_cons]
    omega
  have hlast := length_toBase64 compression
  unfold encodeStat
  iterate 15 refine (hfield _ _).trans (Nat.add_le_of_le_sub (by omega) ?_)
  omega

theorem RecordOf.length_lt {buf : Bytes} {s : Stat} {winattr compression : Int}
    (h : RecordOf buf s winattr compression) : buf.length < 2 ^ 32 :=
  Nat.lt_of_le_of_lt h.length_le (by decide)

/-- What is read is the outcome of a call. -/
theorem mem_fills {fill : Bytes → Ars × Sbuf × Bytes} {sb : Sbuf} :
    ∀ (fuel : Nat) (b : Bytes), sb ∈ (fills fill fuel b).1 → ∃ a a', fill a = (.ok, sb, a') := by
  intro fuel
  induction fuel with
  | zero => intro b h; simp [fills] at h
  | succ fuel ih =>
      intro b h
      rw [fills] at h
      split at h
      next sb' b' hfill =>
        rcases List.mem_cons.mp h with rfl | h
        · exact ⟨b, b', hfill⟩
        · exact ih b' h
      next => simp at h

/-- Only short texts are read back. -/
theorem ReadsBack.short {c : Codec} {zip full : Bool} {level : Nat} {sbs : List Sbuf}
    (h : ReadsBack c zip full level sbs) : ∀ sb ∈ sbs, sb.Short := by
  intro sb hsb
  obtain ⟨text, -, htext⟩ := Option.map_eq_some_iff.mp h
  have hmem : sb ∈ (readAll full text).1 := by rw [htext]; exact hsb
  unfold readAll at hmem
  rw [sbufFill_eq] at hmem
  obtain ⟨a, a', hfill⟩ := mem_fills _ _ hmem
  exact fillFromFile_short hfill

/-- Each entry takes at least a byte. -/
theorem length_le_flatMap (write : Sbuf → Bytes) (sbs : List Sbuf)
    (h : ∀ sb ∈ sbs, write sb ≠ []) : sbs.length ≤ (sbs.flatMap write).length := by
  induction sbs with
  | nil => simp
  | cons sb sbs ih =>
      have hsb := List.length_pos_of_ne_nil (h sb List.mem_cons_self)
      have := ih fun s hs => h s (List.mem_cons_of_mem _ hs)
      rw [List.flatMap_cons, List.length_append, List.length_cons]
      omega

/-- An entry that is read from its bytes alone has some. -/
theorem fillFromFile_nil (phase1 : Bool) : fillFromFile phase1 {} [] = (.ended, {}, []) := rfl

/-- **Short texts are read back.** -/
theorem readAll_written {full : Bool} {send : Cmd → Bytes → Option Bytes} (hsend : Message send)
    {sbs : List Sbuf} (hw : ∀ sb ∈ sbs, WellFormed full sb) (hshort : ∀ sb ∈ sbs, sb.Short)
    (hok : ∀ sb ∈ sbs, (sbufTo send full sb).isSome) :
    readAll full (sbs.flatMap fun sb => (sbufTo send full sb).getD []) = (sbs, .ended) := by
  have hread : ∀ sb ∈ sbs, ∀ rest,
      fillFromFile (!full) {} ((sbufTo send full sb).getD [] ++ rest) = (.ok, sb, rest) := by
    intro sb hsb rest
    obtain ⟨b, hb⟩ := Option.isSome_iff_exists.mp (hok sb hsb)
    rw [hb, Option.getD_some]
    exact fillFromFile_sbufTo hsend (hw sb hsb) (hshort sb hsb) (hw sb hsb).stat.length_lt hb rest
  have hne : ∀ sb ∈ sbs, (sbufTo send full sb).getD [] ≠ [] := by
    intro sb hsb hnil
    have := hread sb hsb []
    rw [hnil, List.nil_append, fillFromFile_nil] at this
    simp at this
  have hlen := length_le_flatMap _ sbs hne
  have hfills := fills_append (fillFromFile (!full) {}) _ [] (by
    rw [fillFromFile_nil]; simp) sbs hread
    ((sbs.flatMap fun sb => (sbufTo send full sb).getD []).length + 1) (by omega)
  rw [List.append_nil, fillFromFile_nil] at hfills
  unfold readAll
  simp only [sbufFill_eq, hfills]

/-- The record of a stat that is all zeros. -/
theorem recordOf_zero : RecordOf (encodeStat false {} 0 (-1)) {} 0 (-1) :=
  ⟨by constructor <;> decide, by decide, by decide, false, rfl, rfl⟩

/-- A file of seven bytes with a newline in its name. -/
def sampleFile : Sbuf :=
  { cmd := .file, path := some [47, 10, 98], datapth := some [116, 47, 10],
    statbuf := encodeStat false {} 0 (-1), endfile := some [55, 58, 97] }

/-- A link to it. -/
def sampleLink : Sbuf :=
  { cmd := .softLink, path := some [47, 108], linkto := some [47, 10, 98],
    statbuf := encodeStat false {} 0 (-1) }

theorem wellFormed_sampleFile : WellFormed true sampleFile :=
  ⟨by decide, ⟨_, rfl⟩, by simp [sampleFile], rfl, rfl, recordOf_zero⟩

theorem wellFormed_sampleLink : WellFormed true sampleLink :=
  ⟨by decide, ⟨_, rfl⟩, by simp [sampleLink], rfl, rfl, recordOf_zero⟩

theorem length_texts_sample :
    (∀ text ∈ sampleFile.texts, text.length < 65536)
      ∧ ∀ text ∈ sampleLink.texts, text.length < 65536 := by
  decide

theorem readsBack_of_short {c : Codec} (hc : c.Lawful) (zip full : Bool) (level : Nat)
    {sbs : List Sbuf} (hw : ∀ sb ∈ sbs, WellFormed full sb)
    (hok : ∀ sb ∈ sbs, (sbufToManifest zip full sb).isSome) (hshort : ∀ sb ∈ sbs, sb.Short) :
    ReadsBack c zip full level sbs := by
  obtain ⟨send, hsend, heq⟩ := message_of zip full
  have hall := readAll_written hsend hw hshort fun sb hsb => heq ▸ hok sb hsb
  unfold ReadsBack listFile
  rw [heq]
  cases zip with
  | false => exact congrArg some hall
  | true =>
      simp only [Codec.content, if_true, hc.gzread_gzip, Option.map_some]
      exact congrArg some hall

/-- A directory with a path of `n` bytes. -/
def longDirectory (n : Nat) : Sbuf :=
  { cmd := .directory, path := some (List.replicate n 97), statbuf := encodeStat false {} 0 (-1) }

theorem wellFormed_longDirectory (full : Bool) (n : Nat) : WellFormed full (longDirectory n) where
  cmd := (by decide : Cmd.directory ∈ Cmd.entry)
  path := ⟨_, rfl⟩
  datapth := by simp [longDirectory]
  linkto := rfl
  endfile := by simp [longDirectory, Cmd.filedata]
  stat := recordOf_zero

/-- The writer takes it if what is left of `n` has four digits. -/
theorem longDirectory_written {n : Nat} (hn : n % 2 ^ 32 < 65536) :
    (sbufToManifest false true (longDirectory n)).isSome := by
  have hstat : (sendMsg .stat (encodeStat false {} 0 (-1))).isSome := by decide
  have hname : (sendMsg .directory (List.replicate n 97)).isSome := by
    unfold sendMsg
    simp only [List.length_replicate, hn, if_true, Option.isSome_some]
  obtain ⟨st, hst⟩ := Option.isSome_iff_exists.mp hstat
  obtain ⟨nm, hnm⟩ := Option.isSome_iff_exists.mp hname
  show (sbufTo sendMsg true (longDirectory n)).isSome
  simp only [sbufTo, longDirectory, Option.map_none, sendIf, hst, hnm, Cmd.filedata,
    Bool.and_false, Bool.false_eq_true, if_false, Option.bind_eq_bind, Option.bind_some,
    Option.isSome_some]

theorem longDirectory_lost {c : Codec} {zip full : Bool} {level n : Nat} (hn : 2 ^ 32 ≤ n) :
    ¬ ReadsBack c zip full level [longDirectory n] := by
  intro h
  have := h.short _ List.mem_cons_self (List.replicate n 97) (by simp [Sbuf.texts, longDirectory])
  rw [List.length_replicate] at this
  omega

end Burp.Store
