/-
  Burp.Store.StatText — the text of a stat record, as it is put into memory.

  `to_base64` counts the digits of a number first, and puts them down from the last to the first,
  in front of a NUL.  `encode_stat` writes a blank over that NUL, and the next number behind it.

  Main results:
    * `toBase64At_spec` — `to_base64` returns what it has stored.
    * `encodeStatAt_spec` — what is in memory is the record.
    * `encodeStatAt_decodes` — and `decode_stat` gives back its fields.
-/
import Burp.Store.StatSafe
import Burp.Text.Memory

namespace Burp.Store

open FileSystem
open Burp.Text (Memory store store_self store_of_ne ChangedIn changedIn_store Holds holds_append
  holds_cons deref)

/-! ## §1. The code, with its stores. -/

/-- `do { val >>= 6; i++; } while (val)`. -/
def sizeLoop (val i : Nat) : Nat :=
  if val / 64 = 0 then i + 1 else sizeLoop (val / 64) (i + 1)

/-- `do { where[--i] = base64_digits[val & 0x3F]; val >>= 6; } while (val)`. -/
def digitLoop (mem : Memory) (p val i : Nat) : Memory :=
  let mem := store mem (p + (i - 1)) (base64Digit (val % 64))
  if val / 64 = 0 then mem else digitLoop mem p (val / 64) (i - 1)
termination_by val

/-- `to_base64`, of an `int64_t`: the memory, and what it returns.  The smallest one stays as it is
when it is negated. -/
def toBase64At (mem : Memory) (p : Nat) (value : Int) : Memory × Nat :=
  let (mem, i, value) :=
    if value < 0 then (store mem p 45, 1, toInt64 (-value)) else (mem, 0, value)
  let val := (value % 2 ^ 64).toNat
  let n := sizeLoop val i
  (digitLoop (store mem (p + n) 0) p val n, n)

/-- A number and a blank; `p` is behind it. -/
def putField (out : Memory × Nat) (value : Int) : Memory × Nat :=
  let (mem, n) := toBase64At out.1 out.2 value
  (store mem (out.2 + n) 32, out.2 + n + 1)

/-- `encode_stat`. -/
def encodeStatAt (win32 : Bool) (mem : Memory) (buf : Nat) (s : Stat) (winattr compression : Int) :
    Memory :=
  let out := putField (mem, buf) (toInt64 s.dev)
  let out := putField out (toInt64 s.ino)
  let out := putField out s.mode
  let out := putField out (toInt64 s.nlink)
  let out := putField out s.uid
  let out := putField out s.gid
  let out := putField out (toInt64 s.rdev)
  let out := putField out s.size
  let out := putField out (if win32 then 0 else s.blksize)
  let out := putField out (if win32 then 0 else s.blocks)
  let out := putField out s.atime
  let out := putField out s.mtime
  let out := putField out s.ctime
  let out := putField out 0
  let out := putField out (if win32 then winattr else 0)
  let (mem, n) := toBase64At out.1 out.2 compression
  store mem (out.2 + n) 0

/-! ## §2. Numbers in memory. -/

/-- The size loop counts the digits. -/
theorem sizeLoop_eq (fuel : Nat) :
    ∀ {val : Nat}, val < 64 ^ (fuel + 1) → ∀ i,
      sizeLoop val i = i + (base64Digits fuel val).length := by
  induction fuel with
  | zero =>
      intro val hval i
      rw [sizeLoop, if_pos (by omega)]
      rfl
  | succ fuel ih =>
      intro val hval i
      rw [sizeLoop, base64Digits]
      by_cases hlt : val < 64
      · rw [if_pos (by omega), if_pos hlt]
        rfl
      · have hdiv : val / 64 < 64 ^ (fuel + 1) := by
          rw [Nat.div_lt_iff_lt_mul (by omega)]
          rwa [pow_succ] at hval
        rw [if_neg (by omega), if_neg hlt, ih hdiv, List.length_append, List.length_singleton]
        omega

/-- The digit loop puts them down, right in front of where it begins. -/
theorem digitLoop_spec (fuel : Nat) :
    ∀ {val : Nat}, val < 64 ^ (fuel + 1) → ∀ (mem : Memory) (p k : Nat),
      Holds (digitLoop mem p val (k + (base64Digits fuel val).length)) (p + k)
          (base64Digits fuel val)
        ∧ ChangedIn mem (digitLoop mem p val (k + (base64Digits fuel val).length)) (p + k)
          (p + k + (base64Digits fuel val).length) := by
  induction fuel with
  | zero =>
      intro val hval mem p k
      rw [digitLoop, if_pos (by omega)]
      simp only [base64Digits, List.length_singleton, Nat.add_sub_cancel]
      exact ⟨holds_cons.2 ⟨store_self .., trivial⟩, changedIn_store mem _ le_rfl (by omega)⟩
  | succ fuel ih =>
      intro val hval mem p k
      rw [digitLoop]
      by_cases hlt : val < 64
      · have hds : base64Digits (fuel + 1) val = [base64Digit (val % 64)] := by
          rw [base64Digits, if_pos hlt, Nat.mod_eq_of_lt hlt]
        rw [if_pos (by omega), hds]
        simp only [List.length_singleton, Nat.add_sub_cancel]
        exact ⟨holds_cons.2 ⟨store_self .., trivial⟩, changedIn_store mem _ le_rfl (by omega)⟩
      · have hdiv : val / 64 < 64 ^ (fuel + 1) := by
          rw [Nat.div_lt_iff_lt_mul (by omega)]
          rwa [pow_succ] at hval
        have hds : base64Digits (fuel + 1) val
            = base64Digits fuel (val / 64) ++ [base64Digit (val % 64)] := by
          rw [base64Digits, if_neg hlt]
        have hlen : k + (base64Digits fuel (val / 64) ++ [base64Digit (val % 64)]).length - 1
            = k + (base64Digits fuel (val / 64)).length := by
          rw [List.length_append, List.length_singleton]
          omega
        rw [if_neg (by omega), hds, hlen, List.length_append, List.length_singleton]
        -- the last digit is there already, and the loop goes on in front of it
        obtain ⟨hholds, hchanged⟩ := ih hdiv
          (store mem (p + (k + (base64Digits fuel (val / 64)).length)) (base64Digit (val % 64))) p k
        refine ⟨holds_append.2 ⟨hholds, holds_cons.2 ⟨?_, trivial⟩⟩, ?_⟩
        · rw [hchanged _ (Or.inr le_rfl), Nat.add_assoc, store_self]
        · exact (changedIn_store mem _ (by omega) (by omega)).trans
            (hchanged.mono le_rfl (by omega))

/-- The digits of `val` behind a sign that is in memory already. -/
theorem digitLoop_sign {mem mem' : Memory} {p : Nat} (sign : Bytes) {val : Nat}
    (hval : val < 2 ^ 64) (hsign : Holds mem' p sign)
    (hmem : ChangedIn mem mem' p (p + sign.length)) :
    let n := sizeLoop val sign.length
    let text := sign ++ base64Digits 10 val
    let out := digitLoop (store mem' (p + n) 0) p val n
    n = text.length ∧ Holds out p (text ++ [0]) ∧ ChangedIn mem out p (p + text.length + 1) := by
  intro n text out
  have hbound : val < 64 ^ (10 + 1) := by omega
  have hsize : n = sign.length + (base64Digits 10 val).length :=
    sizeLoop_eq 10 hbound sign.length
  have htext : text.length = sign.length + (base64Digits 10 val).length := List.length_append
  have hnul : ChangedIn mem' (store mem' (p + n) 0) (p + n) (p + n + 1) :=
    changedIn_store mem' 0 le_rfl (Nat.lt_succ_self _)
  obtain ⟨hholds, hchanged⟩ : Holds out (p + sign.length) (base64Digits 10 val)
      ∧ ChangedIn (store mem' (p + n) 0) out (p + sign.length)
        (p + sign.length + (base64Digits 10 val).length) := by
    have hloop := digitLoop_spec 10 hbound (store mem' (p + n) 0) p sign.length
    rwa [← hsize] at hloop
  have hsign' : Holds out p sign :=
    (hsign.of_changed hnul (Or.inl (by omega))).of_changed hchanged (Or.inl le_rfl)
  have hend : out (p + text.length) = 0 := by
    rw [hchanged _ (Or.inr (by omega)), htext, ← hsize, store_self]
  refine ⟨hsize.trans htext.symm, ?_, ?_⟩
  · exact holds_append.2 ⟨holds_append.2 ⟨hsign', hholds⟩, holds_cons.2 ⟨hend, trivial⟩⟩
  · exact ((hmem.mono le_rfl (by omega)).trans (hnul.mono (by omega) (by omega))).trans
      (hchanged.mono (by omega) (by omega))

/-- **`to_base64` returns what it has stored**, and stores nothing else but the NUL. -/
theorem toBase64At_spec {value : Int} (hlo : -2 ^ 63 ≤ value) (hhi : value < 2 ^ 63) (mem : Memory)
    (p : Nat) :
    (toBase64At mem p value).2 = (toBase64 value).length
      ∧ Holds (toBase64At mem p value).1 p (toBase64 value ++ [0])
      ∧ ChangedIn mem (toBase64At mem p value).1 p (p + (toBase64 value).length + 1) := by
  unfold toBase64At toBase64
  by_cases hneg : value < 0
  · have hval : (toInt64 (-value) % 2 ^ 64).toNat = (-value).toNat := by
      unfold toInt64
      split <;> omega
    simp only [hneg, if_true, hval]
    exact digitLoop_sign [45] (by omega) (holds_cons.2 ⟨store_self .., trivial⟩)
      (changedIn_store mem 45 le_rfl (Nat.lt_succ_self p))
  · have hval : (value % 2 ^ 64).toNat = value.toNat := by omega
    simp only [hneg, if_false, hval]
    exact digitLoop_sign [] (by omega) trivial (ChangedIn.refl mem _ _)

/-! ## §3. Records in memory. -/

/-- The text has been put down from `buf` on, and `out` is behind it. -/
def Written (mem : Memory) (buf : Nat) (out : Memory × Nat) (text : Bytes) : Prop :=
  out.2 = buf + text.length ∧ Holds out.1 buf text ∧ ChangedIn mem out.1 buf out.2

/-- An `int64_t`. -/
def IsInt64 (v : Int) : Prop := -2 ^ 63 ≤ v ∧ v < 2 ^ 63

instance : DecidablePred IsInt64 := fun v =>
  inferInstanceAs (Decidable (-2 ^ 63 ≤ v ∧ v < 2 ^ 63))

/-- A number behind what has been put down. -/
theorem Written.number {mem : Memory} {buf : Nat} {out : Memory × Nat} {text : Bytes}
    (h : Written mem buf out text) {value : Int} (hv : IsInt64 value) (c : UInt8) :
    let n := (toBase64At out.1 out.2 value).2
    Written mem buf (store (toBase64At out.1 out.2 value).1 (out.2 + n) c, out.2 + n + 1)
      (text ++ toBase64 value ++ [c]) := by
  intro n
  obtain ⟨hp, hholds, hchanged⟩ := h
  obtain ⟨hn, hnumber, hmem⟩ := toBase64At_spec hv.1 hv.2 out.1 out.2
  have hstore := changedIn_store (toBase64At out.1 out.2 value).1 c (le_refl (out.2 + n))
    (Nat.lt_succ_self _)
  have hn' : n = (toBase64 value).length := hn
  refine ⟨?_, ?_, ?_⟩
  · simp only [List.length_append, List.length_singleton]
    omega
  · refine holds_append.2 ⟨holds_append.2 ⟨?_, ?_⟩, holds_cons.2 ⟨?_, trivial⟩⟩
    · exact (hholds.of_changed hmem (Or.inl (by omega))).of_changed hstore (Or.inl (by omega))
    · rw [← hp]
      exact (holds_append.1 hnumber).1.of_changed hstore (Or.inl (by omega))
    · rw [List.length_append, ← Nat.add_assoc, ← hp, ← hn']
      exact store_self ..
  · exact ((hchanged.mono le_rfl (by omega)).trans (hmem.mono (by omega) (by omega))).trans
      (hstore.mono (by omega) le_rfl)

/-- Numbers with a blank behind each. -/
def fieldsText (vs : List Int) : Bytes := (vs.map fun v => toBase64 v ++ [32]).flatten

theorem Written.fields {mem : Memory} {buf : Nat} {vs : List Int} (hvs : ∀ v ∈ vs, IsInt64 v) :
    ∀ {out : Memory × Nat} {text : Bytes}, Written mem buf out text →
      Written mem buf (vs.foldl putField out) (text ++ fieldsText vs) := by
  induction vs with
  | nil =>
      intro out text h
      rwa [fieldsText, List.map_nil, List.flatten_nil, List.append_nil]
  | cons v vs ih =>
      intro out text h
      have hv : Written mem buf (putField out v) (text ++ toBase64 v ++ [32]) :=
        h.number (hvs v List.mem_cons_self) 32
      have hrest := ih (fun w hw => hvs w (List.mem_cons_of_mem _ hw)) hv
      rwa [List.append_assoc text, List.append_assoc text] at hrest

/-- All fields fit into an `int64_t`. -/
structure Stat.Fits (s : Stat) : Prop where
  dev : IsInt64 s.dev
  ino : IsInt64 s.ino
  mode : IsInt64 s.mode
  nlink : IsInt64 s.nlink
  uid : IsInt64 s.uid
  gid : IsInt64 s.gid
  rdev : IsInt64 s.rdev
  size : IsInt64 s.size
  blksize : IsInt64 s.blksize
  blocks : IsInt64 s.blocks
  atime : IsInt64 s.atime
  mtime : IsInt64 s.mtime
  ctime : IsInt64 s.ctime

theorem isInt64_toInt64 {v : Int} (h : IsInt64 v) : IsInt64 (toInt64 v) := by
  unfold IsInt64 at h ⊢
  unfold toInt64
  split <;> omega

theorem isInt64_zero : IsInt64 0 := by
  unfold IsInt64
  omega

theorem isInt64_ite {p : Prop} [Decidable p] {v w : Int} (hv : IsInt64 v) (hw : IsInt64 w) :
    IsInt64 (if p then v else w) := by
  split
  · exact hv
  · exact hw

/-- The numbers that `encode_stat` writes in front of the compression. -/
def encodedFields (win32 : Bool) (s : Stat) (winattr : Int) : List Int :=
  [toInt64 s.dev, toInt64 s.ino, s.mode, toInt64 s.nlink, s.uid, s.gid, toInt64 s.rdev, s.size,
    if win32 then 0 else s.blksize, if win32 then 0 else s.blocks, s.atime, s.mtime, s.ctime, 0,
    if win32 then winattr else 0]

theorem encodeStat_fields (win32 : Bool) (s : Stat) (winattr compression : Int) :
    encodeStat win32 s winattr compression
      = fieldsText (encodedFields win32 s winattr) ++ toBase64 compression := by
  simp [encodeStat, fieldsText, encodedFields]

theorem encodedFields_isInt64 {s : Stat} (hs : s.Fits) (win32 : Bool) {winattr : Int}
    (hattr : IsInt64 winattr) : ∀ v ∈ encodedFields win32 s winattr, IsInt64 v := by
  simp only [encodedFields, List.forall_mem_cons]
  exact ⟨isInt64_toInt64 hs.dev, isInt64_toInt64 hs.ino, hs.mode, isInt64_toInt64 hs.nlink, hs.uid,
    hs.gid, isInt64_toInt64 hs.rdev, hs.size, isInt64_ite isInt64_zero hs.blksize,
    isInt64_ite isInt64_zero hs.blocks, hs.atime, hs.mtime, hs.ctime, isInt64_zero,
    isInt64_ite hattr isInt64_zero, by simp⟩

/-- **What is in memory is the record**, with its NUL, and nothing else has changed. -/
theorem encodeStatAt_spec {s : Stat} (hs : s.Fits) (win32 : Bool) {winattr compression : Int}
    (hattr : IsInt64 winattr) (hlevel : IsInt64 compression) (mem : Memory) (buf : Nat) :
    Holds (encodeStatAt win32 mem buf s winattr compression) buf
        (encodeStat win32 s winattr compression ++ [0])
      ∧ ChangedIn mem (encodeStatAt win32 mem buf s winattr compression) buf
        (buf + (encodeStat win32 s winattr compression).length + 1) := by
  have hstart : Written mem buf (mem, buf) [] := ⟨rfl, trivial, ChangedIn.refl mem _ _⟩
  obtain ⟨hend, hholds, hchanged⟩ :=
    (hstart.fields (encodedFields_isInt64 hs win32 hattr)).number hlevel 0
  rw [List.nil_append, ← encodeStat_fields] at hend hholds
  rw [List.length_append, List.length_singleton, ← Nat.add_assoc] at hend
  rw [hend] at hchanged
  exact ⟨hholds, hchanged⟩

/-! ## §4. Reading it back. -/

theorem base64Digit_mapped : ∀ n : Fin 64, base64Digit n < 128 := by
  decide

theorem mem_toBase64 {c : UInt8} {v : Int} (h : c ∈ toBase64 v) : c ≠ 0 ∧ c ≠ 32 ∧ c < 128 := by
  have hdigit : ∀ {n : Nat}, c ∈ base64Digits 10 n → c ≠ 0 ∧ c ≠ 32 ∧ c < 128 := by
    intro n hn
    obtain ⟨d, rfl⟩ := mem_base64Digits hn
    have hspec := base64Digit_spec d
    exact ⟨hspec.2.1, hspec.2.2.1, base64Digit_mapped d⟩
  unfold toBase64 at h
  split at h
  · rcases List.mem_cons.1 h with rfl | h
    · decide
    · exact hdigit h
  · exact hdigit h

/-- A number that was written is a field that is in the map. -/
theorem fromBase64Checked_toBase64 {v : Int} (hv : IsInt64 v) {r : Bytes} {fs : List Bytes}
    (hr : Follows r fs) : fromBase64Checked (some (toBase64 v ++ r)) = some (v, some r) := by
  have hblank : 32 ∉ toBase64 v := fun h => (mem_toBase64 h).2.1 rfl
  have hnul : 0 ∉ toBase64 v := fun h => (mem_toBase64 h).1 rfl
  have hmapped : Mapped (toBase64 v) := fun c h => (mem_toBase64 h).2.2
  have hend : NumberEnd r := by
    rcases hr with ⟨rfl, -⟩ | ⟨b, rfl, -⟩
    · exact Or.inl rfl
    · exact Or.inr ⟨b, rfl⟩
  have hnumber : numberOf (toBase64 v) = v := by
    have heq := (fromBase64_field hblank hnul hr).symm.trans (fromBase64_toBase64 hv.1 hv.2 hend)
    exact (Prod.mk.inj heq).1
  rw [fromBase64Checked_field hblank hr, if_pos hmapped, hnumber]

theorem fromBase64Checked_blank {v : Int} (hv : IsInt64 v) (r : Bytes) :
    fromBase64Checked (some (toBase64 v ++ 32 :: r)) = some (v, some (32 :: r)) :=
  fromBase64Checked_toBase64 hv (Or.inr ⟨r, rfl, rfl⟩)

theorem statFieldChecked_blank {v : Int} (hv : IsInt64 v) (r : Bytes) :
    statFieldChecked (some (toBase64 v ++ 32 :: r)) = some (v, some r) := by
  rw [statFieldChecked, fromBase64Checked_blank hv]
  rfl

theorem bind_blank {v : Int} (hv : IsInt64 v) {r : Bytes}
    {k : Int × Text.Pointer → Option DecodedStat} :
    (statFieldChecked (some (toBase64 v ++ 32 :: r))).bind k = k (v, some r) := by
  rw [statFieldChecked_blank hv, Option.bind_some]

/-- A number does not begin with the NUL. -/
theorem deref_toBase64 (v : Int) (r : Bytes) :
    ∃ c, deref (some (toBase64 v ++ r)) = some c ∧ c ≠ 0 := by
  obtain ⟨c, b, hcb⟩ := List.exists_cons_of_ne_nil (toBase64_ne_nil v)
  refine ⟨c, by rw [hcb]; rfl, (mem_toBase64 (v := v) (c := c) ?_).1⟩
  rw [hcb]
  exact List.mem_cons_self

theorem decodeFlags_encoded (vals : Stat) {winattr compression : Int} (hattr : IsInt64 winattr)
    (hlevel : -2 ^ 31 ≤ compression ∧ compression < 2 ^ 31) :
    decodeFlags vals
        (some (32 :: (toBase64 0 ++ 32 :: (toBase64 winattr ++ 32 :: toBase64 compression))))
      = some { vals := vals, winattr := winattr, compression := compression } := by
  have hcompression : IsInt64 compression := by
    unfold IsInt64
    omega
  have hint : toInt compression = compression := by
    unfold toInt
    split <;> omega
  have hlast : ∀ w, decodeCompression vals w (some (32 :: toBase64 compression))
      = some { vals := vals, winattr := w, compression := compression } := by
    intro w
    obtain ⟨c, hc, hne⟩ := deref_toBase64 compression []
    have hread := fromBase64Checked_toBase64 hcompression (Or.inl ⟨rfl, rfl⟩)
    rw [List.append_nil] at hc hread
    simp only [decodeCompression, hasFieldChecked, Text.deref_cons, Text.next_cons, hc, hread, hint,
      hne, Option.bind_eq_bind, Option.bind_some, Option.pure_def, if_true, if_false]
  obtain ⟨c, hc, hne⟩ := deref_toBase64 0 (32 :: (toBase64 winattr ++ 32 :: toBase64 compression))
  simp only [decodeFlags, decodeWinattr, hasFieldChecked, Text.deref_cons, Text.next_cons, hc, hne,
    fromBase64Checked_blank isInt64_zero, fromBase64Checked_blank hattr, hlast, Option.bind_eq_bind,
    Option.bind_some, Option.pure_def, if_true, if_false]

/-- What the fields of a record stand for; a Windows client has no blocks to report. -/
def Stat.encoded (win32 : Bool) (s : Stat) : Stat :=
  { s with
    blksize := if win32 then 0 else s.blksize
    blocks := if win32 then 0 else s.blocks }

theorem toInt64_of_isInt64 {v : Int} (h : IsInt64 v) : toInt64 v = v := if_pos h.2

theorem decodeStatChecked_encodeStat {s : Stat} (hs : s.Fits) (win32 : Bool)
    {winattr compression : Int} (hattr : IsInt64 winattr)
    (hlevel : -2 ^ 31 ≤ compression ∧ compression < 2 ^ 31) :
    decodeStatChecked (some (encodeStat win32 s winattr compression))
      = some { vals := s.encoded win32, winattr := some (if win32 then winattr else 0),
               compression := compression } := by
  unfold encodeStat
  rw [toInt64_of_isInt64 hs.dev, toInt64_of_isInt64 hs.ino, toInt64_of_isInt64 hs.nlink,
    toInt64_of_isInt64 hs.rdev]
  refine (bind_blank hs.dev).trans <| (bind_blank hs.ino).trans <| (bind_blank hs.mode).trans <|
    (bind_blank hs.nlink).trans <| (bind_blank hs.uid).trans <| (bind_blank hs.gid).trans <|
    (bind_blank hs.rdev).trans <| (bind_blank hs.size).trans <|
    (bind_blank (isInt64_ite isInt64_zero hs.blksize)).trans <|
    (bind_blank (isInt64_ite isInt64_zero hs.blocks)).trans <| (bind_blank hs.atime).trans <|
    (bind_blank hs.mtime).trans ?_
  simp only [fromBase64Checked_blank hs.ctime, Option.bind_eq_bind, Option.bind_some]
  exact decodeFlags_encoded _ (isInt64_ite hattr isInt64_zero) hlevel

theorem zero_notMem_encodeStat (win32 : Bool) (s : Stat) (winattr compression : Int) :
    0 ∉ encodeStat win32 s winattr compression := by
  have hnumber : ∀ v : Int, 0 ∉ toBase64 v := fun v h => (mem_toBase64 h).1 rfl
  simp only [encodeStat, List.mem_append, List.mem_cons, hnumber, or_false, false_or]
  decide

/-- The conversions leave the values that the fields can have as they are. -/
theorem plug_encoded {s : Stat} (h : s.InRange) (win32 : Bool) :
    plug (s.encoded win32) = s.encoded win32 := by
  simp only [plug, Stat.encoded, Int.emod_eq_of_lt h.dev.1 h.dev.2,
    Int.emod_eq_of_lt h.ino.1 h.ino.2, Int.emod_eq_of_lt h.mode.1 h.mode.2,
    Int.emod_eq_of_lt h.nlink.1 h.nlink.2, Int.emod_eq_of_lt h.uid.1 h.uid.2,
    Int.emod_eq_of_lt h.gid.1 h.gid.2, Int.emod_eq_of_lt h.rdev.1 h.rdev.2]

/-- There is a string at `p`. -/
def StringAt (mem : Memory) (p : Nat) (text : Bytes) : Prop :=
  0 ∉ text ∧ Holds mem p (text ++ [0])

/-- **A record is read back from memory**, and a number takes as many characters as `to_base64`
says, and the NUL. -/
theorem encodeStatAt_decodes {s : Stat} (hs : s.Fits) (win32 : Bool) (winattr compression : Int)
    (hattr : IsInt64 winattr) (hlevel : -1 ≤ compression ∧ compression ≤ 9) :
    (∀ (mem : Memory) (buf : Nat),
      ∃ text, StringAt (encodeStatAt win32 mem buf s winattr compression) buf text
        ∧ ChangedIn mem (encodeStatAt win32 mem buf s winattr compression) buf
          (buf + text.length + 1)
        ∧ decodeStatChecked (some text)
          = some { vals := s.encoded win32, winattr := some (if win32 then winattr else 0),
                   compression := compression }
        ∧ (s.InRange → plug (s.encoded win32) = s.encoded win32))
      ∧ ∀ (mem : Memory) (p : Nat) (value : Int), IsInt64 value →
        ∃ text, StringAt (toBase64At mem p value).1 p text
          ∧ (toBase64At mem p value).2 = text.length
          ∧ ChangedIn mem (toBase64At mem p value).1 p (p + text.length + 1) := by
  constructor
  · intro mem buf
    have hcompression : IsInt64 compression := by
      unfold IsInt64
      omega
    obtain ⟨hholds, hchanged⟩ := encodeStatAt_spec hs win32 hattr hcompression mem buf
    exact ⟨_, ⟨zero_notMem_encodeStat win32 s winattr compression, hholds⟩, hchanged,
      decodeStatChecked_encodeStat hs win32 hattr (by omega), fun h => plug_encoded h win32⟩
  · intro mem p value hvalue
    obtain ⟨hlen, hholds, hchanged⟩ := toBase64At_spec hvalue.1 hvalue.2 mem p
    exact ⟨_, ⟨fun h => (mem_toBase64 h).1 rfl, hholds⟩, hlen, hchanged⟩

/-- A file from before the epoch. -/
def oldFile : Stat := { mode := 33188, nlink := 1, size := 5, mtime := -1 }

theorem oldFile_decodes :
    ∃ text, StringAt (encodeStatAt false (fun _ => 255) 100 oldFile 0 9) 100 text
      ∧ decodeStatChecked (some text)
        = some { vals := oldFile, winattr := some 0, compression := some 9 } := by
  have hfits : oldFile.Fits :=
    ⟨by decide, by decide, by decide, by decide, by decide, by decide, by decide, by decide,
      by decide, by decide, by decide, by decide, by decide⟩
  obtain ⟨text, htext, -, hdecodes, -⟩ :=
    (encodeStatAt_decodes hfits false 0 9 (by decide) (by decide)).1 (fun _ => 255) 100
  exact ⟨text, htext, hdecodes⟩

end Burp.Store
