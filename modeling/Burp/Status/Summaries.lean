/-
  Burp.Status.Summaries — the backups of a client that is not running.

  A status client that asks for a client which is not running gets a line with the backups of
  that client, the newest first.  Each backup goes through a buffer of 16 bytes before it is
  appended to the line, and through one of 32 bytes when it is read.

  Main results:
    * `seen_iff` — all backups are read back exactly when none of them is cut in a buffer.
-/
import Burp.Status.Counters

namespace Burp.Status

open FileSystem Burp.Text Burp.Backups

/-! ## §1. The line. -/

/-- What a backup has in the line: its index and its timestamp. -/
structure Listed where
  index : UInt64
  timestamp : Bytes

/-- The states of a client that is not running. -/
inductive Stopped
  | idle | clientCrashed | serverCrashed
  deriving DecidableEq

def Stopped.toByte : Stopped → UInt8
  | .idle => 105
  | .clientCrashed => 99
  | .serverCrashed => 67

/-- The memory that `send_summaries_to_client` allocates. -/
def allocated (name : Bytes) (a : Nat) : Nat :=
  (name.length + 1) + (a * 2 + 1) + (a * 16 + 1)

section Line

variable (timestampToLong : Bytes → Int64) (dateText : Int → Bytes)

/-- The time of a backup. -/
def time (b : Listed) : Int := (timestampToLong b.timestamp).toInt

/-- Index and time. -/
def entryText (b : Listed) : Bytes :=
  decimal b.index.toNat ++ 32 :: decimalInt (time timestampToLong b)

/-- `tmp`, of 16 bytes. -/
def entry (b : Listed) : Bytes := (9 :: entryText timestampToLong b).take 15

/-- The line of a client with the backups `arr`, the oldest first. -/
def backupsLine (name : Bytes) (status : Stopped) (arr : List Listed) : Bytes :=
  (name ++ [9, counterVersion2, 9, status.toByte]).take (allocated name arr.length - 1)
    ++ (arr.reverse.flatMap (entry timestampToLong) ++ [10])

/-- `getdatestr`, over what `localtime` and `strftime` make of a time. -/
def getdatestr (t : Int) : Bytes := if t = 0 then never else dateText t

/-- A backup in the list of the status monitor. -/
def shownBackup (b : Listed) : Bytes :=
  decimalPad 7 b.index.toNat ++ 32 :: getdatestr dateText (time timestampToLong b)

/-- What the status monitor is meant to see: the line stays within its memory, and the list that
is read from it has all backups, the newest first. -/
structure Seen (name : Bytes) (status : Stopped) (arr : List Listed) : Prop where
  fits : (backupsLine timestampToLong name status arr).length + 1 ≤ allocated name arr.length
  backups : (strToCounters (getdatestr dateText)
      (backupsLine timestampToLong name status arr)).backups
    = arr.reverse.map (shownBackup timestampToLong dateText)

/-- No buffer cuts the backup.  With an index of thirteen digits, the time is cut off, which
does not matter if there is none. -/
structure Uncut (b : Listed) : Prop where
  tmp : (entryText timestampToLong b).length + 1 ≤ 15
    ∨ (decimal b.index.toNat).length = 13 ∧ time timestampToLong b = 0
  str : (shownBackup timestampToLong dateText b).length ≤ 31

/-- A time without its last digits is shown as another date. -/
def CutsShow (b : Listed) : Prop :=
  ∀ k, atol ((decimalInt (time timestampToLong b)).take k) ≠ time timestampToLong b →
    ¬ getdatestr dateText (time timestampToLong b)
      <+: getdatestr dateText (atol ((decimalInt (time timestampToLong b)).take k))

end Line

section Entries

variable {timestampToLong : Bytes → Int64} {dateText : Int → Bytes} {name : Bytes}
  {status : Stopped} {arr : List Listed} {b : Listed}

theorem entry_eq (b : Listed) :
    entry timestampToLong b = 9 :: (entryText timestampToLong b).take 14 := by
  unfold entry
  rw [List.take_succ_cons]

/-- **The memory is enough.** -/
theorem backupsLine_fits (harr : arr ≠ []) :
    (backupsLine timestampToLong name status arr).length + 1 ≤ allocated name arr.length := by
  have hpos : 0 < arr.length := List.length_pos_iff.mpr harr
  have hentries : ∀ l : List Listed,
      (l.flatMap (entry timestampToLong)).length ≤ 15 * l.length := by
    intro l
    induction l with
    | nil => exact Nat.zero_le _
    | cons c l ih =>
        rw [List.flatMap_cons, List.length_append, List.length_cons]
        have hentry : (entry timestampToLong c).length ≤ 15 := List.length_take_le _ _
        omega
  have hall := hentries arr.reverse
  rw [List.length_reverse] at hall
  unfold backupsLine
  rw [List.length_append, List.length_append, List.length_take, List.length_append]
  show min _ _ + (_ + 1) + 1 ≤ _
  simp only [List.length_cons, List.length_nil]
  unfold allocated
  omega

theorem backupsLine_eq (harr : arr ≠ []) :
    backupsLine timestampToLong name status arr
      = name ++ (([counterVersion2] :: [status.toByte]
          :: arr.reverse.map fun b => (entryText timestampToLong b).take 14).flatMap (9 :: ·)
        ++ [10]) := by
  have hpos : 0 < arr.length := List.length_pos_iff.mpr harr
  unfold backupsLine
  rw [List.take_of_length_le (by unfold allocated; simp; omega), List.flatMap_cons,
    List.flatMap_cons, List.flatMap_map]
  have hentry : entry timestampToLong
      = fun b => 9 :: (entryText timestampToLong b).take 14 := funext entry_eq
  rw [hentry]
  simp

theorem entryText_isSep {c : UInt8} (h : c ∈ entryText timestampToLong b) : isSep c = false := by
  unfold entryText at h
  rcases List.mem_append.mp h with h | h
  · exact decimal_isSep h
  · rcases List.mem_cons.mp h with rfl | h
    · rfl
    · exact decimalInt_isSep h

theorem entryText_ne_nil (b : Listed) : (entryText timestampToLong b).take 14 ≠ [] := by
  obtain ⟨c, cs, h, -⟩ := decimal_cons b.index.toNat
  unfold entryText
  rw [h, List.cons_append, List.take_succ_cons]
  exact List.cons_ne_nil _ _

/-- The tokens of the line. -/
theorem tokens_backupsLine (hname : Plain name) (harr : arr ≠ []) :
    tokens isSep (backupsLine timestampToLong name status arr)
      = [name].filter (fun w => !w.isEmpty) ++ ([counterVersion2] :: [status.toByte]
          :: arr.reverse.map fun b => (entryText timestampToLong b).take 14) := by
  have hwords : ∀ v ∈ ([counterVersion2] :: [status.toByte]
      :: arr.reverse.map fun b => (entryText timestampToLong b).take 14),
      v ≠ [] ∧ ∀ c ∈ v, isSep c = false := by
    intro v hv
    rcases List.mem_cons.mp hv with rfl | hv
    · exact ⟨List.cons_ne_nil _ _, List.forall_mem_singleton.mpr rfl⟩
    rcases List.mem_cons.mp hv with rfl | hv
    · exact ⟨List.cons_ne_nil _ _, List.forall_mem_singleton.mpr (by cases status <;> rfl)⟩
    · obtain ⟨b, -, rfl⟩ := List.mem_map.mp hv
      exact ⟨entryText_ne_nil b, fun c hc => entryText_isSep (List.mem_of_mem_take hc)⟩
  rw [backupsLine_eq harr, tokens_led _ (by decide) (by decide), ← List.singleton_append,
    List.filter_append]
  · congr 1
    rw [List.filter_eq_self]
    intro v hv
    simpa using (hwords v hv).1
  · intro v hv c hc
    rcases List.mem_cons.mp hv with rfl | hv
    · exact (hname c hc).2
    · exact (hwords v hv).2 c hc

/-- What is read from the line of a client with a name. -/
theorem read_backupsLine (hname : Plain name) (hne : name ≠ []) (harr : arr ≠ []) :
    (strToCounters (getdatestr dateText) (backupsLine timestampToLong name status arr)).backups
      = arr.reverse.map fun b =>
        getBackupStr (getdatestr dateText) ((entryText timestampToLong b).take 14) := by
  have hfilter : [name].filter (fun w => !w.isEmpty) = [name] := by
    rw [List.filter_eq_self]
    intro w hw
    rw [List.mem_singleton.mp hw]
    simpa using hne
  obtain ⟨b, bs, hbs⟩ := List.exists_cons_of_ne_nil (List.reverse_ne_nil_iff.mpr harr)
  unfold strToCounters
  rw [tokens_backupsLine hname harr, hfilter, hbs]
  show (parseFields _ (positions counterVersion2) ([status.toByte] :: _) _).backups = _
  rw [List.map_cons]
  cases status <;> simp [positions, parseFields, setField, isIdle, Stopped.toByte]

theorem read_nameless_backups (harr : arr ≠ []) :
    (strToCounters (getdatestr dateText) (backupsLine timestampToLong [] status arr)).backups
      = [] := by
  unfold strToCounters
  rw [tokens_backupsLine (fun c hc => by cases hc) harr]
  cases status <;> rfl

/-! ## §2. One backup. -/

/-- A number that has lost digits is smaller, unless there is nothing to lose. -/
theorem digits_cut {n k : Nat} (hk : k < (decimal n).length)
    (h : digitsValue ((decimal n).take k) = n) : n = 0 ∧ k = 0 := by
  rw [digitsValue_take_decimal] at h
  have hlt : 1 < 10 ^ ((decimal n).length - k) := Nat.one_lt_pow (by omega) (by decide)
  have hn : n = 0 := by
    by_contra hne
    have := Nat.div_lt_self (Nat.pos_of_ne_zero hne) hlt
    omega
  subst hn
  exact ⟨rfl, by have : (decimal 0).length = 1 := rfl; omega⟩

theorem digitsValue_take_le (n k : Nat) : digitsValue ((decimal n).take k) ≤ n := by
  rw [digitsValue_take_decimal]
  exact Nat.div_le_self _ _

theorem leadingValue_take_decimal (n k : Nat) :
    leadingValue ((decimal n).take k) = digitsValue ((decimal n).take k) :=
  leadingValue_digits fun _ hc => isDigit_of_mem_decimal (List.mem_of_mem_take hc)

theorem take_digits_head {n k : Nat} {c : UInt8} (hc : ((decimal n).take k).head? = some c) :
    isDigit c = true :=
  isDigit_of_mem_decimal (List.mem_of_mem_take (List.mem_of_mem_head? hc))

/-- **A time that has been cut is another one**, unless it is zero. -/
theorem atol_cut {z : Int64} {k : Nat} (hk : k < (decimalInt z.toInt).length)
    (h : atol ((decimalInt z.toInt).take k) = z.toInt) : z.toInt = 0 ∧ k = 0 := by
  have hlt := z.toInt_lt
  have hle := z.le_toInt
  unfold decimalInt at h hk
  split_ifs at h hk with hneg
  · cases k with
    | zero =>
        have hzero : (0 : Int) = z.toInt := h
        omega
    | succ k =>
        rw [List.take_succ_cons, atol_minus, leadingValue_take_decimal] at h
        rw [List.length_cons] at hk
        have hcutle := digitsValue_take_le z.toInt.natAbs k
        have hcut := @digits_cut z.toInt.natAbs k (by omega) (by omega)
        omega
  · rw [atol_digits (fun c hc => take_digits_head hc), leadingValue_take_decimal] at h
    have hcutle := digitsValue_take_le z.toInt.natAbs k
    have hcut := @digits_cut z.toInt.natAbs k hk (by omega)
    omega

theorem decimalPad_head (w n : Nat) :
    ∃ c cs, decimalPad w n = c :: cs ∧ isDigit c = true := by
  unfold decimalPad
  cases hw : w - (decimal n).length with
  | zero =>
      obtain ⟨c, cs, h, hdig⟩ := decimal_cons n
      exact ⟨c, cs, h, hdig⟩
  | succ m => exact ⟨48, _, rfl, by decide⟩

theorem decimalPad_length (w n : Nat) :
    (decimalPad w n).length = max w (decimal n).length := by
  unfold decimalPad
  rw [List.length_append, List.length_replicate]
  omega

/-- What an index and a time are shown as. -/
theorem getBackupStr_entry {date : Int → Bytes} (i : UInt64) (rest : Bytes) :
    getBackupStr date (decimal i.toNat ++ 32 :: rest)
      = (decimalPad 7 i.toNat ++ 32 :: date (atol rest)).take 31 := by
  have hblank : ∀ c ∈ decimal i.toNat, (decide (c ≠ 32)) = true := by
    intro c hc
    rw [decide_eq_true_eq]
    exact digit_ne (isDigit_of_mem_decimal hc) (by decide)
  have hdrop : ((decimal i.toNat ++ 32 :: rest).dropWhile (· ≠ 32)).drop 1 = rest := by
    rw [List.dropWhile_append_of_pos hblank, List.dropWhile_cons]
    rfl
  unfold getBackupStr
  rw [if_pos (by simp), hdrop, strtoul_decimal (UInt64.toNat_lt i)]
  intro c hc
  rw [← Option.some.inj hc]
  decide

theorem entryText_length : (entryText timestampToLong b).length
    = (decimal b.index.toNat).length + 1 + (decimalInt (time timestampToLong b)).length := by
  unfold entryText
  rw [List.length_append, List.length_cons]
  omega

/-- The entry is whole. -/
theorem getBackupStr_whole (hfull : (entryText timestampToLong b).length ≤ 14) :
    getBackupStr (getdatestr dateText) ((entryText timestampToLong b).take 14)
        = shownBackup timestampToLong dateText b
      ↔ Uncut timestampToLong dateText b := by
  have hlen : (entryText timestampToLong b).length
      = (decimal b.index.toNat).length + 1 + (decimalInt (time timestampToLong b)).length :=
    entryText_length
  have htime : atol (decimalInt (time timestampToLong b)) = time timestampToLong b :=
    atol_decimalInt_end _
  rw [List.take_of_length_le hfull]
  unfold entryText
  rw [getBackupStr_entry, htime]
  show (shownBackup timestampToLong dateText b).take 31 = _ ↔ _
  rw [List.take_eq_self_iff]
  exact ⟨fun h => ⟨Or.inl (by omega), h⟩, fun h => h.str⟩

/-- The index alone does not fit. -/
theorem getBackupStr_cut_index (hindex : 14 ≤ (decimal b.index.toNat).length) :
    getBackupStr (getdatestr dateText) ((entryText timestampToLong b).take 14)
      ≠ shownBackup timestampToLong dateText b := by
  have htake : (entryText timestampToLong b).take 14 = (decimal b.index.toNat).take 14 := by
    unfold entryText
    rw [List.take_append_of_le_length hindex]
  have hblank : ((decimal b.index.toNat).take 14).contains 32 = false := by
    rw [List.contains_eq_mem, decide_eq_false_iff_not]
    intro h
    exact digit_ne (isDigit_of_mem_decimal (List.mem_of_mem_take h)) (by decide) rfl
  have hnever : getBackupStr (getdatestr dateText) ((entryText timestampToLong b).take 14)
      = never := by
    unfold getBackupStr
    rw [htake, hblank, if_neg Bool.false_ne_true]
  rw [hnever]
  intro h
  obtain ⟨c, cs, hc, hdig⟩ := decimalPad_head 7 b.index.toNat
  unfold shownBackup at h
  rw [hc, List.cons_append] at h
  rw [← (List.cons.inj h).1] at hdig
  exact absurd hdig (by decide)

/-- The time is cut. -/
theorem take_entryText (hindex : (decimal b.index.toNat).length < 14) :
    (entryText timestampToLong b).take 14 = decimal b.index.toNat
      ++ 32 :: (decimalInt (time timestampToLong b)).take
        (13 - (decimal b.index.toNat).length) := by
  unfold entryText
  rw [List.take_append, List.take_of_length_le (by omega)]
  congr 1
  rw [show 14 - (decimal b.index.toNat).length
    = 13 - (decimal b.index.toNat).length + 1 by omega, List.take_succ_cons]

/-- A time that is shown as it is has the same number left of it. -/
theorem time_of_shown (hcuts : CutsShow timestampToLong dateText b) {k : Nat}
    (hindex : (decimal b.index.toNat).length < 14)
    (h : (decimalPad 7 b.index.toNat
        ++ 32 :: getdatestr dateText (atol ((decimalInt (time timestampToLong b)).take k))).take 31
      = shownBackup timestampToLong dateText b) :
    atol ((decimalInt (time timestampToLong b)).take k) = time timestampToLong b := by
  by_contra hne
  apply hcuts _ hne
  have hpad : (decimalPad 7 b.index.toNat).length ≤ 13 := by
    rw [decimalPad_length]
    omega
  unfold shownBackup at h
  rw [List.take_append, List.take_of_length_le (by omega), List.append_cancel_left_eq] at h
  rw [show 31 - (decimalPad 7 b.index.toNat).length
    = 30 - (decimalPad 7 b.index.toNat).length + 1 by omega, List.take_succ_cons] at h
  rw [← (List.cons.inj h).2]
  exact List.take_prefix _ _

/-- **One backup is shown as it is** exactly if no buffer cuts it. -/
theorem getBackupStr_eq_iff (hcuts : CutsShow timestampToLong dateText b) :
    getBackupStr (getdatestr dateText) ((entryText timestampToLong b).take 14)
        = shownBackup timestampToLong dateText b
      ↔ Uncut timestampToLong dateText b := by
  have hlen : (entryText timestampToLong b).length
      = (decimal b.index.toNat).length + 1 + (decimalInt (time timestampToLong b)).length :=
    entryText_length
  have htpos : 0 < (decimalInt (time timestampToLong b)).length :=
    List.length_pos_iff.mpr (decimalInt_ne_nil _)
  by_cases hfull : (entryText timestampToLong b).length ≤ 14
  · exact getBackupStr_whole hfull
  · by_cases hindex : 14 ≤ (decimal b.index.toNat).length
    · refine iff_of_false (getBackupStr_cut_index hindex) fun h => ?_
      rcases h.tmp with htmp | htmp <;> omega
    · rw [take_entryText (by omega), getBackupStr_entry]
      constructor
      · intro h
        have hstr : (shownBackup timestampToLong dateText b).length ≤ 31 := by
          rw [← h]
          exact List.length_take_le _ _
        -- the date that is shown is the one of the time that is left
        have hsame := time_of_shown hcuts (by omega) h
        have hcut := @atol_cut (timestampToLong b.timestamp) _
          (show _ < (decimalInt (time timestampToLong b)).length by omega) hsame
        exact ⟨Or.inr ⟨by omega, hcut.1⟩, hstr⟩
      · intro h
        rcases h.tmp with htmp | htmp
        · omega
        · rw [htmp.1, htmp.2, Nat.sub_self, List.take_zero]
          show (decimalPad 7 b.index.toNat ++ 32 :: getdatestr dateText 0).take 31 = _
          have hshown : decimalPad 7 b.index.toNat ++ 32 :: getdatestr dateText 0
              = shownBackup timestampToLong dateText b := by
            unfold shownBackup
            rw [htmp.2]
          rw [hshown, List.take_of_length_le h.str]

/-! ## §3. All backups. -/

/-- **The status monitor sees every backup** exactly if the client has a name and no backup is
cut. -/
theorem seen_iff (hname : Plain name) (harr : arr ≠ [])
    (hcuts : ∀ b ∈ arr, CutsShow timestampToLong dateText b) :
    Seen timestampToLong dateText name status arr
      ↔ name ≠ [] ∧ ∀ b ∈ arr, Uncut timestampToLong dateText b := by
  constructor
  · intro h
    have hne : name ≠ [] := by
      rintro rfl
      have hnil := h.backups
      rw [read_nameless_backups harr] at hnil
      exact harr (List.reverse_eq_nil_iff.mp (List.map_eq_nil_iff.mp hnil.symm))
    refine ⟨hne, fun b hb => ?_⟩
    have hmap := h.backups
    rw [read_backupsLine hname hne harr] at hmap
    exact (getBackupStr_eq_iff (hcuts b hb)).mp
      (List.map_inj_left.mp hmap b (List.mem_reverse.mpr hb))
  · intro h
    refine ⟨backupsLine_fits harr, ?_⟩
    rw [read_backupsLine hname h.1 harr]
    apply List.map_congr_left
    intro b hb
    have hb' := List.mem_reverse.mp hb
    exact (getBackupStr_eq_iff (hcuts b hb')).mpr (h.2 b hb')

end Entries

/-- Two dates of one time zone, 2023-11-14 22:13:20 and 1975-05-22 14:13:20. -/
def lookedUp (t : Int) : Bytes :=
  if t = 1700000000 then
    [50, 48, 50, 51, 45, 49, 49, 45, 49, 52, 32, 50, 50, 58, 49, 51, 58, 50, 48]
  else if t = 170000000 then
    [49, 57, 55, 53, 45, 48, 53, 45, 50, 50, 32, 49, 52, 58, 49, 51, 58, 50, 48]
  else decimalInt t

/-- A backup of that time. -/
def backupAt (index : UInt64) : Listed := ⟨index, [50, 48, 50, 51]⟩

/-- `timestamp_to_long` there. -/
def atThatTime (_ : Bytes) : Int64 := 1700000000

/-- The backup with the index 1000 is shown with the date of another time. -/
theorem thousandth_not_seen :
    ¬ ∀ (timestampToLong : Bytes → Int64) (dateText : Int → Bytes) (name : Bytes)
      (status : Stopped) (arr : List Listed), Plain name → arr ≠ [] →
      Seen timestampToLong dateText name status arr := by
  intro h
  have hname : Plain [97] := by
    intro c hc
    rw [List.mem_singleton.mp hc]
    decide
  have hseen := (h atThatTime lookedUp [97] .idle [backupAt 1000] hname (by decide)).backups
  exact absurd hseen (by decide)

theorem seen_iff_seventh :
    Seen atThatTime lookedUp [97] .idle [backupAt 7]
      ↔ ([97] : Bytes) ≠ [] ∧ ∀ b ∈ [backupAt 7], Uncut atThatTime lookedUp b := by
  apply seen_iff
  · intro c hc
    rw [List.mem_singleton.mp hc]
    decide
  · exact List.cons_ne_nil _ _
  · intro b hb
    rw [List.mem_singleton.mp hb]
    intro k hk
    have hall : ∀ j, j < 10 → ¬ getdatestr lookedUp (time atThatTime (backupAt 7))
        <+: getdatestr lookedUp
          (atol ((decimalInt (time atThatTime (backupAt 7))).take j)) := by
      decide
    apply hall
    by_contra hlong
    apply hk
    rw [List.take_of_length_le]
    · decide
    · exact le_trans (show _ ≤ 10 by decide) (Nat.le_of_not_lt hlong)

end Burp.Status
