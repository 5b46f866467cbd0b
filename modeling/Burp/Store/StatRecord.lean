/-
  Burp.Store.StatRecord — reading a stat record undoes writing it.

  `encode_stat` writes the fields of a `struct stat` as numbers in base 64, the most
  significant digit first and a minus sign in front of a negative one, with a blank between
  two fields.  The fields of 64 bits without a sign go through `int64_t` on the way.

  Main results:
    * `fromBase64_toBase64` — every `int64_t` is read back.
    * `decodeStat_encodeStat` — so is every record.
-/
import Burp.Store.Sbuf

namespace Burp.Store

open FileSystem

/-! ## §1. Numbers. -/

/-- A digit is read as its value, and is none of the characters that end a number. -/
theorem base64Digit_spec :
    ∀ n : Fin 64, base64Map (base64Digit n) = n ∧ base64Digit n ≠ 0 ∧ base64Digit n ≠ 32
      ∧ base64Digit n ≠ 45 := by
  decide

theorem base64Digits_ne_nil (fuel n : Nat) : base64Digits fuel n ≠ [] := by
  cases fuel with
  | zero => simp [base64Digits]
  | succ fuel =>
      unfold base64Digits
      split <;> simp

theorem mem_base64Digits {c : UInt8} :
    ∀ {fuel n : Nat}, c ∈ base64Digits fuel n → ∃ d : Fin 64, c = base64Digit d := by
  intro fuel
  induction fuel with
  | zero =>
      intro n h
      rw [base64Digits, List.mem_singleton] at h
      exact ⟨⟨n % 64, by omega⟩, h⟩
  | succ fuel ih =>
      intro n h
      unfold base64Digits at h
      split at h
      next hn =>
        rw [List.mem_singleton] at h
        exact ⟨⟨n, hn⟩, h⟩
      next hn =>
        rcases List.mem_append.mp h with h | h
        · exact ih h
        · rw [List.mem_singleton] at h
          exact ⟨⟨n % 64, by omega⟩, h⟩

/-- The loop of `from_base64` over the digits of a number. -/
theorem foldl_base64Digits :
    ∀ (fuel n : Nat), n < 64 ^ (fuel + 1) → n < 2 ^ 64 →
      (base64Digits fuel n).foldl (fun v c => (v * 64 + base64Map c) % 2 ^ 64) 0 = n := by
  intro fuel
  induction fuel with
  | zero =>
      intro n hn h64
      have hmod : n % 64 = n := Nat.mod_eq_of_lt (by simpa using hn)
      have hdigit := (base64Digit_spec ⟨n, by simpa using hn⟩).1
      simp only [base64Digits, List.foldl_cons, List.foldl_nil, hmod, Nat.zero_mul, Nat.zero_add]
      rw [hdigit]
      exact Nat.mod_eq_of_lt h64
  | succ fuel ih =>
      intro n hn h64
      unfold base64Digits
      split
      next hlt =>
        have hdigit := (base64Digit_spec ⟨n, hlt⟩).1
        simp only [List.foldl_cons, List.foldl_nil, Nat.zero_mul, Nat.zero_add]
        rw [hdigit]
        exact Nat.mod_eq_of_lt h64
      next hge =>
        have hdiv : n / 64 < 64 ^ (fuel + 1) := by
          rw [Nat.div_lt_iff_lt_mul (by omega)]
          rwa [pow_succ] at hn
        have hdigit := (base64Digit_spec ⟨n % 64, by omega⟩).1
        have hmod : n / 64 * 64 + n % 64 = n := by omega
        rw [List.foldl_append, ih (n / 64) hdiv (by omega)]
        simp only [List.foldl_cons, List.foldl_nil]
        rw [hdigit]
        show (n / 64 * 64 + n % 64) % 2 ^ 64 = n
        rw [hmod]
        exact Nat.mod_eq_of_lt h64

/-- What ends a number. -/
def NumberEnd (b : Bytes) : Prop := b = [] ∨ ∃ r, b = 32 :: r

theorem takeWhile_base64Digits (fuel n : Nat) {rest : Bytes} (h : NumberEnd rest) :
    (base64Digits fuel n ++ rest).takeWhile (fun c => decide (c ≠ 0 ∧ c ≠ 32))
      = base64Digits fuel n := by
  have hall : ∀ c ∈ base64Digits fuel n, decide (c ≠ 0 ∧ c ≠ 32) = true := by
    intro c hc
    obtain ⟨d, rfl⟩ := mem_base64Digits hc
    have := base64Digit_spec d
    simp [this.2.1, this.2.2.1]
  rw [List.takeWhile_append_of_pos hall]
  rcases h with rfl | ⟨r, rfl⟩ <;> simp

theorem drop_base64Digits (fuel n : Nat) (rest : Bytes) :
    (base64Digits fuel n ++ rest).drop (base64Digits fuel n).length = rest :=
  List.drop_left

/-- A number without a minus sign does not begin with one. -/
theorem fromBase64_digits {n : Nat} (hn : n < 2 ^ 64) {rest : Bytes} (h : NumberEnd rest) :
    fromBase64 (base64Digits 10 n ++ rest)
      = (if n < 2 ^ 63 then (n : Int) else (n : Int) - 2 ^ 64, rest) := by
  obtain ⟨c, ds, hds⟩ := List.exists_cons_of_ne_nil (base64Digits_ne_nil 10 n)
  have hc : c ≠ 45 := by
    have hmem : c ∈ base64Digits 10 n := by rw [hds]; exact List.mem_cons_self
    obtain ⟨d, rfl⟩ := mem_base64Digits hmem
    exact (base64Digit_spec d).2.2.2
  have hsign : ∀ b : Bytes, minusSign (c :: b) = (false, c :: b) := by
    intro b
    unfold minusSign
    split
    next heq => exact absurd (List.cons.inj heq).1 hc
    next => rfl
  have hfold := foldl_base64Digits 10 n (by omega) hn
  have hwhile := takeWhile_base64Digits 10 n h
  have hdrop := drop_base64Digits 10 n rest
  rw [hds, List.cons_append] at hwhile hdrop
  rw [hds] at hfold
  rw [hds, List.cons_append]
  unfold fromBase64
  simp only [hsign, hwhile, hfold, hdrop, Bool.false_eq_true, if_false]

/-- **A number is read back.** -/
theorem fromBase64_toBase64 {v : Int} (hlo : -2 ^ 63 ≤ v) (hhi : v < 2 ^ 63) {rest : Bytes}
    (h : NumberEnd rest) : fromBase64 (toBase64 v ++ rest) = (v, rest) := by
  unfold toBase64
  by_cases hv : v < 0
  · have hn : (-v).toNat ≤ 2 ^ 63 := by omega
    have hfold := foldl_base64Digits 10 (-v).toNat (by omega) (by omega)
    have hwhile := takeWhile_base64Digits 10 (-v).toNat h
    rw [if_pos hv, List.cons_append]
    unfold fromBase64
    simp only [minusSign, hwhile, hfold, drop_base64Digits, if_true, toInt64]
    congr 1
    split_ifs <;> omega
  · rw [if_neg hv, fromBase64_digits (by omega) h, if_pos (by omega)]
    congr 1
    omega

/-! ## §2. Records. -/

/-- The values that the fields of a `struct stat` can have. -/
structure Stat.InRange (s : Stat) : Prop where
  dev : 0 ≤ s.dev ∧ s.dev < 2 ^ 64
  ino : 0 ≤ s.ino ∧ s.ino < 2 ^ 64
  mode : 0 ≤ s.mode ∧ s.mode < 2 ^ 32
  nlink : 0 ≤ s.nlink ∧ s.nlink < 2 ^ 64
  uid : 0 ≤ s.uid ∧ s.uid < 2 ^ 32
  gid : 0 ≤ s.gid ∧ s.gid < 2 ^ 32
  rdev : 0 ≤ s.rdev ∧ s.rdev < 2 ^ 64
  size : -2 ^ 63 ≤ s.size ∧ s.size < 2 ^ 63
  blksize : -2 ^ 63 ≤ s.blksize ∧ s.blksize < 2 ^ 63
  blocks : -2 ^ 63 ≤ s.blocks ∧ s.blocks < 2 ^ 63
  atime : -2 ^ 63 ≤ s.atime ∧ s.atime < 2 ^ 63
  mtime : -2 ^ 63 ≤ s.mtime ∧ s.mtime < 2 ^ 63
  ctime : -2 ^ 63 ≤ s.ctime ∧ s.ctime < 2 ^ 63

/-- `buf` is a stat record as `encode_stat` writes it, of a stat, attributes and a
compression level. -/
structure RecordOf (buf : Bytes) (s : Stat) (winattr compression : Int) : Prop where
  stat : s.InRange
  attributes : -2 ^ 63 ≤ winattr ∧ winattr < 2 ^ 63
  level : -2 ^ 31 ≤ compression ∧ compression < 2 ^ 31
  written : ∃ win32, buf = encodeStat win32 s winattr compression
    ∧ (if win32 then s.blksize = 0 ∧ s.blocks = 0 else winattr = 0)

theorem statField_toBase64 {v : Int} (h : -2 ^ 63 ≤ v ∧ v < 2 ^ 63) (rest : Bytes) :
    statField (toBase64 v ++ 32 :: rest) = (v, rest) := by
  unfold statField
  rw [fromBase64_toBase64 h.1 h.2 (Or.inr ⟨rest, rfl⟩)]
  rfl

/-- A field of 64 bits without a sign comes back from `int64_t`. -/
theorem toInt64_spec {v : Int} (h : 0 ≤ v ∧ v < 2 ^ 64) :
    (-2 ^ 63 ≤ toInt64 v ∧ toInt64 v < 2 ^ 63) ∧ toInt64 v % 2 ^ 64 = v := by
  unfold toInt64
  split <;> omega

/-- What the tests in front of the last fields see. -/
theorem hasField_blank (rest : Bytes) : hasField (32 :: rest) = true := rfl

theorem toBase64_ne_nil (v : Int) : toBase64 v ≠ [] := by
  unfold toBase64
  split
  · simp
  · exact base64Digits_ne_nil _ _

theorem decodeLast_encoded {winattr compression : Int}
    (hattr : -2 ^ 63 ≤ winattr ∧ winattr < 2 ^ 63)
    (hlevel : -2 ^ 31 ≤ compression ∧ compression < 2 ^ 31) (sb : Sbuf) (s : Stat) :
    decodeLast sb s (32 :: (toBase64 0 ++ 32 :: (toBase64 winattr ++ 32 :: toBase64 compression)))
      = (s, winattr, compression) := by
  have hflags : ∀ rest, fromBase64 (toBase64 0 ++ 32 :: rest) = (0, 32 :: rest) := fun rest =>
    fromBase64_toBase64 (by omega) (by omega) (Or.inr ⟨rest, rfl⟩)
  have hwin : ∀ rest, fromBase64 (toBase64 winattr ++ 32 :: rest) = (winattr, 32 :: rest) :=
    fun rest => fromBase64_toBase64 hattr.1 hattr.2 (Or.inr ⟨rest, rfl⟩)
  have hend : fromBase64 (toBase64 compression) = (compression, []) := by
    have := fromBase64_toBase64 (v := compression) (by omega) (by omega) (Or.inl rfl)
    rwa [List.append_nil] at this
  have hlast : (if compression % 2 ^ 32 < 2 ^ 31 then compression % 2 ^ 32
      else compression % 2 ^ 32 - 2 ^ 32) = compression := by
    split <;> omega
  have hne : toBase64 0 ++ 32 :: (toBase64 winattr ++ 32 :: toBase64 compression) ≠ [] := by
    simp
  unfold decodeLast
  simp only [hasField_blank, List.drop_succ_cons, List.drop_zero, hne, and_false, if_false,
    if_true, hflags, hwin, hend, toBase64_ne_nil, hlast]

/-- Thirteen fields, whatever their texts are. -/
theorem decodeStat_fields {x1 x2 x3 x4 x5 x6 x7 x8 x9 x10 x11 x12 x13 : Bytes}
    {v1 v2 v3 v4 v5 v6 v7 v8 v9 v10 v11 v12 v13 : Int}
    (h1 : ∀ r, statField (x1 ++ 32 :: r) = (v1, r)) (h2 : ∀ r, statField (x2 ++ 32 :: r) = (v2, r))
    (h3 : ∀ r, statField (x3 ++ 32 :: r) = (v3, r)) (h4 : ∀ r, statField (x4 ++ 32 :: r) = (v4, r))
    (h5 : ∀ r, statField (x5 ++ 32 :: r) = (v5, r)) (h6 : ∀ r, statField (x6 ++ 32 :: r) = (v6, r))
    (h7 : ∀ r, statField (x7 ++ 32 :: r) = (v7, r)) (h8 : ∀ r, statField (x8 ++ 32 :: r) = (v8, r))
    (h9 : ∀ r, statField (x9 ++ 32 :: r) = (v9, r))
    (h10 : ∀ r, statField (x10 ++ 32 :: r) = (v10, r))
    (h11 : ∀ r, statField (x11 ++ 32 :: r) = (v11, r))
    (h12 : ∀ r, statField (x12 ++ 32 :: r) = (v12, r))
    (h13 : ∀ r, fromBase64 (x13 ++ 32 :: r) = (v13, 32 :: r)) (sb : Sbuf) (rest : Bytes) :
    decodeStat sb (x1 ++ 32 :: (x2 ++ 32 :: (x3 ++ 32 :: (x4 ++ 32 :: (x5 ++ 32 :: (x6 ++ 32 ::
        (x7 ++ 32 :: (x8 ++ 32 :: (x9 ++ 32 :: (x10 ++ 32 :: (x11 ++ 32 :: (x12 ++ 32 ::
          (x13 ++ 32 :: rest)))))))))))))
      = decodeLast sb
        { dev := v1 % 2 ^ 64, ino := v2 % 2 ^ 64, mode := v3 % 2 ^ 32, nlink := v4 % 2 ^ 64,
          uid := v5 % 2 ^ 32, gid := v6 % 2 ^ 32, rdev := v7 % 2 ^ 64, size := v8,
          blksize := v9, blocks := v10, atime := v11, mtime := v12, ctime := v13 }
        (32 :: rest) := by
  unfold decodeStat
  simp only [h1, h2, h3, h4, h5, h6, h7, h8, h9, h10, h11, h12, h13]

/-- **A record is read back.** -/
theorem decodeStat_encodeStat {buf : Bytes} {s : Stat} {winattr compression : Int}
    (h : RecordOf buf s winattr compression) (sb : Sbuf) :
    decodeStat sb buf = (s, winattr, compression) := by
  obtain ⟨win32, rfl, hwin⟩ := h.written
  have hblksize : (if win32 then 0 else s.blksize) = s.blksize := by
    cases win32 <;> simp_all
  have hblocks : (if win32 then 0 else s.blocks) = s.blocks := by
    cases win32 <;> simp_all
  have hattr : (if win32 then winattr else 0) = winattr := by
    cases win32 <;> simp_all
  have h32 : ∀ {v : Int}, 0 ≤ v ∧ v < 2 ^ 32 → -2 ^ 63 ≤ v ∧ v < 2 ^ 63 := by
    intro v hv
    omega
  have hctime : ∀ r, fromBase64 (toBase64 s.ctime ++ 32 :: r) = (s.ctime, 32 :: r) :=
    fun r => fromBase64_toBase64 h.stat.ctime.1 h.stat.ctime.2 (Or.inr ⟨r, rfl⟩)
  rw [encodeStat, hblksize, hblocks, hattr,
    decodeStat_fields (statField_toBase64 (toInt64_spec h.stat.dev).1)
      (statField_toBase64 (toInt64_spec h.stat.ino).1) (statField_toBase64 (h32 h.stat.mode))
      (statField_toBase64 (toInt64_spec h.stat.nlink).1) (statField_toBase64 (h32 h.stat.uid))
      (statField_toBase64 (h32 h.stat.gid)) (statField_toBase64 (toInt64_spec h.stat.rdev).1)
      (statField_toBase64 h.stat.size) (statField_toBase64 h.stat.blksize)
      (statField_toBase64 h.stat.blocks) (statField_toBase64 h.stat.atime)
      (statField_toBase64 h.stat.mtime) hctime,
    decodeLast_encoded h.attributes h.level,
    (toInt64_spec h.stat.dev).2, (toInt64_spec h.stat.ino).2, (toInt64_spec h.stat.nlink).2,
    (toInt64_spec h.stat.rdev).2, Int.emod_eq_of_lt h.stat.mode.1 h.stat.mode.2,
    Int.emod_eq_of_lt h.stat.uid.1 h.stat.uid.2, Int.emod_eq_of_lt h.stat.gid.1 h.stat.gid.2]

end Burp.Store
