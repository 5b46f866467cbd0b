/-
  Burp.Text.Decimal — decimal numbers in texts of bytes.

  What `%lu` and `%li` print, and the value of the digits that a text begins with.

  Main results:
    * `leadingValue_decimal` — a number that is followed by no digit is read back.
    * `digitsValue_take_decimal` — the first digits of a number are a quotient of it.
-/
import Mathlib.Data.List.TakeWhile
import Mathlib.Tactic

namespace Burp.Text

/-! ## §1. Digits. -/

/-- `isdigit`. -/
def isDigit (c : UInt8) : Bool := decide (48 ≤ c ∧ c ≤ 57)

/-- The digit of a number below ten. -/
def digit (n : Nat) : UInt8 := UInt8.ofNat (48 + n)

/-- `%lu`. -/
def decimal (n : Nat) : List UInt8 := (Nat.toDigits 10 n).map fun c => UInt8.ofNat c.toNat

/-- `%0wlu`. -/
def decimalPad (w n : Nat) : List UInt8 :=
  List.replicate (w - (decimal n).length) 48 ++ decimal n

/-- `%li`. -/
def decimalInt (z : Int) : List UInt8 :=
  if z < 0 then 45 :: decimal z.natAbs else decimal z.natAbs

/-- The value of a text of digits. -/
def digitsValue (b : List UInt8) : Nat := b.foldl (fun n c => 10 * n + (c.toNat - 48)) 0

/-- The value of the digits at the beginning of a text. -/
def leadingValue (b : List UInt8) : Nat := digitsValue (b.takeWhile isDigit)

theorem digit_toNat {n : Nat} (h : n < 10) : (digit n).toNat = 48 + n := by
  unfold digit
  rw [UInt8.toNat_ofNat']
  omega

theorem isDigit_iff {c : UInt8} : isDigit c = true ↔ 48 ≤ c.toNat ∧ c.toNat ≤ 57 := by
  unfold isDigit
  rw [decide_eq_true_eq]
  exact Iff.rfl

theorem isDigit_digit {n : Nat} (h : n < 10) : isDigit (digit n) = true := by
  rw [isDigit_iff, digit_toNat h]
  omega

/-- The last digit of a number, and the ones before it. -/
theorem decimal_eq (n : Nat) :
    decimal n = if n < 10 then [digit n] else decimal (n / 10) ++ [digit (n % 10)] := by
  have hdigit : ∀ m, m < 10 → UInt8.ofNat m.digitChar.toNat = digit m := by
    intro m hm
    rw [Nat.toNat_digitChar_of_lt_ten hm]
    rfl
  unfold decimal
  rw [Nat.toDigits_eq_if (by decide)]
  split_ifs with h
  · rw [List.map_singleton, hdigit n h]
  · rw [List.map_append, List.map_singleton, hdigit (n % 10) (Nat.mod_lt n (by decide))]

theorem decimal_ne_nil (n : Nat) : decimal n ≠ [] := by
  rw [decimal_eq]
  split_ifs
  · exact List.cons_ne_nil _ _
  · exact List.append_ne_nil_of_right_ne_nil _ (List.cons_ne_nil _ _)

theorem isDigit_of_mem_decimal {n : Nat} {c : UInt8} (h : c ∈ decimal n) : isDigit c = true := by
  induction n using Nat.strong_induction_on with
  | _ n ih =>
      rw [decimal_eq] at h
      split_ifs at h with hlt
      · rw [List.mem_singleton.mp h]
        exact isDigit_digit hlt
      · rcases List.mem_append.mp h with hinit | hlast
        · exact ih (n / 10) (by omega) hinit
        · rw [List.mem_singleton.mp hlast]
          exact isDigit_digit (Nat.mod_lt n (by decide))

/-! ## §2. Reading numbers back. -/

theorem digitsValue_append_singleton (b : List UInt8) (c : UInt8) :
    digitsValue (b ++ [c]) = 10 * digitsValue b + (c.toNat - 48) := by
  unfold digitsValue
  rw [List.foldl_append]
  rfl

theorem digitsValue_decimal (n : Nat) : digitsValue (decimal n) = n := by
  induction n using Nat.strong_induction_on with
  | _ n ih =>
      rw [decimal_eq]
      split_ifs with hlt
      · show 10 * 0 + ((digit n).toNat - 48) = n
        rw [digit_toNat hlt]
        omega
      · rw [digitsValue_append_singleton, ih (n / 10) (by omega),
          digit_toNat (Nat.mod_lt n (by decide))]
        omega

/-- The first digits of a number are its quotient by a power of ten. -/
theorem digitsValue_take_decimal (n k : Nat) :
    digitsValue ((decimal n).take k) = n / 10 ^ ((decimal n).length - k) := by
  induction n using Nat.strong_induction_on generalizing k with
  | _ n ih =>
      by_cases hk : (decimal n).length ≤ k
      · rw [List.take_of_length_le hk, digitsValue_decimal, Nat.sub_eq_zero_of_le hk, pow_zero,
          Nat.div_one]
      · by_cases hlt : n < 10
        · -- one digit, of which none is taken
          have hone : decimal n = [digit n] := by rw [decimal_eq, if_pos hlt]
          rw [hone] at hk ⊢
          obtain rfl : k = 0 := by
            rw [List.length_singleton] at hk
            omega
          show 0 = n / 10 ^ 1
          omega
        · have hmore : decimal n = decimal (n / 10) ++ [digit (n % 10)] := by
            rw [decimal_eq, if_neg hlt]
          rw [hmore, List.length_append, List.length_singleton] at hk ⊢
          rw [List.take_append_of_le_length (by omega), ih (n / 10) (by omega) k,
            Nat.div_div_eq_div_mul, ← pow_succ']
          congr 2
          omega

/-- **Numbers are read back** where no digit follows. -/
theorem leadingValue_decimal (n : Nat) {rest : List UInt8}
    (hrest : ∀ c, rest.head? = some c → isDigit c = false) :
    leadingValue (decimal n ++ rest) = n := by
  unfold leadingValue
  rw [List.takeWhile_append_of_pos (fun c hc => isDigit_of_mem_decimal hc)]
  have hnil : rest.takeWhile isDigit = [] := by
    cases rest with
    | nil => rfl
    | cons c cs =>
        rw [List.takeWhile_cons, hrest c rfl]
        rfl
  rw [hnil, List.append_nil, digitsValue_decimal]

theorem leadingValue_digits {b : List UInt8} (h : ∀ c ∈ b, isDigit c = true) :
    leadingValue b = digitsValue b := by
  unfold leadingValue
  rw [List.takeWhile_eq_self_iff.mpr h]

theorem decimal_length_le {n k : Nat} (hk : 0 < k) : (decimal n).length ≤ k ↔ n < 10 ^ k := by
  unfold decimal
  rw [List.length_map]
  exact Nat.length_toDigits_le_iff (by decide) hk

end Burp.Text
