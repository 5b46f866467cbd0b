/-
  Burp.Conf.Pairs — a line of a configuration file (conf.c).

  A line is a field, an equals sign and a value.  Blanks around both are dropped, and after
  that one pair of quotes around the value.  There are no escapes, so a value that has blanks
  at its ends or quotes around it can be written, but not as it is.

  Main results:
    * `configGetPair_line` — the field and the value of a line that was put together.
    * `value_eq_self_iff` — a value stands for itself if it has no blanks at its ends and no
      pair of quotes around it.
    * `length_value_le` — what a text is read as is never longer.
-/
import Burp.Backups.Delete
import Mathlib.Data.List.DropRight

namespace Burp.Conf

open FileSystem
open Burp.Backups.OnDisk (isSpace)

/-! ## §1. The code. -/

/-- The quotes are taken from around a value. -/
def unquote (v : Bytes) : Bytes :=
  if v.head? = v.getLast? ∧ (v.head? = some 39 ∨ v.head? = some 34) then v.tail.dropLast else v

/-- What the text after the equals sign is read as. -/
def value (b : Bytes) : Bytes := unquote ((b.dropWhile isSpace).rdropWhile isSpace)

/-- `config_get_pair`: an error, no pair, or a field and a value. -/
def configGetPair (buf : Bytes) : Option (Option (Bytes × Bytes)) :=
  let cp := buf.dropWhile isSpace
  if cp = [] ∨ cp.head? = some 35 then some none
  else if 61 ∉ cp then none
  else
    let field := (cp.takeWhile (· ≠ 61)).rdropWhile isSpace
    let v := value ((cp.dropWhile (· ≠ 61)).tail)
    if field = [] ∨ v = [] then none else some (some (field, v))

/-! ## §2. What a value is read as. -/

theorem unquote_part (v : Bytes) : unquote v <:+: v := by
  unfold unquote
  split_ifs
  · exact (List.dropLast_prefix _).isInfix.trans (List.tail_suffix v).isInfix
  · exact List.infix_refl v

theorem value_part (b : Bytes) : value b <:+: b :=
  (unquote_part _).trans
    ((List.rdropWhile_prefix isSpace _).isInfix.trans (List.dropWhile_suffix isSpace).isInfix)

theorem length_value_le (b : Bytes) : (value b).length ≤ b.length := (value_part b).length_le

/-- A text is read as itself, or as a shorter one. -/
theorem value_eq_of_length {b : Bytes} (h : (value b).length = b.length) : value b = b :=
  (value_part b).eq_of_length h

/-- A text that is read as itself. -/
structure Plain (v : Bytes) : Prop where
  head : ∀ c, v.head? = some c → isSpace c = false
  last : ∀ c, v.getLast? = some c → isSpace c = false
  unquoted : ¬ (v.head? = v.getLast? ∧ (v.head? = some 39 ∨ v.head? = some 34))

theorem dropWhile_eq_self_iff {p : UInt8 → Bool} {b : Bytes} :
    b.dropWhile p = b ↔ ∀ c, b.head? = some c → p c = false := by
  cases b with
  | nil => simp
  | cons c b =>
      rw [List.head?_cons, List.dropWhile_cons]
      constructor
      · intro h x hx
        rw [Option.some.injEq] at hx
        subst hx
        by_contra hc
        rw [if_pos (by simpa using hc)] at h
        have := congrArg List.length h
        have hle := (List.dropWhile_suffix p (l := b)).length_le
        rw [List.length_cons] at this
        omega
      · intro h
        rw [if_neg (by rw [h c rfl]; simp)]

theorem rdropWhile_eq_self_iff {p : UInt8 → Bool} {b : Bytes} :
    b.rdropWhile p = b ↔ ∀ c, b.getLast? = some c → p c = false := by
  rw [List.rdropWhile, ← List.reverse_inj, List.reverse_reverse, dropWhile_eq_self_iff,
    List.head?_reverse]

theorem value_eq_self_iff (v : Bytes) : value v = v ↔ Plain v := by
  constructor
  · intro h
    have hdrop : v.dropWhile isSpace = v := by
      have hle : v.length ≤ (v.dropWhile isSpace).length := by
        have h₁ := (unquote_part ((v.dropWhile isSpace).rdropWhile isSpace)).length_le
        have h₂ := (List.rdropWhile_prefix isSpace (v.dropWhile isSpace)).length_le
        rw [← value, h] at h₁
        omega
      exact (List.dropWhile_suffix isSpace).eq_of_length_le hle
    rw [value, hdrop] at h
    have hrdrop : v.rdropWhile isSpace = v := by
      have hle : v.length ≤ (v.rdropWhile isSpace).length := by
        have := (unquote_part (v.rdropWhile isSpace)).length_le
        rw [h] at this
        exact this
      exact (List.rdropWhile_prefix isSpace v).eq_of_length_le hle
    rw [hrdrop] at h
    refine ⟨dropWhile_eq_self_iff.mp hdrop, rdropWhile_eq_self_iff.mp hrdrop, fun hquote => ?_⟩
    rw [unquote, if_pos hquote] at h
    -- the quotes are gone, so the text is shorter
    have hlen := congrArg List.length h
    rw [List.length_dropLast, List.length_tail] at hlen
    have hnil : v = [] := List.length_eq_zero_iff.mp (by omega)
    rw [hnil] at hquote
    simp at hquote
  · intro h
    rw [value, dropWhile_eq_self_iff.mpr h.head, rdropWhile_eq_self_iff.mpr h.last, unquote,
      if_neg h.unquoted]

/-! ## §3. A line that was put together. -/

/-- The text before the first equals sign, and the text after it. -/
theorem takeWhile_sign {f : Bytes} (hf : 61 ∉ f) (r : Bytes) :
    (f ++ 61 :: r).takeWhile (· ≠ 61) = f := by
  rw [List.takeWhile_append_of_pos, List.takeWhile_cons_of_neg (by decide), List.append_nil]
  intro x hx
  exact decide_eq_true fun heq => hf (heq ▸ hx)

theorem tail_dropWhile_sign {f : Bytes} (hf : 61 ∉ f) (r : Bytes) :
    ((f ++ 61 :: r).dropWhile (· ≠ 61)).tail = r := by
  rw [List.dropWhile_append_of_pos, List.dropWhile_cons_of_neg (by decide), List.tail_cons]
  intro x hx
  exact decide_eq_true fun heq => hf (heq ▸ hx)

theorem value_blank (v : Bytes) : value (32 :: v) = value v := by
  rw [value, List.dropWhile_cons_of_pos (by decide), ← value]

/-- A field name: no blanks, no equals sign, and no comment. -/
structure IsName (name : Bytes) : Prop where
  ne_nil : name ≠ []
  not_space : ∀ c ∈ name, isSpace c = false
  not_mem : 61 ∉ name
  not_comment : name.head? ≠ some 35

instance (name : Bytes) : Decidable (IsName name) :=
  decidable_of_iff (name ≠ [] ∧ name.all (fun c => !isSpace c) ∧ 61 ∉ name
      ∧ name.head? ≠ some 35) (by
    constructor
    · intro h
      exact ⟨h.1, by simpa using h.2.1, h.2.2.1, h.2.2.2⟩
    · intro h
      exact ⟨h.ne_nil, by simpa using h.not_space, h.not_mem, h.not_comment⟩)

/-- **The pair of a line** that has a name, the text " = " and a value. -/
theorem configGetPair_line {name : Bytes} (hname : IsName name) (v : Bytes) :
    configGetPair (name ++ ([32, 61, 32] ++ v))
      = if value v = [] then none else some (some (name, value v)) := by
  obtain ⟨c, rest, hc⟩ := List.exists_cons_of_ne_nil hname.ne_nil
  have hdrop : (name ++ ([32, 61, 32] ++ v)).dropWhile isSpace = name ++ ([32, 61, 32] ++ v) := by
    rw [dropWhile_eq_self_iff, hc]
    intro d hd
    rw [List.cons_append, List.head?_cons, Option.some.injEq] at hd
    exact hd ▸ hname.not_space c (by rw [hc]; simp)
  have hhead : (name ++ ([32, 61, 32] ++ v)).head? = name.head? := by
    rw [hc]
    rfl
  have hno : 61 ∉ name ++ [32] := by
    rw [List.mem_append, not_or]
    exact ⟨hname.not_mem, by decide⟩
  have hsplit : name ++ ([32, 61, 32] ++ v) = (name ++ [32]) ++ 61 :: (32 :: v) := by
    simp
  have htake : (name ++ ([32, 61, 32] ++ v)).takeWhile (· ≠ 61) = name ++ [32] := by
    rw [hsplit, takeWhile_sign hno]
  have htail : ((name ++ ([32, 61, 32] ++ v)).dropWhile (· ≠ 61)).tail = 32 :: v := by
    rw [hsplit, tail_dropWhile_sign hno]
  have hfield : (name ++ [32]).rdropWhile isSpace = name := by
    rw [List.rdropWhile_concat_pos _ _ _ (by decide), rdropWhile_eq_self_iff]
    intro d hd
    exact hname.not_space d (List.mem_of_getLast? hd)
  unfold configGetPair
  simp only [hdrop, hhead, htake, htail, hfield, value_blank]
  rw [if_neg, if_neg]
  · by_cases hv : value v = []
    · rw [if_pos (Or.inr hv), if_pos hv]
    · rw [if_neg (by rw [not_or]; exact ⟨hname.ne_nil, hv⟩), if_neg hv]
  · simp
  · rw [not_or]
    exact ⟨by rw [hc]; simp, hname.not_comment⟩

end Burp.Conf
