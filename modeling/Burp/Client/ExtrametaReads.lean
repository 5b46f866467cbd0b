/-
  Burp.Client.ExtrametaReads — what the restore reads of extra metadata.

  A length in the text says how many bytes are copied, and how many are taken off what is left.
  Neither `set_extrameta` nor `get_next_str` looks whether there is so much.  The length itself
  is whatever `sscanf` makes of the bytes, with blanks, signs and fewer than eight digits.

  Main results:
    * `extrametaReads_iff` — for which texts all reads are allowed, and one that is not made of
      complete records is an error.
    * `xattrLoop_eq`, `extrametaLoop_eq` — where they are, the loops do what `doSetXattr` and
      `setRecords` do.
-/
import Burp.Client.Extrameta
import Burp.Text.Pieces

namespace Burp.Client

open FileSystem Burp.Store
open Burp.Phase2 (nameBytes hexValue isHex)
open Burp.Text (front front_eq_some cut cut_of_none cut_of_some cut_induction cut_flatten)

/-! ## §1. The code, with its reads. -/

/-- `get_next_str`; behind the text there is a NUL.  The outer `none` is a read behind that, and
a length that wraps. -/
def getNextStrChecked (data : Bytes) : Option (Option (Bytes × Bytes)) :=
  match scanHex8 data with
  | none => some none
  | some s =>
      -- `memcpy(ret, *data, *s)`
      if data.length < 8 + s then none
      else some (some ((data.drop 8).take s, data.drop (8 + s)))

theorem length_getNextStr {data str rest : Bytes}
    (h : getNextStrChecked data = some (some (str, rest))) : rest.length + 8 ≤ data.length := by
  unfold getNextStrChecked at h
  split at h
  · cases h
  · split at h
    · cases h
    next hlen =>
      obtain ⟨-, rfl⟩ := Prod.mk.inj (Option.some.inj (Option.some.inj h))
      rw [List.length_drop]
      omega

/-- The loop of `do_set_xattr`. -/
def xattrLoop (succeeds : Call → Bool) (data : Bytes) : Option (List Call × Bool) :=
  if data = [] then some ([], true)
  else
    match _hname : getNextStrChecked data with
    | none => none
    | some none => some ([], false)
    | some (some (name, data₁)) =>
        match _hvalue : getNextStrChecked data₁ with
        | none => none
        | some none => some ([], false)
        | some (some (value, data₂)) =>
            let call := Call.lsetxattr (cString name) (cString value)
            -- the first that fails ends the loop
            if succeeds call then
              (xattrLoop succeeds data₂).map fun r => (call :: r.1, r.2)
            else some ([call], false)
termination_by data.length
decreasing_by
  have := length_getNextStr _hname
  have := length_getNextStr _hvalue
  omega

/-- One record. -/
def setRecordChecked (succeeds : Call → Bool) (cmd : UInt8) (m : Bytes) :
    Option (List Call × Bool) :=
  if cmd = metaAccessAcl ∨ cmd = metaDefaultAcl then
    some ([.acl cmd (cString m)], succeeds (.acl cmd (cString m)))
  else if cmd = metaXattr then xattrLoop succeeds m
  else some ([], false)

/-- The loop of `set_extrameta`, and what it returns.  The outer `none` is also a `malloc(s+1)`
that wraps to nothing, and an `errors++` that does not fit. -/
def extrametaLoop (succeeds : Call → Bool) (metadata : Bytes) (errors : Nat) :
    Option (List Call × Int) :=
  if metadata = [] then some ([], errors)
  else
    match scanRecord metadata with
    | none => some ([], -1)
    | some (cmd, s) =>
        -- `malloc(s+1)`, `memcpy(m, metadata, s)` and `l-=s`, for an `unsigned int s`
        if _hs : metadata.length < 9 + s ∨ s = 2 ^ 32 - 1 then none
        else
          match setRecordChecked succeeds cmd ((metadata.drop 9).take s) with
          | none => none
          | some (calls, true) =>
              (extrametaLoop succeeds (metadata.drop (9 + s)) errors).map fun r =>
                (calls ++ r.1, r.2)
          | some (calls, false) =>
              -- `errors` is an `int`
              if errors + 1 = 2 ^ 31 then none
              else
                (extrametaLoop succeeds (metadata.drop (9 + s)) (errors + 1)).map fun r =>
                  (calls ++ r.1, r.2)
termination_by metadata.length
decreasing_by
  all_goals
    rw [not_or, Nat.not_lt] at _hs
    rw [List.length_drop]
    omega

/-! ## §2. Fields and records, as the code takes them. -/

/-- How much `get_next_str` takes. -/
def fieldSize (data : Bytes) : Option Nat := (scanHex8 data).map (8 + ·)

/-- How much `set_extrameta` takes; `malloc` gets nothing where the length is the biggest one. -/
def recordSize (metadata : Bytes) : Option Nat :=
  (scanRecord metadata).bind fun r => if r.2 = 2 ^ 32 - 1 then none else some (9 + r.2)

theorem getNextStr_of_front {data : Bytes} {n : Nat} (h : front fieldSize data = some n) :
    getNextStrChecked data = some (some ((data.take n).drop 8, data.drop n)) := by
  obtain ⟨hsize, -, hle⟩ := front_eq_some.1 h
  obtain ⟨s, hs, rfl⟩ := Option.map_eq_some_iff.1 hsize
  rw [getNextStrChecked, hs]
  simp only
  rw [if_neg (by omega), List.drop_take, Nat.add_sub_cancel_left]

theorem getNextStr_of_none {data : Bytes} (h : front fieldSize data = none) :
    getNextStrChecked data = if scanHex8 data = none then some none else none := by
  rw [getNextStrChecked]
  cases hs : scanHex8 data with
  | none => rfl
  | some s =>
      simp only [reduceCtorEq, if_false]
      rw [if_pos]
      by_contra hlen
      have hfront : front fieldSize data = some (8 + s) :=
        front_eq_some.2 ⟨by rw [fieldSize, hs]; rfl, by omega, by omega⟩
      rw [hfront] at h
      cases h

/-- The calls for the names and values of a list of fields. -/
def pairCalls : List Bytes → List Call
  | name :: value :: fs =>
      .lsetxattr (cString (name.drop 8)) (cString (value.drop 8)) :: pairCalls fs
  | _ => []

theorem ne_nil_of_front {size : Bytes → Option Nat} {b : Bytes} {n : Nat}
    (h : front size b = some n) : b ≠ [] := by
  rintro rfl
  obtain ⟨-, hpos, hle⟩ := front_eq_some.1 h
  exact absurd hpos (by simpa using hle)

theorem xattrLoop_nil (succeeds : Call → Bool) : xattrLoop succeeds [] = some ([], true) := by
  rw [xattrLoop, if_pos rfl]

theorem xattrLoop_of_none (succeeds : Call → Bool) {data : Bytes} (hne : data ≠ [])
    (h : front fieldSize data = none) :
    xattrLoop succeeds data = if scanHex8 data = none then some ([], false) else none := by
  have hname := getNextStr_of_none h
  rw [xattrLoop, if_neg hne]
  by_cases hscan : scanHex8 data = none
  · rw [if_pos hscan] at hname ⊢
    split
    next heq => rw [hname] at heq; cases heq
    next => rfl
    next heq => rw [hname] at heq; cases heq
  · rw [if_neg hscan] at hname ⊢
    split
    next => rfl
    next heq => rw [hname] at heq; cases heq
    next heq => rw [hname] at heq; cases heq

theorem xattrLoop_of_name (succeeds : Call → Bool) {data : Bytes} {n : Nat}
    (h : front fieldSize data = some n) (h' : front fieldSize (data.drop n) = none) :
    xattrLoop succeeds data
      = if scanHex8 (data.drop n) = none then some ([], false) else none := by
  have hname := getNextStr_of_front h
  have hvalue := getNextStr_of_none h'
  rw [xattrLoop, if_neg (ne_nil_of_front h)]
  split
  next heq => rw [hname] at heq; cases heq
  next heq => rw [hname] at heq; cases heq
  next name data₁ heq =>
    rw [hname, Option.some.injEq, Option.some.injEq, Prod.mk.injEq] at heq
    obtain ⟨-, rfl⟩ := heq
    by_cases hscan : scanHex8 (data.drop n) = none
    · rw [if_pos hscan] at hvalue ⊢
      split
      next heq' => rw [hvalue] at heq'; cases heq'
      next => rfl
      next heq' => rw [hvalue] at heq'; cases heq'
    · rw [if_neg hscan] at hvalue ⊢
      split
      next => rfl
      next heq' => rw [hvalue] at heq'; cases heq'
      next heq' => rw [hvalue] at heq'; cases heq'

theorem xattrLoop_of_pair (succeeds : Call → Bool) {data : Bytes} {n m : Nat}
    (h : front fieldSize data = some n) (h' : front fieldSize (data.drop n) = some m) :
    xattrLoop succeeds data
      = if succeeds (.lsetxattr (cString ((data.take n).drop 8))
            (cString (((data.drop n).take m).drop 8))) then
          (xattrLoop succeeds ((data.drop n).drop m)).map fun r =>
            (.lsetxattr (cString ((data.take n).drop 8))
              (cString (((data.drop n).take m).drop 8)) :: r.1, r.2)
        else some ([.lsetxattr (cString ((data.take n).drop 8))
            (cString (((data.drop n).take m).drop 8))], false) := by
  have hname := getNextStr_of_front h
  have hvalue := getNextStr_of_front h'
  rw [xattrLoop, if_neg (ne_nil_of_front h)]
  split
  next heq => rw [hname] at heq; cases heq
  next heq => rw [hname] at heq; cases heq
  next name data₁ heq =>
    rw [hname, Option.some.injEq, Option.some.injEq, Prod.mk.injEq] at heq
    obtain ⟨rfl, rfl⟩ := heq
    split
    next heq' => rw [hvalue] at heq'; cases heq'
    next heq' => rw [hvalue] at heq'; cases heq'
    next value data₂ heq' =>
      rw [hvalue, Option.some.injEq, Option.some.injEq, Prod.mk.injEq] at heq'
      obtain ⟨rfl, rfl⟩ := heq'
      rfl

theorem scanHex8_nil : scanHex8 [] = none := rfl

/-- What `do_set_xattr` returns. -/
theorem xattrLoop_result (succeeds : Call → Bool) (data : Bytes) :
    (xattrLoop succeeds data).map (·.2)
      = if ∀ c ∈ pairCalls (cut fieldSize data).1, succeeds c = true then
          if scanHex8 (cut fieldSize data).2 = none then
            some (decide ((cut fieldSize data).2 = [] ∧ Even (cut fieldSize data).1.length))
          else none
        else some false := by
  induction hlen : data.length using Nat.strong_induction_on generalizing data with
  | _ len ih =>
      by_cases hnil : data = []
      · subst hnil
        have hfront : front fieldSize [] = none := rfl
        rw [xattrLoop_nil, cut_of_none hfront]
        simp [pairCalls, scanHex8_nil]
      · cases hfront : front fieldSize data with
        | none =>
            rw [xattrLoop_of_none succeeds hnil hfront, cut_of_none hfront]
            simp only [pairCalls, List.not_mem_nil, false_implies, implies_true, if_true, hnil,
              false_and, decide_false]
            split_ifs <;> rfl
        | some n =>
            rw [cut_of_some hfront]
            cases hfront' : front fieldSize (data.drop n) with
            | none =>
                rw [xattrLoop_of_name succeeds hfront hfront', cut_of_none hfront']
                simp only [pairCalls, List.not_mem_nil, false_implies, implies_true, if_true,
                  List.length_singleton, Nat.not_even_one, and_false, decide_false]
                split_ifs <;> rfl
            | some m =>
                have hshorter : ((data.drop n).drop m).length < len := by
                  have := Text.length_drop_front hfront
                  have := Text.length_drop_front hfront'
                  omega
                rw [xattrLoop_of_pair succeeds hfront hfront', cut_of_some hfront']
                simp only [pairCalls, List.forall_mem_cons, List.length_cons]
                have hrest := ih _ hshorter ((data.drop n).drop m) rfl
                have heven : ∀ k : Nat, Even (k + 1 + 1) ↔ Even k := by
                  intro k
                  rw [Nat.even_add_one, Nat.even_add_one, not_not]
                simp only [heven]
                split
                next hok =>
                  simpa only [hok, true_and, Option.map_map, Function.comp_def] using hrest
                next hfail => rw [if_neg fun h => hfail h.1, Option.map_some]

/-! ## §3. The loop over the records. -/

/-- What is read of an attributes record is there: a call fails, or the last field that was come
to cannot be scanned. -/
def AttributesFit (succeeds : Call → Bool) (m : Bytes) : Prop :=
  (∃ c ∈ pairCalls (cut fieldSize m).1, succeeds c = false)
    ∨ scanHex8 (cut fieldSize m).2 = none

/-- All attributes are set. -/
def AttributesSet (succeeds : Call → Bool) (m : Bytes) : Prop :=
  (∀ c ∈ pairCalls (cut fieldSize m).1, succeeds c = true)
    ∧ (cut fieldSize m).2 = [] ∧ Even (cut fieldSize m).1.length

instance (succeeds : Call → Bool) (m : Bytes) : Decidable (AttributesFit succeeds m) :=
  inferInstanceAs (Decidable (_ ∨ _))

instance (succeeds : Call → Bool) (m : Bytes) : Decidable (AttributesSet succeeds m) :=
  inferInstanceAs (Decidable (_ ∧ _ ∧ _))

/-- What is read of a record is there. -/
def RecordFits (succeeds : Call → Bool) (r : Bytes) : Prop :=
  r.headD 0 = metaXattr → AttributesFit succeeds (r.drop 9)

/-- A record is known, and what it says is set. -/
def RecordSet (succeeds : Call → Bool) (r : Bytes) : Prop :=
  if r.headD 0 = metaAccessAcl ∨ r.headD 0 = metaDefaultAcl then
    succeeds (.acl (r.headD 0) (cString (r.drop 9))) = true
  else r.headD 0 = metaXattr ∧ AttributesSet succeeds (r.drop 9)

instance (succeeds : Call → Bool) (r : Bytes) : Decidable (RecordFits succeeds r) :=
  inferInstanceAs (Decidable (r.headD 0 = metaXattr → AttributesFit succeeds (r.drop 9)))

instance (succeeds : Call → Bool) (r : Bytes) : Decidable (RecordSet succeeds r) :=
  inferInstanceAs (Decidable (if r.headD 0 = metaAccessAcl ∨ r.headD 0 = metaDefaultAcl then
      succeeds (.acl (r.headD 0) (cString (r.drop 9))) = true
    else r.headD 0 = metaXattr ∧ AttributesSet succeeds (r.drop 9)))

theorem xattrLoop_fits (succeeds : Call → Bool) (m : Bytes) :
    (xattrLoop succeeds m).map (·.2)
      = if AttributesFit succeeds m then some (decide (AttributesSet succeeds m)) else none := by
  rw [xattrLoop_result]
  by_cases hall : ∀ c ∈ pairCalls (cut fieldSize m).1, succeeds c = true
  · have hfit : AttributesFit succeeds m ↔ scanHex8 (cut fieldSize m).2 = none := by
      refine or_iff_right ?_
      rintro ⟨c, hc, hfail⟩
      rw [hall c hc] at hfail
      cases hfail
    have hset : AttributesSet succeeds m
        ↔ (cut fieldSize m).2 = [] ∧ Even (cut fieldSize m).1.length := and_iff_right hall
    simp only [if_pos hall, hfit, hset]
  · have hfit : AttributesFit succeeds m := Or.inl (by simpa using hall)
    have hset : ¬ AttributesSet succeeds m := fun h => hall h.1
    rw [if_neg hall, if_pos hfit, decide_eq_false hset]

theorem setRecordChecked_result (succeeds : Call → Bool) (r : Bytes) :
    (setRecordChecked succeeds (r.headD 0) (r.drop 9)).map (·.2)
      = if RecordFits succeeds r then some (decide (RecordSet succeeds r)) else none := by
  unfold setRecordChecked
  by_cases hacl : r.headD 0 = metaAccessAcl ∨ r.headD 0 = metaDefaultAcl
  · have hfits : RecordFits succeeds r := by
      intro hxattr
      rw [hxattr] at hacl
      exact absurd hacl (by decide)
    have hset : RecordSet succeeds r
        ↔ succeeds (.acl (r.headD 0) (cString (r.drop 9))) = true := by
      rw [RecordSet, if_pos hacl]
    rw [if_pos hacl, if_pos hfits, Option.map_some]
    simp only [hset, Bool.decide_eq_true]
  · have hset : RecordSet succeeds r
        ↔ r.headD 0 = metaXattr ∧ AttributesSet succeeds (r.drop 9) := by
      rw [RecordSet, if_neg hacl]
    rw [if_neg hacl]
    by_cases hxattr : r.headD 0 = metaXattr
    · have hfits : RecordFits succeeds r ↔ AttributesFit succeeds (r.drop 9) :=
        forall_prop_of_true hxattr
      simp only [if_pos hxattr, xattrLoop_fits, hfits, hset, and_iff_right hxattr]
    · have hfits : RecordFits succeeds r := fun h => absurd h hxattr
      have hnot : ¬ RecordSet succeeds r := fun h => hxattr (hset.1 h).1
      rw [if_neg hxattr, if_pos hfits, Option.map_some, decide_eq_false hnot]

theorem extrametaLoop_nil (succeeds : Call → Bool) (errors : Nat) :
    extrametaLoop succeeds [] errors = some ([], (errors : Int)) := by
  rw [extrametaLoop, if_pos rfl]

theorem extrametaLoop_of_none (succeeds : Call → Bool) {b : Bytes} (hne : b ≠ [])
    (h : front recordSize b = none) (errors : Nat) :
    extrametaLoop succeeds b errors = if scanRecord b = none then some ([], -1) else none := by
  rw [extrametaLoop, if_neg hne]
  cases hscan : scanRecord b with
  | none => rfl
  | some r =>
      obtain ⟨cmd, s⟩ := r
      simp only [reduceCtorEq, if_false]
      rw [dif_pos]
      by_contra hfit
      rw [not_or, Nat.not_lt] at hfit
      have hfront : front recordSize b = some (9 + s) := by
        refine front_eq_some.2 ⟨?_, by omega, hfit.1⟩
        rw [recordSize, hscan, Option.bind_some, if_neg hfit.2]
      rw [hfront] at h
      cases h

/-- What is scanned begins with a command. -/
theorem scanRecord_head {b : Bytes} {cmd : UInt8} {s : Nat} (h : scanRecord b = some (cmd, s)) :
    cmd ≠ 0 ∧ ∃ rest, b = cmd :: rest := by
  unfold scanRecord cString at h
  cases b with
  | nil => cases h
  | cons c rest =>
      by_cases hc : c = 0
      · rw [List.takeWhile_cons_of_neg (by simpa using hc)] at h
        cases h
      · rw [List.takeWhile_cons_of_pos (by simpa using hc)] at h
        obtain ⟨_, -, heq⟩ := Option.map_eq_some_iff.1 h
        obtain ⟨rfl, -⟩ := Prod.mk.inj heq
        exact ⟨hc, rest, rfl⟩

/-- A record is come to. -/
theorem extrametaLoop_of_some (succeeds : Call → Bool) {b : Bytes} {n : Nat}
    (h : front recordSize b = some n) (errors : Nat) :
    extrametaLoop succeeds b errors
      = (setRecordChecked succeeds ((b.take n).headD 0) ((b.take n).drop 9)).bind fun r =>
        if r.2 then (extrametaLoop succeeds (b.drop n) errors).map fun q => (r.1 ++ q.1, q.2)
        else if errors + 1 = 2 ^ 31 then none
        else (extrametaLoop succeeds (b.drop n) (errors + 1)).map fun q => (r.1 ++ q.1, q.2) := by
  obtain ⟨hsize, -, hle⟩ := front_eq_some.1 h
  obtain ⟨⟨cmd, s⟩, hscan, hlimit⟩ := Option.bind_eq_some_iff.1 hsize
  have hs : s ≠ 2 ^ 32 - 1 := by
    intro heq
    rw [if_pos heq] at hlimit
    cases hlimit
  rw [if_neg hs, Option.some.injEq] at hlimit
  subst hlimit
  have hhead : (b.take (9 + s)).headD 0 = cmd := by
    obtain ⟨-, rest, rfl⟩ := scanRecord_head hscan
    rw [Nat.add_comm, List.take_succ_cons]
    rfl
  rw [extrametaLoop, if_neg (ne_nil_of_front h), hscan]
  simp only
  rw [dif_neg (by omega), hhead, List.drop_take, Nat.add_sub_cancel_left]
  cases hset : setRecordChecked succeeds cmd ((b.drop 9).take s) with
  | none => rfl
  | some r =>
      obtain ⟨calls, set⟩ := r
      cases set with
      | true => rfl
      | false => rfl

/-- What `set_extrameta` returns. -/
theorem extrametaLoop_result (succeeds : Call → Bool) (b : Bytes) :
    ∀ errors < 2 ^ 31, (extrametaLoop succeeds b errors).map (·.2)
      = if (∀ r ∈ (cut recordSize b).1, RecordFits succeeds r)
            ∧ scanRecord (cut recordSize b).2 = none
            ∧ errors + (cut recordSize b).1.countP (fun r => ¬ RecordSet succeeds r) < 2 ^ 31 then
          some (if (cut recordSize b).2 = [] then
            ((errors + (cut recordSize b).1.countP (fun r => ¬ RecordSet succeeds r) : Nat) : Int)
            else -1)
        else none := by
  induction b using cut_induction recordSize with
  | stop b h =>
      intro errors herrors
      have hnone : ∀ r ∈ ([] : List Bytes), RecordFits succeeds r := by simp
      simp only [cut_of_none h, List.countP_nil, Nat.add_zero, herrors, and_true,
        and_iff_right hnone]
      by_cases hnil : b = []
      · subst hnil
        rw [extrametaLoop_nil]
        rfl
      · rw [extrametaLoop_of_none succeeds hnil h, if_neg hnil]
        split_ifs <;> rfl
  | piece b n h ih =>
      intro errors herrors
      have hrecord := setRecordChecked_result succeeds (b.take n)
      rw [extrametaLoop_of_some succeeds h]
      simp only [cut_of_some h, List.forall_mem_cons, List.countP_cons]
      by_cases hfits : RecordFits succeeds (b.take n)
      · rw [if_pos hfits] at hrecord
        obtain ⟨⟨calls, set⟩, hset, hdec⟩ := Option.map_eq_some_iff.1 hrecord
        rw [hset, Option.bind_some]
        simp only [hfits, true_and]
        by_cases hrs : RecordSet succeeds (b.take n)
        · have hrest := ih errors herrors
          obtain rfl : set = true := hdec.trans (decide_eq_true hrs)
          simp only [if_true, Option.map_map, Function.comp_def, hrest, hrs, not_true_eq_false,
            decide_false, Bool.false_eq_true, if_false, Nat.add_zero]
        · obtain rfl : set = false := hdec.trans (decide_eq_false hrs)
          simp only [Bool.false_eq_true, if_false, hrs, not_false_eq_true, decide_true, if_true]
          by_cases hlimit : errors + 1 = 2 ^ 31
          · rw [if_pos hlimit, if_neg (by omega)]
            rfl
          · have hrest := ih (errors + 1) (by omega)
            rw [if_neg hlimit, Option.map_map]
            have hcount : ∀ k, errors + 1 + k = errors + (k + 1) := by omega
            simpa only [Function.comp_def, hcount] using hrest
      · rw [if_neg hfits, Option.map_eq_none_iff] at hrecord
        rw [hrecord, if_neg (fun h => hfits h.1.1)]
        rfl

/-! ## §4. Complete records. -/

/-- The eight digits of a length, behind `lead` bytes. -/
def HexHead (lead : Nat) (p : Bytes) : Prop := ∀ c ∈ (p.drop lead).take 8, isHex c = true

instance (lead : Nat) (p : Bytes) : Decidable (HexHead lead p) :=
  inferInstanceAs (Decidable (∀ c ∈ (p.drop lead).take 8, isHex c = true))

/-- A piece is complete: `lead` characters, eight digits, and as many bytes as they say. -/
structure CompletePiece (lead : Nat) (p : Bytes) : Prop where
  lead_ne : 0 ∉ p.take lead
  digits : HexHead lead p
  length_eq : p.length = lead + 8 + hexValue ((p.drop lead).take 8)

/-- A text for `set_extrameta` is made of complete records. -/
def CompleteRecords (b : Bytes) : Prop :=
  ∃ rs : List Bytes, b = rs.flatten ∧ ∀ r ∈ rs, CompletePiece 1 r

/-- A text for `do_set_xattr` is made of complete names and values. -/
def CompleteAttributes (b : Bytes) : Prop :=
  ∃ fs : List Bytes, b = fs.flatten ∧ Even fs.length ∧ ∀ f ∈ fs, CompletePiece 0 f

/-- What is scanned of a complete field. -/
theorem scanHex8_complete {f : Bytes} (hdigits : HexHead 0 f) (hlen : 8 ≤ f.length) (r : Bytes) :
    scanHex8 (f ++ r) = some (hexValue ((f.drop 0).take 8)) := by
  have hsplit : f ++ r = f.take 8 ++ (f.drop 8 ++ r) := by
    rw [← List.append_assoc, List.take_append_drop]
  rw [hsplit]
  exact scanHex8_digits (b := f.take 8) (by rw [List.length_take]; omega) hdigits _

/-- What is scanned of a complete record. -/
theorem scanRecord_complete {p : Bytes} (hlead : 0 ∉ p.take 1) (hdigits : HexHead 1 p)
    (hlen : 9 ≤ p.length) (r : Bytes) :
    (scanRecord (p ++ r)).map (·.2) = some (hexValue ((p.drop 1).take 8)) := by
  cases p with
  | nil => simp at hlen
  | cons cmd f =>
      have hcmd : cmd ≠ 0 := by
        rintro rfl
        exact hlead (by simp)
      have hcut : cString (cmd :: f ++ r) = cmd :: cString (f ++ r) := by
        rw [List.cons_append, cString, List.takeWhile_cons_of_pos (by simpa using hcmd)]
        rfl
      have hidem : cString (cString (f ++ r)) = cString (f ++ r) := List.takeWhile_idem
      have hscan : scanHex8 (cString (f ++ r)) = scanHex8 (f ++ r) := by
        rw [scanHex8, scanHex8, hidem]
      rw [List.length_cons] at hlen
      unfold scanRecord
      rw [hcut]
      simp only
      rw [hscan, scanHex8_complete (f := f) hdigits (by omega)]
      rfl

section Pieces

variable {lead : Nat} {size : Bytes → Option Nat}

/-- What is taken begins with `lead` characters and eight bytes for the length. -/
def Leads (lead : Nat) (size : Bytes → Option Nat) : Prop :=
  ∀ b n, size b = some n → 0 ∉ b.take lead ∧ lead + 8 ≤ n

/-- Digits are taken as their value. -/
def ReadsDigits (lead : Nat) (size : Bytes → Option Nat) : Prop :=
  ∀ p r : Bytes, 0 ∉ p.take lead → HexHead lead p → lead + 8 ≤ p.length →
    ∀ n, size (p ++ r) = some n → n = lead + 8 + hexValue ((p.drop lead).take 8)

/-- A piece whose length is written in digits is complete. -/
theorem complete_of_front (hlead : Leads lead size) (hdigits : ReadsDigits lead size) {b : Bytes}
    {n : Nat} (h : front size b = some n) (hhex : HexHead lead (b.take n)) :
    CompletePiece lead (b.take n) := by
  obtain ⟨hsize, -, hle⟩ := front_eq_some.1 h
  obtain ⟨hne, h8⟩ := hlead b n hsize
  have hlen : (b.take n).length = n := List.length_take_of_le hle
  have hne' : 0 ∉ (b.take n).take lead := by
    rwa [List.take_take, Nat.min_eq_left (by omega)]
  have hsplit : b.take n ++ b.drop n = b := List.take_append_drop n b
  have hvalue := hdigits (b.take n) (b.drop n) hne' hhex (by omega) n (by rwa [hsplit])
  exact ⟨hne', hhex, hlen.trans hvalue⟩

/-- A complete piece is taken as it is. -/
theorem front_of_complete (hdigits : ReadsDigits lead size) {p r : Bytes}
    (hp : CompletePiece lead p) {n : Nat} (h : front size (p ++ r) = some n) :
    (p ++ r).take n = p ∧ (p ++ r).drop n = r := by
  have hlen := hp.length_eq
  have hn : n = p.length := by
    rw [hlen]
    exact hdigits p r hp.lead_ne hp.digits (by omega) n (front_eq_some.1 h).1
  rw [hn]
  exact ⟨List.take_left, List.drop_left⟩

theorem cut_complete (hlead : Leads lead size) (hdigits : ReadsDigits lead size) (b : Bytes)
    (hhex : ∀ p ∈ (cut size b).1, HexHead lead p) : ∀ p ∈ (cut size b).1, CompletePiece lead p := by
  induction b using cut_induction size with
  | stop b h =>
      rw [cut_of_none h]
      exact fun p hp => absurd hp List.not_mem_nil
  | piece b n h ih =>
      rw [cut_of_some h] at hhex ⊢
      rw [List.forall_mem_cons] at hhex ⊢
      exact ⟨complete_of_front hlead hdigits h hhex.1, ih hhex.2⟩

theorem hexHead_of_complete (hdigits : ReadsDigits lead size) {ps : List Bytes}
    (hps : ∀ p ∈ ps, CompletePiece lead p) : ∀ p ∈ (cut size ps.flatten).1, HexHead lead p := by
  induction ps with
  | nil =>
      have hnone : front size ([] : Bytes) = none := by
        rw [Option.eq_none_iff_forall_ne_some]
        exact fun n h => ne_nil_of_front h rfl
      rw [List.flatten_nil, cut_of_none hnone]
      exact fun p hp => absurd hp List.not_mem_nil
  | cons p ps ih =>
      rw [List.forall_mem_cons] at hps
      rw [List.flatten_cons]
      cases hfront : front size (p ++ ps.flatten) with
      | none =>
          rw [cut_of_none hfront]
          exact fun p hp => absurd hp List.not_mem_nil
      | some n =>
          obtain ⟨htake, hdrop⟩ := front_of_complete hdigits hps.1 hfront
          rw [cut_of_some hfront, htake, hdrop, List.forall_mem_cons]
          exact ⟨hps.1.digits, ih hps.2⟩

end Pieces

theorem fieldSize_leads : Leads 0 fieldSize := by
  intro b n h
  obtain ⟨s, -, rfl⟩ := Option.map_eq_some_iff.1 h
  exact ⟨by simp, by omega⟩

theorem fieldSize_readsDigits : ReadsDigits 0 fieldSize := by
  intro p r _ hhex hlen n h
  rw [fieldSize, scanHex8_complete hhex (by omega)] at h
  exact (Option.some.inj h).symm

theorem recordSize_leads : Leads 1 recordSize := by
  intro b n h
  obtain ⟨⟨cmd, s⟩, hscan, hlimit⟩ := Option.bind_eq_some_iff.1 h
  obtain ⟨hne, rest, rfl⟩ := scanRecord_head hscan
  split_ifs at hlimit
  obtain rfl := Option.some.inj hlimit
  exact ⟨by simpa using hne.symm, by omega⟩

theorem recordSize_readsDigits : ReadsDigits 1 recordSize := by
  intro p r hlead hhex hlen n h
  have hscan := scanRecord_complete hlead hhex (by omega) r
  obtain ⟨⟨cmd, s⟩, hrecord, rfl⟩ := Option.map_eq_some_iff.1 hscan
  rw [recordSize, hrecord, Option.bind_some] at h
  split_ifs at h
  exact (Option.some.inj h).symm

/-! ## §5. Safety. -/

/-- `set_extrameta` reads nothing behind the text and takes no more off than is left, and it
returns something else than zero if the text is not made of complete records. -/
def SafeExtrameta (succeeds : Call → Bool) (b : Bytes) : Prop :=
  ∃ calls result, extrametaLoop succeeds b 0 = some (calls, result)
    ∧ (¬ CompleteRecords b → result ≠ 0)

/-- And so does `do_set_xattr`. -/
def SafeAttributes (succeeds : Call → Bool) (b : Bytes) : Prop :=
  ∃ calls ok, xattrLoop succeeds b = some (calls, ok) ∧ (¬ CompleteAttributes b → ok = false)

/-- All records that are come to are there, with what they say of attributes; the text ends
where no record can be scanned.  And a length that is not made of eight digits is in a text
that ends too early, or in which there is a record that is not set. -/
structure RecordsInside (succeeds : Call → Bool) (b : Bytes) : Prop where
  fits : ∀ r ∈ (cut recordSize b).1, RecordFits succeeds r
  ends : scanRecord (cut recordSize b).2 = none
  few : (cut recordSize b).1.countP (fun r => ¬ RecordSet succeeds r) < 2 ^ 31
  hex : (cut recordSize b).2 = [] → (∀ r ∈ (cut recordSize b).1, RecordSet succeeds r) →
    ∀ r ∈ (cut recordSize b).1, HexHead 1 r

/-- A call fails, or all fields that are come to are there, and a length that is not made of
eight digits is in a text that ends too early. -/
def AttributesInside (succeeds : Call → Bool) (b : Bytes) : Prop :=
  (∃ c ∈ pairCalls (cut fieldSize b).1, succeeds c = false)
    ∨ scanHex8 (cut fieldSize b).2 = none
      ∧ ((cut fieldSize b).2 = [] → Even (cut fieldSize b).1.length →
        ∀ f ∈ (cut fieldSize b).1, HexHead 0 f)

theorem completeRecords_iff {b : Bytes} (hrest : (cut recordSize b).2 = []) :
    CompleteRecords b ↔ ∀ r ∈ (cut recordSize b).1, HexHead 1 r := by
  constructor
  · rintro ⟨rs, rfl, hrs⟩
    exact hexHead_of_complete recordSize_readsDigits hrs
  · intro hhex
    have hflatten := cut_flatten recordSize b
    rw [hrest, List.append_nil] at hflatten
    exact ⟨_, hflatten.symm, cut_complete recordSize_leads recordSize_readsDigits b hhex⟩

theorem completeAttributes_iff {b : Bytes} (hrest : (cut fieldSize b).2 = [])
    (heven : Even (cut fieldSize b).1.length) :
    CompleteAttributes b ↔ ∀ f ∈ (cut fieldSize b).1, HexHead 0 f := by
  constructor
  · rintro ⟨fs, rfl, -, hfs⟩
    exact hexHead_of_complete fieldSize_readsDigits hfs
  · intro hhex
    have hflatten := cut_flatten fieldSize b
    rw [hrest, List.append_nil] at hflatten
    exact ⟨_, hflatten.symm, heven, cut_complete fieldSize_leads fieldSize_readsDigits b hhex⟩

theorem safeExtrameta_iff (succeeds : Call → Bool) (b : Bytes) :
    SafeExtrameta succeeds b ↔ RecordsInside succeeds b := by
  have hresult := extrametaLoop_result succeeds b 0 (by decide)
  rw [Nat.zero_add] at hresult
  constructor
  · rintro ⟨calls, result, hloop, hzero⟩
    rw [hloop, Option.map_some] at hresult
    split_ifs at hresult with hinside hrest
    · refine ⟨hinside.1, hinside.2.1, hinside.2.2, fun _ hset => ?_⟩
      have hcount : (cut recordSize b).1.countP (fun r => ¬ RecordSet succeeds r) = 0 := by
        rw [List.countP_eq_zero]
        intro r hr
        simpa using hset r hr
      rw [hcount] at hresult
      refine (completeRecords_iff hrest).1 (not_not.1 fun hnot => hzero hnot ?_)
      exact Option.some.inj hresult
    · exact ⟨hinside.1, hinside.2.1, hinside.2.2, fun h => absurd h hrest⟩
  · intro h
    rw [if_pos ⟨h.fits, h.ends, h.few⟩] at hresult
    obtain ⟨⟨calls, result⟩, hloop, hvalue⟩ := Option.map_eq_some_iff.1 hresult
    refine ⟨calls, result, hloop, fun hnot hzero => hnot ?_⟩
    simp only at hvalue
    rw [hzero] at hvalue
    split_ifs at hvalue with hrest
    have hcount : (cut recordSize b).1.countP (fun r => ¬ RecordSet succeeds r) = 0 :=
      Int.ofNat_eq_zero.1 hvalue.symm
    refine (completeRecords_iff hrest).2 (h.hex hrest fun r hr => ?_)
    simpa using List.countP_eq_zero.1 hcount r hr

theorem safeAttributes_iff (succeeds : Call → Bool) (b : Bytes) :
    SafeAttributes succeeds b ↔ AttributesInside succeeds b := by
  have hresult := xattrLoop_result succeeds b
  constructor
  · rintro ⟨calls, ok, hloop, hfalse⟩
    rw [hloop, Option.map_some] at hresult
    split_ifs at hresult with hall hends
    · refine Or.inr ⟨hends, fun hrest heven => (completeAttributes_iff hrest heven).1 ?_⟩
      by_contra hnot
      rw [hfalse hnot, Option.some.injEq, decide_eq_true ⟨hrest, heven⟩] at hresult
      cases hresult
    · exact Or.inl (by simpa using hall)
  · intro h
    by_cases hall : ∀ c ∈ pairCalls (cut fieldSize b).1, succeeds c = true
    · have hnone : ¬ ∃ c ∈ pairCalls (cut fieldSize b).1, succeeds c = false := by
        simpa using hall
      obtain ⟨hends, hhex⟩ := h.resolve_left hnone
      rw [if_pos hall, if_pos hends] at hresult
      obtain ⟨⟨calls, ok⟩, hloop, hvalue⟩ := Option.map_eq_some_iff.1 hresult
      refine ⟨calls, ok, hloop, fun hnot => ?_⟩
      refine hvalue.trans (decide_eq_false ?_)
      rintro ⟨hrest, heven⟩
      exact hnot ((completeAttributes_iff hrest heven).2 (hhex hrest heven))
    · rw [if_neg hall] at hresult
      obtain ⟨⟨calls, ok⟩, hloop, hvalue⟩ := Option.map_eq_some_iff.1 hresult
      exact ⟨calls, ok, hloop, fun _ => hvalue⟩

/-- **Which texts are read safely**, by both. -/
theorem extrametaReads_iff (succeeds : Call → Bool) (b : Bytes) :
    (SafeExtrameta succeeds b ↔ RecordsInside succeeds b)
      ∧ (SafeAttributes succeeds b ↔ AttributesInside succeeds b) :=
  ⟨safeExtrameta_iff succeeds b, safeAttributes_iff succeeds b⟩

/-- A header that is cut off, a length that is no number of eight digits, and the length of a name
that is cut off. -/
theorem extrameta_overrun :
    ¬ SafeExtrameta (fun _ => true) (nameBytes "X1")
      ∧ ¬ SafeExtrameta (fun _ => true) (nameBytes "A1zzzzzzz?")
      ∧ ¬ SafeAttributes (fun _ => true) (nameBytes "1") := by
  refine ⟨?_, ?_, ?_⟩
  · rintro ⟨calls, result, hloop, -⟩
    have hscan : scanRecord (nameBytes "X1") = some (88, 1) := by decide
    rw [extrametaLoop_of_none _ (by decide) (by decide), hscan] at hloop
    cases hloop
  · -- the list is set, and nothing is left
    rw [safeExtrameta_iff]
    intro h
    have hcut : cut recordSize (nameBytes "A1zzzzzzz?") = ([nameBytes "A1zzzzzzz?"], []) := by
      have hfront : front recordSize (nameBytes "A1zzzzzzz?") = some 10 := by decide
      have hnil : front recordSize ((nameBytes "A1zzzzzzz?").drop 10) = none := by decide
      rw [cut_of_some hfront, cut_of_none hnil]
      decide
    have hhex := h.hex
    rw [hcut] at hhex
    have hset : ∀ r ∈ [nameBytes "A1zzzzzzz?"], RecordSet (fun _ => true) r := by
      intro r hr
      rw [List.mem_singleton.1 hr]
      decide
    have hnot : ¬ HexHead 1 (nameBytes "A1zzzzzzz?") := by decide +kernel
    exact hnot (hhex rfl hset _ List.mem_cons_self)
  · rintro ⟨calls, ok, hloop, -⟩
    have hscan : scanHex8 (nameBytes "1") = some 1 := by decide
    rw [xattrLoop_of_none _ (by decide) (by decide), hscan] at hloop
    cases hloop

/-! ## §6. What is set. -/

theorem getNextStr_eq {data : Bytes} {o : Option (Bytes × Bytes)}
    (h : getNextStrChecked data = some o) : getNextStr data = o := by
  unfold getNextStrChecked at h
  unfold getNextStr
  cases hscan : scanHex8 data with
  | none =>
      rw [hscan] at h
      exact Option.some.inj h
  | some s =>
      rw [hscan] at h
      simp only at h ⊢
      split_ifs at h ⊢
      exact Option.some.inj h

/-- **Where all reads are allowed, `do_set_xattr` does what it does over texts.** -/
theorem xattrLoop_eq {succeeds : Call → Bool} (fuel : Nat) :
    ∀ {data : Bytes} {r : List Call × Bool}, data.length ≤ fuel →
      xattrLoop succeeds data = some r → doSetXattr succeeds fuel data = r := by
  induction fuel with
  | zero =>
      intro data r hlen h
      obtain rfl : data = [] := List.length_eq_zero_iff.1 (by omega)
      rw [xattrLoop_nil] at h
      exact Option.some.inj h
  | succ fuel ih =>
      intro data r hlen h
      rw [xattrLoop] at h
      rw [doSetXattr]
      split_ifs at h ⊢
      · exact Option.some.inj h
      · split at h
        next => cases h
        next hname =>
          rw [getNextStr_eq hname]
          exact Option.some.inj h
        next name data₁ hname =>
          rw [getNextStr_eq hname]
          simp only
          split at h
          next => cases h
          next hvalue =>
            rw [getNextStr_eq hvalue]
            exact Option.some.inj h
          next value data₂ hvalue =>
            have := length_getNextStr hname
            have := length_getNextStr hvalue
            rw [getNextStr_eq hvalue]
            simp only at h ⊢
            split_ifs at h ⊢
            · obtain ⟨r', hrest, rfl⟩ := Option.map_eq_some_iff.1 h
              rw [ih (by omega) hrest]
            · exact Option.some.inj h

theorem setRecordChecked_eq {succeeds : Call → Bool} {cmd : UInt8} {m : Bytes}
    {r : List Call × Bool} (h : setRecordChecked succeeds cmd m = some r) :
    setRecord succeeds cmd m = r := by
  unfold setRecordChecked at h
  unfold setRecord
  split_ifs at h ⊢
  · exact Option.some.inj h
  · exact xattrLoop_eq _ le_rfl h
  · exact Option.some.inj h

/-- **And so does `set_extrameta`.** -/
theorem extrametaLoop_eq {succeeds : Call → Bool} (fuel : Nat) :
    ∀ {b : Bytes} {errors : Nat} {r : List Call × Int}, b.length ≤ fuel →
      extrametaLoop succeeds b errors = some r →
        r = ((setRecords succeeds fuel b).1,
          (setRecords succeeds fuel b).2.elim (-1) fun n => ((errors + n : Nat) : Int)) := by
  induction fuel with
  | zero =>
      intro b errors r hlen h
      obtain rfl : b = [] := List.length_eq_zero_iff.1 (by omega)
      rw [extrametaLoop_nil] at h
      exact (Option.some.inj h).symm
  | succ fuel ih =>
      intro b errors r hlen h
      rw [extrametaLoop] at h
      rw [setRecords]
      by_cases hnil : b = []
      · rw [if_pos hnil] at h ⊢
        exact (Option.some.inj h).symm
      · rw [if_neg hnil] at h ⊢
        cases hscan : scanRecord b with
        | none =>
            rw [hscan] at h
            exact (Option.some.inj h).symm
        | some record =>
            obtain ⟨cmd, s⟩ := record
            rw [hscan] at h
            simp only at h ⊢
            have hs : ¬ (b.length < 9 + s ∨ s = 2 ^ 32 - 1) := by
              intro hs
              rw [dif_pos hs] at h
              cases h
            rw [dif_neg hs] at h
            rw [not_or, Nat.not_lt] at hs
            have hshorter : (b.drop (9 + s)).length ≤ fuel := by
              rw [List.length_drop]
              omega
            rw [if_neg (by omega)]
            split at h
            next => cases h
            next calls hset =>
              obtain ⟨q, hrest, rfl⟩ := Option.map_eq_some_iff.1 h
              rw [ih hshorter hrest, setRecordChecked_eq hset]
              cases (setRecords succeeds fuel (b.drop (9 + s))).2 with
              | none => rfl
              | some n => simp
            next calls hset =>
              rw [Option.ite_none_left_eq_some] at h
              obtain ⟨q, hrest, rfl⟩ := Option.map_eq_some_iff.1 h.2
              rw [ih hshorter hrest, setRecordChecked_eq hset]
              cases (setRecords succeeds fuel (b.drop (9 + s))).2 with
              | none => rfl
              | some n => simp [Nat.add_assoc]

end Burp.Client
