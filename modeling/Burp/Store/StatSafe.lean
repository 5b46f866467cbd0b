/-
  Burp.Store.StatSafe — what `decode_stat` reads.

  `decode_stat` goes along a text that comes from a peer or from a manifest, and steps over what
  ends a number without looking whether that is a blank or the end of the text.  The digits are
  looked up in a map of 128 entries, whatever they are.  And it returns early, without setting
  the attributes or the compression, where the text ends right behind a blank.

  Main results:
    * `decodeStatChecked_eq` — where all reads are allowed it does what `decodeStat` does.
    * `decodeStat_safe_iff` — for which texts they are, and everything is set.
-/
import Burp.Store.RoundTrip
import Burp.Text.Pointer

namespace Burp.Store

open FileSystem
open Burp.Text (Pointer deref next splitOn_cases)

/-! ## §1. The code, with its reads. -/

/-- The loop of `from_base64`, which ends at a blank or at the NUL; `none` is a character that
is not in the map. -/
def digitsLoop : Bytes → Nat → Option (Nat × Bytes)
  | [], val => some (val, [])
  | c :: b, val =>
      if c = 32 then some (val, c :: b)
      -- `base64_map` has 128 entries
      else if c < 128 then digitsLoop b ((val * 64 + base64Map c) % 2 ^ 64)
      else none

/-- `from_base64`: the value, and where the number ends. -/
def fromBase64Checked (p : Pointer) : Option (Int × Pointer) := do
  let (neg, b) := minusSign (← p)
  let (val, b) ← digitsLoop b 0
  let val : Int := if val < 2 ^ 63 then val else (val : Int) - 2 ^ 64
  pure (if neg then toInt64 (-val) else val, some b)

/-- A number, and `p++`. -/
def statFieldChecked (p : Pointer) : Option (Int × Pointer) := do
  let (v, p) ← fromBase64Checked p
  pure (v, next p)

/-- The test in front of each of the last fields. -/
def hasFieldChecked (p : Pointer) : Option Bool := do
  -- `*p==' ' || (*p!=0 && *(p+1)==' ')`
  let c ← deref p
  if c = 32 then pure true
  else if c ≠ 0 then
    let c' ← deref (next p)
    pure (decide (c' = 32))
  else pure false

/-- What `decode_stat` sets, the fields of the stat as `plug` gets them; `none` is something
that is left as it was. -/
structure DecodedStat where
  vals : Stat
  winattr : Option Int := none
  compression : Option Int := none
  deriving DecidableEq, Repr

/-- `plug`: the conversions to the types of the fields. -/
def plug (vals : Stat) : Stat :=
  { vals with
    dev := vals.dev % 2 ^ 64
    ino := vals.ino % 2 ^ 64
    mode := vals.mode % 2 ^ 32
    nlink := vals.nlink % 2 ^ 64
    uid := vals.uid % 2 ^ 32
    gid := vals.gid % 2 ^ 32
    rdev := vals.rdev % 2 ^ 64 }

/-- The conversion to `int`. -/
def toInt (v : Int) : Int := if v % 2 ^ 32 < 2 ^ 31 then v % 2 ^ 32 else v % 2 ^ 32 - 2 ^ 32

/-- The end of `decode_stat`, from the compression on. -/
def decodeCompression (vals : Stat) (winattr : Int) (p : Pointer) : Option DecodedStat := do
  if ← hasFieldChecked p then
    let p := next p
    -- the compression stays as it was
    if (← deref p) = 0 then pure { vals := vals, winattr := winattr }
    else
      let (val, _) ← fromBase64Checked p
      pure { vals := vals, winattr := winattr, compression := toInt val }
  else pure { vals := vals, winattr := winattr, compression := some (-1) }

/-- From the attributes on. -/
def decodeWinattr (vals : Stat) (p : Pointer) : Option DecodedStat := do
  if ← hasFieldChecked p then
    let (val, p) ← fromBase64Checked (next p)
    decodeCompression vals val p
  else decodeCompression vals 0 p

/-- From the flags on. -/
def decodeFlags (vals : Stat) (p : Pointer) : Option DecodedStat := do
  if ← hasFieldChecked p then
    let p := next p
    -- the attributes and the compression stay as they were
    if (← deref p) = 0 then pure { vals := vals }
    else
      -- `st_flags` is set on FreeBSD only
      let (_, p) ← fromBase64Checked p
      decodeWinattr vals p
  else decodeWinattr vals p

/-- `decode_stat`; `none` is a read that is not allowed. -/
def decodeStatChecked (p : Pointer) : Option DecodedStat := do
  let (dev, p) ← statFieldChecked p
  let (ino, p) ← statFieldChecked p
  let (mode, p) ← statFieldChecked p
  let (nlink, p) ← statFieldChecked p
  let (uid, p) ← statFieldChecked p
  let (gid, p) ← statFieldChecked p
  let (rdev, p) ← statFieldChecked p
  let (size, p) ← statFieldChecked p
  let (blksize, p) ← statFieldChecked p
  let (blocks, p) ← statFieldChecked p
  let (atime, p) ← statFieldChecked p
  let (mtime, p) ← statFieldChecked p
  -- the last of the thirteen has no `p++`
  let (ctime, p) ← fromBase64Checked p
  decodeFlags
    { dev := dev, ino := ino, mode := mode, nlink := nlink, uid := uid, gid := gid, rdev := rdev
      size := size, blksize := blksize, blocks := blocks, atime := atime, mtime := mtime
      ctime := ctime } p

/-! ## §2. Numbers. -/

/-- All characters are in the map. -/
def Mapped (f : Bytes) : Prop := ∀ c ∈ f, c < 128

instance : DecidablePred Mapped := fun f => inferInstanceAs (Decidable (∀ c ∈ f, c < 128))

/-- What follows a field: nothing, or a blank and other fields. -/
def Follows (r : Bytes) (fs : List Bytes) : Prop :=
  r = [] ∧ fs = [] ∨ ∃ b, r = 32 :: b ∧ fs = b.splitOn 32

theorem digitsLoop_field {f r : Bytes} {fs : List Bytes} (hf : 32 ∉ f) (hr : Follows r fs)
    (val : Nat) :
    digitsLoop (f ++ r) val
      = if Mapped f then some (f.foldl (fun v c => (v * 64 + base64Map c) % 2 ^ 64) val, r)
        else none := by
  induction f generalizing val with
  | nil =>
      rcases hr with ⟨rfl, -⟩ | ⟨b, rfl, -⟩
      · simp [digitsLoop, Mapped]
      · simp [digitsLoop, Mapped]
  | cons c f ih =>
      have hc : c ≠ 32 := fun h => hf (by simp [h])
      have hmapped : Mapped (c :: f) ↔ c < 128 ∧ Mapped f := List.forall_mem_cons
      rw [List.cons_append, digitsLoop, if_neg hc, ih fun h => hf (List.mem_cons_of_mem _ h),
        List.foldl_cons]
      by_cases hlt : c < 128
      · simp only [hlt, hmapped, true_and, if_true]
      · simp only [hlt, hmapped, false_and, if_false]

theorem minusSign_append {f r : Bytes} {fs : List Bytes} (hr : Follows r fs) :
    minusSign (f ++ r) = ((minusSign f).1, (minusSign f).2 ++ r) := by
  cases f with
  | nil =>
      rcases hr with ⟨rfl, -⟩ | ⟨b, rfl, -⟩
      · rfl
      · rfl
  | cons c f =>
      by_cases hc : c = 45
      · subst hc
        rfl
      · have hsign : ∀ b : Bytes, minusSign (c :: b) = (false, c :: b) := by
          intro b
          unfold minusSign
          split
          next heq => exact absurd (List.cons.inj heq).1 hc
          next => rfl
        rw [List.cons_append, hsign, hsign, List.cons_append]

/-- The number that a field stands for. -/
def numberOf (f : Bytes) : Int :=
  let val := (minusSign f).2.foldl (fun v c => (v * 64 + base64Map c) % 2 ^ 64) 0
  let val : Int := if val < 2 ^ 63 then val else (val : Int) - 2 ^ 64
  if (minusSign f).1 then toInt64 (-val) else val

theorem mem_minusSign {c : UInt8} {f : Bytes} (h : c ∈ (minusSign f).2) : c ∈ f := by
  unfold minusSign at h
  split at h
  · exact List.mem_cons_of_mem _ h
  · exact h

theorem mapped_minusSign {f : Bytes} : Mapped (minusSign f).2 ↔ Mapped f := by
  unfold minusSign
  split
  · simp [Mapped]
  · rfl

/-- `from_base64` in front of a field. -/
theorem fromBase64Checked_field {f r : Bytes} {fs : List Bytes} (hf : 32 ∉ f)
    (hr : Follows r fs) :
    fromBase64Checked (some (f ++ r)) = if Mapped f then some (numberOf f, some r) else none := by
  have hloop := digitsLoop_field (f := (minusSign f).2) (fun h => hf (mem_minusSign h)) hr 0
  simp only [mapped_minusSign] at hloop
  by_cases hm : Mapped f
  · simp [fromBase64Checked, minusSign_append hr, hloop, hm, numberOf]
  · simp [fromBase64Checked, minusSign_append hr, hloop, hm]

theorem fromBase64_field {f r : Bytes} {fs : List Bytes} (hf : 32 ∉ f) (hnul : 0 ∉ f)
    (hr : Follows r fs) : fromBase64 (f ++ r) = (numberOf f, r) := by
  have hall : ∀ c ∈ (minusSign f).2, decide (c ≠ 0 ∧ c ≠ 32) = true := by
    intro c hc
    have hmem := mem_minusSign hc
    simp only [decide_eq_true_eq]
    exact ⟨fun h => hnul (h ▸ hmem), fun h => hf (h ▸ hmem)⟩
  have hwhile : ((minusSign f).2 ++ r).takeWhile (fun c => decide (c ≠ 0 ∧ c ≠ 32))
      = (minusSign f).2 := by
    rw [List.takeWhile_append_of_pos hall]
    rcases hr with ⟨rfl, -⟩ | ⟨b, rfl, -⟩ <;> simp
  unfold fromBase64 numberOf
  simp only [minusSign_append hr, hwhile, List.drop_left]

/-! ## §3. Fields. -/

/-- Where the next field begins: in front of these fields, or behind the NUL. -/
def Starts (p : Pointer) (fs : List Bytes) : Prop :=
  p = none ∧ fs = [] ∨ ∃ b, p = some b ∧ 0 ∉ b ∧ fs = b.splitOn 32

theorem Starts.cases {p : Pointer} {fs : List Bytes} (h : Starts p fs) :
    p = none ∧ fs = []
      ∨ ∃ f r fs', p = some (f ++ r) ∧ 32 ∉ f ∧ 0 ∉ f ∧ 0 ∉ r ∧ Follows r fs' ∧ fs = f :: fs' := by
  rcases h with h | ⟨b, rfl, hnul, rfl⟩
  · exact Or.inl h
  · rcases splitOn_cases 32 b with ⟨hb, hsplit⟩ | ⟨f, r, rfl, hf, hsplit⟩
    · exact Or.inr ⟨b, [], [], by rw [List.append_nil], hb, hnul, List.not_mem_nil,
        Or.inl ⟨rfl, rfl⟩, hsplit⟩
    · rw [List.mem_append, not_or] at hnul
      exact Or.inr ⟨f, 32 :: r, r.splitOn 32, rfl, hf, hnul.1, hnul.2, Or.inr ⟨r, rfl, rfl⟩, hsplit⟩

/-- Behind a blank the next field begins. -/
theorem Follows.starts {r : Bytes} {fs : List Bytes} (h : Follows r fs) (hnul : 0 ∉ r) :
    Starts (next (some r)) fs := by
  rcases h with ⟨rfl, rfl⟩ | ⟨b, rfl, rfl⟩
  · exact Or.inl ⟨rfl, rfl⟩
  · exact Or.inr ⟨b, rfl, fun h => hnul (List.mem_cons_of_mem _ h), rfl⟩

/-- Everything is read from where it may be, and all is set. -/
def Sets (o : Option DecodedStat) : Prop :=
  ∃ d, o = some d ∧ d.winattr.isSome ∧ d.compression.isSome

/-- A field is in the map, and what comes after it is as `C` says. -/
def First (C : List Bytes → Prop) (fs : List Bytes) : Prop :=
  ∃ f fs', fs = f :: fs' ∧ Mapped f ∧ C fs'

theorem not_first_nil (C : List Bytes → Prop) : ¬ First C [] := by
  rintro ⟨f, fs', h, -⟩
  exact List.cons_ne_nil f fs' h.symm

theorem first_cons {C : List Bytes → Prop} {f : Bytes} {fs : List Bytes} :
    First C (f :: fs) ↔ Mapped f ∧ C fs := by
  constructor
  · rintro ⟨_, _, heq, h⟩
    obtain ⟨rfl, rfl⟩ := List.cons.inj heq
    exact h
  · exact fun h => ⟨f, fs, rfl, h⟩

/-- One number. -/
theorem bind_number {p : Pointer} {fs : List Bytes} (h : Starts p fs)
    {k : Int × Pointer → Option DecodedStat} {C : List Bytes → Prop}
    (hk : ∀ v r fs', 0 ∉ r → Follows r fs' → (Sets (k (v, some r)) ↔ C fs')) :
    Sets ((fromBase64Checked p).bind k) ↔ First C fs := by
  rcases h.cases with ⟨rfl, rfl⟩ | ⟨f, r, fs', rfl, hf, -, hr, hfollows, rfl⟩
  · -- the pointer is behind the NUL
    simp [Sets, not_first_nil, fromBase64Checked]
  · rw [fromBase64Checked_field hf hfollows]
    by_cases hm : Mapped f
    · rw [if_pos hm, Option.bind_some, hk _ _ _ hr hfollows]
      simp [first_cons, hm]
    · rw [if_neg hm, Option.bind_none]
      simp [Sets, first_cons, hm]

/-- One number, and the step over what ends it. -/
theorem bind_statField {p : Pointer} {fs : List Bytes} (h : Starts p fs)
    {k : Int × Pointer → Option DecodedStat} {C : List Bytes → Prop}
    (hk : ∀ v p' fs', Starts p' fs' → (Sets (k (v, p')) ↔ C fs')) :
    Sets ((statFieldChecked p).bind k) ↔ First C fs := by
  have hassoc : (statFieldChecked p).bind k
      = (fromBase64Checked p).bind fun x => k (x.1, next x.2) := by
    rw [statFieldChecked]
    cases fromBase64Checked p <;> rfl
  rw [hassoc]
  exact bind_number h fun v r fs' hnul hfollows => hk v _ fs' (hfollows.starts hnul)

/-! ## §4. The last fields. -/

theorem hasFieldChecked_follows {r : Bytes} {fs : List Bytes} (h : Follows r fs) :
    hasFieldChecked (some r) = some (decide (fs ≠ [])) := by
  rcases h with ⟨rfl, rfl⟩ | ⟨b, rfl, rfl⟩
  · rfl
  · have hne := List.splitOn_ne_nil (32 : UInt8) b
    simp [hasFieldChecked, hne]

theorem splitOn_eq_empty {b : Bytes} : b.splitOn 32 = [[]] ↔ b = [] := by
  constructor
  · intro h
    have hback : [32].intercalate (b.splitOn 32) = b := List.intercalate_splitOn 32
    rw [h] at hback
    exact hback.symm
  · rintro rfl
    exact List.splitOn_nil 32

/-- The NUL is right behind a blank where the only field that is left is empty. -/
theorem Starts.deref {p : Pointer} {fs : List Bytes} (h : Starts p fs) (hfs : fs ≠ []) :
    ∃ c, deref p = some c ∧ (c = 0 ↔ fs = [[]]) := by
  rcases h with ⟨-, rfl⟩ | ⟨b, rfl, hnul, rfl⟩
  · exact absurd rfl hfs
  · rw [splitOn_eq_empty]
    cases b with
    | nil => exact ⟨0, rfl, by simp⟩
    | cons c b => exact ⟨c, rfl, iff_of_false (fun h => hnul (h ▸ List.mem_cons_self)) (by simp)⟩

/-- From the compression on. -/
def LevelFields (fs : List Bytes) : Prop := fs ≠ [[]] ∧ ∀ f ∈ fs.take 1, Mapped f

theorem decodeCompression_sets {r : Bytes} {fs : List Bytes} (hr : Follows r fs) (hnul : 0 ∉ r)
    (vals : Stat) (winattr : Int) :
    Sets (decodeCompression vals winattr (some r)) ↔ LevelFields fs := by
  rw [decodeCompression, hasFieldChecked_follows hr]
  cases fs with
  | nil => simp [Sets, LevelFields]
  | cons f fs =>
      have hnext := hr.starts hnul
      obtain ⟨c, hc, hzero⟩ := hnext.deref (List.cons_ne_nil f fs)
      simp only [Option.bind_eq_bind, Option.bind_some, hc, ne_eq, reduceCtorEq, not_false_eq_true,
        decide_true, if_true]
      by_cases h0 : c = 0
      · simp [Sets, LevelFields, h0, hzero.1 h0]
      · rw [if_neg h0, bind_number hnext (C := fun _ => True)
          (fun v r' fs' _ _ => by simp [Sets])]
        simp [first_cons, LevelFields, mt hzero.2 h0]

/-- From the attributes on. -/
def AttributeFields (fs : List Bytes) : Prop :=
  (∀ f ∈ fs.take 1, Mapped f) ∧ LevelFields (fs.drop 1)

theorem decodeWinattr_sets {r : Bytes} {fs : List Bytes} (hr : Follows r fs) (hnul : 0 ∉ r)
    (vals : Stat) : Sets (decodeWinattr vals (some r)) ↔ AttributeFields fs := by
  rw [decodeWinattr, hasFieldChecked_follows hr]
  cases fs with
  | nil =>
      simp only [Option.bind_eq_bind, Option.bind_some, ne_eq, not_true_eq_false, decide_false,
        Bool.false_eq_true, if_false]
      rw [decodeCompression_sets hr hnul]
      simp [AttributeFields]
  | cons f fs =>
      simp only [Option.bind_eq_bind, Option.bind_some, ne_eq, reduceCtorEq, not_false_eq_true,
        decide_true, if_true]
      rw [bind_number (hr.starts hnul)
        (fun v r' fs' hnul' hr' => decodeCompression_sets hr' hnul' vals v)]
      simp [first_cons, AttributeFields]

/-- From the flags on. -/
def FlagFields (fs : List Bytes) : Prop :=
  fs ≠ [[]] ∧ (∀ f ∈ fs.take 1, Mapped f) ∧ AttributeFields (fs.drop 1)

theorem decodeFlags_sets {r : Bytes} {fs : List Bytes} (hr : Follows r fs) (hnul : 0 ∉ r)
    (vals : Stat) : Sets (decodeFlags vals (some r)) ↔ FlagFields fs := by
  rw [decodeFlags, hasFieldChecked_follows hr]
  cases fs with
  | nil =>
      simp only [Option.bind_eq_bind, Option.bind_some, ne_eq, not_true_eq_false, decide_false,
        Bool.false_eq_true, if_false]
      rw [decodeWinattr_sets hr hnul]
      simp [FlagFields]
  | cons f fs =>
      have hnext := hr.starts hnul
      obtain ⟨c, hc, hzero⟩ := hnext.deref (List.cons_ne_nil f fs)
      simp only [Option.bind_eq_bind, Option.bind_some, hc, ne_eq, reduceCtorEq, not_false_eq_true,
        decide_true, if_true]
      by_cases h0 : c = 0
      · simp [Sets, FlagFields, h0, hzero.1 h0]
      · rw [if_neg h0, bind_number hnext
          (fun v r' fs' hnul' hr' => decodeWinattr_sets hr' hnul' vals)]
        simp [first_cons, FlagFields, mt hzero.2 h0]

/-! ## §5. Safety. -/

/-- The first `n` fields are in the map, and what comes after them is as `C` says. -/
def Firsts (C : List Bytes → Prop) : Nat → List Bytes → Prop
  | 0 => C
  | n + 1 => First (Firsts C n)

theorem firsts_iff (C : List Bytes → Prop) (n : Nat) (fs : List Bytes) :
    Firsts C n fs ↔ n ≤ fs.length ∧ (∀ f ∈ fs.take n, Mapped f) ∧ C (fs.drop n) := by
  induction n generalizing fs with
  | zero => simp [Firsts]
  | succ n ih =>
      cases fs with
      | nil => simp [Firsts, not_first_nil]
      | cons f fs =>
          rw [Firsts, first_cons, ih, List.length_cons, List.take_succ_cons, List.drop_succ_cons,
            List.forall_mem_cons, Nat.add_le_add_iff_right]
          tauto

theorem decodeStatChecked_sets {p : Pointer} {fs : List Bytes} (h : Starts p fs) :
    Sets (decodeStatChecked p) ↔ Firsts FlagFields 13 fs :=
  bind_statField h fun _ _ _ h => bind_statField h fun _ _ _ h => bind_statField h fun _ _ _ h =>
  bind_statField h fun _ _ _ h => bind_statField h fun _ _ _ h => bind_statField h fun _ _ _ h =>
  bind_statField h fun _ _ _ h => bind_statField h fun _ _ _ h => bind_statField h fun _ _ _ h =>
  bind_statField h fun _ _ _ h => bind_statField h fun _ _ _ h => bind_statField h fun _ _ _ h =>
  bind_number h fun _ _ _ hnul hr => decodeFlags_sets hr hnul _

/-- The fields of a payload, up to its first NUL. -/
def statFields (payload : Bytes) : List Bytes := (cString payload).splitOn 32

/-- The first sixteen fields, as the tests of `decode_stat` take them. -/
theorem take_sixteen (fs : List Bytes) :
    fs.take 16 = fs.take 13
      ++ ((fs.drop 13).take 1 ++ ((fs.drop 14).take 1 ++ (fs.drop 15).take 1)) := by
  calc fs.take 16 = fs.take 13 ++ (fs.drop 13).take (1 + (1 + 1)) :=
        List.take_add (i := 13) (j := 3)
    _ = _ := by rw [List.take_add, List.take_add, List.drop_drop, List.drop_drop]

/-- **Which payloads are read safely**: those with the thirteen fields that are always read, no
character of the first sixteen outside the map, and no blank right before the NUL where the flags
or the compression begin. -/
theorem decodeStat_safe_iff (payload : Bytes) :
    Sets (decodeStatChecked (some (cString payload)))
      ↔ 13 ≤ (statFields payload).length ∧ (∀ f ∈ (statFields payload).take 16, Mapped f)
        ∧ (statFields payload).drop 13 ≠ [[]] ∧ (statFields payload).drop 15 ≠ [[]] := by
  have hstarts : Starts (some (cString payload)) (statFields payload) :=
    Or.inr ⟨_, rfl, zero_notMem_cString payload, rfl⟩
  rw [decodeStatChecked_sets hstarts, firsts_iff, take_sixteen]
  simp only [FlagFields, AttributeFields, LevelFields, List.drop_drop, List.forall_mem_append]
  tauto

/-- A record that ends after its first number, a character that is not in the map, and a record
that ends behind a blank. -/
theorem decodeStat_truncated :
    ¬ Sets (decodeStatChecked (some (cString [65])))
      ∧ ¬ Sets (decodeStatChecked (some (cString [195, 164])))
      ∧ ¬ Sets (decodeStatChecked
        (some (cString ((List.replicate 13 [65, 32]).flatten)))) := by
  refine ⟨?_, ?_, ?_⟩
  · rintro ⟨d, hd, -⟩
    cases hd
  · rintro ⟨d, hd, -⟩
    cases hd
  · rintro ⟨d, hd, hset, -⟩
    have hleft : decodeStatChecked (some (cString ((List.replicate 13 [65, 32]).flatten)))
        = some { vals := { dev := 0 } } := by
      decide
    rw [hleft, Option.some.injEq] at hd
    subst hd
    cases hset

/-! ## §6. What is read. -/

theorem fromBase64Checked_some {b : Bytes} {v : Int} {p : Pointer} (hnul : 0 ∉ b)
    (h : fromBase64Checked (some b) = some (v, p)) :
    ∃ r fs, p = some r ∧ Follows r fs ∧ 0 ∉ r ∧ fromBase64 b = (v, r) := by
  have hstarts : Starts (some b) (b.splitOn 32) := Or.inr ⟨b, rfl, hnul, rfl⟩
  rcases hstarts.cases with ⟨heq, -⟩ | ⟨f, r, fs, heq, hf, hnulf, hnulr, hr, -⟩
  · cases heq
  · obtain rfl := Option.some.inj heq
    rw [fromBase64Checked_field hf hr] at h
    split at h
    · obtain ⟨rfl, rfl⟩ := Prod.mk.inj (Option.some.inj h)
      exact ⟨r, fs, rfl, hr, hnulr, fromBase64_field hf hnulf hr⟩
    · cases h

/-- A number with another behind it. -/
theorem statFieldChecked_bind {b : Bytes} {k : Int × Pointer → Option DecodedStat}
    {d : DecodedStat} (hnul : 0 ∉ b) (h : (statFieldChecked (some b)).bind k = some d)
    (hend : ∀ v, k (v, none) = none) :
    ∃ v b', statField b = (v, b') ∧ 0 ∉ b' ∧ k (v, some b') = some d := by
  rw [statFieldChecked] at h
  obtain ⟨⟨v, p⟩, hfield, h⟩ := Option.bind_eq_some_iff.1 h
  obtain ⟨⟨v', p'⟩, hnumber, hstep⟩ := Option.bind_eq_some_iff.1 hfield
  obtain ⟨rfl, rfl⟩ := Prod.mk.inj (Option.some.inj hstep)
  obtain ⟨r, fs, rfl, hr, hnulr, heq⟩ := fromBase64Checked_some hnul hnumber
  rcases hr with ⟨rfl, -⟩ | ⟨b', rfl, -⟩
  · -- the text ends here, and `p++` goes behind its NUL
    rw [Text.next_nil, hend] at h
    cases h
  · refine ⟨v', b', ?_, fun h => hnulr (List.mem_cons_of_mem _ h), h⟩
    rw [statField, heq]
    rfl

/-- The compression as `decode_stat` reads it. -/
def levelOf (sb : Sbuf) (b : Bytes) : Int :=
  if hasField b then
    if b.drop 1 = [] then sb.compression else toInt (fromBase64 (b.drop 1)).1
  else -1

theorem decodeCompression_eq {vals : Stat} {winattr : Int} {r : Bytes} {fs : List Bytes}
    {d : DecodedStat} (hr : Follows r fs) (hnul : 0 ∉ r)
    (h : decodeCompression vals winattr (some r) = some d) (sb : Sbuf) :
    d.vals = vals ∧ d.winattr = some winattr
      ∧ d.compression.getD sb.compression = levelOf sb r := by
  rcases hr with ⟨rfl, -⟩ | ⟨b, rfl, -⟩
  · obtain rfl := Option.some.inj h
    exact ⟨rfl, rfl, rfl⟩
  · have hnulb : 0 ∉ b := fun h => hnul (List.mem_cons_of_mem _ h)
    cases b with
    | nil =>
        obtain rfl := Option.some.inj h
        exact ⟨rfl, rfl, rfl⟩
    | cons c b =>
        have hc : c ≠ 0 := fun h => hnulb (h ▸ List.mem_cons_self)
        have hread : decodeCompression vals winattr (some (32 :: c :: b))
            = (fromBase64Checked (some (c :: b))).bind fun x =>
              some { vals := vals, winattr := winattr, compression := toInt x.1 } := if_neg hc
        rw [hread] at h
        obtain ⟨⟨val, p⟩, hnumber, h⟩ := Option.bind_eq_some_iff.1 h
        obtain ⟨r', fs', -, -, -, heq⟩ := fromBase64Checked_some hnulb hnumber
        obtain rfl := Option.some.inj h
        refine ⟨rfl, rfl, ?_⟩
        simp [levelOf, hasField_blank, heq]

theorem decodeWinattr_eq {vals : Stat} {r : Bytes} {fs : List Bytes} {d : DecodedStat}
    (hr : Follows r fs) (hnul : 0 ∉ r) (h : decodeWinattr vals (some r) = some d) (sb : Sbuf) :
    d.vals = vals
      ∧ (d.winattr.getD sb.winattr, d.compression.getD sb.compression)
        = if hasField r then
            ((fromBase64 (r.drop 1)).1, levelOf sb (fromBase64 (r.drop 1)).2)
          else (0, levelOf sb r) := by
  rcases hr with ⟨rfl, -⟩ | ⟨b, rfl, -⟩
  · obtain ⟨hvals, hattr, hlevel⟩ := decodeCompression_eq (Or.inl ⟨rfl, rfl⟩) hnul h sb
    rw [hattr, hlevel]
    exact ⟨hvals, rfl⟩
  · have hnulb : 0 ∉ b := fun h => hnul (List.mem_cons_of_mem _ h)
    obtain ⟨⟨val, p⟩, hnumber, h⟩ := Option.bind_eq_some_iff.1 h
    obtain ⟨r', fs', rfl, hr', hnul', heq⟩ := fromBase64Checked_some hnulb hnumber
    obtain ⟨hvals, hattr, hlevel⟩ := decodeCompression_eq hr' hnul' h sb
    rw [hattr, hlevel, hasField_blank, if_pos rfl, List.drop_succ_cons, List.drop_zero, heq]
    exact ⟨hvals, rfl⟩

theorem decodeFlags_eq {vals : Stat} {r : Bytes} {fs : List Bytes} {d : DecodedStat}
    (hr : Follows r fs) (hnul : 0 ∉ r) (h : decodeFlags vals (some r) = some d) (sb : Sbuf)
    (stat : Stat) :
    d.vals = vals
      ∧ decodeLast sb stat r
        = (stat, d.winattr.getD sb.winattr, d.compression.getD sb.compression) := by
  rcases hr with ⟨rfl, -⟩ | ⟨b, rfl, -⟩
  · obtain ⟨hvals, heq⟩ := decodeWinattr_eq (Or.inl ⟨rfl, rfl⟩) hnul h sb
    rw [heq]
    exact ⟨hvals, rfl⟩
  · have hnulb : 0 ∉ b := fun h => hnul (List.mem_cons_of_mem _ h)
    cases b with
    | nil =>
        obtain rfl := Option.some.inj h
        exact ⟨rfl, rfl⟩
    | cons c b =>
        have hc : c ≠ 0 := fun h => hnulb (h ▸ List.mem_cons_self)
        have hread : decodeFlags vals (some (32 :: c :: b))
            = (fromBase64Checked (some (c :: b))).bind fun x => decodeWinattr vals x.2 :=
          if_neg hc
        rw [hread] at h
        obtain ⟨⟨val, p⟩, hnumber, h⟩ := Option.bind_eq_some_iff.1 h
        obtain ⟨r', fs', rfl, hr', hnul', heq⟩ := fromBase64Checked_some hnulb hnumber
        obtain ⟨hvals, hlast⟩ := decodeWinattr_eq hr' hnul' h sb
        refine ⟨hvals, ?_⟩
        rw [hlast]
        unfold decodeLast
        simp only [hasField_blank, List.drop_succ_cons, List.drop_zero, heq, reduceCtorEq,
          and_false, if_false, if_true]
        by_cases hfield : hasField r' = true
        · simp only [hfield, if_true, levelOf, toInt]
          split_ifs <;> rfl
        · simp [hfield, levelOf]

/-- **Where all reads are allowed, `decode_stat` does what it does over texts.** -/
theorem decodeStatChecked_eq {b : Bytes} {d : DecodedStat} (hnul : 0 ∉ b)
    (h : decodeStatChecked (some b) = some d) (sb : Sbuf) :
    decodeStat sb b
      = (plug d.vals, d.winattr.getD sb.winattr, d.compression.getD sb.compression) := by
  obtain ⟨dev, b₁, h₁, n₁, h⟩ := statFieldChecked_bind hnul h fun _ => rfl
  obtain ⟨ino, b₂, h₂, n₂, h⟩ := statFieldChecked_bind n₁ h fun _ => rfl
  obtain ⟨mode, b₃, h₃, n₃, h⟩ := statFieldChecked_bind n₂ h fun _ => rfl
  obtain ⟨nlink, b₄, h₄, n₄, h⟩ := statFieldChecked_bind n₃ h fun _ => rfl
  obtain ⟨uid, b₅, h₅, n₅, h⟩ := statFieldChecked_bind n₄ h fun _ => rfl
  obtain ⟨gid, b₆, h₆, n₆, h⟩ := statFieldChecked_bind n₅ h fun _ => rfl
  obtain ⟨rdev, b₇, h₇, n₇, h⟩ := statFieldChecked_bind n₆ h fun _ => rfl
  obtain ⟨size, b₈, h₈, n₈, h⟩ := statFieldChecked_bind n₇ h fun _ => rfl
  obtain ⟨blksize, b₉, h₉, n₉, h⟩ := statFieldChecked_bind n₈ h fun _ => rfl
  obtain ⟨blocks, b₁₀, h₁₀, n₁₀, h⟩ := statFieldChecked_bind n₉ h fun _ => rfl
  obtain ⟨atime, b₁₁, h₁₁, n₁₁, h⟩ := statFieldChecked_bind n₁₀ h fun _ => rfl
  obtain ⟨mtime, b₁₂, h₁₂, n₁₂, h⟩ := statFieldChecked_bind n₁₁ h fun _ => rfl
  obtain ⟨⟨ctime, p⟩, hnumber, h⟩ := Option.bind_eq_some_iff.1 h
  obtain ⟨r, fs, rfl, hr, hnulr, hctime⟩ := fromBase64Checked_some n₁₂ hnumber
  obtain ⟨hvals, hlast⟩ := decodeFlags_eq hr hnulr h sb (plug d.vals)
  rw [← hlast, hvals]
  unfold decodeStat
  simp only [h₁, h₂, h₃, h₄, h₅, h₆, h₇, h₈, h₉, h₁₀, h₁₁, h₁₂, hctime, plug]

end Burp.Store
