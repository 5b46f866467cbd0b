/-
  Burp.Client.LongList — the lines of a long listing (list_client.c).

  `ls_output` puts what it knows of an entry into a buffer of its caller, one part behind the
  other, and knows nothing of the size of that buffer: the status server has 1024 bytes for a
  line and the client 2048, while a name in a manifest can have up to 65535.  For a listing in
  JSON `escape` puts a backslash before each quote and each backslash of a name.  It allocates
  two bytes for each character, and none for the terminator.

  Main results:
    * `lsOutput_eq` — the line, if it fits.
    * `lineInside_of_short` — the names that always do.
    * `unescape_escapeText` — the backslashes can be undone.
    * `long_listing_iff` — the lines and the names that stay inside.
-/
import Burp.Store.RoundTrip
import Burp.Text.Decimal

namespace Burp.Client

open FileSystem Burp.Store
open Burp.Text (decimal decimalInt decimal_length_le)

/-! ## §1. The line. -/

/-- `struct tm`. -/
structure Tm where
  year : Int
  mon : Int
  mday : Int
  hour : Int
  min : Int
  sec : Int

/-- An `int`, of what has been computed or converted. -/
def toInt (z : Int) : Int := z.bmod (2 ^ 32)

/-- `%wd`. -/
def blankPadded (w : Nat) (text : Bytes) : Bytes := List.replicate (w - text.length) 32 ++ text

/-- `%0wd`: the zeros go behind the sign. -/
def zeroPadded (w : Nat) (z : Int) : Bytes :=
  if z < 0 then 45 :: (List.replicate (w - 1 - (decimal z.natAbs).length) 48 ++ decimal z.natAbs)
  else List.replicate (w - (decimal z.natAbs).length) 48 ++ decimal z.natAbs

/-- The three characters for a class of users, whose highest bit is `hi`. -/
def permissions (mode hi special : Nat) (both alone : UInt8) : Bytes :=
  [if mode.testBit hi then 114 else 45,
   if mode.testBit (hi - 1) then 119 else 45,
   if mode.testBit special then if mode.testBit (hi - 2) then both else alone
   else if mode.testBit (hi - 2) then 120 else 45]

/-- `encode_mode`. -/
def encodeMode (mode : Nat) : Bytes :=
  let type := mode / 2 ^ 12 % 16
  (if type = 4 then 100 else if type = 6 then 98 else if type = 2 then 99
    else if type = 10 then 108 else if type = 1 then 112 else if type = 12 then 115 else 45)
    :: (permissions mode 8 11 115 83 ++ permissions mode 5 10 115 83
      ++ permissions mode 2 9 116 84)

/-- The text of `encode_time`. -/
def timeText (tm : Tm) : Bytes :=
  zeroPadded 4 (toInt (tm.year + 1900)) ++ 45 :: zeroPadded 2 (toInt (tm.mon + 1))
    ++ 45 :: zeroPadded 2 tm.mday ++ 32 :: zeroPadded 2 tm.hour
    ++ 58 :: zeroPadded 2 tm.min ++ 58 :: zeroPadded 2 tm.sec

/-- A text and the NUL behind it are put behind what is in a buffer of so many bytes; nothing if
they do not fit. -/
def put (size : Nat) (buf text : Bytes) : Option Bytes :=
  if buf.length + text.length + 1 ≤ size then some (buf ++ text) else none

/-- `encode_time`: for a time that `localtime` has no date for there is no text. -/
def encodeTime (size : Nat) (localtime : Int → Option Tm) (time : Int) (buf : Bytes) :
    Option Bytes :=
  match localtime time with
  | none => some buf
  | some tm => put size buf (timeText tm)

/-- The texts of the four numbers of a line. -/
def nlinkText (statp : Stat) : Bytes :=
  32 :: blankPadded 2 (decimalInt (toInt statp.nlink)) ++ [32]

def ownerText (statp : Stat) : Bytes :=
  blankPadded 5 (decimalInt (toInt statp.uid))
    ++ 32 :: blankPadded 5 (decimalInt (toInt statp.gid))

def sizeText (statp : Stat) : Bytes :=
  32 :: blankPadded 7 (decimal (statp.size % 2 ^ 64).toNat) ++ [32]

/-- `ls_output` into a buffer of so many bytes: what is in it then, as a string. -/
def lsOutput (size : Nat) (localtime : Int → Option Tm) (fname : Bytes) (statp : Stat) :
    Option Bytes := do
  let buf ← put size [] (encodeMode (statp.mode % 2 ^ 32).toNat)
  let buf ← put size buf (nlinkText statp)
  let buf ← put size buf (ownerText statp)
  let buf ← put size buf (sizeText statp)
  -- Display most recent time
  let time := if statp.mtime < statp.ctime then statp.ctime else statp.mtime
  let buf ← encodeTime size localtime time buf
  put size buf (32 :: cString fname)

/-- Who has a buffer for lines. -/
inductive Caller
  /-- `browse_manifest`. -/
  | statusServer
  /-- `do_list_client`. -/
  | client

/-- `sizeof(ls)`. -/
def Caller.size : Caller → Nat
  | .statusServer => 1024
  | .client => 2048

/-! ## §2. Names in JSON. -/

/-- `echars`. -/
def isEchar (c : UInt8) : Bool := c == 92 || c == 34

/-- `estr[j++] = c` in so many bytes. -/
def putChar (size : Nat) (estr : Bytes) (c : UInt8) : Option Bytes :=
  if estr.length < size then some (estr ++ [c]) else none

/-- The loop of `escape`. -/
def escapeLoop (size : Nat) : Bytes → Bytes → Option Bytes
  | [], estr => some estr
  | c :: str, estr => do
      let estr ← if isEchar c then putChar size estr 92 else some estr
      let estr ← putChar size estr c
      escapeLoop size str estr

/-- `escape` of a string: the bytes that it writes, the NUL included.  Nothing is that one of
them is not in the memory it has allocated, or that there is none: the size of that is computed
as an `int`, and may be one that an `int` cannot be or that `malloc` does not give. -/
def escape (str : Bytes) : Option Bytes := do
  let n := toInt str.length
  if n < 0 ∨ 2 ^ 31 ≤ 2 * n then none
  else
    let estr ← escapeLoop (2 * n.toNat) (str.take n.toNat) []
    putChar (2 * n.toNat) estr 0

/-- A string without its escapes. -/
def unescape : Bytes → Bytes
  | 92 :: c :: str => c :: unescape str
  | c :: str => c :: unescape str
  | [] => []

/-! ## §3. The lines that fit. -/

theorem encodeMode_length (mode : Nat) : (encodeMode mode).length = 10 := rfl

/-- How long the numbers and the date of a line are, the blanks between them included. -/
def fieldsLength (localtime : Int → Option Tm) (statp : Stat) : Nat :=
  10 + (nlinkText statp).length + (ownerText statp).length + (sizeText statp).length
    + ((localtime (max statp.ctime statp.mtime)).elim 0 fun tm => (timeText tm).length)

/-- The text of a line. -/
def lsText (localtime : Int → Option Tm) (fname : Bytes) (statp : Stat) : Bytes :=
  encodeMode (statp.mode % 2 ^ 32).toNat ++ nlinkText statp ++ ownerText statp ++ sizeText statp
    ++ ((localtime (max statp.ctime statp.mtime)).elim [] timeText) ++ 32 :: cString fname

theorem lsText_length (localtime : Int → Option Tm) (fname : Bytes) (statp : Stat) :
    (lsText localtime fname statp).length
      = fieldsLength localtime statp + (cString fname).length + 1 := by
  unfold lsText fieldsLength
  cases localtime (max statp.ctime statp.mtime) with
  | none =>
      simp only [List.length_append, List.length_cons, encodeMode_length, Option.elim_none,
        List.length_nil]
      omega
  | some tm =>
      simp only [List.length_append, List.length_cons, encodeMode_length, Option.elim_some]
      omega

/-- Where the second of two parts fits, so does the first. -/
theorem put_put (size : Nat) (buf a b : Bytes) :
    ((put size buf a).bind fun buf => put size buf b) = put size buf (a ++ b) := by
  unfold put
  by_cases hfirst : buf.length + a.length + 1 ≤ size
  · rw [if_pos hfirst, Option.bind_some, List.length_append, List.length_append,
      List.append_assoc, Nat.add_assoc buf.length]
  · rw [if_neg hfirst, Option.bind_none, if_neg (by rw [List.length_append]; omega)]

theorem put_bind (size : Nat) (buf a b : Bytes) (k : Bytes → Option Bytes) :
    ((put size buf a).bind fun buf => (put size buf b).bind k)
      = (put size buf (a ++ b)).bind k := by
  rw [← put_put, Option.bind_assoc]

/-- **The line, if it fits.** -/
theorem lsOutput_eq (size : Nat) (localtime : Int → Option Tm) (fname : Bytes) (statp : Stat) :
    lsOutput size localtime fname statp
      = if (lsText localtime fname statp).length + 1 ≤ size
        then some (lsText localtime fname statp) else none := by
  have htime : (if statp.mtime < statp.ctime then statp.ctime else statp.mtime)
      = max statp.ctime statp.mtime := by
    rw [max_def]
    split_ifs <;> omega
  have hput : lsOutput size localtime fname statp
      = put size [] (lsText localtime fname statp) := by
    unfold lsOutput encodeTime lsText
    generalize encodeMode (statp.mode % 2 ^ 32).toNat = a
    generalize nlinkText statp = b
    generalize ownerText statp = c
    generalize sizeText statp = d
    simp only [Option.bind_eq_bind, htime, put_bind]
    cases localtime (max statp.ctime statp.mtime) with
    | none =>
        simp only [Option.bind_some, put_put, Option.elim_none, List.append_nil, List.append_assoc]
    | some tm =>
        simp only [put_put, Option.elim_some, List.append_assoc]
  rw [hput]
  unfold put
  rw [List.length_nil, Nat.zero_add, List.nil_append]

/-! How long the fields can be. -/

theorem decimalInt_length_le {z : Int} (h : -(2 ^ 31) ≤ z ∧ z < 2 ^ 31) :
    (decimalInt z).length ≤ 11 := by
  have hdigits : (decimal z.natAbs).length ≤ 10 :=
    (decimal_length_le (by decide)).mpr (by omega)
  unfold decimalInt
  split_ifs
  · rw [List.length_cons]
    omega
  · omega

theorem toInt_bounds (z : Int) : -(2 ^ 31) ≤ toInt z ∧ toInt z < 2 ^ 31 := by
  have hlo : -(((2 ^ 32 : Nat) : Int) / 2) ≤ Int.bmod z (2 ^ 32) := Int.le_bmod (by decide)
  have hhi : Int.bmod z (2 ^ 32) < (((2 ^ 32 : Nat) : Int) + 1) / 2 := Int.bmod_lt (by decide)
  unfold toInt
  omega

theorem blankPadded_length_le {w n : Nat} {text : Bytes} (h : text.length ≤ n) :
    (blankPadded w text).length ≤ max w n := by
  unfold blankPadded
  rw [List.length_append, List.length_replicate]
  omega

/-- The mode and the numbers take at most 68 bytes. -/
theorem fieldsLength_le (localtime : Int → Option Tm) (statp : Stat) :
    fieldsLength localtime statp
      ≤ 68 + ((localtime (max statp.ctime statp.mtime)).elim 0 fun tm => (timeText tm).length) := by
  have hint : ∀ z, (decimalInt (toInt z)).length ≤ 11 := fun z =>
    decimalInt_length_le (toInt_bounds z)
  have hnlink := blankPadded_length_le (w := 2) (hint statp.nlink)
  have huid := blankPadded_length_le (w := 5) (hint statp.uid)
  have hgid := blankPadded_length_le (w := 5) (hint statp.gid)
  have hdigits : (decimal (statp.size % 2 ^ 64).toNat).length ≤ 20 :=
    (decimal_length_le (by decide)).mpr (by omega)
  have hsize := blankPadded_length_le (w := 7) hdigits
  unfold fieldsLength nlinkText ownerText sizeText
  simp only [List.length_append, List.length_cons, List.length_nil]
  omega

/-! ## §4. The names that are escaped. -/

/-- The text of `escape`. -/
def escapeText (str : Bytes) : Bytes := str.flatMap fun c => if isEchar c then [92, c] else [c]

theorem escapeText_cons (c : UInt8) (str : Bytes) :
    escapeText (c :: str) = (if isEchar c then [92, c] else [c]) ++ escapeText str := rfl

/-- **The backslashes can be undone.** -/
theorem unescape_escapeText (str : Bytes) : unescape (escapeText str) = str := by
  induction str with
  | nil => rfl
  | cons c str ih =>
      rw [escapeText_cons]
      by_cases hc : isEchar c = true
      · rw [if_pos hc]
        show c :: unescape (escapeText str) = c :: str
        rw [ih]
      · rw [if_neg hc]
        -- not the backslash that an escape begins with
        have hne : c ≠ 92 := fun heq => hc (by rw [heq]; rfl)
        show unescape (c :: escapeText str) = c :: str
        unfold unescape
        split
        · next heq => exact (hne (List.cons.inj heq).1).elim
        · next heq =>
            obtain ⟨hcc, hstr⟩ := List.cons.inj heq
            rw [← hcc, ← hstr, ih]
        · next heq => cases heq

theorem escapeText_length (str : Bytes) :
    (escapeText str).length = str.length + str.countP isEchar := by
  induction str with
  | nil => rfl
  | cons c str ih =>
      rw [escapeText_cons, List.length_append, ih, List.length_cons, List.countP_cons]
      by_cases hc : isEchar c = true
      · rw [if_pos hc, if_pos hc]
        simp only [List.length_cons, List.length_nil]
        omega
      · rw [if_neg hc, if_neg hc]
        simp only [List.length_cons, List.length_nil]
        omega

theorem mem_escapeText {c : UInt8} {str : Bytes} (h : c ∈ escapeText str) : c = 92 ∨ c ∈ str := by
  obtain ⟨d, hd, hc⟩ := List.mem_flatMap.mp h
  split_ifs at hc
  · rcases List.mem_cons.mp hc with hc | hc
    · exact .inl hc
    · exact .inr (List.mem_singleton.mp hc ▸ hd)
  · exact .inr (List.mem_singleton.mp hc ▸ hd)

theorem putChar_eq {size : Nat} {estr : Bytes} (h : estr.length < size) (c : UInt8) :
    putChar size estr c = some (estr ++ [c]) := if_pos h

/-- The loop writes its text, if there is room for that. -/
theorem escapeLoop_eq {size : Nat} {str estr : Bytes}
    (h : estr.length + (escapeText str).length ≤ size) :
    escapeLoop size str estr = some (estr ++ escapeText str) := by
  induction str generalizing estr with
  | nil => exact congrArg some (List.append_nil estr).symm
  | cons c str ih =>
      rw [escapeText_cons, List.length_append] at h
      rw [escapeLoop, escapeText_cons]
      by_cases hc : isEchar c = true
      · rw [if_pos hc] at h ⊢
        simp only [List.length_cons, List.length_nil] at h
        -- the backslash, and behind it the character
        rw [if_pos hc, putChar_eq (by omega)]
        dsimp only [Option.bind_eq_bind, Option.bind_some]
        rw [putChar_eq (by rw [List.length_append, List.length_singleton]; omega),
          Option.bind_some, ih (by simp only [List.length_append, List.length_singleton]; omega)]
        simp
      · rw [if_neg hc] at h ⊢
        simp only [List.length_cons, List.length_nil] at h
        rw [if_neg hc]
        dsimp only [Option.bind_eq_bind, Option.bind_some]
        rw [putChar_eq (by omega), Option.bind_some,
          ih (by rw [List.length_append, List.length_singleton]; omega)]
        simp

/-- Two bytes for each character are enough for the text, and for the terminator as well only
if there is a character that needs one. -/
theorem escapeLoop_putChar (str : Bytes) :
    ((escapeLoop (2 * str.length) str []).bind fun estr => putChar (2 * str.length) estr 0)
      = if ∃ c ∈ str, isEchar c = false then some (escapeText str ++ [0]) else none := by
  have hcount := List.countP_le_length (p := isEchar) (l := str)
  have hlen := escapeText_length str
  rw [escapeLoop_eq (by rw [List.length_nil]; omega), Option.bind_some, List.nil_append]
  unfold putChar
  by_cases hplain : ∃ c ∈ str, isEchar c = false
  · rw [if_pos hplain, if_pos]
    have hne : str.countP isEchar ≠ str.length := by
      rw [Ne, List.countP_eq_length]
      intro hall
      obtain ⟨c, hc, hcf⟩ := hplain
      rw [hall c hc] at hcf
      exact Bool.noConfusion hcf
    omega
  · rw [if_neg hplain, if_neg]
    have hall : str.countP isEchar = str.length := by
      rw [List.countP_eq_length]
      intro c hc
      by_contra hcf
      exact hplain ⟨c, hc, by simpa using hcf⟩
    omega

/-- `escape` of a string, in the cases of its length. -/
theorem escape_eq (str : Bytes) :
    escape str = if toInt str.length < 0 ∨ 2 ^ 31 ≤ 2 * toInt str.length then none
      else if ∃ c ∈ str.take (toInt str.length).toNat, isEchar c = false then
        some (escapeText (str.take (toInt str.length).toNat) ++ [0])
      else none := by
  have hle : (toInt str.length).toNat ≤ str.length := by
    unfold toInt Int.bmod
    dsimp only
    split_ifs <;> omega
  have hlen : (str.take (toInt str.length).toNat).length = (toInt str.length).toNat :=
    List.length_take_of_le hle
  unfold escape
  dsimp only
  by_cases hn : toInt str.length < 0 ∨ 2 ^ 31 ≤ 2 * toInt str.length
  · rw [if_pos hn, if_pos hn]
  · rw [if_neg hn, if_neg hn]
    have h := escapeLoop_putChar (str.take (toInt str.length).toNat)
    rw [hlen] at h
    exact h

/-! ## §5. Inside. -/

/-- The line is written inside the buffer of the caller. -/
def LineInside (caller : Caller) (localtime : Int → Option Tm) (fname : Bytes) (statp : Stat) :
    Prop :=
  (lsOutput caller.size localtime fname statp).isSome = true

/-- `escape` of the string at `s` writes inside the memory that it allocates, and what is there
gives the string back. -/
def EscapeRight (s : Bytes) : Prop :=
  ∃ estr, escape (cString s) = some estr ∧ unescape (cString estr) = cString s

theorem lineInside_iff (caller : Caller) (localtime : Int → Option Tm) (fname : Bytes)
    (statp : Stat) :
    LineInside caller localtime fname statp
      ↔ fieldsLength localtime statp + 1 + (cString fname).length + 1 ≤ caller.size := by
  unfold LineInside
  rw [lsOutput_eq, lsText_length]
  by_cases hfits : fieldsLength localtime statp + (cString fname).length + 1 + 1 ≤ caller.size
  · rw [if_pos hfits]
    exact ⟨fun _ => by omega, fun _ => rfl⟩
  · rw [if_neg hfits]
    exact ⟨fun h => Bool.noConfusion h, fun h => (hfits (by omega)).elim⟩

/-- **A name of up to 935 bytes fits** for both callers, whatever the stat record, if the date
has a year of four digits. -/
theorem lineInside_of_short {localtime : Int → Option Tm} {fname : Bytes} {statp : Stat}
    (caller : Caller) (hname : (cString fname).length ≤ 935)
    (hdate : ∀ tm, localtime (max statp.ctime statp.mtime) = some tm →
      (timeText tm).length ≤ 19) : LineInside caller localtime fname statp := by
  have hfields := fieldsLength_le localtime statp
  have htime : ((localtime (max statp.ctime statp.mtime)).elim 0 fun tm => (timeText tm).length)
      ≤ 19 := by
    cases ht : localtime (max statp.ctime statp.mtime) with
    | none => exact Nat.zero_le 19
    | some tm => exact hdate tm ht
  have hsize : 1024 ≤ caller.size := by cases caller <;> decide
  rw [lineInside_iff]
  omega

theorem escapeRight_iff (s : Bytes) :
    EscapeRight s ↔ (cString s).length < 2 ^ 30 ∧ ∃ c ∈ cString s, isEchar c = false := by
  have h0 := zero_notMem_cString s
  unfold EscapeRight
  generalize cString s = str at h0
  rw [escape_eq]
  -- the characters that are counted by an `int`
  have hstring : ∀ t : Bytes, 0 ∉ t → cString (escapeText t ++ [0]) = escapeText t := by
    intro t ht
    refine cString_append_zero (fun hm => ?_) []
    rcases mem_escapeText hm with hm | hm
    · exact absurd hm (by decide)
    · exact ht hm
  by_cases hshort : str.length < 2 ^ 30
  · have hint : toInt str.length = str.length := by
      unfold toInt Int.bmod
      dsimp only
      split_ifs <;> omega
    rw [hint, Int.toNat_natCast, List.take_length, if_neg (by omega)]
    constructor
    · rintro ⟨estr, hestr, -⟩
      refine ⟨hshort, ?_⟩
      by_contra hplain
      rw [if_neg hplain] at hestr
      cases hestr
    · rintro ⟨-, hplain⟩
      refine ⟨_, if_pos hplain, ?_⟩
      rw [hstring str h0, unescape_escapeText]
  · refine ⟨?_, fun h => (hshort h.1).elim⟩
    rintro ⟨estr, hestr, hright⟩
    by_cases hn : toInt str.length < 0 ∨ 2 ^ 31 ≤ 2 * toInt str.length
    · rw [if_pos hn] at hestr
      cases hestr
    rw [if_neg hn] at hestr
    split_ifs at hestr
    rw [Option.some.injEq] at hestr
    have ht0 : 0 ∉ str.take (toInt str.length).toNat := fun hm => h0 (List.mem_of_mem_take hm)
    rw [← hestr, hstring _ ht0, unescape_escapeText] at hright
    -- only the first of the characters are in the memory
    have hlen := congrArg List.length hright
    rw [List.length_take] at hlen
    omega

/-- **Long listings stay inside**: a line does exactly if what `ls_output` puts before the name,
the blank, the name and the terminator fit into the buffer of the caller; and a string is escaped
inside what is allocated for it, and can be had back, exactly if there is a character in it that
needs no backslash, and less than 2^30 in all. -/
theorem long_listing_iff (caller : Caller) (localtime : Int → Option Tm) (fname : Bytes)
    (statp : Stat) (s : Bytes) :
    (LineInside caller localtime fname statp ∧ EscapeRight s)
      ↔ fieldsLength localtime statp + 1 + (cString fname).length + 1 ≤ caller.size
        ∧ (cString s).length < 2 ^ 30 ∧ ∃ c ∈ cString s, c ≠ 92 ∧ c ≠ 34 := by
  have hplain : ∀ c : UInt8, isEchar c = false ↔ c ≠ 92 ∧ c ≠ 34 := by
    intro c
    unfold isEchar
    rw [Bool.or_eq_false_iff, beq_eq_false_iff_ne, beq_eq_false_iff_ne]
  rw [lineInside_iff, escapeRight_iff]
  simp only [hplain]

/-! A name of 1000 bytes, and one that is a quote. -/

/-- The first second of 1970. -/
def epoch : Tm := ⟨70, 0, 1, 0, 0, 0⟩

example : timeText epoch = "1970-01-01 00:00:00".toUTF8.toList := by decide +kernel

/-- The status server is 31 bytes short, and `escape` one. -/
theorem long_name_quoted_name :
    ¬ LineInside .statusServer (fun _ => some epoch) (List.replicate 1000 97) {}
      ∧ ¬ EscapeRight [34] ∧ ¬ EscapeRight [] := by
  have hstring : cString (List.replicate 1000 97) = List.replicate 1000 97 := by
    decide +kernel
  refine ⟨?_, ?_, ?_⟩
  · intro h
    rw [lineInside_iff, hstring, List.length_replicate] at h
    have hfields : fieldsLength (fun _ => some epoch) {} = 53 := by decide +kernel
    rw [hfields] at h
    exact absurd h (by decide)
  · rw [escapeRight_iff]
    decide
  · rw [escapeRight_iff]
    decide

end Burp.Client
