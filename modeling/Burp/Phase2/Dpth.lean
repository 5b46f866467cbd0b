/-
  Burp.Phase2.Dpth — the numbers that data files are named by.

  A whole file that the server receives gets three numbers in hexadecimal as its data path,
  and the numbers are counted up.  A backup starts from the highest numbers of the current
  data directory, and one that is resumed also from those that the interrupted one has
  recorded.

  Main results:
    * `incrDpth_lt` — counting goes up, up to where it starts again from zero.
    * `initDpth_held` — the start is above everything in the current data directory.
    * `parseDpth_mkDpth` — numbers of four digits are read back.
-/
import Burp.Store.RoundTrip
import Burp.Phase2.Decide

namespace Burp.Phase2

open FileSystem Burp.Store

/-! ## §1. The code. -/

/-- `struct dpth`. -/
structure Dpth where
  prim : Nat := 0
  seco : Nat := 0
  tert : Nat := 0
  looped : Nat := 0
  deriving DecidableEq, Repr

/-- `%04X` of a number with at most `k + 4` digits. -/
def hexPadTo : Nat → Nat → Bytes
  | 0, n => hex4 n
  | k + 1, n => if n < 65536 then hex4 n else hexPadTo k (n / 16) ++ [hexDigit (n % 16)]

/-- `%04X` of an `int` that is not negative. -/
def hexPad (n : Nat) : Bytes := hexPadTo 4 n

/-- `mk_dpth`. -/
def mkDpth (conf : Conf) (d : Dpth) (cmd : Cmd) : Bytes :=
  hexPad d.prim ++ 47 :: (hexPad d.seco ++ 47 :: (hexPad d.tert ++
    if conf.compression ≠ 0 ∧ cmd ≠ .efsFile then [46, 103, 122] else []))

/-- The text of a name in a directory. -/
def nameBytes (x : String) : Bytes := x.toList.map fun c => UInt8.ofNat c.toNat

/-- What `scanf` and `strtol` skip. -/
def dropBlanks (b : Bytes) : Bytes := b.dropWhile fun c => c = 32 ∨ (9 ≤ c ∧ c ≤ 13)

def afterSign : Bytes → Bytes
  | 45 :: b => b
  | 43 :: b => b
  | b => b

def isHex (c : UInt8) : Bool := (hexVal c).isSome

/-- The value of a text of digits. -/
def hexValue (b : Bytes) : Nat := b.foldl (fun v c => 16 * v + (hexVal c).getD 0) 0

/-- `0x` in front of a digit does not count. -/
def afterPrefix : Bytes → Bytes
  | 48 :: 120 :: c :: b => if isHex c then c :: b else 48 :: 120 :: c :: b
  | 48 :: 88 :: c :: b => if isHex c then c :: b else 48 :: 88 :: c :: b
  | b => b

/-- `strtol` to the base 16, as it is stored in an `int`. -/
def strtolHex (b : Bytes) : Int :=
  let b := dropBlanks b
  let v := hexValue ((afterPrefix (afterSign b)).takeWhile isHex)
  -- out of range is the nearest `long`
  let v : Int := if b.head? = some 45 then -(min v (2 ^ 63) : Nat) else (min v (2 ^ 63 - 1) : Nat)
  let v := v % 2 ^ 32
  if v < 2 ^ 31 then v else v - 2 ^ 32

/-- `get_highest_entry`, if the directory can be opened. -/
def getHighestEntry (t : Node) (path : Path) : Option Nat :=
  match t.get path with
  | some (.dir es) => some (es.foldl (fun max e => max ⊔ (strtolHex (nameBytes e.1)).toNat) 0)
  | _ => none

/-- The name of a directory of numbers. -/
def nameOf (b : Bytes) : String := String.ofList (b.map fun c => Char.ofNat c.toNat)

/-- `incr_dpth`: the next numbers, and whether they are not an error. -/
def incrDpth (conf : Conf) (d : Dpth) : Dpth × Bool :=
  if d.tert < 0xFFFF then ({ d with tert := d.tert + 1 }, true)
  else if d.seco < conf.maxStorageSubdirs then ({ d with tert := 0, seco := d.seco + 1 }, true)
  else if d.prim < conf.maxStorageSubdirs then
    ({ d with tert := 0, seco := 0, prim := d.prim + 1 }, true)
  else
    -- the first time is not an error
    ({ tert := 0, seco := 0, prim := 0, looped := d.looped + 1 }, decide (d.looped + 1 ≤ 1))

/-- `init_dpth`. -/
def initDpth (conf : Conf) (t : Node) (currentdata : Path) : Dpth × Bool :=
  match getHighestEntry t currentdata with
  | none => ({}, true)
  | some prim =>
      match getHighestEntry t (currentdata ++ [nameOf (hexPad prim)]) with
      | none => ({ prim := prim }, true)
      | some seco =>
          match getHighestEntry t (currentdata ++ [nameOf (hexPad prim), nameOf (hexPad seco)]) with
          | none => ({ prim := prim, seco := seco }, true)
          | some tert => incrDpth conf { prim := prim, seco := seco, tert := tert }

def afterBase : Bytes → Bytes
  | 48 :: 120 :: b => b
  | 48 :: 88 :: b => b
  | b => b

/-- A number of `%04X`, with blanks before it and four characters at most, and what comes
after it. -/
def scanNumber (b : Bytes) : Option (Nat × Bytes) :=
  let b := dropBlanks b
  let left := (afterBase (afterSign (b.take 4))).dropWhile isHex
  (scanHex (b.take 4)).map fun n => (n, left ++ b.drop 4)

/-- `sscanf(datapath, "%04X/%04X/%04X", ...)`. -/
def parseDpth (datapath : Bytes) : Option (Nat × Nat × Nat) :=
  match scanNumber (cString datapath) with
  | some (a, 47 :: rest) =>
      match scanNumber rest with
      | some (b, 47 :: rest) => (scanNumber rest).map fun c => (a, b, c.1)
      | _ => none
  | _ => none

/-- `set_dpth_from_string`. -/
def setDpthFromString (d : Dpth) : Option Bytes → Option Dpth
  | none => some d
  | some datapath =>
      -- the tree style
      if datapath.head? = some 116 then some d
      else
        match parseDpth datapath with
        | none => none
        | some (a, b, c) =>
            if a < d.prim ∨ b < d.seco ∨ c < d.tert then some d
            else some { d with prim := a, seco := b, tert := c }

/-! ## §2. Hexadecimal numbers. -/

theorem hexValue_concat (b : Bytes) (n : Fin 16) :
    hexValue (b ++ [hexDigit n]) = 16 * hexValue b + n := by
  unfold hexValue
  rw [List.foldl_append, List.foldl_cons, List.foldl_nil, (hexDigit_spec n).1]
  rfl

theorem hexValue_hex4 {n : Nat} (h : n < 65536) : hexValue (hex4 n) = n := by
  have hdigit : ∀ m : Nat, hexVal (hexDigit (m % 16)) = some (m % 16) :=
    fun m => (hexDigit_spec ⟨m % 16, by omega⟩).1
  simp only [hexValue, hex4, List.foldl_cons, List.foldl_nil, hdigit, Option.getD_some]
  omega

theorem hexValue_hexPadTo : ∀ (k : Nat) {n : Nat}, n < 16 ^ (k + 4) → hexValue (hexPadTo k n) = n
  | 0, n, h => hexValue_hex4 (by simpa using h)
  | k + 1, n, h => by
      unfold hexPadTo
      split_ifs with hn
      · exact hexValue_hex4 hn
      · have hdiv : n / 16 < 16 ^ (k + 4) := by
          rw [Nat.div_lt_iff_lt_mul (by omega), ← Nat.pow_succ]
          exact h
        have hconcat := hexValue_concat (hexPadTo k (n / 16)) ⟨n % 16, by omega⟩
        rw [hconcat, hexValue_hexPadTo k hdiv]
        simp only
        omega

/-- **A padded number has its value.** -/
theorem hexValue_hexPad {n : Nat} (h : n < 2 ^ 31) : hexValue (hexPad n) = n :=
  hexValue_hexPadTo 4 (lt_of_lt_of_le h (by norm_num))

/-- It consists of digits, at least four of them. -/
theorem hexPadTo_digits : ∀ (k n : Nat), 4 ≤ (hexPadTo k n).length
    ∧ ∀ c ∈ hexPadTo k n, ∃ d : Fin 16, c = hexDigit d
  | 0, n => by
      have hmem : ∀ c ∈ hex4 n, ∃ d : Fin 16, c = hexDigit d := by
        intro c hc
        simp only [hex4, List.mem_cons, List.not_mem_nil, or_false] at hc
        rcases hc with rfl | rfl | rfl | rfl
        all_goals exact ⟨⟨_, Nat.mod_lt _ (by omega)⟩, rfl⟩
      exact ⟨le_refl 4, hmem⟩
  | k + 1, n => by
      unfold hexPadTo
      split_ifs with hn
      · exact hexPadTo_digits 0 n
      · obtain ⟨hlen, hmem⟩ := hexPadTo_digits k (n / 16)
        refine ⟨by rw [List.length_append]; omega, fun c hc => ?_⟩
        rcases List.mem_append.mp hc with hc | hc
        · exact hmem c hc
        · rw [List.mem_singleton] at hc
          exact ⟨⟨n % 16, by omega⟩, hc⟩

theorem hexPad_digits (n : Nat) : 4 ≤ (hexPad n).length
    ∧ ∀ c ∈ hexPad n, ∃ d : Fin 16, c = hexDigit d := hexPadTo_digits 4 n

theorem hexPad_of_lt {n : Nat} (h : n < 65536) : hexPad n = hex4 n := by
  unfold hexPad hexPadTo
  rw [if_pos h]

theorem isHex_hexDigit (d : Fin 16) : isHex (hexDigit d) = true := by
  unfold isHex
  rw [(hexDigit_spec d).1]
  rfl

/-- A text that begins with two digits is neither skipped nor taken for something else. -/
theorem skip_digits (d e : Fin 16) (b : Bytes) :
    dropBlanks (hexDigit d :: hexDigit e :: b) = hexDigit d :: hexDigit e :: b
      ∧ afterSign (hexDigit d :: hexDigit e :: b) = hexDigit d :: hexDigit e :: b
      ∧ afterPrefix (hexDigit d :: hexDigit e :: b) = hexDigit d :: hexDigit e :: b
      ∧ afterBase (hexDigit d :: hexDigit e :: b) = hexDigit d :: hexDigit e :: b
      ∧ (hexDigit d :: hexDigit e :: b).head? ≠ some 45 := by
  obtain ⟨-, -, h32, hblank, h45, h43, -, -⟩ := hexDigit_spec d
  obtain ⟨-, -, -, -, -, -, h120, h88⟩ := hexDigit_spec e
  generalize hexDigit d = x at *
  generalize hexDigit e = y at *
  refine ⟨?_, ?_, ?_, ?_, ?_⟩
  · unfold dropBlanks
    rw [List.dropWhile_cons_of_neg]
    simp only [decide_eq_true_eq]
    rintro (h | h)
    · exact h32 h
    · exact hblank h
  · unfold afterSign
    split
    next h => exact absurd (List.cons.inj h).1 h45
    next h => exact absurd (List.cons.inj h).1 h43
    next => rfl
  · unfold afterPrefix
    split
    next h => exact absurd (List.cons.inj (List.cons.inj h).2).1 h120
    next h => exact absurd (List.cons.inj (List.cons.inj h).2).1 h88
    next => rfl
  · unfold afterBase
    split
    next h => exact absurd (List.cons.inj (List.cons.inj h).2).1 h120
    next h => exact absurd (List.cons.inj (List.cons.inj h).2).1 h88
    next => rfl
  · simpa using h45

/-- A padded number begins with two digits. -/
theorem hexPad_cons (n : Nat) :
    ∃ (d e : Fin 16) (b : Bytes), hexPad n = hexDigit d :: hexDigit e :: b := by
  obtain ⟨hlen, hmem⟩ := hexPad_digits n
  match hb : hexPad n with
  | [] => rw [hb] at hlen; simp at hlen
  | [x] => rw [hb] at hlen; simp at hlen
  | x :: y :: b =>
      obtain ⟨d, rfl⟩ := hmem x (by rw [hb]; simp)
      obtain ⟨e, rfl⟩ := hmem y (by rw [hb]; simp)
      exact ⟨d, e, b, rfl⟩

/-- The digits of a number end where something else begins. -/
theorem takeWhile_hexPad (n : Nat) {rest : Bytes} (h : ∀ c ∈ rest.head?, isHex c = false) :
    (hexPad n ++ rest).takeWhile isHex = hexPad n := by
  have hall : ∀ c ∈ hexPad n, isHex c = true := by
    intro c hc
    obtain ⟨d, rfl⟩ := (hexPad_digits n).2 c hc
    exact isHex_hexDigit d
  have hrest : rest.takeWhile isHex = [] := by
    cases rest with
    | nil => rfl
    | cons c rest => rw [List.takeWhile_cons_of_neg (by simpa using h c rfl)]
  rw [List.takeWhile_append_of_pos hall, hrest, List.append_nil]

/-- **`strtol` undoes `%04X`.** -/
theorem strtolHex_hexPad {n : Nat} (hn : n < 2 ^ 31) {rest : Bytes}
    (h : ∀ c ∈ rest.head?, isHex c = false) : strtolHex (hexPad n ++ rest) = n := by
  obtain ⟨d, e, b, hb⟩ := hexPad_cons n
  obtain ⟨hblanks, hsign, hpre, -, hminus⟩ := skip_digits d e (b ++ rest)
  have htake := takeWhile_hexPad n h
  have hval := hexValue_hexPad hn
  rw [hb] at htake hval ⊢
  rw [List.cons_append, List.cons_append] at htake ⊢
  unfold strtolHex
  simp only [hblanks, hsign, hpre, if_neg hminus, htake, hval]
  have hmin : min n (2 ^ 63 - 1) = n := by omega
  rw [hmin]
  have hmod : (n : Int) % 2 ^ 32 = n := by omega
  rw [hmod, if_pos (by omega)]

/-! ## §3. Names. -/

/-- A byte is the character of its number. -/
theorem byte_of_char (c : UInt8) : UInt8.ofNat (Char.ofNat c.toNat).toNat = c := by
  have hvalid : c.toNat.isValidChar := Or.inl (by have := c.toNat_lt; omega)
  unfold Char.ofNat
  rw [dif_pos hvalid]
  show UInt8.ofNat (c.toNat) = c
  exact UInt8.ofNat_toNat

theorem nameBytes_nameOf (b : Bytes) : nameBytes (nameOf b) = b := by
  unfold nameBytes nameOf
  rw [String.toList_ofList, List.map_map]
  conv_rhs => rw [← List.map_id b]
  exact List.map_congr_left fun c _ => byte_of_char c

theorem nameOf_inj {a b : Bytes} (h : nameOf a = nameOf b) : a = b := by
  rw [← nameBytes_nameOf a, h, nameBytes_nameOf]

/-- The last part of a data path. -/
def lastPart (conf : Conf) (d : Dpth) (cmd : Cmd) : Bytes :=
  hexPad d.tert ++ if conf.compression ≠ 0 ∧ cmd ≠ .efsFile then [46, 103, 122] else []

theorem slash_notMem_hexPad (n : Nat) : (47 : UInt8) ∉ hexPad n := by
  have hdigit : ∀ d : Fin 16, hexDigit d ≠ 47 := by decide
  intro hmem
  obtain ⟨d, hd⟩ := (hexPad_digits n).2 47 hmem
  exact hdigit d hd.symm

theorem slash_notMem_lastPart (conf : Conf) (d : Dpth) (cmd : Cmd) :
    (47 : UInt8) ∉ lastPart conf d cmd := by
  unfold lastPart
  rw [List.mem_append, not_or]
  refine ⟨slash_notMem_hexPad _, ?_⟩
  split_ifs <;> decide

theorem hexPad_ne_nil (n : Nat) : hexPad n ≠ [] := by
  intro h
  have := (hexPad_digits n).1
  rw [h] at this
  simp at this

/-- What comes after the digits of the last number is none. -/
theorem not_isHex_ending (conf : Conf) (cmd : Cmd) :
    ∀ c ∈ (if conf.compression ≠ 0 ∧ cmd ≠ .efsFile then [46, 103, 122] else [] : Bytes).head?,
      isHex c = false := by
  have hdot : isHex 46 = false := rfl
  intro c hc
  split_ifs at hc
  · obtain rfl : 46 = c := by simpa using hc
    exact hdot
  · simp at hc

/-- The three texts of a data path. -/
theorem splitOn_mkDpth (conf : Conf) (d : Dpth) (cmd : Cmd) :
    (mkDpth conf d cmd).splitOn 47 = [hexPad d.prim, hexPad d.seco, lastPart conf d cmd] := by
  show (hexPad d.prim ++ 47 :: (hexPad d.seco ++ 47 :: lastPart conf d cmd)).splitOn 47 = _
  rw [List.splitOn_append_cons_self_of_not_mem (slash_notMem_hexPad _),
    List.splitOn_append_cons_self_of_not_mem (slash_notMem_hexPad _),
    List.splitOn_eq_singleton (slash_notMem_lastPart conf d cmd)]

/-- The three names of a data path. -/
theorem components_mkDpth (conf : Conf) (d : Dpth) (cmd : Cmd) :
    components (mkDpth conf d cmd)
      = [nameOf (hexPad d.prim), nameOf (hexPad d.seco), nameOf (lastPart conf d cmd)] := by
  have hlast : lastPart conf d cmd ≠ [] := by
    unfold lastPart
    simp [hexPad_ne_nil]
  unfold components
  rw [splitOn_mkDpth]
  simp [hexPad_ne_nil, hlast, nameOf]

/-! ## §4. Counting. -/

def Dpth.nums (d : Dpth) : Nat × Nat × Nat := (d.prim, d.seco, d.tert)

/-- Numbers of an `int`. -/
def Dpth.Int (d : Dpth) : Prop := d.prim < 2 ^ 31 ∧ d.seco < 2 ^ 31 ∧ d.tert < 2 ^ 31

/-- The order in which the numbers are counted. -/
def Before (x y : Nat × Nat × Nat) : Prop :=
  x.1 < y.1 ∨ (x.1 = y.1 ∧ (x.2.1 < y.2.1 ∨ (x.2.1 = y.2.1 ∧ x.2.2 < y.2.2)))

instance (x y : Nat × Nat × Nat) : Decidable (Before x y) := by
  unfold Before
  infer_instance

theorem Before.trans {x y z : Nat × Nat × Nat} (h : Before x y) (h' : Before y z) : Before x z := by
  unfold Before at *
  omega

theorem Before.irrefl (x : Nat × Nat × Nat) : ¬ Before x x := by
  unfold Before
  omega

/-- The counter starts again from zero. -/
def Wraps (conf : Conf) (d : Dpth) : Prop :=
  0xFFFF ≤ d.tert ∧ conf.maxStorageSubdirs ≤ d.seco ∧ conf.maxStorageSubdirs ≤ d.prim

instance (conf : Conf) (d : Dpth) : Decidable (Wraps conf d) := by
  unfold Wraps
  infer_instance

/-- **Counting goes up**, unless the counter starts again. -/
theorem incrDpth_lt {conf : Conf} {d : Dpth} (h : ¬ Wraps conf d) :
    Before d.nums (incrDpth conf d).1.nums ∧ (incrDpth conf d).1.looped = d.looped
      ∧ (incrDpth conf d).2 = true := by
  unfold incrDpth
  split_ifs with h1 h2 h3
  · exact ⟨by unfold Before Dpth.nums; simp, rfl, rfl⟩
  · exact ⟨by unfold Before Dpth.nums; simp, rfl, rfl⟩
  · exact ⟨by unfold Before Dpth.nums; simp, rfl, rfl⟩
  · exact absurd ⟨by omega, by omega, by omega⟩ h

theorem incrDpth_looped {conf : Conf} {d : Dpth} (h : (incrDpth conf d).1.looped = d.looped) :
    ¬ Wraps conf d := by
  rintro ⟨h1, h2, h3⟩
  unfold incrDpth at h
  rw [if_neg (by omega), if_neg (by omega), if_neg (by omega)] at h
  simp at h

/-- The last number stays in four digits. -/
theorem incrDpth_tert (conf : Conf) (d : Dpth) : (incrDpth conf d).1.tert ≤ 0xFFFF := by
  unfold incrDpth
  split_ifs with h1 h2 h3
  · exact h1
  all_goals exact Nat.zero_le _

/-! ## §5. The start. -/

/-- The greatest of some numbers. -/
theorem le_foldl_max {α : Type*} (f : α → Nat) :
    ∀ (es : List α) (m : Nat), m ≤ es.foldl (fun max e => max ⊔ f e) m
      ∧ ∀ e ∈ es, f e ≤ es.foldl (fun max e => max ⊔ f e) m
  | [], m => by simp
  | e :: es, m => by
      obtain ⟨hm, hes⟩ := le_foldl_max f es (m ⊔ f e)
      rw [List.foldl_cons]
      refine ⟨le_trans le_sup_left hm, fun e' he' => ?_⟩
      rcases List.mem_cons.mp he' with rfl | he'
      · exact le_trans le_sup_right hm
      · exact hes e' he'

/-- No entry of a directory is above the highest one. -/
theorem le_getHighestEntry {t : Node} {path : Path} {x : String} (hx : t.get (path ++ [x]) ≠ none) :
    ∃ max, getHighestEntry t path = some max ∧ (strtolHex (nameBytes x)).toNat ≤ max := by
  rw [Node.get_append] at hx
  unfold getHighestEntry
  cases hget : t.get path with
  | none => simp [hget] at hx
  | some n =>
      rw [hget, Option.bind_some] at hx
      cases n with
      | file i d => simp [Node.get] at hx
      | symlink s => simp [Node.get] at hx
      | dir es =>
          refine ⟨_, rfl, ?_⟩
          rw [Node.get_dir_cons] at hx
          cases hfind : find es x with
          | none => simp [hfind] at hx
          | some m =>
              obtain ⟨pre, post, rfl, -⟩ := find_split hfind
              have hmem : (x, m) ∈ pre ++ (x, m) :: post := by simp
              have hle := (le_foldl_max (fun e : String × Node => (strtolHex (nameBytes e.1)).toNat)
                (pre ++ (x, m) :: post) 0).2 (x, m) hmem
              exact hle

/-- A name of a number counts as that number. -/
theorem le_highest_hexPad {t : Node} {path : Path} {n : Nat} (hn : n < 2 ^ 31) {rest : Bytes}
    (hrest : ∀ c ∈ rest.head?, isHex c = false)
    (hx : t.get (path ++ [nameOf (hexPad n ++ rest)]) ≠ none) :
    ∃ max, getHighestEntry t path = some max ∧ n ≤ max := by
  obtain ⟨max, hmax, hle⟩ := le_getHighestEntry hx
  rw [nameBytes_nameOf, strtolHex_hexPad hn hrest] at hle
  exact ⟨max, hmax, by rwa [Int.toNat_natCast] at hle⟩

/-- The numbers of a data path whose file is there. -/
structure Held (conf : Conf) (t : Node) (currentdata : Path) (d : Dpth) (cmd : Cmd) : Prop where
  int : d.Int
  there : t.get (currentdata ++ components (mkDpth conf d cmd)) ≠ none

/-- **The start is above everything that is there**, unless it has to start again. -/
theorem initDpth_held {conf conf' : Conf} {t : Node} {currentdata : Path} {d : Dpth} {cmd : Cmd}
    (h : Held conf' t currentdata d cmd) (hloop : (initDpth conf t currentdata).1.looped = 0) :
    Before d.nums (initDpth conf t currentdata).1.nums := by
  obtain ⟨⟨hprim, hseco, htert⟩, hthere⟩ := h
  rw [components_mkDpth] at hthere
  have hlast := not_isHex_ending conf' cmd
  have hnil : ∀ c ∈ ([] : Bytes).head?, isHex c = false := by simp
  -- the directories above the file are there as well
  have hget2 : t.get (currentdata ++ [nameOf (hexPad d.prim), nameOf (hexPad d.seco)]) ≠ none := by
    intro hnone
    rw [show currentdata ++ [nameOf (hexPad d.prim), nameOf (hexPad d.seco),
        nameOf (lastPart conf' d cmd)] = currentdata ++ [nameOf (hexPad d.prim),
        nameOf (hexPad d.seco)] ++ [nameOf (lastPart conf' d cmd)] by simp,
      Node.get_append, hnone] at hthere
    exact hthere rfl
  have hget1 : t.get (currentdata ++ [nameOf (hexPad d.prim)]) ≠ none := by
    intro hnone
    rw [show currentdata ++ [nameOf (hexPad d.prim), nameOf (hexPad d.seco)]
        = currentdata ++ [nameOf (hexPad d.prim)] ++ [nameOf (hexPad d.seco)] by simp,
      Node.get_append, hnone] at hget2
    exact hget2 rfl
  obtain ⟨prim, hp, hprim'⟩ := le_highest_hexPad hprim hnil (by rwa [List.append_nil])
  have hseco' : d.prim = prim → ∃ seco,
      getHighestEntry t (currentdata ++ [nameOf (hexPad prim)]) = some seco ∧ d.seco ≤ seco := by
    rintro rfl
    refine le_highest_hexPad hseco hnil ?_
    rwa [List.append_nil, List.append_assoc]
  have htert' : ∀ seco, d.prim = prim → d.seco = seco → ∃ tert,
      getHighestEntry t (currentdata ++ [nameOf (hexPad prim), nameOf (hexPad seco)]) = some tert
        ∧ d.tert ≤ tert := by
    rintro seco rfl rfl
    refine le_highest_hexPad htert hlast ?_
    rwa [List.append_assoc]
  unfold initDpth at hloop ⊢
  rw [hp] at hloop ⊢
  simp only at hloop ⊢
  cases hs : getHighestEntry t (currentdata ++ [nameOf (hexPad prim)]) with
  | none =>
      have hne : d.prim ≠ prim := by
        intro heq
        obtain ⟨seco, hsome, -⟩ := hseco' heq
        simp [hs] at hsome
      simp only [Before, Dpth.nums]
      omega
  | some seco =>
      have hle : d.prim = prim → d.seco ≤ seco := by
        intro heq
        obtain ⟨seco', hsome, hle⟩ := hseco' heq
        rw [hs, Option.some.injEq] at hsome
        rwa [hsome]
      rw [hs] at hloop
      simp only at hloop ⊢
      cases ht : getHighestEntry t
          (currentdata ++ [nameOf (hexPad prim), nameOf (hexPad seco)]) with
      | none =>
          have hne : d.prim = prim → d.seco ≠ seco := by
            intro heq heq'
            obtain ⟨tert, hsome, -⟩ := htert' seco heq heq'
            simp [ht] at hsome
          simp only [Before, Dpth.nums]
          omega
      | some tert =>
          have hle' : d.prim = prim → d.seco = seco → d.tert ≤ tert := by
            intro heq heq'
            obtain ⟨tert', hsome, hle'⟩ := htert' seco heq heq'
            rw [ht, Option.some.injEq] at hsome
            rwa [hsome]
          rw [ht] at hloop
          simp only at hloop ⊢
          obtain ⟨hlt, -, -⟩ := incrDpth_lt (incrDpth_looped hloop)
          simp only [Before, Dpth.nums] at hlt ⊢
          omega

/-! ## §6. Names that are read back. -/

/-- Four digits are a number, and what comes after them is left. -/
theorem scanNumber_hexPad {n : Nat} (hn : n ≤ 0xFFFF) (rest : Bytes) :
    scanNumber (hexPad n ++ rest) = some (n, rest) := by
  have hn' : n < 65536 := by omega
  obtain ⟨d, e, b, hb⟩ := hexPad_cons n
  obtain ⟨hblanks, -, -, -, -⟩ := skip_digits d e (b ++ rest)
  obtain ⟨-, hsign, -, hbase, -⟩ := skip_digits d e b
  have htake : (hexPad n ++ rest).take 4 = hexPad n := by
    rw [hexPad_of_lt hn']
    exact List.take_left' rfl
  have hdrop : (hexPad n ++ rest).drop 4 = rest := by
    rw [hexPad_of_lt hn']
    exact List.drop_left' rfl
  have hleft : (hexPad n).dropWhile isHex = [] := by
    rw [List.dropWhile_eq_nil_iff]
    intro c hc
    obtain ⟨d, rfl⟩ := (hexPad_digits n).2 c hc
    exact isHex_hexDigit d
  have hskip : dropBlanks (hexPad n ++ rest) = hexPad n ++ rest := by
    rw [hb]
    exact hblanks
  have hbody : afterBase (afterSign (hexPad n)) = hexPad n := by
    rw [hb, hsign, hbase]
  unfold scanNumber
  simp only [hskip, htake, hdrop, hbody, hleft, List.nil_append]
  rw [hexPad_of_lt hn', scanHex_hex4 hn']
  rfl

theorem zero_notMem_hexPad (n : Nat) : (0 : UInt8) ∉ hexPad n := by
  intro hmem
  obtain ⟨d, hd⟩ := (hexPad_digits n).2 0 hmem
  exact (hexDigit_spec d).2.1 hd.symm

theorem cString_mkDpth (conf : Conf) (d : Dpth) (cmd : Cmd) :
    cString (mkDpth conf d cmd) = mkDpth conf d cmd := by
  refine cString_of_notMem ?_
  unfold mkDpth
  simp only [List.mem_append, List.mem_cons, not_or]
  refine ⟨zero_notMem_hexPad _, by decide, zero_notMem_hexPad _, by decide,
    zero_notMem_hexPad _, ?_⟩
  split_ifs <;> decide

/-- **Names of four digits are read back.** -/
theorem parseDpth_mkDpth {conf : Conf} {d : Dpth} {cmd : Cmd} (hp : d.prim ≤ 0xFFFF)
    (hs : d.seco ≤ 0xFFFF) (ht : d.tert ≤ 0xFFFF) :
    parseDpth (mkDpth conf d cmd) = some d.nums := by
  unfold parseDpth
  rw [cString_mkDpth]
  unfold mkDpth
  rw [scanNumber_hexPad hp]
  simp only [scanNumber_hexPad hs, scanNumber_hexPad ht, Option.map_some]
  rfl

theorem strtolHex_lastPart {conf : Conf} {d : Dpth} {cmd : Cmd} (h : d.tert < 2 ^ 31) :
    strtolHex (lastPart conf d cmd) = d.tert :=
  strtolHex_hexPad h (not_isHex_ending conf cmd)

/-- Names of different numbers are different. -/
theorem nums_of_mkDpth {conf conf' : Conf} {d d' : Dpth} {cmd cmd' : Cmd} (hd : d.Int)
    (hd' : d'.Int) (h : mkDpth conf d cmd = mkDpth conf' d' cmd') : d.nums = d'.nums := by
  have hcomp := congrArg components h
  rw [components_mkDpth, components_mkDpth] at hcomp
  simp only [List.cons.injEq, and_true] at hcomp
  obtain ⟨hprim, hseco, hlast⟩ := hcomp
  have hp := congrArg hexValue (nameOf_inj hprim)
  have hs := congrArg hexValue (nameOf_inj hseco)
  have ht := congrArg strtolHex (nameOf_inj hlast)
  rw [hexValue_hexPad hd.1, hexValue_hexPad hd'.1] at hp
  rw [hexValue_hexPad hd.2.1, hexValue_hexPad hd'.2.1] at hs
  rw [strtolHex_lastPart hd.2.2, strtolHex_lastPart hd'.2.2, Nat.cast_inj] at ht
  unfold Dpth.nums
  rw [hp, hs, ht]

/-- **What a recorded name does to the counter.** -/
theorem setDpthFromString_spec {d d' : Dpth} {s : Bytes} {a b c : Nat}
    (h : setDpthFromString d (some s) = some d') (htree : s.head? ≠ some 116)
    (hs : parseDpth s = some (a, b, c)) :
    d' = d ∧ (a < d.prim ∨ b < d.seco ∨ c < d.tert)
      ∨ d'.nums = (a, b, c) ∧ d'.looped = d.looped ∧ d.prim ≤ a ∧ d.seco ≤ b ∧ d.tert ≤ c := by
  unfold setDpthFromString at h
  simp only [hs, if_neg htree] at h
  split_ifs at h with hlow
  · rw [Option.some.injEq] at h
    exact Or.inl ⟨h.symm, hlow⟩
  · rw [Option.some.injEq] at h
    subst h
    exact Or.inr ⟨rfl, rfl, by omega, by omega, by omega⟩

end Burp.Phase2
