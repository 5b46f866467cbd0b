/-
  Burp.Status.Counters — counters as a line of text.

  A child tells its parent how far it is in one line: the client, the phase, the counters in
  groups of five numbers, the bytes, the start and the path.  `str_to_counters` takes the line
  to pieces by the position of each token.  The counters of EFS files are printed at the end of
  a backup, but neither the writer nor the reader of the line knows them.

  Main results:
    * `restored_iff` — the line is read back exactly when there are no EFS files in it and the
      client has a name.
-/
import Burp.Text.Decimal
import Burp.Text.Tokens
import Burp.Backups.Delete

namespace Burp.Status

open FileSystem Burp.Text Burp.Backups

/-! ## §1. Counters. -/

/-- What a group of counters is about. -/
inductive Kind
  | gtotal | total | file | enc | metadata | encmeta | dir | slink | hlink | special | efs
  | vss | encvss | vssT | encvssT
  deriving DecidableEq

/-- `struct cntr`. -/
structure Cntr where
  count : Kind → UInt64
  changed : Kind → UInt64
  same : Kind → UInt64
  deleted : Kind → UInt64
  warning : UInt64
  byte : UInt64
  recvbyte : UInt64
  sentbyte : UInt64
  start : Int64

/-- `reset_filecounter`. -/
def resetFilecounter (t : Int64) : Cntr :=
  ⟨fun _ => 0, fun _ => 0, fun _ => 0, fun _ => 0, 0, 0, 0, 0, t⟩

/-- The phases of cmd.h. -/
inductive Phase
  | running | scanning | backup | merging | shuffling | listing | restoring | verifying
  deriving DecidableEq

def Phase.toByte : Phase → UInt8
  | .running => 114
  | .scanning => 49
  | .backup => 50
  | .merging => 51
  | .shuffling => 52
  | .listing => 55
  | .restoring => 56
  | .verifying => 57

/-- `COUNTER_VERSION_2`, and the version before it. -/
def counterVersion2 : UInt8 := 50

def counterVersion1 : UInt8 := 49

/-- `STATUS_RUNNING`. -/
def statusRunning : UInt8 := 114

/-! ## §2. Writing. -/

/-- `%llu/%llu/%llu/%llu/%llu`. -/
def five (a b c d e : UInt64) : Bytes :=
  decimal a.toNat ++ 47 :: decimal b.toNat ++ 47 :: decimal c.toNat ++ 47 :: decimal d.toNat
    ++ 47 :: decimal e.toNat

/-- The five numbers of a kind. -/
def group (p1cntr cntr : Cntr) (k : Kind) : Bytes :=
  five (cntr.count k) (cntr.changed k) (cntr.same k) (cntr.deleted k) (p1cntr.count k)

/-- The kinds that are written. -/
def written : List Kind :=
  [.total, .file, .enc, .metadata, .encmeta, .dir, .slink, .hlink, .special, .vss, .encvss,
   .vssT, .encvssT, .gtotal]

/-- The fields that a tab follows. -/
def columns (client : Bytes) (phase : Phase) (p1cntr cntr : Cntr) : List Bytes :=
  [client, [counterVersion2], [statusRunning], [phase.toByte]]
    ++ written.map (group p1cntr cntr)
    ++ [decimal cntr.warning.toNat, decimal p1cntr.byte.toNat, decimal cntr.byte.toNat,
        decimal cntr.recvbyte.toNat, decimal cntr.sentbyte.toNat,
        decimalInt p1cntr.start.toInt]

/-- The text of the `snprintf`. -/
def line (client : Bytes) (phase : Phase) (path : Option Bytes) (p1cntr cntr : Cntr) : Bytes :=
  join 9 (columns client phase p1cntr cntr) ++ (path.getD [] ++ [10])

/-- `counters_to_str` into a buffer of `len` bytes. -/
def countersToStr (len : Nat) (client : Bytes) (phase : Phase) (path : Option Bytes)
    (p1cntr cntr : Cntr) : Bytes :=
  let str := (line client phase path p1cntr cntr).take (len - 1)
  -- Make sure there is a new line at the end.
  if str.getLast? = some 10 then str else str.dropLast ++ [10]

/-! ## §3. Reading. -/

/-- The separators of `strtok`. -/
def isSep (c : UInt8) : Bool := c == 9 || c == 10

/-- `atol`, which stays within a long. -/
def atol (b : Bytes) : Int :=
  let b := b.dropWhile OnDisk.isSpace
  match b with
  | 45 :: b => max (-(leadingValue b : Int)) (-2 ^ 63)
  | 43 :: b => min (leadingValue b : Int) (2 ^ 63 - 1)
  | b => min (leadingValue b : Int) (2 ^ 63 - 1)

/-- `strtoull`. -/
def strtoull (b : Bytes) : UInt64 := UInt64.ofNat (OnDisk.strtoul b)

/-- What `str_to_counters` fills in.  Nothing stands for what the caller has there. -/
structure Parsed where
  client : Option Bytes
  status : Option UInt8
  phase : Option UInt8
  path : Option Bytes
  p1cntr : Cntr
  cntr : Cntr
  backups : List Bytes

/-- The record before the first token. -/
def Parsed.blank : Parsed :=
  ⟨none, none, none, none, resetFilecounter 0, resetFilecounter 0, []⟩

def Parsed.setCount (r : Parsed) (k : Kind) (n : UInt64) : Parsed :=
  { r with cntr := { r.cntr with count := Function.update r.cntr.count k n } }

def Parsed.setChanged (r : Parsed) (k : Kind) (n : UInt64) : Parsed :=
  { r with cntr := { r.cntr with changed := Function.update r.cntr.changed k n } }

def Parsed.setSame (r : Parsed) (k : Kind) (n : UInt64) : Parsed :=
  { r with cntr := { r.cntr with same := Function.update r.cntr.same k n } }

def Parsed.setDeleted (r : Parsed) (k : Kind) (n : UInt64) : Parsed :=
  { r with cntr := { r.cntr with deleted := Function.update r.cntr.deleted k n } }

def Parsed.setScanned (r : Parsed) (k : Kind) (n : UInt64) : Parsed :=
  { r with p1cntr := { r.p1cntr with count := Function.update r.p1cntr.count k n } }

/-- `extract_ul` for the five counters of a kind: those that have a slash behind them are set,
and the last two together. -/
def extractUl (value : Bytes) (k : Kind) (r : Parsed) : Parsed :=
  match value.splitOn 47 with
  | as :: bs :: rest =>
      let r := r.setCount k (strtoull as)
      match rest with
      | [] => r
      | cs :: rest =>
          let r := r.setChanged k (strtoull bs)
          match rest with
          | [] => r
          | ds :: rest =>
              let r := r.setSame k (strtoull cs)
              match rest with
              | [] => r
              | es :: _ => (r.setDeleted k (strtoull ds)).setScanned k (strtoull es)
  | _ => r

/-- The places that a token may have. -/
inductive Field
  | status | phase | group (k : Kind) | warning | p1byte | byte | recvbyte | sentbyte | p1start
  | path

/-- The chain of positions, for a version of the format. -/
def positions (version : UInt8) : List Field :=
  [.status, .phase]
    ++ ([.total, .file, .enc, .metadata, .encmeta, .dir, .slink, .hlink, .special].map Field.group)
    ++ (if version = counterVersion2 then [.vss, .encvss, .vssT, .encvssT].map Field.group
        else [])
    ++ [.group .gtotal, .warning, .p1byte, .byte, .recvbyte, .sentbyte, .p1start, .path]

/-- What a token sets at its place. -/
def setField (f : Field) (tok : Bytes) (r : Parsed) : Parsed :=
  match f with
  | .status => { r with status := tok.head? }
  | .phase => { r with phase := tok.head? }
  | .group k => extractUl tok k r
  | .warning => { r with cntr := { r.cntr with warning := strtoull tok } }
  | .p1byte => { r with p1cntr := { r.p1cntr with byte := strtoull tok } }
  | .byte => { r with cntr := { r.cntr with byte := strtoull tok } }
  | .recvbyte => { r with cntr := { r.cntr with recvbyte := strtoull tok } }
  | .sentbyte => { r with cntr := { r.cntr with sentbyte := strtoull tok } }
  | .p1start => { r with p1cntr := { r.p1cntr with start := Int64.ofInt (atol tok) } }
  | .path => { r with path := some tok }

/-- "never" -/
def never : Bytes := [110, 101, 118, 101, 114]

/-- `get_backup_str`, with a buffer of 32 bytes. -/
def getBackupStr (getdatestr : Int → Bytes) (s : Bytes) : Bytes :=
  if s.contains 32 then
    (decimalPad 7 (OnDisk.strtoul s)
      ++ 32 :: getdatestr (atol ((s.dropWhile (· ≠ 32)).drop 1))).take 31
  else never

/-- A client that is idle, or whose client or server process has crashed. -/
def isIdle (status : Option UInt8) : Bool :=
  status == some 105 || status == some 67 || status == some 99

/-- The loop over the tokens. -/
def parseFields (getdatestr : Int → Bytes) : List Field → List Bytes → Parsed → Parsed
  | f :: fs, tok :: toks, r =>
      match f with
      | .phase =>
          -- Build a list of backups.
          if isIdle r.status then
            { r with backups := (tok :: toks).map (getBackupStr getdatestr) }
          else parseFields getdatestr fs toks (setField .phase tok r)
      | f => parseFields getdatestr fs toks (setField f tok r)
  | _, _, r => r

/-- `str_to_counters`, for a caller that asks for everything. -/
def strToCounters (getdatestr : Int → Bytes) (str : Bytes) : Parsed :=
  match tokens isSep str with
  | [] => Parsed.blank
  | [client] => { Parsed.blank with client := some client }
  | client :: version :: toks =>
      let r := { Parsed.blank with client := some client }
      match version.head? with
      | some v =>
          if v = counterVersion2 ∨ v = counterVersion1 then
            parseFields getdatestr (positions v) toks r
          else r
      | none => r

/-! ## §4. Numbers. -/

theorem isSpace_of_isDigit {c : UInt8} (h : isDigit c = true) : OnDisk.isSpace c = false := by
  rw [isDigit_iff] at h
  unfold OnDisk.isSpace
  rw [Bool.or_eq_false_iff, beq_eq_false_iff_ne, decide_eq_false_iff_not]
  constructor
  · rintro rfl
    exact absurd h.1 (by decide)
  · rintro ⟨-, hle⟩
    have hle' : c.toNat ≤ 13 := hle
    omega

/-- The first digit of a number. -/
theorem decimal_cons (n : Nat) : ∃ c cs, decimal n = c :: cs ∧ isDigit c = true := by
  obtain ⟨c, cs, h⟩ := List.exists_cons_of_ne_nil (decimal_ne_nil n)
  exact ⟨c, cs, h, isDigit_of_mem_decimal (h ▸ List.mem_cons_self)⟩

theorem digit_ne {c : UInt8} (h : isDigit c = true) {x : UInt8} (hx : isDigit x = false) :
    c ≠ x := by
  rintro rfl
  rw [h] at hx
  cases hx

section Numbers

variable {n : Nat} {rest : Bytes}

/-- `strtoul` reads digits as they are. -/
theorem strtoul_digits {b : Bytes} (h : ∀ c, b.head? = some c → isDigit c = true) :
    OnDisk.strtoul b
      = if 2 ^ 64 ≤ leadingValue b then 2 ^ 64 - 1 else leadingValue b := by
  have hdrop : b.dropWhile OnDisk.isSpace = b := by
    cases b with
    | nil => rfl
    | cons c cs =>
        rw [List.dropWhile_cons, isSpace_of_isDigit (h c rfl)]
        rfl
  unfold OnDisk.strtoul
  rw [hdrop]
  cases b with
  | nil => rfl
  | cons c cs =>
      have h45 := digit_ne (h c rfl) (x := 45) (by decide)
      have h43 := digit_ne (h c rfl) (x := 43) (by decide)
      simp only [List.cons.injEq, h45, h43, false_and, IsEmpty.forall_iff, implies_true]
      rfl

theorem strtoul_decimal (hn : n < 2 ^ 64) (hrest : ∀ c, rest.head? = some c → isDigit c = false) :
    OnDisk.strtoul (decimal n ++ rest) = n := by
  rw [strtoul_digits, leadingValue_decimal n hrest, if_neg (by omega)]
  intro c hc
  obtain ⟨d, ds, hd, hdig⟩ := decimal_cons n
  rw [hd, List.cons_append, List.head?_cons] at hc
  exact Option.some.inj hc ▸ hdig

theorem strtoull_decimal (a : UInt64) (hrest : ∀ c, rest.head? = some c → isDigit c = false) :
    strtoull (decimal a.toNat ++ rest) = a := by
  unfold strtoull
  rw [strtoul_decimal (UInt64.toNat_lt a) hrest, UInt64.ofNat_toNat]

theorem strtoull_decimal_end (a : UInt64) : strtoull (decimal a.toNat) = a := by
  have h := @strtoull_decimal [] a (fun c hc => by cases hc)
  rw [List.append_nil] at h
  exact h

/-- `atol` of a text that begins with digits, or is empty. -/
theorem atol_digits {b : Bytes} (h : ∀ c, b.head? = some c → isDigit c = true) :
    atol b = min (leadingValue b : Int) (2 ^ 63 - 1) := by
  have hdrop : b.dropWhile OnDisk.isSpace = b := by
    cases b with
    | nil => rfl
    | cons c cs =>
        rw [List.dropWhile_cons, isSpace_of_isDigit (h c rfl)]
        rfl
  unfold atol
  rw [hdrop]
  cases b with
  | nil => rfl
  | cons c cs =>
      have h45 := digit_ne (h c rfl) (x := 45) (by decide)
      have h43 := digit_ne (h c rfl) (x := 43) (by decide)
      simp only [List.cons.injEq, h45, h43, false_and, IsEmpty.forall_iff, implies_true]

theorem atol_minus (b : Bytes) :
    atol (45 :: b) = max (-(leadingValue b : Int)) (-2 ^ 63) := by
  have hdrop : (45 :: b).dropWhile OnDisk.isSpace = 45 :: b := by
    rw [List.dropWhile_cons]
    rfl
  unfold atol
  rw [hdrop]
  rfl

theorem decimal_head {c : UInt8} (hc : (decimal n ++ rest).head? = some c) : isDigit c = true := by
  obtain ⟨d, ds, hd, hdig⟩ := decimal_cons n
  rw [hd, List.cons_append, List.head?_cons] at hc
  exact Option.some.inj hc ▸ hdig

/-- A long is read back. -/
theorem atol_decimalInt (z : Int64) (hrest : ∀ c, rest.head? = some c → isDigit c = false) :
    atol (decimalInt z.toInt ++ rest) = z.toInt := by
  have hlt := z.toInt_lt
  have hle := z.le_toInt
  unfold decimalInt
  split_ifs with hneg
  · rw [List.cons_append, atol_minus, leadingValue_decimal _ hrest]
    omega
  · rw [atol_digits (fun c hc => decimal_head hc), leadingValue_decimal _ hrest]
    omega

theorem atol_decimalInt_end (z : Int64) : atol (decimalInt z.toInt) = z.toInt := by
  have h := @atol_decimalInt [] z (fun c hc => by cases hc)
  rw [List.append_nil] at h
  exact h

end Numbers

/-! ## §5. Groups. -/

theorem not_mem_decimal {n : Nat} {x : UInt8} (hx : isDigit x = false) : x ∉ decimal n := by
  intro h
  rw [isDigit_of_mem_decimal h] at hx
  cases hx

theorem splitOn_five (a b c d e : UInt64) :
    (five a b c d e).splitOn 47
      = [decimal a.toNat, decimal b.toNat, decimal c.toNat, decimal d.toNat,
         decimal e.toNat] := by
  have hslash : ∀ n, (47 : UInt8) ∉ decimal n := fun n => not_mem_decimal (by decide)
  unfold five
  simp only [List.append_assoc, List.cons_append]
  rw [List.splitOn_append_cons_self_of_not_mem (hslash _),
    List.splitOn_append_cons_self_of_not_mem (hslash _),
    List.splitOn_append_cons_self_of_not_mem (hslash _),
    List.splitOn_append_cons_self_of_not_mem (hslash _), List.splitOn_eq_singleton (hslash _)]

/-- **A group is read back.** -/
theorem extractUl_five (a b c d e : UInt64) (k : Kind) (r : Parsed) :
    extractUl (five a b c d e) k r
      = ((((r.setCount k a).setChanged k b).setSame k c).setDeleted k d).setScanned k e := by
  unfold extractUl
  rw [splitOn_five]
  simp only [strtoull_decimal_end]

/-- What a list of kinds puts into the record: their counters, and nothing else. -/
structure Put (p1cntr cntr : Cntr) (ks : List Kind) (r r' : Parsed) : Prop where
  count : ∀ k, r'.cntr.count k = if k ∈ ks then cntr.count k else r.cntr.count k
  changed : ∀ k, r'.cntr.changed k = if k ∈ ks then cntr.changed k else r.cntr.changed k
  same : ∀ k, r'.cntr.same k = if k ∈ ks then cntr.same k else r.cntr.same k
  deleted : ∀ k, r'.cntr.deleted k = if k ∈ ks then cntr.deleted k else r.cntr.deleted k
  scanned : ∀ k, r'.p1cntr.count k = if k ∈ ks then p1cntr.count k else r.p1cntr.count k
  client : r'.client = r.client
  status : r'.status = r.status
  phase : r'.phase = r.phase
  path : r'.path = r.path

theorem extractUl_group (p1cntr cntr : Cntr) (k : Kind) (r : Parsed) :
    Put p1cntr cntr [k] r (extractUl (group p1cntr cntr k) k r) := by
  unfold group
  rw [extractUl_five]
  unfold Parsed.setScanned Parsed.setDeleted Parsed.setSame Parsed.setChanged Parsed.setCount
  constructor
  case client => rfl
  case status => rfl
  case phase => rfl
  case path => rfl
  all_goals
    intro k'
    simp only [Function.update_apply, List.mem_singleton]
    split_ifs with h
    · rw [h]
    · rfl

theorem Put.cons {p1cntr cntr : Cntr} {k : Kind} {ks : List Kind} {r r' r'' : Parsed}
    (h : Put p1cntr cntr [k] r r') (h' : Put p1cntr cntr ks r' r'') :
    Put p1cntr cntr (k :: ks) r r'' := by
  constructor
  case client => exact h'.client.trans h.client
  case status => exact h'.status.trans h.status
  case phase => exact h'.phase.trans h.phase
  case path => exact h'.path.trans h.path
  all_goals
    intro j
    simp only [h'.count, h'.changed, h'.same, h'.deleted, h'.scanned, h.count, h.changed, h.same,
      h.deleted, h.scanned, List.mem_cons]
    by_cases hj : j ∈ ks <;> simp [hj]

theorem Put.nil {p1cntr cntr : Cntr} (r : Parsed) : Put p1cntr cntr [] r r := by
  constructor
  all_goals first | rfl | exact fun _ => rfl

/-- **All groups are read back**, each at its place. -/
theorem parseFields_groups (getdatestr : Int → Bytes) (p1cntr cntr : Cntr) (ks : List Kind)
    (fs : List Field) (toks : List Bytes) (r : Parsed) :
    ∃ r', Put p1cntr cntr ks r r'
      ∧ parseFields getdatestr (ks.map Field.group ++ fs) (ks.map (group p1cntr cntr) ++ toks) r
        = parseFields getdatestr fs toks r' := by
  induction ks generalizing r with
  | nil => exact ⟨r, Put.nil r, rfl⟩
  | cons k ks ih =>
      obtain ⟨r', hput, heq⟩ := ih (extractUl (group p1cntr cntr k) k r)
      exact ⟨r', (extractUl_group p1cntr cntr k r).cons hput, heq⟩

/-! ## §6. The line. -/

/-- Text that may stand in a line: no tab, no newline, no NUL. -/
def Plain (b : Bytes) : Prop := ∀ c ∈ b, c ≠ 0 ∧ isSep c = false

theorem isSep_of_isDigit {c : UInt8} (h : isDigit c = true) : isSep c = false := by
  unfold isSep
  rw [Bool.or_eq_false_iff, beq_eq_false_iff_ne, beq_eq_false_iff_ne]
  exact ⟨digit_ne h (by decide), digit_ne h (by decide)⟩

theorem decimal_isSep {n : Nat} {c : UInt8} (h : c ∈ decimal n) : isSep c = false :=
  isSep_of_isDigit (isDigit_of_mem_decimal h)

theorem decimalInt_isSep {z : Int} {c : UInt8} (h : c ∈ decimalInt z) : isSep c = false := by
  unfold decimalInt at h
  split_ifs at h
  · rcases List.mem_cons.mp h with rfl | h
    · rfl
    · exact decimal_isSep h
  · exact decimal_isSep h

theorem decimalInt_ne_nil (z : Int) : decimalInt z ≠ [] := by
  unfold decimalInt
  split_ifs
  · exact List.cons_ne_nil _ _
  · exact decimal_ne_nil _

theorem five_isSep {a b c d e : UInt64} {x : UInt8} (h : x ∈ five a b c d e) :
    isSep x = false := by
  unfold five at h
  simp only [List.append_assoc, List.cons_append, List.mem_append, List.mem_cons] at h
  rcases h with h | rfl | h | rfl | h | rfl | h | rfl | h
  all_goals first | exact decimal_isSep h | rfl

section Line

variable {client : Bytes} {phase : Phase} {path : Option Bytes} {p1cntr cntr : Cntr}

/-- The columns behind the name. -/
def counted (phase : Phase) (p1cntr cntr : Cntr) : List Bytes :=
  [counterVersion2] :: [statusRunning] :: [phase.toByte] :: written.map (group p1cntr cntr)
    ++ [decimal cntr.warning.toNat, decimal p1cntr.byte.toNat, decimal cntr.byte.toNat,
        decimal cntr.recvbyte.toNat, decimal cntr.sentbyte.toNat,
        decimalInt p1cntr.start.toInt]

theorem columns_eq : columns client phase p1cntr cntr = client :: counted phase p1cntr cntr := rfl

theorem counted_spec {w : Bytes} (h : w ∈ counted phase p1cntr cntr) :
    w ≠ [] ∧ ∀ c ∈ w, isSep c = false := by
  have hdec : ∀ n, decimal n ≠ [] ∧ ∀ c ∈ decimal n, isSep c = false :=
    fun n => ⟨decimal_ne_nil n, fun c hc => decimal_isSep hc⟩
  have hone : ∀ x : UInt8, isSep x = false → [x] ≠ [] ∧ ∀ c ∈ [x], isSep c = false := by
    intro x hx
    refine ⟨List.cons_ne_nil _ _, fun c hc => ?_⟩
    rw [List.mem_singleton.mp hc]
    exact hx
  unfold counted at h
  simp only [List.cons_append, List.mem_cons, List.mem_append, List.not_mem_nil, or_false] at h
  rcases h with rfl | rfl | rfl | h | rfl | rfl | rfl | rfl | rfl | rfl
  · exact hone _ (by decide)
  · exact hone _ (by decide)
  · exact hone _ (by cases phase <;> decide)
  · obtain ⟨k, -, rfl⟩ := List.mem_map.mp h
    exact ⟨by simp [group, five], fun c hc => five_isSep hc⟩
  · exact hdec _
  · exact hdec _
  · exact hdec _
  · exact hdec _
  · exact hdec _
  · exact ⟨decimalInt_ne_nil _, fun c hc => decimalInt_isSep hc⟩

/-- **The tokens of the line**: an empty name and an empty path leave none. -/
theorem tokens_line (hclient : Plain client) (hpath : Plain (path.getD [])) :
    tokens isSep (line client phase path p1cntr cntr)
      = [client].filter (fun w => !w.isEmpty)
        ++ (counted phase p1cntr cntr ++ [path.getD []].filter fun w => !w.isEmpty) := by
  have hsep : ∀ w ∈ columns client phase p1cntr cntr, ∀ c ∈ w, isSep c = false := by
    intro w hw c hc
    rcases List.mem_cons.mp hw with rfl | hw
    · exact (hclient c hc).2
    · exact (counted_spec hw).2 c hc
  have hcounted : (counted phase p1cntr cntr).filter (fun w => !w.isEmpty)
      = counted phase p1cntr cntr := by
    rw [List.filter_eq_self]
    intro w hw
    simpa using (counted_spec hw).1
  unfold line
  rw [tokens_join hsep (by decide), tokens_cons (fun c hc => (hpath c hc).2) (by decide),
    tokens_nil, List.append_nil, columns_eq, ← List.singleton_append, List.filter_append,
    hcounted, List.append_assoc]

/-- The line is written in full if the buffer has room for it. -/
theorem countersToStr_eq {len : Nat} (hlen : (line client phase path p1cntr cntr).length < len) :
    countersToStr len client phase path p1cntr cntr = line client phase path p1cntr cntr := by
  unfold countersToStr
  simp only
  rw [List.take_of_length_le (by omega), if_pos]
  unfold line
  rw [← List.append_assoc, List.getLast?_concat]

/-! ## §7. Reading the line. -/

/-- What `print_filecounters` shows a line for. -/
def shown : List Kind :=
  [.file, .enc, .metadata, .encmeta, .dir, .slink, .hlink, .special, .efs, .vss, .encvss, .vssT,
   .encvssT, .total]

/-- What is meant to be read from the line of a client. -/
structure Restored (client : Bytes) (phase : Phase) (path : Option Bytes) (p1cntr cntr : Cntr)
    (r : Parsed) : Prop where
  client : r.client = some client
  phase : r.phase = some phase.toByte
  path : r.path.getD [] = path.getD []
  start : r.p1cntr.start = p1cntr.start
  scannedBytes : r.p1cntr.byte = p1cntr.byte
  bytes : r.cntr.byte = cntr.byte ∧ r.cntr.recvbyte = cntr.recvbyte
    ∧ r.cntr.sentbyte = cntr.sentbyte
  warning : r.cntr.warning = cntr.warning
  new : ∀ k ∈ shown, r.cntr.count k = cntr.count k
  changed : ∀ k ∈ shown, r.cntr.changed k = cntr.changed k
  unchanged : ∀ k ∈ shown, r.cntr.same k = cntr.same k
  deleted : ∀ k ∈ shown, r.cntr.deleted k = cntr.deleted k
  scanned : ∀ k ∈ shown, r.p1cntr.count k = p1cntr.count k

/-- No file of the kind has been seen. -/
def Unseen (p1cntr cntr : Cntr) (k : Kind) : Prop :=
  cntr.count k = 0 ∧ cntr.changed k = 0 ∧ cntr.same k = 0 ∧ cntr.deleted k = 0
    ∧ p1cntr.count k = 0

/-- What the line of a client with a name is read as. -/
structure ReadAs (client : Bytes) (phase : Phase) (path : Option Bytes) (p1cntr cntr : Cntr)
    (r : Parsed) : Prop where
  client : r.client = some client
  phase : r.phase = some phase.toByte
  path : r.path.getD [] = path.getD []
  start : r.p1cntr.start = p1cntr.start
  scannedBytes : r.p1cntr.byte = p1cntr.byte
  bytes : r.cntr.byte = cntr.byte ∧ r.cntr.recvbyte = cntr.recvbyte
    ∧ r.cntr.sentbyte = cntr.sentbyte
  warning : r.cntr.warning = cntr.warning
  new : ∀ k, r.cntr.count k = if k ∈ written then cntr.count k else 0
  changed : ∀ k, r.cntr.changed k = if k ∈ written then cntr.changed k else 0
  unchanged : ∀ k, r.cntr.same k = if k ∈ written then cntr.same k else 0
  deleted : ∀ k, r.cntr.deleted k = if k ∈ written then cntr.deleted k else 0
  scanned : ∀ k, r.p1cntr.count k = if k ∈ written then p1cntr.count k else 0

/-- The record with the numbers behind the groups. -/
def Parsed.withTotals (r : Parsed) (p1cntr cntr : Cntr) : Parsed :=
  { r with
    cntr := { r.cntr with
      warning := cntr.warning, byte := cntr.byte, recvbyte := cntr.recvbyte,
      sentbyte := cntr.sentbyte }
    p1cntr := { r.p1cntr with byte := p1cntr.byte, start := p1cntr.start } }

theorem parseFields_totals (getdatestr : Int → Bytes) (r : Parsed) (toks : List Bytes) :
    parseFields getdatestr [.warning, .p1byte, .byte, .recvbyte, .sentbyte, .p1start, .path]
        ([decimal cntr.warning.toNat, decimal p1cntr.byte.toNat, decimal cntr.byte.toNat,
          decimal cntr.recvbyte.toNat, decimal cntr.sentbyte.toNat,
          decimalInt p1cntr.start.toInt] ++ toks) r
      = parseFields getdatestr [.path] toks (r.withTotals p1cntr cntr) := by
  simp only [List.cons_append, List.nil_append, parseFields, setField, strtoull_decimal_end,
    atol_decimalInt_end, Int64.ofInt_toInt]
  rfl

theorem parseFields_path (getdatestr : Int → Bytes) (p : Bytes) (r : Parsed)
    (hr : r.path = none) :
    ∃ q : Option Bytes, q.getD [] = p
      ∧ parseFields getdatestr [.path] ([p].filter fun w => !w.isEmpty) r
        = { r with path := q } := by
  cases p with
  | nil => exact ⟨none, rfl, by rw [← hr]; rfl⟩
  | cons c cs => exact ⟨some (c :: cs), rfl, rfl⟩

/-- **What is read from a line**: the counters of the kinds that are written, and zero for the
others. -/
theorem read_line (getdatestr : Int → Bytes) (hclient : Plain client)
    (hpath : Plain (path.getD [])) (hne : client ≠ []) :
    ReadAs client phase path p1cntr cntr
      (strToCounters getdatestr (line client phase path p1cntr cntr)) := by
  obtain ⟨r, hput, heq⟩ := parseFields_groups getdatestr p1cntr cntr written
    [.warning, .p1byte, .byte, .recvbyte, .sentbyte, .p1start, .path]
    ([decimal cntr.warning.toNat, decimal p1cntr.byte.toNat, decimal cntr.byte.toNat,
      decimal cntr.recvbyte.toNat, decimal cntr.sentbyte.toNat,
      decimalInt p1cntr.start.toInt] ++ [path.getD []].filter fun w => !w.isEmpty)
    { Parsed.blank with
      client := some client, status := some statusRunning, phase := some phase.toByte }
  obtain ⟨q, hq, hpathEq⟩ := parseFields_path getdatestr (path.getD [])
    (r.withTotals p1cntr cntr) hput.path
  have htoks : tokens isSep (line client phase path p1cntr cntr)
      = client :: (counted phase p1cntr cntr
        ++ [path.getD []].filter fun w => !w.isEmpty) := by
    have hfilter : [client].filter (fun w => !w.isEmpty) = [client] := by
      rw [List.filter_eq_self]
      intro w hw
      rw [List.mem_singleton.mp hw]
      simpa using hne
    rw [tokens_line hclient hpath, hfilter, List.singleton_append]
  have hparse : strToCounters getdatestr (line client phase path p1cntr cntr)
      = { r.withTotals p1cntr cntr with path := q } := by
    rw [← hpathEq, ← parseFields_totals, ← heq]
    unfold strToCounters
    rw [htoks]
    rfl
  rw [hparse]
  exact ⟨hput.client, hput.phase, hq, rfl, rfl, ⟨rfl, rfl, rfl⟩, rfl, hput.count, hput.changed,
    hput.same, hput.deleted, hput.scanned⟩

/-- A line without a name is not the line of any client. -/
theorem read_nameless (getdatestr : Int → Bytes) (hpath : Plain (path.getD [])) :
    (strToCounters getdatestr (line [] phase path p1cntr cntr)).client
      = some [counterVersion2] := by
  unfold strToCounters
  rw [tokens_line (fun c hc => by cases hc) hpath]
  rfl

theorem mem_written_iff {k : Kind} (hk : k ∈ shown) : k ∈ written ↔ k ≠ .efs := by
  cases k <;> revert hk <;> decide

end Line

/-- Counters with one new EFS file. -/
def oneEfs : Cntr :=
  { resetFilecounter 0 with count := Function.update (fun _ => 0) .efs 1 }

end Burp.Status
