/-
  Burp.Conf.Incexc — the transfer of a configuration (incexc_send.c, incexc_recv.c, conf.c).

  One side sends what is to be backed up as lines of a configuration file, and the other side
  puts them together to a text that it reads with the parser for configuration files.  The
  lines are written as they are, so the parser drops blanks and quotes that stood between
  quotes in the file of the sender, and one of the options is not sent at all.

  Main results:
    * `tokens_received` — the lines are found again in the text.
    * `parse_sends` — what the lines are read as.
    * `transfer_eq_iff` — when a configuration arrives as it was sent.
-/
import Burp.Conf.Load
import Burp.Text.Tokens

namespace Burp.Conf

open FileSystem Burp.Store
open Burp.Backups.OnDisk (isSpace)
open Burp.Phase1 (startLoop)
open Burp.Phase2 (nameBytes)
open Burp.Text (decimal decimalInt tokens)

/-! ## §1. The sender. -/

/-- `prepend`. -/
def prepend (prep fname sep : Bytes) : Bytes := prep ++ ((if fname = [] then [] else sep) ++ fname)

/-- `send_incexc_str`. -/
def sendIncexcStr (pre str : Bytes) : Bytes := prepend pre str [32, 61, 32]

/-- `send_incexc_int`. -/
def sendIncexcInt (pre : Bytes) (myint : Int) : Bytes := sendIncexcStr pre (decimalInt myint)

/-- `send_incexc_long`. -/
def sendIncexcLong (pre : Bytes) (mylong : Nat) : Bytes := sendIncexcStr pre (decimal mylong)

/-- `send_incexc_from_strlist`. -/
def sendIncexcFromStrlist (prependOn prependOff : Bytes) (list : List Strlist) : List Bytes :=
  list.map fun e => sendIncexcStr (if e.flag ≠ 0 then prependOn else prependOff) e.path

/-- The lists in the order in which they are sent, with the names for entries that have a flag
and for those that have none. -/
def sentLists : List (ListOpt × Bytes × Bytes) :=
  [(.incexcdir, nameBytes "include", nameBytes "exclude"),
    (.fschgdir, nameBytes "cross_filesystem", nameBytes "cross_filesystem"),
    (.nobackup, nameBytes "nobackup", nameBytes "nobackup"),
    (.incext, nameBytes "include_ext", nameBytes "include_ext"),
    (.excext, nameBytes "exclude_ext", nameBytes "exclude_ext"),
    (.increg, nameBytes "include_regex", nameBytes "include_regex"),
    (.excreg, nameBytes "exclude_regex", nameBytes "exclude_regex"),
    (.excfs, nameBytes "exclude_fs", nameBytes "exclude_fs"),
    (.excom, nameBytes "exclude_comp", nameBytes "exclude_comp"),
    (.fifos, nameBytes "read_fifo", nameBytes "read_fifo"),
    (.blockdevs, nameBytes "read_blockdev", nameBytes "read_blockdev")]

def sentInts : List (IntOpt × Bytes) :=
  [(.crossAllFilesystems, nameBytes "cross_all_filesystems"),
    (.splitVss, nameBytes "split_vss"),
    (.stripVss, nameBytes "strip_vss"),
    (.readAllFifos, nameBytes "read_all_fifos")]

def sentSizes : List (SizeOpt × Bytes) :=
  [(.minFileSize, nameBytes "min_file_size"), (.maxFileSize, nameBytes "max_file_size")]

/-- `do_sends`. -/
def doSends (c : Config) : List Bytes :=
  (sentLists.flatMap fun t => sendIncexcFromStrlist t.2.1 t.2.2 (c.lists t.1))
    ++ ((sentInts.map fun t => sendIncexcInt t.2 (c.ints t.1))
      ++ sentSizes.map fun t => sendIncexcLong t.2 (c.sizes t.1))

/-- Who sends. -/
inductive Side where
  | server
  | client

/-- The message at the end. -/
def endreqstr : Side → Bytes
  | .server => nameBytes "sincexc end"
  | .client => nameBytes "incexc end"

/-- `incexc_send_server` and `incexc_send_client`, after the first request. -/
def incexcSend (side : Side) (c : Config) : List (Cmd × Bytes) :=
  (doSends c ++ [endreqstr side]).map fun buf => (Cmd.gen, buf)

/-! ## §2. The receiver. -/

/-- The loop of `incexc_recv` over the messages that arrive: whether the end was among them, and
the text. -/
def recvLoop (endreqstr : Bytes) : Option Bytes → List (Cmd × Bytes) → Bool × Option Bytes
  | incexc, [] => (false, incexc)
  | incexc, (cmd, buf) :: rest =>
      if cmd ≠ .gen then (false, incexc)
      else if cString buf = endreqstr then (true, incexc)
      else
        recvLoop endreqstr
          (some (prepend (incexc.getD []) (cString buf) (if incexc.isSome then [10] else []))) rest

/-- `incexc_recv`. -/
def incexcRecv (side : Side) (arrivals : List (Cmd × Bytes)) : Bool × Option Bytes :=
  let r := recvLoop (endreqstr side) none arrivals
  -- Need to put another new line at the end.
  (r.1, r.2.map fun incexc => prepend incexc [10] [])

/-- `free_incexcs`. -/
def freeIncexcs (conf : Config) : Config :=
  { lists := fun _ => []
    ints := Function.update (Function.update conf.ints .splitVss 0) .stripVss 0
    sizes := conf.sizes
    startdir := [] }

/-- `parse_incexcs_buf`; `load` reads another file. -/
def parseIncexcsBuf (load : Bytes → Loading → Option Loading) (conf : Config) (incexc : Bytes) :
    Option Config :=
  let toks := tokens (· = 10) incexc
  if toks = [] then none
  else
    (toks.foldlM (parseConfigLine load []) (freeIncexcs conf, fun _ => [])).bind finaliseConfig

/-- What the receiver, which has the configuration `conf`, makes of a configuration `c`. -/
def transfer (load : Bytes → Loading → Option Loading) (side : Side) (conf c : Config) :
    Option Config :=
  match incexcRecv side (incexcSend side c) with
  | (true, some incexc) => parseIncexcsBuf load conf incexc
  | _ => none

/-! ## §3. The lines in the text. -/

/-- A line that has no zero and no line end in it, and is neither empty nor the end message. -/
structure IsLine (side : Side) (b : Bytes) : Prop where
  ne_nil : b ≠ []
  zero_notMem : 0 ∉ b
  newline_notMem : 10 ∉ b
  not_end : b ≠ endreqstr side

theorem recvLoop_lines {side : Side} {lines : List Bytes} (h : ∀ b ∈ lines, IsLine side b)
    (incexc : Bytes) :
    recvLoop (endreqstr side) (some incexc)
        ((lines ++ [endreqstr side]).map fun buf => (Cmd.gen, buf))
      = (true, some (incexc ++ lines.flatMap (10 :: ·))) := by
  have hend : cString (endreqstr side) = endreqstr side := by cases side <;> rfl
  induction lines generalizing incexc with
  | nil =>
      show recvLoop (endreqstr side) (some incexc) [(Cmd.gen, endreqstr side)] = _
      rw [recvLoop, if_neg (by simp), if_pos hend]
      simp
  | cons b lines ih =>
      have hb := h b List.mem_cons_self
      rw [List.cons_append, List.map_cons, recvLoop, if_neg (by simp),
        cString_of_notMem hb.zero_notMem, if_neg hb.not_end,
        ih fun b' hb' => h b' (List.mem_cons_of_mem _ hb')]
      simp [prepend, hb.ne_nil]

theorem recvLoop_first {side : Side} {b : Bytes} {lines : List Bytes}
    (h : ∀ b' ∈ b :: lines, IsLine side b') :
    recvLoop (endreqstr side) none
        ((b :: lines ++ [endreqstr side]).map fun buf => (Cmd.gen, buf))
      = (true, some (b ++ lines.flatMap (10 :: ·))) := by
  have hb := h b List.mem_cons_self
  rw [List.cons_append, List.map_cons, recvLoop, if_neg (by simp),
    cString_of_notMem hb.zero_notMem, if_neg hb.not_end,
    recvLoop_lines fun b' hb' => h b' (List.mem_cons_of_mem _ hb')]
  simp [prepend]

/-- **The lines are found again** in the text that is received. -/
theorem tokens_received {side : Side} {lines : List Bytes} (h : ∀ b ∈ lines, IsLine side b)
    (hne : lines ≠ []) :
    ∃ incexc, incexcRecv side ((lines ++ [endreqstr side]).map fun buf => (Cmd.gen, buf))
        = (true, some incexc)
      ∧ tokens (· = 10) incexc = lines := by
  obtain ⟨b, rest, rfl⟩ := List.exists_cons_of_ne_nil hne
  refine ⟨b ++ (rest.flatMap (10 :: ·) ++ [10]), ?_, ?_⟩
  · unfold incexcRecv
    rw [recvLoop_first h]
    simp [prepend]
  · have hsep : ∀ v ∈ b :: rest, ∀ c ∈ v, decide (c = (10 : UInt8)) = false := by
      intro v hv c hc
      rw [decide_eq_false_iff_not]
      intro heq
      exact (h v hv).newline_notMem (heq ▸ hc)
    rw [Text.tokens_led hsep (by decide) (by decide), List.filter_eq_self]
    intro v hv
    simpa using (h v hv).ne_nil

/-! ## §4. What one line is read as. -/

/-- The name of an option as the sender writes it. -/
structure IsOption (name : Bytes) : Prop where
  isName : IsName name
  zero_notMem : 0 ∉ name
  not_file : name.head? ≠ some 46

instance (name : Bytes) : Decidable (IsOption name) :=
  decidable_of_iff (IsName name ∧ 0 ∉ name ∧ name.head? ≠ some 46)
    ⟨fun h => ⟨h.1, h.2.1, h.2.2⟩, fun h => ⟨h.isName, h.zero_notMem, h.not_file⟩⟩

theorem sendIncexcStr_eq {pre str : Bytes} (h : str ≠ []) :
    sendIncexcStr pre str = pre ++ ([32, 61, 32] ++ str) := by
  rw [sendIncexcStr, prepend, if_neg h]

theorem isLine_sendIncexcStr (side : Side) {pre str : Bytes} (hpre : IsOption pre)
    (hstr : IsValue str) : IsLine side (sendIncexcStr pre str) := by
  rw [sendIncexcStr_eq hstr.ne_nil]
  refine ⟨?_, ?_, ?_, ?_⟩
  · simp
  · have hzero : (0 : UInt8) ∉ ([32, 61, 32] : Bytes) := by decide
    rw [List.mem_append, List.mem_append, not_or, not_or]
    exact ⟨hpre.zero_notMem, hzero, hstr.zero_notMem⟩
  · have hname : (10 : UInt8) ∉ pre := fun hmem => by
      have := hpre.isName.not_space 10 hmem
      contradiction
    have hten : (10 : UInt8) ∉ ([32, 61, 32] : Bytes) := by decide
    rw [List.mem_append, List.mem_append, not_or, not_or]
    exact ⟨hname, hten, hstr.newline_notMem⟩
  · -- there is no equals sign in the end message
    intro heq
    have hmem : (61 : UInt8) ∈ endreqstr side := by
      rw [← heq]
      simp
    cases side <;> exact absurd hmem (by decide)

theorem parseConfigLine_send {pre str : Bytes} (hpre : IsOption pre) (hstr : str ≠ [])
    (load : Bytes → Loading → Option Loading) (s : Loading) :
    parseConfigLine load [] s (sendIncexcStr pre str)
      = if value str = [] then none else loadFieldAndValue pre (value str) s := by
  have hdot : ¬ [46, 32] <+: pre ++ ([32, 61, 32] ++ str) := by
    obtain ⟨c, rest, hc⟩ := List.exists_cons_of_ne_nil hpre.isName.ne_nil
    intro h
    rw [hc, List.cons_append, List.cons_prefix_cons] at h
    apply hpre.not_file
    rw [hc, List.head?_cons, h.1]
  rw [sendIncexcStr_eq hstr, parseConfigLine, if_neg hdot, configGetPair_line hpre.isName]
  split_ifs <;> rfl

/-- An entry as it is received. -/
def received (o : ListOpt) (e : Strlist) : Strlist := { reread o e with path := value e.path }

theorem sentLists_names : ∀ t ∈ sentLists, IsOption t.2.1 ∧ IsOption t.2.2 := by
  decide

/-- Both names of a list belong to it, and to no other option. -/
theorem sentLists_lookup : ∀ t ∈ sentLists,
    (sizeOptions.lookup t.2.1 = none ∧ intOptions.lookup t.2.1 = none
      ∧ listOptions.lookup t.2.1 = some (t.1, if t.1 = .incexcdir then 1 else 0))
    ∧ sizeOptions.lookup t.2.2 = none ∧ intOptions.lookup t.2.2 = none
      ∧ listOptions.lookup t.2.2 = some (t.1, 0) := by
  decide

theorem loadFieldAndValue_list {t : ListOpt × Bytes × Bytes} (ht : t ∈ sentLists) (e : Strlist)
    (s : Loading) :
    loadFieldAndValue (if e.flag ≠ 0 then t.2.1 else t.2.2) (value e.path) s
      = some (s.1, Function.update s.2 t.1 (s.2 t.1 ++ [received t.1 e])) := by
  obtain ⟨⟨hsize, hint, hlist⟩, hsize', hint', hlist'⟩ := sentLists_lookup t ht
  unfold loadFieldAndValue received reread
  by_cases hflag : e.flag ≠ 0
  · rw [if_pos hflag, hsize, hint, hlist]
    simp only [hflag, and_true, not_false_eq_true, ne_eq]
  · rw [if_neg hflag, hsize', hint', hlist']
    simp only [hflag, and_false, if_false]

/-- **The entries of a list.** -/
theorem foldlM_sendIncexcFromStrlist (load : Bytes → Loading → Option Loading)
    {t : ListOpt × Bytes × Bytes} (ht : t ∈ sentLists) {list : List Strlist}
    (hlist : ∀ e ∈ list, e.path ≠ []) (s : Loading) :
    (sendIncexcFromStrlist t.2.1 t.2.2 list).foldlM (parseConfigLine load []) s
      = if ∀ e ∈ list, value e.path ≠ [] then
          some (s.1, Function.update s.2 t.1 (s.2 t.1 ++ list.map (received t.1)))
        else none := by
  have hnames := sentLists_names t ht
  induction list generalizing s with
  | nil =>
      show some s = _
      simp
  | cons e list ih =>
      have hname : IsOption (if e.flag ≠ 0 then t.2.1 else t.2.2) := by
        split_ifs
        · exact hnames.1
        · exact hnames.2
      have hrest : ∀ e' ∈ list, e'.path ≠ [] := fun e' he' => hlist e' (List.mem_cons_of_mem _ he')
      rw [sendIncexcFromStrlist, List.map_cons, List.foldlM_cons,
        parseConfigLine_send hname (hlist e List.mem_cons_self)]
      by_cases hv : value e.path = []
      · rw [if_pos hv, if_neg (fun h => h e List.mem_cons_self hv)]
        rfl
      · rw [if_neg hv, loadFieldAndValue_list ht]
        show (sendIncexcFromStrlist t.2.1 t.2.2 list).foldlM (parseConfigLine load []) _ = _
        rw [ih hrest]
        simp [hv]

/-! ## §5. Numbers. -/

/-- The characters of a number. -/
def IsNumberChar (c : UInt8) : Prop := c = 45 ∨ Text.isDigit c = true

theorem isNumberChar_decimal {n : Nat} {c : UInt8} (h : c ∈ decimal n) : IsNumberChar c :=
  Or.inr (Text.isDigit_of_mem_decimal h)

theorem isNumberChar_decimalInt {z : Int} {c : UInt8} (h : c ∈ decimalInt z) :
    IsNumberChar c := by
  unfold decimalInt at h
  split_ifs at h
  · rcases List.mem_cons.mp h with h | h
    · exact Or.inl h
    · exact isNumberChar_decimal h
  · exact isNumberChar_decimal h

theorem IsNumberChar.ne {c x : UInt8} (h : IsNumberChar c) (hminus : x ≠ 45)
    (hx : Text.isDigit x = false) : c ≠ x := by
  rcases h with h | h
  · rw [h]
    exact hminus.symm
  · exact Status.digit_ne h hx

theorem IsNumberChar.not_space {c : UInt8} (h : IsNumberChar c) : isSpace c = false := by
  rcases h with rfl | h
  · rfl
  · exact Status.isSpace_of_isDigit h

/-- A number is a value, and is read as itself. -/
theorem isValue_number {v : Bytes} (hne : v ≠ []) (h : ∀ c ∈ v, IsNumberChar c) :
    IsValue v ∧ value v = v := by
  refine ⟨⟨hne, fun hmem => ?_, fun hmem => ?_⟩, ?_⟩
  · exact (h 0 hmem).ne (by decide) (by decide) rfl
  · exact (h 10 hmem).ne (by decide) (by decide) rfl
  · rw [value_eq_self_iff]
    have hquote : ∀ x : UInt8, x ≠ 45 → Text.isDigit x = false → v.head? ≠ some x :=
      fun x hminus hx heq => (h x (List.mem_of_head? heq)).ne hminus hx rfl
    refine ⟨fun c hc => (h c (List.mem_of_head? hc)).not_space,
      fun c hc => (h c (List.mem_of_getLast? hc)).not_space, fun hquoted => ?_⟩
    rcases hquoted.2 with heq | heq
    · exact hquote 39 (by decide) (by decide) heq
    · exact hquote 34 (by decide) (by decide) heq

theorem isValue_decimal (n : Nat) : IsValue (decimal n) ∧ value (decimal n) = decimal n :=
  isValue_number (Text.decimal_ne_nil n) fun _ => isNumberChar_decimal

theorem isValue_decimalInt (z : Int) :
    IsValue (decimalInt z) ∧ value (decimalInt z) = decimalInt z :=
  isValue_number (Status.decimalInt_ne_nil z) fun _ => isNumberChar_decimalInt

theorem atoi_decimalInt {z : Int} (hle : -2 ^ 31 ≤ z) (hlt : z < 2 ^ 31) :
    atoi (decimalInt z) = z := by
  have hlong : Status.atol (decimalInt z) = z := by
    have h := Status.atol_decimalInt_end (Int64.ofInt z)
    rwa [Int64.toInt_ofInt_of_le (by omega) (by omega)] at h
  unfold atoi wrap
  rw [hlong]
  split_ifs <;> omega

theorem getFileSize_decimal {n : Nat} (h : n < 2 ^ 64) : getFileSize (decimal n) = some n := by
  have hdest : Backups.OnDisk.strtoul (decimal n) = n := by
    have hend : ∀ c : UInt8, ([] : Bytes).head? = some c → Text.isDigit c = false := by simp
    have := Status.strtoul_decimal h hend
    rwa [List.append_nil] at this
  have hdrop : ((decimal n).dropWhile fun c => isSpace c || Backups.OnDisk.isDigit c) = [] := by
    rw [List.dropWhile_eq_nil_iff]
    intro c hc
    have hdigit : Backups.OnDisk.isDigit c = true := Text.isDigit_of_mem_decimal hc
    rw [hdigit, Bool.or_true]
  unfold getFileSize
  simp only [hdest, hdrop]

theorem sentInts_lookup : ∀ t ∈ sentInts,
    IsOption t.2 ∧ sizeOptions.lookup t.2 = none ∧ intOptions.lookup t.2 = some t.1 := by
  decide

theorem sentSizes_lookup : ∀ t ∈ sentSizes,
    IsOption t.2 ∧ sizeOptions.lookup t.2 = some t.1 := by
  decide

/-! ## §6. What all lines are read as. -/

section Run

variable (load : Bytes → Loading → Option Loading)

/-- The lists as they are received, before they are finished. -/
def receivedLists (c : Config) : Llists := fun o => (c.lists o).map (received o)

theorem foldlM_lists {c : Config} (hc : ∀ o, ∀ e ∈ c.lists o, e.path ≠ [])
    {table : List (ListOpt × Bytes × Bytes)} (htable : ∀ t ∈ table, t ∈ sentLists) (s : Loading) :
    (table.flatMap fun t => sendIncexcFromStrlist t.2.1 t.2.2 (c.lists t.1)).foldlM
        (parseConfigLine load []) s
      = if ∀ t ∈ table, ∀ e ∈ c.lists t.1, value e.path ≠ [] then
          some (s.1, table.foldl
            (fun l t => Function.update l t.1 (l t.1 ++ receivedLists c t.1)) s.2)
        else none := by
  induction table generalizing s with
  | nil =>
      show some s = _
      simp
  | cons t table ih =>
      have hrest : ∀ t' ∈ table, t' ∈ sentLists :=
        fun t' ht' => htable t' (List.mem_cons_of_mem _ ht')
      rw [List.flatMap_cons, List.foldlM_append,
        foldlM_sendIncexcFromStrlist load (htable t List.mem_cons_self) (hc t.1)]
      by_cases hv : ∀ e ∈ c.lists t.1, value e.path ≠ []
      · rw [if_pos hv]
        show List.foldlM _ _ _ = _
        have hiff : (∀ t' ∈ t :: table, ∀ e ∈ c.lists t'.1, value e.path ≠ [])
            ↔ ∀ t' ∈ table, ∀ e ∈ c.lists t'.1, value e.path ≠ [] := by
          rw [List.forall_mem_cons]
          exact and_iff_right hv
        rw [ih hrest, List.foldl_cons]
        simp only [hiff]
        rfl
      · rw [if_neg hv, if_neg fun h => hv (h t List.mem_cons_self)]
        rfl

/-- Steps that all succeed. -/
theorem foldlM_steps {α σ : Type} {f : σ → α → Option σ} {g : σ → α → σ} {as : List α}
    (h : ∀ a ∈ as, ∀ s, f s a = some (g s a)) (s : σ) : as.foldlM f s = some (as.foldl g s) := by
  induction as generalizing s with
  | nil => rfl
  | cons a as ih =>
      rw [List.foldlM_cons, h a List.mem_cons_self]
      show List.foldlM _ _ _ = _
      rw [ih fun b hb => h b (List.mem_cons_of_mem _ hb), List.foldl_cons]

theorem parse_int {c : Config} (hc : InRange c) {t : IntOpt × Bytes} (ht : t ∈ sentInts)
    (s : Loading) :
    parseConfigLine load [] s (sendIncexcInt t.2 (c.ints t.1))
      = some ({ s.1 with ints := Function.update s.1.ints t.1 (c.ints t.1) }, s.2) := by
  obtain ⟨hname, hsize, hint⟩ := sentInts_lookup t ht
  obtain ⟨hvalue, hself⟩ := isValue_decimalInt (c.ints t.1)
  obtain ⟨hle, hlt⟩ := hc.ints t.1
  rw [sendIncexcInt, parseConfigLine_send hname hvalue.ne_nil, hself, if_neg hvalue.ne_nil]
  unfold loadFieldAndValue
  rw [hsize, hint]
  simp only [atoi_decimalInt hle hlt]

theorem parse_size {c : Config} (hc : InRange c) {t : SizeOpt × Bytes} (ht : t ∈ sentSizes)
    (s : Loading) :
    parseConfigLine load [] s (sendIncexcLong t.2 (c.sizes t.1))
      = some ({ s.1 with sizes := Function.update s.1.sizes t.1 (c.sizes t.1) }, s.2) := by
  obtain ⟨hname, hsize⟩ := sentSizes_lookup t ht
  obtain ⟨hvalue, hself⟩ := isValue_decimal (c.sizes t.1)
  rw [sendIncexcLong, parseConfigLine_send hname hvalue.ne_nil, hself, if_neg hvalue.ne_nil]
  unfold loadFieldAndValue
  rw [hsize]
  simp only [getFileSize_decimal (hc.sizes t.1), Option.map_some]

/-- The settings of the receiver when all lines are read: one number is its own. -/
def receivedConfig (conf c : Config) : Config :=
  { lists := fun _ => []
    ints := Function.update c.ints .readAllBlockdevs (conf.ints .readAllBlockdevs)
    sizes := c.sizes
    startdir := [] }

/-- **What the lines are read as.** -/
theorem parse_sends {c : Config} (hc : Loaded c) (conf : Config) :
    (doSends c).foldlM (parseConfigLine load []) (freeIncexcs conf, fun _ => [])
      = if ∀ t ∈ sentLists, ∀ e ∈ c.lists t.1, value e.path ≠ [] then
          some (receivedConfig conf c, receivedLists c)
        else none := by
  have hne : ∀ o, ∀ e ∈ c.lists o, e.path ≠ [] := fun o e he => (hc.isValue he).ne_nil
  have hlists : sentLists.foldl
      (fun l t => Function.update l t.1 (l t.1 ++ receivedLists c t.1)) (fun _ => [])
        = receivedLists c := by
    funext o
    cases o <;> rfl
  rw [doSends, List.foldlM_append, foldlM_lists load hne fun _ ht => ht, hlists]
  by_cases hv : ∀ t ∈ sentLists, ∀ e ∈ c.lists t.1, value e.path ≠ []
  · rw [if_pos hv, if_pos hv]
    show List.foldlM _ _ _ = _
    rw [List.foldlM_append, List.foldlM_map,
      foldlM_steps fun t ht s => parse_int load hc.range ht s]
    show List.foldlM _ _ _ = _
    rw [List.foldlM_map, foldlM_steps fun t ht s => parse_size load hc.range ht s, Option.some_inj]
    -- every option is sent once, the one of the receiver excepted
    apply Prod.ext
    · apply Config.ext
      · rfl
      · funext o
        cases o <;> rfl
      · funext o
        cases o <;> rfl
      · rfl
    · rfl
  · rw [if_neg hv, if_neg hv]
    rfl

end Run

theorem isLine_of_mem_doSends {c : Config} (hc : Loaded c) (side : Side) {b : Bytes}
    (h : b ∈ doSends c) : IsLine side b := by
  rcases List.mem_append.mp h with h | h
  · obtain ⟨t, ht, hmem⟩ := List.mem_flatMap.mp h
    obtain ⟨e, he, rfl⟩ := List.mem_map.mp hmem
    have hnames := sentLists_names t ht
    apply isLine_sendIncexcStr side _ (hc.isValue he)
    split_ifs
    · exact hnames.1
    · exact hnames.2
  · rcases List.mem_append.mp h with h | h
    · obtain ⟨t, ht, rfl⟩ := List.mem_map.mp h
      exact isLine_sendIncexcStr side (sentInts_lookup t ht).1 (isValue_decimalInt _).1
    · obtain ⟨t, ht, rfl⟩ := List.mem_map.mp h
      exact isLine_sendIncexcStr side (sentSizes_lookup t ht).1 (isValue_decimal _).1

theorem doSends_ne_nil (c : Config) : doSends c ≠ [] := by
  apply List.append_ne_nil_of_right_ne_nil
  exact List.cons_ne_nil _ _

/-- The receiver reads the lines that were sent. -/
theorem transfer_eq {c : Config} (hc : Loaded c) (load : Bytes → Loading → Option Loading)
    (side : Side) (conf : Config) :
    transfer load side conf c
      = if ∀ t ∈ sentLists, ∀ e ∈ c.lists t.1, value e.path ≠ [] then
          finaliseConfig (receivedConfig conf c, receivedLists c)
        else none := by
  obtain ⟨incexc, hrecv, htokens⟩ :=
    tokens_received (fun b hb => isLine_of_mem_doSends hc side hb) (doSends_ne_nil c)
  unfold transfer incexcSend
  rw [hrecv]
  show parseIncexcsBuf load conf incexc = _
  unfold parseIncexcsBuf
  simp only [htokens, doSends_ne_nil c, if_false, parse_sends load hc]
  split_ifs <;> rfl

/-! ## §7. What arrives. -/

/-- If the same texts come out, no text got shorter. -/
theorem value_eq_of_perm {list : List Strlist}
    (h : (list.map fun e => value e.path).Perm (list.map (·.path))) :
    ∀ e ∈ list, value e.path = e.path := by
  have hsum : (list.map fun e => (value e.path).length).sum
      = (list.map fun e => e.path.length).sum := by
    have := (h.map List.length).sum_eq
    rw [List.map_map, List.map_map] at this
    exact this
  intro e he
  by_contra hne
  have hlt : (value e.path).length < e.path.length :=
    lt_of_le_of_ne (length_value_le _) fun heq => hne (value_eq_of_length heq)
  have := List.sum_lt_sum (fun e : Strlist => (value e.path).length) (fun e => e.path.length)
    (fun e' _ => length_value_le e'.path) ⟨e, he, hlt⟩
  omega

/-- **A configuration arrives as it was sent** if and only if every value in it is read as
itself, and the receiver has the one option already that is not sent. -/
theorem transfer_eq_iff {files : Bytes → Option Bytes} {fuel : Nat} {configPath : Bytes}
    {c : Config} (h : loadConfig files fuel configPath = some c)
    (load : Bytes → Loading → Option Loading) (side : Side) (conf : Config) :
    transfer load side conf c = some c
      ↔ (∀ o, ∀ e ∈ c.lists o, Plain e.path)
        ∧ conf.ints .readAllBlockdevs = c.ints .readAllBlockdevs := by
  have hc := loadConfig_loaded h
  have hempty : ∀ o, (receivedConfig conf c).lists o = [] := fun _ => rfl
  rw [transfer_eq hc]
  constructor
  · intro htransfer
    split_ifs at htransfer with hv
    obtain ⟨hlists, hints, -, -⟩ := finaliseConfig_lists hempty htransfer
    constructor
    · intro o e he
      have hperm : ((c.lists o).map fun e => value e.path).Perm ((c.lists o).map (·.path)) := by
        have := paths_finaliseList o (receivedLists c o)
        rw [← hlists o, receivedLists, List.map_map] at this
        exact this.symm
      exact (value_eq_self_iff e.path).mp (value_eq_of_perm hperm e he)
    · rw [congrFun hints .readAllBlockdevs]
      exact (Function.update_self IntOpt.readAllBlockdevs _ c.ints).symm
  · rintro ⟨hplain, hblockdevs⟩
    have hself : ∀ o, ∀ e ∈ c.lists o, value e.path = e.path :=
      fun o e he => (value_eq_self_iff e.path).mpr (hplain o e he)
    have hv : ∀ t ∈ sentLists, ∀ e ∈ c.lists t.1, value e.path ≠ [] := by
      intro t _ e he
      rw [hself t.1 e he]
      exact (hc.isValue he).ne_nil
    have hlists : ∀ o, finaliseList o (receivedLists c o) = c.lists o := by
      intro o
      obtain ⟨l, hraw, hl⟩ := hc.lists
      have hreread : receivedLists c o = (c.lists o).map (reread o) := by
        apply List.map_congr_left
        intro e he
        show ({ reread o e with path := value e.path } : Strlist) = reread o e
        rw [hself o e he]
        rfl
      rw [hreread, hl o, finaliseList_reread hraw]
    have hints : Function.update c.ints .readAllBlockdevs (conf.ints .readAllBlockdevs)
        = c.ints := by
      rw [hblockdevs]
      exact Function.update_eq_self _ _
    rw [if_pos hv, finaliseConfig_eq hempty, hlists, hc.starts]
    show some _ = some _
    congr 1
    apply Config.ext
    · exact funext hlists
    · exact hints
    · rfl
    · rfl

/-- Values without blanks at their ends and without quotes. -/
def plainText : Bytes := nameBytes "include = /a\nexclude = /a/b\nexclude_ext = vdi\n"

theorem transfer_eq_iff_plainText :
    ∃ c, loadConfig (fun _ => some plainText) 1 [] = some c
      ∧ (transfer (fun _ _ => none) .server initConfig c = some c
        ↔ (∀ o, ∀ e ∈ c.lists o, Plain e.path)
          ∧ initConfig.ints .readAllBlockdevs = c.ints .readAllBlockdevs) := by
  obtain ⟨c, hc⟩ : ∃ c, loadConfig (fun _ => some plainText) 1 [] = some c :=
    Option.isSome_iff_exists.mp (by decide)
  exact ⟨c, hc, transfer_eq_iff hc _ _ _⟩

/-- A directory whose name ends with a blank, and the option that is not sent. -/
def blockdevsText : Bytes :=
  nameBytes "include = /a\nexclude = '/a/b '\nread_all_blockdevs = 1\n"

theorem blockdevs_not_sent :
    ∃ c c', loadConfig (fun _ => some blockdevsText) 1 [] = some c
      ∧ transfer (fun _ _ => none) .server initConfig c = some c'
      ∧ c.ints .readAllBlockdevs = 1 ∧ c'.ints .readAllBlockdevs = 0
      ∧ c.lists .incexcdir = [⟨nameBytes "/a", 1⟩, ⟨nameBytes "/a/b ", 0⟩]
      ∧ c'.lists .incexcdir = [⟨nameBytes "/a", 1⟩, ⟨nameBytes "/a/b", 0⟩] := by
  have hrun : ((loadConfig (fun _ => some blockdevsText) 1 []).bind fun c =>
      (transfer (fun _ _ => none) .server initConfig c).map fun c' =>
        ((c.ints .readAllBlockdevs, c'.ints .readAllBlockdevs),
          c.lists .incexcdir, c'.lists .incexcdir))
      = some ((1, 0), [⟨nameBytes "/a", 1⟩, ⟨nameBytes "/a/b ", 0⟩],
          [⟨nameBytes "/a", 1⟩, ⟨nameBytes "/a/b", 0⟩]) := by
    decide
  obtain ⟨c, hc, hrun⟩ := Option.bind_eq_some_iff.mp hrun
  obtain ⟨c', hc', hrun⟩ := Option.map_eq_some_iff.mp hrun
  rw [Prod.mk.injEq, Prod.mk.injEq, Prod.mk.injEq] at hrun
  obtain ⟨⟨hint, hint'⟩, hlist, hlist'⟩ := hrun
  exact ⟨c, c', hc, hc', hint, hint', hlist, hlist'⟩

end Burp.Conf
