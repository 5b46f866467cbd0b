/-
  Burp.Conf.InPlace — a line is taken apart where it stands (conf.c).

  `config_get_pair` gets a line and no length.  It clears bytes of the line, and what it gives
  are pointers into it.  Two of its loops go backward, one of them from the byte before the
  equals sign.  A line may begin with that sign, and the byte is not one of the line then.

  Main results:
    * `configGetPairAt_eq` — the pointers are to the pair that a reader of the text expects.
    * `config_get_pair_exact_iff` — the lines that are parsed safely and exactly.
-/
import Burp.Conf.Pairs
import Burp.Store.RoundTrip
import Burp.Text.Scan

namespace Burp.Conf

open FileSystem Burp.Store Burp.Text
open Burp.Backups.OnDisk (isSpace)

/-! ## §1. The code. -/

/-- What `config_get_pair` returns and sets: offsets into the line, which it may have
written to. -/
structure Got where
  ret : Int
  field : Option Nat
  value : Option Nat
  mem : Bytes
  deriving DecidableEq

/-- The quotes are removed from around the value at `cp`: where it starts then, and the line. -/
def unquoteAt (mem : Bytes) (cp : Nat) : Option (Nat × Bytes) := do
  let n ← strlen mem cp
  let c ← mem[cp]?
  if c = 39 ∨ c = 34 then
    -- only now, for a value that is not empty, is `*end` looked at
    let e ← mem[cp + n - 1]?
    if e = c then some (cp + 1, mem.set (cp + n - 1) 0) else some (cp, mem)
  else some (cp, mem)

/-- The last check, that neither is empty. -/
def checkPair (mem : Bytes) (field value : Nat) : Option Got := do
  let f ← mem[field]?
  if f = 0 then some ⟨-1, some field, some value, mem⟩
  else
    let v ← mem[value]?
    some ⟨if v = 0 then -1 else 0, some field, some value, mem⟩

/-- What is done from the equals sign on. -/
def splitAt (mem : Bytes) (field eq : Nat) : Option Got := do
  -- strip white space from before the equals sign
  let mem ← stripBack isSpace (mem.set eq 0) eq
  -- skip white space after the equals sign
  let value ← skip isSpace mem (eq + 1)
  -- strip white space at the end of the line
  let n ← strlen mem value
  let mem ← stripBack isSpace mem (value + n)
  let (value, mem) ← unquoteAt mem value
  checkPair mem field value

/-- `config_get_pair` on the bytes of a line, the NUL included.  Nothing is that it has gone
outside. -/
def configGetPairAt (mem : Bytes) : Option Got := do
  let cp ← skip isSpace mem 0
  let c ← mem[cp]?
  if c = 0 ∨ c = 35 then some ⟨0, none, none, mem⟩
  else
    match ← strchr 61 mem cp with
    | none => some ⟨-1, some cp, none, mem⟩
    | some eq => splitAt mem cp eq

/-- The pair that the caller gets: the strings at the pointers. -/
def Got.pair (g : Got) : Option (Option (Bytes × Bytes)) :=
  if g.ret ≠ 0 then none
  else
    match g.field, g.value with
    | some f, some v => some (some (cString (g.mem.drop f), cString (g.mem.drop v)))
    | _, _ => some none

/-! ## §2. The value. -/

theorem isSpace_zero : isSpace 0 = false := by decide

/-- Blanks are what the loops go over. -/
theorem blank_of_isSpace {w : Bytes} (hw : ∀ x ∈ w, isSpace x = true) :
    ∀ x ∈ w, x ≠ 0 ∧ isSpace x = true := by
  intro x hx
  refine ⟨fun h => ?_, hw x hx⟩
  have := hw x hx
  rw [h, isSpace_zero] at this
  exact Bool.noConfusion this

/-- A value in a line, with the terminator behind it: what is before it keeps its place. -/
structure ValueAt (mem pre : Bytes) (value : Nat) (v : Bytes) : Prop where
  before : ∃ mid rest, mem = (pre ++ mid) ++ (v ++ 0 :: rest) ∧ (pre ++ mid).length = value
  not_mem : 0 ∉ v

theorem ValueAt.getElem? {mem pre : Bytes} {value : Nat} {v : Bytes}
    (h : ValueAt mem pre value v) : mem[value]? = some (v.headD 0) := by
  obtain ⟨mid, rest, rfl, rfl⟩ := h.before
  rw [List.getElem?_append_right le_rfl, Nat.sub_self]
  cases v with
  | nil => rfl
  | cons c v => rfl

theorem ValueAt.strlen {mem pre : Bytes} {value : Nat} {v : Bytes}
    (h : ValueAt mem pre value v) : Text.strlen mem value = some v.length := by
  obtain ⟨mid, rest, rfl, rfl⟩ := h.before
  exact strlen_eq h.not_mem

theorem ValueAt.cString {mem pre : Bytes} {value : Nat} {v : Bytes}
    (h : ValueAt mem pre value v) : Store.cString (mem.drop value) = v := by
  obtain ⟨mid, rest, rfl, rfl⟩ := h.before
  rw [List.drop_left]
  exact cString_append_zero h.not_mem rest

theorem headD_ne_zero {v : Bytes} (h0 : 0 ∉ v) (hv : v ≠ []) : v.headD 0 ≠ 0 := by
  obtain ⟨c, w, rfl⟩ := List.exists_cons_of_ne_nil hv
  exact fun h => h0 (h ▸ List.mem_cons_self)

/-! What removing quotes does to a value, by the bytes at its ends. -/

theorem unquote_of_head {v : Bytes} (hq : ¬ (v.headD 0 = 39 ∨ v.headD 0 = 34)) :
    unquote v = v := by
  unfold unquote
  rw [if_neg]
  rintro ⟨-, hhead⟩
  cases v with
  | nil => simp at hhead
  | cons c v => exact hq (by simpa using hhead)

/-- One character is both the first and the last. -/
theorem unquote_one {c : UInt8} (hq : c = 39 ∨ c = 34) : unquote [c] = [] := by
  unfold unquote
  rw [if_pos ⟨rfl, by simpa using hq⟩]
  rfl

theorem unquote_ends {c : UInt8} (hq : c = 39 ∨ c = 34) (m : Bytes) (e : UInt8) :
    unquote (c :: (m ++ [e])) = if e = c then m else c :: (m ++ [e]) := by
  have hlast : (c :: (m ++ [e])).getLast? = some e := by
    rw [← List.cons_append, List.getLast?_concat]
  unfold unquote
  rw [hlast]
  by_cases hec : e = c
  · rw [if_pos hec, if_pos ⟨by rw [hec]; rfl, by simpa using hq⟩, List.tail_cons,
      List.dropLast_concat]
  · rw [if_neg hec, if_neg]
    rintro ⟨heq, -⟩
    rw [List.head?_cons, Option.some.injEq] at heq
    exact hec heq.symm

/-- **The quotes are removed** by moving the pointer and clearing a byte. -/
theorem unquoteAt_eq {mem pre : Bytes} {value : Nat} {v : Bytes} (h : ValueAt mem pre value v) :
    ∃ value' mem', unquoteAt mem value = some (value', mem')
      ∧ mem'.length = mem.length ∧ ValueAt mem' pre value' (unquote v) := by
  have hlen := h.strlen
  have hget := h.getElem?
  obtain ⟨mid, rest, hmem, hvalue⟩ := h.before
  unfold unquoteAt
  rw [hlen, hget]
  dsimp only [Option.bind_eq_bind, Option.bind_some]
  by_cases hq : v.headD 0 = 39 ∨ v.headD 0 = 34
  swap
  · rw [if_neg hq, unquote_of_head hq]
    exact ⟨value, mem, rfl, rfl, h⟩
  rw [if_pos hq]
  cases v using List.reverseRecOn with
  | nil => exact absurd hq (by decide)
  | append_singleton w e =>
      -- the last byte of the value
      have hidx : value + (w ++ [e]).length - 1 = (pre ++ mid ++ w).length := by
        rw [← hvalue]
        simp only [List.length_append, List.length_singleton]
        omega
      have hsplit : mem = (pre ++ mid ++ w) ++ e :: (0 :: rest) := by rw [hmem]; simp
      have hlast : mem[value + (w ++ [e]).length - 1]? = some e := by
        rw [hidx, hsplit]
        simp
      have hset : mem.set (value + (w ++ [e]).length - 1) 0
          = (pre ++ mid ++ w) ++ 0 :: (0 :: rest) := by
        rw [hidx, hsplit]
        simp
      rw [hlast]
      dsimp only [Option.bind_some]
      cases w with
      | nil =>
          rw [List.nil_append, List.headD_cons] at hq ⊢
          rw [if_pos rfl, unquote_one hq]
          refine ⟨value + 1, _, rfl, by simp, ⟨mid ++ [0], rest, ?_, ?_⟩, by simp⟩
          · rw [List.nil_append] at hset
            rw [hset]
            simp
          · rw [← hvalue]
            simp only [List.length_append, List.length_singleton]
            omega
      | cons c m =>
          rw [List.cons_append, List.headD_cons] at hq ⊢
          rw [unquote_ends hq]
          by_cases hec : e = c
          · rw [if_pos hec, if_pos hec]
            refine ⟨value + 1, _, rfl, by simp, ⟨mid ++ [c], 0 :: rest, ?_, ?_⟩, ?_⟩
            · rw [List.cons_append] at hset
              rw [hset]
              simp
            · rw [← hvalue]
              simp only [List.length_append, List.length_singleton]
              omega
            · exact fun hm => h.not_mem (by simp [hm])
          · rw [if_neg hec, if_neg hec]
            exact ⟨value, mem, rfl, rfl, h⟩

/-! ## §3. The line. -/

theorem checkPair_eq {mem pre f Y : Bytes} {value : Nat} {v : Bytes}
    (h : ValueAt mem ((pre ++ f) ++ 0 :: Y) value v) (hf : 0 ∉ f) (hne : f ≠ []) :
    ∃ g, checkPair mem pre.length value = some g ∧ g.mem = mem
      ∧ g.pair = if v = [] then none else some (some (f, v)) := by
  have hget := h.getElem?
  have hstr := h.cString
  obtain ⟨mid, rest, hmem, -⟩ := h.before
  have hsplit : mem = pre ++ (f ++ 0 :: (Y ++ mid ++ (v ++ 0 :: rest))) := by rw [hmem]; simp
  have hfield : mem[pre.length]? = some (f.headD 0) := by
    rw [hsplit, List.getElem?_append_right le_rfl, Nat.sub_self]
    obtain ⟨c, w, rfl⟩ := List.exists_cons_of_ne_nil hne
    rfl
  have hfstr : cString (mem.drop pre.length) = f := by
    rw [hsplit, List.drop_left]
    exact cString_append_zero hf _
  unfold checkPair
  rw [hfield, hget]
  dsimp only [Option.bind_eq_bind, Option.bind_some]
  rw [if_neg (headD_ne_zero hf hne)]
  refine ⟨_, rfl, rfl, ?_⟩
  unfold Got.pair
  by_cases hv : v = []
  · rw [if_pos (by simp [hv]), if_pos hv]
  · rw [if_neg (headD_ne_zero h.not_mem hv), if_neg (by simp), if_neg hv]
    dsimp only
    rw [hfstr, hstr]

/-- A text ends with what is not a blank, and blanks. -/
theorem exists_rdropWhile (b : Bytes) :
    ∃ w, b = b.rdropWhile isSpace ++ w ∧ (∀ x ∈ w, isSpace x = true)
      ∧ ∀ c ∈ (b.rdropWhile isSpace).getLast?, isSpace c = false := by
  refine ⟨b.rtakeWhile isSpace, (List.rdropWhile_append_rtakeWhile).symm, ?_, ?_⟩
  · intro x hx
    exact List.mem_rtakeWhile_imp hx
  · have hidem : (b.rdropWhile isSpace).rdropWhile isSpace = b.rdropWhile isSpace :=
      List.rdropWhile_idempotent isSpace b
    exact rdropWhile_eq_self_iff.mp hidem

/-- What a text begins with stays if the blanks at its end are cut off. -/
theorem head?_rdropWhile {t : Bytes} (h : ∀ c, t.head? = some c → isSpace c = false) :
    (t.rdropWhile isSpace).head? = t.head? := by
  obtain ⟨w, htw, hw, -⟩ := exists_rdropWhile t
  cases hr : t.rdropWhile isSpace with
  | nil =>
      -- the text would be blanks, and does not begin with one
      rw [hr, List.nil_append] at htw
      cases t with
      | nil => rfl
      | cons c t =>
          have hc := hw c (by rw [← htw]; exact List.mem_cons_self)
          rw [h c rfl] at hc
          exact Bool.noConfusion hc
  | cons c r =>
      rw [htw, hr]
      rfl

theorem rdropWhile_ne_nil {t : Bytes} (h : ∀ c, t.head? = some c → isSpace c = false)
    (hne : t ≠ []) : t.rdropWhile isSpace ≠ [] := by
  intro hnil
  have hhead := head?_rdropWhile h
  rw [hnil] at hhead
  exact hne (List.head?_eq_none_iff.mp hhead.symm)

/-- Cleared bytes and a terminator are a terminator and more. -/
theorem replicate_terminated (n : Nat) (b : Bytes) :
    ∃ Z, List.replicate n (0 : UInt8) ++ 0 :: b = 0 :: Z := by
  cases n with
  | zero => exact ⟨b, rfl⟩
  | succ n => exact ⟨List.replicate n 0 ++ 0 :: b, rfl⟩

/-- The blanks before the equals sign are cleared, and so is the sign. -/
theorem strip_field (pre rest : Bytes) {f : Bytes} (hne : f.rdropWhile isSpace ≠ []) :
    ∃ A Y, stripBack isSpace ((pre ++ (f ++ 61 :: rest)).set (pre.length + f.length) 0)
        (pre.length + f.length) = some (A ++ rest)
      ∧ A.length = pre.length + f.length + 1
      ∧ A = (pre ++ f.rdropWhile isSpace) ++ 0 :: Y ∧ A.getLast? = some 0 := by
  obtain ⟨w, hfw, hw, hlastf⟩ := exists_rdropWhile f
  obtain ⟨f₁, d, hd⟩ : ∃ f₁ d, f.rdropWhile isSpace = f₁ ++ [d] :=
    ⟨_, _, (List.dropLast_append_getLast hne).symm⟩
  have hdspace : isSpace d = false := hlastf d (by simp [hd])
  have hset : (pre ++ (f ++ 61 :: rest)).set (pre.length + f.length) 0
      = (pre ++ f₁) ++ d :: (w ++ (0 :: rest)) := by
    rw [← List.append_assoc, ← List.length_append, List.set_append_right _ _ le_rfl, Nat.sub_self,
      List.set_cons_zero]
    nth_rewrite 1 [hfw]
    rw [hd]
    simp
  have hlen : pre.length + f.length = (pre ++ f₁).length + 1 + w.length := by
    have := congrArg List.length hfw
    rw [hd] at this
    simp only [List.length_append, List.length_singleton] at this ⊢
    omega
  obtain ⟨Y, hY⟩ := replicate_terminated w.length []
  have hA : (pre ++ f.rdropWhile isSpace) ++ 0 :: Y
      = (pre ++ f.rdropWhile isSpace ++ List.replicate w.length 0) ++ [0] := by
    rw [← hY, List.append_assoc _ _ [0]]
  refine ⟨_, Y, ?_, ?_, rfl, ?_⟩
  · rw [hset, hlen, stripBack_eq (blank_of_isSpace hw) (by simp [hdspace]), hA, hd]
    simp
  · rw [hA, hlen, hd]
    simp only [List.length_append, List.length_singleton, List.length_replicate]
    omega
  · rw [hA, List.getLast?_concat]

/-- Behind a byte that is cleared, the blanks before a value are skipped and those behind it are
cleared.  Without a value the loop clears those before it, up to that byte. -/
theorem strip_value {A r : Bytes} (hA : A.getLast? = some 0) (hr0 : 0 ∉ r) :
    ∃ cp n mem, skip isSpace (A ++ (r ++ [0])) A.length = some cp
      ∧ strlen (A ++ (r ++ [0])) cp = some n
      ∧ stripBack isSpace (A ++ (r ++ [0])) (cp + n) = some mem
      ∧ mem.length = (A ++ (r ++ [0])).length
      ∧ ValueAt mem A cp ((r.dropWhile isSpace).rdropWhile isSpace) := by
  obtain ⟨u, v, hruv, hu, hv⟩ : ∃ u v, r = u ++ v ∧ (∀ x ∈ u, isSpace x = true)
      ∧ v = r.dropWhile isSpace :=
    ⟨r.takeWhile isSpace, _, List.takeWhile_append_dropWhile.symm,
      fun x hx => List.mem_takeWhile_imp hx, rfl⟩
  have hvhead : ∀ c, v.head? = some c → isSpace c = false := by
    rw [hv]
    exact dropWhile_eq_self_iff.mp (List.dropWhile_idempotent isSpace r)
  rw [← hv]
  have hv0 : 0 ∉ v := fun hm => hr0 (by rw [hruv]; exact List.mem_append_right _ hm)
  have hn0 : 0 ∉ v.rdropWhile isSpace := fun hm =>
    hv0 ((List.rdropWhile_prefix isSpace v).subset hm)
  have hskip : skip isSpace (A ++ (r ++ [0])) A.length = some (A ++ u).length := by
    rw [hruv, List.append_assoc, List.length_append]
    cases v with
    | nil => exact skip_eq (blank_of_isSpace hu) (by decide)
    | cons c v => exact skip_eq (blank_of_isSpace hu) (by simp [hvhead c rfl])
  have hmem : A ++ (r ++ [0]) = (A ++ u) ++ (v ++ 0 :: []) := by rw [hruv]; simp
  refine ⟨(A ++ u).length, v.length, ?_⟩
  by_cases hvnil : v = []
  · -- back over the blanks after the sign
    have hA' : A = A.dropLast ++ [0] := (List.dropLast_append_getLast? 0 hA).symm
    generalize A.dropLast = A' at hA'
    refine ⟨A ++ (List.replicate u.length 0 ++ [0]), hskip, by rw [hmem]; exact strlen_eq hv0,
      ?_, ?_, ⟨List.replicate u.length 0, [], ?_, ?_⟩, hn0⟩
    · have hlen : (A ++ u).length + v.length = A'.length + 1 + u.length := by
        rw [hvnil, hA']
        simp only [List.length_append, List.length_singleton, List.length_nil]
        omega
      rw [hlen, hruv, hvnil, List.append_nil, hA', List.append_assoc, List.append_assoc]
      exact stripBack_eq (blank_of_isSpace hu) (by decide)
    · rw [hruv, hvnil]
      simp
    · rw [hvnil]
      simp
    · simp
  · obtain ⟨w, hvw, hw, hlastv⟩ := exists_rdropWhile v
    have hvne : v.rdropWhile isSpace ≠ [] := rdropWhile_ne_nil hvhead hvnil
    obtain ⟨v₁, e, he⟩ : ∃ v₁ e, v.rdropWhile isSpace = v₁ ++ [e] :=
      ⟨_, _, (List.dropLast_append_getLast hvne).symm⟩
    have hespace : isSpace e = false := hlastv e (by simp [he])
    have hsplit : A ++ (r ++ [0]) = (A ++ u ++ v₁) ++ e :: (w ++ [0]) := by
      rw [hmem]
      nth_rewrite 1 [hvw]
      rw [he]
      simp
    have hlen : (A ++ u).length + v.length = (A ++ u ++ v₁).length + 1 + w.length := by
      have := congrArg List.length hvw
      rw [he] at this
      simp only [List.length_append, List.length_singleton] at this ⊢
      omega
    have hstrip : stripBack isSpace (A ++ (r ++ [0])) ((A ++ u).length + v.length)
        = some ((A ++ u ++ v₁) ++ e :: (List.replicate w.length 0 ++ [0])) := by
      rw [hsplit, hlen]
      exact stripBack_eq (blank_of_isSpace hw) (by simp [hespace])
    obtain ⟨Z, hZ⟩ := replicate_terminated w.length []
    refine ⟨_, hskip, by rw [hmem]; exact strlen_eq hv0, hstrip, ?_, ⟨u, Z, ?_, rfl⟩, hn0⟩
    · rw [hsplit]
      simp
    · rw [hZ, he]
      simp

/-- **From the equals sign on**, if there is a field before it. -/
theorem splitAt_eq (pre : Bytes) {f r : Bytes} (hf0 : 0 ∉ f) (hr0 : 0 ∉ r)
    (hne : f.rdropWhile isSpace ≠ []) :
    ∃ g, splitAt (pre ++ (f ++ 61 :: (r ++ [0]))) pre.length (pre.length + f.length) = some g
      ∧ g.mem.length = (pre ++ (f ++ 61 :: (r ++ [0]))).length
      ∧ g.pair = if value r = [] then none
          else some (some (f.rdropWhile isSpace, value r)) := by
  obtain ⟨A, Y, hback, hAlen, hA, hlast⟩ := strip_field pre (r ++ [0]) hne
  obtain ⟨cp, n, mem, hskip, hlen, hstrip, hmemlen, hvalue⟩ := strip_value hlast hr0
  obtain ⟨value', mem', hunq, hmemlen', hvalue'⟩ := unquoteAt_eq hvalue
  have hf' : 0 ∉ f.rdropWhile isSpace := fun hm =>
    hf0 ((List.rdropWhile_prefix isSpace f).subset hm)
  rw [hA] at hvalue'
  obtain ⟨g, hg, hgmem, hgpair⟩ := checkPair_eq hvalue' hf' hne
  refine ⟨g, ?_, ?_, hgpair⟩
  · rw [hAlen] at hskip
    unfold splitAt
    rw [hback]
    dsimp only [Option.bind_eq_bind, Option.bind_some]
    rw [hskip]
    dsimp only [Option.bind_some]
    rw [hlen]
    dsimp only [Option.bind_some]
    rw [hstrip]
    dsimp only [Option.bind_some]
    rw [hunq]
    exact hg
  · rw [hgmem, hmemlen', hmemlen]
    simp only [List.length_append, List.length_cons, List.length_nil]
    omega

/-- A line: its bytes up to the NUL. -/
structure Line where
  text : Bytes
  not_mem : 0 ∉ text

/-- The array that a line is in. -/
def Line.mem (line : Line) : Bytes := line.text ++ [0]

/-- A line is blanks and a rest, where the search for the equals sign begins. -/
theorem skip_line (line : Line) :
    skip isSpace line.mem 0 = some (line.text.takeWhile isSpace).length
      ∧ line.mem[(line.text.takeWhile isSpace).length]?
        = some ((line.text.dropWhile isSpace).headD 0) := by
  have hw : ∀ x ∈ line.text.takeWhile isSpace, isSpace x = true :=
    fun x hx => List.mem_takeWhile_imp hx
  have hmem : line.mem
      = line.text.takeWhile isSpace ++ (line.text.dropWhile isSpace ++ [0]) := by
    rw [← List.append_assoc, List.takeWhile_append_dropWhile]
    rfl
  rw [hmem]
  constructor
  · have hhead := dropWhile_eq_self_iff.mp (List.dropWhile_idempotent isSpace line.text)
    rw [← List.nil_append (line.text.takeWhile isSpace ++ _),
      ← Nat.zero_add (line.text.takeWhile isSpace).length]
    cases ht : line.text.dropWhile isSpace with
    | nil => exact skip_eq (blank_of_isSpace hw) (by decide)
    | cons c t =>
        have hc : isSpace c = false := hhead c (by rw [ht]; rfl)
        exact skip_eq (blank_of_isSpace hw) (by simp [hc])
  · rw [List.getElem?_append_right le_rfl, Nat.sub_self]
    cases line.text.dropWhile isSpace with
    | nil => rfl
    | cons c t => rfl

/-- **The pointers are to the pair** of the text, unless the line has nothing before its equals
sign. -/
theorem configGetPairAt_eq (line : Line) (h : (line.text.dropWhile isSpace).head? ≠ some 61) :
    ∃ g, configGetPairAt line.mem = some g ∧ g.mem.length = line.mem.length
      ∧ g.pair = configGetPair line.text := by
  obtain ⟨hskip, hget⟩ := skip_line line
  have hmem : line.mem
      = line.text.takeWhile isSpace ++ (line.text.dropWhile isSpace ++ [0]) := by
    rw [← List.append_assoc, List.takeWhile_append_dropWhile]
    rfl
  have ht0 : 0 ∉ line.text.dropWhile isSpace := fun hm =>
    line.not_mem ((List.dropWhile_suffix isSpace).subset hm)
  have hthead := dropWhile_eq_self_iff.mp (List.dropWhile_idempotent isSpace line.text)
  unfold configGetPairAt configGetPair
  rw [hskip]
  dsimp only [Option.bind_eq_bind, Option.bind_some]
  rw [hget]
  dsimp only [Option.bind_some]
  generalize line.text.takeWhile isSpace = s at hmem
  generalize line.text.dropWhile isSpace = t at *
  cases t with
  | nil => exact ⟨_, rfl, rfl, rfl⟩
  | cons c t =>
      have hc0 : c ≠ 0 := fun heq => ht0 (heq ▸ List.mem_cons_self)
      rw [List.headD_cons]
      by_cases hcomment : c = 35
      · rw [if_pos (.inr hcomment), if_pos (.inr (by rw [hcomment]; rfl))]
        exact ⟨_, rfl, rfl, rfl⟩
      rw [if_neg (not_or.mpr ⟨hc0, hcomment⟩), if_neg (by simpa using hcomment)]
      by_cases heq : 61 ∈ c :: t
      swap
      · have hnone : strchr 61 line.mem s.length = some none := by
          rw [hmem]
          refine strchr_missing (fun x hx => ⟨?_, ?_⟩) (by decide)
          · exact fun hx61 => heq (hx61 ▸ hx)
          · exact fun hx0 => ht0 (hx0 ▸ hx)
        rw [hnone, if_pos heq]
        exact ⟨_, rfl, rfl, rfl⟩
      rw [if_neg (not_not.mpr heq)]
      obtain ⟨f, r, hfr, hf⟩ := List.eq_append_cons_of_mem heq
      rw [hfr] at ht0 hmem
      have hmem' : line.mem = s ++ (f ++ 61 :: (r ++ [0])) := by rw [hmem]; simp
      have hf0 : 0 ∉ f := fun hm => ht0 (List.mem_append_left _ hm)
      have hr0 : 0 ∉ r := fun hm => ht0 (by simp [hm])
      have hfound : strchr 61 line.mem s.length = some (some (s.length + f.length)) := by
        rw [hmem']
        refine strchr_found fun x hx => ⟨?_, ?_⟩
        · exact fun hx61 => hf (hx61 ▸ hx)
        · exact fun hx0 => hf0 (hx0 ▸ hx)
      -- the field begins with a byte that is not a blank
      have hfne : f ≠ [] := by
        intro hnil
        rw [hnil, List.nil_append] at hfr
        exact h (by rw [hfr]; rfl)
      have hne : f.rdropWhile isSpace ≠ [] := by
        refine rdropWhile_ne_nil (fun d hd => hthead d ?_) hfne
        rw [hfr, List.head?_append, hd]
        rfl
      obtain ⟨g, hg, hglen, hgpair⟩ := splitAt_eq s hf0 hr0 hne
      rw [hfound, hmem']
      refine ⟨g, hg, hglen, ?_⟩
      rw [hgpair, hfr, takeWhile_sign hf, tail_dropWhile_sign hf]
      by_cases hv : value r = []
      · rw [if_pos hv, if_pos (.inr hv)]
      · rw [if_neg hv, if_neg (not_or.mpr ⟨hne, hv⟩)]

/-- A line that begins with its equals sign is left at the front. -/
theorem configGetPairAt_outside (line : Line)
    (h : (line.text.dropWhile isSpace).head? = some 61) : configGetPairAt line.mem = none := by
  obtain ⟨hskip, hget⟩ := skip_line line
  obtain ⟨t, ht⟩ : ∃ t, line.text.dropWhile isSpace = 61 :: t := List.head?_eq_some_iff.mp h
  have hmem : line.mem = line.text.takeWhile isSpace ++ ([] ++ 61 :: (t ++ [0])) := by
    have htext : line.text = line.text.takeWhile isSpace ++ 61 :: t := by
      rw [← ht, List.takeWhile_append_dropWhile]
    unfold Line.mem
    nth_rewrite 1 [htext]
    simp
  have hw := blank_of_isSpace fun x (hx : x ∈ line.text.takeWhile isSpace) =>
    List.mem_takeWhile_imp hx
  unfold configGetPairAt
  rw [hskip]
  dsimp only [Option.bind_eq_bind, Option.bind_some]
  rw [hget, ht]
  generalize line.text.takeWhile isSpace = s at hmem hw
  dsimp only [Option.bind_some, List.headD_cons]
  rw [if_neg (by decide), hmem, strchr_found (by simp), List.length_nil, Nat.add_zero]
  dsimp only [Option.bind_some]
  unfold splitAt
  have hset : (s ++ ([] ++ 61 :: (t ++ [0]))).set s.length 0 = s ++ 0 :: (t ++ [0]) := by simp
  rw [hset, stripBack_before hw]
  rfl

/-! ## §4. Safe and exact. -/

/-- A text without the white space around it. -/
def trim (b : Bytes) : Bytes := (b.dropWhile isSpace).rdropWhile isSpace

/-- A value without one pair of matching quotes around it. -/
def unquoted (v : Bytes) : Bytes :=
  if 2 ≤ v.length ∧ v.head? = v.getLast? ∧ (v.head? = some 39 ∨ v.head? = some 34) then
    v.tail.dropLast
  else v

/-- The text before the first equals sign, and the text after it. -/
def before (b : Bytes) : Bytes := b.takeWhile (· ≠ 61)

def after (b : Bytes) : Bytes := (b.dropWhile (· ≠ 61)).tail

/-- What a line says: nothing, or a field and a value, or it is an error. -/
def pairOf (b : Bytes) : Option (Option (Bytes × Bytes)) :=
  if trim b = [] ∨ (trim b).head? = some 35 then some none
  else if 61 ∈ b ∧ trim (before b) ≠ [] ∧ unquoted (trim (after b)) ≠ [] then
    some (some (trim (before b), unquoted (trim (after b))))
  else none

/-- The pointers stay in the line, and give what it says. -/
def SafeAndExact (line : Line) : Prop :=
  ∃ g, configGetPairAt line.mem = some g ∧ g.pair = pairOf line.text

/-- A line that is blank or a comment, or does not begin with the equals sign and has more than
a quote for its value. -/
def Parsable (b : Bytes) : Prop :=
  trim b = [] ∨ (trim b).head? = some 35
    ∨ ((trim b).head? ≠ some 61 ∧ (61 ∈ b → trim (after b) ≠ [39] ∧ trim (after b) ≠ [34]))

theorem head?_trim (b : Bytes) : (trim b).head? = (b.dropWhile isSpace).head? :=
  head?_rdropWhile (dropWhile_eq_self_iff.mp (List.dropWhile_idempotent isSpace b))

theorem trim_eq_nil_iff (b : Bytes) : trim b = [] ↔ b.dropWhile isSpace = [] := by
  rw [← List.head?_eq_none_iff, head?_trim, List.head?_eq_none_iff]

/-- The blanks before a text are not in the way of the search for an equals sign. -/
theorem before_dropWhile (b : Bytes) :
    (before b).dropWhile isSpace = before (b.dropWhile isSpace) := by
  induction b with
  | nil => rfl
  | cons c b ih =>
      unfold before at ih ⊢
      by_cases hc : isSpace c = true
      · have hne : c ≠ 61 := fun heq => absurd hc (by rw [heq]; decide)
        rw [List.takeWhile_cons_of_pos (by simpa using hne), List.dropWhile_cons_of_pos hc,
          List.dropWhile_cons_of_pos hc, ih]
      · rw [List.dropWhile_cons_of_neg hc]
        by_cases heq : c = 61
        · rw [List.takeWhile_cons_of_neg (by simpa using heq)]
          rfl
        · rw [List.takeWhile_cons_of_pos (by simpa using heq), List.dropWhile_cons_of_neg hc]

theorem after_dropWhile (b : Bytes) : after (b.dropWhile isSpace) = after b := by
  induction b with
  | nil => rfl
  | cons c b ih =>
      by_cases hc : isSpace c = true
      · have hne : c ≠ 61 := fun heq => absurd hc (by rw [heq]; decide)
        rw [List.dropWhile_cons_of_pos hc, ih]
        unfold after
        rw [List.dropWhile_cons_of_pos (by simpa using hne)]
      · rw [List.dropWhile_cons_of_neg hc]

theorem mem_dropWhile_iff (b : Bytes) : 61 ∈ b.dropWhile isSpace ↔ 61 ∈ b := by
  constructor
  · exact fun h => (List.dropWhile_suffix isSpace).subset h
  · intro h
    rw [← List.takeWhile_append_dropWhile (p := isSpace) (l := b), List.mem_append] at h
    rcases h with h | h
    · exact absurd (List.mem_takeWhile_imp h) (by decide)
    · exact h

/-- Both agree on the quotes, except for a single one. -/
theorem unquote_eq_unquoted {v : Bytes} (h : v ≠ [39] ∧ v ≠ [34]) : unquote v = unquoted v := by
  unfold unquote unquoted
  by_cases hq : v.head? = v.getLast? ∧ (v.head? = some 39 ∨ v.head? = some 34)
  · rw [if_pos hq, if_pos]
    refine ⟨?_, hq⟩
    match v, hq, h with
    | [], hq, _ => simp at hq
    | [c], hq, h => simp at hq h; tauto
    | _ :: _ :: _, _, _ => simp
  · rw [if_neg hq, if_neg (fun hc => hq hc.2)]

/-- The code's reading of a text, in the words of what it says. -/
theorem configGetPair_eq (b : Bytes) :
    configGetPair b = if trim b = [] ∨ (trim b).head? = some 35 then some none
      else if 61 ∈ b ∧ trim (before b) ≠ [] ∧ unquote (trim (after b)) ≠ [] then
        some (some (trim (before b), unquote (trim (after b))))
      else none := by
  have hbefore : trim (before b)
      = ((b.dropWhile isSpace).takeWhile (· ≠ 61)).rdropWhile isSpace :=
    congrArg (List.rdropWhile isSpace) (before_dropWhile b)
  have hafter : unquote (trim (after b))
      = value (((b.dropWhile isSpace).dropWhile (· ≠ 61)).tail) :=
    congrArg value (after_dropWhile b).symm
  unfold configGetPair
  simp only [hbefore, hafter, head?_trim, trim_eq_nil_iff, ← mem_dropWhile_iff b]
  by_cases hblank : b.dropWhile isSpace = [] ∨ (b.dropWhile isSpace).head? = some 35
  · rw [if_pos hblank, if_pos hblank]
  rw [if_neg hblank, if_neg hblank]
  by_cases heq : 61 ∈ b.dropWhile isSpace
  swap
  · rw [if_pos heq, if_neg (fun h => heq h.1)]
  rw [if_neg (not_not.mpr heq)]
  by_cases hnil : ((b.dropWhile isSpace).takeWhile (· ≠ 61)).rdropWhile isSpace = []
      ∨ value (((b.dropWhile isSpace).dropWhile (· ≠ 61)).tail) = []
  · rw [if_pos hnil, if_neg (fun h => hnil.elim h.2.1 h.2.2)]
  · rw [if_neg hnil, if_pos ⟨heq, not_or.mp hnil⟩]

/-- A line that is not blank and does not begin with an equals sign has something before the
first one. -/
theorem trim_before_ne_nil {b : Bytes} (hne : trim b ≠ []) (h : (trim b).head? ≠ some 61) :
    trim (before b) ≠ [] := by
  have hhead := dropWhile_eq_self_iff.mp (List.dropWhile_idempotent isSpace b)
  rw [Ne, trim_eq_nil_iff] at hne
  rw [head?_trim] at h
  obtain ⟨c, t, ht⟩ := List.exists_cons_of_ne_nil hne
  rw [Ne, trim_eq_nil_iff, before_dropWhile, ht]
  rw [ht] at h
  have hc : c ≠ 61 := by simpa using h
  unfold before
  rw [List.takeWhile_cons_of_pos (by simpa using hc)]
  exact List.cons_ne_nil _ _

/-- **Lines are parsed safely and exactly** if they are blank or a comment, or do not begin with
the equals sign and have no single quote for a value; no other line is. -/
theorem config_get_pair_exact_iff (line : Line) : SafeAndExact line ↔ Parsable line.text := by
  unfold SafeAndExact Parsable
  by_cases hblank : trim line.text = [] ∨ (trim line.text).head? = some 35
  · -- blank, or a comment
    have hhead : (line.text.dropWhile isSpace).head? ≠ some 61 := by
      rw [← head?_trim]
      rcases hblank with hnil | hcomment
      · simp [hnil]
      · simp [hcomment]
    obtain ⟨g, hg, -, hpair⟩ := configGetPairAt_eq line hhead
    have hright : g.pair = pairOf line.text := by
      rw [hpair, configGetPair_eq, pairOf, if_pos hblank, if_pos hblank]
    exact ⟨fun _ => hblank.elim .inl fun h => .inr (.inl h), fun _ => ⟨g, hg, hright⟩⟩
  rw [not_or] at hblank
  by_cases hhead : (trim line.text).head? = some 61
  · -- the byte before the line is read
    rw [configGetPairAt_outside line (by rw [← head?_trim]; exact hhead)]
    constructor
    · rintro ⟨g, hg, -⟩
      cases hg
    · rintro (hnil | hcomment | ⟨hne, -⟩)
      · exact (hblank.1 hnil).elim
      · exact (hblank.2 hcomment).elim
      · exact (hne hhead).elim
  obtain ⟨g, hg, -, hpair⟩ := configGetPairAt_eq line (by rw [← head?_trim]; exact hhead)
  have hfield := trim_before_ne_nil hblank.1 hhead
  have hiff : g.pair = pairOf line.text
      ↔ (61 ∈ line.text → trim (after line.text) ≠ [39] ∧ trim (after line.text) ≠ [34]) := by
    rw [hpair, configGetPair_eq, pairOf, if_neg (not_or.mpr hblank),
      if_neg (not_or.mpr hblank)]
    constructor
    · intro h heq
      rw [← not_or]
      intro hquote
      -- a quote is a value, and not one that the code gives
      have hcode : unquote (trim (after line.text)) = [] := by
        rcases hquote with hquote | hquote <;> rw [hquote] <;> decide
      have hspec : unquoted (trim (after line.text)) ≠ [] := by
        rcases hquote with hquote | hquote <;> rw [hquote] <;> decide
      rw [if_neg (fun hc => hc.2.2 hcode), if_pos ⟨heq, hfield, hspec⟩] at h
      cases h
    · intro h
      by_cases heq : 61 ∈ line.text
      · rw [unquote_eq_unquoted (h heq)]
      · rw [if_neg (fun hc => heq hc.1), if_neg (fun hc => heq hc.1)]
  constructor
  · rintro ⟨g', hg', hright⟩
    rw [hg, Option.some.injEq] at hg'
    rw [← hg'] at hright
    exact .inr (.inr ⟨hhead, hiff.mp hright⟩)
  · rintro (hnil | hcomment | ⟨-, hquotes⟩)
    · exact (hblank.1 hnil).elim
    · exact (hblank.2 hcomment).elim
    · exact ⟨g, hg, hiff.mpr hquotes⟩

/-! Two lines that are not. -/

/-- The line "=x". -/
def signFirst : Line := ⟨[61, 120], by decide⟩

/-- The line "a = '". -/
def oneQuote : Line := ⟨[97, 32, 61, 32, 39], by decide⟩

/-- The one is left at the front, and the value of the other is not given. -/
theorem sign_first_one_quote :
    ¬ SafeAndExact signFirst ∧ configGetPairAt signFirst.mem = none
      ∧ ¬ SafeAndExact oneQuote ∧ pairOf oneQuote.text = some (some ([97], [39])) := by
  have hone : configGetPairAt oneQuote.mem
      = some ⟨-1, some 0, some 5, [97, 0, 0, 32, 0, 0]⟩ := by decide
  have hsign : configGetPairAt signFirst.mem = none := by decide
  refine ⟨?_, hsign, ?_, by decide⟩
  · rintro ⟨g, hg, -⟩
    rw [hsign] at hg
    cases hg
  · rintro ⟨g, hg, hpair⟩
    rw [hone, Option.some.injEq] at hg
    rw [← hg] at hpair
    revert hpair
    decide

end Burp.Conf
