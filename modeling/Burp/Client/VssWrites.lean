/-
  Burp.Client.VssWrites — what is written of the data of a Windows file.

  `ensure_write` writes a buffer, and if a write takes only some of it, writes again.  It counts
  down what is left, and leaves the pointer where it is, so that each write gets the beginning of
  the buffer.  The restore of a client has it for the streams of a file (client_vss.c), and
  `vss_strip` has it for the data that it extracts (vss_strip.c).

  Main results:
    * `ensureWrite_counts` — what is written.
    * `ensure_write_reproduces_iff` — the buffers for which that is what it should be.
-/
import Burp.FileSystem.Tree
import Burp.Stream.ShortWrites

namespace Burp.Client

open FileSystem Burp.ShortWrites

/-! ## §1. The code. -/

/-- What a function that writes returns, what has been written, and the number of the next
write. -/
structure Done where
  result : Int
  written : Bytes
  next : Nat
  deriving DecidableEq

/-- The loop of `ensure_write`, where `results k` is what write number `k` returns.  Nothing is
that a write reads behind the buffer. -/
def ensureWriteLoop (results : Nat → Wrote) (buf : Bytes) : Nat → Nat → Nat → Option Done
  | 0, _, _ => none
  | fuel + 1, k, got =>
      if buf.length < got then none
      else
        match results k with
        | .failed =>
            -- the -1 is taken for `SIZE_MAX`, which leaves one byte more
            if (got + 1) % 2 ^ 64 = 0 then some ⟨0, [], k + 1⟩
            else ensureWriteLoop results buf fuel (k + 1) (got + 1)
        | .count n =>
            let wrote := min got n
            if wrote = 0 then some ⟨-1, [], k + 1⟩
            else if got - wrote = 0 then some ⟨0, buf.take wrote, k + 1⟩
            else
              (ensureWriteLoop results buf fuel (k + 1) (got - wrote)).map fun d =>
                { d with written := buf.take wrote ++ d.written }

/-- `ensure_write`, with `bwrite` in client_vss.c and with `fwrite` in vss_strip.c.  Every write
that takes something takes a byte, so that the length of the buffer is fuel enough. -/
def ensureWrite (results : Nat → Wrote) (k : Nat) (buf : Bytes) : Option Done :=
  ensureWriteLoop results buf (buf.length + 1) k buf.length

/-- `set_vss`. -/
def setVss (results : Nat → Wrote) (vssdata : Option Bytes) : Option Done :=
  match vssdata with
  | none => some ⟨0, [], 0⟩
  | some vssdata => if vssdata.length = 0 then some ⟨0, [], 0⟩ else ensureWrite results 0 vssdata

/-- `sizeof(buf)` in `skip_data` and `extract_data`. -/
def bufSize : Nat := 4096

/-- The loop of `extract_data`: `inp` is what is left to read, `s` how much of it is wanted. -/
def extractLoop (results : Nat → Wrote) : Nat → Nat → Bytes → Nat → Option (Done × Bytes)
  | 0, _, _, _ => none
  | fuel + 1, k, inp, s =>
      let got := inp.take (min bufSize s)
      let inp := inp.drop (min bufSize s)
      if got = [] then some (⟨if s ≠ 0 then -1 else 0, [], k⟩, inp)
      else
        match ensureWrite results k got with
        | none => none
        | some d =>
            if d.result ≠ 0 then some ({ d with result := -1 }, inp)
            else if s - got.length = 0 then some (d, inp)
            else
              (extractLoop results fuel d.next inp (s - got.length)).map fun r =>
                ({ r.1 with written := d.written ++ r.1.written }, r.2)

/-- `extract_data`: what it does, and what is left to read then. -/
def extractData (results : Nat → Wrote) (k : Nat) (inp : Bytes) (s : Nat) :
    Option (Done × Bytes) :=
  extractLoop results (s + 1) k inp s

/-! ## §2. What is written. -/

/-- Writes that take something of what they get. -/
def taking (counts : Nat → Nat) (k : Nat) : Wrote := .count (counts k)

variable {counts : Nat → Nat}

/-- One turn of the loop for each piece. -/
theorem ensureWriteLoop_counts (hcounts : ∀ k, 1 ≤ counts k) (buf : Bytes) {fuel k got : Nat}
    (hgot : got ≠ 0) (hle : got ≤ buf.length) (hfuel : got ≤ fuel) :
    ensureWriteLoop (taking counts) buf fuel k got
      = some ⟨0, (pieces counts k got).flatMap fun w => buf.take w,
          k + (pieces counts k got).length⟩ := by
  induction fuel generalizing k got with
  | zero => omega
  | succ fuel ih =>
      have hk := hcounts k
      rw [pieces_some hcounts hgot, ensureWriteLoop, if_neg (by omega)]
      dsimp only [taking]
      rw [if_neg (by omega)]
      by_cases hlast : got - min got (counts k) = 0
      · rw [if_pos hlast, hlast, pieces_nothing, List.flatMap_cons, List.flatMap_nil,
          List.append_nil]
        rfl
      · -- the next write is from the beginning of the buffer as well
        rw [if_neg hlast]
        rw [ih hlast (by omega) (by omega), Option.map_some, List.flatMap_cons,
          List.length_cons, Nat.add_right_comm k 1, ← Nat.add_assoc k]

/-- **What is written**: each piece from the beginning of the buffer. -/
theorem ensureWrite_counts (hcounts : ∀ k, 1 ≤ counts k) (k : Nat) {buf : Bytes}
    (hbuf : buf ≠ []) :
    ensureWrite (taking counts) k buf
      = some ⟨0, (pieces counts k buf.length).flatMap fun w => buf.take w,
          k + (pieces counts k buf.length).length⟩ :=
  ensureWriteLoop_counts hcounts buf (List.length_eq_zero_iff.not.mpr hbuf) le_rfl (by omega)

/-- The pieces of a buffer look like its beginning. -/
def Repeats (counts : Nat → Nat) (k : Nat) (buf : Bytes) : Prop :=
  RepeatsIn buf buf (pieces counts k buf.length)

/-- So do those of each buffer that is read of some data. -/
def ChunksRepeat (counts : Nat → Nat) : Nat → Nat → Bytes → Prop
  | 0, _, _ => True
  | fuel + 1, k, data =>
      data = [] ∨ (Repeats counts k (data.take bufSize)
        ∧ ChunksRepeat counts fuel (k + (pieces counts k (data.take bufSize).length).length)
          (data.drop bufSize))

/-- What `extract_data` does if its writes take something: it goes through the input as if they
had taken everything, and what it writes is as long as it should be. -/
structure Extracts (fuel k : Nat) (counts : Nat → Nat) (inp : Bytes) (s : Nat) (d : Done) :
    Prop where
  result_eq : d.result = if s ≤ inp.length then 0 else -1
  length_eq : d.written.length = min s inp.length
  written_iff : d.written = inp.take s ↔ ChunksRepeat counts fuel k (inp.take s)

/-- What is left behind a buffer. -/
theorem drop_behind (inp : Bytes) {m s : Nat} (hm : m ≤ s) :
    (inp.drop m).drop (s - (inp.take m).length) = inp.drop s := by
  rw [List.drop_drop, List.length_take]
  by_cases hshort : inp.length ≤ m
  · rw [List.drop_of_length_le (by omega), List.drop_of_length_le (by omega)]
  · rw [Nat.min_eq_left (by omega), Nat.add_sub_cancel' hm]

/-- What is still wanted of it. -/
theorem take_behind (inp : Bytes) (s : Nat) :
    (inp.take s).drop bufSize
      = (inp.drop (min bufSize s)).take (s - (inp.take (min bufSize s)).length) := by
  rw [List.drop_take, List.length_take]
  by_cases hlast : s ≤ bufSize
  · have hmin : min bufSize s = s := Nat.min_eq_right hlast
    rw [hmin, Nat.sub_eq_zero_of_le hlast, List.take_zero]
    by_cases hshort : s ≤ inp.length
    · rw [Nat.min_eq_left hshort, Nat.sub_self, List.take_zero]
    · rw [List.drop_of_length_le (by omega), List.take_nil]
  · have hmin : min bufSize s = bufSize := Nat.min_eq_left (by omega)
    rw [hmin]
    by_cases hshort : bufSize ≤ inp.length
    · rw [Nat.min_eq_left hshort]
    · rw [List.drop_of_length_le (by omega), List.take_nil, List.take_nil]

/-- Nothing is wanted, or nothing is left. -/
theorem Extracts.nothing {fuel k s : Nat} {inp : Bytes} (h : s = 0 ∨ inp = []) :
    Extracts fuel k counts inp s ⟨if s ≠ 0 then -1 else 0, [], k⟩ := by
  have htake : inp.take s = [] := List.take_eq_nil_iff.mpr h
  have hchunks : ChunksRepeat counts fuel k [] := by
    cases fuel with
    | zero => trivial
    | succ fuel => exact .inl rfl
  refine ⟨?_, ?_, ?_⟩
  · rcases h with hs | hinp
    · simp [hs]
    · by_cases hs : s = 0 <;> simp [hs, hinp]
  · rcases h with hs | hinp
    · simp [hs]
    · simp [hinp]
  · rw [htake]
    exact ⟨fun _ => hchunks, fun _ => rfl⟩

/-- One buffer, and then what is behind it. -/
theorem Extracts.buffer {fuel k s : Nat} {inp out : Bytes} {e : Done}
    (hgot : inp.take (min bufSize s) ≠ [])
    (hlen : out.length = (inp.take (min bufSize s)).length)
    (hout : out = inp.take (min bufSize s) ↔ Repeats counts k (inp.take (min bufSize s)))
    (hext : Extracts fuel (k + (pieces counts k (inp.take (min bufSize s)).length).length) counts
      (inp.drop (min bufSize s)) (s - (inp.take (min bufSize s)).length) e) :
    Extracts (fuel + 1) k counts inp s { e with written := out ++ e.written } := by
  have hresult := hext.result_eq
  have hlength := hext.length_eq
  have hwritten := hext.written_iff
  have hchunk : (inp.take s).take bufSize = inp.take (min bufSize s) := List.take_take
  have hsplit : inp.take s = inp.take (min bufSize s) ++ (inp.take s).drop bufSize := by
    rw [← hchunk, List.take_append_drop]
  have hne : inp.take s ≠ [] := fun h => hgot (by rw [← hchunk, h, List.take_nil])
  rw [← take_behind] at hwritten
  rw [List.length_drop] at hresult hlength
  rw [List.length_take] at hresult hlength hlen
  refine ⟨?_, ?_, ?_⟩
  · show e.result = _
    rw [hresult]
    by_cases hle : s ≤ inp.length
    · rw [if_pos (by omega), if_pos hle]
    · rw [if_neg (by omega), if_neg hle]
  · rw [List.length_append, hlength, hlen]
    omega
  · rw [ChunksRepeat, hchunk, ← hout, ← hwritten]
    constructor
    · intro h
      rw [hsplit] at h
      exact .inr (List.append_inj h (by rw [hlen, List.length_take]))
    · intro h
      obtain ⟨hfront, hback⟩ := h.resolve_left hne
      rw [hsplit]
      exact congrArg₂ _ hfront hback

/-- **What is extracted**, buffer by buffer. -/
theorem extractLoop_counts (hcounts : ∀ k, 1 ≤ counts k) {fuel k s : Nat} {inp : Bytes}
    (hfuel : s < fuel) :
    ∃ d, extractLoop (taking counts) fuel k inp s = some (d, inp.drop s)
      ∧ Extracts fuel k counts inp s d := by
  induction fuel generalizing k s inp with
  | zero => omega
  | succ fuel ih =>
      have hdrop := drop_behind inp (Nat.min_le_right bufSize s)
      unfold extractLoop
      dsimp only
      by_cases hgot : inp.take (min bufSize s) = []
      · have hnone : s = 0 ∨ inp = [] := by
          rw [List.take_eq_nil_iff] at hgot
          exact hgot.imp_left fun h => by unfold bufSize at h; omega
        rw [if_pos hgot]
        refine ⟨_, ?_, Extracts.nothing hnone⟩
        rcases hnone with hs | hinp
        · rw [hs, Nat.min_zero]
        · rw [hinp, List.drop_nil, List.drop_nil]
      · rw [if_neg hgot, ensureWrite_counts hcounts k hgot]
        dsimp only
        rw [if_neg (by decide)]
        have hsum := sum_pieces hcounts k (inp.take (min bufSize s)).length
        have hout := flatMap_take_eq_iff hsum (le_refl (inp.take (min bufSize s)).length)
        have hlen := length_flatMap_take hsum.le
        rw [hsum] at hlen
        generalize (pieces counts k (inp.take (min bufSize s)).length).flatMap
          (fun w => (inp.take (min bufSize s)).take w) = out at hlen hout
        by_cases hlast : s - (inp.take (min bufSize s)).length = 0
        · -- the last buffer, and nothing behind it
          rw [if_pos hlast]
          rw [hlast, List.drop_zero] at hdrop
          have hext := Extracts.buffer hgot hlen hout
            (Extracts.nothing (.inl hlast) : Extracts fuel _ _ _ _ _)
          rw [if_neg (not_not.mpr hlast), List.append_nil] at hext
          exact ⟨_, by rw [hdrop], hext⟩
        · rw [if_neg hlast]
          have hpos := List.length_pos_iff.mpr hgot
          have hrest : s - (inp.take (min bufSize s)).length < fuel := by omega
          obtain ⟨e, he, hext⟩ := ih hrest
          rw [he, Option.map_some, hdrop]
          exact ⟨_, rfl, Extracts.buffer hgot hlen hout hext⟩

/-- What is in any case: all of the data has been read, and as much has been written. -/
theorem extractData_counts (hcounts : ∀ k, 1 ≤ counts k) (k : Nat) (inp : Bytes) (s : Nat) :
    ∃ d, extractData (taking counts) k inp s = some (d, inp.drop s)
      ∧ Extracts (s + 1) k counts inp s d :=
  extractLoop_counts hcounts (Nat.lt_succ_self s)

/-! ## §3. What should be written. -/

/-- One write that takes everything. -/
theorem repeats_of_whole (hcounts : ∀ k, 1 ≤ counts k) {k : Nat} {buf : Bytes}
    (h : buf.length ≤ counts k) : Repeats counts k buf := by
  unfold Repeats
  by_cases hbuf : buf.length = 0
  · rw [hbuf, pieces_nothing]
    trivial
  · rw [pieces_whole hcounts hbuf h]
    exact ⟨rfl, trivial⟩

/-- There is nothing else for a buffer whose first byte does not occur again. -/
theorem repeats_iff_of_not_mem (hcounts : ∀ k, 1 ≤ counts k) {k : Nat} {c : UInt8} {b : Bytes}
    (hc : c ∉ b) : Repeats counts k (c :: b) ↔ (c :: b).length ≤ counts k := by
  constructor
  · intro h
    by_contra hshort
    have hk := hcounts k
    have hk' := hcounts (k + 1)
    have hlen : (c :: b).length = b.length + 1 := List.length_cons
    unfold Repeats at h
    rw [pieces_some hcounts (by omega), pieces_some hcounts (by omega)] at h
    -- the second piece begins with a byte of `b`, and would have to begin with `c`
    have hsecond := h.2.1
    obtain ⟨m, hm⟩ := Nat.exists_eq_succ_of_ne_zero
      (by omega : min (c :: b).length (counts k) ≠ 0)
    obtain ⟨n, hn⟩ := Nat.exists_eq_succ_of_ne_zero
      (by omega : min ((c :: b).length - min (c :: b).length (counts k)) (counts (k + 1)) ≠ 0)
    rw [hn, hm, List.drop_succ_cons, List.take_succ_cons] at hsecond
    have hdrop : b.drop m ≠ [] := by
      rw [Ne, List.drop_eq_nil_iff]
      omega
    obtain ⟨d, t, hd⟩ := List.exists_cons_of_ne_nil hdrop
    rw [hd, List.take_succ_cons] at hsecond
    have hmem : d ∈ b := List.mem_of_mem_drop (i := m) (by rw [hd]; exact List.mem_cons_self)
    exact hc ((List.cons.inj hsecond).1 ▸ hmem)
  · exact repeats_of_whole hcounts

theorem chunksRepeat_of_whole (hcounts : ∀ k, bufSize ≤ counts k) (fuel k : Nat) (data : Bytes) :
    ChunksRepeat counts fuel k data := by
  induction fuel generalizing k data with
  | zero => trivial
  | succ fuel ih =>
      refine .inr ⟨repeats_of_whole (fun k => Nat.le_trans (by decide) (hcounts k)) ?_, ih _ _⟩
      have := hcounts k
      rw [List.length_take]
      omega

/-- A success, after which the data has been written. -/
def Reproduces (d : Option Done) (data : Bytes) : Prop :=
  ∃ e, d = some e ∧ e.result = 0 ∧ e.written = data

theorem reproduces_ensureWrite_iff (hcounts : ∀ k, 1 ≤ counts k) (k : Nat) {buf : Bytes}
    (hbuf : buf ≠ []) :
    Reproduces (ensureWrite (taking counts) k buf) buf ↔ Repeats counts k buf := by
  have hiff := flatMap_take_eq_iff (sum_pieces hcounts k buf.length) (le_refl buf.length)
  unfold Reproduces Repeats
  rw [ensureWrite_counts hcounts k hbuf, ← hiff]
  constructor
  · rintro ⟨e, he, -, hwritten⟩
    rw [Option.some.injEq] at he
    rw [← he] at hwritten
    exact hwritten
  · intro h
    exact ⟨_, rfl, rfl, h⟩

/-- **Short writes do no harm** exactly if what each later write takes looks like the beginning
of the buffer, as it does if the first write takes everything; and so for the functions that
write a buffer, or one after the other. -/
theorem ensure_write_reproduces_iff (hcounts : ∀ k, 1 ≤ counts k) {buf : Bytes} (hbuf : buf ≠ [])
    (vssdata : Option Bytes) (data rest : Bytes) :
    (Reproduces (ensureWrite (taking counts) 0 buf) buf ↔ Repeats counts 0 buf)
      ∧ (Reproduces (setVss (taking counts) vssdata) (vssdata.getD [])
          ↔ Repeats counts 0 (vssdata.getD []))
      ∧ (Reproduces ((extractData (taking counts) 0 (data ++ rest) data.length).map Prod.fst) data
          ↔ ChunksRepeat counts (data.length + 1) 0 data) := by
  refine ⟨reproduces_ensureWrite_iff hcounts 0 hbuf, ?_, ?_⟩
  · cases vssdata with
    | none => exact ⟨fun _ => trivial, fun _ => ⟨_, rfl, rfl, rfl⟩⟩
    | some vssdata =>
        unfold setVss
        dsimp only [Option.getD_some]
        by_cases hlen : vssdata.length = 0
        · -- nothing is written
          have hnil := List.length_eq_zero_iff.mp hlen
          rw [if_pos hlen, hnil]
          exact ⟨fun _ => trivial, fun _ => ⟨_, rfl, rfl, rfl⟩⟩
        · rw [if_neg hlen]
          exact reproduces_ensureWrite_iff hcounts 0 (List.length_eq_zero_iff.not.mp hlen)
  · obtain ⟨d, hd, hext⟩ := extractData_counts hcounts 0 (data ++ rest) data.length
    have hiff := hext.written_iff
    rw [List.take_left] at hiff
    rw [hd, Option.map_some, ← hiff]
    constructor
    · rintro ⟨e, he, -, hwritten⟩
      rw [Option.some.injEq] at he
      rw [← he] at hwritten
      exact hwritten
    · intro h
      refine ⟨d, rfl, ?_, h⟩
      rw [hext.result_eq, if_pos]
      rw [List.length_append]
      omega

/-- One byte at a time, of two equal bytes. -/
theorem ensure_write_one_by_one :
    (Reproduces (ensureWrite (taking fun _ => 1) 0 [7, 7]) [7, 7] ↔ Repeats (fun _ => 1) 0 [7, 7])
      ∧ (Reproduces (setVss (taking fun _ => 1) (some [7])) [7] ↔ Repeats (fun _ => 1) 0 [7])
      ∧ (Reproduces ((extractData (taking fun _ => 1) 0 ([7] ++ [8]) 1).map Prod.fst) [7]
          ↔ ChunksRepeat (fun _ => 1) 2 0 [7]) :=
  ensure_write_reproduces_iff (fun _ => le_rfl) (by decide) (some [7]) [7] [8]

/-- And of two that are not: the first is written twice. -/
theorem two_bytes_not_written : ensureWrite (taking fun _ => 1) 0 [1, 2] = some ⟨0, [1, 1], 2⟩
    ∧ ¬ Reproduces (ensureWrite (taking fun _ => 1) 0 [1, 2]) [1, 2] := by
  have h : ensureWrite (taking fun _ => 1) 0 [1, 2] = some ⟨0, [1, 1], 2⟩ := by decide
  refine ⟨h, ?_⟩
  rintro ⟨e, he, -, hwritten⟩
  rw [h, Option.some.injEq] at he
  rw [← he] at hwritten
  exact absurd hwritten (by decide)

end Burp.Client
