/-
  Burp.Client.VssStrip — the program that extracts the data of a Windows file (vss_strip.c).

  `main_work` reads one header after the other.  It copies the payload of the first stream that
  has the id 1 and stops, and skips those of the streams before it.  Input that is over before a
  payload is gets noticed.  Input that is over before a header is looks like the end of the
  streams, whether anything of the header has been read or not.

  Main results:
    * `skipData_eq`, `extractData_whole` — what is done with a payload.
    * `mainWork_streams` — the output for a whole sequence of streams.
    * `vss_strip_notices_iff` — which truncations are noticed.
-/
import Burp.Client.Vss
import Burp.Client.VssWrites

namespace Burp.Client.VssStrip

open FileSystem Burp.ShortWrites

/-! ## §1. The code. -/

/-- The loop of `skip_data`, over what is left to read. -/
def skipLoop : Nat → Bytes → Nat → Int × Bytes
  | 0, inp, _ => (-1, inp)
  | fuel + 1, inp, s =>
      let got := inp.take (min bufSize s)
      let inp := inp.drop (min bufSize s)
      if got = [] then (if s ≠ 0 then -1 else 0, inp)
      else if s - got.length = 0 then (0, inp)
      else skipLoop fuel inp (s - got.length)

/-- `skip_data`; every turn but the last one takes a byte. -/
def skipData (inp : Bytes) (s : Nat) : Int × Bytes := skipLoop (s + 1) inp s

/-- The loop of `ensure_read`, with what it has of the header.  `fread` gives less than it is
asked for only at the end of the input, so nothing is read to `sid+offset`, which is not where
the header goes on. -/
def ensureReadLoop : Nat → Bytes → Bytes → Option Bytes × Bytes
  | 0, _, inp => (none, inp)
  | fuel + 1, sid, inp =>
      let got := inp.take (bsidsize - sid.length)
      let inp := inp.drop (bsidsize - sid.length)
      if got = [] then (if sid.length ≠ bsidsize then none else some sid, inp)
      else if bsidsize ≤ (sid ++ got).length then (some (sid ++ got), inp)
      else ensureReadLoop fuel (sid ++ got) inp

/-- `ensure_read`: the bytes of a header, or -1. -/
def ensureRead (inp : Bytes) : Option Bytes × Bytes := ensureReadLoop (bsidsize + 1) [] inp

/-- `(sid.Size)+(sid.dwStreamNameSize)`, of a `long` and an `int`, as a `size_t`. -/
def payloadSize (sid : Bsid) : Nat :=
  (((sid.size : Int).bmod (2 ^ 64) + (sid.dwStreamNameSize : Int).bmod (2 ^ 32)) % 2 ^ 64).toNat

/-- The loop of `main_work`: its result, and the output. -/
def mainLoop (results : Nat → Wrote) : Nat → Bytes → Option (Int × Bytes)
  | 0, _ => none
  | fuel + 1, inp =>
      match ensureRead inp with
      | (none, _) => some (0, [])
      | (some sid, inp) =>
          let s := payloadSize (bsidOf sid)
          if (bsidOf sid).dwStreamId = 1 then
            (extractData results 0 inp s).map fun r =>
              (if r.1.result ≠ 0 then 1 else 0, r.1.written)
          else if (skipData inp s).1 ≠ 0 then some (-1, [])
          else mainLoop results fuel (skipData inp s).2

/-- `main_work`; each turn takes a header. -/
def mainWork (results : Nat → Wrote) (inp : Bytes) : Option (Int × Bytes) :=
  mainLoop results (inp.length + 1) inp

/-- What `main` returns of that. -/
def programResult (r : Int) : Nat := if r ≠ 0 then 1 else 0

/-- `fwrite` takes less than what it is given only if there is an error. -/
def wholeWrites : Nat → Wrote := taking fun _ => bufSize

/-! ## §2. Headers and payloads. -/

theorem skipLoop_eq {fuel s : Nat} {inp : Bytes} (hfuel : s < fuel) :
    skipLoop fuel inp s = (if s ≤ inp.length then 0 else -1, inp.drop s) := by
  induction fuel generalizing s inp with
  | zero => omega
  | succ fuel ih =>
      have hlen : (inp.take (min bufSize s)).length = min (min bufSize s) inp.length :=
        List.length_take
      have hbuf : 0 < bufSize := by decide
      unfold skipLoop
      dsimp only
      by_cases hgot : inp.take (min bufSize s) = []
      · rw [if_pos hgot]
        rw [hgot, List.length_nil] at hlen
        by_cases hs : s = 0
        · rw [hs, Nat.min_zero]
          rfl
        · have hinp : inp = [] := List.length_eq_zero_iff.mp (by omega)
          rw [hinp, List.drop_nil, List.drop_nil, if_pos hs, if_neg (by simpa using hs)]
      · rw [if_neg hgot]
        have hpos : 0 < (inp.take (min bufSize s)).length := List.length_pos_iff.mpr hgot
        by_cases hlast : s - (inp.take (min bufSize s)).length = 0
        · rw [if_pos hlast, if_pos (by omega), Nat.min_eq_right (by omega)]
        · rw [if_neg hlast, ih (by omega), drop_behind inp (Nat.min_le_right bufSize s),
            List.length_drop]
          by_cases hle : s ≤ inp.length
          · rw [if_pos (by omega), if_pos hle]
          · rw [if_neg (by omega), if_neg hle]

/-- **A payload is skipped**, if all of it is there. -/
theorem skipData_eq (inp : Bytes) (s : Nat) :
    skipData inp s = (if s ≤ inp.length then 0 else -1, inp.drop s) :=
  skipLoop_eq (Nat.lt_succ_self s)

/-- **A payload is copied**, and that it is not all there is an error. -/
theorem extractData_whole (inp : Bytes) (s : Nat) :
    ∃ k, extractData wholeWrites 0 inp s
      = some (⟨if s ≤ inp.length then 0 else -1, inp.take s, k⟩, inp.drop s) := by
  have hbuf : 1 ≤ bufSize := by decide
  have hcounts : ∀ k : Nat, 1 ≤ (fun _ => bufSize) k := fun _ => hbuf
  obtain ⟨d, hd, hext⟩ := extractData_counts hcounts 0 inp s
  have hwritten := hext.written_iff.mpr (chunksRepeat_of_whole (fun _ => le_rfl) _ _ _)
  refine ⟨d.next, ?_⟩
  rw [← hext.result_eq, ← hwritten]
  exact hd

theorem ensureRead_eq (inp : Bytes) :
    ensureRead inp
      = (if bsidsize ≤ inp.length then some (inp.take bsidsize) else none, inp.drop bsidsize) := by
  unfold ensureRead ensureReadLoop
  dsimp only
  rw [List.length_nil, Nat.sub_zero, List.nil_append]
  by_cases hgot : inp.take bsidsize = []
  · have hinp : inp = [] := by
      rw [List.take_eq_nil_iff] at hgot
      exact hgot.resolve_left (by decide)
    rw [if_pos hgot, hinp]
    rfl
  rw [if_neg hgot]
  by_cases hle : bsidsize ≤ inp.length
  · rw [if_pos (by rw [List.length_take_of_le hle]), if_pos hle]
  · -- the end of the input, which the next read finds
    have hlen : (inp.take bsidsize).length = inp.length := by
      rw [List.length_take]
      omega
    have hrest : inp.drop bsidsize = [] := List.drop_of_length_le (by omega)
    rw [hlen, if_neg hle, if_neg hle, hrest]
    show ensureReadLoop bsidsize (inp.take bsidsize) [] = (none, [])
    unfold bsidsize ensureReadLoop
    rw [List.take_nil, List.drop_nil, if_pos rfl, if_pos]
    unfold bsidsize at hlen hle ⊢
    omega

/-! ## §3. The streams. -/

/-- The payload of a stream. -/
def payload (s : Stream) : Bytes := s.name ++ s.data

theorem bytes_eq (s : Stream) : s.bytes = s.header ++ payload s := rfl

theorem payloadSize_header (s : Stream) : payloadSize (bsidOf s.header) = (payload s).length := by
  obtain ⟨-, hsize, hname⟩ := s.bsidOf_header
  have hname_lt := s.name_lt
  have hdata_lt := s.data_lt
  unfold payloadSize payload
  rw [hsize, hname, List.length_append]
  unfold Int.bmod
  dsimp only
  split_ifs <;> omega

/-- A header is read, whatever comes after it. -/
theorem ensureRead_header (s : Stream) (rest : Bytes) :
    ensureRead (s.header ++ rest) = (some s.header, rest) := by
  have hlen := s.length_header
  rw [ensureRead_eq, if_pos (by rw [List.length_append]; omega), List.take_left' hlen,
    List.drop_left' hlen]

/-- One turn, from the header of a stream on. -/
theorem mainLoop_header (s : Stream) (fuel : Nat) (rest : Bytes) :
    mainLoop wholeWrites (fuel + 1) (s.header ++ rest)
      = if s.id = 1 then
          some (if (payload s).length ≤ rest.length then 0 else 1, rest.take (payload s).length)
        else if (payload s).length ≤ rest.length then
          mainLoop wholeWrites fuel (rest.drop (payload s).length)
        else some (-1, []) := by
  obtain ⟨hid, -, -⟩ := s.bsidOf_header
  rw [mainLoop, ensureRead_header]
  dsimp only
  rw [hid, payloadSize_header]
  by_cases hdata : s.id = 1
  · obtain ⟨k, hk⟩ := extractData_whole rest (payload s).length
    rw [if_pos hdata, if_pos hdata, hk, Option.map_some]
    by_cases hle : (payload s).length ≤ rest.length
    · rw [if_pos hle, if_pos hle]
      rfl
    · rw [if_neg hle, if_neg hle]
      rfl
  · rw [if_neg hdata, if_neg hdata, skipData_eq]
    by_cases hle : (payload s).length ≤ rest.length
    · rw [if_pos hle, if_pos hle]
      rfl
    · rw [if_neg hle, if_neg hle]
      rfl

/-- The streams before the data are skipped. -/
theorem mainLoop_skips {before : List Stream} (hbefore : ∀ t ∈ before, t.id ≠ 1) (fuel : Nat)
    (rest : Bytes) :
    mainLoop wholeWrites (fuel + before.length) (before.flatMap Stream.bytes ++ rest)
      = mainLoop wholeWrites fuel rest := by
  induction before with
  | nil => rfl
  | cons t before ih =>
      have ht := hbefore t List.mem_cons_self
      rw [List.flatMap_cons, bytes_eq, List.append_assoc, List.append_assoc, List.length_cons,
        ← Nat.add_assoc, mainLoop_header, if_neg ht, if_pos (by rw [List.length_append]; omega),
        List.drop_left]
      exact ih fun u hu => hbefore u (List.mem_cons_of_mem _ hu)

/-- There is fuel for every stream, and for one more turn. -/
theorem fuel_enough (before : List Stream) (rest : Bytes) :
    ∃ f, (before.flatMap Stream.bytes ++ rest).length + 1 = (f + 1) + before.length := by
  have hlen : before.length ≤ (before.flatMap Stream.bytes).length := by
    induction before with
    | nil => exact le_rfl
    | cons t before ih =>
        have ht := t.length_header
        rw [List.flatMap_cons, bytes_eq, List.length_append, List.length_append, List.length_cons]
        unfold bsidsize at ht
        omega
  refine ⟨(before.flatMap Stream.bytes ++ rest).length - before.length, ?_⟩
  rw [List.length_append]
  omega

/-- The first stream with the id 1, if it begins here: what follows is not read. -/
theorem mainWork_data {before : List Stream} (hbefore : ∀ t ∈ before, t.id ≠ 1) {d : Stream}
    (hd : d.id = 1) (rest : Bytes) :
    mainWork wholeWrites (before.flatMap Stream.bytes ++ (d.bytes ++ rest))
      = some (0, payload d) := by
  obtain ⟨f, hf⟩ := fuel_enough before (d.bytes ++ rest)
  rw [mainWork, hf, mainLoop_skips hbefore, bytes_eq, List.append_assoc, mainLoop_header,
    if_pos hd, if_pos (by rw [List.length_append]; omega), List.take_left]

/-- What there is to extract: the payload of the first stream with the id 1. -/
def dataOf (streams : List Stream) : Bytes :=
  (streams.find? fun s => s.id == 1).elim [] payload

/-- Where the data is, if there is any. -/
theorem dataOf_cases (streams : List Stream) :
    (∀ t ∈ streams, t.id ≠ 1) ∧ dataOf streams = []
      ∨ ∃ before d after, streams = before ++ d :: after ∧ (∀ t ∈ before, t.id ≠ 1) ∧ d.id = 1
        ∧ dataOf streams = payload d := by
  unfold dataOf
  cases hfind : streams.find? fun s => s.id == 1 with
  | none =>
      refine .inl ⟨fun t ht => ?_, rfl⟩
      have := List.find?_eq_none.mp hfind t ht
      simpa using this
  | some d =>
      obtain ⟨hd, before, after, hsplit, hbefore⟩ := List.find?_eq_some_iff_append.mp hfind
      refine .inr ⟨before, d, after, hsplit, fun t ht => ?_, by simpa using hd, rfl⟩
      simpa using hbefore t ht

/-- **The output** for a whole sequence of streams is the data. -/
theorem mainWork_streams (streams : List Stream) :
    mainWork wholeWrites (streams.flatMap Stream.bytes) = some (0, dataOf streams) := by
  rcases dataOf_cases streams with ⟨hnone, hdata⟩ | ⟨before, d, after, hsplit, hbefore, hd, hdata⟩
  · obtain ⟨f, hf⟩ := fuel_enough streams []
    rw [List.append_nil] at hf
    rw [mainWork, hf, hdata, ← List.append_nil (streams.flatMap Stream.bytes),
      mainLoop_skips hnone, mainLoop, ensureRead_eq]
    rfl
  · rw [hdata, hsplit, List.flatMap_append, List.flatMap_cons]
    exact mainWork_data hbefore hd _

/-! ## §4. Truncated streams. -/

/-- The input ends with so many bytes of a stream. -/
structure EndsIn (streams : List Stream) (p : Bytes) (before : List Stream) (s : Stream)
    (n : Nat) : Prop where
  streams_eq : ∃ after, streams = before ++ s :: after
  bytes_eq : p = before.flatMap Stream.bytes ++ s.bytes.take n

def EndsInHeader (streams : List Stream) (p : Bytes) : Prop :=
  ∃ before s n, EndsIn streams p before s n ∧ 0 < n ∧ n < bsidsize

/-- The payloads that have to be skipped or extracted are those up to the data. -/
def EndsInPayload (streams : List Stream) (p : Bytes) : Prop :=
  ∃ before s n, EndsIn streams p before s n ∧ bsidsize ≤ n ∧ n < s.bytes.length
    ∧ ∀ t ∈ before, t.id ≠ 1

/-- That the input ends too early is noticed. -/
def Notices (streams : List Stream) (p : Bytes) : Prop :=
  EndsInHeader streams p ∨ EndsInPayload streams p →
    ∃ r out, mainWork wholeWrites p = some (r, out) ∧ programResult r ≠ 0

theorem mainWork_in_header {streams : List Stream} {p : Bytes} (h : EndsInHeader streams p) :
    ∃ out, mainWork wholeWrites p = some (0, out) := by
  obtain ⟨before, s, n, ⟨-, rfl⟩, -, hn⟩ := h
  rcases dataOf_cases before with ⟨hnone, -⟩ | ⟨b, d, a, hsplit, hb, hd, -⟩
  · obtain ⟨f, hf⟩ := fuel_enough before (s.bytes.take n)
    refine ⟨[], ?_⟩
    rw [mainWork, hf, mainLoop_skips hnone, mainLoop, ensureRead_eq, if_neg]
    rw [List.length_take]
    omega
  · -- the data is before that
    refine ⟨payload d, ?_⟩
    rw [hsplit, List.flatMap_append, List.flatMap_cons, List.append_assoc, List.append_assoc]
    exact mainWork_data hb hd _

theorem mainWork_in_payload {streams : List Stream} {p : Bytes} (h : EndsInPayload streams p) :
    ∃ r out, mainWork wholeWrites p = some (r, out) ∧ programResult r ≠ 0 := by
  obtain ⟨before, s, n, ⟨-, rfl⟩, hge, hlt, hbefore⟩ := h
  have hlen := s.length_header
  have htake : s.bytes.take n = s.header ++ (payload s).take (n - bsidsize) := by
    rw [bytes_eq, List.take_append, List.take_of_length_le (by omega), hlen]
  have hshort : ¬ (payload s).length ≤ ((payload s).take (n - bsidsize)).length := by
    rw [bytes_eq, List.length_append, hlen] at hlt
    rw [List.length_take]
    omega
  obtain ⟨f, hf⟩ := fuel_enough before (s.bytes.take n)
  rw [mainWork, hf, mainLoop_skips hbefore, htake, mainLoop_header]
  by_cases hd : s.id = 1
  · rw [if_pos hd, if_neg hshort]
    exact ⟨_, _, rfl, by decide⟩
  · rw [if_neg hd, if_neg hshort]
    exact ⟨_, _, rfl, by decide⟩

/-- **The data is extracted, and truncation is noticed** exactly if it is not a header that is
cut. -/
theorem vss_strip_notices_iff (streams : List Stream) (p : Bytes) :
    mainWork wholeWrites (streams.flatMap Stream.bytes) = some (0, dataOf streams)
      ∧ (Notices streams p ↔ ¬ EndsInHeader streams p) := by
  refine ⟨mainWork_streams streams, ?_, ?_⟩
  · intro h hheader
    obtain ⟨r, out, hr, hne⟩ := h (.inl hheader)
    obtain ⟨out', hzero⟩ := mainWork_in_header hheader
    rw [hzero, Option.some.injEq, Prod.mk.injEq] at hr
    rw [← hr.1] at hne
    exact hne rfl
  · intro hno h
    exact mainWork_in_payload (h.resolve_left hno)

/-- The first byte of a stream alone is no error. -/
theorem first_byte_not_noticed :
    EndsInHeader [smallFile.data] [1] ∧ ¬ Notices [smallFile.data] [1] := by
  have hheader : EndsInHeader [smallFile.data] [1] :=
    ⟨[], smallFile.data, 1, ⟨⟨[], rfl⟩, by decide⟩, by decide, by decide⟩
  have hzero : mainWork wholeWrites [1] = some (0, []) := by decide
  refine ⟨hheader, fun h => ?_⟩
  obtain ⟨r, out, hr, hne⟩ := h (.inl hheader)
  rw [hzero, Option.some.injEq, Prod.mk.injEq] at hr
  rw [← hr.1] at hne
  exact hne rfl

end Burp.Client.VssStrip
