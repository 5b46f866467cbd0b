/-
  Burp.Restore.TransferStores — the buffers of `transfer_gzfile_in`.

  What has been decrypted is put into `doutbuf`, which has `ZCHUNK-EVP_MAX_BLOCK_LENGTH` bytes,
  and what has been inflated into `out`, which has `ZCHUNK`.  Metadata get a NUL behind them in
  the buffer where they are, and are then appended to what there is.

  Main results:
    * `transferLoopAt_holds` — what is appended is what `transferLoop` writes.
    * `transferStores_iff` — for which messages all stores are inside the buffers.
-/
import Burp.Restore.Encodings
import Burp.Net.ReadBuffer

namespace Burp.Restore

open FileSystem Burp.Store

/-! ## §1. The code, with its stores. -/

def zchunk : Nat := Net.asyncBufLen

/-- `doutbuf[ZCHUNK-EVP_MAX_BLOCK_LENGTH]`. -/
def doutSize : Nat := zchunk - 32

/-- `inflate`, call by call.  A call has `ZCHUNK` bytes of room, and there is an end to what comes
out of a piece of input; `none` is an error. -/
structure Inflater where
  Strm : Type
  init : Strm
  setIn : Strm → Bytes → Strm
  inflate : Strm → Option (Bytes × Strm)
  left : Strm → Nat
  room : ∀ {z out z'}, inflate z = some (out, z') → out.length ≤ zchunk
  progress : ∀ {z out z'}, inflate z = some (out, z') → out.length = zchunk → left z' < left z

/-- All that comes out of a piece of input. -/
def Inflater.all (i : Inflater) (z : i.Strm) : Option (Bytes × i.Strm) :=
  match _h : i.inflate z with
  | none => none
  | some (out, z') =>
      if _full : out.length = zchunk then (i.all z').map fun r => (out ++ r.1, r.2)
      else some (out, z')
termination_by i.left z
decreasing_by exact i.progress _h _full

/-- The streams of a client that inflates call by call. -/
abbrev Inflater.streams (i : Inflater) (s : Streams) : Streams :=
  { s with
    Strm := i.Strm
    inflateInit := i.init
    inflate := fun strm buf => i.all (i.setIn strm buf) }

/-- Where the data go, how much there was of them, and what was stored on the way. -/
structure Sink where
  metadata : Option Bytes := none
  file : Bytes := []
  sent : Nat := 0
  stores : List Net.Stored := []

def Sink.stored (k : Sink) (st : Net.Stored) : Sink := { k with stores := k.stores ++ [st] }

/-- `prepend_len`: the text with its NUL, how much longer it is, and the stores into it. -/
def prependLen (prep : Option Bytes) (plen : Nat) (fname : Bytes) (flen : Nat) (sep : Bytes)
    (slen : Nat) : Bytes × Nat × List Net.Stored :=
  let l := plen + flen + slen + 1
  ((prep.getD []).take plen ++ sep.take slen ++ fname.take flen ++ [0], slen + flen,
    [⟨l, 0, plen⟩, ⟨l, plen, slen⟩, ⟨l, plen + slen, flen⟩, ⟨l, plen + slen + flen, 1⟩])

/-- `do_write`, from a buffer of `size` bytes. -/
def doWrite (toMeta : Bool) (size : Nat) (out : Bytes) (k : Sink) : Sink :=
  if toMeta then
    -- `out[outlen]='\0'`
    let k := k.stored ⟨size, out.length, 1⟩
    let (rpath, longer, stores) := prependLen k.metadata k.sent out out.length [] 0
    { k with metadata := rpath, sent := k.sent + longer, stores := k.stores ++ stores }
  else { k with file := k.file ++ out, sent := k.sent + out.length }

/-- The loop of `do_inflate`, which ends with a call that leaves some room. -/
def inflateLoop (i : Inflater) (toMeta : Bool) (z : i.Strm) (k : Sink) : Sink × Option i.Strm :=
  match _h : i.inflate z with
  | none => (k, none)
  | some (out, z') =>
      let k := k.stored ⟨zchunk, 0, out.length⟩
      let k := if out = [] then k else doWrite toMeta zchunk out k
      if _full : out.length = zchunk then inflateLoop i toMeta z' k else (k, some z')
termination_by i.left z
decreasing_by exact i.progress _h _full

/-- `do_inflate`, of what is in a buffer of `size` bytes. -/
def doInflateAt (i : Inflater) (toMeta : Bool) (size : Nat) (strm : i.Strm) (buf : Bytes)
    (encrypted enccompressed : Bool) (k : Sink) : Sink × Option i.Strm :=
  if encrypted ∧ enccompressed = false then (doWrite toMeta size buf k, some strm)
  else inflateLoop i toMeta (i.setIn strm buf) k

/-- The loop of `transfer_gzfile_in`: where the data went, and whether it returns 0. -/
def transferLoopAt (i : Inflater) (s : Streams) (toMeta enccompressed : Bool) :
    Option s.Ctx → i.Strm → List Message → Sink → Sink × Bool
  | _, _, [], k => (k, false)
  | encCtx, strm, (cmd, buf) :: messages, k =>
      match cmd with
      | .append =>
          match encCtx with
          | none =>
              -- the buffer of the message itself
              match doInflateAt i toMeta buf.length strm buf false enccompressed k with
              | (k, none) => (k, false)
              | (k, some strm) => transferLoopAt i s toMeta enccompressed none strm messages k
          | some ctx =>
              match s.cipherUpdate ctx buf with
              | none => (k, false)
              | some (dout, ctx) =>
                  let k := k.stored ⟨doutSize, 0, dout.length⟩
                  -- the cipher keeps what does not fill a block
                  if dout.isEmpty then
                    transferLoopAt i s toMeta enccompressed (some ctx) strm messages k
                  else
                    match doInflateAt i toMeta doutSize strm dout true enccompressed k with
                    | (k, none) => (k, false)
                    | (k, some strm) =>
                        transferLoopAt i s toMeta enccompressed (some ctx) strm messages k
      | .endFile =>
          match encCtx with
          | none => (k, true)
          | some ctx =>
              match s.cipherFinal ctx with
              | none => (k, false)
              | some dout =>
                  let k := k.stored ⟨doutSize, 0, dout.length⟩
                  if dout.isEmpty then (k, true)
                  else
                    let r := doInflateAt i toMeta doutSize strm dout true enccompressed k
                    (r.1, r.2.isSome)
      | .warning => transferLoopAt i s toMeta enccompressed encCtx strm messages k
      | _ => (k, false)

/-! ## §2. What the messages have to keep to. -/

/-- What is handed to `do_inflate`, from a buffer of `size` bytes, leaves room for the NUL: what
is written as it is in that buffer, and what the first call of `inflate` gives in `out`. -/
def LeavesRoom (i : Inflater) (toMeta : Bool) (size : Nat) (strm : i.Strm) (buf : Bytes)
    (encrypted enccompressed : Bool) : Prop :=
  toMeta = true →
    if encrypted ∧ enccompressed = false then buf.length < size
    else ∀ out strm', i.inflate (i.setIn strm buf) = some (out, strm') → out.length < zchunk

/-- What is decrypted fits into `doutbuf`, and metadata leave room for the NUL, as far as the
messages are read. -/
def Keeps (i : Inflater) (s : Streams) (toMeta enccompressed : Bool) :
    Option s.Ctx → i.Strm → List Message → Prop
  | _, _, [] => True
  | encCtx, strm, (cmd, buf) :: messages =>
      match cmd with
      | .append =>
          match encCtx with
          | none =>
              LeavesRoom i toMeta buf.length strm buf false enccompressed
                ∧ ∀ r, doInflate (i.streams s) strm buf false enccompressed = some r →
                  Keeps i s toMeta enccompressed none r.2 messages
          | some ctx =>
              ∀ dout, s.cipherUpdate ctx buf = some dout →
                dout.1.length ≤ doutSize
                  ∧ if dout.1.isEmpty then
                      Keeps i s toMeta enccompressed (some dout.2) strm messages
                    else
                      LeavesRoom i toMeta doutSize strm dout.1 true enccompressed
                        ∧ ∀ r, doInflate (i.streams s) strm dout.1 true enccompressed = some r →
                          Keeps i s toMeta enccompressed (some dout.2) r.2 messages
      | .endFile =>
          match encCtx with
          | none => True
          | some ctx =>
              ∀ dout, s.cipherFinal ctx = some dout →
                dout.length ≤ doutSize
                  ∧ (dout ≠ [] → LeavesRoom i toMeta doutSize strm dout true enccompressed)
      | .warning => Keeps i s toMeta enccompressed encCtx strm messages
      | _ => True

/-! ## §3. The stores. -/

/-- All stores are inside their buffers. -/
def Sink.Inside (k : Sink) : Prop := ∀ st ∈ k.stores, st.Fits

theorem inside_stored {k : Sink} {st : Net.Stored} :
    (k.stored st).Inside ↔ k.Inside ∧ st.Fits := by
  simp [Sink.Inside, Sink.stored, or_imp, forall_and]

theorem fits_from_start {size n : Nat} : Net.Stored.Fits ⟨size, 0, n⟩ ↔ n ≤ size := by
  rw [Net.Stored.Fits, Nat.zero_add]

/-- The stores of `do_write`: only the NUL may be outside. -/
theorem doWrite_inside {toMeta : Bool} {size : Nat} {out : Bytes} {k : Sink} :
    (doWrite toMeta size out k).Inside ↔ k.Inside ∧ (toMeta = true → out.length < size) := by
  cases toMeta with
  | true =>
      have hprepend : ∀ st ∈ (prependLen k.metadata k.sent out out.length [] 0).2.2, st.Fits := by
        intro st hst
        simp only [prependLen, List.mem_cons, List.not_mem_nil, or_false] at hst
        rcases hst with rfl | rfl | rfl | rfl
        all_goals
          simp only [Net.Stored.Fits]
          omega
      have hstores : (doWrite true size out k).stores = (k.stored ⟨size, out.length, 1⟩).stores
          ++ (prependLen k.metadata k.sent out out.length [] 0).2.2 := rfl
      have hnul : Net.Stored.Fits ⟨size, out.length, 1⟩ ↔ out.length < size := Nat.succ_le_iff
      rw [Sink.Inside, hstores, List.forall_mem_append, and_iff_left hprepend, ← hnul,
        forall_prop_of_true rfl]
      exact inside_stored
  | false => simp [doWrite, Sink.Inside]

section Inflate

variable (i : Inflater) (toMeta : Bool) {z z' : i.Strm} {out : Bytes} (k : Sink)

theorem inflateLoop_none (h : i.inflate z = none) : inflateLoop i toMeta z k = (k, none) := by
  rw [inflateLoop]
  split
  next => rfl
  next heq => rw [h] at heq; cases heq

/-- One call of `inflate`. -/
def inflated (out : Bytes) (k : Sink) : Sink :=
  let k := k.stored ⟨zchunk, 0, out.length⟩
  if out = [] then k else doWrite toMeta zchunk out k

theorem inflateLoop_some (h : i.inflate z = some (out, z')) :
    inflateLoop i toMeta z k
      = if out.length = zchunk then inflateLoop i toMeta z' (inflated toMeta out k)
        else (inflated toMeta out k, some z') := by
  rw [inflateLoop]
  split
  next heq => rw [h] at heq; cases heq
  next heq =>
    rw [h, Option.some.injEq, Prod.mk.injEq] at heq
    obtain ⟨rfl, rfl⟩ := heq
    rfl

theorem all_none (h : i.inflate z = none) : i.all z = none := by
  rw [Inflater.all]
  split
  next => rfl
  next heq => rw [h] at heq; cases heq

theorem all_some (h : i.inflate z = some (out, z')) :
    i.all z = if out.length = zchunk then (i.all z').map fun r => (out ++ r.1, r.2)
      else some (out, z') := by
  rw [Inflater.all]
  split
  next heq => rw [h] at heq; cases heq
  next heq =>
    rw [h, Option.some.injEq, Prod.mk.injEq] at heq
    obtain ⟨rfl, rfl⟩ := heq
    rfl

/-- Induction along the calls of `inflate`. -/
theorem inflate_induction {P : i.Strm → Prop} (error : ∀ z, i.inflate z = none → P z)
    (last : ∀ z out z', i.inflate z = some (out, z') → out.length ≠ zchunk → P z)
    (full : ∀ z out z', i.inflate z = some (out, z') → out.length = zchunk → P z' → P z)
    (z : i.Strm) : P z := by
  induction hleft : i.left z using Nat.strong_induction_on generalizing z with
  | _ left ih =>
      cases hz : i.inflate z with
      | none => exact error z hz
      | some r =>
          by_cases hfull : r.1.length = zchunk
          · exact full z r.1 r.2 hz hfull (ih _ (hleft ▸ i.progress hz hfull) r.2 rfl)
          · exact last z r.1 r.2 hz hfull

theorem inflated_inside {out : Bytes} (hroom : out.length ≤ zchunk) :
    (inflated toMeta out k).Inside ↔ k.Inside ∧ (toMeta = true → out.length < zchunk) := by
  have hfits : Net.Stored.Fits ⟨zchunk, 0, out.length⟩ := fits_from_start.2 hroom
  unfold inflated
  by_cases hnil : out = []
  · -- nothing is written for nothing
    have hlt : out.length < zchunk := by
      rw [hnil]
      decide
    simp only [if_pos hnil, inside_stored, hfits, hlt, and_true, implies_true]
  · simp only [if_neg hnil, doWrite_inside, inside_stored, hfits, and_true]

/-- Once a call has filled `out` with metadata, there is a store that is outside. -/
theorem inflateLoop_inside (z : i.Strm) :
    ∀ k : Sink, (inflateLoop i toMeta z k).1.Inside
      ↔ k.Inside ∧ (toMeta = true →
        ∀ out z', i.inflate z = some (out, z') → out.length < zchunk) := by
  induction z using inflate_induction i with
  | error z hz =>
      intro k
      rw [inflateLoop_none i toMeta k hz]
      simp [hz]
  | last z out z' hz hlast =>
      intro k
      have hlt : out.length < zchunk := lt_of_le_of_ne (i.room hz) hlast
      rw [inflateLoop_some i toMeta k hz, if_neg hlast]
      refine (inflated_inside toMeta k (i.room hz)).trans (and_congr_right fun _ => ?_)
      refine iff_of_true (fun _ => hlt) fun _ out' z'' h => ?_
      rw [hz, Option.some.injEq, Prod.mk.injEq] at h
      rwa [← h.1]
  | full z out z' hz hfull ih =>
      intro k
      rw [inflateLoop_some i toMeta k hz, if_pos hfull, ih, inflated_inside toMeta k (i.room hz),
        and_assoc]
      refine and_congr_right fun _ => ?_
      cases toMeta with
      | false => simp
      | true =>
          -- the NUL behind a full `out` is outside already
          have hnot : ¬ out.length < zchunk := by omega
          refine iff_of_false (fun h => hnot (h.1 rfl)) fun h => hnot (h rfl out z' hz)

/-- What `inflate` goes on with is the same. -/
theorem inflateLoop_strm (z : i.Strm) :
    ∀ k : Sink, (inflateLoop i toMeta z k).2 = (i.all z).map (·.2) := by
  induction z using inflate_induction i with
  | error z hz =>
      intro k
      rw [inflateLoop_none i toMeta k hz, all_none i hz]
      rfl
  | last z out z' hz hlast =>
      intro k
      rw [inflateLoop_some i toMeta k hz, if_neg hlast, all_some i hz, if_neg hlast]
      rfl
  | full z out z' hz hfull ih =>
      intro k
      rw [inflateLoop_some i toMeta k hz, if_pos hfull, all_some i hz, if_pos hfull, ih,
        Option.map_map]
      rfl

end Inflate

section Loop

variable (i : Inflater) (s : Streams) (toMeta : Bool) (size : Nat) (strm : i.Strm) (buf : Bytes)
  (encrypted enccompressed : Bool) (k : Sink)

theorem doInflateAt_inside :
    (doInflateAt i toMeta size strm buf encrypted enccompressed k).1.Inside
      ↔ k.Inside ∧ LeavesRoom i toMeta size strm buf encrypted enccompressed := by
  unfold doInflateAt LeavesRoom
  by_cases hplain : encrypted = true ∧ enccompressed = false
  · simp only [if_pos hplain]
    exact doWrite_inside
  · simp only [if_neg hplain]
    exact inflateLoop_inside i toMeta _ k

theorem doInflateAt_strm :
    (doInflateAt i toMeta size strm buf encrypted enccompressed k).2
      = (doInflate (i.streams s) strm buf encrypted enccompressed).map (·.2) := by
  unfold doInflateAt doInflate
  by_cases hplain : encrypted = true ∧ enccompressed = false
  · simp only [if_pos hplain]
    rfl
  · simp only [if_neg hplain]
    exact inflateLoop_strm i toMeta _ k

/-- `do_inflate`, and going on where it gives no error. -/
theorem match_doInflateAt_inside {P : i.Strm → Prop} {next : i.Strm → Sink → Sink × Bool}
    (hnext : ∀ strm k, (next strm k).1.Inside ↔ k.Inside ∧ P strm) :
    (match doInflateAt i toMeta size strm buf encrypted enccompressed k with
      | (k, none) => (k, false)
      | (k, some strm) => next strm k).1.Inside
      ↔ k.Inside ∧ LeavesRoom i toMeta size strm buf encrypted enccompressed
        ∧ ∀ r, doInflate (i.streams s) strm buf encrypted enccompressed = some r → P r.2 := by
  have hinside := doInflateAt_inside i toMeta size strm buf encrypted enccompressed k
  have hstrm := doInflateAt_strm i s toMeta size strm buf encrypted enccompressed k
  generalize doInflateAt i toMeta size strm buf encrypted enccompressed k = r at hinside hstrm ⊢
  obtain ⟨k', strm'⟩ := r
  rw [← and_assoc, ← hinside]
  cases hr : doInflate (i.streams s) strm buf encrypted enccompressed with
  | none =>
      obtain rfl : strm' = none := hstrm.trans (by rw [hr]; rfl)
      simp
  | some r =>
      obtain rfl : strm' = some r.2 := hstrm.trans (by rw [hr]; rfl)
      simpa using hnext r.2 k'

attribute [local simp] transferLoopAt

/-- **The stores of the loop** are inside their buffers for the messages that keep to it. -/
theorem transferLoopAt_inside (messages : List Message) :
    ∀ (encCtx : Option s.Ctx) (strm : i.Strm) (k : Sink),
      (transferLoopAt i s toMeta enccompressed encCtx strm messages k).1.Inside
        ↔ k.Inside ∧ Keeps i s toMeta enccompressed encCtx strm messages := by
  induction messages with
  | nil =>
      intro encCtx strm k
      exact (and_iff_left trivial).symm
  | cons message messages ih =>
      obtain ⟨cmd, buf⟩ := message
      intro encCtx strm k
      cases cmd with
      | append =>
          cases encCtx with
          | none =>
              exact match_doInflateAt_inside i s toMeta buf.length strm buf false enccompressed k
                fun strm k => ih none strm k
          | some ctx =>
              cases hdout : s.cipherUpdate ctx buf with
              | none => simp [Keeps, hdout]
              | some dout =>
                  simp only [transferLoopAt, Keeps, hdout, Option.some.injEq, forall_eq']
                  by_cases hempty : dout.1.isEmpty = true
                  · simp only [if_pos hempty, ih, inside_stored, fits_from_start, and_assoc]
                  · simp only [if_neg hempty]
                    rw [match_doInflateAt_inside i s toMeta doutSize strm dout.1 true enccompressed
                      _ fun strm k => ih (some dout.2) strm k, inside_stored, fits_from_start,
                      and_assoc]
      | endFile =>
          cases encCtx with
          | none => exact (and_iff_left trivial).symm
          | some ctx =>
              cases hdout : s.cipherFinal ctx with
              | none => simp [Keeps, hdout]
              | some dout =>
                  simp only [transferLoopAt, Keeps, hdout, Option.some.injEq, forall_eq']
                  by_cases hempty : dout = []
                  · simp [hempty, inside_stored, Net.Stored.Fits]
                  · simp only [List.isEmpty_iff, hempty, if_false, doInflateAt_inside,
                      inside_stored, fits_from_start, and_assoc, ne_eq, not_false_eq_true,
                      forall_true_left]
      | warning => exact ih encCtx strm k
      | _ => exact (and_iff_left trivial).symm

end Loop

/-! ## §4. What is appended. -/

/-- The data are where they go, and counted. -/
def Sink.Holds (toMeta : Bool) (k : Sink) (data : Bytes) : Prop :=
  k.sent = data.length
    ∧ if toMeta then k.metadata = if data = [] then none else some (data ++ [0])
      else k.file = data

theorem doWrite_holds {toMeta : Bool} {k : Sink} {data : Bytes} (h : k.Holds toMeta data)
    (size : Nat) {out : Bytes} (hout : out ≠ []) :
    (doWrite toMeta size out k).Holds toMeta (data ++ out) := by
  obtain ⟨hsent, hdata⟩ := h
  cases toMeta with
  | false =>
      have hfile : k.file = data := hdata
      refine ⟨?_, ?_⟩
      · show k.sent + out.length = _
        rw [hsent, List.length_append]
      · show k.file ++ out = _
        rw [hfile]
  | true =>
      have hmeta : k.metadata = if data = [] then none else some (data ++ [0]) := hdata
      have hprep : (k.metadata.getD []).take data.length = data := by
        rw [hmeta]
        by_cases hnil : data = []
        · rw [hnil]
          rfl
        · rw [if_neg hnil, Option.getD_some, List.take_left]
      refine ⟨?_, ?_⟩
      · show k.sent + (0 + out.length) = _
        rw [hsent, List.length_append, Nat.zero_add]
      · rw [if_pos rfl, if_neg (by simp [hout])]
        show some ((k.metadata.getD []).take k.sent ++ List.take 0 [] ++ out.take out.length ++ [0])
          = _
        rw [hsent, hprep, List.take_nil, List.append_nil, List.take_length]

section Appended

variable (i : Inflater) {s : Streams} {toMeta enccompressed : Bool}

theorem inflated_holds {k : Sink} {data : Bytes} (h : k.Holds toMeta data) (out : Bytes) :
    (inflated toMeta out k).Holds toMeta (data ++ out) := by
  have hstored : (k.stored ⟨zchunk, 0, out.length⟩).Holds toMeta data := h
  unfold inflated
  by_cases hnil : out = []
  · simp only [if_pos hnil]
    rwa [hnil, List.append_nil]
  · simp only [if_neg hnil]
    exact doWrite_holds hstored zchunk hnil

/-- All that comes out is appended. -/
theorem inflateLoop_holds (z : i.Strm) :
    ∀ {k : Sink} {data out : Bytes} {z' : i.Strm}, k.Holds toMeta data →
      i.all z = some (out, z') → (inflateLoop i toMeta z k).1.Holds toMeta (data ++ out) := by
  induction z using inflate_induction i with
  | error z hz =>
      intro k data out z' _ h
      rw [all_none i hz] at h
      cases h
  | last z out₁ z₁ hz hlast =>
      intro k data out z' hk h
      rw [all_some i hz, if_neg hlast] at h
      cases h
      rw [inflateLoop_some i toMeta k hz, if_neg hlast]
      exact inflated_holds hk _
  | full z out₁ z₁ hz hfull ih =>
      intro k data out z' hk h
      rw [all_some i hz, if_pos hfull] at h
      obtain ⟨⟨out₂, z₂⟩, hall, heq⟩ := Option.map_eq_some_iff.1 h
      cases heq
      rw [inflateLoop_some i toMeta k hz, if_pos hfull, ← List.append_assoc]
      exact ih (inflated_holds hk out₁) hall

theorem doInflateAt_holds (size : Nat) {strm : i.Strm} {buf : Bytes} {encrypted : Bool} {k : Sink}
    {data : Bytes} {r : Bytes × i.Strm} (hk : k.Holds toMeta data) (hbuf : encrypted → buf ≠ [])
    (h : doInflate (i.streams s) strm buf encrypted enccompressed = some r) :
    (doInflateAt i toMeta size strm buf encrypted enccompressed k).1.Holds toMeta
      (data ++ r.1) := by
  unfold doInflate at h
  unfold doInflateAt
  by_cases hplain : encrypted = true ∧ enccompressed = false
  · rw [if_pos hplain] at h ⊢
    cases h
    exact doWrite_holds hk size (hbuf hplain.1)
  · rw [if_neg hplain] at h ⊢
    exact inflateLoop_holds i _ hk h

/-- `do_inflate`, and going on where it gives no error. -/
theorem match_doInflateAt_holds (size : Nat) {strm : i.Strm} {buf : Bytes} {encrypted : Bool}
    {k : Sink} {data : Bytes} {next : i.Strm → Sink → Sink × Bool}
    {goOn : i.Strm → Option (Bytes × List Message)}
    (hnext : ∀ strm k data, k.Holds toMeta data → (next strm k).2 = true →
      ∃ out rest, goOn strm = some (out, rest) ∧ (next strm k).1.Holds toMeta (data ++ out))
    (hk : k.Holds toMeta data) (hbuf : encrypted → buf ≠ [])
    (h : (match doInflateAt i toMeta size strm buf encrypted enccompressed k with
      | (k, none) => (k, false)
      | (k, some strm) => next strm k).2 = true) :
    ∃ out rest, ((doInflate (i.streams s) strm buf encrypted enccompressed).bind fun r =>
        (goOn r.2).map fun q => (r.1 ++ q.1, q.2)) = some (out, rest)
      ∧ (match doInflateAt i toMeta size strm buf encrypted enccompressed k with
        | (k, none) => (k, false)
        | (k, some strm) => next strm k).1.Holds toMeta (data ++ out) := by
  have hholds : ∀ r, doInflate (i.streams s) strm buf encrypted enccompressed = some r →
      (doInflateAt i toMeta size strm buf encrypted enccompressed k).1.Holds toMeta (data ++ r.1) :=
    fun r hr => doInflateAt_holds i size hk hbuf hr
  have hstrm := doInflateAt_strm i s toMeta size strm buf encrypted enccompressed k
  generalize doInflateAt i toMeta size strm buf encrypted enccompressed k = a at hholds hstrm h ⊢
  obtain ⟨k', strm'⟩ := a
  cases hr : doInflate (i.streams s) strm buf encrypted enccompressed with
  | none =>
      obtain rfl : strm' = none := hstrm.trans (by rw [hr]; rfl)
      cases h
  | some r =>
      obtain rfl : strm' = some r.2 := hstrm.trans (by rw [hr]; rfl)
      obtain ⟨out, rest, hgo, hdata⟩ := hnext r.2 k' (data ++ r.1) (hholds r hr) h
      refine ⟨r.1 ++ out, rest, ?_, ?_⟩
      · rw [Option.bind_some, hgo]
        rfl
      · rwa [← List.append_assoc]

/-- One piece of an encrypted file. -/
theorem transferLoop_append {ctx : s.Ctx} {buf : Bytes} {dout : Bytes × s.Ctx}
    (h : s.cipherUpdate ctx buf = some dout) (strm : i.Strm) (messages : List Message) :
    transferLoop (i.streams s) enccompressed (some ctx) strm ((.append, buf) :: messages)
      = if dout.1.isEmpty then
          transferLoop (i.streams s) enccompressed (some dout.2) strm messages
        else
          (doInflate (i.streams s) strm dout.1 true enccompressed).bind fun r =>
            (transferLoop (i.streams s) enccompressed (some dout.2) r.2 messages).map fun q =>
              (r.1 ++ q.1, q.2) := by
  show (s.cipherUpdate ctx buf).bind _ = _
  rw [h]
  rfl

/-- The end of an encrypted file. -/
theorem transferLoop_endFile {ctx : s.Ctx} {dout : Bytes} (h : s.cipherFinal ctx = some dout)
    (strm : i.Strm) (buf : Bytes) (messages : List Message) :
    transferLoop (i.streams s) enccompressed (some ctx) strm ((.endFile, buf) :: messages)
      = if dout.isEmpty then some ([], messages)
        else (doInflate (i.streams s) strm dout true enccompressed).map fun r =>
          (r.1, messages) := by
  show (s.cipherFinal ctx).bind _ = _
  rw [h]
  rfl

/-- What is still in the cipher at the end is appended. -/
theorem transferLoopAt_endFile_holds {ctx : s.Ctx} {strm : i.Strm} {buf : Bytes}
    {messages : List Message} {k : Sink} {data : Bytes} (hk : k.Holds toMeta data)
    (h : (transferLoopAt i s toMeta enccompressed (some ctx) strm
      ((.endFile, buf) :: messages) k).2 = true) :
    ∃ out rest, transferLoop (i.streams s) enccompressed (some ctx) strm
        ((.endFile, buf) :: messages) = some (out, rest)
      ∧ (transferLoopAt i s toMeta enccompressed (some ctx) strm
        ((.endFile, buf) :: messages) k).1.Holds toMeta (data ++ out) := by
  cases hdout : s.cipherFinal ctx with
  | none =>
      simp only [transferLoopAt, hdout] at h
      cases h
  | some dout =>
      have hstored : (k.stored ⟨doutSize, 0, dout.length⟩).Holds toMeta data := hk
      rw [transferLoop_endFile i hdout]
      simp only [transferLoopAt, hdout] at h ⊢
      by_cases hempty : dout.isEmpty = true
      · simp only [if_pos hempty] at h ⊢
        exact ⟨[], messages, rfl, by rwa [List.append_nil]⟩
      · simp only [if_neg hempty] at h ⊢
        rw [doInflateAt_strm i s] at h
        obtain ⟨strm', hstrm⟩ := Option.isSome_iff_exists.1 h
        obtain ⟨r, hr, -⟩ := Option.map_eq_some_iff.1 hstrm
        refine ⟨r.1, messages, by rw [hr]; rfl, ?_⟩
        exact doInflateAt_holds i doutSize hstored
          (fun _ hnil => hempty (List.isEmpty_iff.2 hnil)) hr

/-- **What is appended is what the loop writes.** -/
theorem transferLoopAt_holds (messages : List Message) :
    ∀ {encCtx : Option s.Ctx} {strm : i.Strm} {k : Sink} {data : Bytes}, k.Holds toMeta data →
      (transferLoopAt i s toMeta enccompressed encCtx strm messages k).2 = true →
        ∃ out rest, transferLoop (i.streams s) enccompressed encCtx strm messages
            = some (out, rest)
          ∧ (transferLoopAt i s toMeta enccompressed encCtx strm messages k).1.Holds toMeta
            (data ++ out) := by
  induction messages with
  | nil =>
      intro encCtx strm k data hk h
      cases h
  | cons message messages ih =>
      obtain ⟨cmd, buf⟩ := message
      intro encCtx strm k data hk h
      cases cmd with
      | append =>
          cases encCtx with
          | none =>
              exact match_doInflateAt_holds i buf.length (fun strm k data hk h => ih hk h) hk
                (fun h => by cases h) h
          | some ctx =>
              cases hdout : s.cipherUpdate ctx buf with
              | none =>
                  simp only [transferLoopAt, hdout] at h
                  cases h
              | some dout =>
                  have hstored : (k.stored ⟨doutSize, 0, dout.1.length⟩).Holds toMeta data := hk
                  rw [transferLoop_append i hdout]
                  simp only [transferLoopAt, hdout] at h ⊢
                  by_cases hempty : dout.1.isEmpty = true
                  · simp only [if_pos hempty] at h ⊢
                    exact ih hstored h
                  · simp only [if_neg hempty] at h ⊢
                    exact match_doInflateAt_holds i doutSize (fun strm k data hk h => ih hk h)
                      hstored (fun _ hnil => hempty (List.isEmpty_iff.2 hnil)) h
      | endFile =>
          cases encCtx with
          | none => exact ⟨[], messages, rfl, by rwa [List.append_nil]⟩
          | some ctx => exact transferLoopAt_endFile_holds i hk h
      | warning => exact ih hk h
      | _ => cases h

end Appended

/-! ## §5. Which messages are received safely. -/

/-- `transfer_gzfile_in`, where nothing has been appended yet. -/
def transferGzfileInAt (i : Inflater) (s : Streams) (toMeta : Bool) (encpassword : Option s.Key)
    (enccompressed : Bool) (messages : List Message) : Sink × Bool :=
  transferLoopAt i s toMeta enccompressed (encpassword.map s.encSetup) i.init messages {}

/-- **Which messages are received safely**: all stores are inside their buffers, and where 0 is
returned, what is appended is all that has been decoded. -/
theorem transferStores_iff (i : Inflater) (s : Streams) (toMeta : Bool)
    (encpassword : Option s.Key) (enccompressed : Bool) (messages : List Message) :
    ((∀ st ∈ (transferGzfileInAt i s toMeta encpassword enccompressed messages).1.stores, st.Fits)
      ∧ ((transferGzfileInAt i s toMeta encpassword enccompressed messages).2 = true →
        ∃ data rest, transferLoop (i.streams s) enccompressed (encpassword.map s.encSetup) i.init
            messages = some (data, rest)
          ∧ (transferGzfileInAt i s toMeta encpassword enccompressed messages).1.Holds toMeta data))
      ↔ Keeps i s toMeta enccompressed (encpassword.map s.encSetup) i.init messages := by
  have hempty : Sink.Inside {} := fun st hst => absurd hst List.not_mem_nil
  have hnothing : Sink.Holds toMeta {} [] := by
    refine ⟨rfl, ?_⟩
    cases toMeta with
    | false => rfl
    | true => rfl
  have hinside := transferLoopAt_inside i s toMeta enccompressed messages
    (encpassword.map s.encSetup) i.init {}
  rw [and_iff_right hempty] at hinside
  exact (and_iff_left fun h => transferLoopAt_holds i messages hnothing h).trans hinside

/-- `gzip` of 16000 zeros. -/
def zerosGz : Bytes :=
  [31, 139, 8, 0, 0, 0, 0, 0, 2, 3, 237, 193, 1, 1, 0, 0, 0, 128, 144, 254, 175, 238, 8, 10, 0, 0,
    0, 0, 0, 0, 0, 0, 0, 0, 0, 0, 0, 0, 0, 0, 106, 141, 231, 124, 87, 128, 62, 0, 0]

/-- A zlib that knows that stream only; its state is how much is still to come. -/
def zerosInflater : Inflater where
  Strm := Nat
  init := 0
  setIn _ buf := if buf = zerosGz then zchunk else 0
  inflate n := some (List.replicate (min n zchunk) 0, n - zchunk)
  left n := n
  room := by
    intro n out n' h
    obtain ⟨rfl, -⟩ := Prod.mk.inj (Option.some.inj h)
    rw [List.length_replicate]
    exact Nat.min_le_right n zchunk
  progress := by
    intro n out n' h hfull
    obtain ⟨rfl, rfl⟩ := Prod.mk.inj (Option.some.inj h)
    rw [List.length_replicate] at hfull
    have hpos : 0 < zchunk := by decide
    omega

/-- Metadata that fill `out`, and a piece of an encrypted file as the server sends it. -/
theorem transfer_overrun :
    ¬ (∀ st ∈ (transferGzfileInAt zerosInflater sampleStreams true none false
        [(.append, zerosGz), (.endFile, [])]).1.stores, st.Fits)
      ∧ ¬ (∀ st ∈ (transferGzfileInAt zerosInflater sampleStreams false (some (3 : UInt8)) false
        [(.append, List.replicate zchunk 65), (.endFile, [])]).1.stores, st.Fits) := by
  constructor
  · intro h
    have hkeeps := ((transferLoopAt_inside zerosInflater sampleStreams true false
      [(.append, zerosGz), (.endFile, [])] none zerosInflater.init {}).1 h).2
    have hroom := hkeeps.1 rfl
    rw [if_neg (by simp)] at hroom
    have hcall : zerosInflater.inflate (zerosInflater.setIn zerosInflater.init zerosGz)
        = some (List.replicate (min zchunk zchunk) 0, (0 : Nat)) := by
      show some (List.replicate (min (if zerosGz = zerosGz then zchunk else 0) zchunk) (0 : UInt8),
        (if zerosGz = zerosGz then zchunk else 0) - zchunk) = _
      rw [if_pos rfl, Nat.sub_self]
    have hlt := hroom _ _ hcall
    rw [List.length_replicate] at hlt
    exact absurd hlt (by decide)
  · intro h
    have hkeeps := ((transferLoopAt_inside zerosInflater sampleStreams false false
      [(.append, List.replicate zchunk 65), (.endFile, [])] (some (3 : UInt8)) zerosInflater.init
      {}).1 h).2
    have hle : ((List.replicate zchunk (65 : UInt8)).map (· - 3)).length ≤ doutSize :=
      (hkeeps _ rfl).1
    rw [List.length_map, List.length_replicate] at hle
    exact absurd hle (by decide)

end Burp.Restore
