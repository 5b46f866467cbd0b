/-
  Burp.Librsync.Buffers — driving a librsync job.

  `rs_async` fills the input buffer of a job from a file, a gzip file, a Windows file or the
  network, lets the job go on for a while, and drains its output buffer into the write buffer
  of the connection.  Each of the three may stop, and the next call goes on from there.

  The job is a parameter: how much it consumes, what it writes and what it returns are its own
  choice.  So is how much a read returns, up to what has been asked for.

  Main results:
    * `rsAsync_in` — one call, seen from the input buffer.
-/
import Burp.Net.Async

namespace Burp.Librsync

open FileSystem Burp.Store Burp.Net

/-! ## §1. The buffers. -/

/-- `rs_result`, as far as it is told apart. -/
inductive RsResult
  | done | blocked | running | ioError | other
  deriving DecidableEq

/-- `rs_buffers_t`: the `avail_in` bytes at `next_in`; and what lies before `next_out` in the
output buffer, unless `next_out` is `NULL`. -/
structure RsBuffers where
  nextIn : Bytes := []
  eofIn : Bool := false
  out : Option Bytes := none
  availOut : Nat := 0

/-- Where the input comes from, with what is left there: of the messages, those to come. -/
inductive Source
  | fp (left : Bytes)
  | zp (left : Bytes)
  | bfd (left : Bytes)
  | fd (coming : List (Cmd × Bytes))

/-- An `rs_filebuf_t` for input.  `md5` is what the checksum has been updated with. -/
structure InFile where
  source : Source
  bufLen : Nat
  dataLen : Nat
  doKnownByteCount : Bool
  bytes : Nat := 0
  md5 : Bytes := []
  /-- All that has been put at `next_in` so far. -/
  offered : Bytes := []
  /-- Something longer than the buffer has been copied into it. -/
  overrun : Bool := false

/-- `rs_filebuf_new`. -/
def rsFilebufNew (source : Source) (bufLen dataLen : Nat) : InFile where
  source := source
  bufLen := bufLen
  dataLen := dataLen
  doKnownByteCount := 0 < dataLen

/-- An `rs_filebuf_t` for output to the connection, whose descriptor is above 0. -/
structure OutFile where
  bufLen : Nat := asyncBufLen
  bytes : Nat := 0

/-! ## §2. Filling. -/

/-- A read: it fails, or returns no more than the given number of bytes and one. -/
abbrev Read := Option Nat

/-- What a read returns that does not fail. -/
def chunk (k want : Nat) (left : Bytes) : Bytes := left.take (min (k + 1) want)

/-- `buf->avail_in=len; buf->next_in=fb->buf;`. -/
def offer (b : Bytes) (buf : RsBuffers) (fb : InFile) : RsBuffers × InFile × RsResult :=
  ({ buf with nextIn := b }, { fb with offered := fb.offered ++ b }, .done)

def atEof (buf : RsBuffers) (fb : InFile) : RsBuffers × InFile × RsResult :=
  ({ buf with eofIn := true }, fb, .done)

/-- `fb->bytes+=len; MD5_Update(&(fb->md5), fb->buf, len);`. -/
def InFile.count (fb : InFile) (b : Bytes) : InFile :=
  { fb with bytes := fb.bytes + b.length, md5 := fb.md5 ++ b }

/-- A message of the network. -/
def fillFromNetwork (read : Read) (coming : List (Cmd × Bytes)) (buf : RsBuffers) (fb : InFile) :
    RsBuffers × InFile × RsResult :=
  match read, coming with
  | none, _ | _, [] => (buf, fb, .ioError)
  | some _, (rcmd, rbuf) :: coming =>
      let fb := { fb with source := .fd coming }
      if rcmd = .append then
        offer rbuf buf { fb with overrun := fb.overrun || fb.bufLen < rbuf.length }
      else if rcmd = .endFile then atEof buf fb
      else if rcmd = .warning then (buf, fb, .done)
      else (buf, fb, .ioError)

/-- Part of a Windows file. -/
def fillFromBfd (read : Read) (left : Bytes) (buf : RsBuffers) (fb : InFile) :
    RsBuffers × InFile × RsResult :=
  match read with
  | none =>
      -- a length of -1 has been subtracted
      (buf, if fb.doKnownByteCount then { fb with dataLen := fb.dataLen + 1 } else fb, .ioError)
  | some k =>
      let b := chunk k (if fb.doKnownByteCount then min fb.bufLen fb.dataLen else fb.bufLen) left
      let fb := { fb with
        source := .bfd (left.drop b.length)
        dataLen := if fb.doKnownByteCount then fb.dataLen - b.length else fb.dataLen }
      if b = [] then atEof buf fb
      else
        let fb := fb.count b
        if fb.doKnownByteCount ∧ fb.dataLen = 0 then atEof buf fb else offer b buf fb

/-- Part of a file, by `fread` or `gzread`; `source` is what it is then. -/
def fillFromFile (source : Bytes → Source) (read : Read) (left : Bytes) (buf : RsBuffers)
    (fb : InFile) : RsBuffers × InFile × RsResult :=
  match read with
  | none => (buf, fb, .ioError)
  | some k =>
      let b := chunk k fb.bufLen left
      if b = [] then if left = [] then atEof buf fb else (buf, fb, .ioError)
      else offer b buf ({ fb with source := source (left.drop b.length) }.count b)

/-- `rs_infilebuf_fill`, where there is no input left. -/
def fillFrom (read : Read) (buf : RsBuffers) (fb : InFile) : RsBuffers × InFile × RsResult :=
  match fb.source with
  | .fd coming => fillFromNetwork read coming buf fb
  | .bfd left => fillFromBfd read left buf fb
  | .fp left => fillFromFile .fp read left buf fb
  | .zp left => fillFromFile .zp read left buf fb

/-- `rs_infilebuf_fill`. -/
def rsInfilebufFill (read : Read) (buf : RsBuffers) (fb : InFile) :
    RsBuffers × InFile × RsResult :=
  if buf.eofIn then (buf, fb, .done)
  else if buf.nextIn ≠ [] then (buf, fb, .done)
  else fillFrom read buf fb

/-! ## §3. Draining. -/

/-- `rs_outfilebuf_drain`: what goes into the write buffer comes last.  `accepts` says whether
it has room. -/
def rsOutfilebufDrain (accepts : Bool) (buf : RsBuffers) (fb : OutFile) :
    RsBuffers × OutFile × RsResult × Option Bytes :=
  match buf.out with
  | none => ({ buf with out := some [], availOut := fb.bufLen }, fb, .done, none)
  | some [] => ({ buf with out := some [], availOut := fb.bufLen }, fb, .done, none)
  | some (c :: b) =>
      if accepts then
        ({ buf with out := some [], availOut := fb.bufLen },
          { fb with bytes := fb.bytes + (c :: b).length }, .done, some (c :: b))
      else (buf, fb, .blocked, none)

/-! ## §4. Driving. -/

/-- What a job does when it goes on. -/
structure Iter (J : Type) where
  job : J
  consumed : Nat
  written : Bytes
  result : RsResult

/-- A job: what it does with the input that there is, with or without an end, and with so much
room for its output. -/
structure Job (J : Type) where
  iter : J → Bytes → Bool → Nat → Iter J
  fits : ∀ j nextIn eofIn availOut, (iter j nextIn eofIn availOut).written.length ≤ availOut

/-- A job at work. -/
structure Driven (J : Type) where
  job : J
  buf : RsBuffers := {}
  infb : InFile
  outfb : OutFile := {}

variable {J : Type}

/-- `rs_job_iter`. -/
def Job.rsJobIter (job : Job J) (s : Driven J) : Driven J × RsResult :=
  let it := job.iter s.job s.buf.nextIn s.buf.eofIn s.buf.availOut
  ({ s with
      job := it.job
      buf := { s.buf with
        nextIn := s.buf.nextIn.drop it.consumed
        out := s.buf.out.map (· ++ it.written)
        availOut := s.buf.availOut - it.written.length } },
    it.result)

/-- `if(!rsbuf->eof_in && in_cb) iores=in_cb(job, rsbuf, in_opaque);`. -/
def Driven.inCb (read : Read) (s : Driven J) : RsBuffers × InFile × RsResult :=
  if s.buf.eofIn then (s.buf, s.infb, .done) else rsInfilebufFill read s.buf s.infb

/-- `rs_async`, with both buffers: `rs_async_drive`. -/
def Job.rsAsync (job : Job J) (read : Read) (accepts : Bool) (s : Driven J) :
    Driven J × RsResult × Option Bytes :=
  let (buf, infb, iores) := s.inCb read
  let s := { s with buf := buf, infb := infb }
  if iores ≠ .done then (s, iores, none)
  else
    let (s, result) := job.rsJobIter s
    if result ≠ .done ∧ result ≠ .blocked then (s, result, none)
    else
      let (buf, outfb, iores, sent) := rsOutfilebufDrain accepts s.buf s.outfb
      let s := { s with buf := buf, outfb := outfb }
      if iores ≠ .done then (s, iores, sent) else (s, result, sent)

/-! ## §5. One call. -/

/-- Draining leaves the input alone. -/
theorem drain_in (accepts : Bool) (buf : RsBuffers) (fb : OutFile) :
    (rsOutfilebufDrain accepts buf fb).1.nextIn = buf.nextIn
      ∧ (rsOutfilebufDrain accepts buf fb).1.eofIn = buf.eofIn := by
  unfold rsOutfilebufDrain
  rcases buf.out with _ | _ | ⟨c, b⟩
  · exact ⟨rfl, rfl⟩
  · exact ⟨rfl, rfl⟩
  · simp only
    split_ifs <;> exact ⟨rfl, rfl⟩

/-- **One call, seen from the input buffer**: what has been filled in is there, but for what the
job has consumed, and if filling has failed, so has the call. -/
theorem rsAsync_in (job : Job J) (read : Read) (accepts : Bool) (s : Driven J) :
    (job.rsAsync read accepts s).1.infb = (s.inCb read).2.1
      ∧ (job.rsAsync read accepts s).1.buf.eofIn = (s.inCb read).1.eofIn
      ∧ (∃ n, (job.rsAsync read accepts s).1.buf.nextIn = (s.inCb read).1.nextIn.drop n)
      ∧ ((s.inCb read).2.2 ≠ .done → (job.rsAsync read accepts s).2.1 = (s.inCb read).2.2) := by
  unfold Job.rsAsync
  generalize s.inCb read = filled
  obtain ⟨buf, infb, iores⟩ := filled
  simp only
  by_cases hio : iores ≠ .done
  · rw [if_pos hio]
    exact ⟨rfl, rfl, ⟨0, rfl⟩, fun _ => rfl⟩
  · rw [if_neg hio]
    generalize hiter : job.rsJobIter { s with buf := buf, infb := infb } = iterated
    obtain ⟨s', result⟩ := iterated
    have hs' : s'.infb = infb ∧ s'.buf.eofIn = buf.eofIn
        ∧ ∃ n, s'.buf.nextIn = buf.nextIn.drop n := by
      have hfst := congrArg Prod.fst hiter
      simp only at hfst
      rw [← hfst]
      exact ⟨rfl, rfl, _, rfl⟩
    obtain ⟨hinfb, heof, hnext⟩ := hs'
    simp only
    split_ifs
    · exact ⟨hinfb, heof, hnext, fun h => absurd h hio⟩
    · obtain ⟨hdrained, hended⟩ := drain_in accepts s'.buf s'.outfb
      refine ⟨hinfb, hended.trans heof, ?_, fun h => absurd h hio⟩
      rw [hdrained]
      exact hnext
    · obtain ⟨hdrained, hended⟩ := drain_in accepts s'.buf s'.outfb
      refine ⟨hinfb, hended.trans heof, ?_, fun h => absurd h hio⟩
      rw [hdrained]
      exact hnext

end Burp.Librsync
