/-
  Burp.Librsync.Output — what becomes of the output of a job.

  A job writes into a buffer, and `rs_outfilebuf_drain` puts what is there into the write
  buffer of the connection, all of it or nothing.  What has been refused stays where it is, and
  the job goes on writing behind it; a job that is done is asked again.

  Main results:
    * `rsAsync_out` — one call neither loses nor repeats a byte, and gets on unless it is refused.
-/
import Burp.Librsync.Buffers

namespace Burp.Librsync

open FileSystem Burp.Store Burp.Net

/-! ## §1. Jobs with an output. -/

/-- A job that has a definite output and writes it in so many iterations: every iteration that
has input and room writes something or is one of them.  When it is done, it has written all. -/
structure Producer (J : Type) extends Job J where
  output : J → Bytes
  steps : J → Nat
  writes : ∀ j nextIn eofIn availOut, output j
    = (iter j nextIn eofIn availOut).written ++ output (iter j nextIn eofIn availOut).job
  ends : ∀ j nextIn eofIn availOut, (iter j nextIn eofIn availOut).result = .done →
    output (iter j nextIn eofIn availOut).job = []
  answers : ∀ j nextIn eofIn availOut, (iter j nextIn eofIn availOut).result = .done
    ∨ (iter j nextIn eofIn availOut).result = .blocked
    ∨ (iter j nextIn eofIn availOut).result = .running
  steps_le : ∀ j nextIn eofIn availOut, steps (iter j nextIn eofIn availOut).job ≤ steps j
  gets_on : ∀ j nextIn eofIn availOut, (iter j nextIn eofIn availOut).result ≠ .done →
    nextIn ≠ [] ∨ eofIn = true →
    0 < availOut ∨ (iter j nextIn eofIn availOut).result = .running →
    (iter j nextIn eofIn availOut).written ≠ []
      ∨ steps (iter j nextIn eofIn availOut).job < steps j

/-- What lies in the output buffer. -/
def RsBuffers.buffered (buf : RsBuffers) : Bytes := buf.out.getD []

/-- The buffers of a job that reads a file. -/
structure Driven.Sound {J : Type} (s : Driven J) : Prop where
  file : ∃ left, s.infb.source = .fp left ∨ s.infb.source = .zp left
  bufLen : 0 < s.infb.bufLen
  outLen : 0 < s.outfb.bufLen
  room : match s.buf.out with
    | none => s.buf.availOut = 0
    | some b => b.length + s.buf.availOut = s.outfb.bufLen

/-- What is still to be written and drained, and how often the job still goes on before that. -/
def Producer.togo {J : Type} (S : Producer J) (s : Driven J) : Nat :=
  2 * (S.output s.job).length + S.steps s.job + s.buf.buffered.length
    + if s.buf.out = none then 1 else 0

/-! ## §2. Filling from a file. -/

section Producer

variable {J : Type} {S : Producer J} {s : Driven J}

/-- There is input, or its end. -/
def RsBuffers.HasInput (buf : RsBuffers) : Prop := buf.nextIn ≠ [] ∨ buf.eofIn = true

/-- Filling that has not failed: the output buffer is as before. -/
structure Supplied (buf : RsBuffers) (r : RsBuffers × InFile × RsResult) : Prop where
  done : r.2.2 = .done
  input : r.1.HasInput
  out : r.1.out = buf.out
  availOut : r.1.availOut = buf.availOut
  bufLen : 0 < r.2.1.bufLen
  file : ∃ left, r.2.1.source = .fp left ∨ r.2.1.source = .zp left

/-- A read that does not fail gives some input, or the end. -/
theorem fillFromFile_supplied {source : Bytes → Source} (hsource : source = .fp ∨ source = .zp)
    {k : Nat} {left : Bytes} {buf : RsBuffers} {fb : InFile} (hleft : fb.source = source left)
    (hlen : 0 < fb.bufLen) : Supplied buf (fillFromFile source (some k) left buf fb) := by
  have hfile : ∀ left, ∃ l, source left = .fp l ∨ source left = .zp l := by
    intro left
    rcases hsource with rfl | rfl
    · exact ⟨left, Or.inl rfl⟩
    · exact ⟨left, Or.inr rfl⟩
  unfold fillFromFile
  simp only
  by_cases hnil : chunk k fb.bufLen left = []
  · have hend : left = [] := by
      unfold chunk at hnil
      rcases List.take_eq_nil_iff.mp hnil with hzero | hend
      · omega
      · exact hend
    rw [if_pos hnil, if_pos hend]
    exact ⟨rfl, Or.inr rfl, rfl, rfl, hlen, hleft ▸ hfile left⟩
  · rw [if_neg hnil]
    exact ⟨rfl, Or.inl hnil, rfl, rfl, hlen, hfile _⟩

/-- The same at the start of a call. -/
theorem inCb_supplied (h : s.Sound) (k : Nat) : Supplied s.buf (s.inCb (some k)) := by
  unfold Driven.inCb rsInfilebufFill
  by_cases hend : s.buf.eofIn = true
  · rw [if_pos hend]
    exact ⟨rfl, Or.inr hend, rfl, rfl, h.bufLen, h.file⟩
  · rw [if_neg hend, if_neg hend]
    by_cases hnext : s.buf.nextIn ≠ []
    · rw [if_pos hnext]
      exact ⟨rfl, Or.inl hnext, rfl, rfl, h.bufLen, h.file⟩
    · rw [if_neg hnext]
      unfold fillFrom
      obtain ⟨left, hleft | hleft⟩ := h.file
      · rw [hleft]
        exact fillFromFile_supplied (Or.inl rfl) hleft h.bufLen
      · rw [hleft]
        exact fillFromFile_supplied (Or.inr rfl) hleft h.bufLen

/-! ## §3. One call. -/

/-- What an iteration or a call does: no byte is lost or repeated, and nothing is left when the
job is done. -/
structure Producer.Moves (S : Producer J) (s s' : Driven J) (result : RsResult) (sent : Bytes) :
    Prop where
  sound : s'.Sound
  bytes : s.buf.buffered ++ S.output s.job = sent ++ (s'.buf.buffered ++ S.output s'.job)
  answer : result = .done ∨ result = .blocked ∨ result = .running
  togo : S.togo s' ≤ S.togo s

/-- What `rs_job_iter` does. -/
theorem rsJobIter_moves (h : s.Sound) :
    S.Moves s (S.rsJobIter s).1 (S.rsJobIter s).2 []
      ∧ ((S.rsJobIter s).2 = .done → S.output (S.rsJobIter s).1.job = []) := by
  obtain ⟨file, bufLen, outLen, room⟩ := h
  unfold Job.rsJobIter
  have hfits := S.fits s.job s.buf.nextIn s.buf.eofIn s.buf.availOut
  have hwrites := S.writes s.job s.buf.nextIn s.buf.eofIn s.buf.availOut
  have hends := S.ends s.job s.buf.nextIn s.buf.eofIn s.buf.availOut
  have hanswers := S.answers s.job s.buf.nextIn s.buf.eofIn s.buf.availOut
  have hsteps := S.steps_le s.job s.buf.nextIn s.buf.eofIn s.buf.availOut
  generalize S.iter s.job s.buf.nextIn s.buf.eofIn s.buf.availOut = it at *
  simp only
  have hlength := congrArg List.length hwrites
  rw [List.length_append] at hlength
  cases hout : s.buf.out with
  | none =>
      rw [hout] at room
      simp only at room
      have hnil : it.written = [] := List.length_eq_zero_iff.mp (by omega)
      rw [hnil, List.nil_append] at hwrites
      refine ⟨⟨⟨file, bufLen, outLen, ?_⟩, ?_, hanswers, ?_⟩, hends⟩
      · show s.buf.availOut - it.written.length = 0
        omega
      · simp only [RsBuffers.buffered, hout, Option.map_none, Option.getD_none, List.nil_append,
          hwrites]
      · simp only [Producer.togo, RsBuffers.buffered, hout, Option.map_none]
        omega
  | some b =>
      rw [hout] at room
      simp only at room
      refine ⟨⟨⟨file, bufLen, outLen, ?_⟩, ?_, hanswers, ?_⟩, hends⟩
      · show (b ++ it.written).length + (s.buf.availOut - it.written.length) = s.outfb.bufLen
        rw [List.length_append]
        omega
      · simp only [RsBuffers.buffered, hout, Option.map_some, Option.getD_some, List.nil_append,
          hwrites, List.append_assoc]
      · simp only [Producer.togo, RsBuffers.buffered, hout, Option.map_some, Option.getD_some,
          List.length_append, reduceCtorEq, if_false]
        omega

/-- An iteration gets on if it has not been done: unless there is no buffer yet, or something
has been left in it for which there may be no room. -/
theorem rsJobIter_gets_on (h : s.Sound) (hinput : s.buf.HasInput)
    (hresult : (S.rsJobIter s).2 ≠ .done)
    (hwhen : (S.rsJobIter s).1.buf.out = some [] ∨ (S.rsJobIter s).2 = .running) :
    S.togo (S.rsJobIter s).1 < S.togo s := by
  obtain ⟨-, -, outLen, room⟩ := h
  unfold Job.rsJobIter at hresult hwhen ⊢
  have hwrites := S.writes s.job s.buf.nextIn s.buf.eofIn s.buf.availOut
  have hsteps := S.steps_le s.job s.buf.nextIn s.buf.eofIn s.buf.availOut
  have hfits := S.fits s.job s.buf.nextIn s.buf.eofIn s.buf.availOut
  have hgets := S.gets_on s.job s.buf.nextIn s.buf.eofIn s.buf.availOut
  generalize S.iter s.job s.buf.nextIn s.buf.eofIn s.buf.availOut = it at *
  simp only at hresult hwhen ⊢
  have hlength := congrArg List.length hwrites
  rw [List.length_append] at hlength
  have hroom : 0 < s.buf.availOut ∨ it.result = .running := by
    refine hwhen.imp_left fun hempty => ?_
    cases hout : s.buf.out with
    | none => simp [hout] at hempty
    | some b =>
        rw [hout] at room hempty
        simp only [Option.map_some, Option.some.injEq, List.append_eq_nil_iff] at room hempty
        rw [hempty.1, List.length_nil] at room
        omega
  have hbuffered : ({ s.buf with
      nextIn := s.buf.nextIn.drop it.consumed
      out := s.buf.out.map (· ++ it.written)
      availOut := s.buf.availOut - it.written.length } : RsBuffers).buffered.length
      ≤ s.buf.buffered.length + it.written.length := by
    unfold RsBuffers.buffered
    cases s.buf.out with
    | none => simp
    | some b => simp
  have hnone : (s.buf.out.map (· ++ it.written) = none) = (s.buf.out = none) := by
    cases s.buf.out with
    | none => rfl
    | some b => simp
  have hon := hgets hresult hinput hroom
  have hdown : 2 * (S.output it.job).length + S.steps it.job + it.written.length
      < 2 * (S.output s.job).length + S.steps s.job := by
    rcases hon with hwritten | hless
    · have hpos := List.length_pos_of_ne_nil hwritten
      omega
    · omega
  unfold Producer.togo
  refine lt_of_le_of_lt (Nat.add_le_add_right (Nat.add_le_add_left hbuffered _) _) ?_
  simp only [hnone]
  omega

/-- What `rs_outfilebuf_drain` does: it empties the buffer, or is refused. -/
theorem drain_moves (h : s.Sound) (accepts : Bool) {buf : RsBuffers} {outfb : OutFile}
    {iores : RsResult} {sent : Option Bytes}
    (hr : rsOutfilebufDrain accepts s.buf s.outfb = (buf, outfb, iores, sent)) :
    let s' : Driven J := { s with buf := buf, outfb := outfb }
    S.Moves s s' iores (sent.getD [])
      ∧ (iores = .done → s'.buf.buffered = [] ∧ (s.buf.out ≠ some [] → S.togo s' < S.togo s))
      ∧ (iores ≠ .done → iores = .blocked ∧ accepts = false)
      ∧ ∀ b, sent = some b → accepts = true ∧ b ≠ [] ∧ S.togo s' < S.togo s := by
  obtain ⟨file, bufLen, outLen, room⟩ := h
  unfold rsOutfilebufDrain at hr
  rcases hout : s.buf.out with _ | _ | ⟨c, b⟩
  · simp only [hout, Prod.mk.injEq] at hr
    obtain ⟨rfl, rfl, rfl, rfl⟩ := hr
    have hless : S.togo { s with buf := { s.buf with out := some [], availOut := s.outfb.bufLen } }
        < S.togo s := by
      simp [Producer.togo, RsBuffers.buffered, hout]
    refine ⟨⟨⟨file, bufLen, outLen, Nat.zero_add _⟩, ?_, Or.inl rfl, hless.le⟩,
      fun _ => ⟨rfl, fun _ => hless⟩, fun hne => absurd rfl hne, fun b hb => (by cases hb)⟩
    simp [RsBuffers.buffered, hout]
  · simp only [hout, Prod.mk.injEq] at hr
    obtain ⟨rfl, rfl, rfl, rfl⟩ := hr
    refine ⟨⟨⟨file, bufLen, outLen, Nat.zero_add _⟩, ?_, Or.inl rfl, ?_⟩,
      fun _ => ⟨rfl, fun hne => absurd rfl hne⟩, fun hne => absurd rfl hne,
      fun b hb => (by cases hb)⟩
    · simp [RsBuffers.buffered, hout]
    · simp [Producer.togo, RsBuffers.buffered, hout]
  · simp only [hout] at hr
    split_ifs at hr with haccepts
    · simp only [Prod.mk.injEq] at hr
      obtain ⟨rfl, rfl, rfl, rfl⟩ := hr
      have hless : ∀ outfb, S.togo
          { s with buf := { s.buf with out := some [], availOut := s.outfb.bufLen }, outfb := outfb }
          < S.togo s := by
        intro outfb
        simp [Producer.togo, RsBuffers.buffered, hout]
      refine ⟨⟨⟨file, bufLen, outLen, Nat.zero_add _⟩, ?_, Or.inl rfl, (hless _).le⟩,
        fun _ => ⟨rfl, fun _ => hless _⟩, fun hne => absurd rfl hne, ?_⟩
      · simp [RsBuffers.buffered, hout]
      · rintro b' ⟨⟩
        exact ⟨haccepts, List.cons_ne_nil _ _, hless _⟩
    · simp only [Prod.mk.injEq] at hr
      obtain ⟨rfl, rfl, rfl, rfl⟩ := hr
      refine ⟨⟨⟨file, bufLen, outLen, room⟩, rfl, Or.inr (Or.inl rfl), le_rfl⟩,
        fun hdone => (by cases hdone), fun _ => ⟨rfl, by simpa using haccepts⟩,
        fun b hb => (by cases hb)⟩

/-- **One call** of `rs_async`, with a read that does not fail: no byte is lost or repeated, the
call is done only when all has been drained, and unless it is done or refused it has got on. -/
theorem rsAsync_out (h : s.Sound) (k : Nat) (accepts : Bool) {s' : Driven J} {result : RsResult}
    {sent : Option Bytes} (hr : S.rsAsync (some k) accepts s = (s', result, sent)) :
    S.Moves s s' result (sent.getD [])
      ∧ (result = .done → s'.buf.buffered = [] ∧ S.output s'.job = [])
      ∧ (accepts = true → result ≠ .done → S.togo s' < S.togo s)
      ∧ ∀ b, sent = some b → accepts = true ∧ b ≠ [] ∧ S.togo s' < S.togo s := by
  have hin := inCb_supplied h k
  unfold Job.rsAsync at hr
  generalize s.inCb (some k) = filled at hin hr
  obtain ⟨buf, infb, iores⟩ := filled
  obtain ⟨rfl, hinput, hout, havail, hbufLen, hfile⟩ := hin
  simp only [ne_eq, not_true, if_false] at hinput hout havail hbufLen hfile hr
  -- the job goes on
  have hsound : ({ s with buf := buf, infb := infb } : Driven J).Sound := by
    refine ⟨hfile, hbufLen, h.outLen, ?_⟩
    simp only [hout, havail]
    exact h.room
  have hsame : S.togo { s with buf := buf, infb := infb } = S.togo s := by
    simp only [Producer.togo, RsBuffers.buffered, hout]
  obtain ⟨hmoves, hend⟩ := rsJobIter_moves (S := S) hsound
  have hgets := rsJobIter_gets_on (S := S) hsound hinput
  have hbytes : s.buf.buffered = buf.buffered := by
    simp only [RsBuffers.buffered, hout]
  generalize S.rsJobIter { s with buf := buf, infb := infb } = iterated at hmoves hend hgets hr
  obtain ⟨s2, result2⟩ := iterated
  obtain ⟨hsound2, hbytes2, hanswer, htogo⟩ := hmoves
  simp only [List.nil_append] at hsound2 hbytes2 hanswer htogo hend hgets hr
  rw [hsame] at htogo hgets
  rw [← hbytes] at hbytes2
  by_cases hrunning : result2 ≠ .done ∧ result2 ≠ .blocked
  · -- nothing is drained
    rw [if_pos hrunning] at hr
    cases hr
    have hresult : result = .running := by
      rcases hanswer with hdone | hblocked | hrun
      · exact absurd hdone hrunning.1
      · exact absurd hblocked hrunning.2
      · exact hrun
    refine ⟨⟨hsound2, hbytes2, hanswer, htogo⟩, fun hdone => absurd hdone hrunning.1,
      fun _ hne => hgets hne (Or.inr hresult), fun b hb => (by cases hb)⟩
  · rw [if_neg hrunning] at hr
    cases hdrain : rsOutfilebufDrain accepts s2.buf s2.outfb with
    | mk buf3 rest =>
      obtain ⟨outfb3, iores3, sent3⟩ := rest
      obtain ⟨⟨hsound3, hbytes3, hanswer3, htogo3⟩, hdone3, hrefused, hsent⟩ :=
        drain_moves (S := S) hsound2 accepts hdrain
      rw [hdrain] at hr
      simp only at hr hbytes3
      have hall : s.buf.buffered ++ S.output s.job = sent3.getD []
          ++ (buf3.buffered ++ S.output s2.job) := by
        rw [hbytes2, hbytes3]
      have hmoved : ∀ b, sent3 = some b → accepts = true ∧ b ≠ []
          ∧ S.togo { s2 with buf := buf3, outfb := outfb3 } < S.togo s := by
        intro b hb
        obtain ⟨haccepts, hne, hless⟩ := hsent b hb
        exact ⟨haccepts, hne, lt_of_lt_of_le hless htogo⟩
      by_cases hio : iores3 ≠ .done
      · -- refused: the job has gone on all the same
        rw [if_pos hio] at hr
        cases hr
        obtain ⟨rfl, rfl⟩ := hrefused hio
        exact ⟨⟨hsound3, hall, Or.inr (Or.inl rfl), htogo3.trans htogo⟩,
          fun hdone => (by cases hdone), fun haccepts => (by cases haccepts), hmoved⟩
      · rw [if_neg hio] at hr
        cases hr
        rw [ne_eq, not_not] at hio
        obtain ⟨hempty, hless⟩ := hdone3 hio
        refine ⟨⟨hsound3, hall, hanswer, htogo3.trans htogo⟩, fun hdone => ⟨hempty, hend hdone⟩,
          fun _ hne => ?_, hmoved⟩
        by_cases hout2 : s2.buf.out = some []
        · exact lt_of_le_of_lt htogo3 (hgets hne (Or.inl hout2))
        · exact lt_of_lt_of_le (hless hout2) htogo

end Producer

end Burp.Librsync
