/-
  Burp.Librsync.Input — what a job is fed with.

  All that `rs_infilebuf_fill` takes from a source is to be put before the job, in order, and
  be counted and checksummed as it is.  A Windows file of known length is told to have ended
  together with its last part, which has been counted but is not put there; and a message is
  copied into the buffer whatever its length.

  Main results:
    * `fill_spec` — filling once.
    * `run_fed` — what holds after any run.
    * `fed_iff` — for which sources the job is fed with everything.
-/
import Burp.Librsync.Buffers

namespace Burp.Librsync

open FileSystem Burp.Store Burp.Net

/-! ## §1. What is to come. -/

/-- The payloads of the messages up to the end of the file, or an unexpected one. -/
def appended : List (Cmd × Bytes) → List Bytes
  | [] => []
  | (rcmd, rbuf) :: coming =>
      if rcmd = .append then rbuf :: appended coming
      else if rcmd = .endFile then []
      else if rcmd = .warning then appended coming
      else []

/-- The bytes of the input that have not been read. -/
def InFile.toCome (fb : InFile) : Bytes :=
  match fb.source with
  | .fp left | .zp left => left
  | .bfd left => if fb.doKnownByteCount then left.take fb.dataLen else left
  | .fd coming => (appended coming).flatten

/-- A Windows file ends before its known length, and messages fit into the buffer. -/
def InFile.Feeds (fb : InFile) : Prop :=
  match fb.source with
  | .fp _ | .zp _ => True
  | .bfd left => fb.doKnownByteCount = true → left.length < fb.dataLen
  | .fd coming => ∀ b ∈ appended coming, b.length ≤ fb.bufLen

/-- The count and the checksum are those of what has been offered; nothing is counted that
comes from the network. -/
def InFile.Counted (fb : InFile) : Prop :=
  match fb.source with
  | .fd _ => True
  | .fp _ | .zp _ | .bfd _ => fb.bytes = fb.offered.length ∧ fb.md5 = fb.offered

/-- The job has been fed with the first part of `whole`, and with all of it at the end. -/
structure Fed (whole : Bytes) {J : Type} (s : Driven J) : Prop where
  inside : s.infb.overrun = false
  inOrder : s.infb.offered <+: whole
  atEnd : s.buf.eofIn = true → s.infb.offered = whole
  counted : s.infb.Counted

/-- The calls of `rs_async` until it returns anything but `RS_BLOCKED` or `RS_RUNNING`. -/
def Job.run {J : Type} (job : Job J) : List (Read × Bool) → Driven J → Driven J
  | [], s => s
  | (read, accepts) :: inputs, s =>
      let (s, result, _) := job.rsAsync read accepts s
      if result = .blocked ∨ result = .running then job.run inputs s else s

/-! ## §2. Filling. -/

section Fill

variable {read : Read} {buf : RsBuffers} {fb : InFile}

theorem chunk_append_drop (k want : Nat) (left : Bytes) :
    chunk k want left ++ left.drop (chunk k want left).length = left := by
  unfold chunk
  rw [List.length_take]
  rcases Nat.le_total (min (k + 1) want) left.length with h | h
  · rw [min_eq_left h, List.take_append_drop]
  · rw [min_eq_right h, List.take_of_length_le h, List.drop_length, List.append_nil]

theorem chunk_eq_nil {k want : Nat} {left : Bytes} (hwant : 0 < want) (h : chunk k want left = []) :
    left = [] := by
  unfold chunk at h
  rcases List.take_eq_nil_iff.mp h with hzero | hnil
  · omega
  · exact hnil

/-- What filling an empty buffer does. -/
inductive Filled (buf : RsBuffers) (fb : InFile) : RsBuffers × InFile × RsResult → Prop
  | more (b : Bytes) (fb' : InFile) (comes : fb.toCome = b ++ fb'.toCome) (feeds : fb'.Feeds)
      (offered : fb'.offered = fb.offered ++ b) (bufLen : fb'.bufLen = fb.bufLen)
      (inside : fb'.overrun = fb.overrun) (counted : fb.Counted → fb'.Counted) :
      Filled buf fb ({ buf with nextIn := b }, fb', .done)
  | eof (fb' : InFile) (ended : fb.toCome = []) (offered : fb'.offered = fb.offered)
      (inside : fb'.overrun = fb.overrun) (counted : fb.Counted → fb'.Counted) :
      Filled buf fb ({ buf with eofIn := true }, fb', .done)
  | error (fb' : InFile) (offered : fb'.offered = fb.offered)
      (inside : fb'.overrun = fb.overrun) (counted : fb.Counted → fb'.Counted) :
      Filled buf fb (buf, fb', .ioError)

/-- A message of the network. -/
theorem fillFromNetwork_filled {coming : List (Cmd × Bytes)} (hsource : fb.source = .fd coming)
    (hfeeds : fb.Feeds) (hnext : buf.nextIn = []) :
    Filled buf fb (fillFromNetwork read coming buf fb) := by
  unfold fillFromNetwork
  rcases read with _ | k
  · exact .error fb rfl rfl id
  rcases coming with _ | ⟨⟨rcmd, rbuf⟩, coming⟩
  · exact .error fb rfl rfl id
  simp only [InFile.Feeds, hsource, appended] at hfeeds
  simp only
  split_ifs with happend hend hwarning
  · simp only [happend, if_true, List.forall_mem_cons] at hfeeds
    refine .more rbuf _ ?_ hfeeds.2 rfl rfl ?_ (fun _ => trivial)
    · simp [InFile.toCome, hsource, appended, happend]
    · simp [Nat.not_lt.mpr hfeeds.1]
  · refine .eof _ ?_ rfl rfl (fun _ => trivial)
    simp [InFile.toCome, hsource, appended, hend]
  · have hsame : buf = { buf with nextIn := [] } := by rw [← hnext]
    rw [hsame]
    simp only [hwarning, if_true, if_false, reduceCtorEq] at hfeeds
    refine .more [] _ ?_ hfeeds (List.append_nil _).symm rfl rfl (fun _ => trivial)
    simp [InFile.toCome, hsource, appended, hwarning]
  · exact .error _ rfl rfl (fun _ => trivial)

/-- Part of a Windows file, which ends before its known length. -/
theorem fillFromBfd_filled {left : Bytes} (hsource : fb.source = .bfd left)
    (hfeeds : fb.Feeds) (hlen : 0 < fb.bufLen) :
    Filled buf fb (fillFromBfd read left buf fb) := by
  have hcounted : fb.Counted → fb.bytes = fb.offered.length ∧ fb.md5 = fb.offered := by
    intro h
    simpa only [InFile.Counted, hsource] using h
  unfold fillFromBfd
  rcases read with _ | k
  · refine .error _ (by split_ifs <;> rfl) (by split_ifs <;> rfl) fun h => ?_
    simp only [InFile.Counted]
    split_ifs <;> simpa only [hsource] using hcounted h
  simp only [InFile.Feeds, hsource] at hfeeds
  have hwant : 0 < if fb.doKnownByteCount then min fb.bufLen fb.dataLen else fb.bufLen := by
    split_ifs with hknown
    · exact lt_min hlen (Nat.zero_lt_of_lt (hfeeds hknown))
    · exact hlen
  simp only
  generalize hb : chunk k (if fb.doKnownByteCount then min fb.bufLen fb.dataLen else fb.bufLen)
    left = b
  have hsplit : b ++ left.drop b.length = left := hb ▸ chunk_append_drop _ _ _
  have hlength : b.length + (left.drop b.length).length = left.length := by
    rw [← List.length_append, hsplit]
  by_cases hnil : b = []
  · -- nothing is left of the file
    have hleft : left = [] := chunk_eq_nil hwant (hb.trans hnil)
    rw [if_pos hnil]
    refine .eof _ ?_ rfl rfl hcounted
    simp [InFile.toCome, hsource, hleft]
  rw [if_neg hnil]
  have hcount : fb.Counted → fb.bytes + b.length = (fb.offered ++ b).length
      ∧ fb.md5 ++ b = fb.offered ++ b := by
    intro h
    rw [(hcounted h).1, (hcounted h).2, List.length_append]
    exact ⟨rfl, rfl⟩
  cases hknown : fb.doKnownByteCount with
  | true =>
      -- the known length is not reached
      have hmore := hfeeds hknown
      have hlast : ¬ fb.dataLen - b.length = 0 := by omega
      simp only [InFile.count, if_true, true_and, if_neg hlast]
      refine .more b _ ?_ ?_ rfl rfl rfl hcount
      · simp only [InFile.toCome, hsource, hknown, if_true]
        rw [List.take_of_length_le (by omega), List.take_of_length_le (by omega), hsplit]
      · intro _
        show (left.drop b.length).length < fb.dataLen - b.length
        omega
  | false =>
      simp only [InFile.count, Bool.false_eq_true, false_and, if_false]
      refine .more b _ ?_ ?_ rfl rfl rfl hcount
      · simp only [InFile.toCome, hsource, hknown, Bool.false_eq_true, if_false, hsplit]
      · intro h
        cases h

/-- Part of a file. -/
theorem fillFromFile_filled {source : Bytes → Source} {left : Bytes}
    (hsource : source = .fp ∨ source = .zp) (hleft : fb.source = source left) :
    Filled buf fb (fillFromFile source read left buf fb) := by
  unfold fillFromFile
  rcases read with _ | k
  · exact .error fb rfl rfl id
  have hsplit := chunk_append_drop k fb.bufLen left
  simp only
  split_ifs with hnil hend
  · refine .eof fb ?_ rfl rfl id
    rcases hsource with rfl | rfl <;> simp [InFile.toCome, hleft, hend]
  · exact .error fb rfl rfl id
  · rcases hsource with rfl | rfl
    all_goals
      refine .more _ _ ?_ trivial rfl rfl rfl fun h => ?_
      · simp only [InFile.toCome, hleft, InFile.count, hsplit]
      · simp only [InFile.Counted, hleft] at h
        refine ⟨?_, ?_⟩
        · simp [InFile.count, h.1]
        · simp [InFile.count, h.2]

/-- **Filling an empty buffer.** -/
theorem fill_spec (read : Read) (hfeeds : fb.Feeds) (hlen : 0 < fb.bufLen)
    (heof : buf.eofIn = false) (hnext : buf.nextIn = []) :
    Filled buf fb (rsInfilebufFill read buf fb) := by
  unfold rsInfilebufFill
  rw [if_neg (by simp [heof]), if_neg (by simp [hnext])]
  unfold fillFrom
  cases hsource : fb.source with
  | fd coming => exact fillFromNetwork_filled hsource hfeeds hnext
  | bfd left => exact fillFromBfd_filled hsource hfeeds hlen
  | fp left => exact fillFromFile_filled (Or.inl rfl) hsource
  | zp left => exact fillFromFile_filled (Or.inr rfl) hsource

end Fill

/-! ## §3. Any run. -/

section Run

variable {J : Type} {job : Job J} {whole : Bytes} {s : Driven J}

/-- Between two calls: what is to come makes up the rest. -/
structure Feeding (whole : Bytes) (s : Driven J) : Prop where
  fed : Fed whole s
  rest : s.buf.eofIn = false →
    0 < s.infb.bufLen ∧ s.infb.Feeds ∧ s.infb.offered ++ s.infb.toCome = whole

/-- At the start of a call the buffer is left alone, or is filled. -/
theorem inCb_filled (h : Feeding whole s) (read : Read) :
    s.inCb read = (s.buf, s.infb, .done)
      ∨ (s.buf.eofIn = false ∧ Filled s.buf s.infb (s.inCb read)) := by
  unfold Driven.inCb
  by_cases hend : s.buf.eofIn = true
  · exact Or.inl (if_pos hend)
  · rw [if_neg hend]
    rw [Bool.not_eq_true] at hend
    by_cases hnext : s.buf.nextIn = []
    · exact Or.inr ⟨hend, fill_spec read (h.rest hend).2.1 (h.rest hend).1 hend hnext⟩
    · unfold rsInfilebufFill
      rw [if_neg (by simp [hend]), if_pos hnext]
      exact Or.inl rfl

/-- One call. -/
theorem rsAsync_feeding (job : Job J) (h : Feeding whole s) (read : Read) (accepts : Bool) :
    Fed whole (job.rsAsync read accepts s).1
      ∧ ((job.rsAsync read accepts s).2.1 = .blocked ∨ (job.rsAsync read accepts s).2.1 = .running →
        Feeding whole (job.rsAsync read accepts s).1) := by
  obtain ⟨hinfb, heof, -, hresult⟩ := rsAsync_in job read accepts s
  generalize job.rsAsync read accepts s = called at *
  obtain ⟨s', result, sent⟩ := called
  simp only at hinfb heof hresult ⊢
  rcases inCb_filled h read with hsame | ⟨hend, hfilled⟩
  · rw [hsame] at hinfb heof
    have hfed : Fed whole s' := by
      refine ⟨?_, ?_, fun hatend => ?_, ?_⟩
      · exact hinfb ▸ h.fed.inside
      · exact hinfb ▸ h.fed.inOrder
      · exact hinfb ▸ h.fed.atEnd (heof ▸ hatend)
      · exact hinfb ▸ h.fed.counted
    exact ⟨hfed, fun _ => ⟨hfed, fun hmore => hinfb ▸ h.rest (heof ▸ hmore)⟩⟩
  · obtain ⟨hlen, -, hwhole⟩ := h.rest hend
    generalize s.inCb read = filled at hfilled hinfb heof hresult
    cases hfilled with
    | more b fb' comes feeds offered bufLen inside counted =>
        simp only at hinfb heof
        subst hinfb
        have hrest : s'.infb.offered ++ s'.infb.toCome = whole := by
          rw [offered, List.append_assoc, ← comes, hwhole]
        have hfed : Fed whole s' := by
          refine ⟨inside.trans h.fed.inside, ⟨_, hrest⟩, fun hatend => ?_, counted h.fed.counted⟩
          rw [heof, hend] at hatend
          cases hatend
        exact ⟨hfed, fun _ => ⟨hfed, fun _ => ⟨bufLen ▸ hlen, feeds, hrest⟩⟩⟩
    | eof fb' ended offered inside counted =>
        simp only at hinfb heof
        subst hinfb
        rw [ended, List.append_nil] at hwhole
        have hall : s'.infb.offered = whole := offered.trans hwhole
        have hfed : Fed whole s' :=
          ⟨inside.trans h.fed.inside, hall ▸ List.prefix_refl _, fun _ => hall,
            counted h.fed.counted⟩
        refine ⟨hfed, fun _ => ⟨hfed, fun hmore => ?_⟩⟩
        rw [heof] at hmore
        cases hmore
    | error fb' offered inside counted =>
        simp only at hinfb heof hresult
        subst hinfb
        have hioError : result = .ioError := hresult (by decide)
        refine ⟨⟨inside.trans h.fed.inside, offered ▸ h.fed.inOrder, fun hatend => ?_,
          counted h.fed.counted⟩, fun hgoes => ?_⟩
        · rw [heof, hend] at hatend
          cases hatend
        · rw [hioError] at hgoes
          rcases hgoes with hgoes | hgoes <;> cases hgoes

/-- **Any run**: the job has been fed with what has been read, in order, and with everything
at the end. -/
theorem run_fed (inputs : List (Read × Bool)) (h : Feeding whole s) :
    Fed whole (job.run inputs s) := by
  induction inputs generalizing s with
  | nil => exact h.fed
  | cons input inputs ih =>
      obtain ⟨read, accepts⟩ := input
      obtain ⟨hfed, hgoes⟩ := rsAsync_feeding job h read accepts
      rw [Job.run]
      generalize job.rsAsync read accepts s = called at hfed hgoes
      obtain ⟨s', result, sent⟩ := called
      simp only at hfed hgoes ⊢
      split_ifs with hresult
      · exact ih (hgoes hresult)
      · exact hfed

/-- Before the first call. -/
theorem feeding_start {source : Source} {bufLen dataLen : Nat} (hlen : 0 < bufLen) (j : J)
    (hfeeds : (rsFilebufNew source bufLen dataLen).Feeds) :
    Feeding (rsFilebufNew source bufLen dataLen).toCome
      { job := j, infb := rsFilebufNew source bufLen dataLen } where
  fed :=
    { inside := rfl
      inOrder := List.nil_prefix
      atEnd := fun h => by cases h
      counted := by cases source <;> trivial }
  rest _ := ⟨hlen, hfeeds, rfl⟩

end Run

/-! ## §4. Where the job is not fed with everything. -/

section Eater

/-- A job that consumes what there is. -/
def eater : Job Unit where
  iter _ nextIn _ _ := { job := (), consumed := nextIn.length, written := [], result := .blocked }
  fits _ _ _ _ := Nat.zero_le _

variable {s : Driven Unit}

/-- What is drained into a write buffer that has room. -/
theorem drain_accepts (buf : RsBuffers) (fb : OutFile) :
    (rsOutfilebufDrain true buf fb).2.2.1 = .done := by
  unfold rsOutfilebufDrain
  rcases buf.out with _ | _ | ⟨c, b⟩ <;> rfl

/-- A call with which the eater goes on. -/
theorem run_eater {read : Read} (hdone : (s.inCb read).2.2 = .done) :
    ∃ s', (∀ inputs, eater.run ((read, true) :: inputs) s = eater.run inputs s')
      ∧ s'.infb = (s.inCb read).2.1 ∧ s'.buf.eofIn = (s.inCb read).1.eofIn
      ∧ s'.buf.nextIn = [] := by
  obtain ⟨hinfb, heof, -, -⟩ := rsAsync_in eater read true s
  have hcalled : (eater.rsAsync read true s).2.1 = .blocked
      ∧ (eater.rsAsync read true s).1.buf.nextIn = [] := by
    unfold Job.rsAsync
    generalize s.inCb read = filled at hdone
    obtain ⟨buf, infb, iores⟩ := filled
    simp only at hdone
    subst hdone
    simp only [Job.rsJobIter, eater, ne_eq, not_true, if_false, reduceCtorEq, not_false_eq_true,
      and_false, drain_accepts, true_and, drain_in, List.drop_length]
  refine ⟨(eater.rsAsync read true s).1, fun inputs => ?_, hinfb, heof, hcalled.2⟩
  rw [Job.run]
  generalize eater.rsAsync read true s = called at hcalled
  obtain ⟨s', result, sent⟩ := called
  simp only at hcalled ⊢
  rw [if_pos (Or.inl hcalled.1)]

/-- A call at whose start the buffer is empty. -/
theorem inCb_empty (read : Read) (heof : s.buf.eofIn = false) (hnext : s.buf.nextIn = []) :
    s.inCb read = fillFrom read s.buf s.infb := by
  unfold Driven.inCb rsInfilebufFill
  rw [if_neg (by simp [heof]), if_neg (by simp [heof]), if_neg (by simp [hnext])]

/-- One byte of a Windows file of known length: it is counted, and offered unless it is the
last one. -/
theorem fillFrom_byte {buf : RsBuffers} {fb : InFile} {c : UInt8} {left : Bytes} {d : Nat}
    (hsource : fb.source = .bfd (c :: left)) (hknown : fb.doKnownByteCount = true)
    (hdata : fb.dataLen = d + 1) (hlen : 0 < fb.bufLen) :
    fillFrom (some 0) buf fb =
      (let fb' := { fb with source := .bfd left, dataLen := d }.count [c]
       if d = 0 then atEof buf fb' else offer [c] buf fb') := by
  have hchunk : chunk 0 (min fb.bufLen (d + 1)) (c :: left) = [c] := by
    unfold chunk
    rw [min_eq_left (by omega)]
    rfl
  simp only [fillFrom, hsource, fillFromBfd, hknown, if_true, hdata, hchunk, List.length_singleton,
    List.cons_ne_nil, if_false, InFile.count, true_and, Nat.add_sub_cancel, List.drop_one,
    List.tail_cons]

/-- The last part of a Windows file of known length is not offered. -/
theorem bfd_short (d : Nat) {left : Bytes} (hsource : s.infb.source = .bfd left)
    (hknown : s.infb.doKnownByteCount = true) (hdata : s.infb.dataLen = d + 1)
    (hleft : d + 1 ≤ left.length) (hlen : 0 < s.infb.bufLen) (heof : s.buf.eofIn = false)
    (hnext : s.buf.nextIn = []) :
    ∃ inputs, (eater.run inputs s).buf.eofIn = true
      ∧ (eater.run inputs s).infb.offered.length = s.infb.offered.length + d := by
  -- byte by byte
  induction d generalizing s left with
  | zero =>
      obtain ⟨c, left, rfl⟩ : ∃ c rest, left = c :: rest := List.exists_cons_of_length_pos hleft
      have hcb := (inCb_empty (some 0) heof hnext).trans
        (fillFrom_byte hsource hknown hdata hlen)
      simp only [if_true] at hcb
      obtain ⟨s', hrun, hinfb, hend, -⟩ := run_eater (s := s) (by rw [hcb]; rfl)
      rw [hcb] at hinfb hend
      refine ⟨[(some 0, true)], ?_⟩
      rw [hrun, Job.run, hinfb, hend]
      exact ⟨rfl, rfl⟩
  | succ d ih =>
      obtain ⟨c, left, rfl⟩ : ∃ c rest, left = c :: rest :=
        List.exists_cons_of_length_pos (by omega)
      have hcb := (inCb_empty (some 0) heof hnext).trans
        (fillFrom_byte hsource hknown hdata hlen)
      simp only [Nat.add_one_ne_zero, if_false] at hcb
      obtain ⟨s', hrun, hinfb, hend, hnext'⟩ :=
        run_eater (s := s) (by rw [hcb]; rfl)
      rw [hcb] at hinfb hend
      obtain ⟨inputs, heof', hoffered⟩ := ih (s := s') (by rw [hinfb]; rfl)
        (by rw [hinfb]; exact hknown) (by rw [hinfb]; rfl)
        (by rw [List.length_cons] at hleft; omega) (by rw [hinfb]; exact hlen)
        (hend.trans heof) hnext'
      refine ⟨(some 0, true) :: inputs, ?_⟩
      rw [hrun, hoffered, hinfb]
      refine ⟨heof', ?_⟩
      show (s.infb.offered ++ [c]).length + d = _
      rw [List.length_append, List.length_singleton]
      omega

/-- A message that is too long is copied behind the buffer. -/
theorem fd_overrun {coming : List (Cmd × Bytes)} (hsource : s.infb.source = .fd coming)
    (hlong : ∃ b ∈ appended coming, s.infb.bufLen < b.length) (heof : s.buf.eofIn = false)
    (hnext : s.buf.nextIn = []) :
    ∃ inputs, (eater.run inputs s).infb.overrun = true := by
  induction coming generalizing s with
  | nil =>
      obtain ⟨b, hb, -⟩ := hlong
      cases hb
  | cons message coming ih =>
      obtain ⟨rcmd, rbuf⟩ := message
      obtain ⟨b, hb, hlong⟩ := hlong
      have hcb := inCb_empty (some 0) heof hnext
      simp only [fillFrom, hsource, fillFromNetwork] at hcb
      rw [appended] at hb
      by_cases happend : rcmd = .append
      · rw [if_pos happend] at hcb hb
        obtain ⟨s', hrun, hinfb, hend, hnext'⟩ := run_eater (s := s) (by rw [hcb]; rfl)
        rw [hcb] at hinfb hend
        rcases List.mem_cons.mp hb with rfl | hb
        · refine ⟨[(some 0, true)], ?_⟩
          rw [hrun, Job.run, hinfb]
          simp [offer, hlong]
        · obtain ⟨inputs, hover⟩ := ih (s := s') (by rw [hinfb]; rfl)
            ⟨b, hb, by rw [hinfb]; exact hlong⟩ (hend.trans heof) hnext'
          exact ⟨(some 0, true) :: inputs, by rw [hrun, hover]⟩
      · rw [if_neg happend] at hcb hb
        by_cases hendfile : rcmd = .endFile
        · rw [if_pos hendfile] at hb
          cases hb
        rw [if_neg hendfile] at hcb hb
        by_cases hwarning : rcmd = .warning
        · rw [if_pos hwarning] at hcb hb
          obtain ⟨s', hrun, hinfb, hend, hnext'⟩ := run_eater (s := s) (by rw [hcb])
          rw [hcb] at hinfb hend
          obtain ⟨inputs, hover⟩ := ih (s := s') (by rw [hinfb])
            ⟨b, hb, by rw [hinfb]; exact hlong⟩ (hend.trans heof) hnext'
          exact ⟨(some 0, true) :: inputs, by rw [hrun, hover]⟩
        · rw [if_neg hwarning] at hb
          cases hb

end Eater

/-- **For which sources a job is fed with everything**: whatever job it is, and however the
input comes. -/
theorem fed_iff (source : Source) {bufLen : Nat} (hlen : 0 < bufLen) (dataLen : Nat) :
    (∀ (J : Type) (job : Job J) (j : J) (inputs : List (Read × Bool)),
      Fed (rsFilebufNew source bufLen dataLen).toCome
        (job.run inputs { job := j, infb := rsFilebufNew source bufLen dataLen }))
      ↔ (rsFilebufNew source bufLen dataLen).Feeds := by
  constructor
  · intro h
    cases source with
    | fp left => trivial
    | zp left => trivial
    | bfd left =>
        intro hknown
        by_contra hlong
        have hpos : 0 < dataLen := by simpa [rsFilebufNew] using hknown
        have hge : dataLen ≤ left.length := Nat.not_lt.mp hlong
        obtain ⟨inputs, hend, hshort⟩ := bfd_short (dataLen - 1)
          (s := { job := (), infb := rsFilebufNew (.bfd left) bufLen dataLen }) rfl hknown
          (Nat.sub_add_cancel hpos).symm (by omega) hlen rfl rfl
        have hall := (h Unit eater () inputs).atEnd hend
        rw [hall] at hshort
        simp only [InFile.toCome, rsFilebufNew, hpos, decide_true, if_true, List.length_take,
          List.length_nil] at hshort
        omega
    | fd coming =>
        intro b hb
        by_contra hlong
        obtain ⟨inputs, hoverrun⟩ := fd_overrun
          (s := { job := (), infb := rsFilebufNew (.fd coming) bufLen dataLen }) rfl
          ⟨b, hb, Nat.not_le.mp hlong⟩ rfl rfl
        have hinside := (h Unit eater () inputs).inside
        rw [hoverrun] at hinside
        cases hinside
  · intro hfeeds J job j inputs
    exact run_fed inputs (feeding_start hlen j hfeeds)

/-- Three bytes, of which no length is known. -/
theorem smallFile_fed :
    (rsFilebufNew (.bfd [1, 2, 3]) asyncBufLen 0).Feeds
      ∧ ∀ (J : Type) (job : Job J) (j : J) (inputs : List (Read × Bool)),
        Fed [1, 2, 3]
          (job.run inputs { job := j, infb := rsFilebufNew (.bfd [1, 2, 3]) asyncBufLen 0 }) := by
  have hfeeds : (rsFilebufNew (.bfd [1, 2, 3]) asyncBufLen 0).Feeds := fun h => by cases h
  exact ⟨hfeeds, (fed_iff (.bfd [1, 2, 3]) (by decide) 0).mpr hfeeds⟩

/-- Three bytes of known length, which one read returns: they are counted, and not offered. -/
theorem knownLength_not_fed :
    ¬ ∀ (J : Type) (job : Job J) (j : J) (inputs : List (Read × Bool)),
      Fed (rsFilebufNew (.bfd [1, 2, 3]) asyncBufLen 3).toCome
        (job.run inputs { job := j, infb := rsFilebufNew (.bfd [1, 2, 3]) asyncBufLen 3 }) := by
  intro h
  have hall := (h Unit eater () [(some 15999, true)]).atEnd (by decide)
  exact absurd hall (by decide)

end Burp.Librsync
