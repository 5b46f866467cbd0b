/-
  Burp.Phase2.Signature — asking for a changed file.

  For a file that has changed the server sends where its data was, its stat, its path, and then
  the signature of the old data, which a librsync job makes while it is being sent.  Any of
  these messages may be refused for want of room in the write buffer; `do_stuff_to_send` is
  called again until all has been sent, and goes on from where it was.

  Here the signature job itself is at work, of which the main loop knows only how it has ended.

  Main results:
    * `doStuffToSend_step` — one call.
    * `doStuffToSend_sends` — all calls for one file.
-/
import Burp.Phase2.Server
import Burp.Librsync.Output
import Burp.Stream.Rounds

namespace Burp.Phase2

open FileSystem Burp.Store Burp.Librsync Rounds

/-! ## §1. The code. -/

/-- A changed file: its entry with the flags, the job, and what has been put into the write
buffer so far. -/
structure Signing (J : Type) where
  p1b : Asking
  sigjob : Driven J
  wire : List (Cmd × Bytes) := []

/-- What a call depends on: how many messages find room before one is refused, and the read of
the old data. -/
structure Given where
  room : Nat
  read : Read

variable {J : Type}

/-- One message, if it is to be sent and there is room for it; `none` if there was not. -/
def tryPart (flag : Asking → Bool) (clear : Asking → Asking) (message : Sbuf → Cmd × Bytes) :
    Signing J × Option Nat → Signing J × Option Nat
  | (s, none) => (s, none)
  | (s, some room) =>
      if flag s.p1b then
        match room with
        | 0 => (s, none)
        | room + 1 =>
            ({ s with p1b := clear s.p1b, wire := s.wire ++ [message s.p1b.sb] }, some room)
      else (s, some room)

def trySenddatapth : Signing J × Option Nat → Signing J × Option Nat :=
  tryPart (·.senddatapth) (fun a => { a with senddatapth := false })
    fun sb => (.datapth, sb.datapth.getD [])

def trySendstat : Signing J × Option Nat → Signing J × Option Nat :=
  tryPart (·.sendstat) (fun a => { a with sendstat := false }) fun sb => (.stat, sb.statbuf)

def trySendpath : Signing J × Option Nat → Signing J × Option Nat :=
  tryPart (·.sendpath) (fun a => { a with sendpath := false }) fun sb => (sb.cmd, sb.path.getD [])

/-- The end of the signature. -/
def trySendendofsig (room : Nat) (s : Signing J) : Signing J × Sts :=
  if s.p1b.sendendofsig then
    match room with
    | 0 => (s, .again)
    | _ + 1 =>
        ({ s with
            p1b := { s.p1b with sendendofsig := false }
            wire := s.wire ++ [(.endFile, nameBytes "endfile")] }, .all)
  else (s, .all)

/-- The signature: what the job has put into the write buffer comes before its end. -/
def trySignature (job : Job J) (given : Given) (room : Nat) (s : Signing J) : Signing J × Sts :=
  if s.p1b.sigjob && !s.p1b.sendendofsig then
    let (sigjob, sigresult, sent) := job.rsAsync given.read (0 < room) s.sigjob
    let s := { s with sigjob := sigjob, wire := s.wire ++ sent.toList.map fun b => (.append, b) }
    let room := room - sent.toList.length
    if sigresult = .done then
      trySendendofsig room { s with p1b := { s.p1b with sendendofsig := true } }
    else if sigresult = .blocked ∨ sigresult = .running then (s, .again)
    else (s, .error)
  else trySendendofsig room s

/-- `do_stuff_to_send`. -/
def signedStuffToSend (job : Job J) (given : Given) (s : Signing J) : Signing J × Sts :=
  match trySendpath (trySendstat (trySenddatapth (s, some given.room))) with
  | (s, none) => (s, .again)
  | (s, some room) => trySignature job given room s

/-- `do_stuff_to_send` until it does not return 1. -/
def stuffRound (job : Job J) (given : Given) (s : Signing J) :
    Signing J ⊕ (Signing J × Sts) :=
  match signedStuffToSend job given s with
  | (s, .again) => .inl s
  | (s, sts) => .inr (s, sts)

/-! ## §2. What is to be sent. -/

/-- The messages before the signature. -/
def parts (sb : Sbuf) : List (Cmd × Bytes) :=
  [(.datapth, sb.datapth.getD []), (.stat, sb.statbuf), (sb.cmd, sb.path.getD [])]

/-- All that is sent for a file: the parts, each once, then the signature in blocks, and its
end. -/
def Sent (sb : Sbuf) (signature : Bytes) (wire : List (Cmd × Bytes)) : Prop :=
  ∃ blocks : List Bytes, blocks.flatten = signature
    ∧ wire = parts sb ++ blocks.map (fun b => (.append, b)) ++ [(.endFile, nameBytes "endfile")]

/-- The parts that have not been sent. -/
def unsent (a : Asking) : List (Cmd × Bytes) :=
  (if a.senddatapth then [(.datapth, a.sb.datapth.getD [])] else [])
    ++ (if a.sendstat then [(.stat, a.sb.statbuf)] else [])
    ++ (if a.sendpath then [(a.sb.cmd, a.sb.path.getD [])] else [])

/-- Partway: what has been sent and what has not make up the parts and the blocks so far; the
blocks and what is still to come of the signature make up all of it. -/
structure Partway (S : Producer J) (sb : Sbuf) (signature : Bytes) (s : Signing J)
    (blocks : List Bytes) : Prop where
  entry : s.p1b.sb = sb
  sigjob : s.p1b.sigjob = true
  sound : s.sigjob.Sound
  wire : s.wire ++ unsent s.p1b = parts sb ++ blocks.map fun b => (.append, b)
  before : unsent s.p1b ≠ [] → blocks = []
  bytes : blocks.flatten ++ (s.sigjob.buf.buffered ++ S.output s.sigjob.job) = signature
  last : s.p1b.sendendofsig = true →
    unsent s.p1b = [] ∧ s.sigjob.buf.buffered = [] ∧ S.output s.sigjob.job = []

/-- What is still to be done. -/
def weight (S : Producer J) (s : Signing J) : Nat :=
  (unsent s.p1b).length + (if s.p1b.sendendofsig then 0 else 1) + S.togo s.sigjob

/-! ## §3. The parts. -/

section Parts

variable {S : Producer J} {sb : Sbuf} {signature : Bytes} {s0 s : Signing J} {room0 room : Nat}

/-- What has been tried in a call: if there was room, something has been sent, or nothing was
to be sent. -/
structure Tried (S : Producer J) (sb : Sbuf) (signature : Bytes) (s0 : Signing J) (room0 : Nat)
    (r : Signing J × Option Nat) : Prop where
  partway : ∃ blocks, Partway S sb signature r.1 blocks
  weight_le : weight S r.1 ≤ weight S s0
  gets_on : r.2 ≠ some room0 → 0 < room0 → weight S r.1 < weight S s0

section Part

variable {flag : Asking → Bool} {clear : Asking → Asking} {message : Sbuf → Cmd × Bytes}

theorem tryPart_down (hflag : ¬ flag s.p1b = true) :
    tryPart flag clear message (s, some room) = (s, some room) := by
  unfold tryPart
  exact if_neg hflag

theorem tryPart_up (hflag : flag s.p1b = true) :
    tryPart flag clear message (s, some (room + 1))
      = ({ s with p1b := clear s.p1b, wire := s.wire ++ [message s.p1b.sb] }, some room) := by
  unfold tryPart
  exact if_pos hflag

theorem tryPart_refused (hflag : flag s.p1b = true) :
    tryPart flag clear message (s, some 0) = (s, none) := by
  unfold tryPart
  exact if_pos hflag

end Part

/-- One part, of which those before it have been sent. -/
theorem tryPart_tried {flag : Asking → Bool} {clear : Asking → Asking}
    {message : Sbuf → Cmd × Bytes} {r : Signing J × Option Nat}
    (hclear : ∀ a, (clear a).sb = a.sb ∧ (clear a).sigjob = a.sigjob
      ∧ (clear a).sendendofsig = a.sendendofsig)
    (hfirst : r.2 ≠ none → flag r.1.p1b = true →
      unsent r.1.p1b = message r.1.p1b.sb :: unsent (clear r.1.p1b))
    (h : Tried S sb signature s0 room0 r) :
    Tried S sb signature s0 room0 (tryPart flag clear message r) := by
  obtain ⟨⟨blocks, hpart⟩, hle, hon⟩ := h
  rcases r with ⟨s, _ | room⟩
  · exact ⟨⟨blocks, hpart⟩, hle, hon⟩
  · simp only at hpart hle hon hfirst
    by_cases hflag : flag s.p1b = true
    · have hunsent := hfirst (by simp) hflag
      obtain ⟨hsb, hjob, hend⟩ := hclear s.p1b
      rcases room with _ | room
      · rw [tryPart_refused hflag]
        refine ⟨⟨blocks, hpart⟩, hle, fun _ hpos => hon ?_ hpos⟩
        rintro ⟨⟩
        exact absurd hpos (Nat.lt_irrefl 0)
      · have hless : (unsent (clear s.p1b)).length < (unsent s.p1b).length := by
          rw [hunsent, List.length_cons]
          exact Nat.lt_succ_self _
        have hdown : weight S { s with
            p1b := clear s.p1b, wire := s.wire ++ [message s.p1b.sb] } < weight S s0 := by
          refine lt_of_lt_of_le ?_ hle
          simp only [weight, hend]
          omega
        rw [tryPart_up hflag]
        refine ⟨⟨blocks, ?_⟩, hdown.le, fun _ _ => hdown⟩
        refine ⟨hsb.trans hpart.entry, hjob.trans hpart.sigjob, hpart.sound, ?_, fun _ => ?_,
          hpart.bytes, fun hended => ?_⟩
        · show s.wire ++ [message s.p1b.sb] ++ unsent (clear s.p1b) = _
          rw [List.append_assoc, List.singleton_append, ← hunsent]
          exact hpart.wire
        · exact hpart.before (by rw [hunsent]; exact List.cons_ne_nil _ _)
        · have hnone := (hpart.last (hend ▸ hended)).1
          rw [hunsent] at hnone
          cases hnone
    · rw [tryPart_down hflag]
      exact ⟨⟨blocks, hpart⟩, hle, hon⟩

/-- A flag is down after its part has been tried and not been refused. -/
theorem tryPart_flag {flag : Asking → Bool} {clear : Asking → Asking}
    {message : Sbuf → Cmd × Bytes} {r : Signing J × Option Nat}
    (hclear : ∀ a, flag (clear a) = false) (h : (tryPart flag clear message r).2 ≠ none) :
    r.2 ≠ none ∧ flag (tryPart flag clear message r).1.p1b = false
      ∧ ((tryPart flag clear message r).1.p1b = r.1.p1b
        ∨ (tryPart flag clear message r).1.p1b = clear r.1.p1b) := by
  rcases r with ⟨s, _ | room⟩
  · exact absurd rfl h
  · refine ⟨by simp, ?_⟩
    by_cases hflag : flag s.p1b = true
    · rcases room with _ | room
      · exact absurd (congrArg Prod.snd (tryPart_refused hflag)) h
      · rw [tryPart_up hflag]
        exact ⟨hclear _, Or.inr rfl⟩
    · rw [tryPart_down hflag]
      exact ⟨by simpa using hflag, Or.inl rfl⟩

/-- **The parts**: in one call they are sent in order until one is refused. -/
theorem tryParts (h : ∃ blocks, Partway S sb signature s blocks) (room : Nat) :
    Tried S sb signature s room (trySendpath (trySendstat (trySenddatapth (s, some room))))
      ∧ ((trySendpath (trySendstat (trySenddatapth (s, some room)))).2 ≠ none →
        unsent (trySendpath (trySendstat (trySenddatapth (s, some room)))).1.p1b = []) := by
  have h0 : Tried S sb signature s room (s, some room) :=
    ⟨h, le_rfl, fun hne => absurd rfl hne⟩
  have h1 : Tried S sb signature s room (trySenddatapth (s, some room)) :=
    tryPart_tried (fun _ => ⟨rfl, rfl, rfl⟩)
      (fun _ (hflag : s.p1b.senddatapth = true) => by simp [unsent, hflag]) h0
  have hflag1 : (trySenddatapth (s, some room)).2 ≠ none →
      (trySenddatapth (s, some room)).1.p1b.senddatapth = false :=
    fun hne => (tryPart_flag (fun _ => rfl) hne).2.1
  generalize trySenddatapth (s, some room) = r1 at h1 hflag1
  have h2 : Tried S sb signature s room (trySendstat r1) :=
    tryPart_tried (fun _ => ⟨rfl, rfl, rfl⟩)
      (fun hne hflag => by simp [unsent, hflag, hflag1 hne]) h1
  have hflag2 : (trySendstat r1).2 ≠ none → (trySendstat r1).1.p1b.senddatapth = false
      ∧ (trySendstat r1).1.p1b.sendstat = false := by
    intro hne
    obtain ⟨hne1, hstat, hsame | hclear⟩ := tryPart_flag (fun _ => rfl) hne
    · exact ⟨(congrArg Asking.senddatapth hsame).trans (hflag1 hne1), hstat⟩
    · exact ⟨(congrArg Asking.senddatapth hclear).trans (hflag1 hne1), hstat⟩
  generalize trySendstat r1 = r2 at h2 hflag2
  refine ⟨tryPart_tried (fun _ => ⟨rfl, rfl, rfl⟩)
    (fun hne hflag => by simp [unsent, hflag, hflag2 hne]) h2, fun hne => ?_⟩
  obtain ⟨hne2, hpath, hsame | hclear⟩ := tryPart_flag (fun _ => rfl) hne
  all_goals
    obtain ⟨hdatapth, hstat⟩ := hflag2 hne2
    have hpath' : (trySendpath r2).1.p1b.sendpath = false := hpath
  · have hsame' : (trySendpath r2).1.p1b = r2.1.p1b := hsame
    rw [hsame'] at hpath' ⊢
    simp [unsent, hpath', hdatapth, hstat]
  · have hclear' : (trySendpath r2).1.p1b = { r2.1.p1b with sendpath := false } := hclear
    simp [unsent, hclear', hdatapth, hstat]

end Parts

/-! ## §4. The signature. -/

section Signature

variable {S : Producer J} {sb : Sbuf} {signature : Bytes} {s : Signing J} {blocks : List Bytes}

/-- The end of the signature: it is sent if there is room, and with it all has been sent. -/
theorem trySendendofsig_sent (h : Partway S sb signature s blocks)
    (hend : s.p1b.sendendofsig = true) (room : Nat) :
    (trySendendofsig (room + 1) s).2 = .all
      ∧ Sent sb signature (trySendendofsig (room + 1) s).1.wire := by
  obtain ⟨hunsent, hbuffered, houtput⟩ := h.last hend
  unfold trySendendofsig
  rw [if_pos hend]
  refine ⟨rfl, blocks, ?_, ?_⟩
  · have hbytes := h.bytes
    rw [hbuffered, houtput] at hbytes
    simpa using hbytes
  · have hwire := h.wire
    rw [hunsent, List.append_nil] at hwire
    show s.wire ++ _ = _
    rw [hwire]

/-- What a call has done, with so much room left for the signature. -/
structure Called (S : Producer J) (sb : Sbuf) (signature : Bytes) (room : Nat) (s : Signing J)
    (r : Signing J × Sts) : Prop where
  again : r.2 = .again → (∃ blocks, Partway S sb signature r.1 blocks)
    ∧ weight S r.1 ≤ weight S s ∧ (0 < room → weight S r.1 < weight S s)
  all : r.2 = .all → Sent sb signature r.1.wire
  error : r.2 ≠ .error

/-- The end of the signature, with or without room. -/
theorem trySendendofsig_called (h : Partway S sb signature s blocks)
    (hend : s.p1b.sendendofsig = true) (room : Nat) :
    Called S sb signature room s (trySendendofsig room s) := by
  cases room with
  | zero =>
      have hsame : trySendendofsig 0 s = (s, .again) := if_pos hend
      rw [hsame]
      exact ⟨fun _ => ⟨⟨blocks, h⟩, le_rfl, fun hpos => absurd hpos (Nat.lt_irrefl 0)⟩,
        fun hall => (by cases hall), fun herror => (by cases herror)⟩
  | succ room =>
      obtain ⟨hall, hsent⟩ := trySendendofsig_sent h hend room
      exact ⟨fun hagain => (by rw [hall] at hagain; cases hagain), fun _ => hsent,
        by rw [hall]; decide⟩

/-- **The signature**, once the parts have been sent. -/
theorem trySignature_called {given : Given} (hread : given.read ≠ none)
    (h : Partway S sb signature s blocks) (hunsent : unsent s.p1b = []) (room : Nat) :
    Called S sb signature room s (trySignature S.toJob given room s) := by
  obtain ⟨k, hk⟩ := Option.ne_none_iff_exists'.mp hread
  unfold trySignature
  by_cases hend : s.p1b.sendendofsig = true
  · rw [if_neg (by simp [hend])]
    exact trySendendofsig_called h hend room
  · rw [if_pos (by simp [h.sigjob, hend]), hk]
    generalize hr : S.rsAsync (some k) (0 < room) s.sigjob = r
    obtain ⟨sigjob, sigresult, sent⟩ := r
    obtain ⟨⟨hsound, hbytes, hanswer, hle⟩, hdone, hless, hsent⟩ := rsAsync_out h.sound k _ hr
    have hflatten : sent.toList.flatten = sent.getD [] := by
      cases sent with
      | none => rfl
      | some b => simp
    have hwire := h.wire
    rw [hunsent, List.append_nil] at hwire
    -- what has been drained is a block
    have hpart : Partway S sb signature
        { s with
          sigjob := sigjob
          wire := s.wire ++ sent.toList.map fun b => (.append, b) } (blocks ++ sent.toList) := by
      refine ⟨h.entry, h.sigjob, hsound, ?_, fun hne => absurd hunsent hne, ?_,
        fun hended => absurd hended hend⟩
      · show s.wire ++ _ ++ unsent s.p1b = _
        rw [hunsent, hwire, List.append_nil, List.map_append, List.append_assoc]
      · rw [← h.bytes, hbytes, List.flatten_append, hflatten, List.append_assoc]
    have hbit : (if s.p1b.sendendofsig then 0 else 1) = 1 := by simp [hend]
    simp only
    split_ifs with hresult hgoes
    · obtain ⟨hbuffered, houtput⟩ := hdone hresult
      have hended : Partway S sb signature
          { s with
            p1b := { s.p1b with sendendofsig := true }
            sigjob := sigjob
            wire := s.wire ++ sent.toList.map fun b => (.append, b) } (blocks ++ sent.toList) :=
        ⟨hpart.entry, hpart.sigjob, hsound, hpart.wire, hpart.before, hpart.bytes,
          fun _ => ⟨hunsent, hbuffered, houtput⟩⟩
      obtain ⟨hagain, hall, herror⟩ :=
        trySendendofsig_called hended rfl (room - sent.toList.length)
      refine ⟨fun hr => ?_, hall, herror⟩
      obtain ⟨hblocks, hweight, -⟩ := hagain hr
      have hdown : weight S { s with
          p1b := { s.p1b with sendendofsig := true }
          sigjob := sigjob
          wire := s.wire ++ sent.toList.map fun b => (.append, b) } < weight S s := by
        unfold weight
        rw [hbit]
        show (unsent s.p1b).length + 0 + S.togo sigjob < _
        omega
      exact ⟨hblocks, (lt_of_le_of_lt hweight hdown).le, fun _ => lt_of_le_of_lt hweight hdown⟩
    · refine ⟨fun _ => ⟨⟨_, hpart⟩, Nat.add_le_add_left hle _, fun hpos => ?_⟩,
        fun hall => (by cases hall), fun herror => (by cases herror)⟩
      exact Nat.add_lt_add_left (hless (by simpa using hpos) hresult) _
    · rcases hanswer with hdone | hblocked | hrunning
      · exact absurd hdone hresult
      · exact absurd (Or.inl hblocked) hgoes
      · exact absurd (Or.inr hrunning) hgoes

/-- **One call.** -/
theorem doStuffToSend_step {given : Given} (hread : given.read ≠ none)
    (h : ∃ blocks, Partway S sb signature s blocks) :
    Called S sb signature given.room s (signedStuffToSend S.toJob given s) := by
  obtain ⟨⟨⟨blocks, hpart⟩, hle, hon⟩, hunsent⟩ := tryParts h given.room
  unfold signedStuffToSend
  generalize trySendpath (trySendstat (trySenddatapth (s, some given.room))) = r
    at hpart hle hon hunsent
  rcases r with ⟨s', _ | room⟩
  · exact ⟨fun _ => ⟨⟨blocks, hpart⟩, hle, hon (by simp)⟩, fun hall => (by cases hall),
      fun herror => (by cases herror)⟩
  · obtain ⟨hagain, hall, herror⟩ :=
      trySignature_called hread hpart (hunsent (by simp)) room
    refine ⟨fun hr => ?_, hall, herror⟩
    obtain ⟨hblocks, hweight, hless⟩ := hagain hr
    refine ⟨hblocks, hweight.trans hle, fun hpos => ?_⟩
    by_cases hroom : room = given.room
    · exact lt_of_lt_of_le (hless (hroom ▸ hpos)) hle
    · exact lt_of_le_of_lt hweight (hon (by simpa using hroom) hpos)

/-- A round that goes on. -/
theorem stuffRound_inl {given : Given} {s' : Signing J} (hread : given.read ≠ none)
    (h : ∃ blocks, Partway S sb signature s blocks)
    (hround : stuffRound S.toJob given s = .inl s') :
    (∃ blocks, Partway S sb signature s' blocks) ∧ weight S s' ≤ weight S s
      ∧ (0 < given.room → weight S s' < weight S s) := by
  have hcalled := (doStuffToSend_step hread h).again
  unfold stuffRound at hround
  generalize signedStuffToSend S.toJob given s = r at hcalled hround
  rcases r with ⟨s1, _ | _ | _⟩
  · cases hround
    exact hcalled rfl
  · cases hround
  · cases hround

/-- A round that ends the loop. -/
theorem stuffRound_inr {given : Given} {s' : Signing J} {sts : Sts} (hread : given.read ≠ none)
    (h : ∃ blocks, Partway S sb signature s blocks)
    (hround : stuffRound S.toJob given s = .inr (s', sts)) :
    sts = .all ∧ Sent sb signature s'.wire := by
  obtain ⟨-, hall, herror⟩ := doStuffToSend_step hread h
  unfold stuffRound at hround
  generalize signedStuffToSend S.toJob given s = r at hall herror hround
  rcases r with ⟨s1, _ | _ | _⟩
  · cases hround
  · cases hround
    exact ⟨rfl, hall rfl⟩
  · exact absurd rfl herror

/-- What has been sent partway is a beginning of what is to be sent. -/
theorem Partway.sent (h : Partway S sb signature s blocks) :
    ∃ more, Sent sb signature (s.wire ++ more) := by
  refine ⟨unsent s.p1b ++ [(.append, s.sigjob.buf.buffered ++ S.output s.sigjob.job)]
    ++ [(.endFile, nameBytes "endfile")],
    blocks ++ [s.sigjob.buf.buffered ++ S.output s.sigjob.job], ?_, ?_⟩
  · simpa using h.bytes
  · rw [← List.append_assoc, ← List.append_assoc, h.wire, List.map_append]
    simp

end Signature

/-! ## §5. All calls for one file. -/

/-- `process_changed_file`: what is to be sent for an entry whose data was in a file or a gzip
file, and the job at its start. -/
def changedFile (sb : Sbuf) (zp : Bool) (old : Bytes) (blocklen : Nat) (j : J) : Signing J where
  p1b := { sb := sb, senddatapth := true, sendstat := true, sendpath := true, sigjob := true }
  sigjob :=
    { job := j
      infb := rsFilebufNew (if zp then .zp old else .fp old) blocklen (2 ^ 64 - 1) }

theorem changedFile_partway (S : Producer J) (sb : Sbuf) (zp : Bool) (old : Bytes) {blocklen : Nat}
    (hlen : 0 < blocklen) (j : J) :
    Partway S sb (S.output j) (changedFile sb zp old blocklen j) [] where
  entry := rfl
  sigjob := rfl
  sound :=
    { file := by
        cases zp
        · exact ⟨old, Or.inl rfl⟩
        · exact ⟨old, Or.inr rfl⟩
      bufLen := hlen
      outLen := (by decide : 0 < Net.asyncBufLen)
      room := rfl }
  wire := rfl
  before _ := rfl
  bytes := rfl
  last h := by cases h

/-- **All calls for one file**, with any job and any pattern of refusals: what has been sent is
always a beginning of what is to be sent; when the calls end, `do_stuff_to_send` has returned 0
and all has been sent; and they end if there is room again and again. -/
theorem doStuffToSend_sends (S : Producer J) (j : J) (sb : Sbuf) (zp : Bool) (old : Bytes)
    {blocklen : Nat} (hlen : 0 < blocklen) {o : ℕ → Given} (hreads : ∀ k, (o k).read ≠ none) :
    (∀ n s, rounds (stuffRound S.toJob) n o (changedFile sb zp old blocklen j) = .inl s →
        ∃ more, Sent sb (S.output j) (s.wire ++ more))
      ∧ (∀ n s sts, rounds (stuffRound S.toJob) n o (changedFile sb zp old blocklen j)
          = .inr (s, sts) → sts = .all ∧ Sent sb (S.output j) s.wire)
      ∧ (Recurrent (fun given : Given => 0 < given.room) o →
        ∃ n s, rounds (stuffRound S.toJob) n o (changedFile sb zp old blocklen j)
          = .inr (s, .all)) := by
  have hstart : ∃ blocks, Partway S sb (S.output j) (changedFile sb zp old blocklen j) blocks :=
    ⟨[], changedFile_partway S sb zp old hlen j⟩
  have hresult : ∀ n, _ := fun n => rounds_result (stuffRound S.toJob) (fun g => g.read ≠ none)
    (I := fun s => ∃ blocks, Partway S sb (S.output j) s blocks)
    (Q := fun r => r.2 = .all ∧ Sent sb (S.output j) r.1.wire) (n := n)
    (fun _ _ _ hread hs hround => (stuffRound_inl hread hs hround).1)
    (fun _ _ _ hread hs hround => stuffRound_inr hread hs hround) hreads hstart
  refine ⟨fun n s hs => ?_, fun n s sts hs => (hresult n).1 _ hs, fun hrecurrent => ?_⟩
  · obtain ⟨blocks, hpart⟩ := (hresult n).2 s hs
    exact hpart.sent
  · obtain ⟨n, ⟨s, sts⟩, hend⟩ := rounds_end (stuffRound S.toJob) (fun g => g.read ≠ none)
      (I := fun s => ∃ blocks, Partway S sb (S.output j) s blocks) (μ := weight S)
      (fun _ _ _ hread hs hround => ⟨(stuffRound_inl hread hs hround).1,
        (stuffRound_inl hread hs hround).2.1⟩)
      (fun _ _ _ hread hgood hs hround => (stuffRound_inl hread hs hround).2.2 hgood)
      hreads hrecurrent hstart
    obtain ⟨rfl, -⟩ := (hresult n).1 _ hend
    exact ⟨n, s, hend⟩

/-- A job that needs no input: it writes what there is room for. -/
def writer : Producer Bytes where
  iter out nextIn _ availOut :=
    { job := out.drop availOut
      consumed := nextIn.length
      written := out.take availOut
      result := if out.length ≤ availOut then .done else .blocked }
  fits out _ _ availOut := List.length_take_le availOut out
  output out := out
  steps _ := 0
  writes out _ _ availOut := (List.take_append_drop availOut out).symm
  ends out _ _ availOut h := by
    refine List.drop_eq_nil_iff.mpr ?_
    by_contra hlong
    simp [hlong] at h
  answers out _ _ availOut := by
    simp only
    split_ifs <;> simp
  steps_le _ _ _ _ := le_rfl
  gets_on out _ _ availOut h _ hroom := by
    have hlong : ¬ out.length ≤ availOut := fun hle => h (if_pos hle)
    rcases hroom with hroom | hrunning
    · refine Or.inl fun hnil => ?_
      have hlength := congrArg List.length hnil
      rw [List.length_take, List.length_nil] at hlength
      omega
    · simp [hlong] at hrunning

/-- A signature of three bytes, where one message finds room in each call. -/
theorem doStuffToSend_sends_small :
    ∃ n s, rounds (stuffRound writer.toJob) n (fun _ => { room := 1, read := some 99 })
      (changedFile { cmd := .file, path := some [97] } true [7] 64 [1, 2, 3]) = .inr (s, .all) :=
  (doStuffToSend_sends writer [1, 2, 3] { cmd := .file, path := some [97] } true [7]
    (by decide) (by simp)).2.2 fun n => ⟨n, le_rfl, Nat.one_pos⟩

end Burp.Phase2
