/-
  Burp.Status.WriteStatus — the line of a child is written into the pipe to its parent (handy.c).

  `write_status` keeps the line in a static buffer of 1024 bytes, and moves a pointer along with
  what the writes return.  The result of a write is kept in a `size_t`, which is never below
  zero: an error is not noticed, and adding it moves the pointer one byte back.

  Main results:
    * `statusLine_spec` — the lines that there can be.
    * `sent_of_taken` — a line whose writes all take something is written once.
    * `writeStatus_ends` — so a call without errors ends.
    * `write_status_once_iff` — and no other line is, whatever the writes return.
-/
import Burp.Status.Counters
import Burp.Store.RoundTrip
import Burp.Stream.Rounds
import Burp.Stream.ShortWrites
import Burp.Text.Scan
import Mathlib.Algebra.BigOperators.Group.Finset.Basic

namespace Burp.Status

open FileSystem Burp.Store
open Burp.ShortWrites (Wrote)
open Burp.Text (decimal decimalInt)
open Rounds (rounds rounds_succ_inl rounds_succ_inr rounds_add_inl rounds_add_inr rounds_result)

/-! ## §1. The code. -/

/-- `sizeof(wbuf)`. -/
def wbufSize : Nat := 1024

/-- What `counters_to_str` puts into `wbuf`. -/
def statusLine (client : Bytes) (phase : Phase) (path : Option Bytes) (p1cntr cntr : Cntr) :
    Bytes :=
  countersToStr wbufSize (cString client) phase (path.map cString) p1cntr cntr

/-- `wbuf` with a line in it: behind the NUL there is what was there before. -/
def fill (wbuf line : Bytes) : Bytes := line ++ 0 :: wbuf.drop (line.length + 1)

/-- Where the loop is: `w` as an offset into `wbuf`, what the pipe has been given, and whether
`status_wfd` is open. -/
structure Sending where
  w : Int
  written : Bytes
  isOpen : Bool

/-- How the loop ends.  It does not if the pointer has left `wbuf`. -/
inductive Ending
  | ended (written : Bytes) (isOpen : Bool)
  | outside

/-- What `write` returns, as a `size_t`. -/
def sizeOf (requested : Nat) : Wrote → Nat
  | .count n => min requested n
  | .failed => 2 ^ 64 - 1

/-- How many bytes it takes, at most. -/
def takenOf : Wrote → Nat
  | .count n => n
  | .failed => 0

@[simp] theorem takenOf_count (n : Nat) : takenOf (.count n) = n := rfl
@[simp] theorem takenOf_failed : takenOf .failed = 0 := rfl

/-- One round of the loop, where `r` is what its `write` returns. -/
def statusStep (wbuf : Bytes) (r : Wrote) (s : Sending) : Sending ⊕ Ending :=
  if s.w < 0 then .inr .outside
  else
    match Text.strlen wbuf s.w.toNat with
    | none => .inr .outside
    -- `*w` is the NUL
    | some 0 => .inr (.ended s.written s.isOpen)
    | some (n + 1) =>
        let wl := sizeOf (n + 1) r
        -- error writing status down pipe to server
        if wl < 0 then .inr (.ended s.written false)
        else
          .inl { s with
            w := (s.w + wl).bmod (2 ^ 64)
            written := s.written ++ (wbuf.drop s.w.toNat).take (min (n + 1) (takenOf r)) }

/-- The loop of `write_status` after so many rounds. -/
def statusLoop (wbuf : Bytes) (n : Nat) (results : Nat → Wrote) : Sending ⊕ Ending :=
  rounds (statusStep wbuf) n results ⟨0, [], true⟩

/-- The static variables. -/
structure Statics where
  lasttime : Int
  wbuf : Bytes

/-- `write_status` after so many rounds of its loop. -/
def writeStatus (n : Nat) (results : Nat → Wrote) (isOpen : Bool) (client : Option Bytes)
    (phase : Phase) (path : Option Bytes) (p1cntr cntr : Cntr) (now : Int) (st : Statics) :
    Statics × (Sending ⊕ Ending) :=
  match client with
  | none => (st, .inr (.ended [] isOpen))
  | some client =>
      if isOpen = false then (st, .inr (.ended [] isOpen))
      -- Only update every 2 seconds.
      else if now - st.lasttime < 2 then
        ({ st with lasttime := if now - st.lasttime < 0 then now else st.lasttime },
          .inr (.ended [] isOpen))
      else
        let wbuf := fill st.wbuf (statusLine client phase path p1cntr cntr)
        ({ lasttime := now, wbuf := wbuf }, statusLoop wbuf n results)

/-! ## §2. The lines. -/

/-- A line that can be in `wbuf`. -/
structure IsStatusLine (line : Bytes) : Prop where
  ne_nil : line ≠ []
  not_mem : 0 ∉ line
  length_lt : line.length < wbufSize

theorem zero_notMem_counted {phase : Phase} {p1cntr cntr : Cntr} {w : Bytes}
    (h : w ∈ counted phase p1cntr cntr) : 0 ∉ w := by
  have hdec : ∀ n, 0 ∉ decimal n := fun n => not_mem_decimal (by decide)
  unfold counted at h
  simp only [List.cons_append, List.mem_cons, List.mem_append, List.not_mem_nil, or_false] at h
  rcases h with rfl | rfl | rfl | h | rfl | rfl | rfl | rfl | rfl | rfl
  · decide
  · decide
  · cases phase <;> decide
  · obtain ⟨k, -, rfl⟩ := List.mem_map.mp h
    unfold group five
    simp [hdec]
  · exact hdec _
  · exact hdec _
  · exact hdec _
  · exact hdec _
  · exact hdec _
  · unfold decimalInt
    split_ifs
    · simp [hdec]
    · exact hdec _

theorem zero_notMem_line {client : Bytes} {path : Option Bytes} (hclient : 0 ∉ client)
    (hpath : 0 ∉ path.getD []) (phase : Phase) (p1cntr cntr : Cntr) :
    0 ∉ line client phase path p1cntr cntr := by
  unfold line Text.join
  rw [List.mem_append, List.mem_append, List.mem_singleton]
  rintro (h | h | h)
  · obtain ⟨w, hw, hz⟩ := List.mem_flatMap.mp h
    rcases List.mem_append.mp hz with hz | hz
    · rw [columns_eq, List.mem_cons] at hw
      rcases hw with rfl | hw
      · exact hclient hz
      · exact zero_notMem_counted hw hz
    · exact absurd (List.mem_singleton.mp hz) (by decide)
  · exact hpath h
  · exact absurd h (by decide)

/-- **The lines that there can be**: text without a NUL that fits into `wbuf`. -/
theorem statusLine_spec (client : Bytes) (phase : Phase) (path : Option Bytes)
    (p1cntr cntr : Cntr) : IsStatusLine (statusLine client phase path p1cntr cntr) := by
  have hpath : 0 ∉ (path.map cString).getD [] := by
    cases path with
    | none => exact List.not_mem_nil
    | some path => exact zero_notMem_cString path
  have hline := zero_notMem_line (zero_notMem_cString client) hpath phase p1cntr cntr
  unfold statusLine countersToStr
  dsimp only
  generalize hl : line (cString client) phase (path.map cString) p1cntr cntr = l at hline
  have hne : l ≠ [] := by
    rw [← hl]
    unfold line
    simp
  have htake : 0 ∉ l.take (wbufSize - 1) := fun h => hline (List.mem_of_mem_take h)
  have hlen : (l.take (wbufSize - 1)).length < wbufSize := by
    rw [List.length_take]
    unfold wbufSize
    omega
  have hpos : 0 < (l.take (wbufSize - 1)).length := by
    have := List.length_pos_iff.mpr hne
    rw [List.length_take]
    unfold wbufSize
    omega
  split_ifs
  · exact ⟨List.length_pos_iff.mp hpos, htake, hlen⟩
  · -- cut off, with a newline for its last byte
    refine ⟨by simp, ?_, ?_⟩
    · rw [List.mem_append, List.mem_singleton]
      rintro (h | h)
      · exact htake ((List.dropLast_prefix _).subset h)
      · exact absurd h (by decide)
    · rw [List.length_append, List.length_dropLast, List.length_singleton]
      omega

/-! ## §3. One round. -/

variable {line : Bytes} (wbuf : Bytes)

theorem strlen_fill (h : IsStatusLine line) {i : Nat} (hi : i ≤ line.length) :
    Text.strlen (fill wbuf line) i = some (line.length - i) := by
  have hsplit : fill wbuf line
      = line.take i ++ (line.drop i ++ 0 :: wbuf.drop (line.length + 1)) := by
    rw [← List.append_assoc, List.take_append_drop]
    rfl
  have hlen : (line.take i).length = i := List.length_take_of_le hi
  have hstr := Text.strlen_eq (a := line.take i) (b := wbuf.drop (line.length + 1))
    (w := line.drop i) fun hm => h.not_mem (List.mem_of_mem_drop hm)
  rw [hlen, ← hsplit, List.length_drop] at hstr
  exact hstr

/-- At the end of the line the loop ends. -/
theorem statusStep_end (h : IsStatusLine line) (r : Wrote) {s : Sending}
    (hw : s.w = line.length) :
    statusStep (fill wbuf line) r s = .inr (.ended s.written s.isOpen) := by
  unfold statusStep
  rw [if_neg (by omega), hw, Int.toNat_natCast, strlen_fill wbuf h le_rfl, Nat.sub_self]

/-- Where the pointer is moved to: after an error by one byte, and back. -/
theorem pointer_step {i n : Nat} (h : i + n < 2 ^ 62) (r : Wrote) :
    ((i : Int) + (sizeOf n r : Nat)).bmod (2 ^ 64)
      = if r = .failed then (i : Int) - 1 else (i + min n (takenOf r) : Nat) := by
  cases r with
  | count c =>
      rw [if_neg (by simp)]
      unfold sizeOf Int.bmod
      rw [takenOf_count]
      dsimp only
      split_ifs <;> omega
  | failed =>
      rw [if_pos rfl]
      unfold sizeOf Int.bmod
      dsimp only
      split_ifs <;> omega

/-- Before that a write takes something from where the pointer is, or nothing. -/
theorem statusStep_go (h : IsStatusLine line) (r : Wrote) {s : Sending} {i : Nat}
    (hw : s.w = i) (hi : i < line.length) :
    statusStep (fill wbuf line) r s = .inl
      ⟨if r = .failed then (i : Int) - 1 else (i + min (line.length - i) (takenOf r) : Nat),
        s.written ++ (line.drop i).take (takenOf r), s.isOpen⟩ := by
  have hlt := h.length_lt
  unfold wbufSize at hlt
  obtain ⟨n, hn⟩ : ∃ n, line.length - i = n + 1 := ⟨line.length - i - 1, by omega⟩
  have hdrop : ((fill wbuf line).drop i).take (min (n + 1) (takenOf r))
      = (line.drop i).take (takenOf r) := by
    unfold fill
    rw [List.drop_append_of_le_length (by omega), List.take_append_of_le_length
      (by rw [List.length_drop]; omega), ← hn, Nat.min_comm, ← List.length_drop, ← List.take_take,
      List.take_length]
  unfold statusStep
  rw [if_neg (by omega), hw, Int.toNat_natCast, strlen_fill wbuf h (by omega), hn]
  dsimp only
  rw [if_neg (Nat.not_lt_zero _), hdrop, pointer_step (by omega)]

/-! ## §4. A line whose writes take something. -/

/-- How much writes take that come before number `k`. -/
def sentBefore (results : Nat → Wrote) (k : Nat) : Nat :=
  ∑ j ∈ Finset.range k, takenOf (results j)

theorem sentBefore_zero (results : Nat → Wrote) : sentBefore results 0 = 0 := rfl

theorem sentBefore_succ (results : Nat → Wrote) (k : Nat) :
    sentBefore results (k + 1)
      = sentBefore (fun j => results (j + 1)) k + takenOf (results 0) :=
  Finset.sum_range_succ' _ _

theorem sentBefore_mono (results : Nat → Wrote) {j k : Nat} (h : j ≤ k) :
    sentBefore results j ≤ sentBefore results k :=
  Finset.sum_le_sum_of_subset (Finset.range_mono h)

/-- Every write takes something, or fails. -/
def Takes (results : Nat → Wrote) : Prop := ∀ k n, results k = .count n → 1 ≤ n

theorem Takes.tail {results : Nat → Wrote} (h : Takes results) :
    Takes fun k => results (k + 1) := fun k => h (k + 1)

/-- The state in which `i` bytes of a line have been sent. -/
def sent (line : Bytes) (i : Nat) : Sending := ⟨i, line.take i, true⟩

/-- A write that takes something sends more of the line. -/
theorem statusStep_sent (h : IsStatusLine line) {i c : Nat} (hi : i < line.length) :
    statusStep (fill wbuf line) (.count c) (sent line i)
      = .inl (sent line (i + min (line.length - i) c)) := by
  rw [statusStep_go wbuf h (.count c) rfl hi, if_neg (by simp), takenOf_count]
  unfold sent
  congr 2
  rw [← List.take_add]
  by_cases hc : c ≤ line.length - i
  · rw [Nat.min_eq_right hc]
  · rw [Nat.min_eq_left (by omega), List.take_of_length_le (by omega),
      List.take_of_length_le (by omega)]

/-- **Sent once**: the loop goes through states in which some of the line has been sent, and ends
with all of it. -/
theorem sent_of_taken (h : IsStatusLine line) {results : Nat → Wrote} (htakes : Takes results)
    {i : Nat} (hi : i ≤ line.length)
    (hfailed : ∀ k, results k = .failed → line.length - i ≤ sentBefore results k) :
    ∃ N,
      (∀ n, n ≤ N → ∃ j, j ≤ line.length
        ∧ rounds (statusStep (fill wbuf line)) n results (sent line i) = .inl (sent line j))
      ∧ rounds (statusStep (fill wbuf line)) (N + 1) results (sent line i)
        = .inr (.ended line true) := by
  -- on how much is left
  induction hleft : line.length - i using Nat.strong_induction_on generalizing i results with
  | _ left ih =>
      by_cases hend : i = line.length
      · refine ⟨0, fun n hn => ⟨i, hi, ?_⟩, ?_⟩
        · rw [Nat.le_zero.mp hn]
          rfl
        · have hstep := statusStep_end wbuf h (results 0) (s := sent line i)
            (by rw [hend]; rfl)
          rw [rounds_succ_inr hstep]
          show Sum.inr (Ending.ended (line.take i) true) = _
          rw [hend, List.take_length]
      · have hlt : i < line.length := by omega
        cases hr : results 0 with
        | failed =>
            have := hfailed 0 hr
            rw [sentBefore_zero] at this
            omega
        | count c =>
            have hc := htakes 0 c hr
            have hstep : statusStep (fill wbuf line) (results 0) (sent line i)
                = .inl (sent line (i + min (line.length - i) c)) := by
              rw [hr]
              exact statusStep_sent wbuf h hlt
            obtain ⟨N, hgo, hN⟩ := ih (line.length - (i + min (line.length - i) c)) (by omega)
              htakes.tail (by omega) (fun k hk => by
                have := hfailed (k + 1) hk
                rw [sentBefore_succ, hr, takenOf_count] at this
                omega) rfl
            refine ⟨N + 1, fun n hn => ?_, ?_⟩
            · cases n with
              | zero => exact ⟨i, hi, rfl⟩
              | succ n =>
                  rw [rounds_succ_inl hstep]
                  exact hgo n (by omega)
            · rw [rounds_succ_inl hstep]
              exact hN

/-- **A call whose writes do not fail ends**, and has written its line, or nothing. -/
theorem writeStatus_ends {results : Nat → Wrote} (htakes : Takes results)
    (hgood : ∀ k, results k ≠ .failed) (isOpen : Bool) (client : Option Bytes) (phase : Phase)
    (path : Option Bytes) (p1cntr cntr : Cntr) (now : Int) (st : Statics) :
    ∃ n written,
      (writeStatus n results isOpen client phase path p1cntr cntr now st).2
        = .inr (.ended written isOpen)
      ∧ (written = [] ∨ ∃ c ∈ client, written = statusLine c phase path p1cntr cntr) := by
  unfold writeStatus
  cases client with
  | none => exact ⟨0, [], rfl, .inl rfl⟩
  | some client =>
      dsimp only
      cases isOpen with
      | false => exact ⟨0, [], rfl, .inl rfl⟩
      | true =>
          simp only [Bool.true_eq_false, if_false]
          by_cases hsoon : now - st.lasttime < 2
          · exact ⟨0, [], by simp only [if_pos hsoon], .inl rfl⟩
          · obtain ⟨N, -, hN⟩ := sent_of_taken st.wbuf
              (statusLine_spec client phase path p1cntr cntr) htakes (Nat.zero_le _)
              (fun k hk => (hgood k hk).elim)
            refine ⟨N + 1, _, ?_, .inr ⟨client, rfl, rfl⟩⟩
            simp only [if_neg hsoon]
            exact hN

/-! ## §5. A line one of whose writes fails. -/

/-- More has been written than the pointer says. -/
structure Behind (line : Bytes) (s : Sending) : Prop where
  isOpen : s.isOpen = true
  w_lt : s.w < s.written.length
  w_le : s.w ≤ line.length

/-- What can come of that: the pointer leaves the buffer, or too much is written. -/
def TooMuch (line : Bytes) (r : Ending) : Prop :=
  r = .outside ∨ ∃ written, r = .ended written true ∧ line.length < written.length

theorem behind_step (h : IsStatusLine line) {r : Wrote} {s : Sending} (hs : Behind line s) :
    (∀ s', statusStep (fill wbuf line) r s = .inl s' → Behind line s')
      ∧ ∀ e, statusStep (fill wbuf line) r s = .inr e → TooMuch line e := by
  have hle := hs.w_le
  have hlt := hs.w_lt
  by_cases hneg : s.w < 0
  · have hout : statusStep (fill wbuf line) r s = .inr .outside := if_pos hneg
    rw [hout]
    exact ⟨fun s' hs' => (by cases hs'), fun e he => .inl (Sum.inr.inj he).symm⟩
  obtain ⟨i, hi⟩ := Int.eq_ofNat_of_zero_le (Int.not_lt.mp hneg)
  rw [hi] at hle hlt
  by_cases hend : i = line.length
  · rw [statusStep_end wbuf h r (by rw [hi, hend]), hs.isOpen]
    refine ⟨fun s' hs' => (by cases hs'), fun e he => .inr ⟨s.written, ?_, by omega⟩⟩
    exact (Sum.inr.inj he).symm
  · rw [statusStep_go wbuf h r hi (by omega)]
    refine ⟨fun s' hs' => ?_, fun e he => (by cases he)⟩
    rw [← Sum.inl.inj hs']
    have hlen : (s.written ++ (line.drop i).take (takenOf r)).length
        = s.written.length + min (takenOf r) (line.length - i) := by
      rw [List.length_append, List.length_take, List.length_drop]
    -- the pointer and the pipe go on by the same, or the pointer goes back
    refine ⟨hs.isOpen, ?_, ?_⟩
    · show (if r = .failed then (i : Int) - 1 else _) < _
      rw [hlen]
      split_ifs <;> omega
    · show (if r = .failed then (i : Int) - 1 else _) ≤ _
      split_ifs <;> omega

/-- The first write that fails, if there is more to send. -/
theorem behind_of_failed (h : IsStatusLine line) {results : Nat → Wrote} {k i : Nat}
    (hk : results k = .failed) (hfirst : ∀ j, j < k → results j ≠ .failed)
    (hi : i + sentBefore results k < line.length) :
    ∃ s, rounds (statusStep (fill wbuf line)) (k + 1) results (sent line i) = .inl s
      ∧ Behind line s := by
  induction k generalizing i results with
  | zero =>
      rw [sentBefore_zero, Nat.add_zero] at hi
      have hstep := statusStep_go wbuf h (results 0) (s := sent line i) rfl hi
      refine ⟨_, rounds_succ_inl hstep, rfl, ?_, ?_⟩
      · rw [if_pos hk]
        show (i : Int) - 1
          < ((line.take i ++ (line.drop i).take (takenOf (results 0))).length : Int)
        rw [List.length_append, List.length_take]
        omega
      · rw [if_pos hk]
        show (i : Int) - 1 ≤ line.length
        omega
  | succ k ih =>
      rw [sentBefore_succ] at hi
      cases hr : results 0 with
      | failed => exact (hfirst 0 (Nat.succ_pos k) hr).elim
      | count c =>
          rw [hr, takenOf_count] at hi
          have hstep : statusStep (fill wbuf line) (results 0) (sent line i)
              = .inl (sent line (i + min (line.length - i) c)) := by
            rw [hr]
            exact statusStep_sent wbuf h (by omega)
          rw [rounds_succ_inl hstep]
          exact ih hk (fun j hj => hfirst (j + 1) (by omega)) (by omega)

/-! ## §6. Once. -/

/-- The line is written once: the pointer stays in the buffer, what has been written is the
beginning of the line, and the loop ends after the whole line, or at the first error with the
pipe closed. -/
structure SentOnce (wbuf line : Bytes) (results : Nat → Wrote) : Prop where
  inside : ∀ n s, statusLoop (fill wbuf line) n results = .inl s → 0 ≤ s.w ∧ s.w < wbufSize
  in_order : ∀ n s, statusLoop (fill wbuf line) n results = .inl s → s.written <+: line
  ends : ∃ n written isOpen,
    statusLoop (fill wbuf line) n results = .inr (.ended written isOpen)
      ∧ (written = line ∨ isOpen = false ∧ ∃ k, results k = .failed
          ∧ (∀ j, j < k → results j ≠ .failed) ∧ written = line.take (sentBefore results k))

theorem statusLoop_eq (line : Bytes) (n : Nat) (results : Nat → Wrote) :
    statusLoop (fill wbuf line) n results
      = rounds (statusStep (fill wbuf line)) n results (sent line 0) := rfl

theorem sentOnce_iff (h : IsStatusLine line) {results : Nat → Wrote} (htakes : Takes results) :
    SentOnce wbuf line results
      ↔ ∀ k, results k = .failed → line.length ≤ sentBefore results k := by
  constructor
  · intro hsent
    by_contra hno
    push Not at hno
    obtain ⟨k, hk, hshort⟩ := hno
    -- the first one that fails
    have hex : ∃ k, results k = .failed := ⟨k, hk⟩
    have hle : Nat.find hex ≤ k := Nat.find_min' hex hk
    have hbefore := sentBefore_mono results hle
    have hmore : 0 + sentBefore results (Nat.find hex) < line.length := by omega
    obtain ⟨s, hs, hbehind⟩ := behind_of_failed wbuf h (Nat.find_spec hex)
      (fun j hj => Nat.find_min hex hj) hmore
    obtain ⟨n, written, isOpen, hend, hright⟩ := hsent.ends
    rw [statusLoop_eq] at hend
    rcases Nat.lt_or_ge n (Nat.find hex + 1) with hlt | hge
    · -- the loop has not ended before that
      obtain ⟨m, hm⟩ := Nat.exists_eq_add_of_le hlt.le
      rw [hm, rounds_add_inr hend] at hs
      cases hs
    · obtain ⟨m, hm⟩ := Nat.exists_eq_add_of_le hge
      rw [hm, rounds_add_inl hs] at hend
      -- from there on the pointer stays behind the pipe
      have hrun := rounds_result (statusStep (fill wbuf line)) (fun _ => True)
        (I := Behind line) (Q := TooMuch line)
        (fun r s s' _ hs hstep => (behind_step wbuf h hs).1 s' hstep)
        (fun r s e _ hs hstep => (behind_step wbuf h hs).2 e hstep)
        (n := m) (o := fun j => results (Nat.find hex + 1 + j)) (fun _ => trivial) hbehind
      rcases hrun.1 _ hend with hout | ⟨written', heq, hmore⟩
      · cases hout
      · rw [Ending.ended.injEq] at heq
        rcases hright with hline | ⟨hclosed, -⟩
        · rw [← heq.1, hline] at hmore
          exact lt_irrefl _ hmore
        · rw [heq.2] at hclosed
          exact Bool.noConfusion hclosed
  · intro hfailed
    obtain ⟨N, hgo, hN⟩ := sent_of_taken wbuf h htakes (Nat.zero_le _)
      (fun k hk => by rw [Nat.sub_zero]; exact hfailed k hk)
    have hlt := h.length_lt
    -- on the way there is always some of the line that has been sent
    have hstate : ∀ n s, statusLoop (fill wbuf line) n results = .inl s →
        ∃ j, j ≤ line.length ∧ s = sent line j := by
      intro n s hs
      rcases Nat.lt_or_ge N n with hlt | hle
      · obtain ⟨m, hm⟩ := Nat.exists_eq_add_of_lt hlt
        rw [statusLoop_eq, show n = N + 1 + m by omega, rounds_add_inr hN] at hs
        cases hs
      · obtain ⟨j, hj, hrounds⟩ := hgo n hle
        exact ⟨j, hj, Sum.inl.inj (hs.symm.trans hrounds)⟩
    refine ⟨fun n s hs => ?_, fun n s hs => ?_, N + 1, line, true, hN, .inl rfl⟩
    · obtain ⟨j, hj, rfl⟩ := hstate n s hs
      unfold sent
      dsimp only
      omega
    · obtain ⟨j, -, rfl⟩ := hstate n s hs
      exact List.take_prefix j line

/-- **The status line is written once** exactly if no write fails before all of it is written,
for every line that there can be and whatever the writes return. -/
theorem write_status_once_iff (client : Bytes) (phase : Phase) (path : Option Bytes)
    (p1cntr cntr : Cntr) {results : Nat → Wrote} (htakes : Takes results) :
    SentOnce wbuf (statusLine client phase path p1cntr cntr) results
      ↔ ∀ k, results k = .failed →
          (statusLine client phase path p1cntr cntr).length ≤ sentBefore results k :=
  sentOnce_iff wbuf (statusLine_spec client phase path p1cntr cntr) htakes

/-- Writes that take everything. -/
def wholeResults : Nat → Wrote := fun _ => .count wbufSize

theorem takes_wholeResults : Takes wholeResults := by
  intro k n hn
  rw [← Wrote.count.inj hn]
  decide

theorem write_status_once_whole :
    SentOnce [] (statusLine [97] .backup none (resetFilecounter 0) (resetFilecounter 0))
        wholeResults
      ↔ ∀ k, wholeResults k = .failed →
        (statusLine [97] .backup none (resetFilecounter 0) (resetFilecounter 0)).length
          ≤ sentBefore wholeResults k :=
  write_status_once_iff [] [97] .backup none (resetFilecounter 0) (resetFilecounter 0)
    takes_wholeResults

/-- Writes that all fail. -/
def failedResults : Nat → Wrote := fun _ => .failed

/-- The first of them moves the pointer before the buffer. -/
theorem write_status_failed : Takes failedResults
    ∧ ¬ SentOnce [] (statusLine [97] .backup none (resetFilecounter 0) (resetFilecounter 0))
      failedResults := by
  refine ⟨fun k n hn => (by cases hn), fun h => ?_⟩
  have hspec := statusLine_spec [97] .backup none (resetFilecounter 0) (resetFilecounter 0)
  generalize statusLine [97] .backup none (resetFilecounter 0) (resetFilecounter 0) = line at *
  have hlen := List.length_pos_iff.mpr hspec.ne_nil
  have hstep := statusStep_go [] hspec (failedResults 0) (s := sent line 0) rfl hlen
  have hinside := (h.inside 1 _ (rounds_succ_inl (n := 0) hstep)).1
  rw [if_pos (show failedResults 0 = .failed from rfl)] at hinside
  have hback : (0 : Int) ≤ 0 - 1 := hinside
  omega

end Burp.Status
