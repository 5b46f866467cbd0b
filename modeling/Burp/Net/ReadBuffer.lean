/-
  Burp.Net.ReadBuffer — the memory of the read buffer.

  `do_read` stores what has come behind the first `readbuflen` bytes, and a NUL behind that.
  `parse_readbuf` scans the header as a string, copies the text out, and moves what follows to
  the front.  Behind `readbuflen` the memory stays as it was.  There is no place for the NUL
  once a read has filled the buffer; and the number of a header plus 5 is an `unsigned int`.

  Main results:
    * `parse_bytes` — how the memory refines the list of bytes that `async_rw` is about.
    * `call_fits_iff` — the stores of one call.
    * `readbuf_fits_iff` — the stores of all calls, and the buffer never full.
-/
import Burp.Net.Async

namespace Burp.Net

open FileSystem Burp.Store

/-! ## §1. The code. -/

/-- The read buffer: all that has been allocated, and how much of it has been read. -/
structure ReadBuf where
  mem : Bytes
  readbuflen : Nat := 0

/-- A store of `count` bytes from `start` on, where `size` bytes have been allocated. -/
structure Stored where
  size : Nat
  start : Nat
  count : Nat

def Stored.Fits (s : Stored) : Prop := s.start + s.count ≤ s.size

/-- How a call ends. -/
inductive Ended
  | error
  | nothing
  | message (cmd : UInt8) (text : Bytes)
  deriving DecidableEq

/-- What a call does. -/
structure Made where
  after : ReadBuf
  stores : List Stored := []
  ended : Ended := .nothing

namespace ReadBuf

/-- The bytes that have been read and not been taken. -/
def bytes (b : ReadBuf) : Bytes := b.mem.take b.readbuflen

/-- `truncate_buf`, where a call fails. -/
def truncateBuf (b : ReadBuf) : Made where
  after := { mem := 0 :: b.mem.drop 1 }
  stores := [⟨readbufmaxsize, 0, 1⟩]
  ended := .error

/-- What `malloc` has given, after `async_alloc_buf`. -/
def asyncAllocBuf (mem : Bytes) : ReadBuf where
  mem := 0 :: mem.drop 1

/-- `parse_readbuf`.  The string that is scanned may go on behind `readbuflen`. -/
def parseReadbuf (b : ReadBuf) : Made :=
  if b.readbuflen < 5 then { after := b }
  else
    match scanHeader b.mem with
    | none => b.truncateBuf
    | some (cmd, s) =>
        if (s + 5) % 2 ^ 32 ≤ b.readbuflen then
          -- the length of the move is a `size_t`
          let moved := (b.readbuflen + 2 ^ 64 - (s + 5)) % 2 ^ 64
          { after :=
              { mem := (b.mem.drop (s + 5)).take moved ++ b.mem.drop moved
                readbuflen := b.readbuflen - (s + 5) % 2 ^ 32 }
            stores := [⟨(s + 1) % 2 ^ 32, 0, s + 1⟩, ⟨readbufmaxsize, 0, moved⟩]
            ended := .message cmd ((b.mem.drop 5).take s) }
        else { after := b }

/-- `do_read`.  `SSL_read` takes what there is room for, at most. -/
def doRead (r : SslRead) (b : ReadBuf) : Made :=
  match r with
  | .data came =>
      let came := came.take (readbufmaxsize - b.readbuflen)
      let readbuflen := b.readbuflen + came.length
      { after :=
          { mem := b.mem.take b.readbuflen ++ came ++ 0 :: b.mem.drop (readbuflen + 1)
            readbuflen := readbuflen }
        stores := [⟨readbufmaxsize, b.readbuflen, came.length⟩, ⟨readbufmaxsize, readbuflen, 1⟩] }
  | .wantRead | .wantWrite | .again => { after := b }
  | .problem => b.truncateBuf

/-- The calls on the read buffer. -/
inductive Call
  | parse
  | read (r : SslRead)

def call : Call → ReadBuf → Made
  | .parse, b => b.parseReadbuf
  | .read r, b => b.doRead r

/-- The calls of one `async_rw` that has somewhere to read to: a message that is there is taken,
and if there is none and `select` finds something to read, that is read first. -/
def asyncRw (read : Option SslRead) (b : ReadBuf) : List Call :=
  match b.parseReadbuf.ended, read with
  | .nothing, some r =>
      if (doRead r b.parseReadbuf.after).ended = .error then [.parse, .read r]
      else [.parse, .read r, .parse]
  | _, _ => [.parse]

def after : List Call → ReadBuf → ReadBuf
  | [], b => b
  | c :: cs, b => after cs (call c b).after

/-- The calls of one `async_rw` after the other. -/
def calls : List (Option SslRead) → ReadBuf → List Call
  | [], _ => []
  | read :: reads, b => asyncRw read b ++ calls reads (after (asyncRw read b) b)

/-! ## §2. What a run has to keep to. -/

/-- Every store is in memory that has been allocated, and a full buffer gives a message or
an error. -/
def Fits : List Call → ReadBuf → Prop
  | [], _ => True
  | c :: cs, b =>
      (∀ s ∈ (call c b).stores, s.Fits)
        ∧ (c = .parse → b.readbuflen = readbufmaxsize → b.parseReadbuf.ended ≠ .nothing)
        ∧ Fits cs (call c b).after

/-- A read leaves room for the NUL; the number of a header is not one of the last five of
an `unsigned int`. -/
def Keeps (b : ReadBuf) : Call → Prop
  | .read (.data came) => b.readbuflen + came.length < readbufmaxsize
  | .read _ => True
  | .parse =>
      ∀ cmd s, 5 ≤ b.readbuflen → scanHeader b.mem = some (cmd, s) → s + 5 < 2 ^ 32

def AllKeep : List Call → ReadBuf → Prop
  | [], _ => True
  | c :: cs, b => b.Keeps c ∧ AllKeep cs (call c b).after

/-! ## §3. The bytes in the memory. -/

/-- With a NUL behind what has been read, as `do_read` leaves it, nothing else is scanned. -/
theorem scanHeader_terminated {b : ReadBuf} (h : b.mem[b.readbuflen]? = some 0) :
    scanHeader b.mem = scanHeader b.bytes := by
  obtain ⟨hlt, hnul⟩ := List.getElem?_eq_some_iff.mp h
  have hsplit : b.mem = b.bytes ++ 0 :: b.mem.drop (b.readbuflen + 1) := by
    conv_lhs => rw [← List.take_append_drop b.readbuflen b.mem]
    rw [List.drop_eq_getElem_cons hlt, hnul]
    rfl
  unfold scanHeader
  rw [hsplit, cString_append_nul]

/-- Behind a message the memory is not cleared, but a header is scanned without what follows. -/
theorem scanHeader_message {b : ReadBuf} {cmd : UInt8} (hcmd : cmd ≠ 0) {n : Nat} (hn : n < 65536)
    {rest : Bytes} (h : b.bytes = cmd :: hex4 n ++ rest) :
    scanHeader b.mem = scanHeader b.bytes := by
  have hmem : b.mem = cmd :: hex4 n ++ (rest ++ b.mem.drop b.readbuflen) := by
    rw [← List.append_assoc, ← h]
    exact (List.take_append_drop b.readbuflen b.mem).symm
  rw [h, hmem, scanHeader_frame hcmd hn, scanHeader_frame hcmd hn]

/-- **What `parse_readbuf` does to the memory** it does to the bytes that have been read, where
it scans nothing else. -/
theorem parse_bytes {b : ReadBuf} (hlen : b.bytes.length = b.readbuflen)
    (hscan : scanHeader b.mem = scanHeader b.bytes) (hkeeps : b.Keeps .parse)
    (hroom : b.readbuflen < readbufmaxsize) :
    match Net.parseReadbuf b.bytes with
    | .error => b.parseReadbuf.ended = .error ∧ b.parseReadbuf.after.bytes = []
    | .nothing => b.parseReadbuf.ended = .nothing ∧ b.parseReadbuf.after = b
    | .message cmd text rest =>
        b.parseReadbuf.ended = .message cmd text ∧ b.parseReadbuf.after.bytes = rest := by
  unfold Net.parseReadbuf parseReadbuf
  rw [hlen, hscan]
  by_cases hshort : b.readbuflen < 5
  · rw [if_pos hshort, if_pos hshort]
    exact ⟨rfl, rfl⟩
  · rw [if_neg hshort, if_neg hshort]
    cases hheader : scanHeader b.bytes with
    | none => exact ⟨rfl, rfl⟩
    | some header =>
        obtain ⟨cmd, s⟩ := header
        have hs : s + 5 < 2 ^ 32 := hkeeps cmd s (by omega) (by rw [hscan, hheader])
        by_cases hwhole : (s + 5) % 2 ^ 32 ≤ b.readbuflen
        · simp only [if_pos hwhole]
          rw [Nat.mod_eq_of_lt hs] at hwhole
          have hmoved : (b.readbuflen + 2 ^ 64 - (s + 5)) % 2 ^ 64 = b.readbuflen - (s + 5) := by
            have hsub : b.readbuflen + 2 ^ 64 - (s + 5) = b.readbuflen - (s + 5) + 2 ^ 64 := by
              omega
            have hmax : b.readbuflen < 2 ^ 64 := by
              simp only [readbufmaxsize, asyncBufLen] at hroom
              omega
            rw [hsub, Nat.add_mod_right, Nat.mod_eq_of_lt (by omega)]
          refine ⟨?_, ?_⟩
          · unfold bytes
            rw [List.drop_take, List.take_take, min_eq_left (by omega)]
          · unfold bytes
            simp only [hmoved, Nat.mod_eq_of_lt hs]
            rw [List.take_left', List.drop_take]
            have hle := List.length_take_le b.readbuflen b.mem
            simp only [bytes, List.length_take] at hlen
            simp only [List.length_take, List.length_drop]
            omega
        · simp only [if_neg hwhole, and_self]

/-- `do_read` on the bytes that have been read, if there was room. -/
theorem doRead_bytes {b : ReadBuf} {r : SslRead} (hr : r ≠ .problem)
    (hlen : b.bytes.length = b.readbuflen)
    (hroom : b.readbuflen + r.bytes.length ≤ readbufmaxsize) :
    (b.doRead r).ended = .nothing ∧ (b.doRead r).after.bytes = b.bytes ++ r.bytes := by
  cases r with
  | data came =>
      refine ⟨rfl, ?_⟩
      have htake : came.take (readbufmaxsize - b.readbuflen) = came := by
        refine List.take_of_length_le ?_
        simp only [SslRead.bytes] at hroom
        omega
      unfold doRead
      simp only [bytes, htake] at hlen ⊢
      rw [List.take_left']
      · rfl
      · rw [List.length_append, hlen]
  | problem => exact absurd rfl hr
  | wantRead | wantWrite | again => exact ⟨rfl, (List.append_nil _).symm⟩

/-! ## §4. The stores. -/

/-- A header has at most four characters for its number. -/
theorem scanHeader_lt {b : Bytes} {cmd : UInt8} {s : Nat} (h : scanHeader b = some (cmd, s)) :
    s < 2 ^ 32 := by
  unfold scanHeader at h
  cases hb : cString b with
  | nil => simp [hb] at h
  | cons c rest =>
      simp only [hb, Option.map_eq_some_iff, Prod.mk.injEq] at h
      obtain ⟨n, hn, -, rfl⟩ := h
      exact scanHex_lt (List.length_take_le 4 _) hn

theorem truncateBuf_fits (b : ReadBuf) : ∀ s ∈ b.truncateBuf.stores, s.Fits := by
  intro s hs
  obtain rfl := List.mem_singleton.mp hs
  show 0 + 1 ≤ readbufmaxsize
  decide

/-- The stores of `parse_readbuf`. -/
theorem parse_fits_iff {b : ReadBuf} (hroom : b.readbuflen < readbufmaxsize) :
    (∀ s ∈ b.parseReadbuf.stores, s.Fits) ↔ b.Keeps .parse := by
  have hmax : b.readbuflen < 32032 := hroom
  unfold parseReadbuf Keeps
  by_cases hshort : b.readbuflen < 5
  · simp only [if_pos hshort, List.not_mem_nil, false_imp_iff, implies_true, true_iff]
    intro cmd s hlong
    omega
  · rw [if_neg hshort]
    cases hheader : scanHeader b.mem with
    | none =>
        refine ⟨fun _ cmd s _ hsome => (by cases hsome), fun _ => truncateBuf_fits b⟩
    | some header =>
        obtain ⟨cmd, s⟩ := header
        have hs := scanHeader_lt hheader
        have hkeeps : (∀ cmd' s', 5 ≤ b.readbuflen → some (cmd, s) = some (cmd', s') →
            s' + 5 < 2 ^ 32) ↔ s + 5 < 2 ^ 32 := by
          refine ⟨fun h => h cmd s (by omega) rfl, ?_⟩
          intro h cmd' s' _ heq
          cases heq
          exact h
        rw [hkeeps]
        by_cases hwhole : (s + 5) % 2 ^ 32 ≤ b.readbuflen
        · simp only [if_pos hwhole, List.forall_mem_cons, List.not_mem_nil, false_imp_iff,
            implies_true, and_true, Stored.Fits, readbufmaxsize, asyncBufLen]
          omega
        · simp only [if_neg hwhole, List.not_mem_nil, false_imp_iff, implies_true, true_iff]
          omega

/-- The stores of `do_read`. -/
theorem read_fits_iff {b : ReadBuf} (hroom : b.readbuflen < readbufmaxsize) (r : SslRead) :
    (∀ s ∈ (b.doRead r).stores, s.Fits) ↔ b.Keeps (.read r) := by
  cases r with
  | data came =>
      simp only [doRead, List.forall_mem_cons, List.not_mem_nil, false_imp_iff, implies_true,
        and_true, Stored.Fits, Keeps, List.length_take]
      omega
  | problem => exact ⟨fun _ => trivial, fun _ => truncateBuf_fits b⟩
  | wantRead | wantWrite | again => simp [doRead, Keeps]

/-- **The stores of one call.** -/
theorem call_fits_iff {b : ReadBuf} (hroom : b.readbuflen < readbufmaxsize) (c : Call) :
    (∀ s ∈ (call c b).stores, s.Fits) ↔ b.Keeps c := by
  cases c with
  | parse => exact parse_fits_iff hroom
  | read r => exact read_fits_iff hroom r

/-- A call that keeps to it leaves room. -/
theorem call_room {b : ReadBuf} (hroom : b.readbuflen < readbufmaxsize) {c : Call}
    (h : b.Keeps c) : (call c b).after.readbuflen < readbufmaxsize := by
  have hempty : 0 < readbufmaxsize := by decide
  cases c with
  | parse =>
      unfold call parseReadbuf
      dsimp only
      split_ifs
      · exact hroom
      · split
        · exact hempty
        · split_ifs
          · exact lt_of_le_of_lt (Nat.sub_le _ _) hroom
          · exact hroom
  | read r =>
      cases r with
      | data came =>
          simp only [Keeps] at h
          simp only [call, doRead, List.length_take]
          omega
      | problem => exact hempty
      | wantRead | wantWrite | again => exact hroom

/-- Calls in any order. -/
theorem calls_fit_iff (cs : List Call) {b : ReadBuf} (hroom : b.readbuflen < readbufmaxsize) :
    Fits cs b ↔ AllKeep cs b := by
  induction cs generalizing b with
  | nil => exact Iff.rfl
  | cons c cs ih =>
      constructor
      · rintro ⟨hstores, -, hrest⟩
        have hkeeps := (call_fits_iff hroom c).mp hstores
        exact ⟨hkeeps, (ih (call_room hroom hkeeps)).mp hrest⟩
      · rintro ⟨hkeeps, hrest⟩
        refine ⟨(call_fits_iff hroom c).mpr hkeeps, ?_, (ih (call_room hroom hkeeps)).mpr hrest⟩
        intro _ hfull
        omega

/-- **When the buffer is neither overrun nor stuck**, whatever the memory was and whatever
comes. -/
theorem readbuf_fits_iff (mem : Bytes) (reads : List (Option SslRead)) :
    Fits (calls reads (asyncAllocBuf mem)) (asyncAllocBuf mem)
      ↔ AllKeep (calls reads (asyncAllocBuf mem)) (asyncAllocBuf mem) :=
  calls_fit_iff _ (show 0 < readbufmaxsize by decide)

/-! ## §5. A header that announces more than there is room for. -/

theorem allKeep_append (cs cs' : List Call) (b : ReadBuf) :
    AllKeep (cs ++ cs') b ↔ AllKeep cs b ∧ AllKeep cs' (after cs b) := by
  induction cs generalizing b with
  | nil => simp [AllKeep, after]
  | cons c cs ih => simp only [List.cons_append, AllKeep, after, ih, and_assoc]

/-- Where there is no message yet, `async_rw` reads and looks again. -/
theorem asyncRw_nothing {b : ReadBuf} (h : b.parseReadbuf = { after := b }) (came : Bytes) :
    asyncRw (some (.data came)) b = [.parse, .read (.data came), .parse] := by
  unfold asyncRw
  rw [h]
  rfl

/-- 16016 bytes, of which the first five say that 65535 are to come. -/
def announced : Bytes := 99 :: hex4 65535 ++ List.replicate 16011 120

/-- As many again. -/
def following : Bytes := List.replicate 16016 120

theorem length_announced : announced.length = 16016 := by
  unfold announced
  rw [List.length_append, List.length_replicate, List.length_cons, length_hex4]

theorem length_following : following.length = 16016 := List.length_replicate

/-- They are not a message yet. -/
theorem parse_announced (behind : Bytes) :
    parseReadbuf { mem := announced ++ behind, readbuflen := 16016 }
      = { after := { mem := announced ++ behind, readbuflen := 16016 } } := by
  have hheader : scanHeader (announced ++ behind) = some (99, 65535) := by
    unfold announced
    rw [List.append_assoc]
    exact scanHeader_frame (by decide) (by decide) _
  unfold parseReadbuf
  simp only [hheader]
  rw [if_neg (by decide), if_neg (by decide)]

/-- The second read fills the buffer: its NUL is stored behind it, and what is there is never
taken. -/
theorem announced_overruns :
    ¬ ∀ mem reads, Fits (calls reads (asyncAllocBuf mem)) (asyncAllocBuf mem) := by
  intro h
  have hkeep := (calls_fit_iff _ (show 0 < readbufmaxsize by decide)).mp
    (h [] [some (.data announced), some (.data following)])
  have hread : (call (.read (.data announced)) (asyncAllocBuf [])).after
      = { mem := announced ++ [0], readbuflen := 16016 } := by
    have htake : announced.take readbufmaxsize = announced :=
      List.take_of_length_le (by rw [length_announced]; decide)
    simp only [call, doRead, asyncAllocBuf, Nat.sub_zero, htake, length_announced]
    simp
  have hfirst : asyncRw (some (.data announced)) (asyncAllocBuf [])
      = [.parse, .read (.data announced), .parse] := asyncRw_nothing rfl announced
  have hafter : after (asyncRw (some (.data announced)) (asyncAllocBuf []))
      (asyncAllocBuf []) = { mem := announced ++ [0], readbuflen := 16016 } := by
    rw [hfirst]
    show (call .parse (call (.read (.data announced)) (asyncAllocBuf [])).after).after = _
    rw [hread]
    exact congrArg Made.after (parse_announced [0])
  rw [calls, allKeep_append, hafter, calls, asyncRw_nothing (parse_announced [0])] at hkeep
  obtain ⟨-, -, hsecond, -⟩ := hkeep
  have hroom : ReadBuf.Keeps { mem := announced ++ [0], readbuflen := 16016 }
      (.read (.data following)) := by
    have hparse : (call .parse { mem := announced ++ [0], readbuflen := 16016 }).after
        = { mem := announced ++ [0], readbuflen := 16016 } :=
      congrArg Made.after (parse_announced [0])
    rwa [hparse] at hsecond
  simp only [Keeps, length_following] at hroom
  exact absurd hroom (by decide)

end ReadBuf

end Burp.Net
