/-
  Burp.Net.Async — messages over the network.

  `async_rw` appends a message to a write buffer, lets `SSL_write` take some of it, lets
  `SSL_read` fill a read buffer, and `parse_readbuf` takes the first message off that one
  when it is whole.  A message is a command character, four hexadecimal digits and the
  text, and both ends move what is left in their buffer to the front.

  Main results:
    * `framing_lawful` — a message is found as soon as it is whole, and not before.
    * `asyncRw_spec` — what one call does to the buffers of its end.
    * `framing_delivers` — what has been accepted is what is delivered.
-/
import Burp.Store.RoundTrip
import Burp.Stream.Framing

namespace Burp.Net

open FileSystem Burp.Store Channels

/-! ## §1. The code. -/

/-- `ASYNC_BUF_LEN`. -/
def asyncBufLen : Nat := 16000

def readbufmaxsize : Nat := asyncBufLen * 2 + 32

def writebufmaxsize : Nat := asyncBufLen * 2 + 32

/-- `%04X` of `scanf`: of what comes after the blanks, four characters at most. -/
def scanHexWidth (b : Bytes) : Option Nat :=
  scanHex ((b.dropWhile fun c => c = 32 ∨ (9 ≤ c ∧ c ≤ 13)).take 4)

/-- `sscanf(readbuf, "%c%04X", &cmdtmp, &s)`. -/
def scanHeader (readbuf : Bytes) : Option (UInt8 × Nat) :=
  match cString readbuf with
  | [] => none
  | cmd :: b => (scanHexWidth b).map fun s => (cmd, s)

/-- The outcomes of `parse_readbuf`; a message comes with what is left in the buffer. -/
inductive Parsed
  | error
  | nothing
  | message (cmd : UInt8) (text rest : Bytes)
  deriving DecidableEq

/-- `parse_readbuf`.  The length is an `unsigned int`. -/
def parseReadbuf (readbuf : Bytes) : Parsed :=
  if readbuf.length < 5 then .nothing
  else
    match scanHeader readbuf with
    | none => .error
    | some (cmd, s) =>
        if (s + 5) % 2 ^ 32 ≤ readbuf.length then
          .message cmd ((readbuf.drop 5).take s) (readbuf.drop (s + 5))
        else .nothing

/-- One end of a connection. -/
structure End where
  readbuf : Bytes := []
  writebuf : Bytes := []
  readBlockedOnWrite : Bool := false
  writeBlockedOnRead : Bool := false

/-- What `SSL_read` says, and what it reads. -/
inductive SslRead
  | data (b : Bytes)
  | wantRead | wantWrite | again
  | problem

def SslRead.bytes : SslRead → Bytes
  | .data b => b
  | _ => []

/-- What `SSL_write` says.  The rate limit comes to the same as `again`. -/
inductive SslWrite
  | wrote (n : Nat)
  | wantRead | wantWrite | again
  | problem

/-- `do_read`. -/
def doRead (e : End) : SslRead → Option End
  | .data b => some { e with readbuf := e.readbuf ++ b }
  | .wantRead => some e
  | .wantWrite => some { e with readBlockedOnWrite := true }
  | .again => some e
  | .problem => none

/-- `do_write`: the end, and what leaves it. -/
def doWrite (e : End) : SslWrite → Option (End × Bytes)
  | .wrote w => some ({ e with writebuf := e.writebuf.drop w }, e.writebuf.take w)
  | .wantWrite => some (e, [])
  | .wantRead => some ({ e with writeBlockedOnRead := true }, [])
  | .again => some (e, [])
  | .problem => none

/-- `async_append_all_to_write_buffer`: the write buffer, unless there is no room. -/
def asyncAppendAllToWriteBuffer (wcmd : UInt8) (wsrc : Bytes) (writebuf : Bytes) : Option Bytes :=
  if writebufmaxsize - 1 ≤ writebuf.length + 6 + wsrc.length then none
  else
    -- with the room there is, the length takes four digits
    some (writebuf ++ cString (wcmd :: hex4 wsrc.length) ++ wsrc)

/-- What `select` and the connection do during a call. -/
structure Outside where
  selectError : Bool := false
  readable : Bool := false
  writable : Bool := false
  except : Bool := false
  /-- `network_timeout` has run out. -/
  expired : Bool := false
  read : SslRead := .again
  write : SslWrite := .again

/-- After a call that returns 0. -/
structure Rw where
  after : End
  /-- Whether the message has been appended. -/
  appended : Bool := false
  got : Option (UInt8 × Bytes) := none
  /-- What has come from the network, and what has gone to it. -/
  taken : Bytes := []
  sent : Bytes := []

/-- `parse_readbuf`, as `async_rw` uses it. -/
def takeMessage (e : End) (taken : Bytes) : Option Rw :=
  match parseReadbuf e.readbuf with
  | .error => none
  | .nothing => some { after := e, taken := taken }
  | .message cmd text rest =>
      some { after := { e with readbuf := rest }, got := some (cmd, text), taken := taken }

/-- `async_rw` from `select` on. -/
def selectRw (doread dowrite : Bool) (o : Outside) (e : End) : Option Rw :=
  if !doread && !dowrite then some { after := e }
  else if o.selectError then none
  else if !o.except && !(doread && o.readable) && !(dowrite && o.writable) then
    if o.expired then none else some { after := e }
  else if o.except then none
  else if doread && o.readable then
    match doRead { e with readBlockedOnWrite := false } o.read with
    | none => none
    | some e => takeMessage e o.read.bytes
  else
    match doWrite { e with writeBlockedOnRead := false } o.write with
    | none => none
    | some (e, sent) => some { after := e, sent := sent }

/-- The write buffer after the message of a call, if there is one, and whether it has been
appended.  A message without text is not one here. -/
def appendMessage (msg : Option (UInt8 × Bytes)) (e : End) : End × Bool :=
  match msg with
  | none => (e, false)
  | some (wcmd, wsrc) =>
      if wsrc = [] then (e, false)
      else
        match asyncAppendAllToWriteBuffer wcmd wsrc e.writebuf with
        | none => (e, false)
        | some w => ({ e with writebuf := w }, true)

/-- `async_rw`, with a message to send, and with or without somewhere to read to. -/
def asyncRw (doread : Bool) (msg : Option (UInt8 × Bytes)) (o : Outside) (e : End) : Option Rw :=
  let (e, appended) := appendMessage msg e
  let dowrite := !e.writebuf.isEmpty && !e.writeBlockedOnRead
  (if doread then
    match parseReadbuf e.readbuf with
    | .error => none
    | .message cmd text rest =>
        some { after := { e with readbuf := rest }, got := some (cmd, text) }
    | .nothing => selectRw (!e.readBlockedOnWrite) dowrite o e
  else selectRw false dowrite o e).map fun rw => { rw with appended := appended }

/-! ## §2. One message. -/

/-- The framing of the connection. -/
def framing : Framing (UInt8 × Bytes) UInt8 where
  frame m := m.1 :: hex4 m.2.length ++ m.2
  parse b :=
    match parseReadbuf b with
    | .message cmd text rest => some ((cmd, text), rest)
    | _ => none

/-- A message that the append function takes into an empty buffer: commands are not NUL. -/
def Sendable (m : UInt8 × Bytes) : Prop :=
  m.1 ≠ 0 ∧ m.2.length + 6 < writebufmaxsize - 1

theorem length_frame (m : UInt8 × Bytes) : (framing.frame m).length = m.2.length + 5 := by
  simp only [framing, hex4, List.length_cons, List.length_append, List.length_nil]
  omega

theorem Sendable.length_lt {m : UInt8 × Bytes} (h : Sendable m) : m.2.length < 65536 := by
  have hlen := h.2
  simp only [writebufmaxsize, asyncBufLen] at hlen
  omega

/-- Every message that is accepted is small enough for the reader's buffer. -/
theorem Sendable.fits {m : UInt8 × Bytes} (h : Sendable m) :
    (framing.frame m).length < readbufmaxsize := by
  have hlen := h.2
  rw [length_frame]
  simp only [writebufmaxsize, readbufmaxsize, asyncBufLen] at hlen ⊢
  omega

theorem length_hex4 (n : Nat) : (hex4 n).length = 4 := rfl

/-- The header is read whatever comes after it. -/
theorem scanHeader_frame {cmd : UInt8} (hcmd : cmd ≠ 0) {n : Nat} (hn : n < 65536) (rest : Bytes) :
    scanHeader (cmd :: hex4 n ++ rest) = some (cmd, n) := by
  have hhex : ∀ c ∈ hex4 n, c ≠ 0 := by
    rintro c hc rfl
    exact zero_notMem_hex4 n hc
  have hstr : cString (cmd :: hex4 n ++ rest) = cmd :: (hex4 n ++ cString rest) := by
    unfold cString
    rw [List.cons_append, List.takeWhile_cons_of_pos (by simpa using hcmd),
      List.takeWhile_append_of_pos (by simpa using hhex)]
  -- a digit is not a blank
  obtain ⟨-, -, h32, hblank, -⟩ := hexDigit_spec ⟨n / 4096 % 16, by omega⟩
  have hdrop : (hex4 n ++ cString rest).dropWhile (fun c => decide (c = 32 ∨ (9 ≤ c ∧ c ≤ 13)))
      = hex4 n ++ cString rest := by
    unfold hex4
    rw [List.cons_append, List.dropWhile_cons_of_neg]
    simp only [decide_eq_true_eq]
    rintro (h | h)
    · exact h32 h
    · exact hblank h
  rw [scanHeader, hstr]
  simp only
  rw [scanHexWidth, hdrop, List.take_left' (length_hex4 n), scanHex_hex4 hn]
  rfl

/-- What `parse_readbuf` makes of a buffer that begins with a header. -/
theorem parseReadbuf_header {cmd : UInt8} (hcmd : cmd ≠ 0) {n : Nat} (hn : n < 65536)
    (rest : Bytes) :
    parseReadbuf (cmd :: hex4 n ++ rest)
      = if n ≤ rest.length then .message cmd (rest.take n) (rest.drop n) else .nothing := by
  have hlen : (cmd :: hex4 n ++ rest).length = rest.length + 5 := by
    simp only [List.length_cons, List.length_append, length_hex4]
    omega
  have hdrop : ∀ k, (cmd :: hex4 n ++ rest).drop (k + 5) = rest.drop k := by
    intro k
    rw [Nat.add_comm, ← List.drop_drop]
    rfl
  unfold parseReadbuf
  rw [hlen, if_neg (by omega), scanHeader_frame hcmd hn]
  simp only [Nat.mod_eq_of_lt (show n + 5 < 2 ^ 32 by omega), hdrop,
    Nat.add_le_add_iff_right, List.drop_zero]

/-- A part of a message is not one, and not an error. -/
theorem parseReadbuf_cut {m : UInt8 × Bytes} (hm : Sendable m) {l : Bytes}
    (hl : l <+: framing.frame m) (hne : l ≠ framing.frame m) : parseReadbuf l = .nothing := by
  by_cases hlen : l.length < 5
  · rw [parseReadbuf, if_pos hlen]
  · -- the header is there, and some of the text is not
    have hhead : m.1 :: hex4 m.2.length <+: l := by
      refine List.prefix_of_prefix_length_le (List.prefix_append _ m.2) hl ?_
      rw [List.length_cons, length_hex4]
      omega
    obtain ⟨rest, rfl⟩ := hhead
    have hrest : rest <+: m.2 := (List.prefix_append_right_inj _).mp hl
    have hshort : rest.length < m.2.length := by
      refine lt_of_le_of_ne hrest.length_le fun heq => hne ?_
      rw [hrest.eq_of_length heq]
      rfl
    rw [parseReadbuf_header hm.1 hm.length_lt, if_neg (by omega)]

theorem parse_of_nothing {b : Bytes} (h : parseReadbuf b = .nothing) : framing.parse b = none := by
  simp only [framing, h]

theorem parse_of_message {b : Bytes} {cmd : UInt8} {text rest : Bytes}
    (h : parseReadbuf b = .message cmd text rest) : framing.parse b = some ((cmd, text), rest) := by
  simp only [framing, h]

/-- **A message is found as soon as it is whole**, and not before. -/
theorem framing_lawful : framing.Lawful Sendable where
  parse_frame := by
    intro m hm rest
    apply parse_of_message
    have hparse := parseReadbuf_header hm.1 hm.length_lt (m.2 ++ rest)
    rwa [if_pos (by simp), List.take_left, List.drop_left, ← List.append_assoc] at hparse
  parse_cut := fun m hm l hl hne => parse_of_nothing (parseReadbuf_cut hm hl hne)

theorem framing_nil : framing.parse [] = none := rfl

/-! ## §3. One call. -/

/-- **What a call does to the buffers of its end**: the message may be appended, some bytes
may leave, some may come, and a message may be taken from what is there then. -/
structure Rw.Of (msg : Option (UInt8 × Bytes)) (e : End) (rw : Rw) : Prop where
  append : (rw.appended = false ∧ (appendMessage msg e).1.writebuf = e.writebuf)
    ∨ (rw.appended = true ∧ ∃ m, msg = some m
        ∧ asyncAppendAllToWriteBuffer m.1 m.2 e.writebuf = some (appendMessage msg e).1.writebuf)
  write : ∃ n, rw.sent = (appendMessage msg e).1.writebuf.take n
    ∧ rw.after.writebuf = (appendMessage msg e).1.writebuf.drop n
  read : (rw.got = none ∧ rw.after.readbuf = e.readbuf ++ rw.taken)
    ∨ ∃ m, rw.got = some m ∧ framing.parse (e.readbuf ++ rw.taken) = some (m, rw.after.readbuf)

theorem takeMessage_spec {e : End} {taken : Bytes} {rw : Rw} (h : takeMessage e taken = some rw) :
    rw.taken = taken ∧ rw.sent = [] ∧ rw.after.writebuf = e.writebuf
      ∧ ((rw.got = none ∧ rw.after.readbuf = e.readbuf)
        ∨ ∃ m, rw.got = some m ∧ framing.parse e.readbuf = some (m, rw.after.readbuf)) := by
  unfold takeMessage at h
  cases hparse : parseReadbuf e.readbuf with
  | error => simp [hparse] at h
  | nothing =>
      simp only [hparse, Option.some.injEq] at h
      subst h
      exact ⟨rfl, rfl, rfl, Or.inl ⟨rfl, rfl⟩⟩
  | message cmd text rest =>
      simp only [hparse, Option.some.injEq] at h
      subst h
      exact ⟨rfl, rfl, rfl, Or.inr ⟨(cmd, text), rfl, parse_of_message hparse⟩⟩

theorem doRead_spec {e e' : End} {r : SslRead} (h : doRead e r = some e') :
    e'.writebuf = e.writebuf
      ∧ e'.readbuf = e.readbuf ++ r.bytes := by
  cases r <;> simp only [doRead, Option.some.injEq, reduceCtorEq] at h <;> subst h <;>
    simp [SslRead.bytes]

theorem doWrite_spec {e e' : End} {r : SslWrite} {sent : Bytes}
    (h : doWrite e r = some (e', sent)) :
    e'.readbuf = e.readbuf
      ∧ ∃ n, sent = e.writebuf.take n ∧ e'.writebuf = e.writebuf.drop n := by
  cases r <;> simp only [doWrite, Option.some.injEq, Prod.mk.injEq, reduceCtorEq] at h <;>
    obtain ⟨rfl, rfl⟩ := h
  case wrote n => exact ⟨rfl, n, rfl, rfl⟩
  all_goals exact ⟨rfl, 0, rfl, rfl⟩

/-- From `select` on. -/
theorem selectRw_spec {doread dowrite : Bool} {o : Outside} {e : End} {rw : Rw}
    (h : selectRw doread dowrite o e = some rw) :
    (∃ n, rw.sent = e.writebuf.take n ∧ rw.after.writebuf = e.writebuf.drop n)
      ∧ ((rw.got = none ∧ rw.after.readbuf = e.readbuf ++ rw.taken)
        ∨ ∃ m, rw.got = some m
          ∧ framing.parse (e.readbuf ++ rw.taken) = some (m, rw.after.readbuf)) := by
  unfold selectRw at h
  split_ifs at h with hnone herror hquiet hexpired hexcept hread
  case pos | neg =>
    -- nothing has moved
    rw [Option.some.injEq] at h
    subst h
    exact ⟨⟨0, rfl, rfl⟩, Or.inl ⟨rfl, (List.append_nil _).symm⟩⟩
  · cases hd : doRead { e with readBlockedOnWrite := false } o.read with
    | none => simp [hd] at h
    | some e' =>
        simp only [hd] at h
        obtain ⟨hw, hr⟩ := doRead_spec hd
        obtain ⟨htaken, hsent, hafter, hgot⟩ := takeMessage_spec h
        rw [hr, ← htaken] at hgot
        exact ⟨⟨0, hsent, hafter.trans hw⟩, hgot⟩
  · cases hd : doWrite { e with writeBlockedOnRead := false } o.write with
    | none => simp [hd] at h
    | some r =>
        obtain ⟨e', sent⟩ := r
        simp only [hd, Option.some.injEq] at h
        subst h
        obtain ⟨hr, n, hsent, hw⟩ := doWrite_spec hd
        exact ⟨⟨n, hsent, hw⟩, Or.inl ⟨rfl, by simpa using hr⟩⟩

theorem appendMessage_spec (msg : Option (UInt8 × Bytes)) (e : End) :
    (appendMessage msg e).1.readbuf = e.readbuf
      ∧ (((appendMessage msg e).2 = false ∧ (appendMessage msg e).1.writebuf = e.writebuf)
        ∨ ((appendMessage msg e).2 = true ∧ ∃ m, msg = some m
          ∧ asyncAppendAllToWriteBuffer m.1 m.2 e.writebuf
            = some (appendMessage msg e).1.writebuf)) := by
  unfold appendMessage
  cases msg with
  | none => exact ⟨rfl, Or.inl ⟨rfl, rfl⟩⟩
  | some m =>
      obtain ⟨wcmd, wsrc⟩ := m
      by_cases hsrc : wsrc = []
      · simp [hsrc]
      · simp only [hsrc, if_false]
        cases happ : asyncAppendAllToWriteBuffer wcmd wsrc e.writebuf with
        | none => exact ⟨rfl, Or.inl ⟨rfl, rfl⟩⟩
        | some w => exact ⟨rfl, Or.inr ⟨rfl, (wcmd, wsrc), rfl, happ⟩⟩

/-- **One call of `async_rw`.** -/
theorem asyncRw_spec {doread : Bool} {msg : Option (UInt8 × Bytes)} {o : Outside} {e : End}
    {rw : Rw} (h : asyncRw doread msg o e = some rw) : rw.Of msg e := by
  obtain ⟨hreadbuf, happ⟩ := appendMessage_spec msg e
  unfold asyncRw at h
  generalize hm : appendMessage msg e = p at h hreadbuf happ
  obtain ⟨e', appended⟩ := p
  simp only [Option.map_eq_some_iff] at h hreadbuf happ
  obtain ⟨rw', hrw, rfl⟩ := h
  have happend : (appended = false ∧ (appendMessage msg e).1.writebuf = e.writebuf)
      ∨ (appended = true ∧ ∃ m, msg = some m
        ∧ asyncAppendAllToWriteBuffer m.1 m.2 e.writebuf
            = some (appendMessage msg e).1.writebuf) := by
    rw [hm]
    exact happ
  cases doread with
  | false =>
      obtain ⟨hwrite, hread⟩ := selectRw_spec hrw
      rw [hreadbuf] at hread
      exact ⟨happend, by rw [hm]; exact hwrite, hread⟩
  | true =>
      simp only [if_true] at hrw
      cases hparse : parseReadbuf e'.readbuf with
      | error => simp [hparse] at hrw
      | nothing =>
          simp only [hparse] at hrw
          obtain ⟨hwrite, hread⟩ := selectRw_spec hrw
          rw [hreadbuf] at hread
          exact ⟨happend, by rw [hm]; exact hwrite, hread⟩
      | message cmd text rest =>
          simp only [hparse, Option.some.injEq] at hrw
          subst hrw
          refine ⟨happend, ⟨0, rfl, by rw [hm]; rfl⟩, Or.inr ⟨(cmd, text), rfl, ?_⟩⟩
          rw [← hreadbuf, List.append_nil]
          exact parse_of_message hparse

/-! ## §4. Two ends. -/

/-- The direction from one end to the other, with what has gone into it and what has come
out. -/
structure Link where
  sender : End := {}
  receiver : End := {}
  wire : Bytes := []
  accepted : List (UInt8 × Bytes) := []
  delivered : List (UInt8 × Bytes) := []

/-- What can happen.  What the sender reads, and what the receiver sends, belongs to the other
direction. -/
inductive Link.Step : Link → Link → Prop
  /-- The sender appends a message. -/
  | append (l : Link) (wcmd : UInt8) (wsrc w : Bytes) : wcmd ≠ 0 →
      asyncAppendAllToWriteBuffer wcmd wsrc l.sender.writebuf = some w →
      Step l { l with sender := { l.sender with writebuf := w },
                      accepted := l.accepted ++ [(wcmd, wsrc)] }
  /-- The sender calls `async_rw`. -/
  | send (l : Link) (doread : Bool) (msg : Option (UInt8 × Bytes)) (o : Outside) (rw : Rw) :
      (∀ m, msg = some m → m.1 ≠ 0) → asyncRw doread msg o l.sender = some rw →
      Step l { l with sender := rw.after, wire := l.wire ++ rw.sent,
                      accepted := l.accepted ++ if rw.appended then msg.toList else [] }
  /-- The receiver calls it; what it reads leaves room in its buffer. -/
  | receive (l : Link) (doread : Bool) (msg : Option (UInt8 × Bytes)) (o : Outside) (rw : Rw) :
      asyncRw doread msg o l.receiver = some rw → rw.taken <+: l.wire →
      (l.receiver.readbuf ++ rw.taken).length < readbufmaxsize →
      Step l { l with receiver := rw.after, wire := l.wire.drop rw.taken.length,
                      delivered := l.delivered ++ rw.got.toList }

/-- The queues of a link. -/
def Link.channel (l : Link) : Channel (UInt8 × Bytes) UInt8 where
  writebuf := l.sender.writebuf
  wire := l.wire
  readbuf := l.receiver.readbuf
  accepted := l.accepted
  delivered := l.delivered

/-- An append that has room for the message. -/
theorem append_spec {wcmd : UInt8} {wsrc b w : Bytes} (hcmd : wcmd ≠ 0)
    (h : asyncAppendAllToWriteBuffer wcmd wsrc b = some w) :
    w = b ++ framing.frame (wcmd, wsrc) ∧ Sendable (wcmd, wsrc) ∧ w.length < writebufmaxsize := by
  unfold asyncAppendAllToWriteBuffer at h
  split_ifs at h with hroom
  rw [Option.some.injEq] at h
  have hstr : cString (wcmd :: hex4 wsrc.length) = wcmd :: hex4 wsrc.length := by
    refine cString_of_notMem fun hmem => ?_
    rcases List.mem_cons.mp hmem with heq | hmem
    · exact hcmd heq.symm
    · exact zero_notMem_hex4 _ hmem
  rw [hstr, List.append_assoc] at h
  have hw : w = b ++ framing.frame (wcmd, wsrc) := h.symm
  refine ⟨hw, ⟨hcmd, by simp only; omega⟩, ?_⟩
  rw [hw, List.length_append, length_frame]
  simp only
  omega

section Links

variable {l l' : Link}

/-- What the sender's part of a call comes to. -/
theorem Rw.Of.append_cases {msg : Option (UInt8 × Bytes)} {e : End} {rw : Rw} (h : rw.Of msg e)
    (hcmd : ∀ m, msg = some m → m.1 ≠ 0) :
    ((if rw.appended then msg.toList else []) = [] ∧ (appendMessage msg e).1.writebuf = e.writebuf)
      ∨ ∃ m, (if rw.appended then msg.toList else []) = [m] ∧ Sendable m
        ∧ (appendMessage msg e).1.writebuf = e.writebuf ++ framing.frame m
        ∧ (appendMessage msg e).1.writebuf.length < writebufmaxsize := by
  rcases h.append with ⟨happ, hw⟩ | ⟨happ, m, rfl, hw⟩
  · exact Or.inl ⟨by rw [happ]; rfl, hw⟩
  · obtain ⟨heq, hok, hlen⟩ := append_spec (hcmd m rfl) hw
    exact Or.inr ⟨m, by rw [happ]; rfl, hok, heq, hlen⟩

/-- **A link is a channel**: what happens to it happens to its queues in a few steps. -/
theorem Link.Step.channel (h : Link.Step l l') :
    Relation.ReflTransGen (Channel.Step framing Sendable) l.channel l'.channel := by
  cases h with
  | append wcmd wsrc w hcmd happ =>
      obtain ⟨rfl, hok, -⟩ := append_spec hcmd happ
      exact .single (.accept l.channel (wcmd, wsrc) hok)
  | send doread msg o rw hcmd hrw =>
      have hof := asyncRw_spec hrw
      obtain ⟨n, hsent, hafter⟩ := hof.write
      rcases hof.append_cases hcmd with ⟨happ, hw⟩ | ⟨m, happ, hok, hw, -⟩
      · have hstep : Channel.Step framing Sendable l.channel _ := .write l.channel n
        simp only [Link.channel, happ, hsent, hafter, hw, List.append_nil] at hstep ⊢
        exact .single hstep
      · have haccept : Channel.Step framing Sendable l.channel _ := .accept l.channel m hok
        have hwrite : Channel.Step framing Sendable
            { l.channel with writebuf := l.channel.writebuf ++ framing.frame m,
                             accepted := l.channel.accepted ++ [m] } _ := .write _ n
        simp only [Link.channel, happ, hsent, hafter, hw] at haccept hwrite ⊢
        exact (Relation.ReflTransGen.single haccept).tail hwrite
  | receive doread msg o rw hrw htaken hroom =>
      have hof := asyncRw_spec hrw
      have htake : l.wire.take rw.taken.length = rw.taken :=
        (List.prefix_iff_eq_take.mp htaken).symm
      have hread : Channel.Step framing Sendable l.channel _ := .read l.channel rw.taken.length
      rcases hof.read with ⟨hgot, hafter⟩ | ⟨m, hgot, hparse⟩
      · simp only [Link.channel, htake, hgot, hafter, Option.toList_none, List.append_nil]
          at hread ⊢
        exact .single hread
      · have hdeliver : Channel.Step framing Sendable
            { l.channel with wire := l.wire.drop rw.taken.length,
                             readbuf := l.receiver.readbuf ++ rw.taken } _ :=
          .parse _ m rw.after.readbuf hparse
        simp only [Link.channel, htake, hgot, Option.toList_some] at hread hdeliver ⊢
        exact (Relation.ReflTransGen.single hread).tail hdeliver

/-- What holds between any two calls. -/
structure Link.Good (l : Link) : Prop where
  conserved : Conserved framing Sendable l.channel
  bounded : l.sender.writebuf.length < writebufmaxsize
  sendable : ∀ m ∈ l.accepted, Sendable m

theorem Link.good_empty : ({} : Link).Good where
  conserved := conserved_empty
  bounded := by decide
  sendable := by simp

/-- **One step.** -/
theorem Link.Good.step (h : l.Good) (hs : Link.Step l l') : l'.Good := by
  refine ⟨h.conserved.steps framing_lawful framing_nil hs.channel, ?_, ?_⟩
  · cases hs with
    | append wcmd wsrc w hcmd happ => exact (append_spec hcmd happ).2.2
    | send doread msg o rw hcmd hrw =>
        have hof := asyncRw_spec hrw
        obtain ⟨n, -, hafter⟩ := hof.write
        have hbefore : (appendMessage msg l.sender).1.writebuf.length < writebufmaxsize := by
          rcases hof.append_cases hcmd with ⟨-, hw⟩ | ⟨m, -, -, -, hlen⟩
          · rw [hw]
            exact h.bounded
          · exact hlen
        show rw.after.writebuf.length < _
        rw [hafter, List.length_drop]
        omega
    | receive doread msg o rw hrw htaken hroom => exact h.bounded
  · cases hs with
    | append wcmd wsrc w hcmd happ =>
        intro m hm
        rcases List.mem_append.mp hm with hm | hm
        · exact h.sendable m hm
        · rw [List.mem_singleton] at hm
          rw [hm]
          exact (append_spec hcmd happ).2.1
    | send doread msg o rw hcmd hrw =>
        intro m hm
        rcases List.mem_append.mp hm with hm | hm
        · exact h.sendable m hm
        · rcases (asyncRw_spec hrw).append_cases hcmd with ⟨happ, -⟩ | ⟨m', happ, hok, -⟩
          · rw [happ] at hm
            simp at hm
          · rw [happ, List.mem_singleton] at hm
            rwa [hm]
    | receive doread msg o rw hrw htaken hroom => exact h.sendable

/-- **Every run.** -/
theorem Link.run_good (h : Relation.ReflTransGen Link.Step {} l) : l.Good := by
  induction h with
  | refl => exact Link.good_empty
  | tail _ hs ih => exact ih.step hs

/-- A buffer without a whole message has room for more, and nothing wrong in it. -/
theorem Link.Good.parse_cases (h : l.Good) :
    (∃ cmd text rest, parseReadbuf l.receiver.readbuf = .message cmd text rest)
      ∨ (parseReadbuf l.receiver.readbuf = .nothing
        ∧ l.receiver.readbuf.length + 1 < readbufmaxsize) := by
  rcases h.conserved.parse_cases framing_lawful framing_nil with
    ⟨m, _, rest, hparse, -⟩ | ⟨-, hnil | ⟨m, -, hok, hcut, hne⟩⟩
  · refine Or.inl ⟨m.1, m.2, rest, ?_⟩
    simp only [Link.channel, framing] at hparse
    cases hp : parseReadbuf l.receiver.readbuf with
    | error => simp [hp] at hparse
    | nothing => simp [hp] at hparse
    | message cmd text rest' =>
        simp only [hp, Option.some.injEq, Prod.mk.injEq] at hparse
        rw [← hparse.1, hparse.2]
  · have hnil' : l.receiver.readbuf = [] := hnil
    exact Or.inr ⟨by rw [hnil']; rfl, by rw [hnil']; decide⟩
  · have hshort : l.receiver.readbuf.length < (framing.frame m).length := by
      refine lt_of_le_of_ne hcut.length_le fun heq => hne (hcut.eq_of_length heq)
    have := hok.fits
    exact Or.inr ⟨parseReadbuf_cut hok hcut hne, by omega⟩

/-- **What has been accepted is what is delivered**: the messages come out in their order,
nothing that arrives is an error, the reader never lacks room, and when nothing is on the way
any more, the rest of the messages is in the buffer and nothing else. -/
theorem framing_delivers (h : Relation.ReflTransGen Link.Step {} l) :
    l.delivered <+: l.accepted
      ∧ ((∃ cmd text rest, parseReadbuf l.receiver.readbuf = .message cmd text rest)
        ∨ (parseReadbuf l.receiver.readbuf = .nothing
          ∧ l.receiver.readbuf.length + 1 < readbufmaxsize))
      ∧ (l.sender.writebuf = [] → l.wire = [] → ∃ rest, l.accepted = l.delivered ++ rest
          ∧ ∀ n, rest.length ≤ n → framing.drain n l.receiver.readbuf = (rest, []))
      ∧ l.sender.writebuf.length < writebufmaxsize
      ∧ ∀ m ∈ l.accepted, (framing.frame m).length < readbufmaxsize := by
  have hgood := Link.run_good h
  exact ⟨hgood.conserved.delivered_initial, hgood.parse_cases,
    fun hw hwire => hgood.conserved.drained framing_lawful framing_nil hw hwire,
    hgood.bounded, fun m hm => (hgood.sendable m hm).fits⟩

end Links

/-- The header of a message without text, cut in the middle. -/
def cutLink : Link where
  sender := { writebuf := [48, 48] }
  receiver := { readbuf := [116, 48, 48] }
  accepted := [(116, [])]

theorem cutLink_delivers :
    cutLink.delivered <+: cutLink.accepted
      ∧ ((∃ cmd text rest, parseReadbuf cutLink.receiver.readbuf = .message cmd text rest)
        ∨ (parseReadbuf cutLink.receiver.readbuf = .nothing
          ∧ cutLink.receiver.readbuf.length + 1 < readbufmaxsize)) := by
  have happend := Link.Step.append {} 116 [] [116, 48, 48, 48, 48] (by decide) (by decide)
  have hsend := Link.Step.send
    { sender := { writebuf := [116, 48, 48, 48, 48] }, accepted := [(116, [])] } false none
    { writable := true, write := .wrote 3 } _ (by simp) rfl
  have hreceive := Link.Step.receive
    { sender := { writebuf := [48, 48] }, wire := [116, 48, 48], accepted := [(116, [])] } true none
    { readable := true, read := .data [116, 48, 48] } _ rfl (by decide) (by decide)
  have hrun : Relation.ReflTransGen Link.Step {} cutLink :=
    ((Relation.ReflTransGen.single happend).tail hsend).tail hreceive
  have h := framing_delivers hrun
  exact ⟨h.1, h.2.1⟩

end Burp.Net
