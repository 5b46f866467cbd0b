/-
  Burp.Session.Transfer — a file on its way from one end to the other (handy.c, msg.c).

  `send_a_file` compresses a file and sends it in as many messages as it takes, with an end
  marker after them; `receive_a_file` inflates and writes what comes, message by message, until
  the end marker.  Both ends use the two functions on a connection that may break in between.

  Main results:
    * `Wire.Receiving.transferLoop_eq` — the turns of the receiving loop, one after the other, are
      `transfer_gzfile_in`.
    * `transferLoop_fileMessages` — a file that has been sent whole is received whole.
-/
import Burp.Dialogue.Party
import Burp.Restore.Encodings

namespace Burp.Session

open FileSystem Burp.Store Burp.Stream Burp.Restore

/-! ## §1. Sending. -/

/-- What the ends rely on to transfer a file: zlib in one piece and in many, how a stream is
cut into messages, and the text of the end marker (the size and the checksum). -/
structure Wire where
  codec : Codec
  streams : Streams
  cuts : Bytes → List Bytes
  endText : Bytes → Bytes

structure Wire.Lawful (w : Wire) : Prop where
  inflates : ∀ level, w.streams.inflater.Undoes (w.codec.gzip level)
  cuts_flatten : ∀ b, (w.cuts b).flatten = b

namespace Wire

variable (w : Wire)

/-- The pieces that `send_a_file` sends of a file. -/
def piecesOf (x : Bytes) : List Bytes := w.cuts (w.codec.gzip 9 x)

def appendOf (piece : Bytes) : Message := (.append, piece)

def endOf (x : Bytes) : Message := (.endFile, w.endText x)

/-- All messages of a file. -/
def fileMessages (x : Bytes) : List Message := (w.piecesOf x).map appendOf ++ [w.endOf x]

/-! ## §2. Receiving. -/

/-- What a message does to `transfer_gzfile_in`. -/
inductive Received
  | more (out : Bytes) (strm : w.streams.Strm)
  | finished
  | failed

/-- One turn of its loop, without a password. -/
def received (strm : w.streams.Strm) : Option Message → w.Received
  | some (.append, buf) =>
      match w.streams.inflate strm buf with
      | some (out, strm) => .more out strm
      | none => .failed
  | some (.endFile, _) => .finished
  | some (.warning, _) => .more [] strm
  | _ => .failed

/-- The messages so far, what has been written for them, and the state of zlib. -/
inductive Receiving : List Message → Bytes → w.streams.Strm → Prop
  | start : Receiving [] [] w.streams.inflateInit
  | more {ms : List Message} {got out : Bytes} {strm strm' : w.streams.Strm} {m : Message}
      (h : Receiving ms got strm) (hm : w.received strm (some m) = .more out strm') :
      Receiving (ms ++ [m]) (got ++ out) strm'

end Wire

/-- How many files end in these messages. -/
def wholeFiles (o : List Message) : Nat := o.countP fun m => m.1 = .endFile

/-- These messages are this file to whoever receives them, and nothing more. -/
structure Wire.Delivers (w : Wire) (ms : List Message) (x : Bytes) : Prop where
  loop : ∀ rest, transferLoop w.streams false none w.streams.inflateInit (ms ++ rest)
    = some (x, rest)
  one : wholeFiles ms = 1

section Receiving

variable {w : Wire} {ms rest : List Message} {got out : Bytes} {strm strm' : w.streams.Strm}
  {m : Message}

theorem received_more (h : w.received strm (some m) = .more out strm') :
    transferLoop w.streams false none strm (m :: rest)
      = (transferLoop w.streams false none strm' rest).map fun q => (out ++ q.1, q.2) := by
  obtain ⟨cmd, buf⟩ := m
  cases cmd with
  | append =>
      cases hi : w.streams.inflate strm buf with
      | none => simp [Wire.received, hi] at h
      | some r =>
          simp only [Wire.received, hi, Wire.Received.more.injEq] at h
          obtain ⟨rfl, rfl⟩ := h
          show (w.streams.inflate strm buf).bind _ = _
          rw [hi]
          rfl
  | warning =>
      obtain ⟨rfl, rfl⟩ := Wire.Received.more.inj h
      show transferLoop _ _ _ _ rest = _
      cases transferLoop w.streams false none strm rest <;> rfl
  | _ => exact absurd h nofun

theorem received_finished (h : w.received strm (some m) = .finished) : m.1 = .endFile := by
  obtain ⟨cmd, buf⟩ := m
  cases cmd with
  | endFile => rfl
  | append =>
      cases hi : w.streams.inflate strm buf with
      | none => simp [Wire.received, hi] at h
      | some r => simp [Wire.received, hi] at h
  | _ => exact absurd h nofun

theorem received_more_ne (h : w.received strm (some m) = .more out strm') : m.1 ≠ .endFile := by
  obtain ⟨cmd, buf⟩ := m
  rintro rfl
  exact absurd h nofun

/-- The turns so far, and those still to come. -/
theorem Wire.Receiving.transferLoop_eq (h : w.Receiving ms got strm) (rest : List Message) :
    transferLoop w.streams false none w.streams.inflateInit (ms ++ rest)
      = (transferLoop w.streams false none strm rest).map fun q => (got ++ q.1, q.2) := by
  induction h generalizing rest with
  | start =>
      rw [List.nil_append]
      cases h : transferLoop w.streams false none w.streams.inflateInit rest <;> rfl
  | more _ hm ih =>
      rw [List.append_assoc, List.singleton_append, ih, received_more hm, Option.map_map]
      refine congrArg (fun f => Option.map f _) (funext fun q => ?_)
      simp only [Function.comp, List.append_assoc]

/-- With the end marker, what has been written is the whole file. -/
theorem Wire.Receiving.finished (h : w.Receiving ms got strm) (hm : w.received strm (some m) = .finished)
    (rest : List Message) :
    transferLoop w.streams false none w.streams.inflateInit (ms ++ m :: rest)
      = some (got, rest) := by
  obtain ⟨cmd, buf⟩ := m
  obtain rfl : cmd = .endFile := received_finished hm
  rw [h.transferLoop_eq]
  show some (got ++ [], rest) = _
  rw [List.append_nil]

theorem Wire.Receiving.endFile_notMem (h : w.Receiving ms got strm) : ∀ m ∈ ms, m.1 ≠ .endFile := by
  induction h with
  | start => exact nofun
  | more _ hm ih =>
      intro m hmem
      rcases List.mem_append.mp hmem with hmem | hmem
      · exact ih m hmem
      · rw [List.mem_singleton.mp hmem]
        exact received_more_ne hm

theorem carries_appends (xs : List Bytes) (e : Bytes) (rest : List Message) :
    Carries rest xs (xs.map Wire.appendOf ++ (.endFile, e) :: rest) := by
  induction xs with
  | nil => exact .endFile e
  | cons x xs ih => exact .append x ih

/-- **A file that has been sent is received.** -/
theorem transferLoop_fileMessages (hw : w.Lawful) (x : Bytes) (rest : List Message) :
    transferLoop w.streams false none w.streams.inflateInit (w.fileMessages x ++ rest)
      = some (x, rest) := by
  obtain ⟨ys, hrun, hys⟩ := hw.inflates 9 x (w.piecesOf x) (hw.cuts_flatten _)
  have hloop := transferLoop_decoder none false (carries_appends (w.piecesOf x) (w.endText x) rest)
    hrun
  rw [hys] at hloop
  rw [Wire.fileMessages, List.append_assoc]
  exact hloop

theorem Wire.Receiving.feed {xs ys : List Bytes} (h : w.Receiving ms got strm)
    (hfeed : w.streams.inflater.feed strm xs = some (ys, strm')) :
    w.Receiving (ms ++ xs.map Wire.appendOf) (got ++ ys.flatten) strm' := by
  induction xs generalizing ms got strm ys with
  | nil =>
      cases hfeed
      simpa using h
  | cons x xs ih =>
      obtain ⟨y, zs, strm₁, hy, hzs, rfl⟩ := Transducer.feed_cons.mp hfeed
      have hmore : w.received strm (some (Wire.appendOf x)) = .more y strm₁ := by
        show (match w.streams.inflate strm x with
          | some (out, strm) => Wire.Received.more out strm
          | none => .failed) = _
        rw [show w.streams.inflate strm x = some (y, strm₁) from hy]
      have hrest := ih (h.more hmore) hzs
      rw [List.append_assoc, List.append_assoc] at hrest
      exact hrest

/-- Piece by piece it is received up to the end marker. -/
theorem receiving_pieces (hw : w.Lawful) (x : Bytes) :
    ∃ strm, w.Receiving ((w.piecesOf x).map Wire.appendOf) x strm := by
  obtain ⟨ys, hrun, hys⟩ := hw.inflates 9 x (w.piecesOf x) (hw.cuts_flatten _)
  obtain ⟨zs, strm, y, hfeed, hfinal, rfl⟩ := Transducer.run_eq_some.mp hrun
  obtain rfl : [] = y := Option.some.inj hfinal
  refine ⟨strm, ?_⟩
  have hall := Wire.Receiving.start.feed hfeed
  rw [List.flatten_append, show [([] : Bytes)].flatten = [] from rfl, List.append_nil] at hys
  rw [List.nil_append, List.nil_append, hys] at hall
  exact hall

end Receiving

/-! ## §3. Counting files. -/

section Delivers

variable {w : Wire} {ms ms' rest rest' : List Message} {x x' got : Bytes} {strm : w.streams.Strm}
  {m : Message}

theorem wholeFiles_append (o o' : List Message) :
    wholeFiles (o ++ o') = wholeFiles o + wholeFiles o' := List.countP_append

theorem wholeFiles_fileMessages (x : Bytes) : wholeFiles (w.fileMessages x) = 1 := by
  have hpieces : wholeFiles ((w.piecesOf x).map Wire.appendOf) = 0 := by
    refine List.countP_eq_zero.mpr fun m hm => ?_
    obtain ⟨p, -, rfl⟩ := List.mem_map.mp hm
    exact nofun
  rw [Wire.fileMessages, wholeFiles_append, hpieces]
  rfl

/-- What is sent before the rest of one file. -/
theorem wholeFiles_le_of_append {o o' l : List Message} (h : o ++ o' = l) :
    wholeFiles o ≤ wholeFiles l := by
  rw [← h, wholeFiles_append]
  exact Nat.le_add_right _ _

/-- The last message of a file is its end. -/
theorem wholeFiles_le_of_unfinished {o l : List Message} {m : Message} {todo : List Message} {x : Bytes}
    (h : o ++ m :: todo = l ++ w.fileMessages x) : wholeFiles o ≤ wholeFiles l := by
  have hlast : (m :: todo).getLast? = some (w.endOf x) := by
    have := congrArg List.getLast? h
    rwa [Wire.fileMessages, ← List.append_assoc, List.getLast?_append_of_ne_nil _ (by simp),
      List.getLast?_append_of_ne_nil _ (by simp)] at this
  have hone : 1 ≤ wholeFiles (m :: todo) :=
    List.countP_pos_iff.mpr ⟨_, List.mem_of_getLast? hlast, rfl⟩
  have hcount := congrArg wholeFiles h
  rw [wholeFiles_append, wholeFiles_append, wholeFiles_fileMessages] at hcount
  omega

theorem Wire.Receiving.delivers (h : w.Receiving ms got strm)
    (hm : w.received strm (some m) = .finished) : w.Delivers (ms ++ [m]) got := by
  refine ⟨fun rest => ?_, ?_⟩
  · rw [List.append_assoc]
    exact h.finished hm rest
  · have hnone : wholeFiles ms = 0 :=
      List.countP_eq_zero.mpr fun m hmem => by simpa using h.endFile_notMem m hmem
    have hlast : wholeFiles [m] = 1 :=
      List.countP_eq_length.mpr fun m' hmem => by
        rw [List.mem_singleton.mp hmem]
        simpa using received_finished hm
    rw [wholeFiles_append, hnone, hlast]

theorem delivers_fileMessages (hw : w.Lawful) (x : Bytes) : w.Delivers (w.fileMessages x) x :=
  ⟨transferLoop_fileMessages hw x, wholeFiles_fileMessages x⟩

/-- **One stream of messages carries one file first.** -/
theorem Wire.Delivers.unique (h : w.Delivers ms x) (h' : w.Delivers ms' x')
    (heq : ms ++ rest = ms' ++ rest') : x = x' ∧ rest = rest' := by
  have hloop := h.loop rest
  rw [heq, h'.loop rest', Option.some.injEq, Prod.mk.injEq] at hloop
  exact ⟨hloop.1.symm, hloop.2.symm⟩

end Delivers

/-! ## §4. Parties that receive a file. -/

/-- A party that is in `receive_a_file`: it writes what it gets, and has the file at the end. -/
def Receives {T : Type} (w : Wire) (b : Dialogue.Party T Message)
    (during : w.streams.Strm → Bytes → T) (after : Bytes → T) : Prop :=
  ∀ strm got, ∃ k, b (during strm got) = .hear k
    ∧ (∀ m out strm', w.received strm (some m) = .more out strm' →
        k (some m) = during strm' (got ++ out))
    ∧ ∀ m, w.received strm (some m) = .finished → k (some m) = after got

section Receives

variable {T : Type} {w : Wire} {b : Dialogue.Party T Message}
  {during : w.streams.Strm → Bytes → T} {after : Bytes → T} {ms : List Message} {got : Bytes}
  {strm : w.streams.Strm}

theorem Receives.hears_receiving (hb : Receives w b during after) (h : w.Receiving ms got strm) :
    Dialogue.Hears b (during w.streams.inflateInit []) ms (during strm got) := by
  induction h with
  | start => exact .nil _
  | @more _ got _ strm _ _ _ hm ih =>
      obtain ⟨k, hk, hmore, -⟩ := hb strm got
      exact ih.snoc hk (hmore _ _ _ hm)

/-- It hears the messages of a file, and has the file. -/
theorem Receives.hears (hb : Receives w b during after) (hw : w.Lawful) (x : Bytes) :
    Dialogue.Hears b (during w.streams.inflateInit []) (w.fileMessages x) (after x) := by
  obtain ⟨strm, hrec⟩ := receiving_pieces hw x
  obtain ⟨k, hk, -, hfinished⟩ := hb strm x
  exact (hb.hears_receiving hrec).snoc hk (hfinished _ rfl)

end Receives

/-- Everything in one message. -/
def sampleWire : Wire :=
  { codec := sampleCodec, streams := sampleStreams, cuts := fun b => [b], endText := fun _ => [] }

theorem sampleWire_lawful : sampleWire.Lawful :=
  ⟨sampleStreams_lawful.inflates, fun b => List.flatten_singleton (l := b)⟩

end Burp.Session
