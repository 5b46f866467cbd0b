/-
  Burp.Stream.Framing — messages over a stream of symbols.

  A sender writes each message as a frame, the frames go through three queues, of which any
  number of symbols at a time moves on to the next, and the receiver takes a frame from the
  last one whenever it has a whole one.  Where the first symbols of a frame say where it
  ends, the receiver gets the messages that have been sent, in their order.

  Main results:
    * `Conserved.steps` — what is in the queues are the messages still to come.
    * `Conserved.parse_cases` — what the receiver finds is one of them, or the beginning of
      one.
    * `drain_frames` — what it finds in the end.
-/
import Mathlib.Data.List.Basic
import Mathlib.Logic.Relation

namespace Channels

/-! ## §1. Frames. -/

/-- A way to write messages as sequences of symbols, and to take the first message off a
sequence, if it is whole. -/
structure Framing (α β : Type*) where
  frame : α → List β
  parse : List β → Option (α × List β)

variable {α β : Type*}

/-- Frames of the messages in `ok` can be told from what comes after them. -/
structure Framing.Lawful (F : Framing α β) (ok : α → Prop) : Prop where
  parse_frame : ∀ a, ok a → ∀ rest, F.parse (F.frame a ++ rest) = some (a, rest)
  parse_cut : ∀ a, ok a → ∀ l, l <+: F.frame a → l ≠ F.frame a → F.parse l = none

namespace Framing

variable (F : Framing α β)

/-- The frames of a list of messages. -/
def frames (as : List α) : List β := as.flatMap F.frame

@[simp] theorem frames_nil : F.frames [] = [] := rfl

@[simp] theorem frames_cons (a : α) (as : List α) : F.frames (a :: as) = F.frame a ++ F.frames as :=
  List.flatMap_cons

@[simp] theorem frames_append (as bs : List α) : F.frames (as ++ bs) = F.frames as ++ F.frames bs :=
  List.flatMap_append

/-- Messages are taken off a sequence as long as there are whole ones. -/
def drain : Nat → List β → List α × List β
  | 0, l => ([], l)
  | n + 1, l =>
      match F.parse l with
      | none => ([], l)
      | some (a, l) => (a :: (drain n l).1, (drain n l).2)

variable {F} {ok : α → Prop}

/-- The beginning of some frames begins with the first one, or is a part of it. -/
theorem prefix_frames {l : List β} {a : α} {as : List α} (h : l <+: F.frames (a :: as)) :
    (∃ l', l = F.frame a ++ l' ∧ l' <+: F.frames as) ∨ (l <+: F.frame a ∧ l ≠ F.frame a) := by
  rw [frames_cons] at h
  rcases List.prefix_or_prefix_of_prefix h (List.prefix_append _ _) with hl | ⟨l', rfl⟩
  · by_cases heq : l = F.frame a
    · exact Or.inl ⟨[], by rw [heq, List.append_nil], List.nil_prefix⟩
    · exact Or.inr ⟨hl, heq⟩
  · exact Or.inl ⟨l', rfl, (List.prefix_append_right_inj _).mp h⟩

/-- **Whole frames are taken off one after the other**, and nothing is left. -/
theorem drain_frames (hF : F.Lawful ok) (hnil : F.parse [] = none) :
    ∀ (as : List α), (∀ a ∈ as, ok a) → ∀ n, as.length ≤ n →
        F.drain n (F.frames as) = (as, []) := by
  intro as
  induction as with
  | nil =>
      intro _ n _
      cases n with
      | zero => rfl
      | succ n => rw [frames_nil, drain, hnil]
  | cons a as ih =>
      intro hok n hn
      cases n with
      | zero => simp at hn
      | succ n =>
          have hrest := ih (fun b hb => hok b (List.mem_cons_of_mem _ hb)) n
            (by simpa using hn)
          rw [frames_cons, drain, hF.parse_frame a (hok a List.mem_cons_self)]
          simp only [hrest]

end Framing

/-! ## §2. A channel. -/

/-- The queues between the two ends, and what has gone into them and has come out. -/
structure Channel (α β : Type*) where
  writebuf : List β := []
  wire : List β := []
  readbuf : List β := []
  accepted : List α := []
  delivered : List α := []

/-- What can happen to a channel. -/
inductive Channel.Step (F : Framing α β) (ok : α → Prop) : Channel α β → Channel α β → Prop
  /-- A message is accepted. -/
  | accept (c : Channel α β) (a : α) : ok a →
      Step F ok c { c with writebuf := c.writebuf ++ F.frame a, accepted := c.accepted ++ [a] }
  /-- Some symbols leave the sender. -/
  | write (c : Channel α β) (n : Nat) :
      Step F ok c { c with writebuf := c.writebuf.drop n, wire := c.wire ++ c.writebuf.take n }
  /-- Some symbols reach the receiver. -/
  | read (c : Channel α β) (n : Nat) :
      Step F ok c { c with wire := c.wire.drop n, readbuf := c.readbuf ++ c.wire.take n }
  /-- A message is delivered. -/
  | parse (c : Channel α β) (a : α) (rest : List β) : F.parse c.readbuf = some (a, rest) →
      Step F ok c { c with readbuf := rest, delivered := c.delivered ++ [a] }

/-- **What is conserved**: the messages that have been accepted and not delivered are the
ones whose frames are on the way. -/
def Conserved (F : Framing α β) (ok : α → Prop) (c : Channel α β) : Prop :=
  ∃ rest, c.accepted = c.delivered ++ rest ∧ c.readbuf ++ c.wire ++ c.writebuf = F.frames rest
    ∧ ∀ a ∈ rest, ok a

section Run

variable {F : Framing α β} {ok : α → Prop} {c d : Channel α β}

theorem conserved_empty : Conserved F ok {} := ⟨[], rfl, rfl, by simp⟩

/-- **What the receiver finds** is a message that is to be delivered next, or not a whole
frame. -/
theorem Conserved.parse_cases (hF : F.Lawful ok) (hnil : F.parse [] = none)
    (h : Conserved F ok c) :
    (∃ a as l, F.parse c.readbuf = some (a, l) ∧ c.accepted = c.delivered ++ a :: as
        ∧ l ++ c.wire ++ c.writebuf = F.frames as ∧ ∀ b ∈ as, ok b)
      ∨ (F.parse c.readbuf = none
        ∧ (c.readbuf = [] ∨ ∃ a ∈ c.accepted, ok a ∧ c.readbuf <+: F.frame a
            ∧ c.readbuf ≠ F.frame a)) := by
  obtain ⟨rest, hacc, hbytes, hok⟩ := h
  have hpre : c.readbuf <+: F.frames rest := by
    rw [← hbytes, List.append_assoc]
    exact List.prefix_append _ _
  cases rest with
  | nil =>
      have hr : c.readbuf = [] := List.prefix_nil.mp hpre
      exact Or.inr ⟨by rw [hr, hnil], Or.inl hr⟩
  | cons a as =>
      have ha := hok a List.mem_cons_self
      rcases Framing.prefix_frames hpre with ⟨l, hl, -⟩ | ⟨hcut, hne⟩
      · refine Or.inl ⟨a, as, l, by rw [hl, hF.parse_frame a ha], hacc, ?_,
          fun b hb => hok b (List.mem_cons_of_mem _ hb)⟩
        rw [hl, Framing.frames_cons, List.append_assoc, List.append_assoc] at hbytes
        rw [List.append_assoc]
        exact List.append_cancel_left hbytes
      · exact Or.inr ⟨hF.parse_cut a ha _ hcut hne, Or.inr ⟨a, by rw [hacc]; simp, ha, hcut, hne⟩⟩

/-- **One step.** -/
theorem Conserved.step (hF : F.Lawful ok) (hnil : F.parse [] = none) (h : Conserved F ok c)
    (hs : Channel.Step F ok c d) : Conserved F ok d := by
  cases hs with
  | accept a ha =>
      obtain ⟨rest, hacc, hbytes, hok⟩ := h
      refine ⟨rest ++ [a], ?_, ?_, ?_⟩
      · simp only [hacc, List.append_assoc]
      · simp only [Framing.frames_append, ← hbytes, Framing.frames_cons, Framing.frames_nil,
          List.append_nil, List.append_assoc]
      · intro b hb
        rcases List.mem_append.mp hb with hb | hb
        · exact hok b hb
        · rw [List.mem_singleton] at hb
          rwa [hb]
  | write n =>
      obtain ⟨rest, hacc, hbytes, hok⟩ := h
      refine ⟨rest, hacc, ?_, hok⟩
      rw [← hbytes]
      simp only [List.append_assoc, List.take_append_drop]
  | read n =>
      obtain ⟨rest, hacc, hbytes, hok⟩ := h
      refine ⟨rest, hacc, ?_, hok⟩
      rw [← hbytes, List.append_assoc c.readbuf, List.take_append_drop]
  | parse a rest hparse =>
      rcases h.parse_cases hF hnil with ⟨b, as, l, hp, hacc, hbytes, hok⟩ | ⟨hp, -⟩
      · rw [hparse, Option.some.injEq, Prod.mk.injEq] at hp
        obtain ⟨rfl, rfl⟩ := hp
        exact ⟨as, by simp only [hacc, List.append_assoc, List.singleton_append], hbytes, hok⟩
      · rw [hparse] at hp
        simp at hp

/-- **Every run.** -/
theorem Conserved.steps (hF : F.Lawful ok) (hnil : F.parse [] = none) (h : Conserved F ok c)
    (hs : Relation.ReflTransGen (Channel.Step F ok) c d) : Conserved F ok d := by
  induction hs with
  | refl => exact h
  | tail _ hstep ih => exact ih.step hF hnil hstep

/-- The messages come out in the order in which they have gone in. -/
theorem Conserved.delivered_initial (h : Conserved F ok c) : c.delivered <+: c.accepted := by
  obtain ⟨rest, hacc, -⟩ := h
  rw [hacc]
  exact List.prefix_append _ _

/-- When nothing is on the way any more, the receiver has all of them. -/
theorem Conserved.drained (hF : F.Lawful ok) (hnil : F.parse [] = none) (h : Conserved F ok c)
    (hwrite : c.writebuf = []) (hwire : c.wire = []) :
    ∃ rest, c.accepted = c.delivered ++ rest
      ∧ ∀ n, rest.length ≤ n → F.drain n c.readbuf = (rest, []) := by
  obtain ⟨rest, hacc, hbytes, hok⟩ := h
  rw [hwrite, hwire, List.append_nil, List.append_nil] at hbytes
  exact ⟨rest, hacc, fun n hn => by rw [hbytes]; exact Framing.drain_frames hF hnil rest hok n hn⟩

end Run

end Channels
