/-
  Burp.Dialogue.Party — two parties that talk to each other.

  A party does things on its own side, says something, or waits until it hears something, and
  what it does next depends on nothing but its state.  Messages to the other one queue up.  The
  connection can be cut at any time: of what is on the way some may still arrive, after that
  nothing does, and a party that waits or speaks notices at some time or other.

  Main results:
    * `Calm.diamond` — while the connection holds, the parties do not get in each other's way.
    * `Reaches.split` — a talk is a run of each party by itself, in which each has heard a
      beginning of what the other one has said.
-/
import Burp.Dialogue.Confluence

namespace Dialogue

/-! ## §1. Parties. -/

/-- What a party does next: something on its own side, saying something, which can fail, or
waiting for a message, of which there may be none any more. -/
inductive Move (S M : Type)
  | act (s : S)
  | say (m : M) (said failed : S)
  | hear (k : Option M → S)
  | stop

abbrev Party (S M : Type) := S → Move S M

variable {S T M : Type}

/-- One step of a party with an inbox: its next state, what is left in the inbox, and what it has
said.  `cut` says that the connection has been cut, `stopped` that the other one has stopped. -/
inductive Half (a : Party S M) (cut stopped : Prop) : S → List M → S → List M → List M → Prop
  | act {s s' : S} {i : List M} (h : a s = .act s') : Half a cut stopped s i s' i []
  | say {s s' f : S} {m : M} {i : List M} (h : a s = .say m s' f) : Half a cut stopped s i s' i [m]
  | fail {s s' f : S} {m : M} {i : List M} (hcut : cut) (h : a s = .say m s' f) :
      Half a cut stopped s i f i []
  | hear {s : S} {k : Option M → S} {m : M} {i : List M} (h : a s = .hear k) :
      Half a cut stopped s (m :: i) (k (some m)) i []
  | miss {s : S} {k : Option M → S} (hstop : cut ∨ stopped) (h : a s = .hear k) :
      Half a cut stopped s [] (k none) [] []

/-- The two of them, and the messages that are on the way. -/
@[ext] structure Talk (S T M : Type) where
  left : S
  right : T
  toRight : List M := []
  toLeft : List M := []
  cut : Bool := false

/-- A queue takes what is said, as long as there is a connection. -/
def queue (cut : Bool) (q out : List M) : List M := if cut then q else q ++ out

/-- Any step of any of them, or the end of the connection. -/
inductive Step (a : Party S M) (b : Party T M) : Talk S T M → Talk S T M → Prop
  | left {c : Talk S T M} {s : S} {i out : List M}
      (h : Half a (c.cut = true) (b c.right = .stop) c.left c.toLeft s i out) :
      Step a b c { c with left := s, toLeft := i, toRight := queue c.cut c.toRight out }
  | right {c : Talk S T M} {t : T} {i out : List M}
      (h : Half b (c.cut = true) (a c.left = .stop) c.right c.toRight t i out) :
      Step a b c { c with right := t, toRight := i, toLeft := queue c.cut c.toLeft out }
  | cut {c : Talk S T M} {l r : List M} (hl : l <+: c.toLeft) (hr : r <+: c.toRight) :
      Step a b c { c with toLeft := l, toRight := r, cut := true }

/-- A step while the connection holds. -/
inductive Calm (a : Party S M) (b : Party T M) : Talk S T M → Talk S T M → Prop
  | left {c : Talk S T M} {s : S} {i out : List M}
      (h : Half a False (b c.right = .stop) c.left c.toLeft s i out) :
      Calm a b c { c with left := s, toLeft := i, toRight := c.toRight ++ out }
  | right {c : Talk S T M} {t : T} {i out : List M}
      (h : Half b False (a c.left = .stop) c.right c.toRight t i out) :
      Calm a b c { c with right := t, toRight := i, toLeft := c.toLeft ++ out }

/-! ## §2. While the connection holds. -/

section Calm

variable {a : Party S M} {b : Party T M} {cut stopped stopped' : Prop} {s s' s'' : S}
  {i i' i'' o o' : List M}

/-- What a party does is determined. -/
theorem Half.det (hcut : ¬ cut) (h : Half a cut stopped s i s' i' o) (h' : Half a cut stopped s i s'' i'' o') :
    s' = s'' ∧ i' = i'' ∧ o = o' := by
  cases h with
  | act h =>
      cases h' with
      | act h' => exact ⟨Move.act.inj (h.symm.trans h'), rfl, rfl⟩
      | say h' => exact absurd (h.symm.trans h') nofun
      | fail hc h' => exact absurd hc hcut
      | hear h' => exact absurd (h.symm.trans h') nofun
      | miss _ h' => exact absurd (h.symm.trans h') nofun
  | say h =>
      cases h' with
      | act h' => exact absurd (h.symm.trans h') nofun
      | say h' =>
          obtain ⟨rfl, rfl, -⟩ := Move.say.inj (h.symm.trans h')
          exact ⟨rfl, rfl, rfl⟩
      | fail hc h' => exact absurd hc hcut
      | hear h' => exact absurd (h.symm.trans h') nofun
      | miss _ h' => exact absurd (h.symm.trans h') nofun
  | fail hc h => exact absurd hc hcut
  | hear h =>
      cases h' with
      | act h' => exact absurd (h.symm.trans h') nofun
      | say h' => exact absurd (h.symm.trans h') nofun
      | fail hc h' => exact absurd hc hcut
      | hear h' =>
          obtain rfl := Move.hear.inj (h.symm.trans h')
          exact ⟨rfl, rfl, rfl⟩
  | miss _ h =>
      cases h' with
      | act h' => exact absurd (h.symm.trans h') nofun
      | say h' => exact absurd (h.symm.trans h') nofun
      | fail hc h' => exact absurd hc hcut
      | miss _ h' =>
          obtain rfl := Move.hear.inj (h.symm.trans h')
          exact ⟨rfl, rfl, rfl⟩

/-- More in the inbox does not matter to a party that does not miss anything. -/
theorem Half.extend (hcut : ¬ cut) (hstop : ¬ stopped) (h : Half a cut stopped s i s' i' o)
    (x : List M) : Half a cut stopped' s (i ++ x) s' (i' ++ x) o := by
  cases h with
  | act h => exact .act h
  | say h => exact .say h
  | fail hc h => exact absurd hc hcut
  | hear h => exact .hear h
  | miss hc h => exact absurd hc (by tauto)

theorem Half.moves (h : Half a cut stopped s i s' i' o) : a s ≠ .stop := by
  cases h with
  | act h | say h | hear h => rw [h]; exact nofun
  | fail _ h | miss _ h => rw [h]; exact nofun

/-- Each of them can do the other's step afterwards. -/
theorem Calm.commute {a : Party S M} {b : Party T M} {c : Talk S T M} {s : S} {t : T}
    {i j out out' : List M} (h : Half a False (b c.right = .stop) c.left c.toLeft s i out)
    (h' : Half b False (a c.left = .stop) c.right c.toRight t j out') :
    ∃ d, Calm a b { c with left := s, toLeft := i, toRight := c.toRight ++ out } d
      ∧ Calm a b { c with right := t, toRight := j, toLeft := c.toLeft ++ out' } d :=
  ⟨_, .right (h'.extend not_false h.moves out), .left (h.extend not_false h'.moves out')⟩

/-- **The parties do not get in each other's way.** -/
theorem Calm.diamond (a : Party S M) (b : Party T M) : Diamond (Calm a b) := by
  intro c d e hd he
  cases hd with
  | left h =>
      cases he with
      | left h' =>
          obtain ⟨rfl, rfl, rfl⟩ := h.det not_false h'
          exact Or.inl rfl
      | right h' => exact Or.inr (Calm.commute h h')
  | right h =>
      cases he with
      | left h' =>
          obtain ⟨x, hx, hx'⟩ := Calm.commute h' h
          exact Or.inr ⟨x, hx', hx⟩
      | right h' =>
          obtain ⟨rfl, rfl, rfl⟩ := h.det not_false h'
          exact Or.inl rfl

theorem Calm.ended {a : Party S M} {b : Party T M} {c : Talk S T M} (hl : a c.left = .stop)
    (hr : b c.right = .stop) (d : Talk S T M) : ¬ Calm a b c d := by
  intro h
  cases h with
  | left h => exact h.moves hl
  | right h => exact h.moves hr

/-- Nothing happens while both wait. -/
theorem Calm.waiting {a : Party S M} {b : Party T M} {s : S} {t : T} {k : Option M → S}
    {k' : Option M → T} (cut : Bool) (hl : a s = .hear k) (hr : b t = .hear k') (d : Talk S T M) :
    ¬ Calm a b ⟨s, t, [], [], cut⟩ d := by
  intro h
  have hstops : ¬ (False ∨ a s = .stop) ∧ ¬ (False ∨ b t = .stop) := by
    rw [hl, hr]
    exact ⟨fun h => by simp at h, fun h => by simp at h⟩
  cases h with
  | left h =>
      cases h with
      | act h => exact absurd (hl.symm.trans h) nofun
      | say h => exact absurd (hl.symm.trans h) nofun
      | fail hc _ => exact hc
      | miss hc _ => exact hstops.2 hc
  | right h =>
      cases h with
      | act h => exact absurd (hr.symm.trans h) nofun
      | say h => exact absurd (hr.symm.trans h) nofun
      | fail hc _ => exact hc
      | miss hc _ => exact hstops.1 hc

end Calm

/-! ### One talk. -/

section Talk

variable {a : Party S M} {b : Party T M} {s s' : S} {t t' : T} {toRight toLeft : List M} {cut : Bool}

theorem Calm.act_left (h : a s = .act s') :
    Calm a b ⟨s, t, toRight, toLeft, cut⟩ ⟨s', t, toRight, toLeft, cut⟩ := by
  have hstep := Calm.left (a := a) (b := b) (c := ⟨s, t, toRight, toLeft, cut⟩) (.act h)
  simpa only [List.append_nil] using hstep

theorem Calm.act_right (h : b t = .act t') :
    Calm a b ⟨s, t, toRight, toLeft, cut⟩ ⟨s, t', toRight, toLeft, cut⟩ := by
  have hstep := Calm.right (a := a) (b := b) (c := ⟨s, t, toRight, toLeft, cut⟩) (.act h)
  simpa only [List.append_nil] using hstep

theorem Calm.say_left {m : M} {f : S} (h : a s = .say m s' f) :
    Calm a b ⟨s, t, toRight, toLeft, cut⟩ ⟨s', t, toRight ++ [m], toLeft, cut⟩ :=
  Calm.left (a := a) (b := b) (c := ⟨s, t, toRight, toLeft, cut⟩) (.say h)

theorem Calm.say_right {m : M} {f : T} (h : b t = .say m t' f) :
    Calm a b ⟨s, t, toRight, toLeft, cut⟩ ⟨s, t', toRight, toLeft ++ [m], cut⟩ :=
  Calm.right (a := a) (b := b) (c := ⟨s, t, toRight, toLeft, cut⟩) (.say h)

theorem Calm.hear_left {m : M} {k : Option M → S} (h : a s = .hear k) :
    Calm a b ⟨s, t, toRight, m :: toLeft, cut⟩ ⟨k (some m), t, toRight, toLeft, cut⟩ := by
  have hstep := Calm.left (a := a) (b := b) (c := ⟨s, t, toRight, m :: toLeft, cut⟩) (.hear h)
  simpa only [List.append_nil] using hstep

theorem Calm.hear_right {m : M} {k : Option M → T} (h : b t = .hear k) :
    Calm a b ⟨s, t, m :: toRight, toLeft, cut⟩ ⟨s, k (some m), toRight, toLeft, cut⟩ := by
  have hstep := Calm.right (a := a) (b := b) (c := ⟨s, t, m :: toRight, toLeft, cut⟩) (.hear h)
  simpa only [List.append_nil] using hstep

variable (toLeft cut) in
/-- The left one says something, and the right one hears it. -/
theorem Calm.tell_right {m : M} {f : S} {k : Option M → T} (h : a s = .say m s' f)
    (hk : b t = .hear k) :
    Relation.ReflTransGen (Calm a b) ⟨s, t, [], toLeft, cut⟩ ⟨s', k (some m), [], toLeft, cut⟩ :=
  (Relation.ReflTransGen.single (Calm.say_left h)).tail (Calm.hear_right hk)

variable (toRight cut) in
/-- The right one says something, and the left one hears it. -/
theorem Calm.tell_left {m : M} {f : T} {k : Option M → S} (h : b t = .say m t' f)
    (hk : a s = .hear k) :
    Relation.ReflTransGen (Calm a b) ⟨s, t, toRight, [], cut⟩ ⟨k (some m), t', toRight, [], cut⟩ :=
  (Relation.ReflTransGen.single (Calm.say_right h)).tail (Calm.hear_left hk)

/-- Saying one thing after the other. -/
inductive Says (a : Party S M) : S → List M → S → Prop
  | nil (s : S) : Says a s [] s
  | cons {s s' s'' f : S} {m : M} {ms : List M} (h : a s = .say m s' f) (hs : Says a s' ms s'') :
      Says a s (m :: ms) s''

/-- Hearing one thing after the other. -/
inductive Hears (b : Party T M) : T → List M → T → Prop
  | nil (t : T) : Hears b t [] t
  | cons {t t' : T} {k : Option M → T} {m : M} {ms : List M} (h : b t = .hear k)
      (hs : Hears b (k (some m)) ms t') : Hears b t (m :: ms) t'

theorem Hears.snoc {t t' t'' : T} {k : Option M → T} {m : M} {ms : List M} (hs : Hears b t ms t')
    (h : b t' = .hear k) (hk : k (some m) = t'') : Hears b t (ms ++ [m]) t'' := by
  subst hk
  induction hs with
  | nil t => exact .cons h (.nil _)
  | cons h' _ ih => exact .cons h' (ih h)

/-- A party that has these messages still to say. -/
theorem says_list {L : List M → S} (h : ∀ m todo, ∃ f, a (L (m :: todo)) = .say m (L todo) f)
    (ms : List M) : Says a (L ms) ms (L []) := by
  induction ms with
  | nil => exact .nil _
  | cons m ms ih =>
      obtain ⟨f, hf⟩ := h m ms
      exact .cons hf ih

variable (toLeft cut) in
/-- What the left one says, the right one hears. -/
theorem Calm.tell_right_all {ms : List M} (hs : Says a s ms s') (ht : Hears b t ms t') :
    Relation.ReflTransGen (Calm a b) ⟨s, t, [], toLeft, cut⟩ ⟨s', t', [], toLeft, cut⟩ := by
  induction hs generalizing t with
  | nil s =>
      cases ht
      exact .refl
  | cons h _ ih =>
      cases ht with
      | cons hk ht => exact (Calm.tell_right _ _ h hk).trans (ih ht)

variable (toRight cut) in
/-- What the right one says, the left one hears. -/
theorem Calm.tell_left_all {ms : List M} (ht : Says b t ms t') (hs : Hears a s ms s') :
    Relation.ReflTransGen (Calm a b) ⟨s, t, toRight, [], cut⟩ ⟨s', t', toRight, [], cut⟩ := by
  induction ht generalizing s with
  | nil t =>
      cases hs
      exact .refl
  | cons h _ ih =>
      cases hs with
      | cons hk hs => exact (Calm.tell_left _ _ h hk).trans (ih hs)

end Talk

/-! ### Steps while the connection holds are steps. -/

theorem Half.mono {a : Party S M} {cut cut' stopped : Prop} {s s' : S} {i i' o : List M}
    (h : Half a cut stopped s i s' i' o) (hcut : cut → cut') : Half a cut' stopped s i s' i' o := by
  cases h with
  | act h => exact .act h
  | say h => exact .say h
  | fail hc h => exact .fail (hcut hc) h
  | hear h => exact .hear h
  | miss hc h => exact .miss (hc.imp_left hcut) h

theorem Calm.steps {a : Party S M} {b : Party T M} {c d : Talk S T M} (hcut : c.cut = false)
    (h : Relation.ReflTransGen (Calm a b) c d) :
    Relation.ReflTransGen (Step a b) c d ∧ d.cut = false := by
  induction h with
  | refl => exact ⟨.refl, hcut⟩
  | @tail d e _ hstep ih =>
      obtain ⟨hsteps, hd⟩ := ih
      have hqueue : ∀ q o : List M, queue d.cut q o = q ++ o := fun q o => by rw [queue, hd]; rfl
      cases hstep with
      | left hh =>
          have hs := Step.left (a := a) (b := b) (hh.mono False.elim)
          rw [hqueue] at hs
          exact ⟨hsteps.tail hs, hd⟩
      | right hh =>
          have hs := Step.right (a := a) (b := b) (hh.mono False.elim)
          rw [hqueue] at hs
          exact ⟨hsteps.tail hs, hd⟩

/-! ## §3. Each party by itself. -/

/-- What a party has heard, where it has heard anything. -/
def heard (h : List (Option M)) : List M := h.filterMap id

/-- A run of one party, that has heard and said these things. -/
inductive Runs (a : Party S M) (s₀ : S) : List (Option M) → List M → S → Prop
  | start : Runs a s₀ [] [] s₀
  | act {h : List (Option M)} {o : List M} {s s' : S} (hr : Runs a s₀ h o s) (hs : a s = .act s') :
      Runs a s₀ h o s'
  | say {h : List (Option M)} {o : List M} {s s' f : S} {m : M} (hr : Runs a s₀ h o s)
      (hs : a s = .say m s' f) : Runs a s₀ h (o ++ [m]) s'
  | fail {h : List (Option M)} {o : List M} {s s' f : S} {m : M} (hr : Runs a s₀ h o s)
      (hs : a s = .say m s' f) : Runs a s₀ h o f
  | hear {h : List (Option M)} {o : List M} {s : S} {k : Option M → S} (x : Option M)
      (hr : Runs a s₀ h o s) (hs : a s = .hear k) : Runs a s₀ (h ++ [x]) o (k x)

theorem heard_append (h h' : List (Option M)) : heard (h ++ h') = heard h ++ heard h' :=
  List.filterMap_append ..

@[simp] theorem heard_some (m : M) : heard [some m] = [m] := rfl

@[simp] theorem heard_none : heard [(none : Option M)] = [] := rfl

/-- What one party has heard and is on the way to it is a beginning of what the other one has
said, and all of it as long as there is a connection. -/
structure Arrives (cut : Bool) (h : List (Option M)) (q said : List M) : Prop where
  initial : heard h ++ q <+: said
  all : cut = false → heard h ++ q = said

section Split

variable {a : Party S M} {b : Party T M} {s s' : S} {i i' o : List M} {h : List (Option M)}
  {said said' q : List M} {cut : Bool} {stopped : Prop}

theorem arrives_nil (cut : Bool) : Arrives cut [] ([] : List M) [] := ⟨List.prefix_rfl, fun _ => rfl⟩

/-- Somebody says more, into the queue that there is. -/
theorem Arrives.says (ha : Arrives cut h q said) (o : List M) :
    Arrives cut h (queue cut q o) (said ++ o) := by
  cases cut with
  | true => exact ⟨ha.initial.trans (List.prefix_append _ _), nofun⟩
  | false =>
      have hall := ha.all rfl
      refine ⟨?_, fun _ => ?_⟩
      · show heard h ++ (q ++ o) <+: _
        rw [← List.append_assoc, hall]
      · show heard h ++ (q ++ o) = _
        rw [← List.append_assoc, hall]

theorem Arrives.cuts (ha : Arrives cut h q said) {l : List M} (hl : l <+: q) :
    Arrives true h l said :=
  ⟨((List.prefix_append_right_inj _).mpr hl).trans ha.initial, nofun⟩

/-- One step of a party is one step of its run. -/
theorem Half.runs {s₀ : S} (hh : Half a (cut = true) stopped s i s' i' o) (hr : Runs a s₀ h said s)
    (ha : Arrives cut h i said') :
    ∃ h', Runs a s₀ h' (said ++ o) s' ∧ Arrives cut h' i' said' := by
  cases hh with
  | act hs => exact ⟨h, by rw [List.append_nil]; exact hr.act hs, ha⟩
  | say hs => exact ⟨h, hr.say hs, ha⟩
  | fail _ hs => exact ⟨h, by rw [List.append_nil]; exact hr.fail hs, ha⟩
  | @hear k m _ hs =>
      refine ⟨h ++ [some m], by rw [List.append_nil]; exact hr.hear _ hs, ?_, fun hc => ?_⟩
      · rw [heard_append, heard_some, List.append_assoc]
        exact ha.initial
      · rw [heard_append, heard_some, List.append_assoc]
        exact ha.all hc
  | miss _ hs =>
      refine ⟨h ++ [none], by rw [List.append_nil]; exact hr.hear _ hs, ?_, fun hc => ?_⟩
      · rw [heard_append, heard_none, List.append_nil]
        exact ha.initial
      · rw [heard_append, heard_none, List.append_nil]
        exact ha.all hc

/-- **A talk is a run of each party by itself**, in which it has heard a beginning of what the
other one has said. -/
theorem Step.split {s₀ : S} {t₀ : T} {c : Talk S T M}
    (h : Relation.ReflTransGen (Step a b) ⟨s₀, t₀, [], [], false⟩ c) :
    ∃ lh ls rh rs, Runs a s₀ lh ls c.left ∧ Runs b t₀ rh rs c.right
      ∧ Arrives c.cut lh c.toLeft rs ∧ Arrives c.cut rh c.toRight ls := by
  induction h with
  | refl => exact ⟨[], [], [], [], .start, .start, arrives_nil _, arrives_nil _⟩
  | tail _ hstep ih =>
      obtain ⟨lh, ls, rh, rs, hl, hr, hal, har⟩ := ih
      cases hstep with
      | left hh =>
          obtain ⟨lh', hl', hal'⟩ := hh.runs hl hal
          exact ⟨lh', _, rh, rs, hl', hr, hal', har.says _⟩
      | right hh =>
          obtain ⟨rh', hr', har'⟩ := hh.runs hr har
          exact ⟨lh, ls, rh', _, hl, hr', hal.says _, har'⟩
      | cut hl' hr' => exact ⟨lh, ls, rh, rs, hl, hr, hal.cuts hl', har.cuts hr'⟩

end Split

end Dialogue
