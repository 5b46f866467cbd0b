/-
  Burp.Dialogue.Answering — talking to a party that only answers.

  A server does nothing of its own accord: it waits for a message, changes its state, and says
  what there is to say about it.  Whoever talks to such a party hears what he would hear if each
  of his messages were answered at once, however long the messages take on their way.

  Main results:
    * `Step.asked` — a talk with an answering party is a conversation without delays.
    * `Follows.lastWord` — where the last word has arrived, the answering party has said it.
    * `calm_of_ask` — and each conversation without delays is a talk.
    * `Tires.ends` — whoever asks only so many questions, and gets his answers, comes to an end.
-/
import Burp.Dialogue.Party

namespace Dialogue

variable {S T M : Type}

/-! ## §1. Answers. -/

/-- What a message does to the state, and what is said; when there are no more questions; and the
state after the connection has been lost. -/
structure Answerer (T M : Type) where
  answer : T → M → T × List M
  ended : T → Bool
  lost : T → T

/-- An answering party, with what it has not said yet. -/
structure Answering (T M : Type) where
  state : T
  todo : List M := []

def Answerer.party (b : Answerer T M) : Party (Answering T M) M := fun t =>
  match t.todo with
  | m :: todo => .say m { t with todo := todo } ⟨b.lost t.state, []⟩
  | [] =>
      if b.ended t.state then .stop
      else
        .hear fun
          | some m => ⟨(b.answer t.state m).1, (b.answer t.state m).2⟩
          | none => ⟨b.lost t.state, []⟩

/-- The answers to some messages; what comes when it is over is not read. -/
def Answerer.answers (b : Answerer T M) : T → List M → T × List M
  | t, [] => (t, [])
  | t, m :: ms =>
      if b.ended t then (t, [])
      else
        ((b.answers (b.answer t m).1 ms).1, (b.answer t m).2 ++ (b.answers (b.answer t m).1 ms).2)

/-- A conversation without delays: each message is answered at once, and what is said waits to be
heard. -/
structure Asked (S T M : Type) where
  left : S
  state : T
  coming : List M := []

inductive Ask (a : Party S M) (b : Answerer T M) : Asked S T M → Asked S T M → Prop
  | act {v : Asked S T M} {s : S} (h : a v.left = .act s) : Ask a b v { v with left := s }
  | say {v : Asked S T M} {s f : S} {m : M} (h : a v.left = .say m s f) :
      Ask a b v ⟨s, (b.answers v.state [m]).1, v.coming ++ (b.answers v.state [m]).2⟩
  | hear {v : Asked S T M} {k : Option M → S} {m : M} {ms : List M} (h : a v.left = .hear k)
      (hm : v.coming = m :: ms) : Ask a b v ⟨k (some m), v.state, ms⟩

section Asks

variable {a : Party S M} {b : Answerer T M} {v v' : Asked S T M}

/-! What comes next is up to the one who asks. -/

theorem Ask.of_act {s : S} (ha : a v.left = .act s) (h : Ask a b v v') : v' = { v with left := s } := by
  cases h with
  | act hs => rw [Move.act.inj (ha.symm.trans hs)]
  | say hs => exact absurd (ha.symm.trans hs) nofun
  | hear hs => exact absurd (ha.symm.trans hs) nofun

theorem Ask.of_say {s f : S} {m : M} (ha : a v.left = .say m s f) (h : Ask a b v v') :
    v' = ⟨s, (b.answers v.state [m]).1, v.coming ++ (b.answers v.state [m]).2⟩ := by
  cases h with
  | act hs => exact absurd (ha.symm.trans hs) nofun
  | say hs =>
      obtain ⟨rfl, rfl, -⟩ := Move.say.inj (ha.symm.trans hs)
      rfl
  | hear hs => exact absurd (ha.symm.trans hs) nofun

theorem Ask.of_hear {k : Option M → S} (ha : a v.left = .hear k) (h : Ask a b v v') :
    ∃ m ms, v.coming = m :: ms ∧ v' = ⟨k (some m), v.state, ms⟩ := by
  cases h with
  | act hs => exact absurd (ha.symm.trans hs) nofun
  | say hs => exact absurd (ha.symm.trans hs) nofun
  | hear hs hm =>
      obtain rfl := Move.hear.inj (ha.symm.trans hs)
      exact ⟨_, _, hm, rfl⟩

theorem Ask.of_stop (ha : a v.left = .stop) (h : Ask a b v v') : False := by
  cases h with
  | act hs => exact absurd (ha.symm.trans hs) nofun
  | say hs => exact absurd (ha.symm.trans hs) nofun
  | hear hs => exact absurd (ha.symm.trans hs) nofun

/-! ... and it can be computed. -/

/-- What comes next, if anything does. -/
def next (a : Party S M) (b : Answerer T M) (v : Asked S T M) : Option (Asked S T M) :=
  match a v.left with
  | .act s => some { v with left := s }
  | .say m s _ => some ⟨s, (b.answers v.state [m]).1, v.coming ++ (b.answers v.state [m]).2⟩
  | .hear k =>
      match v.coming with
      | m :: ms => some ⟨k (some m), v.state, ms⟩
      | [] => none
  | .stop => none

theorem ask_of_next (h : next a b v = some v') : Ask a b v v' := by
  unfold next at h
  cases hmove : a v.left with
  | act s =>
      rw [hmove] at h
      exact Option.some.inj h ▸ .act hmove
  | say m s f =>
      rw [hmove] at h
      exact Option.some.inj h ▸ .say hmove
  | hear k =>
      rw [hmove] at h
      cases hcoming : v.coming with
      | nil =>
          rw [hcoming] at h
          exact absurd h nofun
      | cons m ms =>
          rw [hcoming] at h
          exact Option.some.inj h ▸ .hear hmove hcoming
  | stop =>
      rw [hmove] at h
      exact absurd h nofun

/-- At most so many steps. -/
def converse (a : Party S M) (b : Answerer T M) : Nat → Asked S T M → Asked S T M
  | 0, v => v
  | n + 1, v =>
      match next a b v with
      | some v' => converse a b n v'
      | none => v

theorem ask_converse (n : Nat) (v : Asked S T M) :
    Relation.ReflTransGen (Ask a b) v (converse a b n v) := by
  induction n generalizing v with
  | zero => exact .refl
  | succ n ih =>
      unfold converse
      cases hnext : next a b v with
      | none => exact .refl
      | some v' => exact .head (ask_of_next hnext) (ih v')

end Asks

section Answers

variable {b : Answerer T M} {t t' : T} {m : M} {ms : List M}

theorem answers_ended (h : b.ended t = true) (ms : List M) : b.answers t ms = (t, []) := by
  cases ms with
  | nil => rfl
  | cons m ms => rw [Answerer.answers, if_pos h]

theorem answers_cons (h : b.ended t = false) (m : M) (ms : List M) :
    b.answers t (m :: ms)
      = ((b.answers (b.answer t m).1 ms).1, (b.answer t m).2 ++ (b.answers (b.answer t m).1 ms).2) := by
  rw [Answerer.answers, if_neg (by rw [h]; exact Bool.false_ne_true)]

/-- An answering party that has said everything waits, ... -/
theorem party_hears (h : b.ended t = false) :
    b.party ⟨t, []⟩ = .hear fun
      | some m => ⟨(b.answer t m).1, (b.answer t m).2⟩
      | none => ⟨b.lost t, []⟩ :=
  if_neg (by rw [h]; exact Bool.false_ne_true)

/-- ... unless it is over. -/
theorem party_stops (h : b.ended t = true) : b.party ⟨t, []⟩ = .stop := if_pos h

theorem answers_single (h : b.ended t = false) (m : M) : b.answers t [m] = b.answer t m := by
  rw [answers_cons h]
  show ((b.answer t m).1, (b.answer t m).2 ++ []) = _
  rw [List.append_nil]

theorem answers_append (b : Answerer T M) (t : T) (ms ns : List M) :
    b.answers t (ms ++ ns)
      = ((b.answers (b.answers t ms).1 ns).1,
        (b.answers t ms).2 ++ (b.answers (b.answers t ms).1 ns).2) := by
  induction ms generalizing t with
  | nil => rfl
  | cons m ms ih =>
      rw [List.cons_append]
      cases h : b.ended t with
      | true => rw [answers_ended h, answers_ended h, answers_ended h]; rfl
      | false => rw [answers_cons h, answers_cons h, ih, List.append_assoc]

end Answers

/-! ## §2. A talk is a conversation without delays. -/

/-- States in which the last word has been said. -/
structure Answerer.LastWord (b : Answerer T M) (told : T → Prop) : Prop where
  ended : ∀ t, told t → b.ended t = true
  said : ∀ t m, b.ended t = false → told (b.answer t m).1 → (b.answer t m).2 ≠ []
  lost : ∀ t, b.ended (b.lost t) = true

/-- The delays of a talk: what the conversation has still to hear is on the way, or will be said
about what is on the way.  Once it can be seen that nothing more will come, only the last word
counts. -/
inductive Delayed (b : Answerer T M) (told : T → Prop) (state : T) (coming : List M)
    (c : Talk S (Answering T M) M) : Prop
  | onTheWay (hcut : c.cut = false) (hstate : (b.answers c.right.state c.toRight).1 = state)
      (hcoming : c.toLeft ++ (c.right.todo ++ (b.answers c.right.state c.toRight).2) = coming)
  | ending (rest : List M) (hend : c.cut = true ∨ b.party c.right = .stop)
      (hcoming : c.toLeft ++ rest = coming)
      (hlast : rest = [] → told state → c.right = ⟨state, []⟩)

/-- The talk is where the conversation is. -/
structure Follows (b : Answerer T M) (told : T → Prop) (v : Asked S T M)
    (c : Talk S (Answering T M) M) : Prop where
  left : c.left = v.left
  delayed : Delayed b told v.state v.coming c

/-- What a party does who does not hear anything, or cannot say something. -/
inductive GivesUp (a : Party S M) (s : S) : S → Prop
  | hear {k : Option M → S} (h : a s = .hear k) : GivesUp a s (k none)
  | say {m : M} {s' f : S} (h : a s = .say m s' f) : GivesUp a s f

/-- Who does nothing else stays where he is. -/
theorem Runs.of_stop {a : Party S M} {s₀ s : S} {h : List (Option M)} {o : List M} (hstop : a s₀ = .stop)
    (hr : Runs a s₀ h o s) : s = s₀ := by
  induction hr with
  | start => rfl
  | act _ hs ih | say _ hs ih | fail _ hs ih | hear _ _ hs ih =>
      rw [ih, hstop] at hs
      exact absurd hs nofun

section Follows

variable {a : Party S M} {b : Answerer T M} {told : T → Prop} {state t t' : T}
  {coming ms rest : List M} {c : Talk S (Answering T M) M} {v : Asked S T M}

/-- Without any answer, the last word had been said before. -/
theorem eq_of_answers_nil (hb : b.LastWord told) (h : (b.answers t ms).2 = [])
    (htold : told (b.answers t ms).1) : (b.answers t ms).1 = t := by
  induction ms generalizing t with
  | nil => rfl
  | cons m ms ih =>
      cases hended : b.ended t with
      | true => rw [answers_ended hended]
      | false =>
          rw [answers_cons hended] at h htold ⊢
          obtain ⟨hm, hms⟩ := List.append_eq_nil_iff.mp h
          have heq := ih hms htold
          dsimp only at htold
          rw [heq] at htold
          exact absurd hm (hb.said t m hended htold)

/-- **Where the last word has arrived**, it has been said, and nothing else happens. -/
theorem Follows.lastWord (hb : b.LastWord told) (h : Follows b told v c) (hcoming : v.coming = [])
    (htold : told v.state) : c.right = ⟨v.state, []⟩ := by
  obtain ⟨-, hd⟩ := h
  cases hd with
  | onTheWay hcut hstate hall =>
      rw [hcoming] at hall
      obtain ⟨-, hrest⟩ := List.append_eq_nil_iff.mp hall
      obtain ⟨htodo, hanswers⟩ := List.append_eq_nil_iff.mp hrest
      rw [← hstate] at htold ⊢
      rw [eq_of_answers_nil hb hanswers htold, ← htodo]
  | ending rest hend hall hlast =>
      rw [hcoming] at hall
      exact hlast (List.append_eq_nil_iff.mp hall).2 htold

/-- What is said goes to its queue, or nowhere. -/
theorem Delayed.say (hb : b.LastWord told) (h : Delayed b told state coming c) (s : S) (m : M) :
    Delayed b told (b.answers state [m]).1 (coming ++ (b.answers state [m]).2)
      { c with left := s, toRight := queue c.cut c.toRight [m] } := by
  cases h with
  | onTheWay hcut hstate hcoming =>
      have hqueue : queue c.cut c.toRight [m] = c.toRight ++ [m] := by rw [hcut]; rfl
      refine .onTheWay hcut ?_ ?_
      · show (b.answers c.right.state (queue c.cut c.toRight [m])).1 = _
        rw [hqueue, answers_append, hstate]
      · show c.toLeft ++ (c.right.todo ++ (b.answers c.right.state (queue c.cut c.toRight [m])).2) = _
        rw [hqueue, answers_append, hstate, ← hcoming]
        simp only [List.append_assoc]
  | ending rest hend hcoming hlast =>
      refine .ending (rest ++ (b.answers state [m]).2) hend ?_ fun hnil htold => ?_
      · show c.toLeft ++ (rest ++ _) = _
        rw [← List.append_assoc, hcoming]
      · obtain ⟨hrest, hanswers⟩ := List.append_eq_nil_iff.mp hnil
        have heq := eq_of_answers_nil hb hanswers htold
        rw [heq] at htold ⊢
        exact hlast hrest htold

/-- A message arrives. -/
theorem Delayed.hear {m : M} {i : List M} (h : Delayed b told state coming c)
    (hi : c.toLeft = m :: i) (s : S) :
    ∃ ms, coming = m :: ms ∧ Delayed b told state ms { c with left := s, toLeft := i } := by
  cases h with
  | onTheWay hcut hstate hcoming =>
      rw [hi] at hcoming
      exact ⟨_, hcoming.symm, .onTheWay hcut hstate rfl⟩
  | ending rest hend hcoming hlast =>
      rw [hi] at hcoming
      exact ⟨_, hcoming.symm, .ending rest hend rfl hlast⟩

/-- The answering party does something. -/
theorem Delayed.right {t : Answering T M} {i out : List M} (hb : b.LastWord told)
    (h : Delayed b told state coming c)
    (hh : Half b.party (c.cut = true) (a c.left = .stop) c.right c.toRight t i out) :
    Delayed b told state coming { c with right := t, toRight := i, toLeft := queue c.cut c.toLeft out } := by
  cases h with
  | ending rest hend hcoming hlast =>
      have hmoves := hh.moves
      rcases hend with hcut | hstop
      · refine .ending rest (Or.inl hcut) ?_ fun hrest htold => ?_
        · show queue c.cut c.toLeft out ++ rest = _
          rw [hcut]
          exact hcoming
        · have hstop : b.party c.right = .stop := by
            rw [hlast hrest htold]
            exact if_pos (hb.ended _ htold)
          exact absurd hstop hmoves
      · exact absurd hstop hmoves
  | onTheWay hcut hstate hcoming =>
      obtain ⟨left, right, toRight, toLeft, cut⟩ := c
      obtain ⟨state₁, todo⟩ := right
      obtain rfl : cut = false := hcut
      dsimp only at hh hstate hcoming
      cases todo with
      | cons x todo =>
          have hparty : b.party ⟨state₁, x :: todo⟩ = .say x ⟨state₁, todo⟩ ⟨b.lost state₁, []⟩ := rfl
          cases hh with
          | act hs => exact absurd (hparty.symm.trans hs) nofun
          | say hs =>
              obtain ⟨rfl, rfl, -⟩ := Move.say.inj (hparty.symm.trans hs)
              refine .onTheWay rfl hstate ?_
              show (toLeft ++ [x]) ++ (todo ++ _) = _
              rw [List.append_assoc, ← hcoming]
              rfl
          | fail hc hs => exact absurd hc Bool.false_ne_true
          | hear hs => exact absurd (hparty.symm.trans hs) nofun
          | miss _ hs => exact absurd (hparty.symm.trans hs) nofun
      | nil =>
          cases hended : b.ended state₁ with
          | true =>
              exact absurd (party_stops hended) hh.moves
          | false =>
              have hparty := party_hears hended
              cases hh with
              | act hs => exact absurd (hparty.symm.trans hs) nofun
              | say hs => exact absurd (hparty.symm.trans hs) nofun
              | fail _ hs => exact absurd (hparty.symm.trans hs) nofun
              | hear hs =>
                  obtain rfl := Move.hear.inj (hparty.symm.trans hs)
                  rw [answers_cons hended] at hstate hcoming
                  refine .onTheWay rfl hstate ?_
                  show (toLeft ++ []) ++ _ = _
                  rw [List.append_nil]
                  exact hcoming
              | miss _ hs =>
                  -- the other one has stopped, and the last word was never said
                  obtain rfl := Move.hear.inj (hparty.symm.trans hs)
                  refine .ending [] (Or.inr (if_pos (hb.lost state₁))) ?_ fun _ htold => ?_
                  · show (toLeft ++ []) ++ [] = _
                    rw [List.append_nil]
                    exact hcoming
                  · have hnot := hb.ended _ htold
                    rw [← hstate] at hnot
                    exact absurd (hended.symm.trans hnot) Bool.false_ne_true

/-- The connection is cut. -/
theorem Delayed.cuts {l r : List M} (hb : b.LastWord told) (h : Delayed b told state coming c)
    (hl : l <+: c.toLeft) :
    Delayed b told state coming { c with toLeft := l, toRight := r, cut := true } := by
  obtain ⟨l', hl⟩ := hl
  cases h with
  | onTheWay hcut hstate hcoming =>
      refine .ending (l' ++ (c.right.todo ++ (b.answers c.right.state c.toRight).2)) (Or.inl rfl) ?_
        fun hnil htold => ?_
      · show l ++ _ = _
        rw [← List.append_assoc, hl]
        exact hcoming
      · obtain ⟨-, hnil⟩ := List.append_eq_nil_iff.mp hnil
        obtain ⟨htodo, hanswers⟩ := List.append_eq_nil_iff.mp hnil
        rw [← hstate] at htold ⊢
        show c.right = _
        rw [eq_of_answers_nil hb hanswers htold, ← htodo]
  | ending rest hend hcoming hlast =>
      refine .ending (l' ++ rest) (Or.inl rfl) ?_ fun hnil htold => ?_
      · show l ++ _ = _
        rw [← List.append_assoc, hl]
        exact hcoming
      · exact hlast (List.append_eq_nil_iff.mp hnil).2 htold

theorem Delayed.left (h : Delayed b told state coming c) (s : S) :
    Delayed b told state coming { c with left := s } := by
  cases h with
  | onTheWay hcut hstate hcoming => exact .onTheWay hcut hstate hcoming
  | ending rest hend hcoming hlast => exact .ending rest hend hcoming hlast

/-- **A talk with an answering party is a conversation without delays**, until one of them has
noticed that there is nothing more to hear. -/
theorem Step.asked {s₀ : S} {t₀ : T} (hb : b.LastWord told)
    (h : Relation.ReflTransGen (Step a b.party) ⟨s₀, ⟨t₀, []⟩, [], [], false⟩ c) :
    ∃ v, Relation.ReflTransGen (Ask a b) ⟨s₀, t₀, []⟩ v
      ∧ (Follows b told v c ∨ ∃ s, GivesUp a v.left s ∧ ∃ h o, Runs a s h o c.left) := by
  induction h with
  | refl => exact ⟨_, .refl, Or.inl ⟨rfl, .onTheWay rfl rfl rfl⟩⟩
  | @tail c d _ hstep ih =>
      obtain ⟨v, hv, hfollows | ⟨s, hs, h, o, hrun⟩⟩ := ih
      · obtain ⟨hleft, hd⟩ := hfollows
        cases hstep with
        | left hh =>
            obtain ⟨left, right, toRight, toLeft, cut⟩ := c
            obtain rfl : left = v.left := hleft
            dsimp only at hh
            generalize hcut : (cut = true) = gone at hh
            cases hh with
            | act hs =>
                have hqueue : queue cut toRight ([] : List M) = toRight := by cases cut <;> simp [queue]
                rw [hqueue]
                exact ⟨_, hv.tail (.act hs), Or.inl ⟨rfl, hd.left _⟩⟩
            | say hs => exact ⟨_, hv.tail (.say hs), Or.inl ⟨rfl, hd.say hb _ _⟩⟩
            | fail _ hs => exact ⟨v, hv, Or.inr ⟨_, .say hs, [], [], .start⟩⟩
            | hear hs =>
                have hqueue : queue cut toRight ([] : List M) = toRight := by cases cut <;> simp [queue]
                rw [hqueue]
                obtain ⟨ms, hms, hd'⟩ := hd.hear rfl _
                exact ⟨_, hv.tail (.hear hs hms), Or.inl ⟨rfl, hd'⟩⟩
            | miss _ hs => exact ⟨v, hv, Or.inr ⟨_, .hear hs, [], [], .start⟩⟩
        | right hh => exact ⟨v, hv, Or.inl ⟨hleft, hd.right hb hh⟩⟩
        | cut hl hr => exact ⟨v, hv, Or.inl ⟨hleft, hd.cuts hb hl⟩⟩
      · refine ⟨v, hv, Or.inr ⟨s, hs, ?_⟩⟩
        cases hstep with
        | left hh =>
            obtain ⟨left, right, toRight, toLeft, cut⟩ := c
            dsimp only at hh hrun
            cases hh with
            | act h => exact ⟨_, _, hrun.act h⟩
            | say h => exact ⟨_, _, hrun.say h⟩
            | fail _ h => exact ⟨_, _, hrun.fail h⟩
            | hear h => exact ⟨_, _, hrun.hear _ h⟩
            | miss _ h => exact ⟨_, _, hrun.hear _ h⟩
        | right hh => exact ⟨_, _, hrun⟩
        | cut hl hr => exact ⟨_, _, hrun⟩

end Follows

/-! ## §3. A conversation without delays is a talk. -/

section Calm

variable {a : Party S M} {b : Answerer T M} {v w : Asked S T M}

/-- What there is to say is said. -/
theorem calm_replies (s : S) (t : T) (out toRight toLeft : List M) :
    Relation.ReflTransGen (Calm a b.party) ⟨s, ⟨t, out⟩, toRight, toLeft, false⟩
      ⟨s, ⟨t, []⟩, toRight, toLeft ++ out, false⟩ := by
  induction out generalizing toLeft with
  | nil => rw [List.append_nil]
  | cons m out ih =>
      have hrest := ih (toLeft ++ [m])
      rw [List.append_assoc] at hrest
      exact .head (.say_right rfl) hrest

/-- **Each conversation is a talk** in which nothing fails.  What is said to a party that has no
more questions stays on its way. -/
theorem calm_of_ask (h : Relation.ReflTransGen (Ask a b) v w) :
    ∃ toRight, (toRight = [] ∨ b.ended w.state = true)
      ∧ Relation.ReflTransGen (Calm a b.party) ⟨v.left, ⟨v.state, []⟩, [], v.coming, false⟩
        ⟨w.left, ⟨w.state, []⟩, toRight, w.coming, false⟩ := by
  induction h with
  | refl => exact ⟨[], Or.inl rfl, .refl⟩
  | @tail v' w _ hstep ih =>
      obtain ⟨toRight, hgone, hrun⟩ := ih
      obtain ⟨left, state, coming⟩ := v'
      dsimp only at hgone hrun
      cases hstep with
      | act h => exact ⟨toRight, hgone, hrun.tail (.act_left h)⟩
      | hear h hm =>
          dsimp only at h hm
          subst hm
          exact ⟨toRight, hgone, hrun.tail (.hear_left h)⟩
      | @say s f m h =>
          dsimp only at h
          cases hended : b.ended state with
          | true =>
              refine ⟨toRight ++ [m], Or.inr ?_, ?_⟩
              · show b.ended (b.answers state [m]).1 = true
                rw [answers_ended hended]
                exact hended
              · dsimp only
                rw [answers_ended hended, List.append_nil]
                exact hrun.tail (.say_left h)
          | false =>
              have hnil : toRight = [] :=
                hgone.resolve_right fun h => Bool.false_ne_true (hended.symm.trans h)
              subst hnil
              refine ⟨[], Or.inl rfl, ?_⟩
              dsimp only
              rw [answers_single hended]
              exact hrun.trans ((Calm.tell_right _ _ h (party_hears hended)).trans (calm_replies _ _ _ _ _))

end Calm

/-! ## §4. The end of a talk. -/

/-- Whoever does not ask for ever: whatever he does or says, less is left for him to do, and
nothing that he hears makes it more. -/
structure Tires {α : Type} [Preorder α] (a : Party S M) (rank : S → α) : Prop where
  act : ∀ s s', a s = .act s' → rank s' < rank s
  say : ∀ s s' f m, a s = .say m s' f → rank s' < rank s
  hear : ∀ s k m, a s = .hear k → rank (k (some m)) ≤ rank s

section End

variable {α : Type} [Preorder α] {a : Party S M} {b : Answerer T M} {rank : S → α}
  {v v' : Asked S T M}

theorem Ask.tires (hrank : Tires a rank) (h : Ask a b v v') :
    rank v'.left < rank v.left ∨ rank v'.left ≤ rank v.left ∧ v'.coming.length < v.coming.length := by
  cases h with
  | act h => exact Or.inl (hrank.act _ _ h)
  | say h => exact Or.inl (hrank.say _ _ _ _ h)
  | hear h hm =>
      refine Or.inr ⟨hrank.hear _ _ _ h, ?_⟩
      rw [hm]
      exact Nat.lt_succ_self _

/-- A conversation comes to an end. -/
theorem Tires.exists_end [WellFoundedLT α] (hrank : Tires a rank) (v : Asked S T M) :
    ∃ w, Relation.ReflTransGen (Ask a b) v w ∧ ∀ x, ¬ Ask a b w x := by
  -- on what is left to do, and then on what there is to hear
  suffices h : ∀ (r : α) (n : Nat) (v : Asked S T M), rank v.left ≤ r → v.coming.length = n →
      ∃ w, Relation.ReflTransGen (Ask a b) v w ∧ ∀ x, ¬ Ask a b w x from h _ _ v le_rfl rfl
  intro r
  induction r using WellFoundedLT.induction with
  | ind r ihr =>
      intro n
      induction n using Nat.strong_induction_on with
      | h n ihn =>
          intro v hr hn
          by_cases hnext : ∃ v', Ask a b v v'
          · obtain ⟨v', hv'⟩ := hnext
            have hrest : ∃ w, Relation.ReflTransGen (Ask a b) v' w ∧ ∀ x, ¬ Ask a b w x := by
              rcases hv'.tires hrank with hlt | ⟨hle, hlt⟩
              · exact ihr _ (hlt.trans_le hr) _ v' le_rfl rfl
              · exact ihn _ (hn ▸ hlt) v' (hle.trans hr) rfl
            obtain ⟨w, hw, hend⟩ := hrest
            exact ⟨w, .head hv' hw, hend⟩
          · exact ⟨v, .refl, fun x hx => hnext ⟨x, hx⟩⟩

/-- **Nobody waits for ever**: where the one who asks only waits for what has been said, unless
there will be no more answers, and does nothing else without an answer, each order of the steps
comes to the same end, at which both have stopped. -/
theorem Tires.ends [WellFoundedLT α] (hrank : Tires a rank) (hlost : ∀ t, b.ended (b.lost t) = true)
    (hwaits : ∀ w k, Relation.ReflTransGen (Ask a b) v w → a w.left = .hear k → w.coming = [] →
      b.ended w.state = true ∧ a (k none) = .stop)
    (hv : v.coming = []) :
    ∃ n c, a c.left = .stop ∧ b.party c.right = .stop
      ∧ ∀ m d, Steps (Calm a b.party) m ⟨v.left, ⟨v.state, []⟩, [], [], false⟩ d →
        ∃ k, n = m + k ∧ Steps (Calm a b.party) k d c := by
  obtain ⟨w, hw, hend⟩ := hrank.exists_end (b := b) v
  obtain ⟨toRight, hgone, hrun⟩ := calm_of_ask hw
  rw [hv] at hrun
  -- the last steps are those of a party that misses the other one
  have hlast : ∃ c : Talk S (Answering T M) M, a c.left = .stop ∧ b.party c.right = .stop
      ∧ Relation.ReflTransGen (Calm a b.party) ⟨w.left, ⟨w.state, []⟩, toRight, w.coming, false⟩ c := by
    cases hmove : a w.left with
    | act s => exact absurd (.act hmove) (hend _)
    | say m s f => exact absurd (.say hmove) (hend _)
    | hear k =>
        cases hcoming : w.coming with
        | cons m ms => exact absurd (.hear hmove hcoming) (hend _)
        | nil =>
            obtain ⟨hended, hstop⟩ := hwaits w k hw hmove hcoming
            exact ⟨_, hstop, party_stops hended,
              .single (.left (.miss (Or.inr (party_stops hended)) hmove))⟩
    | stop =>
        cases hended : b.ended w.state with
        | true => exact ⟨_, hmove, party_stops hended, .refl⟩
        | false =>
            have hnil : toRight = [] :=
              hgone.resolve_right fun h => Bool.false_ne_true (hended.symm.trans h)
            subst hnil
            exact ⟨_, hmove, party_stops (hlost _),
              .single (.right (.miss (Or.inr hmove) (party_hears hended)))⟩
  obtain ⟨c, hl, hr, hlast⟩ := hlast
  obtain ⟨n, hn⟩ := exists_steps (hrun.trans hlast)
  exact ⟨n, c, hl, hr, fun _ _ hd => hn.ends (Calm.diamond a b.party) (Calm.ended hl hr) hd⟩

end End

end Dialogue
