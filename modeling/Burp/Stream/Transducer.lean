/-
  Burp.Stream.Transducer — machines that are given a stream in pieces.

  A decompressor or a decipherer keeps a state, is given the stream piece by piece, answers
  each piece with some output and has some more at the end.  What it is relied on for is that
  it undoes an encoding however the encoded stream is cut up; and that carries over to a
  machine whose output is the input of a second one.

  Main results:
    * `feed_flatten` — a machine that treats two pieces like the longer one they make.
    * `Undoes.pipe` — undoing two encodings, one after the other.
-/
import Mathlib.Data.List.Basic

namespace Burp.Stream

/-! ## §1. Machines. -/

/-- A machine from streams of `α` to streams of `β`; `none` is an error. -/
structure Transducer (α β : Type) where
  State : Type
  init : State
  update : State → List α → Option (List β × State)
  final : State → Option (List β)

namespace Transducer

variable {α β γ : Type}

/-- The outputs for some pieces. -/
def feed (t : Transducer α β) : t.State → List (List α) → Option (List (List β) × t.State)
  | s, [] => some ([], s)
  | s, x :: xs =>
      (t.update s x).bind fun r => (t.feed r.2 xs).map fun q => (r.1 :: q.1, q.2)

/-- The outputs for a whole stream. -/
def run (t : Transducer α β) (xs : List (List α)) : Option (List (List β)) :=
  (t.feed t.init xs).bind fun r => (t.final r.2).map fun y => r.1 ++ [y]

/-- The machine undoes the encoding `f`, in whatever pieces the encoded stream comes. -/
def Undoes (t : Transducer α β) (f : List β → List α) : Prop :=
  ∀ x xs, xs.flatten = f x → ∃ ys, t.run xs = some ys ∧ ys.flatten = x

section Feed

variable {t : Transducer α β} {s s'' : t.State} {ys : List (List β)}

theorem feed_cons {x : List α} {xs : List (List α)} : t.feed s (x :: xs) = some (ys, s'')
    ↔ ∃ y zs s', t.update s x = some (y, s') ∧ t.feed s' xs = some (zs, s'') ∧ ys = y :: zs := by
  rw [feed, Option.bind_eq_some_iff]
  constructor
  · intro ⟨r, hr, h⟩
    obtain ⟨q, hq, heq⟩ := Option.map_eq_some_iff.mp h
    cases heq
    exact ⟨r.1, q.1, r.2, hr, hq, rfl⟩
  · intro ⟨y, zs, s', hy, hzs, heq⟩
    refine ⟨(y, s'), hy, ?_⟩
    rw [hzs, heq]
    rfl

theorem run_eq_some {xs : List (List α)} : t.run xs = some ys
    ↔ ∃ zs s y, t.feed t.init xs = some (zs, s) ∧ t.final s = some y ∧ ys = zs ++ [y] := by
  rw [run, Option.bind_eq_some_iff]
  constructor
  · intro ⟨r, hr, h⟩
    obtain ⟨y, hy, heq⟩ := Option.map_eq_some_iff.mp h
    exact ⟨r.1, r.2, y, hr, hy, heq.symm⟩
  · intro ⟨zs, s, y, hzs, hy, heq⟩
    refine ⟨(zs, s), hzs, ?_⟩
    rw [hy, heq]
    rfl

theorem feed_append {xs' : List (List α)} : ∀ {xs : List (List α)} {s : t.State}
    {ys : List (List β)}, t.feed s (xs ++ xs') = some (ys, s'') →
      ∃ zs ws s', t.feed s xs = some (zs, s') ∧ t.feed s' xs' = some (ws, s'')
        ∧ ys = zs ++ ws := by
  intro xs
  induction xs with
  | nil =>
      intro s ys h
      exact ⟨[], ys, s, rfl, h, rfl⟩
  | cons x xs ih =>
      intro s ys h
      obtain ⟨y, vs, s₁, hy, hvs, rfl⟩ := feed_cons.mp h
      obtain ⟨zs, ws, s', hzs, hws, rfl⟩ := ih hvs
      exact ⟨y :: zs, ws, s', feed_cons.mpr ⟨y, zs, s₁, hy, hzs, rfl⟩, hws, rfl⟩

end Feed

/-! ## §2. Pieces that do not matter. -/

/-- Where an update with two pieces in one is two updates, feeding is one update. -/
theorem feed_flatten {t : Transducer α β} (hnil : ∀ s, t.update s [] = some ([], s))
    (happend : ∀ s x y, t.update s (x ++ y)
      = (t.update s x).bind fun r => (t.update r.2 y).map fun q => (r.1 ++ q.1, q.2))
    (xs : List (List α)) :
    ∀ s, (t.feed s xs).map (fun r => (r.1.flatten, r.2)) = t.update s xs.flatten := by
  induction xs with
  | nil =>
      intro s
      rw [List.flatten_nil, hnil]
      rfl
  | cons x xs ih =>
      intro s
      rw [List.flatten_cons, happend, feed, Option.map_bind]
      congr 1
      funext r
      rw [← ih r.2, Function.comp_apply, Option.map_map, Option.map_map]
      rfl

/-! ## §3. One machine after another. -/

/-- The output of `t` is the input of `u`, but for pieces that are empty. -/
def pipe (t : Transducer α β) (u : Transducer β γ) : Transducer α γ where
  State := t.State × u.State
  init := (t.init, u.init)
  update s x := (t.update s.1 x).bind fun r =>
    if r.1.isEmpty then some ([], (r.2, s.2))
    else (u.update s.2 r.1).map fun q => (q.1, (r.2, q.2))
  final s := (t.final s.1).bind fun y =>
    if y.isEmpty then u.final s.2
    else (u.update s.2 y).bind fun q => (u.final q.2).map fun w => q.1 ++ w

/-- The pieces that the second machine gets. -/
def nonempty (ys : List (List β)) : List (List β) := ys.filter fun y => !y.isEmpty

theorem flatten_nonempty (ys : List (List β)) : (nonempty ys).flatten = ys.flatten := by
  induction ys with
  | nil => rfl
  | cons y ys ih =>
      cases y with
      | nil => exact ih
      | cons c y => exact congrArg ((c :: y) ++ ·) ih

section Pipe

variable {t : Transducer α β} {u : Transducer β γ}

theorem feed_pipe : ∀ {xs : List (List α)} {s s' : t.State} {r r' : u.State}
    {ys : List (List β)} {zs : List (List γ)},
    t.feed s xs = some (ys, s') → u.feed r (nonempty ys) = some (zs, r') →
    ∃ ws, (t.pipe u).feed (s, r) xs = some (ws, (s', r')) ∧ ws.flatten = zs.flatten := by
  intro xs
  induction xs with
  | nil =>
      intro s s' r r' ys zs ht hu
      cases ht
      cases hu
      exact ⟨[], rfl, rfl⟩
  | cons x xs ih =>
      intro s s' r r' ys zs ht hu
      obtain ⟨y, ys₁, s₁, hy, hys, rfl⟩ := feed_cons.mp ht
      cases y with
      | nil =>
          -- the second machine is not told
          obtain ⟨ws, hws, hflat⟩ := ih hys hu
          refine ⟨[] :: ws, feed_cons.mpr ⟨[], ws, (s₁, r), ?_, hws, rfl⟩, hflat⟩
          show (t.update s x).bind _ = _
          rw [hy]
          rfl
      | cons c y =>
          obtain ⟨z, zs₁, r₁, hz, hzs, rfl⟩ := feed_cons.mp hu
          obtain ⟨ws, hws, hflat⟩ := ih hys hzs
          refine ⟨z :: ws, feed_cons.mpr ⟨z, ws, (s₁, r₁), ?_, hws, rfl⟩,
            congrArg (z ++ ·) hflat⟩
          show (t.update s x).bind _ = _
          rw [hy]
          show (u.update r (c :: y)).map _ = _
          rw [hz]
          rfl

/-- **Two encodings are undone**, the outer one first. -/
theorem Undoes.pipe {f : List β → List α} {g : List γ → List β} (ht : t.Undoes f)
    (hu : u.Undoes g) : (t.pipe u).Undoes (f ∘ g) := by
  intro x xs hxs
  obtain ⟨ys, hys, hyx⟩ := ht (g x) xs hxs
  obtain ⟨zs, s, y, hfeed, hfinal, rfl⟩ := run_eq_some.mp hys
  obtain ⟨vs, hvs, rfl⟩ := hu x (nonempty (zs ++ [y])) ((flatten_nonempty _).trans hyx)
  obtain ⟨us, r, w, hfeed', hfinal', rfl⟩ := run_eq_some.mp hvs
  rw [nonempty, List.filter_append] at hfeed'
  obtain ⟨us₁, us₂, r₁, hus₁, hus₂, rfl⟩ := feed_append hfeed'
  obtain ⟨ws, hws, hflat⟩ := feed_pipe (r := u.init) hfeed hus₁
  cases y with
  | nil =>
      cases hus₂
      refine ⟨ws ++ [w], run_eq_some.mpr ⟨ws, (s, r), w, hws, ?_, rfl⟩, by simp [hflat]⟩
      show (t.final s).bind _ = _
      rw [hfinal]
      exact hfinal'
  | cons c y =>
      obtain ⟨z, us₃, r₂, hz, hus₃, rfl⟩ := feed_cons.mp hus₂
      cases hus₃
      refine ⟨ws ++ [z ++ w], run_eq_some.mpr ⟨ws, (s, r₁), z ++ w, hws, ?_, rfl⟩,
        by simp [hflat]⟩
      show (t.final s).bind _ = _
      rw [hfinal]
      show (u.update r₁ (c :: y)).bind _ = _
      rw [hz]
      show (u.final r).map _ = _
      rw [hfinal']
      rfl

end Pipe

end Transducer

end Burp.Stream
