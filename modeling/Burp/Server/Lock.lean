/-
  Burp.Server.Lock — the lock file of a client (lock.c), and who is inside at one time.

  A child of the server that is to work on the storage of a client opens the client's lock
  file, takes the lock of that file, writes its process id into it and goes on.  At its end it
  removes the file, and the lock goes when the process does.  A path is not a file: between the
  opening and the locking another child may remove the file, and what is locked then is a file
  that no path names, while the next child makes a new one.  The status server looks whether a
  client is running by taking the lock for a moment.

  Every system call of every process is a step of its own, in any order.

  Main results:
    * `inside_unique` — where nothing is removed between an opening and the locking after it, at
      most one process is inside.
    * `any_number_inside` — without that, there can be any number of them.
    * `newcomer_enters_iff` — a lock file that has been left behind keeps nobody out: only a
      process that runs and holds the lock does.
-/
import Mathlib.Logic.Relation
import Mathlib.Tactic

namespace Burp.Server.Lock

/-! ## §1. Processes and files. -/

/-- How far a process is; the number is that of the file it has opened. -/
inductive Point
  /-- It does nothing with the lock file. -/
  | idle
  /-- In `get_lock`, after `open` and after `lockf`. -/
  | opened (i : Nat)
  | locked (i : Nat)
  /-- `get_lock` has returned 0, and the path is in `gotlock`. -/
  | inside (i : Nat)
  /-- At the end of `run_child`, after `unlink(gotlock)`. -/
  | leaving (i : Nat)
  /-- `get_lock` has returned -1: somebody else has the lock, or the pid was not written. -/
  | refused
  | unwritten (i : Nat)
  /-- In `test_lock`, after `open` and after `lockf`. -/
  | probing (i : Nat)
  | testing (i : Nat)
  /-- The process has ended. -/
  | gone
  deriving DecidableEq

/-- A process at this point has the lock of this file.  The descriptor of `get_lock` is never
closed. -/
def Point.holds : Point → Option Nat
  | .locked i | .inside i | .leaving i | .unwritten i | .testing i => some i
  | _ => none

/-- The file that a process at this point has opened and is about to lock. -/
def Point.file : Point → Option Nat
  | .opened i | .probing i => some i
  | _ => none

/-- Files are numbered in the order in which they are made. -/
structure World where
  /-- The file that the path of the lock file names. -/
  named : Option Nat := none
  /-- The number of the next file. -/
  fresh : Nat := 0
  /-- The process that has locked a file. -/
  owner : Nat → Option Nat := fun _ => none
  point : Nat → Point := fun _ => .idle

/-- A process gets to another point. -/
def World.to (w : World) (p : Nat) (x : Point) : World :=
  { w with point := Function.update w.point p x }

/-- The lock of a file is taken. -/
def World.lock (w : World) (i p : Nat) : World :=
  { w with owner := Function.update w.owner i (some p) }

/-- All locks of a process go. -/
def World.unlock (w : World) (p : Nat) : World :=
  { w with owner := fun i => if w.owner i = some p then none else w.owner i }

/-- `open(path, O_WRONLY|O_CREAT, 0666)`. -/
def World.create (w : World) : World × Nat :=
  match w.named with
  | some i => (w, i)
  | none => ({ w with named := some w.fresh, fresh := w.fresh + 1 }, w.fresh)

/-- The system calls. -/
inductive Event
  /-- `get_lock`: `open`, `lockf`, and `write`, which may fail. -/
  | opens (p : Nat)
  | locks (p : Nat)
  | writes (p : Nat) (ok : Bool)
  /-- `unlink(gotlock)`. -/
  | unlinks (p : Nat)
  /-- The process ends, or is killed. -/
  | exits (p : Nat)
  /-- `test_lock`: `open` without `O_CREAT`, `lockf`, `close`. -/
  | probes (p : Nat)
  | tests (p : Nat)
  | closes (p : Nat)
  deriving DecidableEq

/-- One system call, if the process is where it makes that call. -/
def step (w : World) : Event → Option World
  | .opens p =>
      match w.point p with
      | .idle => some (w.create.1.to p (.opened w.create.2))
      | _ => none
  | .locks p =>
      match w.point p with
      | .opened i =>
          match w.owner i with
          | none => some ((w.lock i p).to p (.locked i))
          | some _ => some (w.to p .refused)
      | _ => none
  | .writes p ok =>
      match w.point p with
      | .locked i => some (w.to p (if ok then .inside i else .unwritten i))
      | _ => none
  | .unlinks p =>
      match w.point p with
      -- whatever the path names by now
      | .inside i => some ({ w with named := none }.to p (.leaving i))
      | _ => none
  | .exits p => some ((w.unlock p).to p .gone)
  | .probes p =>
      match w.point p, w.named with
      | .idle, some i => some (w.to p (.probing i))
      | _, _ => none
  | .tests p =>
      match w.point p with
      | .probing i =>
          match w.owner i with
          | none => some ((w.lock i p).to p (.testing i))
          -- could not have got the lock
          | some _ => some (w.to p .idle)
      | _ => none
  | .closes p =>
      match w.point p with
      | .testing _ => some ((w.unlock p).to p .idle)
      | _ => none

/-- A run of any processes, each of whose steps is one that `ok` allows. -/
inductive Reaches (ok : World → Event → Prop) : World → Prop
  | start : Reaches ok {}
  | next {w w' : World} {e : Event} (h : Reaches ok w) (hok : ok w e) (hstep : step w e = some w') :
      Reaches ok w'

theorem Reaches.mono {ok ok' : World → Event → Prop} (hsub : ∀ w e, ok w e → ok' w e) {w : World}
    (h : Reaches ok w) : Reaches ok' w := by
  induction h with
  | start => exact .start
  | next _ hok hstep ih => exact .next ih (hsub _ _ hok) hstep

/-! ## §2. Locks belong to who is at a point that holds them. -/

section Updates

variable (w : World) (p q i : Nat) (x : Point)

@[simp] theorem to_named : (w.to p x).named = w.named := rfl
@[simp] theorem to_fresh : (w.to p x).fresh = w.fresh := rfl
@[simp] theorem to_owner : (w.to p x).owner = w.owner := rfl
@[simp] theorem to_self : (w.to p x).point p = x := Function.update_self ..

theorem to_of_ne {w : World} {p q : Nat} {x : Point} (h : q ≠ p) :
    (w.to p x).point q = w.point q := Function.update_of_ne h ..

@[simp] theorem lock_named : (w.lock i p).named = w.named := rfl
@[simp] theorem lock_fresh : (w.lock i p).fresh = w.fresh := rfl
@[simp] theorem lock_point : (w.lock i p).point = w.point := rfl
@[simp] theorem lock_self : (w.lock i p).owner i = some p := Function.update_self ..

theorem lock_of_ne {w : World} {i j p : Nat} (h : j ≠ i) : (w.lock i p).owner j = w.owner j :=
  Function.update_of_ne h ..

@[simp] theorem unlock_named : (w.unlock p).named = w.named := rfl
@[simp] theorem unlock_fresh : (w.unlock p).fresh = w.fresh := rfl
@[simp] theorem unlock_point : (w.unlock p).point = w.point := rfl

theorem unlock_eq_some {w : World} {p q i : Nat} :
    (w.unlock p).owner i = some q ↔ w.owner i = some q ∧ q ≠ p := by
  show (if w.owner i = some p then none else w.owner i) = some q ↔ _
  by_cases h : w.owner i = some p
  · rw [if_pos h, h]
    simp only [reduceCtorEq, Option.some.injEq, false_iff, not_and, not_not]
    exact fun hpq => hpq.symm
  · rw [if_neg h]
    refine ⟨fun hq => ⟨hq, ?_⟩, And.left⟩
    rintro rfl
    exact h hq

@[simp] theorem create_owner : w.create.1.owner = w.owner := by
  unfold World.create; cases w.named <;> rfl

@[simp] theorem create_point : w.create.1.point = w.point := by
  unfold World.create; cases w.named <;> rfl

@[simp] theorem create_named : w.create.1.named = some w.create.2 := by
  unfold World.create
  cases h : w.named with
  | none => rfl
  | some i => exact h

theorem fresh_le_create : w.fresh ≤ w.create.1.fresh := by
  unfold World.create
  cases w.named with
  | none => exact Nat.le_succ _
  | some i => exact Nat.le_refl _

end Updates

@[simp] theorem unnamed_point (w : World) :
    ({ w with named := none } : World).point = w.point := rfl

/-- What a system call can do. -/
inductive Moves (w : World) : Event → World → Prop
  | opens {p : Nat} (hp : w.point p = .idle) :
      Moves w (.opens p) (w.create.1.to p (.opened w.create.2))
  | locks {p i : Nat} (hp : w.point p = .opened i) (hfree : w.owner i = none) :
      Moves w (.locks p) ((w.lock i p).to p (.locked i))
  | refuses {p i q : Nat} (hp : w.point p = .opened i) (hq : w.owner i = some q) :
      Moves w (.locks p) (w.to p .refused)
  | writes {p i : Nat} (hp : w.point p = .locked i) : Moves w (.writes p true) (w.to p (.inside i))
  | fails {p i : Nat} (hp : w.point p = .locked i) :
      Moves w (.writes p false) (w.to p (.unwritten i))
  | unlinks {p i : Nat} (hp : w.point p = .inside i) :
      Moves w (.unlinks p) ({ w with named := none }.to p (.leaving i))
  | exits {p : Nat} : Moves w (.exits p) ((w.unlock p).to p .gone)
  | probes {p i : Nat} (hp : w.point p = .idle) (hn : w.named = some i) :
      Moves w (.probes p) (w.to p (.probing i))
  | tests {p i : Nat} (hp : w.point p = .probing i) (hfree : w.owner i = none) :
      Moves w (.tests p) ((w.lock i p).to p (.testing i))
  | finds {p i q : Nat} (hp : w.point p = .probing i) (hq : w.owner i = some q) :
      Moves w (.tests p) (w.to p .idle)
  | closes {p i : Nat} (hp : w.point p = .testing i) : Moves w (.closes p) ((w.unlock p).to p .idle)

theorem moves_of_step {w w' : World} {e : Event} (h : step w e = some w') : Moves w e w' := by
  unfold step at h
  cases e with
  | opens p =>
      dsimp only at h
      split at h
      · next hp => exact Option.some.inj h ▸ .opens hp
      · exact absurd h nofun
  | locks p =>
      dsimp only at h
      split at h
      · next i hp =>
          cases ho : w.owner i with
          | none =>
              rw [ho] at h
              exact Option.some.inj h ▸ .locks hp ho
          | some q =>
              rw [ho] at h
              exact Option.some.inj h ▸ .refuses hp ho
      · exact absurd h nofun
  | writes p ok =>
      dsimp only at h
      split at h
      · next i hp =>
          cases ok with
          | true => exact Option.some.inj h ▸ .writes hp
          | false => exact Option.some.inj h ▸ .fails hp
      · exact absurd h nofun
  | unlinks p =>
      dsimp only at h
      split at h
      · next i hp => exact Option.some.inj h ▸ .unlinks hp
      · exact absurd h nofun
  | exits p => exact Option.some.inj h ▸ .exits
  | probes p =>
      dsimp only at h
      split at h
      · next i hp hn => exact Option.some.inj h ▸ .probes hp hn
      · exact absurd h nofun
  | tests p =>
      dsimp only at h
      split at h
      · next i hp =>
          cases ho : w.owner i with
          | none =>
              rw [ho] at h
              exact Option.some.inj h ▸ .tests hp ho
          | some q =>
              rw [ho] at h
              exact Option.some.inj h ▸ .finds hp ho
      · exact absurd h nofun
  | closes p =>
      dsimp only at h
      split at h
      · next i hp => exact Option.some.inj h ▸ .closes hp
      · exact absurd h nofun

/-- What every system call keeps. -/
structure Sound (w : World) : Prop where
  /-- A lock belongs to the process that is at a point to hold it. -/
  owner_iff : ∀ i p, w.owner i = some p ↔ (w.point p).holds = some i
  /-- The next file has not been made. -/
  named_lt : ∀ i, w.named = some i → i < w.fresh
  owner_lt : ∀ i p, w.owner i = some p → i < w.fresh
  file_lt : ∀ i p, (w.point p).file = some i → i < w.fresh

section Sound

variable {w w' : World} {p q i : Nat} {x : Point}

theorem Sound.free (h : Sound w) (hfresh : w.fresh ≤ i) : w.owner i = none := by
  cases ho : w.owner i with
  | none => rfl
  | some p => exact absurd (h.owner_lt i p ho) (Nat.not_lt.mpr hfresh)

/-- A process that moves to a point with the same locks. -/
theorem Sound.to (h : Sound w) (hx : x.holds = (w.point p).holds)
    (hfile : ∀ i, x.file = some i → i < w.fresh) : Sound (w.to p x) where
  owner_iff := by
    intro i q
    rw [to_owner, h.owner_iff]
    by_cases hq : q = p
    · rw [hq, to_self, hx]
    · rw [to_of_ne hq]
  named_lt := h.named_lt
  owner_lt := h.owner_lt
  file_lt := by
    intro i q hi
    by_cases hq : q = p
    · rw [hq, to_self] at hi
      exact hfile i hi
    · rw [to_of_ne hq] at hi
      exact h.file_lt i q hi

/-- A process that takes the lock of a file nobody has locked. -/
theorem Sound.lock (h : Sound w) (hfree : w.owner i = none) (hlt : i < w.fresh)
    (hp : (w.point p).holds = none) (hx : x.holds = some i) (hfile : x.file = none) :
    Sound ((w.lock i p).to p x) where
  owner_iff := by
    intro j q
    rw [to_owner]
    by_cases hq : q = p
    · rw [hq, to_self, hx]
      by_cases hj : j = i
      · rw [hj, lock_self]
        exact iff_of_true rfl rfl
      · rw [lock_of_ne hj, h.owner_iff, hp]
        exact iff_of_false nofun fun e => hj (Option.some.inj e).symm
    · rw [to_of_ne hq, lock_point, ← h.owner_iff]
      by_cases hj : j = i
      · rw [hj, lock_self, hfree]
        exact iff_of_false (fun e => hq (Option.some.inj e).symm) nofun
      · rw [lock_of_ne hj]
  named_lt := h.named_lt
  owner_lt := by
    intro j q hj
    by_cases hji : j = i
    · rw [hji]
      exact hlt
    · rw [to_owner, lock_of_ne hji] at hj
      exact h.owner_lt j q hj
  file_lt := by
    intro j q hj
    by_cases hq : q = p
    · rw [hq, to_self, hfile] at hj
      exact absurd hj nofun
    · rw [to_of_ne hq] at hj
      exact h.file_lt j q hj

/-- A process that gives up its locks. -/
theorem Sound.unlock (h : Sound w) (hx : x.holds = none) (hfile : x.file = none) :
    Sound ((w.unlock p).to p x) where
  owner_iff := by
    intro j q
    rw [to_owner, unlock_eq_some]
    by_cases hq : q = p
    · rw [hq, to_self, hx]
      exact iff_of_false (fun e => e.2 rfl) nofun
    · rw [to_of_ne hq, unlock_point, h.owner_iff]
      exact and_iff_left hq
  named_lt := h.named_lt
  owner_lt := fun j q hj => h.owner_lt j q (unlock_eq_some.mp hj).1
  file_lt := by
    intro j q hj
    by_cases hq : q = p
    · rw [hq, to_self, hfile] at hj
      exact absurd hj nofun
    · rw [to_of_ne hq] at hj
      exact h.file_lt j q hj

theorem Sound.create (h : Sound w) : Sound w.create.1 where
  owner_iff := by
    intro i p
    rw [create_owner, create_point]
    exact h.owner_iff i p
  named_lt := by
    intro i hi
    unfold World.create at hi ⊢
    cases hn : w.named with
    | none =>
        rw [hn] at hi
        obtain rfl : w.fresh = i := Option.some.inj hi
        exact Nat.lt_succ_self _
    | some j =>
        rw [hn] at hi
        exact h.named_lt i hi
  owner_lt := by
    intro i p hi
    rw [create_owner] at hi
    exact Nat.lt_of_lt_of_le (h.owner_lt i p hi) (fresh_le_create w)
  file_lt := by
    intro i p hi
    rw [create_point] at hi
    exact Nat.lt_of_lt_of_le (h.file_lt i p hi) (fresh_le_create w)

theorem Sound.unlink (h : Sound w) : Sound { w with named := none } where
  owner_iff := h.owner_iff
  named_lt := nofun
  owner_lt := h.owner_lt
  file_lt := h.file_lt

theorem start_sound : Sound {} where
  owner_iff := by
    intro i p
    exact iff_of_false nofun nofun
  named_lt := nofun
  owner_lt := nofun
  file_lt := nofun

theorem Sound.step (h : Sound w) {e : Event} (hstep : step w e = some w') : Sound w' := by
  cases moves_of_step hstep with
  | opens hp =>
      refine h.create.to (by rw [create_point, hp]; rfl) fun i hi => ?_
      obtain rfl := Option.some.inj hi
      exact h.create.named_lt _ (create_named w)
  | locks hp hfree => exact h.lock hfree (h.file_lt _ _ (by rw [hp]; rfl)) (by rw [hp]; rfl) rfl rfl
  | refuses hp hq => exact h.to (by rw [hp]; rfl) nofun
  | writes hp => exact h.to (by rw [hp]; rfl) nofun
  | fails hp => exact h.to (by rw [hp]; rfl) nofun
  | unlinks hp => exact h.unlink.to (by rw [unnamed_point, hp]; rfl) nofun
  | exits => exact h.unlock rfl rfl
  | probes hp hn =>
      refine h.to (by rw [hp]; rfl) fun i hi => ?_
      obtain rfl := Option.some.inj hi
      exact h.named_lt _ hn
  | tests hp hfree => exact h.lock hfree (h.file_lt _ _ (by rw [hp]; rfl)) (by rw [hp]; rfl) rfl rfl
  | finds hp hq => exact h.to (by rw [hp]; rfl) nofun
  | closes hp => exact h.unlock rfl rfl

theorem Reaches.sound {ok : World → Event → Prop} (h : Reaches ok w) : Sound w := by
  induction h with
  | start => exact start_sound
  | next _ _ hstep ih => exact ih.step hstep

/-- Two processes are never inside with the same file. -/
theorem Sound.inside_apart (h : Sound w) (hp : w.point p = .inside i) (hq : w.point q = .inside i) :
    p = q := by
  have howner := (h.owner_iff i p).mpr (by rw [hp]; rfl)
  rw [(h.owner_iff i q).mpr (by rw [hq]; rfl)] at howner
  exact (Option.some.inj howner).symm

end Sound

/-! ## §3. Runs in which no file is removed under somebody who has opened it. -/

/-- Nobody is in `get_lock` between `open` and `lockf` when the lock file is removed. -/
def Quiet (w : World) : Event → Prop
  | .unlinks _ => ∀ q i, w.point q ≠ .opened i
  | _ => True

/-- The file of a process that is on its way in, or is inside. -/
def Point.entering : Point → Option Nat
  | .opened i | .locked i | .inside i => some i
  | _ => none

/-- The path names the file of everybody who is on the way in, or inside. -/
def Current (w : World) : Prop := ∀ p i, (w.point p).entering = some i → w.named = some i

section Quiet

variable {w w' : World} {p q i : Nat}

theorem Current.to (h : Current w) {x : Point}
    (hx : ∀ i, x.entering = some i → w.named = some i) : Current (w.to p x) := by
  intro q i hi
  by_cases hq : q = p
  · rw [hq, to_self] at hi
    exact hx i hi
  · rw [to_of_ne hq] at hi
    exact h q i hi

theorem Current.create (h : Current w) : Current w.create.1 := by
  intro p i hi
  rw [create_point] at hi
  have hn := h p i hi
  unfold World.create
  rw [hn]
  exact hn

/-- Who has the lock of the file that the path names is the only one to be inside, or on the
way in with the lock. -/
theorem Current.owner_eq (h : Current w) (hs : Sound w) (hp : w.point p = .inside i) {q j : Nat}
    (hq : w.point q = .locked j ∨ w.point q = .inside j) : q = p := by
  have hj : w.named = some j := h q j (by rcases hq with hq | hq <;> rw [hq] <;> rfl)
  have hi : w.named = some i := h p i (by rw [hp]; rfl)
  obtain rfl : j = i := Option.some.inj (hj.symm.trans hi)
  have howner := (hs.owner_iff j p).mpr (by rw [hp]; rfl)
  rw [(hs.owner_iff j q).mpr (by rcases hq with hq | hq <;> rw [hq] <;> rfl)] at howner
  exact Option.some.inj howner

theorem Current.step (h : Current w) (hs : Sound w) {e : Event} (hquiet : Quiet w e)
    (hstep : step w e = some w') : Current w' := by
  cases moves_of_step hstep with
  | opens hp =>
      refine h.create.to fun i hi => ?_
      obtain rfl := Option.some.inj hi
      exact create_named w
  | locks hp hfree => exact Current.to h fun i hi => h _ i (by rw [hp]; exact hi)
  | refuses hp hq => exact h.to nofun
  | writes hp => exact h.to fun i hi => h _ i (by rw [hp]; exact hi)
  | fails hp => exact h.to nofun
  | @unlinks p i hp =>
      -- the quiet step leaves nobody with the file open, and who has locked it is `p`
      intro q j hj
      by_cases hqp : q = p
      · rw [hqp, to_self] at hj
        exact absurd hj nofun
      · rw [to_of_ne hqp, unnamed_point] at hj
        cases hq : w.point q with
        | opened k => exact absurd hq (hquiet q k)
        | locked k => exact absurd (h.owner_eq hs hp (Or.inl hq)) hqp
        | inside k => exact absurd (h.owner_eq hs hp (Or.inr hq)) hqp
        | _ => rw [hq] at hj; exact absurd hj nofun
  | exits => exact Current.to h nofun
  | probes hp hn => exact h.to nofun
  | tests hp hfree => exact Current.to h nofun
  | finds hp hq => exact h.to nofun
  | closes hp => exact Current.to h nofun

theorem Reaches.current (h : Reaches Quiet w) : Current w := by
  induction h with
  | start => exact nofun
  | next h hquiet hstep ih => exact ih.step h.sound hquiet hstep

/-- **At most one process is inside**, in every run in which the lock file is never removed
while somebody is between opening it and locking it. -/
theorem inside_unique (h : Reaches Quiet w) (hp : w.point p = .inside i) (q j : Nat)
    (hq : w.point q = .inside j) : q = p :=
  h.current.owner_eq h.sound hp (Or.inr hq)

end Quiet

/-- One process has been inside and has gone, and another one has come after it. -/
def oneAfterAnother : World :=
  (([.opens 0, .locks 0, .writes 0 true, .unlinks 0, .opens 1, .locks 1, .exits 0,
    .writes 1 true].foldlM step {}).getD {})

theorem oneAfterAnother_reached : Reaches Quiet oneAfterAnother :=
  .next (e := .writes 1 true) (.next (e := .exits 0) (.next (e := .locks 1)
    (.next (e := .opens 1) (.next (e := .unlinks 0) (.next (e := .writes 0 true)
      (.next (e := .locks 0) (.next (e := .opens 0) .start trivial rfl) trivial rfl) trivial rfl)
    (by
      intro q i hq
      by_cases h0 : q = 0
      · rw [h0, to_self] at hq
        exact absurd hq nofun
      · rw [to_of_ne h0, to_of_ne h0, lock_point, to_of_ne h0] at hq
        exact absurd hq nofun)
    rfl) trivial rfl) trivial rfl) trivial rfl) trivial rfl

theorem inside_unique_oneAfterAnother : ∃! p, ∃ i, oneAfterAnother.point p = .inside i :=
  ⟨1, ⟨1, rfl⟩, fun q ⟨j, hq⟩ => inside_unique oneAfterAnother_reached rfl q j hq⟩

/-! ## §4. Runs in which it is. -/

section Enter

variable {ok : World → Event → Prop} {w : World} {p i : Nat}

theorem step_opens (hp : w.point p = .idle) :
    step w (.opens p) = some (w.create.1.to p (.opened w.create.2)) := by
  unfold step
  dsimp only
  rw [hp]

theorem step_locks (hp : w.point p = .opened i) (hfree : w.owner i = none) :
    step w (.locks p) = some ((w.lock i p).to p (.locked i)) := by
  unfold step
  dsimp only
  rw [hp]
  dsimp only
  rw [hfree]

theorem step_refuses (hp : w.point p = .opened i) {q : Nat} (hq : w.owner i = some q) :
    step w (.locks p) = some (w.to p .refused) := by
  unfold step
  dsimp only
  rw [hp]
  dsimp only
  rw [hq]

theorem step_writes (hp : w.point p = .locked i) :
    step w (.writes p true) = some (w.to p (.inside i)) := by
  unfold step
  dsimp only
  rw [hp]
  rfl

theorem step_unlinks (hp : w.point p = .inside i) :
    step w (.unlinks p) = some ({ w with named := none }.to p (.leaving i)) := by
  unfold step
  dsimp only
  rw [hp]

/-- All of `get_lock`, by a process that nobody interrupts. -/
def getLock (p : Nat) : List Event := [.opens p, .locks p, .writes p true]

/-- The world after it. -/
def World.entered (w : World) (p : Nat) : World :=
  ((w.create.1.lock w.create.2 p).to p (.inside w.create.2))

theorem getLock_enters (hp : w.point p = .idle) (hfree : w.owner w.create.2 = none) :
    (getLock p).foldlM step w = some (w.entered p) := by
  have hlocks := step_locks (w := w.create.1.to p (.opened w.create.2)) (p := p) (to_self ..)
    (by rw [to_owner, create_owner]; exact hfree)
  have hwrites := step_writes
    (w := ((w.create.1.to p (.opened w.create.2)).lock w.create.2 p).to p (.locked w.create.2))
    (p := p) (to_self ..)
  simp only [getLock, List.foldlM_cons, step_opens hp, Option.bind_eq_bind, Option.bind_some, hlocks,
    hwrites, List.foldlM_nil, Option.pure_def, World.entered]
  simp [World.to, World.lock]

theorem getLock_refused (hp : w.point p = .idle) {q : Nat} (hq : w.owner w.create.2 = some q) :
    (getLock p).foldlM step w = none := by
  have hrefuses := step_refuses (w := w.create.1.to p (.opened w.create.2)) (p := p) (to_self ..)
    (by rw [to_owner, create_owner]; exact hq)
  have hwrites : step ((w.create.1.to p (.opened w.create.2)).to p .refused) (.writes p true)
      = none := by
    simp [step]
  simp only [getLock, List.foldlM_cons, step_opens hp, Option.bind_eq_bind, Option.bind_some,
    hrefuses, hwrites, Option.bind_none]

theorem Reaches.run (es : List Event) {w' : World} (h : Reaches (fun _ _ => True) w)
    (hrun : es.foldlM step w = some w') : Reaches (fun _ _ => True) w' := by
  induction es generalizing w with
  | nil => exact Option.some.inj hrun ▸ h
  | cons e es ih =>
      rw [List.foldlM_cons] at hrun
      obtain ⟨v, hv, hrest⟩ := Option.bind_eq_some_iff.mp hrun
      exact ih (h.next trivial hv) hrest

theorem entered_point (w : World) (p : Nat) :
    (w.entered p).point = Function.update w.point p (.inside w.create.2) := by
  rw [World.entered, World.to, lock_point, create_point]

theorem create_eq_named {w : World} {i : Nat} (h : w.named = some i) : w.create.2 = i := by
  unfold World.create
  rw [h]

theorem create_eq_fresh {w : World} (h : w.named = none) : w.create.2 = w.fresh := by
  unfold World.create
  rw [h]

/-- **Only a process that runs keeps another one out**: whatever others have done before, and
wherever they have been killed, a process that goes through `get_lock` without being interrupted
gets in unless some process is at a point where it has the lock of the file that the path names
now. -/
theorem newcomer_enters_iff (h : Reaches (fun _ _ => True) w) (hp : w.point p = .idle) :
    (∃ w' i, (getLock p).foldlM step w = some w' ∧ w'.point p = .inside i)
      ↔ ∀ i q, w.named = some i → (w.point q).holds ≠ some i := by
  have hs := h.sound
  constructor
  · rintro ⟨w', i, hrun, -⟩ j q hn hq
    have howner : w.owner w.create.2 = some q := by
      rw [create_eq_named hn]
      exact (hs.owner_iff j q).mpr hq
    rw [getLock_refused hp howner] at hrun
    exact absurd hrun nofun
  · intro hnobody
    have hfree : w.owner w.create.2 = none := by
      cases hn : w.named with
      | none => exact hs.free (create_eq_fresh hn).ge
      | some i =>
          rw [create_eq_named hn]
          cases ho : w.owner i with
          | none => rfl
          | some q => exact absurd ((hs.owner_iff i q).mp ho) (hnobody i q hn)
    refine ⟨_, w.create.2, getLock_enters hp hfree, ?_⟩
    rw [entered_point, Function.update_self]

/-- A process has been killed while it was inside. -/
def killedInside : World :=
  ([Event.opens 0, .locks 0, .writes 0 true, .exits 0].foldlM step {}).getD {}

theorem killedInside_reached : Reaches (fun _ _ => True) killedInside :=
  .run [.opens 0, .locks 0, .writes 0 true, .exits 0] .start rfl

/-- Its lock file is still there, and the next one gets in. -/
theorem newcomer_enters_killedInside :
    ∃ w' i, (getLock 1).foldlM step killedInside = some w' ∧ w'.point 1 = .inside i := by
  refine (newcomer_enters_iff killedInside_reached rfl).mpr ?_
  intro i q _ hq
  by_cases h0 : q = 0
  · subst h0
    exact absurd hq nofun
  · have hidle : killedInside.point q = .idle := by
      show (World.to _ 0 _).point q = _
      rw [to_of_ne h0, unlock_point, to_of_ne h0, to_of_ne h0, lock_point, to_of_ne h0]
      rfl
    rw [hidle] at hq
    exact absurd hq nofun

end Enter

/-! ### Any number of processes. -/

/-- `n` processes are inside, the path names nothing, and the processes from `m` on have not done
anything yet. -/
structure Crowded (n m : Nat) (w : World) : Prop where
  reached : Reaches (fun _ _ => True) w
  named : w.named = none
  idle : ∀ p, m ≤ p → w.point p = .idle
  inside : ∃ ps : Finset Nat, ps.card = n ∧ ∀ p ∈ ps, p < m ∧ ∃ i, w.point p = .inside i

theorem start_crowded : Crowded 0 0 {} where
  reached := .start
  named := rfl
  idle := fun _ _ => rfl
  inside := ⟨∅, rfl, nofun⟩

/-- One process goes in, and leaves after a second one has opened its file.  The second one is
then inside with a file that has no name, and the path is free for a third. -/
theorem Crowded.succ {n m : Nat} {w : World} (h : Crowded n m w) :
    ∃ w', Crowded (n + 1) (m + 2) w' := by
  have hfree : w.owner w.create.2 = none := h.reached.sound.free (create_eq_fresh h.named).ge
  -- the first one goes in
  have hin := h.reached.run _ (getLock_enters (h.idle m (Nat.le_refl m)) hfree)
  obtain ⟨u, hu⟩ : ∃ u, u = w.entered m := ⟨_, rfl⟩
  obtain ⟨i, hi⟩ : ∃ i, i = w.create.2 := ⟨_, rfl⟩
  have hpoint : u.point = Function.update w.point m (.inside i) := by rw [hu, hi, entered_point]
  have hnamed : u.named = some i := by rw [hu, hi]; exact create_named w
  have howner : u.owner i = some m := by rw [hu, hi]; exact lock_self ..
  have hne : m + 1 ≠ m := Nat.succ_ne_self m
  have hfirst : u.point m = .inside i := by rw [hpoint, Function.update_self]
  have hsecond : u.point (m + 1) = .idle := by
    rw [hpoint, Function.update_of_ne hne]
    exact h.idle _ (Nat.le_succ m)
  rw [← hu] at hin
  have hcreate : u.create = (u, i) := by
    unfold World.create
    rw [hnamed]
  -- the second one opens the same file
  have hopens := hin.next trivial (step_opens hsecond)
  rw [hcreate] at hopens
  -- the first one removes it and ends
  have hunlinks := hopens.next trivial
    (step_unlinks (p := m) ((to_of_ne hne.symm).trans hfirst))
  have hexits := hunlinks.next (e := .exits m) trivial rfl
  -- the lock is free
  have hlocks := hexits.next (e := .locks (m + 1)) trivial (step_locks (i := i)
    (by rw [to_of_ne hne, unlock_point, to_of_ne hne, unnamed_point, to_self])
    (if_pos howner))
  have hwrites := hlocks.next trivial (step_writes (p := m + 1) (to_self ..))
  refine ⟨_, hwrites, rfl, ?_, ?_⟩
  · intro p hp
    have h1 : p ≠ m + 1 := by omega
    have h0 : p ≠ m := by omega
    simp only [to_of_ne h1, to_of_ne h0, lock_point, unlock_point, hpoint,
      Function.update_of_ne h0]
    exact h.idle p (by omega)
  · obtain ⟨ps, hcard, hps⟩ := h.inside
    have hnew : m + 1 ∉ ps := fun hmem => absurd (hps _ hmem).1 (by omega)
    refine ⟨insert (m + 1) ps, by rw [Finset.card_insert_of_notMem hnew, hcard], fun p hp => ?_⟩
    rcases Finset.mem_insert.mp hp with rfl | hp
    · exact ⟨by omega, i, to_self ..⟩
    · obtain ⟨hlt, j, hj⟩ := hps p hp
      have h1 : p ≠ m + 1 := by omega
      have h0 : p ≠ m := by omega
      refine ⟨by omega, j, ?_⟩
      simp only [to_of_ne h1, to_of_ne h0, lock_point, unlock_point, hpoint,
        Function.update_of_ne h0]
      exact hj

theorem exists_crowded (n : Nat) : ∃ w, Crowded n (2 * n) w := by
  induction n with
  | zero => exact ⟨{}, start_crowded⟩
  | succ n ih =>
      obtain ⟨w, hw⟩ := ih
      exact hw.succ

/-- **Any number of processes can be inside at once**: one that removes the lock file takes the
name from the file that the next one has opened already. -/
theorem any_number_inside (n : Nat) :
    ∃ w, Reaches (fun _ _ => True) w
      ∧ ∃ ps : Finset Nat, ps.card = n ∧ ∀ p ∈ ps, ∃ i, w.point p = .inside i := by
  obtain ⟨w, hw⟩ := exists_crowded n
  obtain ⟨ps, hcard, hps⟩ := hw.inside
  exact ⟨w, hw.reached, ps, hcard, fun p hp => (hps p hp).2⟩

end Burp.Server.Lock
