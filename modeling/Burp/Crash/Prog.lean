/-
  Burp.Crash.Prog — programs that can be killed between two of their operations.

  A program over a state type is a function from the start state to the list of states it
  passes through, one for each operation, and its result.  The points at which it can be
  killed are then a list, and "whatever state the kill leaves" is a bounded quantifier.
  The logic has two judgments: `Spec`, a Hoare triple with a crash condition that every
  state passed through has to meet, and `Keeps`, for a crash condition that is
  an invariant of every operation.

  Main results:
    * `Spec.bind` — triples compose.
    * `Keeps.bind` — so do invariants.
    * `Keeps.restarts` — an invariant survives any number of killed attempts.
-/
import Mathlib.Logic.Relation
import Mathlib.Tactic

namespace Crash

/-! ## §1. Programs. -/

/-- The states after each operation, in order, and the result. -/
def Prog (σ α : Type) := σ → List σ × α

namespace Prog

variable {σ α β : Type}

/-- The states after each operation. -/
def visited (p : Prog σ α) (s : σ) : List σ := (p s).1

/-- What the program returns. -/
def result (p : Prog σ α) (s : σ) : α := (p s).2

/-- The state it ends in. -/
def final (p : Prog σ α) (s : σ) : σ := (p.visited s).getLastD s

/-- The states that a kill between two operations can leave. -/
def killed (p : Prog σ α) (s : σ) : List σ := s :: p.visited s

/-- A computation that looks at the state. -/
def read (f : σ → α) : Prog σ α := fun s => ([], f s)

/-- One operation. -/
def op (f : σ → σ × α) : Prog σ α := fun s => ([(f s).1], (f s).2)

instance : Monad (Prog σ) where
  pure a := fun _ => ([], a)
  bind p f := fun s =>
    let r := p s
    let r' := f r.2 (r.1.getLastD s)
    (r.1 ++ r'.1, r'.2)

@[simp] theorem visited_pure (a : α) (s : σ) : (pure a : Prog σ α).visited s = [] := rfl
@[simp] theorem result_pure (a : α) (s : σ) : (pure a : Prog σ α).result s = a := rfl
@[simp] theorem final_pure (a : α) (s : σ) : (pure a : Prog σ α).final s = s := rfl

@[simp] theorem visited_read (f : σ → α) (s : σ) : (read f).visited s = [] := rfl
@[simp] theorem result_read (f : σ → α) (s : σ) : (read f).result s = f s := rfl
@[simp] theorem final_read (f : σ → α) (s : σ) : (read f).final s = s := rfl

@[simp] theorem visited_op (f : σ → σ × α) (s : σ) : (op f).visited s = [(f s).1] := rfl
@[simp] theorem result_op (f : σ → σ × α) (s : σ) : (op f).result s = (f s).2 := rfl
@[simp] theorem final_op (f : σ → σ × α) (s : σ) : (op f).final s = (f s).1 := rfl

@[simp] theorem visited_bind (p : Prog σ α) (f : α → Prog σ β) (s : σ) :
    (p >>= f).visited s = p.visited s ++ (f (p.result s)).visited (p.final s) := rfl

@[simp] theorem result_bind (p : Prog σ α) (f : α → Prog σ β) (s : σ) :
    (p >>= f).result s = (f (p.result s)).result (p.final s) := rfl

/-- Looking at the state is no operation. -/
theorem read_bind (f : σ → α) (g : α → Prog σ β) (s : σ) : (read f >>= g) s = g (f s) s := rfl

theorem result_congr {p q : Prog σ α} {s : σ} (h : p s = q s) : p.result s = q.result s :=
  congrArg Prod.snd h

theorem final_congr {p q : Prog σ α} {s : σ} (h : p s = q s) : p.final s = q.final s := by
  unfold final visited
  rw [h]

/-- A program that turns out to do no operation. -/
theorem still_bind {p : Prog σ α} {s : σ} {a : α} (h : p s = ([], a)) (f : α → Prog σ β) :
    (p >>= f) s = f a s := by
  change (let r := p s; let r' := f r.2 (r.1.getLastD s); (r.1 ++ r'.1, r'.2)) = _
  rw [h]
  rfl

theorem getLastD_append (l₁ l₂ : List σ) (s : σ) :
    (l₁ ++ l₂).getLastD s = l₂.getLastD (l₁.getLastD s) := by
  induction l₁ generalizing s with
  | nil => rfl
  | cons a as ih => simp only [List.cons_append, List.getLastD_cons, ih]

@[simp] theorem final_bind (p : Prog σ α) (f : α → Prog σ β) (s : σ) :
    (p >>= f).final s = (f (p.result s)).final (p.final s) :=
  getLastD_append _ _ _

theorem mem_killed_self (p : Prog σ α) (s : σ) : s ∈ p.killed s := List.mem_cons_self

theorem final_mem_killed (p : Prog σ α) (s : σ) : p.final s ∈ p.killed s := by
  unfold final killed
  cases h : p.visited s with
  | nil => simp
  | cons a as =>
      rw [List.getLastD_eq_getLast?, List.getLast?_eq_getLast_of_ne_nil (by simp),
        Option.getD_some]
      exact List.mem_cons_of_mem _ (List.getLast_mem _)

theorem mem_killed_bind {p : Prog σ α} {f : α → Prog σ β} {s t : σ} :
    t ∈ (p >>= f).killed s ↔ t ∈ p.killed s ∨ t ∈ (f (p.result s)).killed (p.final s) := by
  constructor
  · intro h
    simp only [killed, visited_bind, List.mem_cons, List.mem_append] at h
    rcases h with rfl | h | h
    · exact Or.inl (mem_killed_self p t)
    · exact Or.inl (List.mem_cons_of_mem _ h)
    · exact Or.inr (List.mem_cons_of_mem _ h)
  · rintro (h | h)
    · simp only [killed, visited_bind, List.mem_cons, List.mem_append] at h ⊢
      exact h.imp id Or.inl
    · rcases List.mem_cons.mp h with rfl | h
      · have := final_mem_killed p s
        simp only [killed, visited_bind, List.mem_cons, List.mem_append] at this ⊢
        exact this.imp id Or.inl
      · simp only [killed, visited_bind, List.mem_cons, List.mem_append]
        exact Or.inr (Or.inr h)

/-- Programs that do the same from a state are killed in the same states. -/
theorem killed_congr {p : Prog σ α} {q : Prog σ β} {s : σ} (h : (p s).1 = (q s).1) :
    p.killed s = q.killed s := by
  unfold killed visited
  rw [h]

theorem killed_pure (a : α) (s : σ) : (pure a : Prog σ α).killed s = [s] := rfl
theorem killed_read (f : σ → α) (s : σ) : (read f).killed s = [s] := rfl
theorem killed_op (f : σ → σ × α) (s : σ) : (op f).killed s = [s, (f s).1] := rfl

/-- Run the operations of a list in order. -/
def forEach (l : List α) (f : α → Prog σ Unit) : Prog σ Unit :=
  match l with
  | [] => pure ()
  | a :: as => do
      f a
      forEach as f

end Prog

/-! ## §2. Triples with a crash condition. -/

/-- From `s`, every state passed through meets `I`, and `Q` holds at the end. -/
structure Spec {σ α : Type} (p : Prog σ α) (s : σ) (I : σ → Prop) (Q : α → σ → Prop) :
    Prop where
  crash : ∀ t ∈ p.killed s, I t
  post : Q (p.result s) (p.final s)

namespace Spec

variable {σ α β : Type} {s : σ} {I J : σ → Prop}

theorem pure {a : α} {Q : α → σ → Prop} (hI : I s) (hQ : Q a s) :
    Spec (Pure.pure a) s I Q :=
  ⟨fun t ht => by rw [Prog.killed_pure, List.mem_singleton] at ht; rwa [ht], hQ⟩

theorem read {f : σ → α} {Q : α → σ → Prop} (hI : I s) (hQ : Q (f s) s) :
    Spec (Prog.read f) s I Q :=
  ⟨fun t ht => by rw [Prog.killed_read, List.mem_singleton] at ht; rwa [ht], hQ⟩

theorem op {f : σ → σ × α} {Q : α → σ → Prop} (hI : I s) (hI' : I (f s).1)
    (hQ : Q (f s).2 (f s).1) : Spec (Prog.op f) s I Q := by
  refine ⟨fun t ht => ?_, hQ⟩
  rw [Prog.killed_op] at ht
  rcases List.mem_cons.mp ht with rfl | ht
  · exact hI
  · rw [List.mem_singleton] at ht
    rwa [ht]

/-- Triples compose. -/
theorem bind {p : Prog σ α} {f : α → Prog σ β} {Q : β → σ → Prop}
    (h : Spec p s I fun a s' => Spec (f a) s' I Q) : Spec (p >>= f) s I Q := by
  refine ⟨fun t ht => ?_, ?_⟩
  · rcases Prog.mem_killed_bind.mp ht with ht | ht
    · exact h.crash t ht
    · exact h.post.crash t ht
  · rw [Prog.result_bind, Prog.final_bind]
    exact h.post.post

theorem mono {p : Prog σ α} {Q R : α → σ → Prop} (h : Spec p s I Q)
    (hI : ∀ t, I t → J t) (hQ : ∀ a t, I t → Q a t → R a t) : Spec p s J R :=
  ⟨fun t ht => hI t (h.crash t ht),
    hQ _ _ (h.crash _ (Prog.final_mem_killed p s)) h.post⟩

theorem start {p : Prog σ α} {Q : α → σ → Prop} (h : Spec p s I Q) : I s :=
  h.crash s (Prog.mem_killed_self p s)

end Spec

/-! ## §3. Invariants of every operation. -/

/-- Every state that `p` passes through meets `I`, if the first one does. -/
def Keeps {σ α : Type} (I : σ → Prop) (p : Prog σ α) : Prop :=
  ∀ s, I s → ∀ t ∈ p.killed s, I t

namespace Keeps

variable {σ α β : Type} {I : σ → Prop}

theorem pure (a : α) : Keeps I (Pure.pure a : Prog σ α) := by
  intro s hs t ht
  rw [Prog.killed_pure, List.mem_singleton] at ht
  rwa [ht]

theorem read (f : σ → α) : Keeps I (Prog.read f) := by
  intro s hs t ht
  rw [Prog.killed_read, List.mem_singleton] at ht
  rwa [ht]

theorem op {f : σ → σ × α} (h : ∀ s, I s → I (f s).1) : Keeps I (Prog.op f) := by
  intro s hs t ht
  rw [Prog.killed_op] at ht
  rcases List.mem_cons.mp ht with rfl | ht
  · exact hs
  · rw [List.mem_singleton] at ht
    rw [ht]
    exact h s hs

theorem final {p : Prog σ α} (h : Keeps I p) {s : σ} (hs : I s) : I (p.final s) :=
  h s hs _ (Prog.final_mem_killed p s)

/-- Invariants compose. -/
theorem bind {p : Prog σ α} {f : α → Prog σ β} (hp : Keeps I p) (hf : ∀ a, Keeps I (f a)) :
    Keeps I (p >>= f) := by
  intro s hs t ht
  rcases Prog.mem_killed_bind.mp ht with ht | ht
  · exact hp s hs t ht
  · exact hf _ _ (hp.final hs) t ht

/-- The same, where the second program depends on what the first one returned. -/
theorem bind_result {p : Prog σ α} {f : α → Prog σ β} (hp : Keeps I p)
    (hf : ∀ s, I s → Keeps I (f (p.result s))) : Keeps I (p >>= f) := by
  intro s hs t ht
  rcases Prog.mem_killed_bind.mp ht with ht | ht
  · exact hp s hs t ht
  · exact hf s hs _ (hp.final hs) t ht

theorem ite {P : Prop} [Decidable P] {p q : Prog σ α} (hp : Keeps I p) (hq : Keeps I q) :
    Keeps I (if P then p else q) := by
  split_ifs
  · exact hp
  · exact hq

/-- A step whose failure is tested for. -/
theorem test {p : Prog σ Bool} {f g : Prog σ α} (hp : Keeps I p) (hf : Keeps I f)
    (hg : Keeps I g) : Keeps I (p >>= fun ok => if ok = true then f else g) :=
  bind hp fun _ => ite hf hg

theorem forEach {l : List α} {f : α → Prog σ Unit} (hf : ∀ a ∈ l, Keeps I (f a)) :
    Keeps I (Prog.forEach l f) := by
  induction l with
  | nil => exact Keeps.pure ()
  | cons a as ih =>
      exact bind (hf a List.mem_cons_self)
        fun _ => ih fun b hb => hf b (List.mem_cons_of_mem _ hb)

theorem and {J : σ → Prop} {p : Prog σ α} (hI : Keeps I p) (hJ : Keeps J p) :
    Keeps (fun s => I s ∧ J s) p :=
  fun s hs t ht => ⟨hI s hs.1 t ht, hJ s hs.2 t ht⟩

theorem spec {p : Prog σ α} (h : Keeps I p) {s : σ} (hs : I s) :
    Spec p s I fun _ t => I t :=
  ⟨h s hs, h.final hs⟩

end Keeps

/-! ## §4. Killed attempts. -/

/-- `t` is left by any number of attempts, each of them killed at some point. -/
def Attempts {σ α : Type} (p : Prog σ α) : σ → σ → Prop :=
  Relation.ReflTransGen fun s t => t ∈ p.killed s

/-- An invariant survives any number of killed attempts. -/
theorem Keeps.restarts {σ α : Type} {I : σ → Prop} {p : Prog σ α} (h : Keeps I p) {s t : σ}
    (hs : I s) (hst : Attempts p s t) : I t := by
  induction hst with
  | refl => exact hs
  | tail _ hkill ih => exact h _ ih _ hkill

end Crash
