/-
  Burp.Stream.Rounds — loops that depend on the outside.

  Each round of a loop is given something from outside and either goes on with a state or ends
  with a result.  A loop ends if some measure never goes up, and goes down whenever the
  outside is favourable, and if that is so again and again.

  Main results:
    * `rounds_result` — what holds of every result.
    * `rounds_end` — a loop with a measure ends.
-/
import Mathlib.Order.Basic
import Mathlib.Data.Nat.Init
import Mathlib.Tactic.Common

namespace Rounds

variable {ι σ ρ : Type} {step : ι → σ → σ ⊕ ρ}

/-- The loop after `n` rounds. -/
def rounds (step : ι → σ → σ ⊕ ρ) : ℕ → (ℕ → ι) → σ → σ ⊕ ρ
  | 0, _, s => .inl s
  | n + 1, o, s =>
      match step (o 0) s with
      | .inl s' => rounds step n (fun k => o (k + 1)) s'
      | .inr r => .inr r

/-- The inputs are favourable again and again. -/
def Recurrent (good : ι → Prop) (o : ℕ → ι) : Prop := ∀ n, ∃ m, n ≤ m ∧ good (o m)

theorem Recurrent.tail {good : ι → Prop} {o : ℕ → ι} (h : Recurrent good o) :
    Recurrent good fun k => o (k + 1) := by
  intro n
  obtain ⟨m, hm, hgood⟩ := h (n + 1)
  refine ⟨m - 1, by omega, ?_⟩
  have hsub : m - 1 + 1 = m := by omega
  show good (o (m - 1 + 1))
  rw [hsub]
  exact hgood

theorem rounds_succ (step : ι → σ → σ ⊕ ρ) (n : ℕ) (o : ℕ → ι) (s : σ) :
    rounds step (n + 1) o s
      = (step (o 0) s).elim (rounds step n fun k => o (k + 1)) .inr := by
  rw [rounds]
  cases step (o 0) s <;> rfl

/-- **Results**: an invariant of the rounds, and what it says of each result. -/
theorem rounds_result (step : ι → σ → σ ⊕ ρ) (ok : ι → Prop) {I : σ → Prop} {Q : ρ → Prop}
    (hgo : ∀ i s s', ok i → I s → step i s = .inl s' → I s')
    (hend : ∀ i s r, ok i → I s → step i s = .inr r → Q r) :
    ∀ {n : ℕ} {o : ℕ → ι} {s : σ}, (∀ k, ok (o k)) → I s →
      (∀ r, rounds step n o s = .inr r → Q r) ∧ ∀ s', rounds step n o s = .inl s' → I s' := by
  intro n
  induction n with
  | zero =>
      intro o s _ hs
      refine ⟨fun r hr => (by cases hr), fun s' hs' => ?_⟩
      cases hs'
      exact hs
  | succ n ih =>
      intro o s ho hs
      rw [rounds_succ]
      cases hstep : step (o 0) s with
      | inl s' => exact ih (fun k => ho (k + 1)) (hgo _ _ _ (ho 0) hs hstep)
      | inr r =>
          refine ⟨fun r' hr' => ?_, fun s' hs' => (by cases hs')⟩
          cases hr'
          exact hend _ _ _ (ho 0) hs hstep

/-- A round that ends the loop, or goes on with a state that is not above. -/
theorem rounds_succ_inr {n : ℕ} {o : ℕ → ι} {s : σ} {r : ρ} (h : step (o 0) s = .inr r) :
    rounds step (n + 1) o s = .inr r := by
  rw [rounds_succ, h, Sum.elim_inr]

theorem rounds_succ_inl {n : ℕ} {o : ℕ → ι} {s s' : σ} (h : step (o 0) s = .inl s') :
    rounds step (n + 1) o s = rounds step n (fun k => o (k + 1)) s' := by
  rw [rounds_succ, h, Sum.elim_inl]

/-- A loop that goes on after `n` rounds. -/
theorem rounds_add_inl {n m : ℕ} {o : ℕ → ι} {s s' : σ} (h : rounds step n o s = .inl s') :
    rounds step (n + m) o s = rounds step m (fun k => o (n + k)) s' := by
  induction n generalizing o s with
  | zero =>
      simp only [rounds, Sum.inl.injEq] at h
      rw [h]
      simp only [Nat.zero_add]
  | succ n ih =>
      cases hstep : step (o 0) s with
      | inl t =>
          rw [rounds_succ_inl hstep] at h
          rw [Nat.add_right_comm, rounds_succ_inl hstep, ih h]
          simp only [Nat.add_right_comm n 1]
      | inr r =>
          rw [rounds_succ_inr hstep] at h
          cases h

/-- A loop that has ended. -/
theorem rounds_add_inr {n m : ℕ} {o : ℕ → ι} {s : σ} {r : ρ} (h : rounds step n o s = .inr r) :
    rounds step (n + m) o s = .inr r := by
  induction n generalizing o s with
  | zero => cases h
  | succ n ih =>
      cases hstep : step (o 0) s with
      | inl t =>
          rw [rounds_succ_inl hstep] at h
          rw [Nat.add_right_comm, rounds_succ_inl hstep, ih h]
      | inr r' =>
          rw [rounds_succ_inr hstep] at h
          rw [Nat.add_right_comm, rounds_succ_inr hstep, h]

/-- **A loop with a measure ends.** -/
theorem rounds_end (step : ι → σ → σ ⊕ ρ) (ok : ι → Prop) {good : ι → Prop} {I : σ → Prop}
    {μ : σ → ℕ}
    (hgo : ∀ i s s', ok i → I s → step i s = .inl s' → I s' ∧ μ s' ≤ μ s)
    (hdown : ∀ i s s', ok i → good i → I s → step i s = .inl s' → μ s' < μ s)
    {o : ℕ → ι} {s : σ} (ho : ∀ k, ok (o k)) (hgood : Recurrent good o) (hs : I s) :
    ∃ n r, rounds step n o s = .inr r := by
  induction hμ : μ s using Nat.strong_induction_on generalizing o s with
  | _ m ih =>
      -- count down to the next favourable round
      obtain ⟨k, -, hk⟩ := hgood 0
      induction k generalizing o s with
      | zero =>
          cases hstep : step (o 0) s with
          | inr r => exact ⟨1, r, rounds_succ_inr hstep⟩
          | inl s' =>
              have hlt := hdown _ _ _ (ho 0) hk hs hstep
              obtain ⟨n, r, hr⟩ := ih (μ s') (hμ ▸ hlt) (fun j => ho (j + 1)) hgood.tail
                (hgo _ _ _ (ho 0) hs hstep).1 rfl
              exact ⟨n + 1, r, by rw [rounds_succ_inl hstep, hr]⟩
      | succ k ihk =>
          cases hstep : step (o 0) s with
          | inr r => exact ⟨1, r, rounds_succ_inr hstep⟩
          | inl s' =>
              obtain ⟨hs', hle⟩ := hgo _ _ _ (ho 0) hs hstep
              have hend : ∃ n r, rounds step n (fun j => o (j + 1)) s' = .inr r := by
                rcases Nat.lt_or_ge (μ s') m with hlt | hge
                · exact ih (μ s') hlt (fun j => ho (j + 1)) hgood.tail hs' rfl
                · exact ihk (fun j => ho (j + 1)) hgood.tail hs' (by omega) hk
              obtain ⟨n, r, hr⟩ := hend
              exact ⟨n + 1, r, by rw [rounds_succ_inl hstep, hr]⟩

end Rounds
