/-
  Burp.Backups.Keep — the 'keep' values and the levels they define.

  `finalise_config` (conf.c) turns the configured 'keep' lines into the flags that
  `do_remove_old_backups` multiplies up, adding one to the last of several; and
  `do_hardlinked_archive` (backup_phase4_server.c) uses the first of them to decide which
  previous backup is kept hardlinked.  A level is a step `n` (a product of 'keep' values)
  with the next value `k'`: the pass thins the ranges `(n, n·k']` of age.

  Main results:
    * `finaliseKeep_product` — what `finalise_config` accepts cannot overflow the
      `unsigned long` products of the pass.
    * `keepDeletions_eq_levels` — the loop over the 'keep' values is a loop over levels.
    * `levels_chain` — of two different steps the smaller, times its next value, divides
      the larger.
-/
import Burp.Backups.Retention

namespace Burp.Backups

/-! ## §1. From the configuration. -/

/-- The loop over the configured values: zero and a product above 52560000 are refused. -/
def keepLimit : Nat → List Nat → Bool
  | _, [] => true
  | mult, k :: ks => k != 0 && decide (mult * k ≤ 52560000) && keepLimit (mult * k) ks

/-- `if(conf->kpcount>1) l->kplist[i-1]->flag++`. -/
def bumpLast : List Nat → List Nat
  | [] => []
  | [k] => [k + 1]
  | k :: k' :: ks => k :: bumpLast (k' :: ks)

/-- The 'keep' part of `finalise_config`. -/
def finaliseKeep (ks : List Nat) : Option (List Nat) :=
  if keepLimit 1 ks then some (if 1 < ks.length then bumpLast ks else ks) else none

/-- `do_hardlinked_archive`.  `bno-2` is `unsigned long` arithmetic. -/
def doHardlinkedArchive (hardlinkedArchive : Bool) (keep : List Nat) (bno : Nat) : Bool :=
  if hardlinkedArchive then true
  else match keep with
    | kp :: _ :: _ => decide ((bno + (2 ^ 64 - 2)) % 2 ^ 64 % kp = 0)
    | _ => false

theorem keepLimit_foldl :
    ∀ (ks : List Nat) (m : Nat), m ≤ 52560000 → keepLimit m ks = true →
      ks.foldl (· * ·) m ≤ 52560000 ∧ ∀ k ∈ ks, 0 < k
  | [], m, hm, _ => ⟨hm, by simp⟩
  | k :: ks, m, _, h => by
      simp only [keepLimit, Bool.and_eq_true, bne_iff_ne, decide_eq_true_eq] at h
      obtain ⟨⟨hk, hmk⟩, hrest⟩ := h
      obtain ⟨hfold, hpos⟩ := keepLimit_foldl ks (m * k) hmk hrest
      refine ⟨hfold, ?_⟩
      intro j hj
      rcases List.mem_cons.mp hj with rfl | hj
      · exact Nat.pos_of_ne_zero hk
      · exact hpos j hj

theorem bumpLast_foldl_le :
    ∀ (ks : List Nat) (m : Nat), (∀ k ∈ ks, 0 < k) →
      (bumpLast ks).foldl (· * ·) m ≤ 2 * ks.foldl (· * ·) m
  | [], m, _ => by simp [bumpLast]; omega
  | [k], m, hpos => by
      have hk : 0 < k := hpos k (by simp)
      simp only [bumpLast, List.foldl_cons, List.foldl_nil]
      calc m * (k + 1) ≤ m * (2 * k) := Nat.mul_le_mul_left m (by omega)
        _ = 2 * (m * k) := by ring
  | k :: k' :: ks, m, hpos => by
      simpa [bumpLast] using
        bumpLast_foldl_le (k' :: ks) (m * k) (fun j hj => hpos j (List.mem_cons_of_mem _ hj))

/-- The products of the pass stay far below 2^64, so its `unsigned long` arithmetic is
that of the natural numbers. -/
theorem finaliseKeep_product {ks flags : List Nat} (h : finaliseKeep ks = some flags) :
    keepProduct flags < 2 ^ 64 := by
  unfold finaliseKeep at h
  split at h
  next hlim =>
    obtain ⟨hfold, hpos⟩ := keepLimit_foldl ks 1 (by norm_num) hlim
    injection h with h
    subst h
    unfold keepProduct
    split
    · have := bumpLast_foldl_le ks 1 hpos
      omega
    · omega
  next => simp at h

theorem finaliseKeep_eq {ks flags : List Nat} (h2 : 2 ≤ ks.length)
    (h : finaliseKeep ks = some flags) : flags = bumpLast ks := by
  unfold finaliseKeep at h
  split at h
  · rw [if_pos (by omega)] at h
    injection h with h
    exact h.symm
  · simp at h

/-! ## §2. Levels. -/

/-- The steps of the pass with the value that ends each level. -/
def levels : Nat → List Nat → List (Nat × Nat)
  | m, k :: k' :: ks => (m * k, k') :: levels (m * k) (k' :: ks)
  | _, _ => []

@[simp] theorem levels_nil (m : Nat) : levels m [] = [] := rfl

@[simp] theorem levels_singleton (m k : Nat) : levels m [k] = [] := rfl

theorem keepDeletions_eq_levels (arr : List Bu) :
    ∀ (ks : List Nat) (m : Nat),
      keepDeletions arr m ks = (levels m ks).flatMap fun l => levelDeletions arr l.1 (l.1 * l.2)
  | [], m => by simp [keepDeletions]
  | [k], m => by simp [keepDeletions]
  | k :: k' :: ks, m => by
      rw [keepDeletions, keepDeletions_eq_levels arr (k' :: ks) (m * k), levels,
        List.flatMap_cons]

/-- Every step is a multiple of the first one. -/
theorem levels_base :
    ∀ {ks : List Nat} {m : Nat} {l : Nat × Nat}, l ∈ levels m ks → m * ks.headD 1 ∣ l.1
  | [], _, _, h => by simp at h
  | [_], _, _, h => by simp at h
  | k :: k' :: ks, m, l, h => by
      rcases List.mem_cons.mp h with rfl | h
      · exact Nat.dvd_refl _
      · have := levels_base h
        simp only [List.headD_cons] at this ⊢
        exact (Nat.dvd_mul_right _ _).trans this

/-- A level ends within the product of all values. -/
theorem levels_end {ks : List Nat} (hpos : ∀ k ∈ ks, 0 < k) :
    ∀ {m : Nat} {l : Nat × Nat}, l ∈ levels m ks → l.1 * l.2 ≤ ks.foldl (· * ·) m := by
  induction ks with
  | nil => intro m l h; simp at h
  | cons k ks ih =>
      intro m l h
      cases ks with
      | nil => simp at h
      | cons k' ks =>
          have hpos' : ∀ j ∈ k' :: ks, 0 < j := fun j hj => hpos j (List.mem_cons_of_mem _ hj)
          rcases List.mem_cons.mp h with rfl | h
          · exact foldl_mul_le (fun j hj => hpos' j (List.mem_cons_of_mem _ hj)) (m * k * k')
          · exact ih hpos' h

/-- **Steps form a divisor chain**: two levels either have the same step, or the smaller
step times its next value divides the larger one. -/
theorem levels_chain :
    ∀ {ks : List Nat} {m : Nat} {l l' : Nat × Nat}, l ∈ levels m ks → l' ∈ levels m ks →
      l.1 = l'.1 ∨ l.1 * l.2 ∣ l'.1 ∨ l'.1 * l'.2 ∣ l.1
  | [], _, _, _, h, _ => by simp at h
  | [_], _, _, _, h, _ => by simp at h
  | k :: k' :: ks, m, l, l', h, h' => by
      rcases List.mem_cons.mp h with rfl | h
      · rcases List.mem_cons.mp h' with rfl | h'
        · exact Or.inl rfl
        · right; left
          simpa using levels_base h'
      · rcases List.mem_cons.mp h' with rfl | h'
        · right; right
          simpa using levels_base h
        · exact levels_chain h h'

/-- When the last value is at least two, every step has a level that is not empty. -/
theorem levels_nonempty :
    ∀ {ks : List Nat} {m : Nat} {l : Nat × Nat}, (∀ k ∈ ks, 0 < k) → 2 ≤ ks.getLastD 2 →
      l ∈ levels m ks → ∃ k, 2 ≤ k ∧ (l.1, k) ∈ levels m ks
  | [], _, _, _, _, h => by simp at h
  | [_], _, _, _, _, h => by simp at h
  | k :: k' :: ks, m, l, hpos, hlast, h => by
      have hpos' : ∀ j ∈ k' :: ks, 0 < j := fun j hj => hpos j (List.mem_cons_of_mem _ hj)
      have hlast' : 2 ≤ (k' :: ks).getLastD 2 := by simpa [List.getLastD] using hlast
      rcases List.mem_cons.mp h with rfl | h
      · by_cases h2 : 2 ≤ k'
        · exact ⟨k', h2, List.mem_cons_self⟩
        · -- the next value is 1: the next level has the same step
          have hk1 : k' = 1 := by
            have := hpos' k' (by simp)
            omega
          subst hk1
          cases ks with
          | nil => simp at hlast'
          | cons k'' ks =>
              have hnext : (m * k, k'') ∈ levels (m * k) (1 :: k'' :: ks) := by
                simp [levels]
              obtain ⟨j, hj, hmem⟩ := levels_nonempty hpos' hlast' hnext
              exact ⟨j, hj, List.mem_cons_of_mem _ hmem⟩
      · obtain ⟨j, hj, hmem⟩ := levels_nonempty hpos' hlast' h
        exact ⟨j, hj, List.mem_cons_of_mem _ hmem⟩

/-- Every step divides the product of all values but the last. -/
theorem levels_dvd_init :
    ∀ {ks : List Nat} {m : Nat} {l : Nat × Nat}, l ∈ levels m ks →
      l.1 ∣ ks.dropLast.foldl (· * ·) m
  | [], _, _, h => by simp at h
  | [_], _, _, h => by simp at h
  | k :: k' :: ks, m, l, h => by
      have hfold : ∀ (js : List Nat) (a : Nat), a ∣ js.foldl (· * ·) a := by
        intro js
        induction js with
        | nil => intro a; exact Nat.dvd_refl a
        | cons j js ih => intro a; exact (Nat.dvd_mul_right a j).trans (ih (a * j))
      rcases List.mem_cons.mp h with rfl | h
      · simpa using hfold (k' :: ks).dropLast (m * k)
      · simpa using levels_dvd_init h

end Burp.Backups
