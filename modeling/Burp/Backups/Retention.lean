/-
  Burp.Backups.Retention — which backups `remove_old_backups` deletes.

  `do_remove_old_backups` (current_backups_server.c) makes one pass over the array: for
  each pair of neighbouring 'keep' values it walks ranges of transposed indexes and
  thins each range down to one backup, newest first and deletable ones only; then it
  takes the backups that are older than the product of all 'keep' values.
  `remove_old_backups` repeats the pass until it deletes nothing.  The flags are
  computed once a pass, so the question is whether a pass can act on a stale one.

  Main results:
    * `mem_doRemoveOldBackups` — what is deleted is in a range and deletable, or is the
      oldest backup and too old.
    * `doRemoveOldBackups_nodup` — no backup is deleted twice in one pass.
    * `retention_never_breaks_restore` — the newest backup stays, and so does the
      successor of every backup that is not hardlinked, in one pass and in the loop.
-/
import Burp.Backups.Bu

namespace Burp.Backups

/-! ## §1. One pass. -/

/-- `s<arr[b].trindex && arr[b].trindex<=r`. -/
def inRange (s r : Nat) (b : Bu) : Bool := decide (s < b.trindex) && decide (b.trindex ≤ r)

/-- The loop `for(b=a-1; b>=0; b--)`, over the array from its newest end: delete
deletable backups of the range until one is left. -/
def deleteInRange (s r : Nat) : Nat → List Bu → List Bu
  | _, [] => []
  | count, b :: bs =>
      if inRange s r b && b.deletable then
        if count - 1 ≤ 1 then [b] else b :: deleteInRange s r (count - 1) bs
      else deleteInRange s r count bs

/-- What is deleted from the range `(s, r]`. -/
def rangeDeletions (arr : List Bu) (s r : Nat) : List Bu :=
  let count := (arr.filter (inRange s r)).length
  if 1 < count then deleteInRange s r count arr.reverse else []

/-- The upper ends `for(r=upto; r>n; r-=n)`.  With `n ≥ 1` the loop makes at most `upto`
steps, which is the fuel it is called with. -/
def rangeEnds (n : Nat) : Nat → Nat → List Nat
  | 0, _ => []
  | fuel + 1, r => if n < r then r :: rangeEnds n fuel (r - n) else []

/-- All ranges of one level. -/
def levelDeletions (arr : List Bu) (n upto : Nat) : List Bu :=
  (rangeEnds n upto upto).flatMap fun r => rangeDeletions arr (r - n) r

/-- The loop over the 'keep' values, with `m` the product so far. -/
def keepDeletions (arr : List Bu) : Nat → List Nat → List Bu
  | _, [] => []
  | m, k :: ks =>
      (match ks with
        | [] => []
        | k' :: _ => levelDeletions arr (m * k) (m * k * k')) ++ keepDeletions arr (m * k) ks

/-- `m` after the loop over the 'keep' values. -/
def keepProduct (keep : List Nat) : Nat := keep.foldl (· * ·) 1

/-- "Remove the very oldest backups": from the first one with `trindex > m` down to 0. -/
def oldestDeletions (arr : List Bu) (m : Nat) : List Bu :=
  match arr.findIdx? (fun b => decide (m < b.trindex)) with
  | none => []
  | some b => (arr.take (b + 1)).reverse

/-- `do_remove_old_backups`: the backups handed to `delete_backup`, in that order. -/
def doRemoveOldBackups (keep : List Nat) (arr : List Bu) : List Bu :=
  keepDeletions arr 1 keep ++ oldestDeletions arr (keepProduct keep)

/-- The directories left when every `delete_backup` of a pass has succeeded. -/
def afterPass (keep : List Nat) (found : List Bu) : List Bu :=
  (getCurrentBackups found).filter
    fun b => decide (b ∉ doRemoveOldBackups keep (getCurrentBackups found))

/-- `remove_old_backups`; `none` when the fuel runs out. -/
def removeOldBackups (keep : List Nat) : Nat → List Bu → Option (List Bu)
  | 0, _ => none
  | fuel + 1, found =>
      if doRemoveOldBackups keep (getCurrentBackups found) = [] then some found
      else removeOldBackups keep fuel (afterPass keep found)

/-! ## §2. What a pass can delete. -/

theorem inRange_iff {s r : Nat} {b : Bu} :
    inRange s r b = true ↔ s < b.trindex ∧ b.trindex ≤ r := by
  simp [inRange]

theorem mem_deleteInRange (s r : Nat) :
    ∀ (l : List Bu) (count : Nat) (b : Bu), b ∈ deleteInRange s r count l →
      b ∈ l ∧ inRange s r b = true ∧ b.deletable = true := by
  intro l
  induction l with
  | nil => intro count b hb; simp [deleteInRange] at hb
  | cons a as ih =>
      intro count b hb
      unfold deleteInRange at hb
      split at hb
      next hdel =>
        rw [Bool.and_eq_true] at hdel
        split at hb
        · rw [List.mem_singleton] at hb
          subst hb
          exact ⟨by simp, hdel.1, hdel.2⟩
        · rcases List.mem_cons.mp hb with rfl | hb
          · exact ⟨by simp, hdel.1, hdel.2⟩
          · obtain ⟨hmem, hrest⟩ := ih _ b hb
            exact ⟨List.mem_cons_of_mem _ hmem, hrest⟩
      next =>
        obtain ⟨hmem, hrest⟩ := ih _ b hb
        exact ⟨List.mem_cons_of_mem _ hmem, hrest⟩

theorem mem_rangeDeletions {arr : List Bu} {s r : Nat} {b : Bu}
    (hb : b ∈ rangeDeletions arr s r) :
    b ∈ arr ∧ inRange s r b = true ∧ b.deletable = true := by
  simp only [rangeDeletions] at hb
  split at hb
  · obtain ⟨hmem, hrest⟩ := mem_deleteInRange s r _ _ b hb
    exact ⟨List.mem_reverse.mp hmem, hrest⟩
  · simp at hb

theorem mem_rangeEnds {n : Nat} :
    ∀ {fuel r x : Nat}, n ∣ r → x ∈ rangeEnds n fuel r → n < x ∧ x ≤ r ∧ n ∣ x
  | 0, _, _, _, h => by simp [rangeEnds] at h
  | fuel + 1, r, x, hdvd, h => by
      unfold rangeEnds at h
      split at h
      next hnr =>
        rcases List.mem_cons.mp h with rfl | h
        · exact ⟨hnr, Nat.le_refl _, hdvd⟩
        · have := mem_rangeEnds (Nat.dvd_sub hdvd (Nat.dvd_refl n)) h
          exact ⟨this.1, by omega, this.2.2⟩
      next => simp at h

/-- A range of the level with step `n` starts at `n` or above. -/
theorem le_sub_of_mem_rangeEnds {n fuel r x : Nat} (hdvd : n ∣ r)
    (h : x ∈ rangeEnds n fuel r) : n ≤ x - n := by
  obtain ⟨hlt, -, c, rfl⟩ := mem_rangeEnds hdvd h
  have hc : 2 ≤ c := by
    by_contra hc
    have : n * c ≤ n * 1 := Nat.mul_le_mul_left n (by omega)
    omega
  have : n * 2 ≤ n * c := Nat.mul_le_mul_left n hc
  omega

theorem mem_levelDeletions {arr : List Bu} {n upto : Nat} {b : Bu} (hdvd : n ∣ upto)
    (hb : b ∈ levelDeletions arr n upto) :
    b ∈ arr ∧ n < b.trindex ∧ b.trindex ≤ upto ∧ b.deletable = true := by
  unfold levelDeletions at hb
  obtain ⟨r, hr, hb⟩ := List.mem_flatMap.mp hb
  obtain ⟨hmem, hin, hdel⟩ := mem_rangeDeletions hb
  rw [inRange_iff] at hin
  have hs := le_sub_of_mem_rangeEnds hdvd hr
  have hr' := mem_rangeEnds hdvd hr
  exact ⟨hmem, by omega, by omega, hdel⟩

/-! ## §3. A whole pass. -/

theorem foldl_mul_le {ks : List Nat} (hpos : ∀ k ∈ ks, 0 < k) (m : Nat) :
    m ≤ ks.foldl (· * ·) m := by
  induction ks generalizing m with
  | nil => exact Nat.le_refl _
  | cons k ks ih =>
      have hk : 0 < k := hpos k (by simp)
      calc m ≤ m * k := Nat.le_mul_of_pos_right m hk
        _ ≤ (k :: ks).foldl (· * ·) m := ih (fun k' h => hpos k' (by simp [h])) (m * k)

/-- What the range loops delete: deletable backups older than the first 'keep' value and
not older than the product of all of them. -/
theorem mem_keepDeletions {arr : List Bu} :
    ∀ {ks : List Nat} {m : Nat} {b : Bu}, (∀ k ∈ ks, 0 < k) → b ∈ keepDeletions arr m ks →
      b ∈ arr ∧ m * (ks.headD 1) < b.trindex ∧ b.trindex ≤ ks.foldl (· * ·) m
        ∧ b.deletable = true
  | [], _, _, _, hb => by simp [keepDeletions] at hb
  | [k], _, _, _, hb => by simp [keepDeletions] at hb
  | k :: k' :: ks, m, b, hpos, hb => by
      have hpos' : ∀ j ∈ k' :: ks, 0 < j := fun j hj => hpos j (List.mem_cons_of_mem _ hj)
      rw [keepDeletions, List.mem_append] at hb
      rcases hb with hb | hb
      · obtain ⟨hmem, hlo, hhi, hdel⟩ := mem_levelDeletions (Nat.dvd_mul_right _ _) hb
        refine ⟨hmem, hlo, ?_, hdel⟩
        calc b.trindex ≤ m * k * k' := hhi
          _ ≤ ks.foldl (· * ·) (m * k * k') :=
            foldl_mul_le (fun j hj => hpos' j (List.mem_cons_of_mem _ hj)) _
      · obtain ⟨hmem, hlo, hhi, hdel⟩ := mem_keepDeletions hpos' hb
        refine ⟨hmem, ?_, hhi, hdel⟩
        have hk' : 0 < k' := hpos' k' (by simp)
        calc m * k ≤ m * k * k' := Nat.le_mul_of_pos_right _ hk'
          _ < b.trindex := hlo

section OnePass

variable {found : List Bu} (hnd : (found.map Bu.index).Nodup)
  (hlt : ∀ b ∈ found, b.index < 2 ^ 31)

include hnd hlt

/-- Transposed indexes decrease along the array. -/
theorem trindex_anti {a b : Bu} (ha : a ∈ getCurrentBackups found)
    (hb : b ∈ getCurrentBackups found) (hab : a.index < b.index) : b.trindex < a.trindex := by
  have hsorted := getCurrentBackups_sorted found hnd
  have h1 : 1 < found.length := by
    rw [← getCurrentBackups_length]
    match getCurrentBackups found, ha, hb with
    | [x], ha, hb =>
        rw [List.mem_singleton] at ha hb
        rw [ha, hb] at hab
        exact absurd hab (Nat.lt_irrefl _)
    | x :: y :: l, _, _ => simp
  have hble := le_newestIndex hsorted b hb
  rw [trindex_eq found hnd hlt h1 a ha, trindex_eq found hnd hlt h1 b hb]
  omega

/-- The last loop takes at most the oldest backup, and only when it is too old. -/
theorem mem_oldestDeletions {m : Nat} {b : Bu}
    (hb : b ∈ oldestDeletions (getCurrentBackups found) m) :
    m < b.trindex ∧ ∃ l, getCurrentBackups found = b :: l
      ∧ oldestDeletions (getCurrentBackups found) m = [b] := by
  unfold oldestDeletions at hb ⊢
  cases hidx : (getCurrentBackups found).findIdx? (fun b => decide (m < b.trindex)) with
  | none => rw [hidx] at hb; simp at hb
  | some i =>
      rw [hidx] at hb
      obtain ⟨hi, hpred, hmin⟩ := List.findIdx?_eq_some_iff_getElem.mp hidx
      -- the first backup older than m is the first of the array
      have hi0 : i = 0 := by
        by_contra hne
        have h0 : 0 < i := Nat.pos_of_ne_zero hne
        have hidx0 := List.pairwise_iff_getElem.mp (getCurrentBackups_sorted found hnd)
          0 i (by simpa using Nat.lt_trans h0 hi) (by simpa using hi) h0
        simp only [List.getElem_map] at hidx0
        have hanti := trindex_anti hnd hlt (List.getElem_mem (Nat.lt_trans h0 hi))
          (List.getElem_mem hi) hidx0
        have hp0 := hmin 0 h0
        simp only [decide_eq_true_eq] at hpred hp0
        omega
      subst hi0
      match hget : getCurrentBackups found, hi with
      | x :: l, _ =>
          simp only [hget, List.getElem_cons_zero, decide_eq_true_eq] at hpred
          simp only [hget, List.take_succ_cons, List.take_zero, List.reverse_singleton,
            List.mem_singleton] at hb
          subst hb
          exact ⟨hpred, l, rfl, by simp⟩

end OnePass

/-! ## §4. No backup is deleted twice. -/

theorem deleteInRange_sublist (s r : Nat) :
    ∀ (l : List Bu) (count : Nat), (deleteInRange s r count l).Sublist l := by
  intro l
  induction l with
  | nil => intro count; exact List.Sublist.refl _
  | cons a as ih =>
      intro count
      unfold deleteInRange
      split
      · split
        · exact List.Sublist.cons_cons a (List.nil_sublist as)
        · exact List.Sublist.cons_cons a (ih _)
      · exact List.Sublist.cons a (ih _)

theorem rangeDeletions_nodup {arr : List Bu} (h : arr.Nodup) (s r : Nat) :
    (rangeDeletions arr s r).Nodup := by
  simp only [rangeDeletions]
  split
  · exact (List.nodup_reverse.mpr h).sublist (deleteInRange_sublist s r _ _)
  · exact List.nodup_nil

/-- The ranges of one level do not overlap: the rest of the walk stays below the lower
end of the range just done. -/
theorem rangeWalk_nodup {arr : List Bu} (h : arr.Nodup) {n : Nat} :
    ∀ {fuel r : Nat}, n ∣ r →
      ((rangeEnds n fuel r).flatMap fun x => rangeDeletions arr (x - n) x).Nodup
  | 0, _, _ => by simp [rangeEnds]
  | fuel + 1, r, hdvd => by
      have hdvd' : n ∣ r - n := Nat.dvd_sub hdvd (Nat.dvd_refl n)
      unfold rangeEnds
      split
      next hnr =>
        rw [List.flatMap_cons, List.nodup_append]
        refine ⟨rangeDeletions_nodup h _ _, rangeWalk_nodup h hdvd', ?_⟩
        intro a ha b hb hab
        subst hab
        obtain ⟨x, hx, hb⟩ := List.mem_flatMap.mp hb
        have hx' := mem_rangeEnds hdvd' hx
        have hin := inRange_iff.mp (mem_rangeDeletions ha).2.1
        have hin' := inRange_iff.mp (mem_rangeDeletions hb).2.1
        omega
      next => simp

theorem keepDeletions_nodup {arr : List Bu} (h : arr.Nodup) :
    ∀ {ks : List Nat} {m : Nat}, (∀ k ∈ ks, 0 < k) → (keepDeletions arr m ks).Nodup
  | [], _, _ => by simp [keepDeletions]
  | [k], _, _ => by simp [keepDeletions]
  | k :: k' :: ks, m, hpos => by
      have hpos' : ∀ j ∈ k' :: ks, 0 < j := fun j hj => hpos j (List.mem_cons_of_mem _ hj)
      rw [keepDeletions, List.nodup_append]
      refine ⟨rangeWalk_nodup h (Nat.dvd_mul_right _ _), keepDeletions_nodup h hpos', ?_⟩
      intro a ha b hb hab
      subst hab
      have hlo := mem_levelDeletions (Nat.dvd_mul_right _ _) ha
      have hhi := mem_keepDeletions hpos' hb
      simp only [List.headD_cons] at hhi
      omega

theorem getCurrentBackups_nodup {found : List Bu} (hnd : (found.map Bu.index).Nodup) :
    (getCurrentBackups found).Nodup :=
  ((getCurrentBackups_sorted found hnd).imp (fun h => Nat.ne_of_lt h)).of_map _ (fun _ _ h => by
    intro heq; exact h (congrArg Bu.index heq))

section Pass

variable {keep : List Nat} (hpos : ∀ k ∈ keep, 0 < k)
  {found : List Bu} (hnd : (found.map Bu.index).Nodup) (hlt : ∀ b ∈ found, b.index < 2 ^ 31)

include hpos hnd hlt

/-- **Every backup of a pass is deleted once**, so each `do_rename` of the pass finds its
directory. -/
theorem doRemoveOldBackups_nodup :
    (doRemoveOldBackups keep (getCurrentBackups found)).Nodup := by
  unfold doRemoveOldBackups
  rw [List.nodup_append]
  refine ⟨keepDeletions_nodup (getCurrentBackups_nodup hnd) hpos, ?_, ?_⟩
  · cases hl : oldestDeletions (getCurrentBackups found) (keepProduct keep) with
    | nil => exact List.nodup_nil
    | cons b bs =>
        obtain ⟨-, l, -, heq⟩ := mem_oldestDeletions hnd hlt (hl ▸ List.mem_cons_self)
        rw [hl] at heq
        rw [heq]
        exact List.nodup_singleton b
  · intro a ha b hb hab
    subst hab
    have hle := (mem_keepDeletions hpos ha).2.2.1
    have hgt := (mem_oldestDeletions hnd hlt hb).1
    unfold keepProduct at hgt
    omega

/-- **What a pass deletes**: a deletable backup, or the oldest one; in either case not
the newest. -/
theorem mem_doRemoveOldBackups {b : Bu}
    (hb : b ∈ doRemoveOldBackups keep (getCurrentBackups found)) :
    b ∈ getCurrentBackups found ∧ 1 < b.trindex
      ∧ (b.deletable = true ∨ ∃ l, getCurrentBackups found = b :: l) := by
  rcases List.mem_append.mp hb with hb | hb
  · obtain ⟨hmem, hlo, -, hdel⟩ := mem_keepDeletions hpos hb
    have hhead : 0 < keep.headD 1 := by
      cases keep with
      | nil => exact Nat.one_pos
      | cons k ks => exact hpos k (by simp)
    exact ⟨hmem, by omega, Or.inl hdel⟩
  · obtain ⟨hgt, l, hl, -⟩ := mem_oldestDeletions hnd hlt hb
    have hprod : 1 ≤ keepProduct keep := foldl_mul_le hpos 1
    exact ⟨by rw [hl]; simp, by omega, Or.inr ⟨l, hl⟩⟩

end Pass

/-! ## §5. The guarantee. -/

/-- `b` directly follows `p` in the array. -/
def Follows (arr : List Bu) (p b : Bu) : Prop := ∃ l₁ l₂, arr = l₁ ++ p :: b :: l₂

/-- What a restore needs of the backups with the indexes `kept`: the newest one, and for
each one that is not hardlinked the backup that directly follows it, because the reverse
deltas of the one are against the data of the other. -/
structure Restorable (arr : List Bu) (kept : List Nat) : Prop where
  newest : arr ≠ [] → newestIndex arr ∈ kept
  successor : ∀ p b, Follows arr p b → p.index ∈ kept → p.hardlinked = false → b.index ∈ kept

theorem Follows.mem {arr : List Bu} {p b : Bu} (h : Follows arr p b) : p ∈ arr ∧ b ∈ arr := by
  obtain ⟨l₁, l₂, rfl⟩ := h
  simp

/-- In a sorted array, neighbours are the pairs with nothing in between. -/
theorem follows_iff {arr : List Bu} (hs : (arr.map Bu.index).Pairwise (· < ·)) {p b : Bu} :
    Follows arr p b ↔ p ∈ arr ∧ b ∈ arr ∧ p.index < b.index
      ∧ ∀ c ∈ arr, ¬ (p.index < c.index ∧ c.index < b.index) := by
  rw [List.pairwise_map] at hs
  constructor
  · rintro ⟨l₁, l₂, rfl⟩
    obtain ⟨-, htail, hleft⟩ := List.pairwise_append.mp hs
    obtain ⟨hp, hb⟩ := List.pairwise_cons.mp htail
    obtain ⟨hb, -⟩ := List.pairwise_cons.mp hb
    refine ⟨by simp, by simp, hp b (by simp), ?_⟩
    intro c hc
    rcases List.mem_append.mp hc with hc | hc
    · have := hleft c hc p (by simp)
      omega
    · rcases List.mem_cons.mp hc with rfl | hc
      · omega
      · rcases List.mem_cons.mp hc with rfl | hc
        · omega
        · have := hb c hc
          omega
  · rintro ⟨hp, hb, hlt, hbetween⟩
    obtain ⟨l₁, r, rfl⟩ := List.append_of_mem hp
    obtain ⟨-, htail, hleft⟩ := List.pairwise_append.mp hs
    obtain ⟨hpr, hr⟩ := List.pairwise_cons.mp htail
    have hbr : b ∈ r := by
      rcases List.mem_append.mp hb with hb | hb
      · have := hleft b hb p (by simp)
        omega
      · rcases List.mem_cons.mp hb with rfl | hb
        · omega
        · exact hb
    cases r with
    | nil => simp at hbr
    | cons c cs =>
        have hpc : p.index < c.index := hpr c (by simp)
        rcases List.mem_cons.mp hbr with rfl | hbcs
        · exact ⟨l₁, cs, rfl⟩
        · have hcb : c.index < b.index := (List.pairwise_cons.mp hr).1 b hbcs
          exact absurd ⟨hpc, hcb⟩ (hbetween c (by simp))

theorem mem_afterPass {keep : List Nat} {found : List Bu} {b : Bu} :
    b ∈ afterPass keep found ↔ b ∈ getCurrentBackups found
      ∧ b ∉ doRemoveOldBackups keep (getCurrentBackups found) := by
  simp [afterPass]

/-- Indexes identify the backups of an array. -/
theorem eq_of_index_eq {found : List Bu} (hnd : (found.map Bu.index).Nodup) {a b : Bu}
    (ha : a ∈ getCurrentBackups found) (hb : b ∈ getCurrentBackups found)
    (h : a.index = b.index) : a = b := by
  have hnd' : ((getCurrentBackups found).map Bu.index).Nodup :=
    (getCurrentBackups_sorted found hnd).imp (fun h => Nat.ne_of_lt h)
  exact List.inj_on_of_nodup_map hnd' ha hb h

theorem mem_index_afterPass {keep : List Nat} {found : List Bu}
    (hnd : (found.map Bu.index).Nodup) {b : Bu} (hb : b ∈ getCurrentBackups found) :
    b.index ∈ (afterPass keep found).map Bu.index
      ↔ b ∉ doRemoveOldBackups keep (getCurrentBackups found) := by
  constructor
  · intro h
    obtain ⟨a, ha, hab⟩ := List.mem_map.mp h
    obtain ⟨hmem, hnot⟩ := mem_afterPass.mp ha
    rwa [← eq_of_index_eq hnd hmem hb hab]
  · intro h
    exact List.mem_map_of_mem (mem_afterPass.mpr ⟨hb, h⟩)

theorem afterPass_index_sublist (keep : List Nat) (found : List Bu) :
    ((afterPass keep found).map Bu.index).Sublist
      ((getCurrentBackups found).map Bu.index) :=
  List.filter_sublist.map _

section Guarantee

variable {keep : List Nat} (hpos : ∀ k ∈ keep, 0 < k)
  {found : List Bu} (hnd : (found.map Bu.index).Nodup) (hlt : ∀ b ∈ found, b.index < 2 ^ 31)

include hpos hnd hlt

/-- One pass leaves a restorable set. -/
theorem afterPass_restorable :
    Restorable (getCurrentBackups found) ((afterPass keep found).map Bu.index) where
  newest := by
    intro hne
    obtain ⟨b, hb, hnewest⟩ := newestIndex_mem hne
    rw [← hnewest, mem_index_afterPass hnd hb]
    intro hdel
    have hage := (mem_doRemoveOldBackups hpos hnd hlt hdel).2.1
    by_cases h1 : 1 < found.length
    · rw [trindex_eq found hnd hlt h1 b hb] at hage
      omega
    · rw [trindex_eq_zero found (by omega) b hb] at hage
      omega
  successor := by
    intro p b hpb _ hnot
    obtain ⟨hp, hb⟩ := hpb.mem
    rw [mem_index_afterPass hnd hb]
    intro hdel
    obtain ⟨-, -, hwhy⟩ := mem_doRemoveOldBackups hpos hnd hlt hdel
    rcases hwhy with hdel | ⟨l, hl⟩
    · -- deletable although it has a predecessor: the predecessor is hardlinked
      obtain ⟨l₁, l₂, hsplit⟩ := hpb
      rw [deletable_succ found l₁ l₂ p b hsplit, hnot] at hdel
      exact Bool.false_ne_true hdel
    · -- the oldest backup follows nothing
      have hlt' := ((follows_iff (getCurrentBackups_sorted found hnd)).mp hpb).2.2.1
      have hsorted := getCurrentBackups_sorted found hnd
      rw [hl] at hsorted hp
      rw [List.map_cons, List.pairwise_cons] at hsorted
      rcases List.mem_cons.mp hp with rfl | hp
      · omega
      · have := hsorted.1 p.index (List.mem_map_of_mem hp)
        omega

theorem afterPass_length_lt
    (hne : doRemoveOldBackups keep (getCurrentBackups found) ≠ []) :
    (afterPass keep found).length < found.length := by
  obtain ⟨b, hb⟩ := List.exists_mem_of_ne_nil _ hne
  have hmem := (mem_doRemoveOldBackups hpos hnd hlt hb).1
  rw [← getCurrentBackups_length found]
  unfold afterPass
  apply List.length_filter_lt_length_iff_exists.mpr
  exact ⟨b, hmem, by simpa using hb⟩

end Guarantee

/-- `found'` is what an earlier pass left of `arr`: fewer backups, same flags. -/
structure LeftOf (arr found : List Bu) : Prop where
  nodup : (found.map Bu.index).Nodup
  flags : ∀ b ∈ found, ∃ a ∈ arr, a.index = b.index ∧ a.hardlinked = b.hardlinked

theorem getCurrentBackups_flags {found : List Bu} {b : Bu} (hb : b ∈ getCurrentBackups found) :
    ∃ a ∈ found, a.index = b.index ∧ a.hardlinked = b.hardlinked := by
  have hset : ∀ (first : Bool) (arr : List Bu) (x : Bu), x ∈ setDeletable first arr →
      ∃ a ∈ arr, a.index = x.index ∧ a.hardlinked = x.hardlinked := by
    intro first arr
    induction arr generalizing first with
    | nil => intro x hx; simp [setDeletable] at hx
    | cons a as ih =>
        intro x hx
        rcases List.mem_cons.mp hx with rfl | hx
        · exact ⟨a, by simp, rfl, rfl⟩
        · obtain ⟨c, hc, h⟩ := ih _ x hx
          exact ⟨c, List.mem_cons_of_mem _ hc, h⟩
  rw [getCurrentBackups_eq, setTrindex_eq_map] at hb
  obtain ⟨x, hx, rfl⟩ := List.mem_map.mp hb
  obtain ⟨c, hc, hci, hch⟩ := hset _ _ x hx
  have hc' : c ∈ found.map fun b => { b with deletable := false, trindex := 0 } :=
    (List.perm_insertionSort buLe _).mem_iff.mp hc
  obtain ⟨d, hd, rfl⟩ := List.mem_map.mp hc'
  exact ⟨d, hd, hci, hch⟩

/-- Passes compose: a restorable part of a restorable part is restorable. -/
theorem Restorable.trans {arr found : List Bu} (hs : (arr.map Bu.index).Pairwise (· < ·))
    (hleft : LeftOf arr found) {kept : List Nat} (hsub : ∀ i ∈ kept, i ∈ found.map Bu.index)
    (h₁ : Restorable arr (found.map Bu.index))
    (h₂ : Restorable (getCurrentBackups found) kept) : Restorable arr kept where
  newest := by
    intro hne
    have hmem := h₁.newest hne
    have hfound : getCurrentBackups found ≠ [] := by
      intro h0
      have hlen := getCurrentBackups_length found
      rw [h0, List.length_nil] at hlen
      rw [List.eq_nil_of_length_eq_zero hlen.symm] at hmem
      simp at hmem
    have hsame : newestIndex (getCurrentBackups found) = newestIndex arr := by
      have hs' := getCurrentBackups_sorted found hleft.nodup
      obtain ⟨b, hb, hbn⟩ := newestIndex_mem hfound
      obtain ⟨c, hc, hci, -⟩ := getCurrentBackups_flags hb
      obtain ⟨a, ha, hai, -⟩ := hleft.flags c hc
      have hle : newestIndex (getCurrentBackups found) ≤ newestIndex arr := by
        rw [← hbn, ← hci, ← hai]
        exact le_newestIndex hs a ha
      obtain ⟨d, hd, hdn⟩ :=
        List.mem_map.mp ((mem_index_getCurrentBackups found _).mpr hmem)
      have hge := le_newestIndex hs' d hd
      omega
    rw [← hsame]
    exact h₂.newest hfound
  successor := by
    intro p b hpb hp hnot
    have hs' := getCurrentBackups_sorted found hleft.nodup
    obtain ⟨hpa, hba, hlt, hbetween⟩ := (follows_iff hs).mp hpb
    have hpf := hsub _ hp
    have hbf := h₁.successor p b hpb hpf hnot
    obtain ⟨p', hp', hpi⟩ := List.mem_map.mp ((mem_index_getCurrentBackups found _).mpr hpf)
    obtain ⟨b', hb', hbi⟩ := List.mem_map.mp ((mem_index_getCurrentBackups found _).mpr hbf)
    have horig : ∀ c ∈ getCurrentBackups found,
        ∃ a ∈ arr, a.index = c.index ∧ a.hardlinked = c.hardlinked := by
      intro c hc
      obtain ⟨d, hd, hdi, hdh⟩ := getCurrentBackups_flags hc
      obtain ⟨a, ha, hai, hah⟩ := hleft.flags d hd
      exact ⟨a, ha, hai.trans hdi, hah.trans hdh⟩
    have hp'hl : p'.hardlinked = false := by
      obtain ⟨a, ha, hai, hah⟩ := horig p' hp'
      have hap : a = p := by
        have hndarr : (arr.map Bu.index).Nodup := hs.imp (fun h => Nat.ne_of_lt h)
        exact List.inj_on_of_nodup_map hndarr ha hpa (hai.trans hpi)
      rw [← hah, hap]
      exact hnot
    rw [← hbi]
    refine h₂.successor p' b' ((follows_iff hs').mpr ⟨hp', hb', by omega, ?_⟩)
      (by rw [hpi]; exact hp) hp'hl
    intro c hc hcb
    obtain ⟨a, ha, hai, -⟩ := horig c hc
    exact hbetween a ha ⟨by omega, by omega⟩

/-- The loop: every pass that deletes something shortens the list, and the passes
compose. -/
theorem removeOldBackups_restorable {keep : List Nat} (hpos : ∀ k ∈ keep, 0 < k) {arr : List Bu}
    (hs : (arr.map Bu.index).Pairwise (· < ·)) (hltarr : ∀ b ∈ arr, b.index < 2 ^ 31) :
    ∀ (fuel : Nat) (found : List Bu), found.length < fuel → LeftOf arr found →
      Restorable arr (found.map Bu.index) →
      ∃ left, removeOldBackups keep fuel found = some left
        ∧ Restorable arr (left.map Bu.index) := by
  intro fuel
  induction fuel with
  | zero => intro found hlen; omega
  | succ fuel ih =>
      intro found hlen hleft hrest
      have hlt : ∀ b ∈ found, b.index < 2 ^ 31 := by
        intro b hb
        obtain ⟨a, ha, hai, -⟩ := hleft.flags b hb
        rw [← hai]
        exact hltarr a ha
      unfold removeOldBackups
      split
      · exact ⟨found, rfl, hrest⟩
      next hne =>
        have hshort := afterPass_length_lt hpos hleft.nodup hlt hne
        have hsub := afterPass_index_sublist keep found
        refine ih (afterPass keep found) (by omega) ⟨?_, ?_⟩ ?_
        · exact ((getCurrentBackups_sorted found hleft.nodup).imp
            (fun h => Nat.ne_of_lt h)).sublist hsub
        · intro b hb
          obtain ⟨c, hc, hci, hch⟩ := getCurrentBackups_flags (mem_afterPass.mp hb).1
          obtain ⟨a, ha, hai, hah⟩ := hleft.flags c hc
          exact ⟨a, ha, hai.trans hci, hah.trans hch⟩
        · refine Restorable.trans hs hleft ?_ hrest
            (afterPass_restorable hpos hleft.nodup hlt)
          intro i hi
          exact (mem_index_getCurrentBackups found i).mp (hsub.subset hi)

/-- **Retention never breaks a restore.**  One call of `do_remove_old_backups` deletes no
backup twice, keeps the newest one, and keeps the successor of every backup that is kept
and not hardlinked; `remove_old_backups` ends and keeps the same guarantee towards the
array it started from. -/
theorem retention_never_breaks_restore (keep : List Nat) (hpos : ∀ k ∈ keep, 0 < k)
    (found : List Bu) (hnd : (found.map Bu.index).Nodup)
    (hlt : ∀ b ∈ found, b.index < 2 ^ 31) :
    (doRemoveOldBackups keep (getCurrentBackups found)).Nodup
      ∧ Restorable (getCurrentBackups found) ((afterPass keep found).map Bu.index)
      ∧ ∃ left, removeOldBackups keep (found.length + 1) found = some left
          ∧ Restorable (getCurrentBackups found) (left.map Bu.index) := by
  refine ⟨doRemoveOldBackups_nodup hpos hnd hlt, afterPass_restorable hpos hnd hlt, ?_⟩
  have hs := getCurrentBackups_sorted found hnd
  have hltarr : ∀ b ∈ getCurrentBackups found, b.index < 2 ^ 31 := by
    intro b hb
    obtain ⟨a, ha, hai, -⟩ := getCurrentBackups_flags hb
    rw [← hai]
    exact hlt a ha
  refine removeOldBackups_restorable hpos hs hltarr _ found (Nat.lt_succ_self _) ⟨hnd, ?_⟩ ?_
  · intro b hb
    have hmem := (mem_index_getCurrentBackups found b.index).mpr (List.mem_map_of_mem hb)
    obtain ⟨c, hc, hci⟩ := List.mem_map.mp hmem
    obtain ⟨d, hd, hdi, hdh⟩ := getCurrentBackups_flags hc
    have hdb : d = b := List.inj_on_of_nodup_map hnd hd hb (hdi.trans hci)
    exact ⟨c, hc, hci, by rw [← hdh, hdb]⟩
  · refine ⟨fun hne => ?_, fun p b hpb _ _ => ?_⟩
    · obtain ⟨b, hb, hbn⟩ := newestIndex_mem hne
      rw [← hbn]
      exact (mem_index_getCurrentBackups found b.index).mp (List.mem_map_of_mem hb)
    · exact (mem_index_getCurrentBackups found b.index).mp (List.mem_map_of_mem hpb.mem.2)

/-- keep=1, keep=2 on three hardlinked backups: the oldest is too old and goes. -/
theorem retention_never_breaks_restore_three :
    (afterPass [1, 2] [⟨"a", true, false, 1, 0⟩, ⟨"b", true, false, 2, 0⟩,
        ⟨"c", false, false, 3, 0⟩]).map Bu.index = [2, 3]
      ∧ Restorable
          (getCurrentBackups [⟨"a", true, false, 1, 0⟩, ⟨"b", true, false, 2, 0⟩,
            ⟨"c", false, false, 3, 0⟩])
          ((afterPass [1, 2] [⟨"a", true, false, 1, 0⟩, ⟨"b", true, false, 2, 0⟩,
            ⟨"c", false, false, 3, 0⟩]).map Bu.index) :=
  ⟨by decide, (retention_never_breaks_restore [1, 2] (by decide)
    [⟨"a", true, false, 1, 0⟩, ⟨"b", true, false, 2, 0⟩, ⟨"c", false, false, 3, 0⟩]
    (by decide) (by decide)).2.1⟩

end Burp.Backups
