/-
  Burp.Backups.Guarantee — what the 'keep' values promise.

  The manual page says that several 'keep' values guarantee a restore up to their product
  days ago.  Here is the whole run: each backup completes (phase 4 marks the previous
  one hardlinked or not) and `remove_old_backups` follows.  The state after `N` backups
  has a closed form: the backup with index `j` is there exactly when its age is at most
  the product of the flags and every step below its age divides `j - 1`.  A pass
  after one more backup deletes exactly the ones that leave that set, and a second pass
  deletes nothing.

  Main results:
    * `doRemoveOldBackups_of_survivors` — the closed form is a fixed point of the pass.
    * `mem_doRemoveOldBackups_completeBackup` — one pass takes the store of `N` backups
      plus a new one to the closed form for `N + 1`.
    * `keep_guarantee` — the newest `k₁` backups and one of the age of the product.
-/
import Burp.Backups.Keep

namespace Burp.Backups

/-! ## §1. The run. -/

/-- A backup completes: phase 4 decides by `do_hardlinked_archive` whether the previous
newest backup is hardlinked, and the new one gets the next index. -/
def completeBackup (keep : List Nat) (found : List Bu) : List Bu :=
  let arr := getCurrentBackups found
  let bno := newestIndex arr + 1
  (arr.map fun b =>
    if b.index = newestIndex arr then
      { b with hardlinked := doHardlinkedArchive false keep bno }
    else b) ++ [{ hardlinked := false, index := bno }]

/-- `remove_old_backups`, with fuel for every pass it can make. -/
def removeAll (keep : List Nat) (found : List Bu) : Option (List Bu) :=
  removeOldBackups keep (found.length + 1) found

/-- The store after `n` backups, starting from an empty one. -/
def history (keep : List Nat) : Nat → Option (List Bu)
  | 0 => some []
  | n + 1 => (history keep n).bind fun found => removeAll keep (completeBackup keep found)

/-! ## §2. The closed form. -/

/-- The backup `j` is retained after `N` backups. -/
def Survives (keep : List Nat) (N j : Nat) : Prop :=
  1 ≤ j ∧ j ≤ N ∧ N - j + 1 ≤ keepProduct keep
    ∧ ∀ l ∈ levels 1 keep, l.1 < N - j + 1 → l.1 ∣ j - 1

/-- What a store with the newest index `N` looks like: its indexes are those in `S`, and
a backup is hardlinked when the first 'keep' value hit the one that followed it. -/
structure Stored (keep : List Nat) (N : Nat) (S : Nat → Prop) (found : List Bu) : Prop where
  nodup : (found.map Bu.index).Nodup
  mem : ∀ j, j ∈ found.map Bu.index ↔ S j
  hardlinked : ∀ b ∈ found, b.hardlinked = true ↔ keep.headD 1 ∣ b.index - 1 ∧ b.index < N

/-- The flags `finalise_config` makes of two or more positive 'keep' values. -/
structure Periods (keep : List Nat) : Prop where
  pos : ∀ k ∈ keep, 0 < k
  two : 2 ≤ keep.length
  last : 2 ≤ keep.getLastD 2

namespace Periods

variable {keep : List Nat} (hk : Periods keep)

include hk

theorem one_le_product : 1 ≤ keepProduct keep := foldl_mul_le hk.pos 1

/-- The first 'keep' value is a step. -/
theorem head_level : ∃ k, (keep.headD 1, k) ∈ levels 1 keep := by
  obtain ⟨-, htwo, -⟩ := hk
  match keep, htwo with
  | k :: k' :: ks, _ => exact ⟨k', by simp [levels]⟩

theorem step_pos {l : Nat × Nat} (hl : l ∈ levels 1 keep) : 0 < l.1 := by
  have hdvd := levels_dvd_init hl
  have hinit : 0 < keep.dropLast.foldl (· * ·) 1 :=
    foldl_mul_le (fun k h => hk.pos k (List.mem_of_mem_dropLast h)) 1
  exact Nat.pos_of_dvd_of_pos hdvd hinit

theorem head_le_step {l : Nat × Nat} (hl : l ∈ levels 1 keep) : keep.headD 1 ≤ l.1 := by
  have hdvd := levels_base hl
  rw [Nat.one_mul] at hdvd
  exact Nat.le_of_dvd (hk.step_pos hl) hdvd

/-- The newest backup survives. -/
theorem survives_self {N : Nat} (hN : 1 ≤ N) : Survives keep N N := by
  have h1 := hk.one_le_product
  refine ⟨hN, Nat.le_refl N, by omega, ?_⟩
  intro l hl hlt
  have := hk.step_pos hl
  omega

end Periods

/-! ## §3. The array of such a store. -/

section Array

variable {keep : List Nat} {N : Nat} {S : Nat → Prop} {found : List Bu}

theorem Stored.mem_iff (h : Stored keep N S found) (j : Nat) :
    j ∈ (getCurrentBackups found).map Bu.index ↔ S j := by
  rw [mem_index_getCurrentBackups, h.mem]

theorem Stored.sat (h : Stored keep N S found) {b : Bu} (hb : b ∈ getCurrentBackups found) :
    S b.index :=
  (h.mem_iff b.index).mp (List.mem_map_of_mem hb)

theorem Stored.find (h : Stored keep N S found) {j : Nat} (hj : S j) :
    ∃ b ∈ getCurrentBackups found, b.index = j :=
  List.mem_map.mp ((h.mem_iff j).mpr hj)

theorem Stored.flag (h : Stored keep N S found) {b : Bu} (hb : b ∈ getCurrentBackups found) :
    b.hardlinked = true ↔ keep.headD 1 ∣ b.index - 1 ∧ b.index < N := by
  obtain ⟨a, ha, hai, hah⟩ := getCurrentBackups_flags hb
  rw [← hah, ← hai]
  exact h.hardlinked a ha

theorem Stored.newest (h : Stored keep N S found) (hle : ∀ j, S j → j ≤ N) (hN : S N) :
    newestIndex (getCurrentBackups found) = N := by
  obtain ⟨b, hb, hbN⟩ := h.find hN
  obtain ⟨c, hc, hcn⟩ := newestIndex_mem (List.ne_nil_of_mem hb)
  have hle' := le_newestIndex (getCurrentBackups_sorted found h.nodup) b hb
  have hcN := hle c.index (h.sat hc)
  omega

/-- Transposed indexes are ages as soon as there are two backups. -/
theorem Stored.age (h : Stored keep N S found) (hle : ∀ j, S j → j ≤ N) (hN : S N)
    (hlt : N < 2 ^ 31) {j : Nat} (hj : S j) (hjN : j ≠ N) {b : Bu}
    (hb : b ∈ getCurrentBackups found) : b.trindex = N - b.index + 1 := by
  have hlt' : ∀ a ∈ found, a.index < 2 ^ 31 := by
    intro a ha
    have := hle a.index ((h.mem a.index).mp (List.mem_map_of_mem ha))
    omega
  have h1 : 1 < found.length := by
    obtain ⟨x, hx, hxj⟩ := List.mem_map.mp ((h.mem j).mpr hj)
    obtain ⟨y, hy, hyN⟩ := List.mem_map.mp ((h.mem N).mpr hN)
    match found, hx, hy with
    | [a], hx, hy =>
        rw [List.mem_singleton] at hx hy
        rw [hx] at hxj
        rw [hy] at hyN
        omega
    | a :: a' :: as, _, _ => simp
  rw [trindex_eq found h.nodup hlt' h1 b hb, h.newest hle hN]

end Array

/-- A backup that is not the oldest has a predecessor. -/
theorem exists_predecessor {arr : List Bu} (hs : (arr.map Bu.index).Pairwise (· < ·))
    {a b : Bu} (ha : a ∈ arr) (hb : b ∈ arr) (hlt : b.index < a.index) :
    ∃ l₁ l₂ p, arr = l₁ ++ p :: a :: l₂ ∧ p.index < a.index := by
  obtain ⟨l, r, hsplit⟩ := List.append_of_mem ha
  rcases List.eq_nil_or_concat l with rfl | ⟨l₁, p, rfl⟩
  · -- `a` would be the oldest
    rw [hsplit, List.nil_append, List.map_cons, List.pairwise_cons] at hs
    rw [hsplit, List.nil_append] at hb
    rcases List.mem_cons.mp hb with rfl | hb
    · omega
    · have := hs.1 b.index (List.mem_map_of_mem hb)
      omega
  · have hsplit' : arr = l₁ ++ p :: a :: r := by simpa using hsplit
    exact ⟨l₁, r, p, hsplit', ((follows_iff hs).mp ⟨l₁, r, hsplit'⟩).2.2.1⟩

/-! ## §4. The pass on a surviving store deletes nothing. -/

/-- Two backups of one range whose distance to the first backup is a multiple of the
range's width are the same. -/
theorem index_eq_of_range {n N i j s : Nat} (hi : 1 ≤ i) (hj : 1 ≤ j) (hiN : i ≤ N)
    (hjN : j ≤ N) (hdi : n ∣ i - 1) (hdj : n ∣ j - 1)
    (hsi : s < N - i + 1 ∧ N - i + 1 ≤ s + n) (hsj : s < N - j + 1 ∧ N - j + 1 ≤ s + n) :
    i = j := by
  have key : ∀ a b : Nat, a ≤ b → n ∣ a → n ∣ b → b < a + n → a = b := by
    intro a b hab hda hdb hlt
    have hsub : n ∣ b - a := Nat.dvd_sub hdb hda
    have hzero : b - a = 0 := Nat.eq_zero_of_dvd_of_lt hsub (by omega)
    omega
  rcases Nat.le_total i j with hij | hij
  · have := key (i - 1) (j - 1) (by omega) hdi hdj (by omega)
    omega
  · have := key (j - 1) (i - 1) (by omega) hdj hdi (by omega)
    omega

theorem length_filter_le_one {α : Type} {p : α → Bool} {l : List α} (hnd : l.Nodup)
    (h : ∀ a ∈ l, ∀ b ∈ l, p a = true → p b = true → a = b) : (l.filter p).length ≤ 1 := by
  have hnd' := hnd.filter p
  have hmem : ∀ a ∈ l.filter p, ∀ b ∈ l.filter p, a = b := by
    intro a ha b hb
    rw [List.mem_filter] at ha hb
    exact h a ha.1 b hb.1 ha.2 hb.2
  match hl : l.filter p, hnd', hmem with
  | [], _, _ => simp
  | [a], _, _ => simp
  | a :: b :: c, hnd', hmem =>
      have hab := hmem a (by simp) b (by simp)
      simp [hab] at hnd'

theorem oldestDeletions_eq_nil {arr : List Bu} {m : Nat} (h : ∀ b ∈ arr, b.trindex ≤ m) :
    oldestDeletions arr m = [] := by
  unfold oldestDeletions
  have hnone : arr.findIdx? (fun b => decide (m < b.trindex)) = none := by
    rw [List.findIdx?_eq_none_iff]
    intro b hb
    have := h b hb
    simpa using this
  rw [hnone]

/-- The single backup of a store has transposed index 0, which is in no range. -/
theorem doRemoveOldBackups_of_length_le_one {keep : List Nat} {found : List Bu}
    (h1 : found.length ≤ 1) : doRemoveOldBackups keep (getCurrentBackups found) = [] := by
  have hzero := fun b hb => trindex_eq_zero found h1 b hb
  unfold doRemoveOldBackups
  rw [List.append_eq_nil_iff]
  constructor
  · rw [keepDeletions_eq_levels, List.flatMap_eq_nil_iff]
    intro l _
    unfold levelDeletions
    rw [List.flatMap_eq_nil_iff]
    intro r _
    rw [List.eq_nil_iff_forall_not_mem]
    intro b hb
    have hin := mem_rangeDeletions hb
    rw [inRange_iff] at hin
    have := hzero b hin.1
    omega
  · exact oldestDeletions_eq_nil fun b hb => by rw [hzero b hb]; omega

/-- **The closed form is a fixed point**: each range of each level holds at most one
survivor, and none is too old. -/
theorem doRemoveOldBackups_of_survivors {keep : List Nat} (hk : Periods keep) {N : Nat}
    (hlt : N < 2 ^ 31) {found : List Bu} (h : Stored keep N (Survives keep N) found) :
    doRemoveOldBackups keep (getCurrentBackups found) = [] := by
  by_cases h1 : found.length ≤ 1
  · exact doRemoveOldBackups_of_length_le_one h1
  have hle : ∀ j, Survives keep N j → j ≤ N := fun j hj => hj.2.1
  -- two backups, so the newest index is not the only one
  have hage : ∀ b ∈ getCurrentBackups found, b.trindex = N - b.index + 1 := by
    intro b hb
    have hlt' : ∀ a ∈ found, a.index < 2 ^ 31 := by
      intro a ha
      have := hle a.index ((h.mem a.index).mp (List.mem_map_of_mem ha))
      omega
    have hbN := h.sat hb
    have hN := hk.survives_self (Nat.le_trans hbN.1 hbN.2.1)
    rw [trindex_eq found h.nodup hlt' (by omega) b hb, h.newest hle hN]
  unfold doRemoveOldBackups
  rw [List.append_eq_nil_iff]
  constructor
  · rw [keepDeletions_eq_levels, List.flatMap_eq_nil_iff]
    intro l hl
    unfold levelDeletions
    rw [List.flatMap_eq_nil_iff]
    intro r hr
    have hs := le_sub_of_mem_rangeEnds (Nat.dvd_mul_right l.1 l.2) hr
    have hr' := mem_rangeEnds (Nat.dvd_mul_right l.1 l.2) hr
    have hcount := length_filter_le_one (p := inRange (r - l.1) r)
      (getCurrentBackups_nodup h.nodup) (by
        intro a ha b hb hina hinb
        rw [inRange_iff, hage _ (by assumption)] at hina hinb
        obtain ⟨ha1, haN, -, hda⟩ := h.sat ha
        obtain ⟨hb1, hbN, -, hdb⟩ := h.sat hb
        refine eq_of_index_eq h.nodup ha hb
          (index_eq_of_range (s := r - l.1) ha1 hb1 haN hbN (hda l hl (by omega))
            (hdb l hl (by omega)) (by omega) (by omega)))
    unfold rangeDeletions
    rw [if_neg (by omega)]
  · refine oldestDeletions_eq_nil fun b hb => ?_
    rw [hage b hb]
    exact (h.sat hb).2.2.1

/-! ## §5. The pass after one more backup. -/

/-- With two backups in a range, the pass deletes the newest deletable one of them. -/
theorem deleteInRange_two (s r : Nat) :
    ∀ l : List Bu, deleteInRange s r 2 l = (l.find? fun b => inRange s r b && b.deletable).toList
  | [] => rfl
  | b :: bs => by
      unfold deleteInRange
      rw [List.find?_cons]
      cases hb : inRange s r b && b.deletable with
      | true => simp
      | false => simpa using deleteInRange_two s r bs

/-- The first backup of the walk that can be deleted is deleted. -/
theorem mem_deleteInRange_first {s r : Nat} {b : Bu} (hb : (inRange s r b && b.deletable) = true)
    {l₂ : List Bu} :
    ∀ {l₁ : List Bu} {count : Nat}, (∀ a ∈ l₁, inRange s r a = false) →
      b ∈ deleteInRange s r count (l₁ ++ b :: l₂)
  | [], count, _ => by
      rw [List.nil_append, deleteInRange, if_pos hb]
      split <;> simp
  | a :: as, count, h => by
      have ha : inRange s r a = false := h a (by simp)
      rw [List.cons_append, deleteInRange, if_neg (by simp [ha])]
      exact mem_deleteInRange_first hb fun c hc => h c (List.mem_cons_of_mem a hc)

/-- After one more backup: the survivors of `N` backups, and the new one. -/
def OneMore (keep : List Nat) (N j : Nat) : Prop := j = N + 1 ∨ Survives keep N j

section OneMore

variable {keep : List Nat} (hk : Periods keep) {N : Nat} (hN : 1 ≤ N) (hlt : N + 1 < 2 ^ 31)
  {found : List Bu} (h : Stored keep (N + 1) (OneMore keep N) found)

include hk hN hlt h

theorem oneMore_age {b : Bu} (hb : b ∈ getCurrentBackups found) :
    1 ≤ b.index ∧ b.index ≤ N + 1 ∧ b.trindex = N + 1 - b.index + 1 := by
  have hle : ∀ j, OneMore keep N j → j ≤ N + 1 := by
    rintro j (rfl | hj)
    · exact Nat.le_refl _
    · exact Nat.le_succ_of_le hj.2.1
  refine ⟨?_, hle _ (h.sat hb), ?_⟩
  · rcases h.sat hb with hj | hj
    · omega
    · exact hj.1
  · exact h.age hle (Or.inl rfl) hlt (j := N) (Or.inr (hk.survives_self hN)) (by omega) hb

/-- A backup older than a step was in step before, too, and is hardlinked; so the backup
that follows it is deletable. -/
theorem deletable_of_older {l : Nat × Nat} (hl : l ∈ levels 1 keep) {a b : Bu}
    (ha : a ∈ getCurrentBackups found) (hb : b ∈ getCurrentBackups found)
    (hba : b.index < a.index) (hage : l.1 < a.trindex) : a.deletable = true := by
  obtain ⟨l₁, l₂, p, hsplit, hpa⟩ :=
    exists_predecessor (getCurrentBackups_sorted found h.nodup) ha hb hba
  have hp : p ∈ getCurrentBackups found := by rw [hsplit]; simp
  rw [deletable_succ found l₁ l₂ p a hsplit, h.flag hp]
  have haN := oneMore_age hk hN hlt h ha
  obtain ⟨k, hhead⟩ := hk.head_level
  have hstep := hk.head_le_step hl
  rcases h.sat hp with hpN | hp
  · omega
  · exact ⟨hp.2.2.2 _ hhead (by dsimp only; omega), by omega⟩

/-- Two backups of one range: at least one of them is just crossing the step. -/
theorem crossing_of_range {l : Nat × Nat} (hl : l ∈ levels 1 keep) {s : Nat} (hs : l.1 ≤ s)
    {a b : Bu} (ha : a ∈ getCurrentBackups found) (hb : b ∈ getCurrentBackups found)
    (hina : inRange s (s + l.1) a = true) (hinb : inRange s (s + l.1) b = true) (hab : a ≠ b) :
    a.trindex = l.1 + 1 ∧ ¬ l.1 ∣ a.index - 1 ∨ b.trindex = l.1 + 1 ∧ ¬ l.1 ∣ b.index - 1 := by
  rw [inRange_iff] at hina hinb
  obtain ⟨ha1, haN, hta⟩ := oneMore_age hk hN hlt h ha
  obtain ⟨hb1, hbN, htb⟩ := oneMore_age hk hN hlt h hb
  have hstep := hk.step_pos hl
  -- a backup that is out of step has only now become older than the step
  have hcross : ∀ c ∈ getCurrentBackups found, s < c.trindex → ¬ l.1 ∣ c.index - 1 →
      c.trindex = l.1 + 1 := by
    intro c hc hsc hndvd
    obtain ⟨hc1, hcN, htc⟩ := oneMore_age hk hN hlt h hc
    rcases h.sat hc with hcN' | hcS
    · omega
    · have hnot : ¬ l.1 < N - c.index + 1 := fun hlt' => hndvd (hcS.2.2.2 l hl hlt')
      have := hcS.2.1
      omega
  by_cases hda : l.1 ∣ a.index - 1
  · by_cases hdb : l.1 ∣ b.index - 1
    · exfalso
      apply hab
      refine eq_of_index_eq h.nodup ha hb
        (index_eq_of_range (N := N + 1) (s := s) ha1 hb1 haN hbN hda hdb ?_ ?_)
      · omega
      · omega
    · exact Or.inr ⟨hcross b hb hinb.1 hdb, hdb⟩
  · exact Or.inl ⟨hcross a ha hina.1 hda, hda⟩

/-- So a range never holds more than two. -/
theorem range_length_le_two {l : Nat × Nat} (hl : l ∈ levels 1 keep) {s : Nat} (hs : l.1 ≤ s) :
    ((getCurrentBackups found).filter (inRange s (s + l.1))).length ≤ 2 := by
  have hnd := (getCurrentBackups_nodup h.nodup).filter (inRange s (s + l.1))
  have hmem : ∀ a ∈ (getCurrentBackups found).filter (inRange s (s + l.1)),
      a ∈ getCurrentBackups found ∧ inRange s (s + l.1) a = true := by
    intro a ha
    simpa using ha
  match hfil : (getCurrentBackups found).filter (inRange s (s + l.1)), hnd, hmem with
  | [], _, _ => simp
  | [a], _, _ => simp
  | [a, b], _, _ => simp
  | a :: b :: c :: rest, hnd, hmem =>
      exfalso
      obtain ⟨ha, hina⟩ := hmem a (by simp)
      obtain ⟨hb, hinb⟩ := hmem b (by simp)
      obtain ⟨hc, hinc⟩ := hmem c (by simp)
      simp only [List.nodup_cons, List.mem_cons, not_or] at hnd
      obtain ⟨⟨hab, hac, -⟩, ⟨hbc, -⟩, -⟩ := hnd
      have hsame : ∀ x ∈ getCurrentBackups found, ∀ y ∈ getCurrentBackups found,
          x.trindex = l.1 + 1 → y.trindex = l.1 + 1 → x = y := by
        intro x hx y hy htx hty
        obtain ⟨hx1, hxN, hxt⟩ := oneMore_age hk hN hlt h hx
        obtain ⟨hy1, hyN, hyt⟩ := oneMore_age hk hN hlt h hy
        exact eq_of_index_eq h.nodup hx hy (by omega)
      -- of each pair one is crossing, and there is only one age to cross at
      rcases crossing_of_range hk hN hlt h hl hs ha hb hina hinb hab with hx | hx
      · rcases crossing_of_range hk hN hlt h hl hs hb hc hinb hinc hbc with hy | hy
        · exact hab (hsame a ha b hb hx.1 hy.1)
        · exact hac (hsame a ha c hc hx.1 hy.1)
      · rcases crossing_of_range hk hN hlt h hl hs ha hc hina hinc hac with hy | hy
        · exact hab (hsame a ha b hb hy.1 hx.1)
        · exact hbc (hsame b hb c hc hx.1 hy.1)

/-- No range loses a backup that survives. -/
theorem not_survives_of_mem_range {l : Nat × Nat} (hl : l ∈ levels 1 keep) {s : Nat}
    (hs : l.1 ≤ s) {b : Bu} (hb : b ∈ rangeDeletions (getCurrentBackups found) s (s + l.1)) :
    ¬ Survives keep (N + 1) b.index := by
  obtain ⟨hmem, hin, hdel⟩ := mem_rangeDeletions hb
  rintro ⟨-, hbN, -, hstep⟩
  have hage := oneMore_age hk hN hlt h hmem
  have hlo := (inRange_iff.mp hin).1
  have hdvd : l.1 ∣ b.index - 1 := hstep l hl (by omega)
  have htwo := range_length_le_two hk hN hlt h hl hs
  simp only [rangeDeletions] at hb
  split at hb
  next hcount =>
    rw [show (List.filter (inRange s (s + l.1)) (getCurrentBackups found)).length = 2 by omega,
      deleteInRange_two, Option.mem_toList, List.find?_eq_some_iff_append] at hb
    obtain ⟨-, l₁, l₂, hrev, hfirst⟩ := hb
    -- the other backup of the range is crossing, so it is newer and deletable
    obtain ⟨a, ha, hina, hab⟩ : ∃ a ∈ getCurrentBackups found,
        inRange s (s + l.1) a = true ∧ a ≠ b := by
      by_contra hnone
      push Not at hnone
      have := length_filter_le_one (p := inRange s (s + l.1)) (getCurrentBackups_nodup h.nodup)
        (fun x hx y hy hinx hiny => (hnone x hx hinx).trans (hnone y hy hiny).symm)
      omega
    have hagea := oneMore_age hk hN hlt h ha
    rcases crossing_of_range hk hN hlt h hl hs ha hmem hina hin hab with hx | hx
    · have hne : a.index ≠ b.index := fun heq => hab (eq_of_index_eq h.nodup ha hmem heq)
      have hnewer : b.index < a.index := by omega
      have hdela := deletable_of_older hk hN hlt h hl ha hmem hnewer (by omega)
      have hmem₁ : a ∈ l₁ := by
        have hpair := List.pairwise_map.mp (getCurrentBackups_sorted found h.nodup)
        have hpair' := List.pairwise_reverse.mpr hpair
        have har : a ∈ (getCurrentBackups found).reverse := List.mem_reverse.mpr ha
        rw [hrev] at hpair' har
        rcases List.mem_append.mp har with har | har
        · exact har
        · rcases List.mem_cons.mp har with rfl | har
          · omega
          · have := (List.pairwise_cons.mp (List.pairwise_append.mp hpair').2.1).1 a har
            omega
      have := hfirst a hmem₁
      simp [hina, hdela] at this
    · exact hx.2 hdvd
  next => simp at hb

/-- The largest multiple of a step below a crossing backup survives next to it. -/
theorem exists_in_step {n k : Nat} (hl : (n, k) ∈ levels 1 keep) (h2 : 2 ≤ k) {b : Bu}
    (hb : b ∈ getCurrentBackups found) (hcross : b.trindex = n + 1) (hndvd : ¬ n ∣ b.index - 1) :
    ∃ g ∈ getCurrentBackups found, g.index < b.index ∧ inRange n (n + n) g = true := by
  obtain ⟨hb1, hbN, hage⟩ := oneMore_age hk hN hlt h hb
  have hstep : 0 < n := hk.step_pos hl
  have hrem : 0 < (b.index - 1) % n :=
    Nat.pos_of_ne_zero fun h0 => hndvd (Nat.dvd_of_mod_eq_zero h0)
  have hremlt : (b.index - 1) % n < n := Nat.mod_lt _ hstep
  have hremle : (b.index - 1) % n ≤ b.index - 1 := Nat.mod_le _ _
  have hend : n * 2 ≤ keepProduct keep :=
    Nat.le_trans (Nat.mul_le_mul_left n h2) (levels_end hk.pos hl)
  have hgdvd : n ∣ b.index - (b.index - 1) % n - 1 := by
    have heq : b.index - (b.index - 1) % n - 1 = b.index - 1 - (b.index - 1) % n := by omega
    rw [heq]
    exact Nat.dvd_sub_mod _
  have hsurv : Survives keep N (b.index - (b.index - 1) % n) := by
    refine ⟨by omega, by omega, by omega, ?_⟩
    intro l' hl' hlt'
    rcases levels_chain hl hl' with heq | hdvd | hdvd
    · rw [← heq]
      exact hgdvd
    · -- the next step is at least twice as large, beyond the age of `g`
      have hpos' := hk.step_pos hl'
      have hle := Nat.le_of_dvd hpos' hdvd
      have hn2 : n * 2 ≤ n * k := Nat.mul_le_mul_left n h2
      dsimp only at hle
      omega
    · exact ((Nat.dvd_mul_right _ _).trans hdvd).trans hgdvd
  obtain ⟨g, hg, hgi⟩ := h.find (Or.inr hsurv)
  refine ⟨g, hg, by omega, ?_⟩
  have hgage := oneMore_age hk hN hlt h hg
  rw [inRange_iff]
  omega

/-- A backup that crosses a step out of step is deleted. -/
theorem mem_keepDeletions_of_crossing {l : Nat × Nat} (hl : l ∈ levels 1 keep) {b : Bu}
    (hb : b ∈ getCurrentBackups found) (hcross : b.trindex = l.1 + 1)
    (hndvd : ¬ l.1 ∣ b.index - 1) : b ∈ keepDeletions (getCurrentBackups found) 1 keep := by
  obtain ⟨k, h2, hl'⟩ := levels_nonempty hk.pos hk.last hl
  have hstep := hk.step_pos hl
  obtain ⟨g, hg, hgb, hing⟩ := exists_in_step hk hN hlt h hl' h2 hb hcross hndvd
  have hdel := deletable_of_older hk hN hlt h hl hb hg hgb (by omega)
  have hinb : inRange l.1 (l.1 + l.1) b = true := by
    rw [inRange_iff]
    omega
  -- the range just above the step
  have hend : l.1 + l.1 ∈ rangeEnds l.1 (l.1 * k) (l.1 * k) := by
    have hends : ∀ (c fuel : Nat), 2 ≤ c → c ≤ fuel → l.1 + l.1 ∈ rangeEnds l.1 fuel (l.1 * c) := by
      intro c fuel hc
      induction fuel generalizing c with
      | zero => intro h0; omega
      | succ fuel ih =>
          intro hcf
          have hgt : l.1 * 2 ≤ l.1 * c := Nat.mul_le_mul_left _ hc
          unfold rangeEnds
          rw [if_pos (by omega)]
          by_cases hc2 : c = 2
          · subst hc2
            rw [show l.1 * 2 = l.1 + l.1 by omega]
            exact List.mem_cons_self
          · have hpred : l.1 * c - l.1 = l.1 * (c - 1) := (Nat.mul_sub_one l.1 c).symm
            rw [hpred]
            exact List.mem_cons_of_mem _ (ih (c - 1) (by omega) (by omega))
    exact hends k (l.1 * k) h2 (Nat.le_mul_of_pos_left k hstep)
  rw [keepDeletions_eq_levels, List.mem_flatMap]
  refine ⟨_, hl', List.mem_flatMap.mpr ⟨_, hend, ?_⟩⟩
  rw [Nat.add_sub_cancel]
  have hcount : 1 < ((getCurrentBackups found).filter (inRange l.1 (l.1 + l.1))).length := by
    by_contra hle
    obtain ⟨x, hx⟩ | hnil : (∃ x, (getCurrentBackups found).filter (inRange l.1 (l.1 + l.1)) = [x])
        ∨ (getCurrentBackups found).filter (inRange l.1 (l.1 + l.1)) = [] := by
      rcases Nat.le_one_iff_eq_zero_or_eq_one.mp (Nat.not_lt.mp hle) with h0 | h1
      · exact Or.inr (List.eq_nil_of_length_eq_zero h0)
      · exact Or.inl (List.length_eq_one_iff.mp h1)
    · have hgx : g ∈ [x] := hx ▸ List.mem_filter.mpr ⟨hg, hing⟩
      have hbx : b ∈ [x] := hx ▸ List.mem_filter.mpr ⟨hb, hinb⟩
      rw [List.mem_singleton] at hgx hbx
      rw [hgx, hbx] at hgb
      omega
    · have : b ∈ ([] : List Bu) := hnil ▸ List.mem_filter.mpr ⟨hb, hinb⟩
      simp at this
  unfold rangeDeletions
  rw [if_pos hcount]
  -- everything newer is below the range
  obtain ⟨l₁, l₂, hsplit⟩ := List.append_of_mem (List.mem_reverse.mpr hb)
  rw [hsplit]
  refine mem_deleteInRange_first (by simp [hinb, hdel]) ?_
  intro a ha
  have hpair := List.pairwise_reverse.mpr
    (List.pairwise_map.mp (getCurrentBackups_sorted found h.nodup))
  rw [hsplit] at hpair
  have hnewer := (List.pairwise_append.mp hpair).2.2 a ha b (by simp)
  have ha' : a ∈ getCurrentBackups found := by
    rw [← List.mem_reverse, hsplit]
    exact List.mem_append_left _ ha
  have hagea := oneMore_age hk hN hlt h ha'
  have hageb := oneMore_age hk hN hlt h hb
  rw [Bool.eq_false_iff]
  intro hin
  rw [inRange_iff] at hin
  omega

/-- The backup that has just become too old is the oldest. -/
theorem mem_oldestDeletions_of_age {b : Bu} (hb : b ∈ getCurrentBackups found)
    (hage : keepProduct keep < b.trindex) :
    b ∈ oldestDeletions (getCurrentBackups found) (keepProduct keep) := by
  have hold := oneMore_age hk hN hlt h hb
  have hprod := hk.one_le_product
  -- it is first in the array, because no other age exceeds the product
  have hfirst : ∃ l, getCurrentBackups found = b :: l := by
    match hget : getCurrentBackups found, hb with
    | x :: l, hb =>
        rcases List.mem_cons.mp hb with rfl | hbl
        · exact ⟨l, rfl⟩
        · exfalso
          have hx : x ∈ getCurrentBackups found := by rw [hget]; simp
          have hs := getCurrentBackups_sorted found h.nodup
          rw [hget, List.map_cons, List.pairwise_cons] at hs
          have hxb : x.index < b.index := hs.1 b.index (List.mem_map_of_mem hbl)
          have hxage := oneMore_age hk hN hlt h hx
          rcases h.sat hx with hxN | hxS
          · omega
          · have := hxS.2.2.1
            omega
  obtain ⟨l, hl⟩ := hfirst
  unfold oldestDeletions
  rw [hl, List.findIdx?_cons, if_pos (by simpa using hage)]
  simp

/-- **One pass** deletes exactly the backups that no longer survive. -/
theorem mem_doRemoveOldBackups_iff {b : Bu} (hb : b ∈ getCurrentBackups found) :
    b ∈ doRemoveOldBackups keep (getCurrentBackups found) ↔ ¬ Survives keep (N + 1) b.index := by
  obtain ⟨hb1, hbN, hage⟩ := oneMore_age hk hN hlt h hb
  constructor
  · intro hdel
    rcases List.mem_append.mp hdel with hdel | hdel
    · rw [keepDeletions_eq_levels, List.mem_flatMap] at hdel
      obtain ⟨l, hl, hdel⟩ := hdel
      obtain ⟨r, hr, hdel⟩ := List.mem_flatMap.mp hdel
      have hs := le_sub_of_mem_rangeEnds (Nat.dvd_mul_right l.1 l.2) hr
      have hr' := mem_rangeEnds (Nat.dvd_mul_right l.1 l.2) hr
      have hrs : r - l.1 + l.1 = r := by omega
      refine not_survives_of_mem_range hk hN hlt h hl hs ?_
      rwa [hrs]
    · rintro ⟨-, -, hle, -⟩
      have hlt' : ∀ a ∈ found, a.index < 2 ^ 31 := by
        intro a ha
        rcases (h.mem a.index).mp (List.mem_map_of_mem ha) with haN | haS
        · omega
        · have := haS.2.1
          omega
      have := (mem_oldestDeletions h.nodup hlt' hdel).1
      omega
  · intro hnot
    rcases h.sat hb with hbnew | hbS
    · rw [hbnew] at hnot
      exact absurd (hk.survives_self (by omega)) hnot
    · by_cases hprod : keepProduct keep < b.trindex
      · exact List.mem_append_right _ (mem_oldestDeletions_of_age hk hN hlt h hb hprod)
      · obtain ⟨-, hbN', -, hold⟩ := hbS
        have hstep : ∃ l ∈ levels 1 keep, l.1 < N + 1 - b.index + 1 ∧ ¬ l.1 ∣ b.index - 1 := by
          by_contra hnone
          push Not at hnone
          exact hnot ⟨hb1, hbN, by omega, hnone⟩
        obtain ⟨l, hl, hlt', hndvd⟩ := hstep
        have hcross : ¬ l.1 < N - b.index + 1 := fun hlt => hndvd (hold l hl hlt)
        exact List.mem_append_left _
          (mem_keepDeletions_of_crossing hk hN hlt h hl hb (by omega) hndvd)

/-- The store after that pass is the closed form for one backup more. -/
theorem afterPass_stored :
    Stored keep (N + 1) (Survives keep (N + 1)) (afterPass keep found) where
  nodup := ((getCurrentBackups_sorted found h.nodup).imp
    (fun hlt => Nat.ne_of_lt hlt)).sublist (afterPass_index_sublist keep found)
  mem := by
    intro j
    constructor
    · intro hj
      obtain ⟨b, hb, rfl⟩ := List.mem_map.mp hj
      obtain ⟨hmem, hnot⟩ := mem_afterPass.mp hb
      rw [mem_doRemoveOldBackups_iff hk hN hlt h hmem, Classical.not_not] at hnot
      exact hnot
    · intro hj
      -- a survivor of one backup more was there before, or is the new one
      have hone : OneMore keep N j := by
        obtain ⟨hj1, hjN, hjp, hjs⟩ := hj
        rcases Nat.lt_or_ge N j with hjN' | hjN'
        · exact Or.inl (by omega)
        · exact Or.inr ⟨hj1, hjN', by omega, fun l hl hlt' => hjs l hl (by omega)⟩
      obtain ⟨b, hb, rfl⟩ := h.find hone
      rw [mem_index_afterPass h.nodup hb, mem_doRemoveOldBackups_iff hk hN hlt h hb]
      exact fun hnot => hnot hj
  hardlinked := by
    intro b hb
    exact h.flag (mem_afterPass.mp hb).1

end OneMore

/-! ## §6. Every number of backups. -/

theorem doHardlinkedArchive_eq {keep : List Nat} (htwo : 2 ≤ keep.length) {N : Nat} (hN : 1 ≤ N)
    (hlt : N < 2 ^ 31) :
    doHardlinkedArchive false keep (N + 1) = true ↔ keep.headD 1 ∣ N - 1 := by
  have hwrap : (N + 1 + (2 ^ 64 - 2)) % 2 ^ 64 = N - 1 := by omega
  match keep, htwo with
  | k :: k' :: ks, _ =>
      simp only [doHardlinkedArchive, hwrap, Bool.false_eq_true, if_false, decide_eq_true_eq,
        List.headD_cons]
      exact (Nat.dvd_iff_mod_eq_zero).symm

/-- Phase 4 of one more backup. -/
theorem completeBackup_stored {keep : List Nat} (hk : Periods keep) {N : Nat} (hN : 1 ≤ N)
    (hlt : N < 2 ^ 31) {found : List Bu} (h : Stored keep N (Survives keep N) found) :
    Stored keep (N + 1) (OneMore keep N) (completeBackup keep found) := by
  have hnew : newestIndex (getCurrentBackups found) = N :=
    h.newest (fun j hj => hj.2.1) (hk.survives_self hN)
  have hindex : (completeBackup keep found).map Bu.index
      = (getCurrentBackups found).map Bu.index ++ [N + 1] := by
    unfold completeBackup
    simp only [List.map_append, List.map_map, List.map_cons, List.map_nil, hnew]
    congr 1
    refine List.map_congr_left fun b _ => ?_
    simp only [Function.comp_apply]
    split <;> rfl
  refine ⟨?_, ?_, ?_⟩
  · rw [hindex, List.nodup_append]
    refine ⟨(getCurrentBackups_sorted found h.nodup).imp (fun hlt => Nat.ne_of_lt hlt),
      List.nodup_singleton _, ?_⟩
    intro a ha b hb hab
    rw [List.mem_singleton] at hb
    have := ((h.mem_iff a).mp ha).2.1
    omega
  · intro j
    rw [hindex, List.mem_append, List.mem_singleton, h.mem_iff, or_comm]
    rfl
  · intro b hb
    unfold completeBackup at hb
    simp only [hnew] at hb
    rcases List.mem_append.mp hb with hb | hb
    · obtain ⟨a, ha, rfl⟩ := List.mem_map.mp hb
      have haN := (h.sat ha).2.1
      by_cases heq : a.index = N
      · simp only [heq, if_true]
        rw [doHardlinkedArchive_eq hk.two hN hlt]
        simp
      · rw [if_neg heq, h.flag ha]
        constructor
        · rintro ⟨hdvd, -⟩
          exact ⟨hdvd, by omega⟩
        · rintro ⟨hdvd, -⟩
          exact ⟨hdvd, by omega⟩
    · rw [List.mem_singleton] at hb
      subst hb
      simp

/-- The loop of passes: one pass to the closed form, and one that finds nothing. -/
theorem removeAll_stored {keep : List Nat} (hk : Periods keep) {N : Nat} (hN : 1 ≤ N)
    (hlt : N + 1 < 2 ^ 31) {found : List Bu} (h : Stored keep (N + 1) (OneMore keep N) found) :
    ∃ left, removeAll keep found = some left
      ∧ Stored keep (N + 1) (Survives keep (N + 1)) left := by
  have hafter := afterPass_stored hk hN hlt h
  unfold removeAll removeOldBackups
  split
  next hnone =>
    refine ⟨found, rfl, h.nodup, ?_, h.hardlinked⟩
    -- nothing was deleted: the store is already the closed form
    intro j
    rw [← hafter.mem j, afterPass, hnone]
    simp only [List.not_mem_nil, not_false_eq_true, decide_true, List.filter_true]
    exact (mem_index_getCurrentBackups found j).symm
  next hsome =>
    have hpos : 0 < found.length := by
      rw [← getCurrentBackups_length]
      obtain ⟨b, hb⟩ := List.exists_mem_of_ne_nil _ hsome
      have hlt' : ∀ a ∈ found, a.index < 2 ^ 31 := by
        intro a ha
        rcases (h.mem a.index).mp (List.mem_map_of_mem ha) with haN | haS
        · omega
        · have := haS.2.1
          omega
      exact List.length_pos_of_mem (mem_doRemoveOldBackups hk.pos h.nodup hlt' hb).1
    refine ⟨afterPass keep found, ?_, hafter⟩
    obtain ⟨fuel, hfuel⟩ := Nat.exists_eq_succ_of_ne_zero (Nat.ne_of_gt hpos)
    rw [hfuel, removeOldBackups, if_pos (doRemoveOldBackups_of_survivors hk hlt hafter)]

theorem history_stored {keep : List Nat} (hk : Periods keep) :
    ∀ N : Nat, N < 2 ^ 31 →
      ∃ left, history keep N = some left ∧ Stored keep N (Survives keep N) left := by
  intro N
  induction N with
  | zero =>
      intro _
      refine ⟨[], rfl, by simp, ?_, by simp⟩
      intro j
      simp only [List.map_nil, List.not_mem_nil, Survives, false_iff]
      omega
  | succ N ih =>
      intro hlt
      obtain ⟨found, hfound, h⟩ := ih (by omega)
      rw [history, hfound]
      by_cases hN : N = 0
      · -- the very first backup: a single one, with transposed index 0
        subst hN
        simp only [history, Option.some.injEq] at hfound
        subst hfound
        have hfirst : completeBackup keep [] = [{ hardlinked := false, index := 1 }] := rfl
        refine ⟨[{ hardlinked := false, index := 1 }], ?_, by simp, ?_, by simp⟩
        · simp only [Option.bind_some, hfirst, removeAll]
          rw [removeOldBackups, if_pos (doRemoveOldBackups_of_length_le_one (by simp))]
        · intro j
          have hself := hk.survives_self (N := 1) (Nat.le_refl 1)
          constructor
          · intro hj
            simp only [List.map_cons, List.map_nil, List.mem_singleton] at hj
            rw [hj]
            exact hself
          · rintro ⟨hj1, hjN, -⟩
            simp only [List.map_cons, List.map_nil, List.mem_singleton]
            omega
      · obtain ⟨left, hleft, hs⟩ := removeAll_stored hk (by omega) hlt
          (completeBackup_stored hk (by omega) (by omega) h)
        exact ⟨left, by rw [Option.bind_some, hleft], hs⟩

/-! ## §7. The guarantee. -/

theorem bumpLast_spec :
    ∀ {ks : List Nat}, 2 ≤ ks.length →
      (bumpLast ks).headD 1 = ks.headD 1 ∧ (bumpLast ks).length = ks.length
        ∧ (bumpLast ks).dropLast = ks.dropLast
        ∧ (bumpLast ks).getLastD 2 = ks.getLastD 2 + 1 := by
  have hone : ∀ (ks : List Nat) (k : Nat), (bumpLast (k :: ks)).length = (k :: ks).length
      ∧ (bumpLast (k :: ks)).dropLast = (k :: ks).dropLast
      ∧ (bumpLast (k :: ks)).getLastD 2 = (k :: ks).getLastD 2 + 1 := by
    intro ks
    induction ks with
    | nil => intro k; simp [bumpLast]
    | cons k' ks ih =>
        intro k
        obtain ⟨hlen, hinit, hlast⟩ := ih k'
        have hne : bumpLast (k' :: ks) ≠ [] := by
          intro h0
          rw [h0] at hlen
          simp at hlen
        refine ⟨by simp [bumpLast, hlen], ?_, ?_⟩
        · rw [bumpLast, List.dropLast_cons_of_ne_nil hne, hinit]
          simp
        · rw [bumpLast, List.getLastD_cons]
          obtain ⟨x, xs, hx⟩ := List.exists_cons_of_ne_nil hne
          rw [hx] at hlast ⊢
          simpa [List.getLastD] using hlast
  intro ks h2
  cases ks with
  | nil => simp at h2
  | cons k ks =>
      cases ks with
      | nil => simp at h2
      | cons k' ks => exact ⟨rfl, hone (k' :: ks) k⟩

theorem foldl_dropLast {ks : List Nat} (hne : ks ≠ []) :
    ks.foldl (· * ·) 1 = ks.dropLast.foldl (· * ·) 1 * ks.getLastD 2 := by
  conv_lhs => rw [← List.dropLast_append_getLast hne]
  rw [List.foldl_append, List.foldl_cons, List.foldl_nil, List.getLastD_eq_getLast?,
    List.getLast?_eq_getLast_of_ne_nil hne, Option.getD_some]

theorem finaliseKeep_pos {ks flags : List Nat} (h : finaliseKeep ks = some flags) :
    ∀ k ∈ ks, 0 < k := by
  unfold finaliseKeep at h
  split at h
  next hlim => exact (keepLimit_foldl ks 1 (by norm_num) hlim).2
  next => simp at h

theorem finaliseKeep_periods {ks flags : List Nat} (h2 : 2 ≤ ks.length)
    (h : finaliseKeep ks = some flags) : Periods flags := by
  have hpos := finaliseKeep_pos h
  rw [finaliseKeep_eq h2 h]
  obtain ⟨-, hlen, hinit, hlast⟩ := bumpLast_spec h2
  have hne : bumpLast ks ≠ [] := by
    intro h0
    rw [h0] at hlen
    simp only [List.length_nil] at hlen
    omega
  have hneks : ks ≠ [] := by
    intro h0
    rw [h0] at h2
    simp at h2
  have hgetLast : ∀ {l : List Nat} (hl : l ≠ []), l.getLastD 2 = l.getLast hl := by
    intro l hl
    rw [List.getLastD_eq_getLast?, List.getLast?_eq_getLast_of_ne_nil hl, Option.getD_some]
  have hlastpos : 0 < ks.getLastD 2 := by
    rw [hgetLast hneks]
    exact hpos _ (List.getLast_mem hneks)
  refine ⟨?_, by omega, by omega⟩
  intro k hk
  rw [← List.dropLast_append_getLast hne, List.mem_append, List.mem_singleton, hinit] at hk
  rcases hk with hk | hk
  · exact hpos k (List.mem_of_mem_dropLast hk)
  · rw [hk, ← hgetLast hne, hlast]
    omega

/-- **The guarantee of the 'keep' values.**  After `N` completed backups, each followed by
`remove_old_backups`, the newest `min N k₁` backups are there; and from the second backup
on, once there have been as many as the product of the 'keep' values, one of at least
that age is. -/
theorem keep_guarantee (ks flags : List Nat) (h2 : 2 ≤ ks.length)
    (hconf : finaliseKeep ks = some flags) (N : Nat) (hN : N < 2 ^ 31) :
    ∃ left, history flags N = some left
      ∧ (∀ j, N < j + min N (ks.headD 1) → j ≤ N → j ∈ (getCurrentBackups left).map Bu.index)
      ∧ (2 ≤ N → keepProduct ks ≤ N →
          ∃ b ∈ getCurrentBackups left, keepProduct ks ≤ b.trindex) := by
  have hk := finaliseKeep_periods h2 hconf
  obtain ⟨left, hleft, h⟩ := history_stored hk N hN
  refine ⟨left, hleft, ?_, ?_⟩
  · intro j hj hjN
    rw [h.mem_iff]
    have hhead : flags.headD 1 = ks.headD 1 := by
      rw [finaliseKeep_eq h2 hconf]
      exact (bumpLast_spec h2).1
    have hprod : flags.headD 1 ≤ keepProduct flags := by
      obtain ⟨k, hl⟩ := hk.head_level
      have hend := levels_end hk.pos hl
      have hlevel := levels_nonempty hk.pos hk.last hl
      obtain ⟨k', hk2, hl'⟩ := hlevel
      have := levels_end hk.pos hl'
      calc flags.headD 1 ≤ flags.headD 1 * k' := Nat.le_mul_of_pos_right _ (by omega)
        _ ≤ keepProduct flags := this
    refine ⟨by omega, hjN, by omega, ?_⟩
    intro l hl hlt
    have := hk.head_le_step hl
    omega
  · intro hN2 hprod
    -- the youngest multiple of all but the last value that is old enough
    have hks : ks ≠ [] := by
      intro h0
      rw [h0] at h2
      simp at h2
    obtain ⟨-, hlen, hinit, hlast⟩ := bumpLast_spec h2
    have hflags := finaliseKeep_eq h2 hconf
    have hfl : flags ≠ [] := by
      intro h0
      have := hk.two
      rw [h0] at this
      simp at this
    have htotal : keepProduct flags = keepProduct ks + ks.dropLast.foldl (· * ·) 1 := by
      unfold keepProduct
      rw [foldl_dropLast hfl, foldl_dropLast hks, hflags, hinit, hlast, Nat.mul_add, Nat.mul_one]
    have hQ : 1 ≤ keepProduct ks := foldl_mul_le (finaliseKeep_pos hconf) 1
    have hGpos : 0 < ks.dropLast.foldl (· * ·) 1 :=
      foldl_mul_le (fun k h => finaliseKeep_pos hconf k (List.mem_of_mem_dropLast h)) 1
    generalize hG : ks.dropLast.foldl (· * ·) 1 = G at htotal hGpos
    have hdm := Nat.div_add_mod (N - keepProduct ks) G
    have hmod := Nat.mod_lt (N - keepProduct ks) hGpos
    have hj : Survives flags N (G * ((N - keepProduct ks) / G) + 1) := by
      refine ⟨by omega, by omega, by omega, ?_⟩
      intro l hl _
      rw [Nat.add_sub_cancel]
      have hdvd := levels_dvd_init hl
      rw [hflags, hinit, hG] at hdvd
      exact hdvd.trans (Nat.dvd_mul_right _ _)
    obtain ⟨b, hb, hbj⟩ := h.find hj
    refine ⟨b, hb, ?_⟩
    have hother : ∃ i, Survives flags N i ∧ i ≠ N := by
      by_cases hne : G * ((N - keepProduct ks) / G) + 1 = N
      · -- then the product is 1, and the previous backup survives as well
        refine ⟨N - 1, ⟨by omega, by omega, by omega, ?_⟩, by omega⟩
        intro l hl hlt
        have hstep := hk.step_pos hl
        have hl1 : l.1 = 1 := by omega
        rw [hl1]
        exact Nat.one_dvd _
      · exact ⟨_, hj, hne⟩
    obtain ⟨i, hi, hiN⟩ := hother
    rw [h.age (fun j hj => hj.2.1) (hk.survives_self (by omega)) hN hi hiN hb]
    omega

/-- keep=2, keep=2 after five backups. -/
theorem keep_guarantee_two_two :
    ∃ left, history [2, 3] 5 = some left
      ∧ (∀ j, 5 < j + min 5 2 → j ≤ 5 → j ∈ (getCurrentBackups left).map Bu.index)
      ∧ (2 ≤ 5 → keepProduct [2, 2] ≤ 5 →
          ∃ b ∈ getCurrentBackups left, keepProduct [2, 2] ≤ b.trindex) :=
  keep_guarantee [2, 2] [2, 3] (by decide) (by decide) 5 (by decide)

/-- A single backup has transposed index 0, not 1, so keep=1, keep=1 promise too much of
the very first backup. -/
theorem first_backup_has_no_age :
    finaliseKeep [1, 1] = some [1, 2] ∧ keepProduct [1, 1] ≤ 1
      ∧ ∃ left, history [1, 2] 1 = some left
          ∧ ¬ ∃ b ∈ getCurrentBackups left, keepProduct [1, 1] ≤ b.trindex :=
  ⟨by decide, by decide, [{ hardlinked := false, index := 1 }], by decide, by decide⟩

end Burp.Backups
