/-
  Burp.Backups.Bu — the list of backups that `get_current_backups` hands out.

  `get_current_backups` (current_backups_server.c) collects one `struct bu` for each
  backup directory, sorts the array by index and then fills in two derived fields:
  `deletable` (the oldest backup, and every backup that follows a hardlinked one) and
  `trindex` (the age, counted from the newest backup).  This file is that second half,
  from the array as `readdir` delivered it; which directories count as backups is
  decided in `Burp.Backups.Delete`.

  Main results:
    * `getCurrentBackups_sorted` — the array is strictly increasing by index.
    * `trindex_eq` — below 2^31 the wrapped C arithmetic is the plain age.
    * `deletable_succ` — a backup that is not the oldest is deletable exactly when its
      predecessor is hardlinked.
-/
import Mathlib.Data.List.Sort
import Mathlib.Tactic

namespace Burp.Backups

/-! ## §1. `struct bu`. -/

/-- One backup.  `path` is the directory name below the client's base directory; `data`
and `delta` of the source are `path/data` and `path/deltas.reverse`. -/
structure Bu where
  path : String := ""
  hardlinked : Bool
  deletable : Bool := false
  index : Nat
  trindex : Nat := 0
  deriving DecidableEq, Repr

/-- `bu_cmp`, as the order `qsort` sorts by. -/
def buLe (a b : Bu) : Prop := a.index ≤ b.index

instance : DecidableRel buLe := fun a b => inferInstanceAs (Decidable (a.index ≤ b.index))

instance : Std.Total buLe := ⟨fun a b => Nat.le_total a.index b.index⟩

instance : IsTrans Bu buLe := ⟨fun _ _ _ => Nat.le_trans⟩

/-! ## §2. The derived fields. -/

/-- Conversion of an `unsigned long` to `int`. -/
def toInt32 (n : Nat) : Int :=
  if n % 2 ^ 32 < 2 ^ 31 then ((n % 2 ^ 32 : Nat) : Int) else ((n % 2 ^ 32 : Nat) : Int) - 2 ^ 32

/-- `tr-(*arr)[j].index+1`, computed in `unsigned long`. -/
def transpose (tr : Int) (index : Nat) : Nat :=
  ((tr - (index : Int) + 1) % 2 ^ 64).toNat

/-- The loop that sets `deletable`: the oldest backup gets `first`, every other one the
`hardlinked` flag of its predecessor. -/
def setDeletable (first : Bool) : List Bu → List Bu
  | [] => []
  | b :: bs => { b with deletable := first } :: setDeletable b.hardlinked bs

/-- `tr`: the index of the newest backup, as an `int`, if there is more than one. -/
def newestTr (arr : List Bu) : Int :=
  if 1 < arr.length then toInt32 ((arr.getLast?.map Bu.index).getD 0) else 0

/-- The loop that sets `trindex`; it does not run when `tr` is 0. -/
def setTrindex (tr : Int) (arr : List Bu) : List Bu :=
  if tr = 0 then arr else arr.map fun b => { b with trindex := transpose tr b.index }

/-- `get_current_backups`, from the entries that `readdir` found: sort, then set
`deletable` and `trindex`. -/
def getCurrentBackups (found : List Bu) : List Bu :=
  let arr := (found.map fun b => { b with deletable := false, trindex := 0 }).insertionSort buLe
  setTrindex (newestTr arr) (setDeletable (decide (1 < arr.length)) arr)


/-! ## §3. Shape of the array. -/

@[simp] theorem setDeletable_length (first : Bool) (arr : List Bu) :
    (setDeletable first arr).length = arr.length := by
  induction arr generalizing first with
  | nil => rfl
  | cons b bs ih => simp [setDeletable, ih]

@[simp] theorem setTrindex_length (tr : Int) (arr : List Bu) :
    (setTrindex tr arr).length = arr.length := by
  unfold setTrindex
  split <;> simp

/-- The directory entries as the array starts out: both derived fields cleared. -/
def cleared (found : List Bu) : List Bu :=
  (found.map fun b => { b with deletable := false, trindex := 0 }).insertionSort buLe

theorem getCurrentBackups_eq (found : List Bu) :
    getCurrentBackups found
      = setTrindex (newestTr (cleared found))
          (setDeletable (decide (1 < (cleared found).length)) (cleared found)) := rfl

section Fields

/-! A field that is not derived stays with its backup. -/

variable {β : Type} {f : Bu → β} (hf : ∀ b d t, f { b with deletable := d, trindex := t } = f b)

include hf

theorem setDeletable_map (first : Bool) (arr : List Bu) :
    (setDeletable first arr).map f = arr.map f := by
  induction arr generalizing first with
  | nil => rfl
  | cons b bs ih =>
      have hb : f { b with deletable := first } = f b := hf b first b.trindex
      simp [setDeletable, ih, hb]

theorem setTrindex_map (tr : Int) (arr : List Bu) :
    (setTrindex tr arr).map f = arr.map f := by
  unfold setTrindex
  split
  · rfl
  · have hb : ∀ b : Bu, f { b with trindex := transpose tr b.index } = f b :=
      fun b => hf b b.deletable (transpose tr b.index)
    simp [Function.comp_def, hb]

theorem getCurrentBackups_map (found : List Bu) :
    (getCurrentBackups found).map f = (cleared found).map f := by
  rw [getCurrentBackups_eq, setTrindex_map hf, setDeletable_map hf]

theorem cleared_perm (found : List Bu) : ((cleared found).map f).Perm (found.map f) := by
  have h := (List.perm_insertionSort buLe
    (found.map fun b => { b with deletable := false, trindex := 0 })).map f
  simpa [cleared, List.map_map, Function.comp_def, hf] using h

end Fields

theorem getCurrentBackups_map_index (found : List Bu) :
    (getCurrentBackups found).map Bu.index = (cleared found).map Bu.index :=
  getCurrentBackups_map (fun _ _ _ => rfl) found

theorem cleared_perm_index (found : List Bu) :
    ((cleared found).map Bu.index).Perm (found.map Bu.index) :=
  cleared_perm (fun _ _ _ => rfl) found

/-- The array has the directories that were found. -/
theorem mem_path_getCurrentBackups (found : List Bu) (x : String) :
    x ∈ (getCurrentBackups found).map Bu.path ↔ x ∈ found.map Bu.path := by
  rw [getCurrentBackups_map (fun _ _ _ => rfl)]
  exact (cleared_perm (fun _ _ _ => rfl) found).mem_iff

/-- Sorting keeps the set of indexes. -/
theorem mem_index_getCurrentBackups (found : List Bu) (i : Nat) :
    i ∈ (getCurrentBackups found).map Bu.index ↔ i ∈ found.map Bu.index := by
  rw [getCurrentBackups_map_index]
  exact (cleared_perm_index found).mem_iff

@[simp] theorem getCurrentBackups_length (found : List Bu) :
    (getCurrentBackups found).length = found.length := by
  simp [getCurrentBackups]

/-- **The array is strictly increasing by index** when the indexes are distinct. -/
theorem getCurrentBackups_sorted (found : List Bu) (hnd : (found.map Bu.index).Nodup) :
    ((getCurrentBackups found).map Bu.index).Pairwise (· < ·) := by
  rw [getCurrentBackups_map_index]
  have hle : ((cleared found).map Bu.index).Pairwise (· ≤ ·) := by
    rw [List.pairwise_map]
    exact List.pairwise_insertionSort buLe _
  have hne : ((cleared found).map Bu.index).Nodup :=
    (cleared_perm_index found).nodup_iff.mpr hnd
  have hboth := hle.and hne
  exact hboth.imp fun h => lt_of_le_of_ne h.1 h.2


/-! ## §4. The derived fields, read off the array. -/

theorem setDeletable_split :
    ∀ (first : Bool) (arr l₁ l₂ : List Bu) (p b : Bu),
      setDeletable first arr = l₁ ++ p :: b :: l₂ → b.deletable = p.hardlinked
  | _, [], l₁, _, _, _, h => by cases l₁ <;> simp [setDeletable] at h
  | first, a :: as, l₁, l₂, p, b, h => by
      cases l₁ with
      | nil =>
          simp only [setDeletable, List.nil_append, List.cons.injEq] at h
          obtain ⟨hp, hrest⟩ := h
          subst hp
          cases as with
          | nil => simp [setDeletable] at hrest
          | cons c cs =>
              simp only [setDeletable, List.cons.injEq] at hrest
              rw [← hrest.1]
      | cons c cs =>
          simp only [setDeletable, List.cons_append, List.cons.injEq] at h
          exact setDeletable_split a.hardlinked as cs l₂ p b h.2

/-- What `setTrindex` does to one backup. -/
def setTrindexOne (tr : Int) (b : Bu) : Bu :=
  { b with trindex := if tr = 0 then b.trindex else transpose tr b.index }

theorem setTrindex_eq_map (tr : Int) (arr : List Bu) :
    setTrindex tr arr = arr.map (setTrindexOne tr) := by
  unfold setTrindex setTrindexOne
  split
  · simp
  · rfl

/-- **Every backup but the oldest is deletable exactly when its predecessor is
hardlinked.** -/
theorem deletable_succ (found l₁ l₂ : List Bu) (p b : Bu)
    (h : getCurrentBackups found = l₁ ++ p :: b :: l₂) : b.deletable = p.hardlinked := by
  rw [getCurrentBackups_eq, setTrindex_eq_map] at h
  obtain ⟨m₁, m₂, hm, hm₁, hm₂⟩ := List.map_eq_append_iff.mp h
  obtain ⟨p', m₃, rfl, hp, hm₃⟩ := List.map_eq_cons_iff.mp hm₂
  obtain ⟨b', m₄, rfl, hb, -⟩ := List.map_eq_cons_iff.mp hm₃
  have hdel := setDeletable_split _ _ m₁ m₄ p' b' hm
  rw [← hp, ← hb]
  exact hdel

/-- The index of the newest backup, 0 if there is none. -/
def newestIndex (arr : List Bu) : Nat := (arr.getLast?.map Bu.index).getD 0

theorem newestIndex_eq (arr : List Bu) :
    newestIndex arr = ((arr.map Bu.index).getLast?).getD 0 := by
  simp [newestIndex, List.getLast?_map]

theorem le_newestIndex {arr : List Bu} (hs : (arr.map Bu.index).Pairwise (· < ·)) :
    ∀ b ∈ arr, b.index ≤ newestIndex arr := by
  induction arr with
  | nil => intro b hb; simp at hb
  | cons a as ih =>
      intro b hb
      rw [List.map_cons, List.pairwise_cons] at hs
      obtain ⟨hfirst, hs'⟩ := hs
      cases as with
      | nil =>
          rw [List.mem_singleton] at hb
          simp [newestIndex, hb]
      | cons c cs =>
          have hlast : newestIndex (a :: c :: cs) = newestIndex (c :: cs) := by
            simp [newestIndex]
          rw [hlast]
          rcases List.mem_cons.mp hb with rfl | hb
          · have hac : b.index < c.index := hfirst c.index (by simp)
            exact Nat.le_trans (Nat.le_of_lt hac) (ih hs' c (by simp))
          · exact ih hs' b hb

theorem newestIndex_mem {arr : List Bu} (h : arr ≠ []) :
    ∃ b ∈ arr, b.index = newestIndex arr := by
  refine ⟨arr.getLast h, List.getLast_mem h, ?_⟩
  simp [newestIndex, List.getLast?_eq_getLast_of_ne_nil h]

/-- **The transposed index is the age** `newest - index + 1` as soon as there are two
backups and the indexes fit an `int`. -/
theorem trindex_eq (found : List Bu) (hnd : (found.map Bu.index).Nodup)
    (hlt : ∀ b ∈ found, b.index < 2 ^ 31) (h1 : 1 < found.length)
    (b : Bu) (hb : b ∈ getCurrentBackups found) :
    b.trindex = newestIndex (getCurrentBackups found) - b.index + 1 := by
  have hsorted := getCurrentBackups_sorted found hnd
  have hble := le_newestIndex hsorted b hb
  have hne : getCurrentBackups found ≠ [] := List.ne_nil_of_mem hb
  obtain ⟨c, hc, hcn⟩ := newestIndex_mem hne
  have hclt : newestIndex (getCurrentBackups found) < 2 ^ 31 := by
    have hmem := (mem_index_getCurrentBackups found c.index).mp
      (List.mem_map_of_mem hc)
    obtain ⟨d, hd, hdc⟩ := List.mem_map.mp hmem
    rw [← hcn, ← hdc]
    exact hlt d hd
  -- the newest index is positive: there are two distinct indexes
  have hpos : 0 < newestIndex (getCurrentBackups found) := by
    have hlen : 1 < (getCurrentBackups found).length := by
      rw [getCurrentBackups_length]; exact h1
    match hget : getCurrentBackups found, hsorted, hlen with
    | x :: y :: l, hs, _ =>
        have hy := le_newestIndex hs y (by simp)
        rw [List.map_cons, List.pairwise_cons] at hs
        have hxy : x.index < y.index := hs.1 y.index (by simp)
        omega
  have htr : newestTr (cleared found) = (newestIndex (getCurrentBackups found) : Int) := by
    have hlen : 1 < (cleared found).length := by simpa [cleared] using h1
    have hlast : (((cleared found).getLast?.map Bu.index).getD 0)
        = newestIndex (getCurrentBackups found) := by
      rw [newestIndex_eq, getCurrentBackups_map_index, List.getLast?_map]
    unfold newestTr toInt32
    rw [if_pos hlen, hlast, Nat.mod_eq_of_lt (by omega), if_pos hclt]
  rw [getCurrentBackups_eq, setTrindex_eq_map, htr] at hb
  obtain ⟨a, -, rfl⟩ := List.mem_map.mp hb
  simp only [setTrindexOne] at hble ⊢
  rw [if_neg (by omega)]
  unfold transpose
  rw [Int.emod_eq_of_lt (by omega) (by omega)]
  omega

/-- With at most one backup `tr` stays 0 and so does every transposed index. -/
theorem trindex_eq_zero (found : List Bu) (h1 : found.length ≤ 1)
    (b : Bu) (hb : b ∈ getCurrentBackups found) : b.trindex = 0 := by
  have htr : newestTr (cleared found) = 0 := by
    unfold newestTr
    rw [if_neg (by simpa [cleared] using h1)]
  rw [getCurrentBackups_eq, htr] at hb
  match found, h1, hb with
  | [], _, hb => simp [cleared, setDeletable, setTrindex] at hb
  | [a], _, hb =>
      simp [cleared, setDeletable, setTrindex] at hb
      rw [hb]

end Burp.Backups
