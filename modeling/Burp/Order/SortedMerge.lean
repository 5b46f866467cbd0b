/-
  Burp.Order.SortedMerge — merging two lists that are sorted by a key.

  The lists hold entries of any type, with keys in a linear order, and are strictly
  increasing in the key.  Where both lists have an entry of one key, the merged list has
  the right one.  What the merged list is, is stated by its members; the lemmas are the
  steps of a loop that looks at the first entry of each list.

  Main results:
    * `IsMerge.unique` — there is only one merged list.
    * `IsMerge.left`, `IsMerge.right`, `IsMerge.both` — the steps of the loop.
    * `Removable.of_passes` — several passes over one list record what can be left out of it.
-/
import Mathlib.Data.List.Perm.Basic
import Mathlib.Data.List.Sort
import Mathlib.Order.Basic

namespace SortedMerge

variable {α κ : Type} [LinearOrder κ] {key : α → κ}

/-! ## §1. Increasing lists. -/

/-- Strictly increasing in the key. -/
def Increasing (key : α → κ) (l : List α) : Prop := l.Pairwise fun a b => key a < key b

theorem increasing_cons {a : α} {l : List α} :
    Increasing key (a :: l) ↔ (∀ b ∈ l, key a < key b) ∧ Increasing key l :=
  List.pairwise_cons

theorem Increasing.tail {a : α} {l : List α} (h : Increasing key (a :: l)) : Increasing key l :=
  (increasing_cons.mp h).2

theorem Increasing.head {a : α} {l : List α} (h : Increasing key (a :: l)) :
    ∀ b ∈ l, key a < key b :=
  (increasing_cons.mp h).1

/-- A list below the head of an increasing list is below all of it. -/
theorem Increasing.below {a b : α} {l : List α} (h : Increasing key (b :: l))
    (hab : key a < key b) : ∀ c ∈ b :: l, key a < key c := by
  intro c hc
  rcases List.mem_cons.mp hc with rfl | hc
  · exact hab
  · exact hab.trans (h.head c hc)

theorem Increasing.filter {l : List α} (h : Increasing key l) (p : α → Bool) :
    Increasing key (l.filter p) :=
  List.Pairwise.filter p h

theorem Increasing.nodup {l : List α} (h : Increasing key l) : l.Nodup :=
  List.Pairwise.imp (fun hlt heq => by rw [heq] at hlt; exact lt_irrefl _ hlt) h

/-- An increasing list is determined by its members. -/
theorem Increasing.ext {l l' : List α} (h : Increasing key l) (h' : Increasing key l')
    (hmem : ∀ x, x ∈ l ↔ x ∈ l') : l = l' := by
  have hperm : l.Perm l' := (List.perm_ext_iff_of_nodup h.nodup h'.nodup).mpr hmem
  refine hperm.eq_of_pairwise ?_ h h'
  intro a b _ _ hab hba
  exact absurd (hab.trans hba) (lt_irrefl _)

/-! ## §2. Merged lists. -/

/-- `m` holds in order what is in either list; where both have an entry of one key, it has
the one of `ps`. -/
structure IsMerge (key : α → κ) (us ps m : List α) : Prop where
  increasing : Increasing key m
  mem_iff : ∀ x, x ∈ m ↔ x ∈ ps ∨ x ∈ us ∧ ∀ p ∈ ps, key p ≠ key x

namespace IsMerge

variable {u p : α} {us ps m : List α}

/-- **There is only one merged list.** -/
theorem unique {m' : List α} (h : IsMerge key us ps m) (h' : IsMerge key us ps m') : m = m' :=
  h.increasing.ext h'.increasing fun x => (h.mem_iff x).trans (h'.mem_iff x).symm

theorem nil_left (h : Increasing key ps) : IsMerge key [] ps ps :=
  ⟨h, fun x => by simp⟩

/-- The members of the merged list are not below what both lists are not below. -/
theorem below {k : κ} (h : IsMerge key us ps m) (hu : ∀ a ∈ us, k < key a)
    (hp : ∀ a ∈ ps, k < key a) : ∀ a ∈ m, k < key a := by
  intro a ha
  rcases (h.mem_iff a).mp ha with ha | ⟨ha, -⟩
  · exact hp a ha
  · exact hu a ha

/-- The left list is at a smaller key. -/
theorem left (hu : Increasing key (u :: us)) (hp : ∀ q ∈ ps, key u < key q)
    (h : IsMerge key us ps m) : IsMerge key (u :: us) ps (u :: m) where
  increasing := increasing_cons.mpr ⟨h.below hu.head hp, h.increasing⟩
  mem_iff := by
    intro x
    rw [List.mem_cons, h.mem_iff, List.mem_cons]
    constructor
    · rintro (rfl | hx | ⟨hx, hne⟩)
      · exact Or.inr ⟨Or.inl rfl, fun q hq => (hp q hq).ne'⟩
      · exact Or.inl hx
      · exact Or.inr ⟨Or.inr hx, hne⟩
    · rintro (hx | ⟨rfl | hx, hne⟩)
      · exact Or.inr (Or.inl hx)
      · exact Or.inl rfl
      · exact Or.inr (Or.inr ⟨hx, hne⟩)

/-- The right list is at a smaller key. -/
theorem right (hp : Increasing key (p :: ps)) (hu : ∀ a ∈ us, key p < key a)
    (h : IsMerge key us ps m) : IsMerge key us (p :: ps) (p :: m) where
  increasing := increasing_cons.mpr ⟨h.below hu hp.head, h.increasing⟩
  mem_iff := by
    intro x
    rw [List.mem_cons, h.mem_iff, List.mem_cons]
    constructor
    · rintro (rfl | hx | ⟨hx, hne⟩)
      · exact Or.inl (Or.inl rfl)
      · exact Or.inl (Or.inr hx)
      · exact Or.inr ⟨hx, List.forall_mem_cons.mpr ⟨(hu x hx).ne, hne⟩⟩
    · rintro ((rfl | hx) | ⟨hx, hne⟩)
      · exact Or.inl rfl
      · exact Or.inr (Or.inl hx)
      · exact Or.inr (Or.inr ⟨hx, fun q hq => hne q (List.mem_cons_of_mem _ hq)⟩)

/-- Both lists are at the same key. -/
theorem both (hu : Increasing key (u :: us)) (hp : Increasing key (p :: ps))
    (hup : key u = key p) (h : IsMerge key us ps m) :
    IsMerge key (u :: us) (p :: ps) (p :: m) := by
  have hus : ∀ a ∈ us, key p < key a := fun a ha => hup ▸ hu.head a ha
  have hright := right hp hus h
  refine ⟨hright.increasing, fun x => (hright.mem_iff x).trans ?_⟩
  constructor
  · rintro (hx | ⟨hx, hne⟩)
    · exact Or.inl hx
    · exact Or.inr ⟨List.mem_cons_of_mem _ hx, hne⟩
  · rintro (hx | ⟨hx, hne⟩)
    · exact Or.inl hx
    · rcases List.mem_cons.mp hx with rfl | hx
      · exact absurd hup.symm (hne p List.mem_cons_self)
      · exact Or.inr ⟨hx, hne⟩

end IsMerge

/-! ## §3. Up to the last entry of the right list. -/

/-- What is not after the last entry of `ps`. -/
def upTo (key : α → κ) (ps us : List α) : List α :=
  us.filter fun u => ps.any fun p => decide (key u ≤ key p)

theorem upTo_nil (us : List α) : upTo key [] us = [] := by
  simp [upTo]

theorem mem_upTo {ps us : List α} {x : α} :
    x ∈ upTo key ps us ↔ x ∈ us ∧ ∃ p ∈ ps, key x ≤ key p := by
  simp [upTo]

theorem upTo_cons {u : α} {ps us : List α} (h : ∃ p ∈ ps, key u ≤ key p) :
    upTo key ps (u :: us) = u :: upTo key ps us := by
  unfold upTo
  rw [List.filter_cons_of_pos]
  simpa using h

/-- What is after the first entry is not kept because of it. -/
theorem upTo_drop {p : α} {ps us : List α} (h : ∀ a ∈ us, key p < key a) :
    upTo key (p :: ps) us = upTo key ps us := by
  unfold upTo
  apply List.filter_congr
  intro a ha
  simp [not_le.mpr (h a ha)]

/-! ## §4. Leaving out. -/

/-- The entries of `us` whose key none of `ps` has. -/
def without (key : α → κ) (ps us : List α) : List α :=
  us.filter fun u => !ps.any fun p => decide (key p = key u)

/-- A loop that looks at the first entries only can leave `ps` out of `us`: each entry of `ps`
is one of `us` or below all of them, and comes behind the entries below it, unless it has
been there before. -/
structure Removable (key : α → κ) (us ps : List α) : Prop where
  known : ∀ p ∈ ps, (∃ u ∈ us, key p = key u) ∨ ∀ u ∈ us, key p < key u
  order : ∀ l d r, ps = l ++ d :: r →
    (∀ u ∈ us, key d < key u) ∨ (∃ a ∈ l, key a = key d) ∨ ∀ a ∈ l, key a < key d

theorem without_nil (us : List α) : without key [] us = us := by
  simp [without]

theorem without_eq_filter {ps us : List α} {q : α → Bool}
    (h : ∀ u ∈ us, q u = true ↔ ∀ p ∈ ps, key p ≠ key u) : without key ps us = us.filter q := by
  apply List.filter_congr
  intro u hu
  rw [Bool.eq_iff_iff, h u hu]
  simp

/-- An entry below all of a list takes nothing out of it. -/
theorem without_below {p : α} {ps us : List α} (h : ∀ u ∈ us, key p < key u) :
    without key (p :: ps) us = without key ps us := by
  apply List.filter_congr
  intro u hu
  simp [(h u hu).ne]

namespace Removable

variable {u p : α} {us ps : List α}

/-- The first entry of `us` is below the first one of `ps`: it stays. -/
theorem not_any (h : Removable key (u :: us) (p :: ps)) (hup : key u < key p) :
    ∀ q ∈ p :: ps, key q ≠ key u := by
  intro q hq heq
  -- the first one of this key would come behind `p`
  obtain ⟨a, l, r, hl, haq, hbefore⟩ : ∃ a l r, p :: ps = l ++ a :: r ∧ key a = key u
      ∧ ∀ b ∈ l, key b ≠ key u := by
    have hfind : ((p :: ps).find? fun b => decide (key b = key u)).isSome := by
      rw [List.find?_isSome]
      exact ⟨q, hq, by simpa using heq⟩
    obtain ⟨a, ha⟩ := Option.isSome_iff_exists.mp hfind
    obtain ⟨hkey, l, r, hl, hbefore⟩ := List.find?_eq_some_iff_append.mp ha
    exact ⟨a, l, r, hl, by simpa using hkey, fun b hb => by simpa using hbefore b hb⟩
  rcases h.order l a r hl with hbelow | ⟨b, hb, hba⟩ | habove
  · exact absurd haq (hbelow u List.mem_cons_self).ne
  · exact hbefore b hb (hba.trans haq)
  · cases l with
    | nil =>
        obtain ⟨rfl, -⟩ := List.cons.inj hl
        exact absurd haq hup.ne'
    | cons b l =>
        obtain ⟨rfl, -⟩ := List.cons.inj hl
        have hpa := habove p List.mem_cons_self
        rw [haq] at hpa
        exact absurd hup hpa.asymm

theorem left (hu : Increasing key (u :: us)) (h : Removable key (u :: us) ps) :
    Removable key us ps where
  known := by
    intro q hq
    rcases h.known q hq with ⟨a, ha, hqa⟩ | hbelow
    · rcases List.mem_cons.mp ha with rfl | ha
      · exact Or.inr fun b hb => hqa ▸ hu.head b hb
      · exact Or.inl ⟨a, ha, hqa⟩
    · exact Or.inr fun b hb => hbelow b (List.mem_cons_of_mem _ hb)
  order := by
    intro l d r hl
    rcases h.order l d r hl with hbelow | hrest
    · exact Or.inl fun b hb => hbelow b (List.mem_cons_of_mem _ hb)
    · exact Or.inr hrest

theorem right (hbelow : ∀ a ∈ us, key p < key a) (h : Removable key us (p :: ps)) :
    Removable key us ps where
  known := fun q hq => h.known q (List.mem_cons_of_mem _ hq)
  order := by
    intro l d r hl
    rcases h.order (p :: l) d r (by rw [hl]; rfl) with hd | ⟨a, ha, had⟩ | habove
    · exact Or.inl hd
    · rcases List.mem_cons.mp ha with rfl | ha
      · exact Or.inl fun b hb => had ▸ hbelow b hb
      · exact Or.inr (Or.inl ⟨a, ha, had⟩)
    · exact Or.inr (Or.inr fun a ha => habove a (List.mem_cons_of_mem _ ha))

/-- **Several passes over one list:** each one records entries, in order, up to where it
comes, and a later one records nothing there that an earlier one has not. -/
theorem of_passes {m : List α} (hm : Increasing key m) :
    ∀ {passes : List (Nat × List α)},
      (∀ q ∈ passes, q.2.Sublist m ∧ ∀ x ∈ q.2, x ∈ m.take q.1) →
      (passes.Pairwise fun q r => ∀ x ∈ r.2, x ∈ m.take q.1 → x ∈ q.2) →
      Removable key m (passes.flatMap Prod.snd) := by
  intro passes
  induction passes with
  | nil =>
      intro _ _
      exact ⟨by simp, by simp⟩
  | cons q passes ih =>
      intro hsub hagain
      have hrest := ih (fun r hr => hsub r (List.mem_cons_of_mem _ hr))
        (List.pairwise_cons.mp hagain).2
      obtain ⟨hqm, hqtake⟩ := hsub q List.mem_cons_self
      have hinm : ∀ x ∈ passes.flatMap Prod.snd, x ∈ m := by
        intro x hx
        obtain ⟨r, hr, hxr⟩ := List.mem_flatMap.mp hx
        exact (hsub r (List.mem_cons_of_mem _ hr)).1.subset hxr
      refine ⟨?_, ?_⟩
      · intro p hp
        rw [List.flatMap_cons, List.mem_append] at hp
        rcases hp with hp | hp
        · exact Or.inl ⟨p, hqm.subset hp, rfl⟩
        · exact hrest.known p hp
      · intro l d r hl
        rw [List.flatMap_cons] at hl
        have hcases : (∃ l', l = q.2 ++ l' ∧ passes.flatMap Prod.snd = l' ++ d :: r)
            ∨ ∃ l', q.2 = l ++ d :: l' := by
          rcases List.append_eq_append_iff.mp hl with hl' | ⟨l', hq, hr⟩
          · exact Or.inl hl'
          · cases l' with
            | nil => exact Or.inl ⟨[], by simpa using hq.symm, hr.symm⟩
            | cons x l' =>
                obtain ⟨rfl, -⟩ := List.cons.inj hr
                exact Or.inr ⟨l', hq⟩
        rcases hcases with ⟨l', rfl, hl'⟩ | ⟨l', hq⟩
        · -- recorded by a later pass
          have hd : d ∈ passes.flatMap Prod.snd := by
            rw [hl']
            simp
          rcases hrest.order l' d r hl' with hbelow | ⟨a, ha, had⟩ | habove
          · exact Or.inl hbelow
          · exact Or.inr (Or.inl ⟨a, List.mem_append_right _ ha, had⟩)
          · right
            by_cases htake : d ∈ m.take q.1
            · obtain ⟨s, hs, hds⟩ := List.mem_flatMap.mp hd
              have hdq := (List.pairwise_cons.mp hagain).1 s hs d hds htake
              exact Or.inl ⟨d, List.mem_append_left _ hdq, rfl⟩
            · right
              have hdrop : d ∈ m.drop q.1 := by
                have hdm := hinm d hd
                rw [← List.take_append_drop q.1 m, List.mem_append] at hdm
                exact hdm.resolve_left htake
              have hsplit := hm
              rw [Increasing, ← List.take_append_drop q.1 m, List.pairwise_append] at hsplit
              intro a ha
              rcases List.mem_append.mp ha with ha | ha
              · exact hsplit.2.2 a (hqtake a ha) d hdrop
              · exact habove a ha
        · -- recorded by this pass
          have hinc : Increasing key (l ++ d :: l') := List.Pairwise.sublist (hq ▸ hqm) hm
          exact Or.inr (Or.inr fun a ha =>
            (List.pairwise_append.mp hinc).2.2 a ha d List.mem_cons_self)

end Removable

end SortedMerge
