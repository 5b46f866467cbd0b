/-
  Burp.Phase1.Jumps — the includes that the scan goes to by themselves.

  From an excluded name the scan goes to the includes below it, in the order of the list.
  After each of them a loop skips the entries below it, and these are reached by the scan of
  the include itself.  The loop counts an entry only if it is below the one before it: what
  stands behind the end of such a chain is gone to again.

  Main results:
    * `exists_jump` — every include below the name is at or below one that is gone to.
    * `jump_twice`, `exists_jump_twice` — what is gone to although it is below an include that
      was gone to before: the includes behind the end of a chain.
    * `startLoop_spec` — the same for the directories to start from, which are never below
      one another.
-/
import Burp.Phase1.Lists

namespace Burp.Phase1

open FileSystem Burp.Store

/-! ## §1. The loop that skips. -/

/-- Each name is at or below the one before it. -/
def Nested (names : List Bytes) : Prop :=
  names.IsChain fun a b => 0 < isSubdir (some a) (some b)

/-- The length of the chain that begins with a name. -/
def chainLength : Bytes → List Bytes → Nat
  | _, [] => 0
  | base, y :: ys => if 0 < isSubdir (some base) (some y) then chainLength y ys + 1 else 0

theorem chainLength_cons (base y : Bytes) (ys : List Bytes) :
    chainLength base (y :: ys)
      = if 0 < isSubdir (some base) (some y) then chainLength y ys + 1 else 0 := rfl

theorem skips_of_none {base : Bytes} {bases ys : List Bytes}
    (h : ∀ y ∈ ys, ¬ 0 < isSubdir (some base) (some y)) : skips (base :: bases) ys = 0 := by
  induction ys with
  | nil => rfl
  | cons y ys ih =>
      rw [skips, if_neg (h y List.mem_cons_self)]
      exact ih fun z hz => h z (List.mem_cons_of_mem _ hz)

/-- In a sorted list the loop counts a chain. -/
theorem skips_eq {e : Bytes} {ys : List Bytes} (hs : (e :: ys).Pairwise Before) :
    skips (e :: ys) ys = chainLength e ys := by
  induction ys generalizing e with
  | nil => rfl
  | cons y ys ih =>
      rw [skips, chainLength_cons]
      have hys := (List.pairwise_cons.1 hs).2
      have hy := (List.pairwise_cons.1 hs).1 y List.mem_cons_self
      split
      next => rw [ih hys]
      next hnot =>
        -- what comes later is not below `e` either
        apply skips_of_none
        intro z hz hez
        have hyz := (List.pairwise_cons.1 hys).1 z hz
        exact hnot (subdir_between hy (fun hzy => before_irrefl y (hyz.trans hzy)) hez)

theorem nested_take_chainLength (base : Bytes) (ys : List Bytes) :
    Nested (base :: ys.take (chainLength base ys)) := by
  induction ys generalizing base with
  | nil => simp [Nested]
  | cons y ys ih =>
      rw [chainLength_cons]
      split
      next h =>
        rw [List.take_succ_cons, Nested, List.isChain_cons_cons]
        exact ⟨h, ih y⟩
      next => simp [Nested]

/-- A chain is not longer than that. -/
theorem length_le_chainLength {base : Bytes} {mid post : List Bytes}
    (h : Nested (base :: mid)) : mid.length ≤ chainLength base (mid ++ post) := by
  induction mid generalizing base with
  | nil => simp
  | cons y mid ih =>
      rw [Nested, List.isChain_cons_cons] at h
      rw [List.cons_append, chainLength_cons, if_pos h.1, List.length_cons]
      have := ih h.2
      omega

theorem chainLength_le (base : Bytes) (ys : List Bytes) : chainLength base ys ≤ ys.length := by
  induction ys generalizing base with
  | nil => exact Nat.le_refl 0
  | cons y ys ih =>
      rw [chainLength_cons]
      have := ih y
      split
      · rw [List.length_cons]
        omega
      · omega

theorem Nested.subdir {base : Bytes} {ys : List Bytes} (h : Nested (base :: ys)) :
    ∀ y ∈ ys, 0 < isSubdir (some base) (some y) := by
  induction ys generalizing base with
  | nil => simp
  | cons z ys ih =>
      rw [Nested, List.isChain_cons_cons] at h
      intro y hy
      obtain rfl | hy := List.mem_cons.1 hy
      · exact h.1
      · exact subdir_trans h.1 (ih h.2 y hy)

/-! ## §2. What is gone to. -/

theorem jumps_skip (link : Bytes) (skip : Nat) (list : List (Bytes × Bool)) :
    jumps link skip list = jumps link 0 (list.drop skip) := by
  induction list generalizing skip with
  | nil => cases skip <;> simp [jumps]
  | cons e list ih =>
      cases skip with
      | zero => rfl
      | succ skip => rw [jumps, List.drop_succ_cons, ih]

/-- The entries that are skipped after one. -/
def skipped (e : Bytes × Bool) (list : List (Bytes × Bool)) : Nat :=
  chainLength e.1 (list.map Prod.fst)

theorem jumps_cons {link : Bytes} {e : Bytes × Bool} {list : List (Bytes × Bool)}
    (hs : Sorted (e :: list)) :
    jumps link 0 (e :: list)
      = if e.2 ∧ 0 < isSubdir (some link) (some e.1) then
          e.1 :: jumps link 0 (list.drop (skipped e list))
        else jumps link 0 list := by
  have hs' : (e.1 :: list.map Prod.fst).Pairwise Before := by
    rw [← List.map_cons, List.pairwise_map]
    exact hs
  rw [jumps, skips_eq hs', jumps_skip]
  rfl

theorem Sorted.tail {e : Bytes × Bool} {list : List (Bytes × Bool)} (h : Sorted (e :: list)) :
    Sorted list := (List.pairwise_cons.1 h).2

theorem Sorted.drop {list : List (Bytes × Bool)} (h : Sorted list) (k : Nat) :
    Sorted (list.drop k) := List.Pairwise.sublist (List.drop_sublist _ _) h

theorem Sorted.before {e x : Bytes × Bool} {list : List (Bytes × Bool)}
    (h : Sorted (e :: list)) (hx : x ∈ list) : Before e.1 x.1 := (List.pairwise_cons.1 h).1 x hx

/-- What is gone to is an include below the name. -/
theorem mem_jumps {link x : Bytes} {list : List (Bytes × Bool)} (hs : Sorted list)
    (h : x ∈ jumps link 0 list) :
    (x, true) ∈ list ∧ 0 < isSubdir (some link) (some x) := by
  induction hn : list.length using Nat.strong_induction_on generalizing list with
  | _ n ih =>
      cases list with
      | nil => cases h
      | cons e list =>
          rw [jumps_cons hs] at h
          split at h
          next he =>
            obtain rfl | h := List.mem_cons.1 h
            · refine ⟨?_, he.2⟩
              have : (e.1, true) = e := Prod.ext rfl he.1.symm
              rw [this]
              exact List.mem_cons_self
            · have hlen : (list.drop (skipped e list)).length < n := by
                rw [List.length_drop, ← hn, List.length_cons]
                omega
              obtain ⟨hm, hb⟩ := ih _ hlen (hs.tail.drop _) h rfl
              exact ⟨List.mem_cons_of_mem _ (List.drop_subset _ _ hm), hb⟩
          next =>
            obtain ⟨hm, hb⟩ := ih _ (by rw [← hn]; simp) hs.tail h rfl
            exact ⟨List.mem_cons_of_mem _ hm, hb⟩

theorem jumps_sorted {link : Bytes} {list : List (Bytes × Bool)} (hs : Sorted list) :
    (jumps link 0 list).Pairwise Before := by
  induction hn : list.length using Nat.strong_induction_on generalizing list with
  | _ n ih =>
      cases list with
      | nil => exact List.Pairwise.nil
      | cons e list =>
          rw [jumps_cons hs]
          split
          · have hlen : (list.drop (skipped e list)).length < n := by
              rw [List.length_drop, ← hn, List.length_cons]
              omega
            rw [List.pairwise_cons]
            refine ⟨?_, ih _ hlen (hs.tail.drop _) rfl⟩
            intro x hx
            exact hs.before (List.drop_subset _ _ (mem_jumps (hs.tail.drop _) hx).1)
          · exact ih _ (by rw [← hn]; simp) hs.tail rfl

/-- The skipped entries are below the one before them. -/
theorem subdir_of_skipped {e x : Bytes × Bool} {list : List (Bytes × Bool)}
    (hx : x ∈ list.take (skipped e list)) : 0 < isSubdir (some e.1) (some x.1) := by
  have h := nested_take_chainLength e.1 (list.map Prod.fst)
  rw [← List.map_take] at h
  exact h.subdir x.1 (List.mem_map_of_mem hx)

/-- **Every include below the name is at or below one that is gone to.** -/
theorem exists_jump {link : Bytes} {list : List (Bytes × Bool)} (hs : Sorted list)
    {e : Bytes × Bool} (he : e ∈ list) (hf : e.2 = true)
    (hb : 0 < isSubdir (some link) (some e.1)) :
    ∃ f ∈ jumps link 0 list, 0 < isSubdir (some f) (some e.1) := by
  induction hn : list.length using Nat.strong_induction_on generalizing list with
  | _ n ih =>
      cases list with
      | nil => cases he
      | cons x list =>
          rw [jumps_cons hs]
          split
          next hx =>
            obtain rfl | he := List.mem_cons.1 he
            · refine ⟨e.1, List.mem_cons_self, ?_⟩
              rw [isSubdir_self]
              omega
            have hsplit : e ∈ list.take (skipped x list) ++ list.drop (skipped x list) := by
              rw [List.take_append_drop]
              exact he
            obtain he | he := List.mem_append.1 hsplit
            · exact ⟨x.1, List.mem_cons_self, subdir_of_skipped he⟩
            · have hlen : (list.drop (skipped x list)).length < n := by
                rw [List.length_drop, ← hn, List.length_cons]
                omega
              obtain ⟨f, hf', hfe⟩ := ih _ hlen (hs.tail.drop _) he rfl
              exact ⟨f, List.mem_cons_of_mem _ hf', hfe⟩
          next hx =>
            obtain rfl | he := List.mem_cons.1 he
            · exact absurd ⟨hf, hb⟩ hx
            · exact ih _ (by rw [← hn]; simp) hs.tail he rfl

/-- In a list of entries: two includes, the second below the first one, and not in one chain
with it. -/
def Unchained (list : List (Bytes × Bool)) (e r : Bytes) : Prop :=
  ∃ pre mid post, list = pre ++ (e, true) :: mid ++ (r, true) :: post
    ∧ 0 < isSubdir (some e) (some r) ∧ ¬ Nested (e :: mid.map Prod.fst ++ [r])

theorem Unchained.cons {list : List (Bytes × Bool)} {e r : Bytes} (x : Bytes × Bool)
    (h : Unchained list e r) : Unchained (x :: list) e r := by
  obtain ⟨pre, mid, post, rfl, hb, hn⟩ := h
  exact ⟨x :: pre, mid, post, by simp, hb, hn⟩

theorem Unchained.of_drop {list : List (Bytes × Bool)} {e r : Bytes} {k : Nat}
    (h : Unchained (list.drop k) e r) : Unchained list e r := by
  obtain ⟨pre, mid, post, hd, hb, hn⟩ := h
  refine ⟨list.take k ++ pre, mid, post, ?_, hb, hn⟩
  refine (List.take_append_drop k list).symm.trans ?_
  rw [hd]
  simp

/-- **What is gone to below something that was gone to before** is behind the end of a
chain. -/
theorem jump_twice {link : Bytes} {list : List (Bytes × Bool)} (hs : Sorted list) :
    (jumps link 0 list).Pairwise fun e r =>
      0 < isSubdir (some e) (some r) → Unchained list e r := by
  induction hn : list.length using Nat.strong_induction_on generalizing list with
  | _ n ih =>
      cases list with
      | nil => exact List.Pairwise.nil
      | cons e list =>
          rw [jumps_cons hs]
          split
          next he =>
            have hlen : (list.drop (skipped e list)).length < n := by
              rw [List.length_drop, ← hn, List.length_cons]
              omega
            rw [List.pairwise_cons]
            constructor
            · intro r hr hb
              obtain ⟨a, post, hd⟩ := List.append_of_mem (mem_jumps (hs.tail.drop _) hr).1
              have hlist : list = list.take (skipped e list) ++ a ++ (r, true) :: post := by
                rw [List.append_assoc, ← hd, List.take_append_drop]
              refine ⟨[], list.take (skipped e list) ++ a, post, ?_, hb, ?_⟩
              · have : (e.1, true) = e := Prod.ext rfl he.1.symm
                rw [this, List.nil_append, List.cons_append, ← hlist]
              · -- a chain up to `r` would have been skipped with `r` in it
                intro hchain
                have hle := @length_le_chainLength e.1
                  ((list.take (skipped e list) ++ a).map Prod.fst ++ [r])
                  (post.map Prod.fst) hchain
                have hmap : (list.take (skipped e list) ++ a).map Prod.fst ++ [r]
                    ++ post.map Prod.fst = list.map Prod.fst := by
                  have := congrArg (List.map Prod.fst) hlist
                  rw [this]
                  simp
                rw [hmap] at hle
                have hk : skipped e list ≤ list.length := by
                  have := chainLength_le e.1 (list.map Prod.fst)
                  rwa [List.length_map] at this
                have hlen' : ((list.take (skipped e list) ++ a).map Prod.fst ++ [r]).length
                    = skipped e list + a.length + 1 := by
                  simp [Nat.min_eq_left hk, Nat.add_assoc]
                rw [hlen'] at hle
                change _ ≤ skipped e list at hle
                omega
            · refine (ih _ hlen (hs.tail.drop _) rfl).imp ?_
              intro a b hab hb
              exact (hab hb).of_drop.cons e
          next =>
            refine (ih _ (by rw [← hn]; simp) hs.tail rfl).imp ?_
            intro a b hab hb
            exact (hab hb).cons e

/-- What is not left of the list is in a chain. -/
theorem mem_drop_or_nested {x : Bytes × Bool} {front : List (Bytes × Bool)} {r : Bytes}
    {post : List (Bytes × Bool)} :
    ((r, true) : Bytes × Bool) ∈ (front ++ (r, true) :: post).drop
        (skipped x (front ++ (r, true) :: post))
      ∨ Nested (x.1 :: front.map Prod.fst ++ [r]) := by
  by_cases hk : skipped x (front ++ (r, true) :: post) ≤ front.length
  · left
    rw [List.drop_append_of_le_length hk]
    simp
  · right
    have hchain := nested_take_chainLength x.1 ((front ++ (r, true) :: post).map Prod.fst)
    have htake : front.map Prod.fst ++ [r]
        <+: ((front ++ (r, true) :: post).map Prod.fst).take
          (chainLength x.1 ((front ++ (r, true) :: post).map Prod.fst)) := by
      rw [List.prefix_take_iff]
      refine ⟨⟨post.map Prod.fst, by simp⟩, ?_⟩
      change ¬ chainLength x.1 _ ≤ front.length at hk
      simp only [List.length_append, List.length_map, List.length_singleton]
      omega
    exact hchain.prefix ((List.cons_prefix_cons).2 ⟨rfl, htake⟩)

/-- What is left of the list behind something that it is below is found below it. -/
theorem exists_jump_again {link x r : Bytes} {list : List (Bytes × Bool)}
    (hs : Sorted ((x, true) :: list)) {k : Nat} (hlr : 0 < isSubdir (some link) (some r))
    (hxr : 0 < isSubdir (some x) (some r)) (hr : ((r, true) : Bytes × Bool) ∈ list.drop k) :
    ∃ f g, [f, g].Sublist (x :: jumps link 0 (list.drop k)) ∧ 0 < isSubdir (some f) (some g)
      ∧ 0 < isSubdir (some g) (some r) := by
  obtain ⟨g, hg, hgr⟩ := exists_jump (hs.tail.drop k) hr rfl hlr
  have hgl := List.drop_subset _ _ (mem_jumps (hs.tail.drop _) hg).1
  refine ⟨x, g, List.cons_sublist_cons.2 (List.singleton_sublist.2 hg), ?_, hgr⟩
  refine subdir_between (hs.before hgl) ?_ hxr
  intro hrg
  by_cases heq : r = g
  · exact hrg.ne heq
  · exact before_irrefl r (hrg.trans (before_of_subdir hgr heq))

/-- **The other way round:** behind the end of a chain something is gone to again. -/
theorem exists_jump_twice {link : Bytes} {list : List (Bytes × Bool)} (hs : Sorted list)
    {e r : Bytes} (h : Unchained list e r) (hlink : 0 < isSubdir (some link) (some e)) :
    ∃ f g, [f, g].Sublist (jumps link 0 list) ∧ 0 < isSubdir (some f) (some g)
      ∧ 0 < isSubdir (some g) (some r) := by
  induction hn : list.length using Nat.strong_induction_on generalizing list with
  | _ n ih =>
      obtain ⟨pre, mid, post, hlist, hb, hnot⟩ := h
      have hlr := subdir_trans hlink hb
      cases pre with
      | nil =>
          subst hlist
          rw [List.nil_append, List.cons_append] at hs ⊢
          rw [jumps_cons hs, if_pos ⟨rfl, hlink⟩]
          -- the chain ends before `r`
          exact exists_jump_again hs hlr hb (mem_drop_or_nested.resolve_right hnot)
      | cons x pre =>
          obtain ⟨x, included⟩ := x
          subst hlist
          rw [List.cons_append, List.cons_append] at hs hn ⊢
          rw [jumps_cons hs]
          by_cases hx : included ∧ 0 < isSubdir (some link) (some x)
          · rw [if_pos hx]
            obtain rfl : included = true := hx.1
            have hlen : ((pre ++ (e, true) :: mid ++ (r, true) :: post).drop
                (skipped (x, true) (pre ++ (e, true) :: mid ++ (r, true) :: post))).length
                < n := by
              rw [List.length_drop, ← hn, List.length_cons]
              omega
            by_cases hk : skipped (x, true) (pre ++ (e, true) :: mid ++ (r, true) :: post)
                ≤ pre.length
            · -- both are left
              obtain ⟨f, g, hsub, hfg, hgr⟩ := ih _ hlen (hs.tail.drop _)
                ⟨pre.drop (skipped (x, true) (pre ++ (e, true) :: mid ++ (r, true) :: post)),
                  mid, post, by
                    generalize skipped (x, true) _ = k at hk
                    rw [List.append_assoc, List.drop_append_of_le_length hk, List.append_assoc],
                  hb, hnot⟩ rfl
              exact ⟨f, g, hsub.cons _, hfg, hgr⟩
            · have htake : ((e, true) : Bytes × Bool) ∈
                  (pre ++ (e, true) :: mid ++ (r, true) :: post).take
                    (skipped (x, true) (pre ++ (e, true) :: mid ++ (r, true) :: post)) := by
                generalize skipped (x, true) _ = k at hk
                have hk' : k - pre.length = k - pre.length - 1 + 1 := by omega
                rw [List.append_assoc, List.take_append, hk']
                simp
              have hxe : 0 < isSubdir (some x) (some e) := subdir_of_skipped htake
              refine exists_jump_again hs hlr (subdir_trans hxe hb)
                (mem_drop_or_nested.resolve_right fun hchain => hnot ?_)
              -- the chain from `e` to `r` would be a part of the chain from `x`
              exact hchain.infix ⟨x :: pre.map Prod.fst, [], by simp⟩
          · rw [if_neg hx]
            exact ih _ (by rw [← hn]; simp) hs.tail ⟨pre, mid, post, rfl, hb, hnot⟩ rfl

/-! ## §3. The directories to start from. -/

/-- The starts in what is left of the list, after the last one. -/
def startsFrom : Option Bytes → List (Bytes × Bool) → List Bytes
  | _, [] => []
  | last, e :: rest =>
      if e.2 ∧ isSubdir last (some e.1) = 0 then e.1 :: startsFrom (some e.1) rest
      else startsFrom last rest

theorem startLoop_eq {list : List (Bytes × Bool)} {prev : Option Bytes} {acc starts : List Bytes}
    (h : startLoop prev acc list = some starts) :
    starts = acc ++ startsFrom acc.getLast? list ∧ ∀ e ∈ list, pathChecks e.1 = true := by
  induction list generalizing prev acc with
  | nil =>
      cases h
      simp [startsFrom]
  | cons e list ih =>
      rw [startLoop] at h
      have hnil : (acc = [] ∨ isSubdir acc.getLast? (some e.1) = 0)
          ↔ isSubdir acc.getLast? (some e.1) = 0 := by
        constructor
        · intro h
          obtain rfl | h := h
          · rfl
          · exact h
        · exact Or.inr
      have hrest : ∀ {P : Prop}, P ∧ (∀ x ∈ list, pathChecks x.1 = true) →
          pathChecks e.1 = true → P ∧ ∀ x ∈ e :: list, pathChecks x.1 = true := by
        intro P hP he
        refine ⟨hP.1, fun x hx => ?_⟩
        obtain rfl | hx := List.mem_cons.1 hx
        · exact he
        · exact hP.2 x hx
      split at h
      · cases h
      next hc =>
        have hc' : pathChecks e.1 = true := by simpa using hc
        rw [startsFrom]
        split at h
        next hf =>
          have hf' : ¬ (e.2 = true ∧ isSubdir acc.getLast? (some e.1) = 0) := by
            intro h'
            simp [h'.1] at hf
          rw [if_neg hf']
          exact hrest (ih h) hc'
        next hf =>
          have hf' : e.2 = true := by simpa using hf
          split at h
          · cases h
          split at h
          next hsub =>
            rw [if_pos ⟨hf', hnil.1 hsub⟩]
            refine hrest ?_ hc'
            have := ih h
            rw [List.getLast?_append_of_ne_nil acc (by simp), List.append_assoc] at this
            exact this
          next hsub =>
            rw [if_neg (fun h' => hsub (Or.inr h'.2))]
            exact hrest (ih h) hc'

theorem startsFrom_spec {list : List (Bytes × Bool)} {last : Option Bytes} (hs : Sorted list)
    (hlast : ∀ l, last = some l → ∀ e ∈ list, Before l e.1) :
    (∀ s ∈ startsFrom last list, (s, true) ∈ list ∧ isSubdir last (some s) = 0)
      ∧ (startsFrom last list).Pairwise
          (fun s s' => Before s s' ∧ isSubdir (some s) (some s') = 0)
      ∧ ∀ e ∈ list, e.2 = true → 0 < isSubdir last (some e.1)
          ∨ ∃ s ∈ startsFrom last list, 0 < isSubdir (some s) (some e.1) := by
  induction list generalizing last with
  | nil => exact ⟨by simp [startsFrom], by simp [startsFrom], by simp⟩
  | cons x list ih =>
      rw [startsFrom]
      split
      next hx =>
        obtain ⟨hmem, hpair, hcover⟩ := @ih (some x.1) hs.tail (by
          intro l hl e he
          cases hl
          exact hs.before he)
        refine ⟨?_, ?_, ?_⟩
        · intro s hsm
          obtain rfl | hsm := List.mem_cons.1 hsm
          · refine ⟨?_, hx.2⟩
            have : (x.1, true) = x := Prod.ext rfl hx.1.symm
            rw [this]
            exact List.mem_cons_self
          · obtain ⟨hin, -⟩ := hmem s hsm
            refine ⟨List.mem_cons_of_mem _ hin, ?_⟩
            -- otherwise the start before it would be below the last one as well
            by_contra hne
            cases last with
            | none => exact hne rfl
            | some l =>
                have hxs := hs.before hin
                have := subdir_between (hlast l rfl x List.mem_cons_self)
                  (fun hsx => before_irrefl s (hsx.trans hxs)) (Nat.pos_of_ne_zero hne)
                have := hx.2
                omega
        · rw [List.pairwise_cons]
          exact ⟨fun s hsm => ⟨hs.before (hmem s hsm).1, (hmem s hsm).2⟩, hpair⟩
        · intro e he hf
          right
          obtain rfl | he := List.mem_cons.1 he
          · refine ⟨e.1, List.mem_cons_self, ?_⟩
            rw [isSubdir_self]
            omega
          · obtain h | ⟨s, hsm, hse⟩ := hcover e he hf
            · exact ⟨x.1, List.mem_cons_self, h⟩
            · exact ⟨s, List.mem_cons_of_mem _ hsm, hse⟩
      next hx =>
        obtain ⟨hmem, hpair, hcover⟩ := ih hs.tail
          (fun l hl e he => hlast l hl e (List.mem_cons_of_mem _ he))
        refine ⟨?_, hpair, ?_⟩
        · intro s hsm
          exact ⟨List.mem_cons_of_mem _ (hmem s hsm).1, (hmem s hsm).2⟩
        · intro e he hf
          obtain rfl | he := List.mem_cons.1 he
          · left
            by_contra h0
            exact hx ⟨hf, by omega⟩
          · exact hcover e he hf

/-- A path that passes the checks is not empty. -/
theorem ne_nil_of_pathChecks {path : Bytes} (h : pathChecks path = true) : path ≠ [] := by
  rintro rfl
  simp [pathChecks] at h

/-- **The directories to start from:** includes, sorted, none below another one, and every
include is at or below one of them. -/
theorem finaliseConfig_spec {ielist list : List (Bytes × Bool)} {starts : List Bytes}
    (hd : (ielist.map Prod.fst).Nodup) (h : finaliseConfig ielist = some (list, starts)) :
    Sorted list ∧ (∀ e ∈ list, e.1 ≠ []) ∧ (∀ s ∈ starts, (s, true) ∈ list)
      ∧ starts.Pairwise (fun s s' => Before s s' ∧ isSubdir (some s) (some s') = 0)
      ∧ ∀ e ∈ list, e.2 = true → ∃ s ∈ starts, 0 < isSubdir (some s) (some e.1) := by
  rw [finaliseConfig, Option.map_eq_some_iff] at h
  obtain ⟨starts', hloop, heq⟩ := h
  cases heq
  have hs := sortList_sorted hd
  obtain ⟨hstarts, hchecks⟩ := startLoop_eq hloop
  rw [List.nil_append] at hstarts
  subst hstarts
  obtain ⟨hmem, hpair, hcover⟩ := @startsFrom_spec _ none hs (fun l hl => nomatch hl)
  refine ⟨hs, fun e he => ne_nil_of_pathChecks (hchecks e he), fun s hsm => (hmem s hsm).1,
    hpair, ?_⟩
  intro e he hf
  obtain h0 | h := hcover e he hf
  · exact absurd h0 (by simp [isSubdir])
  · exact h

end Burp.Phase1
