/-
  Burp.Phase1.Tree — file system trees, and that the scan comes to everything included.

  A path of the tree is the root or a name in a directory.  From a name above an included path
  the scan goes down to it: by the next name if that is included, and otherwise by an include
  that stands between.

  Main results:
    * `Tree.Path.next` — from a directory above a path there is a name that leads to it.
    * `exists_visits` — the scan of a name above an included path comes to the path.
-/
import Burp.Phase1.Jumps

namespace Burp.Phase1

open FileSystem Burp.Store

/-! ## §1. Trees. -/

/-- A file system on one device, without hard links, in which everything can be read. -/
structure Tree extends Files where
  pathMax : Nat
  device : Int
  length_le : ∀ {p s}, lstat p = some s → p.length ≤ pathMax
  one_device : ∀ {p s}, lstat p = some s → s.dev = device
  not_linked : ∀ {p s}, lstat p = some s → linkable s = false
  readable : ∀ {p s}, lstat p = some s → Stat.fmt s = 4 → ∃ names, opendir p = some names
  followed : ∀ {p s}, lstat p = some s → Stat.fmt s = 10 → ∃ link, readlink p = some link
  plain : ∀ {p names}, opendir p = some names → ∀ n ∈ names, Plain n
  nodup : ∀ {p names}, opendir p = some names → names.Nodup
  listed : ∀ {p s names}, lstat p = some s → Stat.fmt s = 4 → opendir p = some names →
    ∀ n ∈ names, ∃ s', lstat (canonical p ++ n) = some s'
  /-- A slash after the name of a directory makes no difference. -/
  slash : ∀ {p s}, lstat p = some s → Stat.fmt s = 4 → p.length < pathMax →
    lstat (p ++ [47]) = some s ∧ opendir (p ++ [47]) = opendir p

/-- There is a directory of this name, with these names in it. -/
def Tree.IsDir (t : Tree) (d : Bytes) (names : List Bytes) : Prop :=
  ∃ s, t.lstat d = some s ∧ Stat.fmt s = 4 ∧ t.opendir d = some names

/-- The paths of the tree. -/
inductive Tree.Path (t : Tree) : Bytes → Prop
  | root {s : Stat} : t.lstat [47] = some s → t.Path [47]
  | name {d n : Bytes} {names : List Bytes} :
      t.Path d → t.IsDir d names → n ∈ names → t.Path (canonical d ++ n)

theorem Tree.Path.exists_stat {t : Tree} {p : Bytes} (h : t.Path p) :
    ∃ s, t.lstat p = some s := by
  cases h with
  | root h => exact ⟨_, h⟩
  | name _ hdir hn =>
      obtain ⟨s, hs, hf, ho⟩ := hdir
      exact t.listed hs hf ho _ hn

/-- The path of a directory is the root, or has no slash at its end. -/
theorem Tree.Path.root_or_bare {t : Tree} {p : Bytes} (h : t.Path p) : p = [47] ∨ Bare p := by
  cases h with
  | root h => exact Or.inl rfl
  | name _ hdir hn =>
      obtain ⟨s, -, -, ho⟩ := hdir
      exact Or.inr ((t.plain ho _ hn).bare _)

theorem Tree.Path.canonical_eq {t : Tree} {p : Bytes} (h : t.Path p) :
    p = [47] ∧ canonical p = [47] ∨ canonical p = p ++ [47] := by
  obtain rfl | hb := h.root_or_bare
  · exact Or.inl ⟨rfl, rfl⟩
  · exact Or.inr hb.canonical_eq

/-- A beginning of a path that ends with a slash is a beginning of the directory. -/
theorem prefix_of_slash {a d n : Bytes} (hn : Plain n) (h : a ++ [47] <+: d ++ n) :
    a ++ [47] <+: d := by
  obtain h' | h' := List.prefix_or_prefix_of_prefix h (List.prefix_append d n)
  · exact h'
  · obtain ⟨w, hw⟩ := h'
    obtain rfl | ⟨w', rfl⟩ : w = [] ∨ ∃ w', w = w' ++ [47] := by
      cases w using List.reverseRecOn with
      | nil => exact Or.inl rfl
      | append_singleton w' c =>
          right
          rw [← List.append_assoc] at hw
          obtain ⟨-, hc⟩ := List.append_inj' hw rfl
          exact ⟨w', by rw [hc]⟩
    · rw [List.append_nil] at hw
      rw [hw]
    · rw [← hw, List.prefix_append_right_inj] at h
      exact absurd (h.subset (by simp)) hn.2

/-- **The way down.**  From a directory above a path there is a name that leads to it. -/
theorem Tree.Path.next {t : Tree} {p q : Bytes} (hp : t.Path p) (hq : q ≠ [])
    (hb : BelowBytes q p) :
    ∃ names, t.IsDir q names ∧ ∃ n ∈ names, Scope (canonical q ++ n) p := by
  induction hp with
  | root h =>
      exfalso
      obtain hb | ⟨hlast, hb, hne⟩ := hb
      · have := hb.length_le
        rw [List.length_append, List.length_singleton] at this
        exact hq (List.length_eq_zero_iff.1 (by omega))
      · obtain hb | ⟨z, rfl, hz⟩ := List.prefix_cons_iff.1 hb
        · exact hq hb
        · exact hne (by rw [List.prefix_nil.1 hz])
  | @name d n names hd hdir hn ih =>
      obtain ⟨s, hs, hf, ho⟩ := hdir
      have hplain := t.plain ho n hn
      -- below a part of the directory
      have hdown : BelowBytes q d → ∃ names, t.IsDir q names
          ∧ ∃ m ∈ names, Scope (canonical q ++ m) (canonical d ++ n) := by
        intro hqd
        obtain ⟨names', hdir', m, hm, hscope⟩ := ih hqd
        obtain ⟨s', hs', hf', ho'⟩ := hdir'
        refine ⟨names', ⟨s', hs', hf', ho'⟩, m, hm, ?_⟩
        refine hscope.inside ((t.plain ho' m hm).bare _) (Or.inr ?_)
        obtain ⟨c, z, rfl, hc⟩ := hplain.cons
        exact ⟨c, z, hc, rfl⟩
      -- the directory itself
      have hhere : ∀ s', t.lstat q = some s' → Stat.fmt s' = 4 → t.opendir q = some names →
          canonical q = canonical d → ∃ names, t.IsDir q names
            ∧ ∃ m ∈ names, Scope (canonical q ++ m) (canonical d ++ n) := by
        intro s' hs' hf' ho' hc
        exact ⟨names, ⟨s', hs', hf', ho'⟩, n, hn, Or.inl (by rw [hc])⟩
      obtain ⟨hroot, hcd⟩ | hcd := hd.canonical_eq
      · -- names in the root
        have hqroot : q = [47] := by
          obtain hb | ⟨hlast, hb, hne⟩ := hb
          · have := prefix_of_slash hplain hb
            rw [hcd] at this
            have := this.length_le
            rw [List.length_append, List.length_singleton] at this
            exact absurd (List.length_eq_zero_iff.1 (by omega)) hq
          · obtain ⟨q', rfl⟩ : ∃ q', q = q' ++ [47] := by
              exact ⟨q.dropLast, (List.dropLast_append_getLast? 47 hlast).symm⟩
            have := prefix_of_slash hplain hb
            rw [hcd] at this
            have := this.length_le
            rw [List.length_append, List.length_singleton] at this
            rw [List.length_eq_zero_iff.1 (by omega : q'.length = 0)]
            rfl
        subst hroot hqroot
        exact hhere s hs hf ho rfl
      · obtain hb | ⟨hlast, hb, hne⟩ := hb
        · have hb' := prefix_of_slash hplain hb
          rw [hcd] at hb'
          obtain heq | hb' := List.prefix_concat_iff.1 hb'
          · -- it is `d`
            have hqd : q = d := (List.append_inj' heq rfl).1
            subst hqd
            exact hhere s hs hf ho rfl
          · exact hdown (Or.inl hb')
        · obtain ⟨q', rfl⟩ : ∃ q', q = q' ++ [47] := by
            exact ⟨q.dropLast, (List.dropLast_append_getLast? 47 hlast).symm⟩
          have hb' := prefix_of_slash hplain hb
          rw [hcd] at hb'
          obtain heq | hb' := List.prefix_concat_iff.1 hb'
          · -- it is `d` with a slash
            have hqd : q' = d := (List.append_inj' heq rfl).1
            subst hqd
            obtain ⟨s', hs'⟩ := t.listed hs hf ho n hn
            have hlen := t.length_le hs'
            rw [hcd, List.length_append, List.length_append, List.length_singleton] at hlen
            obtain ⟨hl, hop⟩ := t.slash hs hf (by omega)
            refine hhere s hl hf (hop.trans ho) ?_
            rw [Phase1.canonical_eq, Phase1.canonical_eq, strip_append]
            rfl
          · by_cases heq : q' ++ [47] = d
            · -- only the root ends with a slash
              obtain hr | hbare := hd.root_or_bare
              · have hc : canonical d = [47] := by rw [hr]; rfl
                rw [hcd, hr] at hc
                cases hc
              · rw [← heq] at hbare
                exact absurd (by simp) hbare
            · exact hdown (Or.inr ⟨hlast, hb', Ne.symm heq⟩)

/-! ## §2. Trees by tables. -/

/-- The files of a table: each path without the slashes at its end, what the file is, and the
names in it. -/
def tableFiles (table : List (Bytes × Stat × List Bytes)) (pathMax : Nat) : Files where
  lstat p :=
    if p ≠ [] ∧ p.length ≤ pathMax then
      (table.lookup (strip p)).bind fun e =>
        if Stat.fmt e.1 = 4 ∨ strip p = p then some e.1 else none
    else none
  readlink _ := none
  opendir p :=
    if p ≠ [] ∧ p.length ≤ pathMax then
      (table.lookup (strip p)).bind fun e => if Stat.fmt e.1 = 4 then some e.2 else none
    else none
  fstype _ := some 61267
  hasExtrameta _ _ := false

/-- A line of a table: a file that can be read and that has one name, and the names in it are
in the table. -/
def goodLine (table : List (Bytes × Stat × List Bytes)) (pathMax : Nat)
    (e : Bytes × Stat × List Bytes) : Bool :=
  e.2.1.dev == 0 && !linkable e.2.1 && Stat.fmt e.2.1 != 10 && decide e.2.2.Nodup
    && e.2.2.all fun n =>
      !n.isEmpty && !n.contains 47 && (table.lookup (e.1 ++ 47 :: n)).isSome
        && decide ((e.1 ++ 47 :: n).length ≤ pathMax)

section table

variable {table : List (Bytes × Stat × List Bytes)} {pathMax : Nat}

theorem lstat_table (h : table.all (goodLine table pathMax) = true) {p : Bytes} {s : Stat}
    (hs : (tableFiles table pathMax).lstat p = some s) :
    p ≠ [] ∧ p.length ≤ pathMax ∧ ∃ names, table.lookup (strip p) = some (s, names)
      ∧ goodLine table pathMax (strip p, s, names) = true := by
  simp only [tableFiles] at hs
  split at hs
  next hp =>
    obtain ⟨e, he, hes⟩ := Option.bind_eq_some_iff.1 hs
    split at hes
    · cases hes
      obtain ⟨l, l', hl, -⟩ := List.lookup_eq_some_iff.1 he
      exact ⟨hp.1, hp.2, e.2, he, List.all_eq_true.1 h _ (by rw [hl]; simp)⟩
    · cases hes
  next => cases hs

theorem opendir_table (h : table.all (goodLine table pathMax) = true) {p : Bytes}
    {names : List Bytes} (hs : (tableFiles table pathMax).opendir p = some names) :
    ∃ s, goodLine table pathMax (strip p, s, names) = true := by
  simp only [tableFiles] at hs
  split at hs
  next hp =>
    obtain ⟨e, he, hes⟩ := Option.bind_eq_some_iff.1 hs
    split at hes
    · cases hes
      obtain ⟨l, l', hl, -⟩ := List.lookup_eq_some_iff.1 he
      exact ⟨e.1, List.all_eq_true.1 h _ (by rw [hl]; simp)⟩
    · cases hes
  next => cases hs

theorem name_of_goodLine {k : Bytes} {s : Stat} {names : List Bytes}
    (hg : goodLine table pathMax (k, s, names) = true) {n : Bytes} (hn : n ∈ names) :
    Plain n ∧ (∃ e, table.lookup (k ++ 47 :: n) = some e)
      ∧ (k ++ 47 :: n).length ≤ pathMax := by
  simp only [goodLine, Bool.and_eq_true, List.all_eq_true] at hg
  obtain ⟨⟨⟨h1, h2⟩, h3⟩, h4⟩ := hg.2 n hn
  exact ⟨⟨by simpa using h1, by simpa using h2⟩, Option.isSome_iff_exists.1 h3,
    by simpa using h4⟩

end table

/-- A table of good lines is a tree. -/
def Tree.ofTable (table : List (Bytes × Stat × List Bytes)) (pathMax : Nat)
    (h : table.all (goodLine table pathMax) = true) : Tree :=
  { tableFiles table pathMax with
    pathMax := pathMax
    device := 0
    length_le := fun hs => (lstat_table h hs).2.1
    one_device := by
      intro p s hs
      obtain ⟨-, -, names, -, hg⟩ := lstat_table h hs
      simp only [goodLine, Bool.and_eq_true, beq_iff_eq] at hg
      exact hg.1.1.1.1
    not_linked := by
      intro p s hs
      obtain ⟨-, -, names, -, hg⟩ := lstat_table h hs
      simp only [goodLine, Bool.and_eq_true] at hg
      simpa using hg.1.1.1.2
    readable := by
      intro p s hs hf
      obtain ⟨h1, h2, names, hl, -⟩ := lstat_table h hs
      exact ⟨names, by simp [tableFiles, h1, h2, hl, hf]⟩
    followed := by
      intro p s hs hf
      obtain ⟨-, -, names, -, hg⟩ := lstat_table h hs
      simp [goodLine, hf] at hg
    plain := by
      intro p names ho n hn
      obtain ⟨s, hg⟩ := opendir_table h ho
      exact (name_of_goodLine hg hn).1
    nodup := by
      intro p names ho
      obtain ⟨s, hg⟩ := opendir_table h ho
      simp only [goodLine, Bool.and_eq_true] at hg
      simpa using hg.1.2
    listed := by
      intro p s names hs hf ho n hn
      obtain ⟨h1, h2, names', hl, hg⟩ := lstat_table h hs
      have hnames : names' = names := by
        simpa [tableFiles, h1, h2, hl, hf] using ho
      subst hnames
      obtain ⟨hplain, ⟨e, he⟩, hlen⟩ := name_of_goodLine hg hn
      have hc : canonical p ++ n = strip p ++ 47 :: n := by
        rw [Phase1.canonical_eq, List.append_assoc, List.singleton_append]
      have hstrip : strip (canonical p ++ n) = canonical p ++ n := (hplain.bare _).strip_eq
      refine ⟨e.1, ?_⟩
      simp only [tableFiles, hstrip, or_true, if_true]
      rw [hc, if_pos ⟨by simp, hlen⟩, he]
      rfl
    slash := by
      intro p s hs hf hlt
      obtain ⟨h1, h2, names, hl, -⟩ := lstat_table h hs
      have hstrip : strip (p ++ [47]) = strip p := by
        rw [strip_append]
        rfl
      have hlen : (p ++ [47]).length ≤ pathMax := by
        rw [List.length_append, List.length_singleton]
        omega
      constructor
      · simp only [tableFiles, hstrip, hl, Option.bind_some, hf, true_or, if_true]
        rw [if_pos ⟨by simp, hlen⟩]
      · simp only [tableFiles, hstrip, hl, Option.bind_some, hf, if_true]
        rw [if_pos ⟨by simp, hlen⟩, if_pos ⟨h1, h2⟩] }

/-! ## §3. The scan of a tree. -/

section scan

variable {t : Tree} {conf : Conf}

/-- A directory is gone into. -/
theorem visits_dir (hu : conf.Unfiltered) {q : Bytes} {names : List Bytes} {dev : Int}
    {top : Bool} (hd : t.IsDir q names) (hdev : top = true ∨ dev = t.device) (fuel : Nat) :
    visits t.toFiles conf (fuel + 1) q dev top
      = (q, top) :: (calls conf (canonical q) (sortNames names)).flatMap
          fun link => visits t.toFiles conf fuel link t.device false := by
  obtain ⟨s, hs, hf, ho⟩ := hd
  have hnb : nobackupDirectory t.toFiles conf q = false := by
    simp [nobackupDirectory, hu.nobackup]
  have hdesc : descends t.toFiles conf q s dev top = some (sortNames names) := by
    have hcond : (!top && decide (dev ≠ s.dev)
        && (fstypeExcluded t.toFiles conf q || !fsChangeIsAllowed conf q)) = false := by
      obtain rfl | rfl := hdev
      · rfl
      · simp [t.one_device hs]
    rw [descends, if_neg (by rw [hcond]; decide), ho]
    rfl
  rw [visits, hs]
  simp only [hf, hnb, hdesc, and_self, if_true, t.one_device hs]

theorem visits_other {q : Bytes} {s : Stat} (hs : t.lstat q = some s) (hf : Stat.fmt s ≠ 4)
    (fuel : Nat) (dev : Int) (top : Bool) :
    visits t.toFiles conf (fuel + 1) q dev top = [(q, top)] := by
  rw [visits, hs]
  simp [hf]

theorem mem_calls {dir x : Bytes} {names : List Bytes} :
    x ∈ calls conf dir names
      ↔ ∃ n ∈ names, fileIsIncludedNoIncext conf (dir ++ n) = true ∧ x = dir ++ n
        ∨ ¬ fileIsIncludedNoIncext conf (dir ++ n) = true
          ∧ x ∈ jumps (dir ++ n) 0 conf.incexcdir := by
  rw [calls, List.mem_flatMap]
  constructor
  · intro ⟨n, hn, hx⟩
    refine ⟨n, hn, ?_⟩
    split at hx
    next h => exact Or.inl ⟨h, List.mem_singleton.1 hx⟩
    next h => exact Or.inr ⟨h, hx⟩
  · intro ⟨n, hn, hx⟩
    refine ⟨n, hn, ?_⟩
    obtain ⟨h, rfl⟩ | ⟨h, hx⟩ := hx
    · rw [if_pos h]
      exact List.mem_singleton_self _
    · rw [if_neg h]
      exact hx

/-- The scan of a name that is gone to is a part of the scan of the directory. -/
theorem visits_sublist (hu : conf.Unfiltered) {q x : Bytes} {names : List Bytes} {dev : Int}
    {top : Bool} (hd : t.IsDir q names) (hdev : top = true ∨ dev = t.device) (fuel : Nat)
    (hx : x ∈ calls conf (canonical q) (sortNames names)) :
    (visits t.toFiles conf fuel x t.device false).Sublist
      (visits t.toFiles conf (fuel + 1) q dev top) := by
  rw [visits_dir hu hd hdev]
  refine List.Sublist.cons _ ?_
  rw [List.flatMap]
  exact List.sublist_flatten_of_mem (List.mem_map_of_mem hx)

theorem prefix_of_isSubdir {a b : Bytes} (h : 0 < isSubdir (some a) (some b)) : a <+: b := by
  obtain rfl | h | ⟨-, h, -⟩ := (isSubdir_pos_iff a b).1 h
  · exact List.prefix_refl _
  · exact (List.prefix_append _ _).trans h
  · exact h

/-- Every name that is gone to is longer, but for the slashes at its end. -/
theorem strip_length_lt {q n x : Bytes} (hn : Plain n) (hx : Scope (canonical q ++ n) x) :
    (strip q).length < (strip x).length := by
  have hlink := (hn.bare (canonical q))
  have hle : (canonical q ++ n).length ≤ (strip x).length := by
    obtain rfl | hx := hx
    · rw [hlink.strip_eq]
    · rw [hlink.canonical_eq] at hx
      have := (prefix_canonical hlink hx).length_le
      rw [Phase1.canonical_eq x, List.length_append, List.length_append] at this
      simpa using this
  rw [Phase1.canonical_eq q, List.length_append, List.length_append,
    List.length_singleton] at hle
  omega

/-- **The scan comes to everything included:** the scan of a name at or above an included path
of the tree has the scan of the path in it. -/
theorem exists_visits (hu : conf.Unfiltered) (hs : Sorted conf.incexcdir)
    (hne : ∀ e ∈ conf.incexcdir, e.1 ≠ []) {p : Bytes} (hp : t.Path p)
    (hi : Included conf.incexcdir p) (fuel : Nat) {q : Bytes} {dev : Int} {top : Bool}
    (hqp : 0 < isSubdir (some q) (some p)) (hq : q ≠ []) (hdev : top = true ∨ dev = t.device)
    (hfuel : t.pathMax < fuel + (strip q).length) :
    ∃ fuel' dev' top', (top' = true ∨ dev' = t.device)
      ∧ t.pathMax < fuel' + (strip p).length
      ∧ (visits t.toFiles conf fuel' p dev' top').Sublist
          (visits t.toFiles conf fuel q dev top) := by
  induction fuel generalizing q dev top with
  | zero =>
      exfalso
      obtain ⟨s, hstat⟩ := hp.exists_stat
      have h1 := t.length_le hstat
      have h2 := (prefix_of_isSubdir hqp).length_le
      have h3 := (strip_isPrefix q).length_le
      omega
  | succ fuel ih =>
      obtain rfl | hb := (isSubdir_pos_iff q p).1 hqp
      · exact ⟨fuel + 1, dev, top, hdev, hfuel, List.Sublist.refl _⟩
      obtain ⟨names, hdir, n, hn, hscope⟩ := hp.next hq hb
      obtain ⟨-, -, -, ho⟩ := id hdir
      have hplain := t.plain ho n hn
      have hbare := hplain.bare (canonical q)
      have hlp := isSubdir_of_scope hbare hscope
      -- something that leads to `p` is gone to
      have hcall : ∃ x ∈ calls conf (canonical q) (sortNames names),
          Scope (canonical q ++ n) x ∧ 0 < isSubdir (some x) (some p) ∧ x ≠ [] := by
        by_cases hil : Included conf.incexcdir (canonical q ++ n)
        · refine ⟨canonical q ++ n, mem_calls.2 ⟨n, mem_sortNames.2 hn, Or.inl ⟨?_, rfl⟩⟩,
            Or.inl rfl, hlp, ?_⟩
          · exact (included_iff hu _).2 hil
          · intro h
            exact hplain.1 (List.append_eq_nil_iff.1 h).2
        · obtain ⟨e, he, hf, hle, hep⟩ := exists_include_between hbare hil hi hlp
          obtain ⟨f, hfj, hfe⟩ := exists_jump hs he hf hle
          obtain ⟨hfm, hlf⟩ := mem_jumps hs hfj
          refine ⟨f, mem_calls.2 ⟨n, mem_sortNames.2 hn, Or.inr ⟨?_, hfj⟩⟩,
            scope_of_isSubdir hlf, subdir_trans hfe hep, hne _ hfm⟩
          rw [included_iff hu]
          exact hil
      obtain ⟨x, hx, hlx, hxp, hxne⟩ := hcall
      have hlen := strip_length_lt hplain hlx
      obtain ⟨fuel', dev', top', hd', hf', hsub⟩ :=
        @ih x t.device false hxp hxne (Or.inr rfl) (by omega)
      exact ⟨fuel', dev', top', hd', hf', hsub.trans (visits_sublist hu hdir hdev fuel hx)⟩

/-- With enough fuel the scan of a path begins with the path. -/
theorem mem_visits {p : Bytes} {s : Stat} (hs : t.lstat p = some s) {fuel : Nat} {dev : Int}
    {top : Bool} (hfuel : t.pathMax < fuel + (strip p).length) :
    (p, top) ∈ visits t.toFiles conf fuel p dev top := by
  cases fuel with
  | zero =>
      have h1 := t.length_le hs
      have h2 := (strip_isPrefix p).length_le
      omega
  | succ fuel =>
      rw [visits, hs]
      exact List.mem_cons_self

end scan

end Burp.Phase1
