/-
  Burp.FileSystem.Below — the tree below a directory.

  Directories may have several paths, through symbolic links or "..".  Below one directory,
  going from name to name, each directory has one path, as long as directories are only made
  empty and only what is not a directory gets another name.

  Main results:
    * `Rooted.place_climb` — the one path of a directory.
    * `Named.rooted` and `Named.climb` — one more name makes one more path.
    * `lstat_below`, `place_below` — what calls find below the directory.
-/
import Mathlib.Data.List.Induction
import Burp.FileSystem.Inodes

namespace Inodes

/-! ## §1. Names below a directory. -/

/-- A name that is neither the directory's own nor that of the one above. -/
def plain (c : Name) : Prop := c ≠ [] ∧ c ≠ [46] ∧ c ≠ [46, 46]

instance (c : Name) : Decidable (plain c) :=
  inferInstanceAs (Decidable (c ≠ [] ∧ c ≠ [46] ∧ c ≠ [46, 46]))

namespace Fs

/-- From name to name. -/
def climb (fs : Fs) (d : Ino) (q : Path) : Option Ino := q.foldlM fs.lookup d

/-- What a path leads to when more follows. -/
def origin (fs : Fs) (base : Path) : Option Ino :=
  fs.walk (if base.head? = some [] then fs.root else fs.cwd) base

end Fs

/-- Names are only added, and what is a directory is one before and after. -/
structure Grows (fs t : Fs) : Prop where
  leads : Leads (fun _ => True) fs t
  dirs : ∀ {i : Ino}, fs.kind i ≠ none → ((t.names i).isSome ↔ (fs.names i).isSome)

/-- The directories below `top`, and the one path of each. -/
structure Rooted (fs : Fs) (top : Ino) (place : Ino → Option Path) : Prop where
  top : place top = some []
  dir : ∀ {d : Ino} {q : Path}, place d = some q → (fs.names d).isSome
  child : ∀ {d : Ino} {q : Path} {c : Name} {i : Ino}, place d = some q → plain c →
    fs.lookup d c = some i →
    fs.kind i ≠ none ∧ ((fs.names i).isSome → place i = some (q ++ [c]))

/-- One more name: `c` in `d`, for `i`, in which there is nothing. -/
structure Named (fs t : Fs) (d : Ino) (c : Name) (i : Ino) : Prop where
  grows : Grows fs t
  there : t.kind i ≠ none
  self : t.lookup d c = some i
  new : ∀ {e : Ino} {x : Name} {j : Ino}, fs.kind e ≠ none → t.lookup e x = some j →
    fs.lookup e x = some j ∨ e = d ∧ x = c ∧ j = i
  bare : ∀ {x : Name}, plain x → t.lookup i x = none
  fresh : (t.names i).isSome → fs.kind i = none

/-! ## §2. Climbing. -/

section Climb

variable {fs t u : Fs} {top d i j : Ino} {c : Name} {p q a base : Path} {place : Ino → Option Path}

theorem climb_concat : fs.climb d (q ++ [c]) = (fs.climb d q).bind fun e => fs.lookup e c := by
  unfold Fs.climb
  rw [List.foldlM_append]
  show (q.foldlM fs.lookup d).bind _ = _
  refine congrArg _ (funext fun e => ?_)
  show (fs.lookup e c).bind _ = _
  cases fs.lookup e c <;> rfl

theorem climb_cons : fs.climb d (c :: q) = (fs.lookup d c).bind fun e => fs.climb e q := rfl

theorem walk_append (d : Ino) (p q : Path) :
    fs.walk d (p ++ q) = (fs.walk d p).bind fun e => fs.walk e q := by
  unfold Fs.walk
  rw [List.foldlM_append]
  rfl

theorem kind_of_names (h : (fs.names d).isSome) : fs.kind d ≠ none := by
  obtain ⟨names, hnames⟩ := Option.isSome_iff_exists.mp h
  simp [names_eq_some.mp hnames]

theorem isSome_of_lookup (h : fs.lookup d c = some i) : (fs.names d).isSome := by
  obtain ⟨names, hnames⟩ := names_of_lookup h
  simp [hnames]

/-- **The path of a directory** is the way that it is reached. -/
theorem Rooted.place_climb (h : Rooted fs top place) : ∀ {q : Path} {d : Ino},
    (∀ c ∈ q, plain c) → fs.climb top q = some d → (fs.names d).isSome → place d = some q := by
  intro q
  induction q using List.reverseRecOn with
  | nil =>
      rintro d - hd -
      cases hd
      exact h.top
  | append_singleton q c ih =>
      intro d hq hd hdir
      rw [climb_concat] at hd
      obtain ⟨e, he, hd⟩ := Option.bind_eq_some_iff.mp hd
      have hplace := ih (fun x hx => hq x (by simp [hx])) he (isSome_of_lookup hd)
      exact (h.child hplace (hq c (by simp)) hd).2 hdir

/-- What is reached is there. -/
theorem Rooted.kind_climb (h : Rooted fs top place) (hq : ∀ c ∈ q, plain c)
    (hi : fs.climb top q = some i) : fs.kind i ≠ none := by
  rcases List.eq_nil_or_concat q with rfl | ⟨r, c, rfl⟩
  · cases hi
    exact kind_of_names (h.dir h.top)
  · rw [List.concat_eq_append] at hi hq
    rw [climb_concat] at hi
    obtain ⟨e, he, hi⟩ := Option.bind_eq_some_iff.mp hi
    have hplace := h.place_climb (fun x hx => hq x (by simp [hx])) he (isSome_of_lookup hi)
    exact (h.child hplace (hq c (by simp)) hi).1

theorem Grows.climb (h : Grows fs t) : ∀ {q : Path} {d i : Ino}, fs.climb d q = some i →
    t.climb d q = some i
  | [], _, _, hi => hi
  | c :: q, d, i, hi => by
      rw [climb_cons] at hi ⊢
      obtain ⟨e, he, hi⟩ := Option.bind_eq_some_iff.mp hi
      rw [(h.leads.lookup he trivial).2]
      exact h.climb hi

theorem Grows.kind (h : Grows fs t) (hi : fs.kind i ≠ none) : t.kind i ≠ none := by
  by_cases hlink : ∃ target, fs.kind i = some (.symlink target)
  · obtain ⟨target, hkind⟩ := hlink
    rw [(h.leads.links hkind).2]
    simp
  · exact (h.leads.others trivial hi (not_exists.mp hlink)).1

theorem Grows.origin (h : Grows fs t) (hd : fs.origin base = some d) : t.origin base = some d := by
  unfold Fs.origin at hd ⊢
  rw [h.leads.root, h.leads.cwd]
  exact h.leads.walk hd trivial

theorem Grows.refl (fs : Fs) : Grows fs fs :=
  ⟨⟨rfl, rfl, fun h _ => ⟨trivial, h⟩, fun h => ⟨trivial, h⟩, fun _ h h' => ⟨h, h'⟩⟩,
    fun _ => Iff.rfl⟩

theorem Grows.trans (h : Grows fs t) (h' : Grows t u) : Grows fs u where
  leads :=
    { root := h'.leads.root.trans h.leads.root
      cwd := h'.leads.cwd.trans h.leads.cwd
      lookup := fun hi _ => h'.leads.lookup (h.leads.lookup hi trivial).2 trivial
      links := fun hi => h'.leads.links (h.leads.links hi).2
      others := fun _ hnone hlink =>
        have hthen := h.leads.others trivial hnone hlink
        h'.leads.others trivial hthen.1 hthen.2 }
  dirs hi := (h'.dirs (h.kind hi)).trans (h.dirs hi)

theorem Alike.grows (h : Alike fs t) : Grows fs t where
  leads :=
    { root := h.root
      cwd := h.cwd
      lookup := fun hi _ => ⟨trivial, by rwa [h.lookup]⟩
      links := fun hi => ⟨trivial, (h.links _ _).mpr hi⟩
      others := fun _ hnone hlink => ⟨fun heq => hnone ((h.there _).mp heq),
        fun target heq => hlink target ((h.links _ _).mp heq)⟩ }
  dirs {i} _ := by rw [h.names i]

theorem Alike.climb (h : Alike fs t) : ∀ (q : Path) (d : Ino), t.climb d q = fs.climb d q
  | [], _ => rfl
  | c :: q, d => by
      rw [climb_cons, climb_cons, h.lookup]
      cases fs.lookup d c with
      | none => rfl
      | some e => exact h.climb q e

theorem Alike.rooted (h : Alike fs t) (hr : Rooted fs top place) : Rooted t top place where
  top := hr.top
  dir hd := by
    rw [h.names]
    exact hr.dir hd
  child hd hc hi := by
    rw [h.lookup] at hi
    obtain ⟨hnone, hplace⟩ := hr.child hd hc hi
    refine ⟨fun heq => hnone ((h.there _).mp heq), fun hdir => hplace ?_⟩
    rwa [h.names] at hdir

/-! ## §3. One more name. -/

/-- **One more name makes one more path.** -/
theorem Named.climb (hn : Named fs t d c i) (h : Rooted fs top place) (hd : place d = some q) :
    ∀ {a : Path} {j : Ino}, (∀ x ∈ a, plain x) → t.climb top a = some j →
      fs.climb top a = some j ∨ a = q ++ [c] ∧ j = i := by
  intro a
  induction a using List.reverseRecOn with
  | nil => exact fun _ hj => Or.inl hj
  | append_singleton a x ih =>
      intro j ha hj
      rw [climb_concat] at hj ⊢
      obtain ⟨e, he, hj⟩ := Option.bind_eq_some_iff.mp hj
      have ha' : ∀ y ∈ a, plain y := fun y hy => ha y (by simp [hy])
      rcases ih ha' he with he' | ⟨-, rfl⟩
      · rcases hn.new (h.kind_climb ha' he') hj with hj' | ⟨rfl, rfl, rfl⟩
        · exact Or.inl (Option.bind_eq_some_iff.mpr ⟨e, he', hj'⟩)
        · have hplace := h.place_climb ha' he' (h.dir hd)
          rw [hd, Option.some.injEq] at hplace
          exact Or.inr ⟨by rw [hplace], rfl⟩
      · rw [hn.bare (ha x (by simp))] at hj
        cases hj

/-- The paths of directories, with the one that may be new. -/
def placed (t : Fs) (place : Ino → Option Path) (i : Ino) (q : Path) : Ino → Option Path :=
  fun j => if j = i ∧ (t.names i).isSome then some q else place j

theorem Named.rooted (hn : Named fs t d c i) (h : Rooted fs top place) (hd : place d = some q) :
    Rooted t top (placed t place i (q ++ [c])) where
  top := by
    unfold placed
    rw [if_neg]
    · exact h.top
    · rintro ⟨rfl, hdir⟩
      exact kind_of_names (h.dir h.top) (hn.fresh hdir)
  dir {e r} he := by
    unfold placed at he
    split_ifs at he with hnew
    · obtain ⟨rfl, hdir⟩ := hnew
      exact hdir
    · have hdir := h.dir he
      exact (hn.grows.dirs (kind_of_names hdir)).mpr hdir
  child {e r x j} he hx hj := by
    unfold placed at he ⊢
    split_ifs at he with hnew
    · obtain ⟨rfl, -⟩ := hnew
      rw [hn.bare hx] at hj
      cases hj
    · rcases hn.new (kind_of_names (h.dir he)) hj with hj' | ⟨rfl, rfl, rfl⟩
      · obtain ⟨hnone, hplace⟩ := h.child he hx hj'
        refine ⟨hn.grows.kind hnone, fun hdir => ?_⟩
        rw [if_neg]
        · exact hplace ((hn.grows.dirs hnone).mp hdir)
        · rintro ⟨rfl, hdir'⟩
          exact hnone (hn.fresh hdir')
      · refine ⟨hn.there, fun hdir => ?_⟩
        rw [if_pos ⟨rfl, hdir⟩]
        rw [hd, Option.some.injEq] at he
        rw [he]

end Climb

/-! ## §4. What adds a name. -/

section Named

variable {fs t : Fs} {top d i j : Ino} {c x : Name} {names : Names} {p q base : Path}

theorem lookup_singleton : List.lookup x [(c, i)] = some j ↔ x = c ∧ j = i := by
  rw [List.lookup_cons, List.lookup_nil]
  by_cases hx : x = c
  · simp [hx, eq_comm]
  · have hne : (x == c) = false := by simpa using hx
    simp [hne, hx]

theorem names_congr (h : t.kind j = fs.kind j) : t.names j = fs.names j := by
  unfold Fs.names
  rw [h]

theorem lookup_congr (h : t.kind j = fs.kind j) : t.lookup j x = fs.lookup j x := by
  unfold Fs.lookup
  rw [names_congr h]

/-- One directory has one more name, and the others are the same. -/
theorem Named.intro (hroot : t.root = fs.root) (hcwd : t.cwd = fs.cwd)
    (hd : fs.names d = some names) (hnew : names.lookup c = none) (hc : plain c)
    (hdir : t.kind d = some (.dir (names ++ [(c, i)])))
    (hsame : ∀ j, j ≠ d → fs.kind j ≠ none → t.kind j = fs.kind j) (hi : t.kind i ≠ none)
    (hbare : ∀ {x : Name}, plain x → t.lookup i x = none)
    (hfresh : (t.names i).isSome → fs.kind i = none) : Named fs t d c i := by
  have hdkind := names_eq_some.mp hd
  have hlookup : ∀ x, t.lookup d x
      = (names ++ [(c, i)]).lookup (if x = [] then [46] else x) := by
    intro x
    unfold Fs.lookup
    rw [names_eq_some.mpr hdir]
    rfl
  have hlookup' : ∀ x, fs.lookup d x = names.lookup (if x = [] then [46] else x) := by
    intro x
    unfold Fs.lookup
    rw [hd]
    rfl
  refine ⟨⟨⟨hroot, hcwd, fun {e x j} hj _ => ⟨trivial, ?_⟩, fun {j target} hj => ⟨trivial, ?_⟩,
    fun {j} _ hnone hlink => ?_⟩, fun {j} hj => ?_⟩, hi, ?_, fun {e x j} he hj => ?_, hbare, hfresh⟩
  · by_cases hed : e = d
    · subst hed
      rw [hlookup'] at hj
      rw [hlookup, List.lookup_append, hj]
      rfl
    · rwa [lookup_congr (hsame e hed (kind_of_names (isSome_of_lookup hj)))]
  · have hjd : j ≠ d := by
      rintro rfl
      rw [hdkind] at hj
      cases hj
    rwa [hsame j hjd (by simp [hj])]
  · by_cases hjd : j = d
    · subst hjd
      simp [hdir]
    · rw [hsame j hjd hnone]
      exact ⟨hnone, hlink⟩
  · by_cases hjd : j = d
    · subst hjd
      simp [names_eq_some.mpr hdir, hd]
    · rw [names_congr (hsame j hjd hj)]
  · rw [hlookup, if_neg hc.1, List.lookup_append, hnew]
    exact lookup_singleton.mpr ⟨rfl, rfl⟩
  · by_cases hed : e = d
    · subst hed
      rw [hlookup, List.lookup_append, Option.or_eq_some_iff] at hj
      rcases hj with hold | ⟨-, hlast⟩
      · left
        rw [hlookup']
        exact hold
      · obtain ⟨hx, hji⟩ := lookup_singleton.mp hlast
        refine Or.inr ⟨rfl, ?_, hji⟩
        split_ifs at hx with hnil
        · exact absurd hx.symm hc.2.1
        · exact hx
    · left
      rwa [lookup_congr (hsame e hed he)] at hj

/-- **Something new**, in which there is nothing. -/
theorem create_named {n : Ino → Ino → Inode} (hplace : fs.place p = some (d, c)) (hc : plain c)
    (hn : ∀ names, (n fs.inodes.length d).kind = .dir names → ∀ x, plain x → names.lookup x = none)
    (h : fs.create p n = some t) : Named fs t d c fs.inodes.length
      ∧ t.kind fs.inodes.length = some (n fs.inodes.length d).kind := by
  unfold Fs.create at h
  rw [hplace] at h
  cases h
  obtain ⟨-, ⟨names, hd, hnew⟩, -⟩ := place_eq_some hplace
  have hdkind := names_eq_some.mp hd
  have hne : d ≠ fs.inodes.length := by
    rintro rfl
    obtain ⟨m, hm, -⟩ := kind_eq_some.mp hdkind
    exact absurd (List.getElem?_eq_some_iff.mp hm).1 (Nat.lt_irrefl _)
  have hnone : fs.kind fs.inodes.length = none := by
    unfold Fs.kind
    simp
  have hself : ((fs.alloc (n fs.inodes.length d)).addName d c fs.inodes.length).kind
      fs.inodes.length = some (n fs.inodes.length d).kind :=
    (kind_addName_of_ne hne.symm).trans (kind_alloc_self _)
  refine ⟨Named.intro rfl rfl hd hnew hc ?_ (fun j hj hold => ?_) ?_ (fun {x} hx => ?_)
    fun _ => hnone, hself⟩
  · exact kind_addName_self ((kind_alloc_of_ne _ hne).trans hdkind)
  · rw [kind_addName_of_ne hj, kind_alloc_of_ne]
    rintro rfl
    exact hold hnone
  · rw [hself]
    simp
  · unfold Fs.lookup
    rw [Option.eq_none_iff_forall_ne_some]
    intro j hj
    obtain ⟨l, hl, hj⟩ := Option.bind_eq_some_iff.mp hj
    rw [names_eq_some, hself, Option.some.injEq] at hl
    rw [if_neg hx.1, hn l hl x hx] at hj
    cases hj

theorem mkdir_named (hplace : fs.place p = some (d, c)) (hc : plain c) (h : fs.mkdir p = some t) :
    Named fs t d c fs.inodes.length ∧ (t.names fs.inodes.length).isSome := by
  have hbare : ∀ names,
      Kind.dir [([46], fs.inodes.length), ([46, 46], d)] = .dir names →
      ∀ x, plain x → names.lookup x = none := by
    rintro names ⟨⟩ x hx
    have hdot : (x == [46]) = false := by simpa using hx.2.1
    have hup : (x == [46, 46]) = false := by simpa using hx.2.2
    rw [List.lookup_cons, hdot, List.lookup_cons, hup]
    rfl
  obtain ⟨hnamed, hkind⟩ := create_named hplace hc hbare h
  exact ⟨hnamed, by rw [names_eq_some.mpr hkind]; rfl⟩

/-- Something new that is not a directory. -/
theorem create_leaf {k : Kind} (hplace : fs.place p = some (d, c)) (hc : plain c)
    (hk : ∀ names, k ≠ .dir names) : ∃ t, fs.create p (fun _ _ => { kind := k }) = some t
      ∧ Named fs t d c fs.inodes.length ∧ t.kind fs.inodes.length = some k := by
  cases h : fs.create p fun _ _ => { kind := k } with
  | none =>
      unfold Fs.create at h
      rw [hplace] at h
      cases h
  | some t =>
      exact ⟨t, rfl, create_named hplace hc (fun names hnames => absurd hnames (hk names)) h⟩

/-- A file that is opened is made if it is not there. -/
theorem openWrite_new (hplace : fs.place p = some (d, c)) :
    fs.openWrite p
      = (fs.create p fun _ _ => { kind := .file [] }).map fun t => (t, fs.inodes.length) := by
  obtain ⟨hparent, ⟨names, hd, hnew⟩, hc⟩ := place_eq_some hplace
  have hlookup : fs.lookup d c = none := by
    unfold Fs.lookup
    rw [hd, if_neg hc]
    exact hnew
  have hstat : fs.stat p = none := by
    unfold Fs.stat Fs.step
    rw [hparent, Option.bind_some, hlookup]
    rfl
  have hopen : fs.openPlace Fs.maxLinks d c = some (d, c) := by
    unfold Fs.maxLinks Fs.openPlace
    rw [hlookup]
    simp [hd, hc]
  unfold Fs.openWrite Fs.create
  rw [hstat, hparent, hplace]
  simp only [Option.bind_some, hopen, Option.map_some]

/-- Another name for what is there. -/
theorem link_named {old : Path} (hplace : fs.place p = some (d, c)) (hc : plain c)
    (hold : fs.lstat old = some i) (hleaf : fs.names i = none) :
    ∃ t, fs.link old p = some t ∧ Named fs t d c i := by
  obtain ⟨-, ⟨names, hd, hnew⟩, -⟩ := place_eq_some hplace
  obtain ⟨-, -, -, hnone⟩ := lstat_eq_some.mp hold
  have hid : i ≠ d := by
    rintro rfl
    rw [hd] at hleaf
    cases hleaf
  have hsame : (fs.addName d c i).kind i = fs.kind i := kind_addName_of_ne hid
  refine ⟨fs.addName d c i, ?_, Named.intro rfl rfl hd hnew hc
    (kind_addName_self (names_eq_some.mp hd)) (fun j hj _ => kind_addName_of_ne hj) ?_
    (fun {x} _ => ?_) fun hdir => ?_⟩
  · unfold Fs.link
    rw [hold, Option.bind_some, hleaf, hplace]
    rfl
  · rwa [hsame]
  · unfold Fs.lookup
    rw [names_congr hsame, hleaf]
    rfl
  · rw [names_congr hsame, hleaf] at hdir
    cases hdir

end Named

/-! ## §5. Paths below the directory. -/

section Below

variable {fs t : Fs} {top d i : Ino} {c : Name} {p q base : Path} {place : Ino → Option Path}

/-- Where only directories are gone through, there are no symbolic links. -/
theorem walk_eq_climb : ∀ {q : Path} {d : Ino},
    (∀ a, a <+: q → ∀ i, fs.climb d a = some i → (fs.names i).isSome) →
    fs.walk d q = fs.climb d q
  | [], _, _ => rfl
  | c :: q, d, h => by
      show (fs.step d c).bind (fun e => fs.walk e q) = (fs.lookup d c).bind fun e => fs.climb e q
      unfold Fs.step
      cases hlookup : fs.lookup d c with
      | none => rfl
      | some e =>
          have hdir := h [c] ⟨q, rfl⟩ e (by rw [climb_cons, hlookup]; rfl)
          obtain ⟨names, hnames⟩ := Option.isSome_iff_exists.mp hdir
          rw [names_eq_some] at hnames
          rw [Option.bind_some, follow_self (by simp [hnames]) (by simp [hnames]),
            Option.bind_some, Option.bind_some]
          refine walk_eq_climb fun a ha i hi => h (c :: a) ?_ i ?_
          · exact List.cons_prefix_cons.mpr ⟨rfl, ha⟩
          · rw [climb_cons, hlookup]
            exact hi

theorem parent_base (hbase : fs.origin base = some top) (hq : ∀ x ∈ q, plain x) (hc : plain c) :
    fs.parent (base ++ (q ++ [c])) = (fs.walk top q).map fun d => (d, c) := by
  have hne : ¬ (base ++ (q ++ [c]) = [] ∨ base ++ (q ++ [c]) = [[]]) := by
    rintro (h | h)
    · simp at h
    · rw [← List.append_assoc] at h
      have hlast := congrArg List.getLast? h
      rw [List.getLast?_concat] at hlast
      exact hc.1 (Option.some.inj hlast)
  have hstart : fs.start fs.cwd (base ++ (q ++ [c]))
      = if base.head? = some [] then fs.root else fs.cwd := by
    unfold Fs.start
    cases base with
    | nil =>
        cases q with
        | nil =>
            split
            · rename_i heq
              cases heq
            · rfl
        | cons x q =>
            split
            · rename_i heq
              rw [List.nil_append, List.cons_append, List.cons.injEq] at heq
              exact absurd heq.1 (hq x (by simp)).1
            · rfl
    | cons b base =>
        cases b with
        | nil =>
            cases hrest : base ++ (q ++ [c]) with
            | nil => simp at hrest
            | cons y rest =>
                rw [List.cons_append, hrest]
                rfl
        | cons y b => rfl
  unfold Fs.parent
  rw [if_neg hne, hstart, ← List.append_assoc, List.dropLast_concat, List.getLast?_concat,
    walk_append]
  unfold Fs.origin at hbase
  rw [hbase]
  rfl

/-- **What is found below the directory.** -/
theorem lstat_below (hbase : fs.origin base = some top) (hr : Rooted fs top place)
    (hq : ∀ x ∈ q, plain x) (hc : plain c)
    (hdirs : ∀ a, a <+: q → ∀ i, fs.climb top a = some i → (fs.names i).isSome) :
    fs.lstat (base ++ (q ++ [c])) = fs.climb top (q ++ [c]) := by
  have hparent := parent_base hbase hq hc
  rw [walk_eq_climb hdirs] at hparent
  unfold Fs.lstat
  rw [hparent]
  cases hd : fs.climb top q with
  | none => rw [climb_concat, hd]; rfl
  | some d =>
      rw [climb_concat, hd, Option.map_some, Option.bind_some, Option.bind_some]
      cases hi : fs.lookup d c with
      | none => rfl
      | some i =>
          have hplain : ∀ x ∈ q ++ [c], plain x := by
            intro x hx
            rcases List.mem_append.mp hx with hx | hx
            · exact hq x hx
            · rw [List.mem_singleton.mp hx]
              exact hc
          have hkind := hr.kind_climb hplain (i := i) (by rw [climb_concat, hd]; exact hi)
          rw [Option.filter_some, if_pos (Option.isSome_iff_ne_none.mpr hkind)]

/-- **The place for something new.** -/
theorem place_below (hbase : fs.origin base = some top) (hq : ∀ x ∈ q, plain x) (hc : plain c)
    (hdirs : ∀ a, a <+: q → ∀ i, fs.climb top a = some i → (fs.names i).isSome)
    (hd : fs.climb top q = some d) (hnew : fs.climb top (q ++ [c]) = none) :
    fs.place (base ++ (q ++ [c])) = some (d, c) := by
  have hparent := parent_base hbase hq hc
  rw [walk_eq_climb hdirs, hd, Option.map_some] at hparent
  rw [climb_concat, hd, Option.bind_some] at hnew
  unfold Fs.place
  rw [hparent, Option.filter_some, if_pos]
  rw [hdirs q (List.prefix_refl q) d hd, hnew]
  simpa using hc.1

/-- What is there has no place for something new. -/
theorem place_eq_none (h : fs.lstat p = some i) : fs.place p = none := by
  obtain ⟨dc, hdc, hlookup, -⟩ := lstat_eq_some.mp h
  unfold Fs.place
  rw [hdc, Option.filter_some, hlookup]
  simp

end Below

end Inodes
