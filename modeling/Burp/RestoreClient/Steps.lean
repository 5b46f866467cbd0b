/-
  Burp.RestoreClient.Steps — a restore into an empty directory, entry by entry.

  Each entry that is restored adds its own path below the directory, and the directories that
  lead to it, and nothing else.  Whatever comes through, that is all that has paths there.

  Main results:
    * `buildPath_below` — the directories of a path are made.
    * `restoreDir_below`, `restoreFile_below`, `restoreSpecial_below`, `restoreLink_below`,
      `restoreMetadata_below` — what each kind of entry adds.
-/
import Burp.FileSystem.Below
import Burp.RestoreClient.Effects

namespace Burp.RestoreClient.Effects

open Inodes (Fs Ino Kind Grows Alike Rooted Named plain)
open FileSystem Burp.Store Burp.Phase2

/-! ## §1. What a step adds. -/

/-- Nothing fails. -/
structure Given.Smooth (g : Given) : Prop where
  denied : ∀ fs op p, g.denied fs op p = false
  transfers : g.transfers = true
  closes : g.closes = true
  interrupts : g.interrupts = true

/-- Paths below `base` are those below `top`. -/
structure Ready (base : Inodes.Path) (top : Ino) (t : Fs) : Prop where
  origin : t.origin base = some top
  rooted : ∃ place, Rooted t top place

/-- New paths are those of directories on the way of `dirs`, and the path of a leaf. -/
structure Step (base : Inodes.Path) (top : Ino) (dirs : Inodes.Path) (leaf : Option Inodes.Path)
    (t u : Fs) : Prop where
  ready : Ready base top u
  grows : Grows t u
  paths : ∀ {a : Inodes.Path} {j : Ino}, (∀ x ∈ a, plain x) → u.climb top a = some j →
    t.climb top a = some j ∨ a <+: dirs ∧ (u.names j).isSome ∨ leaf = some a ∧ u.names j = none

section Step

variable {base dirs dirs' : Inodes.Path} {leaf : Option Inodes.Path} {top d i : Ino}
  {c : Inodes.Name} {q : Inodes.Path} {t u v : Fs}

theorem Step.of_alike (h : Alike t u) (hr : Ready base top t) : Step base top dirs leaf t u where
  ready := ⟨h.grows.origin hr.origin, hr.rooted.imp fun _ => h.rooted⟩
  grows := h.grows
  paths _ hj := Or.inl (by rwa [h.climb] at hj)

theorem Step.refl (hr : Ready base top t) : Step base top dirs leaf t t :=
  Step.of_alike (Alike.refl t) hr

/-- Directories first. -/
theorem Step.trans (h : Step base top dirs none t u) (h' : Step base top dirs' leaf u v)
    (hdirs : dirs <+: dirs') : Step base top dirs' leaf t v where
  ready := h'.ready
  grows := h.grows.trans h'.grows
  paths {a j} ha hj := by
    rcases h'.paths ha hj with hj | hj
    · rcases h.paths ha hj with hold | ⟨hpre, hdir⟩ | ⟨hnone, -⟩
      · exact Or.inl hold
      · have hnone := Inodes.kind_of_names hdir
        exact Or.inr (Or.inl ⟨hpre.trans hdirs, (h'.grows.dirs hnone).mpr hdir⟩)
      · cases hnone
    · exact Or.inr hj

/-- And what changes no names afterwards. -/
theorem Step.alike (h : Step base top dirs leaf t u) (hsame : Alike u v) :
    Step base top dirs leaf t v where
  ready := ⟨hsame.grows.origin h.ready.origin, h.ready.rooted.imp fun _ => hsame.rooted⟩
  grows := h.grows.trans hsame.grows
  paths {a j} ha hj := by
    rw [hsame.climb] at hj
    rw [hsame.names]
    exact h.paths ha hj

theorem plain_concat (hq : ∀ x ∈ q, plain x) (hc : plain c) : ∀ x ∈ q ++ [c], plain x := by
  intro x hx
  rcases List.mem_append.mp hx with hx | hx
  · exact hq x hx
  · rwa [List.mem_singleton.mp hx]

/-- One more name is one step. -/
theorem Step.of_named (hr : Ready base top t) (hq : ∀ x ∈ q, plain x)
    (hd : t.climb top q = some d) (hn : Named t u d c i) :
    Ready base top u ∧ Grows t u ∧ u.climb top (q ++ [c]) = some i
      ∧ ∀ {a : Inodes.Path} {j : Ino}, (∀ x ∈ a, plain x) → u.climb top a = some j →
        t.climb top a = some j ∨ a = q ++ [c] ∧ j = i := by
  obtain ⟨place, hrooted⟩ := hr.rooted
  have hself := hn.grows.climb hd
  have hplace : place d = some q := by
    refine hrooted.place_climb hq hd ?_
    refine (hn.grows.dirs (hrooted.kind_climb hq hd)).mp (Inodes.isSome_of_lookup hn.self)
  refine ⟨⟨hn.grows.origin hr.origin, _, hn.rooted hrooted hplace⟩, hn.grows, ?_,
    fun ha hj => hn.climb hrooted hplace ha hj⟩
  rw [Inodes.climb_concat, hself]
  exact hn.self

theorem Step.of_dir (hr : Ready base top t) (hq : ∀ x ∈ q, plain x)
    (hd : t.climb top q = some d) (hn : Named t u d c i) (hdir : (u.names i).isSome) :
    Step base top (q ++ [c]) none t u := by
  obtain ⟨hready, hgrows, -, hpaths⟩ := Step.of_named hr hq hd hn
  refine ⟨hready, hgrows, fun ha hj => (hpaths ha hj).imp_right ?_⟩
  rintro ⟨rfl, rfl⟩
  exact Or.inl ⟨List.prefix_refl _, hdir⟩

theorem Step.of_leaf (hr : Ready base top t) (hq : ∀ x ∈ q, plain x)
    (hd : t.climb top q = some d) (hn : Named t u d c i) (hleaf : u.names i = none) :
    Step base top q (some (q ++ [c])) t u := by
  obtain ⟨hready, hgrows, -, hpaths⟩ := Step.of_named hr hq hd hn
  refine ⟨hready, hgrows, fun ha hj => (hpaths ha hj).imp_right ?_⟩
  rintro ⟨rfl, rfl⟩
  exact Or.inr ⟨rfl, hleaf⟩

end Step

/-! ## §2. The directories of a path. -/

section Below

variable {base q : Inodes.Path} {top d i : Ino} {c : Inodes.Name} {g : Given} {sb : Sbuf} {t u : Fs}

theorem Given.Smooth.attempt (h : g.Smooth) {α : Type} (fs : Fs) (op : Op) (p : Inodes.Path)
    (r : Option α) : g.attempt fs op p r = r := by
  unfold Given.attempt
  rw [h.denied, if_neg Bool.false_ne_true]

/-- On the way of a path there are only directories. -/
def OnlyDirs (t : Fs) (top : Ino) (q : Inodes.Path) : Prop :=
  ∀ a, a <+: q → ∀ i, t.climb top a = some i → (t.names i).isSome

theorem OnlyDirs.step {dirs : Inodes.Path} (h : OnlyDirs t top q) (hr : Ready base top t)
    (hq : ∀ x ∈ q, plain x) (hs : Step base top dirs none t u) : OnlyDirs u top q := by
  intro a ha i hi
  have hplain : ∀ x ∈ a, plain x := fun x hx => hq x (ha.subset hx)
  rcases hs.paths hplain hi with hold | ⟨-, hdir⟩ | ⟨hnone, -⟩
  · obtain ⟨place, hrooted⟩ := hr.rooted
    exact (hs.grows.dirs (hrooted.kind_climb hplain hold)).mpr (h a ha i hold)
  · exact hdir
  · cases hnone

/-- What a step has not made is not there. -/
theorem Step.climb_none (hs : Step base top q none t u) (hq : ∀ x ∈ q, plain x) (hc : plain c)
    (hnone : t.climb top (q ++ [c]) = none) : u.climb top (q ++ [c]) = none := by
  rw [Option.eq_none_iff_forall_ne_some]
  intro i hi
  rcases hs.paths (plain_concat hq hc) hi with hold | ⟨hpre, -⟩ | ⟨hleaf, -⟩
  · rw [hnone] at hold
    cases hold
  · have hlen := hpre.length_le
    simp at hlen
  · cases hleaf

/-- The directory itself is there. -/
theorem stat_base (hbase : t.origin base = some top) (hne : base ≠ []) (hne' : base ≠ [[]]) :
    t.stat base = some top := by
  have hstart : t.start t.cwd base = if base.head? = some [] then t.root else t.cwd := by
    unfold Fs.start
    match base, hne, hne' with
    | [] :: _ :: _, _, _ => rfl
    | [[]], _, hne' => exact absurd rfl hne'
    | (_ :: _) :: _, _, _ => rfl
  rw [Inodes.stat_eq_walk hne hne', hstart]
  exact hbase

theorem lstat_base (hbase : t.origin base = some top) (hne : base ≠ []) (hne' : base ≠ [[]]) :
    (t.lstat base).isSome := by
  have hstat := stat_base hbase hne hne'
  by_contra hnone
  rw [Option.not_isSome_iff_eq_none] at hnone
  rw [Inodes.stat_eq_none hnone] at hstat
  cases hstat

/-- **The directories of a path** are made. -/
theorem buildPath_below (hg : g.Smooth) (hr : Ready base top t) : ∀ {q : Inodes.Path}
    {c : Inodes.Name}, (∀ x ∈ q, plain x) → plain c → OnlyDirs t top q →
    ∃ u, buildPath g (base ++ (q ++ [c])) t = (u, true) ∧ Step base top q none t u
      ∧ ∃ d, u.climb top q = some d := by
  intro q
  induction q using List.reverseRecOn with
  | nil =>
      intro c _ hc _
      refine ⟨t, ?_, Step.refl hr, top, rfl⟩
      unfold buildPath
      rw [List.nil_append, List.reverse_append]
      show mkpathRev g (c :: base.reverse) t = (t, true)
      unfold mkpathRev
      by_cases hroot : base.reverse = [] ∨ base.reverse = [[]]
      · rw [if_pos hroot]
      · rw [not_or] at hroot
        have hthere := lstat_base hr.origin (by simpa using hroot.1)
          fun heq => hroot.2 (by rw [heq]; rfl)
        rw [if_neg (not_or.mpr hroot), List.reverse_reverse, if_pos hthere]
  | append_singleton q x ih =>
      intro c hq hc hdirs
      have hq' : ∀ y ∈ q, plain y := fun y hy => hq y (by simp [hy])
      have hx : plain x := hq x (by simp)
      have hdirs' : OnlyDirs t top q := fun a ha => hdirs a (ha.trans (List.prefix_append q [x]))
      obtain ⟨place, hrooted⟩ := hr.rooted
      have hlstat := Inodes.lstat_below hr.origin hrooted hq' hx hdirs'
      have hrev : (base ++ (q ++ [x] ++ [c])).reverse = c :: (base ++ (q ++ [x])).reverse := by simp
      have hroot : ¬ ((base ++ (q ++ [x])).reverse = [] ∨ (base ++ (q ++ [x])).reverse = [[]]) := by
        rw [← List.append_assoc, List.reverse_append]
        rintro (h | h)
        · cases h
        · exact hx.1 (List.cons.inj h).1
      unfold buildPath
      rw [hrev]
      unfold mkpathRev
      rw [if_neg hroot, List.reverse_reverse, hlstat]
      cases hclimb : t.climb top (q ++ [x]) with
      | some d => exact ⟨t, rfl, Step.refl hr, d, hclimb⟩
      | none =>
          obtain ⟨u, hu, hstep, d, hd⟩ := ih hq' hx hdirs'
          unfold buildPath at hu
          rw [if_neg (by simp), hu]
          simp only [hg.attempt]
          have hnone := hstep.climb_none hq' hx hclimb
          have hplace := Inodes.place_below hstep.ready.origin hq' hx
            (OnlyDirs.step hdirs' hr hq' hstep) hd hnone
          cases hmade : u.mkdir (base ++ (q ++ [x])) with
          | none =>
              unfold Fs.mkdir Fs.create at hmade
              rw [hplace] at hmade
              cases hmade
          | some v =>
              obtain ⟨hnamed, hdir⟩ := Inodes.mkdir_named hplace hx hmade
              refine ⟨v, rfl, hstep.trans (Step.of_dir hstep.ready hq' hd hnamed hdir)
                (List.prefix_append q [x]), u.inodes.length, ?_⟩
              exact (Step.of_named hstep.ready hq' hd hnamed).2.2.1

/-! ## §3. The entries. -/

theorem setAttributes_alike (g : Given) (sb : Sbuf) (p : Inodes.Path) (t : Fs) :
    Alike t (setAttributes g sb p t) := by
  unfold setAttributes
  split_ifs
  · split
    · exact Alike.refl t
    · exact Inodes.setAttrs_alike t _ _
  · split
    · exact Alike.refl t
    · exact Inodes.setAttrs_alike t _ _

theorem setExtrameta_alike (g : Given) (p : Inodes.Path) (b : Bytes) (t : Fs) :
    Alike t (setExtrameta g p b t).1 := by
  unfold setExtrameta
  have hrun : ∀ (calls : List Client.Call) (u : Fs), Alike t u →
      Alike t (calls.foldl (fun u call => applyCall (callPlace t p call) call u) u) := by
    intro calls
    induction calls with
    | nil => exact fun _ hu => hu
    | cons call calls ih =>
        intro u hu
        rw [List.foldl_cons]
        refine ih _ ?_
        unfold applyCall
        cases callPlace t p call with
        | none => exact hu
        | some i => exact hu.trans (Inodes.setAttrs_alike u i _)
  exact hrun _ t (Alike.refl t)

/-- `restore_dir`: the directory, if it is not there. -/
theorem restoreDir_below (sb : Sbuf) (hg : g.Smooth) (hr : Ready base top t) (hq : ∀ x ∈ q, plain x)
    (hc : plain c) (hdirs : OnlyDirs t top q) :
    ∃ u, restoreDir g sb (base ++ (q ++ [c])) t = ⟨u, true⟩
      ∧ Step base top (q ++ [c]) none t u := by
  obtain ⟨u, hu, hstep, d, hd⟩ := buildPath_below hg hr hq hc hdirs
  have hstep' : Step base top (q ++ [c]) none t u :=
    hstep.trans (Step.refl hstep.ready) (List.prefix_append q [c])
  unfold restoreDir
  rw [hu]
  simp only [hg.attempt, hg.interrupts]
  split_ifs
  · exact ⟨_, rfl, hstep'.alike (setAttributes_alike g sb _ u)⟩
  · cases hmade : u.mkdir (base ++ (q ++ [c])) with
    | none => exact ⟨u, rfl, hstep'⟩
    | some v =>
        refine ⟨v, rfl, ?_⟩
        obtain ⟨place, hrooted⟩ := hstep.ready.rooted
        have honly := hdirs.step hr hq hstep
        cases hclimb : u.climb top (q ++ [c]) with
        | some i =>
            have hlstat := Inodes.lstat_below hstep.ready.origin hrooted hq hc honly
            rw [hclimb] at hlstat
            unfold Fs.mkdir Fs.create at hmade
            rw [Inodes.place_eq_none hlstat] at hmade
            cases hmade
        | none =>
            have hplace := Inodes.place_below hstep.ready.origin hq hc honly hd hclimb
            obtain ⟨hnamed, hdir⟩ := Inodes.mkdir_named hplace hc hmade
            exact hstep.trans (Step.of_dir hstep.ready hq hd hnamed hdir) (List.prefix_append q [c])

/-- The path is that of something new, which is not a directory. -/
def IsLeaf (u : Fs) (top : Ino) (q : Inodes.Path) (i : Ino) : Prop :=
  u.climb top q = some i ∧ u.names i = none

/-- What is needed to make something that is not there. -/
theorem place_of_build (hg : g.Smooth) (hr : Ready base top t) (hq : ∀ x ∈ q, plain x)
    (hc : plain c) (hdirs : OnlyDirs t top q) (hnew : t.climb top (q ++ [c]) = none) :
    ∃ u d, buildPath g (base ++ (q ++ [c])) t = (u, true) ∧ Step base top q none t u
      ∧ u.climb top q = some d ∧ u.place (base ++ (q ++ [c])) = some (d, c) := by
  obtain ⟨u, hu, hstep, d, hd⟩ := buildPath_below hg hr hq hc hdirs
  exact ⟨u, d, hu, hstep, hd, Inodes.place_below hstep.ready.origin hq hc
    (hdirs.step hr hq hstep) hd (hstep.climb_none hq hc hnew)⟩

/-- One more name for a leaf, after the directories. -/
theorem Step.leaf (hstep : Step base top q none t u) (hq : ∀ x ∈ q, plain x)
    (hd : u.climb top q = some d) {v : Fs} (hn : Named u v d c i) (hleaf : v.names i = none) :
    Step base top q (some (q ++ [c])) t v ∧ IsLeaf v top (q ++ [c]) i :=
  ⟨hstep.trans (Step.of_leaf hstep.ready hq hd hn hleaf) (List.prefix_refl q),
    (Step.of_named hstep.ready hq hd hn).2.2.1, hleaf⟩

theorem IsLeaf.alike {v : Fs} (h : IsLeaf u top q i) (hsame : Alike u v) : IsLeaf v top q i :=
  ⟨by rw [hsame.climb]; exact h.1, by rw [hsame.names]; exact h.2⟩

theorem names_of_kind {k : Kind} (hk : u.kind i = some k) (hdir : ∀ names, k ≠ .dir names) :
    u.names i = none := by
  rw [Option.eq_none_iff_forall_ne_some]
  intro names hnames
  rw [Inodes.names_eq_some, hk, Option.some.injEq] at hnames
  exact hdir names hnames

/-- `restore_file_or_get_meta`: the file. -/
theorem restoreFile_below (sb : Sbuf) (hg : g.Smooth) (hr : Ready base top t)
    (hq : ∀ x ∈ q, plain x) (hc : plain c) (hdirs : OnlyDirs t top q)
    (hnew : t.climb top (q ++ [c]) = none) :
    ∃ v i, (restoreFileOrGetMeta g sb (base ++ (q ++ [c])) false t).1 = ⟨v, true⟩
      ∧ Step base top q (some (q ++ [c])) t v ∧ IsLeaf v top (q ++ [c]) i
      ∧ ∀ target, v.kind i ≠ some (.symlink target) := by
  obtain ⟨u, d, hu, hstep, hd, hplace⟩ := place_of_build hg hr hq hc hdirs hnew
  obtain ⟨v, hv, hnamed, hkind⟩ := Inodes.create_leaf (k := .file []) hplace hc (by simp)
  have hopen := Inodes.openWrite_new hplace
  rw [hv] at hopen
  obtain ⟨hstep', hleaf⟩ := hstep.leaf hq hd hnamed (names_of_kind hkind (by simp))
  have hwrite := Inodes.write_alike v u.inodes.length g.data
  have hsame := hwrite.trans
    (setAttributes_alike g sb (base ++ (q ++ [c])) (v.write u.inodes.length g.data))
  refine ⟨_, u.inodes.length, ?_, hstep'.alike hsame, hleaf.alike hsame, fun target heq => ?_⟩
  · unfold restoreFileOrGetMeta transferred
    rw [hu]
    simp only [hg.attempt, hopen, Option.map_some, hg.transfers, hg.closes, Bool.and_self, if_true,
      Bool.false_eq_true, if_false]
  · rw [hsame.links, hkind] at heq
    cases heq

theorem nodeKind_spec {s : Stat} {k : Kind} (h : nodeKind s = some k) :
    (∀ names, k ≠ .dir names) ∧ ∀ target, k ≠ .symlink target := by
  unfold nodeKind at h
  split at h <;> cases h <;> simp

/-- `restore_special`: the node. -/
theorem restoreSpecial_below (sb : Sbuf) (hg : g.Smooth) (hr : Ready base top t)
    (hq : ∀ x ∈ q, plain x) (hc : plain c) (hdirs : OnlyDirs t top q)
    (hnew : t.climb top (q ++ [c]) = none)
    (hnode : nodeKind sb.statp ≠ none) :
    ∃ v i, restoreSpecial g sb (base ++ (q ++ [c])) t = ⟨v, true⟩
      ∧ Step base top q (some (q ++ [c])) t v ∧ IsLeaf v top (q ++ [c]) i := by
  obtain ⟨u, d, hu, hstep, hd, hplace⟩ := place_of_build hg hr hq hc hdirs hnew
  obtain ⟨k, hk⟩ := Option.ne_none_iff_exists'.mp hnode
  obtain ⟨hdir, hlink⟩ := nodeKind_spec hk
  obtain ⟨v, hv, hnamed, hkind⟩ := Inodes.create_leaf (k := k) hplace hc hdir
  have hmade : u.mknod (base ++ (q ++ [c])) k = some v := by
    unfold Fs.mknod
    split
    · exact absurd rfl (hdir _)
    · exact absurd rfl (hlink _)
    · exact hv
  obtain ⟨hstep', hleaf⟩ := hstep.leaf hq hd hnamed (names_of_kind hkind hdir)
  have hsame := setAttributes_alike g sb (base ++ (q ++ [c])) v
  refine ⟨_, u.inodes.length, ?_, hstep'.alike hsame, hleaf.alike hsame⟩
  unfold restoreSpecial
  rw [hu]
  simp only [hk, hg.attempt, hmade]

/-- A file that is there is written to. -/
theorem restoreFile_there (hg : g.Smooth) (hr : Ready base top t) (hq : ∀ x ∈ q, plain x)
    (hc : plain c) (hdirs : OnlyDirs t top q) (hthere : IsLeaf t top (q ++ [c]) i)
    (hlink : ∀ target, t.kind i ≠ some (.symlink target)) :
    ∃ v, (restoreFileOrGetMeta g sb (base ++ (q ++ [c])) false t).1 = ⟨v, true⟩
      ∧ Step base top q none t v := by
  obtain ⟨u, hu, hstep, -⟩ := buildPath_below (c := c) hg hr hq hc hdirs
  obtain ⟨place, hrooted⟩ := hr.rooted
  have hkind := hrooted.kind_climb (plain_concat hq hc) hthere.1
  obtain ⟨hkind', hlink'⟩ := hstep.grows.leads.others trivial hkind hlink
  have hnames : u.names i = none := by
    have hdir := hstep.grows.dirs hkind
    rw [hthere.2] at hdir
    simpa using hdir
  obtain ⟨place', hrooted'⟩ := hstep.ready.rooted
  have hlstat := Inodes.lstat_below hstep.ready.origin hrooted' hq hc (hdirs.step hr hq hstep)
  rw [hstep.grows.climb hthere.1] at hlstat
  have hopen : u.openWrite (base ++ (q ++ [c])) = some (u.truncate i, i) := by
    unfold Fs.openWrite
    rw [Inodes.stat_of_lstat hlstat hlink']
    simp only
    split
    · rename_i names hdir
      rw [Inodes.names_eq_some.mpr hdir] at hnames
      cases hnames
    · rename_i target hsym
      exact absurd hsym (hlink' target)
    · rename_i hnone
      exact absurd hnone hkind'
    · rfl
  have hsame := ((Inodes.truncate_alike u i).trans (Inodes.write_alike _ i g.data)).trans
    (setAttributes_alike g sb (base ++ (q ++ [c])) ((u.truncate i).write i g.data))
  refine ⟨_, ?_, hstep.alike hsame⟩
  unfold restoreFileOrGetMeta transferred
  rw [hu]
  simp only [hg.attempt, hopen, hg.transfers, hg.closes, Bool.and_self, if_true,
    Bool.false_eq_true, if_false]

/-- There is nothing to unlink. -/
theorem unlink_eq_none {p : Inodes.Path} (hplace : t.place p = some (d, c)) :
    t.unlink p = none := by
  obtain ⟨hparent, ⟨names, hd, hnew⟩, hc⟩ := Inodes.place_eq_some hplace
  have hlookup : t.lookup d c = none := by
    unfold Fs.lookup
    rw [hd, if_neg hc]
    exact hnew
  unfold Fs.unlink
  rw [hparent, Option.bind_some, hlookup]
  rfl

/-- What `restore_link` does when the link can be made. -/
theorem restoreLink_eq (hg : g.Smooth) {p : Inodes.Path} { restoreprefix : Bytes} {v : Fs}
    (hu : buildPath g p t = (u, true)) (hplace : u.place p = some (d, c))
    (hv : (sb.cmd = .hardLink
          ∧ u.link (components (prependS restoreprefix (sb.linkto.getD []))) p = some v)
        ∨ sb.cmd = .softLink ∧ u.symlink (components (sb.linkto.getD [])) p = some v) :
    restoreLink g sb p restoreprefix t = ⟨setAttributes g sb p v, true⟩ := by
  unfold restoreLink makeLink
  rw [hu]
  rcases hv with ⟨hcmd, hv⟩ | ⟨hcmd, hv⟩
  · simp only [hg.attempt, unlink_eq_none hplace, Option.getD_none, hcmd, hv, Option.getD_some,
      Option.isSome_some]
  · simp only [hg.attempt, unlink_eq_none hplace, Option.getD_none, hcmd, hv, Option.getD_some,
      Option.isSome_some]

/-- `restore_link`: a symbolic link. -/
theorem restoreSoftLink_below (sb : Sbuf) (hg : g.Smooth) (hr : Ready base top t)
    (hq : ∀ x ∈ q, plain x) (hc : plain c) (hdirs : OnlyDirs t top q)
    (hnew : t.climb top (q ++ [c]) = none)
    (hcmd : sb.cmd = .softLink) (htarget : components (sb.linkto.getD []) ≠ [[]])
    ( restoreprefix : Bytes) :
    ∃ v i, restoreLink g sb (base ++ (q ++ [c])) restoreprefix t = ⟨v, true⟩
      ∧ Step base top q (some (q ++ [c])) t v ∧ IsLeaf v top (q ++ [c]) i := by
  obtain ⟨u, d, hu, hstep, hd, hplace⟩ := place_of_build hg hr hq hc hdirs hnew
  obtain ⟨v, hv, hnamed, hkind⟩ := Inodes.create_leaf
    (k := .symlink (components (sb.linkto.getD []))) hplace hc (by simp)
  have hmade : u.symlink (components (sb.linkto.getD [])) (base ++ (q ++ [c])) = some v := by
    unfold Fs.symlink
    rw [if_neg]
    · exact hv
    · rintro (hnil | hnil)
      · exact List.splitOn_ne_nil _ _ hnil
      · exact htarget hnil
  obtain ⟨hstep', hleaf⟩ := hstep.leaf hq hd hnamed (names_of_kind hkind (by simp))
  have hsame := setAttributes_alike g sb (base ++ (q ++ [c])) v
  exact ⟨_, u.inodes.length, restoreLink_eq hg hu hplace (Or.inr ⟨hcmd, hmade⟩),
    hstep'.alike hsame, hleaf.alike hsame⟩

/-- `restore_link`: a hard link to what is there. -/
theorem restoreHardLink_below (sb : Sbuf) (hg : g.Smooth) (hr : Ready base top t)
    (hq : ∀ x ∈ q, plain x) (hc : plain c) (hdirs : OnlyDirs t top q)
    (hnew : t.climb top (q ++ [c]) = none)
    (hcmd : sb.cmd = .hardLink) { restoreprefix : Bytes}
    (hold : ∀ u, Step base top q none t u →
      u.lstat (components (prependS restoreprefix (sb.linkto.getD []))) = some i
        ∧ u.names i = none) :
    ∃ v, restoreLink g sb (base ++ (q ++ [c])) restoreprefix t = ⟨v, true⟩
      ∧ Step base top q (some (q ++ [c])) t v ∧ IsLeaf v top (q ++ [c]) i := by
  obtain ⟨u, d, hu, hstep, hd, hplace⟩ := place_of_build hg hr hq hc hdirs hnew
  obtain ⟨hlstat, hnames⟩ := hold u hstep
  obtain ⟨v, hv, hnamed⟩ := Inodes.link_named hplace hc hlstat hnames
  obtain ⟨-, -, -, hkind⟩ := Inodes.lstat_eq_some.mp hlstat
  have hleaf : v.names i = none := by
    have hdir := hnamed.grows.dirs hkind
    rw [hnames] at hdir
    simpa using hdir
  obtain ⟨hstep', hleaf⟩ := hstep.leaf hq hd hnamed hleaf
  have hsame := setAttributes_alike g sb (base ++ (q ++ [c])) v
  exact ⟨_, restoreLink_eq hg hu hplace (Or.inl ⟨hcmd, hv⟩), hstep'.alike hsame,
    hleaf.alike hsame⟩

/-- What comes after the directory changes no names. -/
theorem restoreMetadata_eq (sb : Sbuf) (hg : g.Smooth) {p : Inodes.Path}
    (hu : buildPath g p (beforeMetadata g sb p t) = (u, true)) :
    ∃ v, Alike u v ∧ restoreMetadata g sb p t = ⟨v, true⟩ := by
  unfold restoreMetadata restoreFileOrGetMeta
  rw [hu]
  simp only [if_true, hg.transfers]
  cases g.metadata with
  | none => exact ⟨u, Alike.refl u, rfl⟩
  | some b =>
      have hsame := setExtrameta_alike g p b u
      cases hset : setExtrameta g p b u with
      | mk v errors =>
          rw [hset] at hsame
          simp only [hset]
          match errors with
          | some 0 => exact ⟨_, hsame.trans (setAttributes_alike g sb p v), rfl⟩
          | some (_ + 1) | none => exact ⟨v, hsame, rfl⟩

/-- `restore_metadata`: the directory that it is for. -/
theorem restoreMetadata_below (hg : g.Smooth) (hr : Ready base top t) (hq : ∀ x ∈ q, plain x)
    (hc : plain c) (hdirs : OnlyDirs t top q) :
    ∃ v, restoreMetadata g sb (base ++ (q ++ [c])) t = ⟨v, true⟩
      ∧ Step base top (if sb.statp.isDir then q ++ [c] else q) none t v := by
  have hbefore : Step base top (if sb.statp.isDir then q ++ [c] else q) none t
      (beforeMetadata g sb (base ++ (q ++ [c])) t) := by
    unfold beforeMetadata
    split_ifs
    · have hg' : Given.Smooth { g with interrupts := true } :=
        ⟨hg.denied, hg.transfers, hg.closes, rfl⟩
      obtain ⟨u, hu, hstep⟩ := restoreDir_below sb hg' hr hq hc hdirs
      rw [hu]
      exact hstep
    · exact Step.refl hr
  have hdirs' := hdirs.step hr hq hbefore
  obtain ⟨u, hu, hstep, -⟩ := buildPath_below (c := c) hg hbefore.ready hq hc hdirs'
  obtain ⟨v, hsame, hv⟩ := restoreMetadata_eq sb hg hu
  have hpre : q <+: if sb.statp.isDir then q ++ [c] else q := by
    split_ifs
    · exact List.prefix_append q [c]
    · exact List.prefix_refl q
  exact ⟨v, hv, (hbefore.trans (hstep.trans (Step.refl hstep.ready) hpre)
    (List.prefix_refl _)).alike hsame⟩

/-! ## §4. A path that is there already. -/

/-- The path leads somewhere, or it is empty. -/
def There (t : Fs) (p : Inodes.Path) : Prop := t.stat p ≠ none ∨ p = [[]]

variable {p : Inodes.Path}

theorem There.grows (h : There t p) (hgrows : Grows t u) : There u p := by
  refine h.imp_left fun hstat => ?_
  obtain ⟨i, hi⟩ := Option.ne_none_iff_exists'.mp hstat
  rw [hgrows.leads.stat hi trivial]
  simp

theorem There.buildPath (h : There t p) : buildPath g p t = (t, true) := by
  unfold Effects.buildPath
  rcases h with hstat | rfl
  · obtain ⟨i, hi⟩ := Option.ne_none_iff_exists'.mp hstat
    rcases List.eq_nil_or_concat p with rfl | ⟨x, y, rfl⟩
    · rfl
    · rw [List.concat_eq_append] at hi ⊢
      rw [List.reverse_append]
      show mkpathRev g (y :: x.reverse) t = (t, true)
      unfold mkpathRev
      by_cases hroot : x.reverse = [] ∨ x.reverse = [[]]
      · rw [if_pos hroot]
      · rw [not_or] at hroot
        have hx : x ≠ [] := by simpa using hroot.1
        have hx' : x ≠ [[]] := fun heq => hroot.2 (by rw [heq]; rfl)
        have hthere : (t.lstat x).isSome := by
          by_contra hnone
          rw [Option.not_isSome_iff_eq_none] at hnone
          obtain ⟨dc, j, hdc, -⟩ := Inodes.stat_eq_some.mp hi
          rw [Inodes.parent_append hx hx', Inodes.stat_eq_none hnone] at hdc
          cases hdc
        rw [if_neg (not_or.mpr hroot), List.reverse_reverse, if_pos hthere]
  · rfl

theorem There.mkdir (h : There t p) : t.mkdir p = none := by
  have hplace : t.place p = none := by
    rcases h with hstat | rfl
    · cases hlstat : t.lstat p with
      | none => exact absurd (Inodes.stat_eq_none hlstat) hstat
      | some i => exact Inodes.place_eq_none hlstat
    · unfold Fs.place Fs.parent
      rw [if_pos (Or.inr rfl)]
      rfl
  unfold Fs.mkdir Fs.create
  rw [hplace]
  rfl

theorem restoreDir_there (sb : Sbuf) (hg : g.Smooth) (h : There t p) :
    ∃ u, restoreDir g sb p t = ⟨u, true⟩ ∧ Alike t u := by
  unfold restoreDir
  rw [h.buildPath]
  simp only [hg.attempt, hg.interrupts, h.mkdir]
  split_ifs
  · exact ⟨_, rfl, setAttributes_alike g sb p t⟩
  · exact ⟨t, rfl, Alike.refl t⟩

theorem restoreMetadata_there (hg : g.Smooth) (h : There t p) :
    ∃ u, restoreMetadata g sb p t = ⟨u, true⟩ ∧ Alike t u := by
  have hbefore : Alike t (beforeMetadata g sb p t) := by
    unfold beforeMetadata
    split_ifs
    · have hg' : Given.Smooth { g with interrupts := true } :=
        ⟨hg.denied, hg.transfers, hg.closes, rfl⟩
      obtain ⟨u, hu, hsame⟩ := restoreDir_there sb hg' h
      rw [hu]
      exact hsame
    · exact Alike.refl t
  obtain ⟨v, hsame, hv⟩ := restoreMetadata_eq sb hg (h.grows hbefore.grows).buildPath
  exact ⟨v, hv, hbefore.trans hsame⟩

end Below

end Burp.RestoreClient.Effects
