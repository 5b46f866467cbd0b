/-
  Burp.Store.Files — what the server does to single files of its storage.

  zlib, librsync and the buffering of stdio are parameters: `Codec` names the functions
  that the server calls and `Codec.Lawful` what it relies on (inflating undoes deflating,
  and a delta against a signature patches the signed file into the new one).  The rest
  of the file is the helpers that phase 4 and restores share: which encoding a data
  path has, making the directories of a path, copying, linking, inflating and patching.

  Main results:
    * `mkpath_spec` — `mkpath` makes the missing directories of a path and nothing else.
    * `duplicateFile_spec`, `doPatch_spec` — copies and patches write one scratch file,
      and a kill leaves at most a part of that file.
-/
import Burp.FileSystem.Ops

namespace Burp.Store

open Crash FileSystem

/-! ## §1. Libraries and configuration. -/

/-- zlib, librsync and stdio.  `gzip level` compresses, `inflate` is `zlib_inflate`,
`gzread` reads a file through `gzopen`; `sig block` makes a signature, `delta` a delta
against one, `patch` applies it; `pieces` is how stdio splits what it writes. -/
structure Codec where
  gzip : Nat → Bytes → Bytes
  inflate : Bytes → Option Bytes
  gzread : Bytes → Option Bytes
  sig : Nat → Bytes → Bytes
  delta : Bytes → Bytes → Bytes
  patch : Bytes → Bytes → Option Bytes
  pieces : Bytes → List Bytes

/-- What the server relies on. -/
structure Codec.Lawful (c : Codec) : Prop where
  inflate_gzip : ∀ level b, c.inflate (c.gzip level b) = some b
  gzread_gzip : ∀ level b, c.gzread (c.gzip level b) = some b
  gzip_ne_nil : ∀ level b, c.gzip level b ≠ []
  patch_delta : ∀ block b n, c.patch b (c.delta (c.sig block b) n) = some n
  pieces_flatten : ∀ b, (c.pieces b).flatten = b

/-- A codec to run examples with: a header in front of what is compressed, and deltas that
consist of one literal. -/
def sampleCodec : Codec where
  gzip _ b := 31 :: 139 :: b
  inflate b :=
    match b with
    | 31 :: 139 :: x => some x
    | _ => none
  gzread b :=
    match b with
    | 31 :: 139 :: x => some x
    | x => some x
  sig _ b := 114 :: b
  delta _ n := 65 :: n
  patch _ d :=
    match d with
    | 65 :: n => some n
    | _ => none
  pieces b := [b]

theorem sampleCodec_lawful : sampleCodec.Lawful where
  inflate_gzip _ _ := rfl
  gzread_gzip _ _ := rfl
  gzip_ne_nil _ _ := by simp [sampleCodec]
  patch_delta _ _ _ := rfl
  pieces_flatten _ := by simp [sampleCodec]

/-- The part of `struct config` that the storage code reads. -/
structure Conf where
  compression : Nat := 9
  maxHardlinks : Nat := 10000
  hardlinkedArchive : Bool := false
  keep : List Nat := []
  librsync : Bool := true
  directoryTree : Bool := true
  maxStorageSubdirs : Nat := 30000

/-- The last component of a path ends in `.gz`. -/
def endsGz (p : Path) : Bool := (".gz".toList).isSuffixOf (p.getLastD "").toList

/-- `dpth_is_compressed`; a negative value is one that the manifest does not set. -/
def dpthIsCompressed (compressed : Int) (datapath : Path) : Bool :=
  if 0 < compressed then true
  else if compressed = 0 then false
  else endsGz datapath

/-- Only the data path decides, not the directory it is in. -/
theorem dpthIsCompressed_append {compressed : Int} {d p : Path} (hp : p ≠ []) :
    dpthIsCompressed compressed (d ++ p) = dpthIsCompressed compressed p := by
  unfold dpthIsCompressed endsGz
  have hlast : (d ++ p).getLastD "" = p.getLastD "" := by
    rw [List.getLastD_eq_getLast?, List.getLastD_eq_getLast?, List.getLast?_append_of_ne_nil d hp]
  rw [hlast]

namespace Codec

variable (c : Codec)

/-- What a file opened with `gzopen` or with `fopen` reads as. -/
def content (gz : Bool) (b : Bytes) : Option Bytes := if gz then c.gzread b else some b

/-- What `gzopen_file(.., comp_level)` or `open_file(.., "wb")` writes. -/
def encode (level : Nat) (b : Bytes) : Bytes := if level = 0 then b else c.gzip level b

theorem content_encode (h : c.Lawful) (level : Nat) (b : Bytes) :
    c.content (decide (level ≠ 0)) (c.encode level b) = some b := by
  unfold content encode
  by_cases h0 : level = 0
  · simp [h0]
  · simp [h0, h.gzread_gzip]

end Codec

/-! ## §2. `mkpath`. -/

/-- The recursion of `mkpath`, on the components of the path from its end.  Of the
directories above `p` only `limit` and what is below it may be made. -/
def mkpathRev (limit : Path) : List String → Prog Node Bool
  | [] => pure true
  | _ :: parent =>
      if parent = [] then pure true
      else do
        match ← lstat parent.reverse with
        | some _ => pure true
        | none =>
            if ← mkpathRev limit parent then
              -- `pathcmp(*rpath, limit)<0`: a proper ancestor of `limit`
              if parent.length < limit.length then pure false
              else mkdir parent.reverse
            else pure false

/-- `mkpath`. -/
def mkpath (p limit : Path) : Prog Node Bool := mkpathRev limit p.reverse

/-- `u` is `t` with some directories made above `p`, from `limit` on. -/
structure Grown (limit p : Path) (t u : Node) : Prop where
  grown : ∀ q, look u q = look t q
    ∨ (look t q = none ∧ look u q = some .dir ∧ limit <+: q ∧ q <+: p ∧ q ≠ p)
  links : ∀ j, nlink u j = nlink t j
  wf : t.WF → u.WF

namespace Grown

variable {limit p : Path} {t u : Node}

theorem refl (limit p : Path) (t : Node) : Grown limit p t t :=
  ⟨fun _ => Or.inl rfl, fun _ => rfl, id⟩

theorem look_of_some (h : Grown limit p t u) {q : Path} {e : Entry} (hq : look t q = some e) :
    look u q = some e := by
  rcases h.grown q with hu | ⟨hu, -⟩
  · rw [hu, hq]
  · rw [hq] at hu
    simp at hu

theorem look_of_not_prefix (h : Grown limit p t u) {q : Path}
    (hq : ¬ limit <+: q ∨ ¬ q <+: p ∨ q = p) :
    look u q = look t q := by
  rcases h.grown q with hu | ⟨-, -, hl, hp, hne⟩
  · exact hu
  · rcases hq with hq | hq | hq
    · exact absurd hl hq
    · exact absurd hp hq
    · exact absurd hq hne

/-- Files are the same in both. -/
theorem file_iff (h : Grown limit p t u) {q : Path} {i : Nat} {d : Bytes} :
    look u q = some (.file i d) ↔ look t q = some (.file i d) := by
  rcases h.grown q with hu | ⟨ht, hu, -⟩
  · rw [hu]
  · rw [ht, hu]
    simp

theorem isDir (h : Grown limit p t u) {q : Path} (hq : IsDir t q) : IsDir u q :=
  h.look_of_some hq

theorem trans {v : Node} (h : Grown limit p t u) (h' : Grown limit p u v) :
    Grown limit p t v where
  grown := by
    intro q
    rcases h'.grown q with hv | ⟨hu, hv, hl, hp, hne⟩
    · rcases h.grown q with hu | ⟨ht, hu, hl, hp, hne⟩
      · exact Or.inl (hv.trans hu)
      · exact Or.inr ⟨ht, hv.trans hu, hl, hp, hne⟩
    · rcases h.grown q with hu' | ⟨-, hu', -⟩
      · exact Or.inr ⟨by rw [← hu', hu], hv, hl, hp, hne⟩
      · rw [hu] at hu'
        simp at hu'
  links := fun j => (h'.links j).trans (h.links j)
  wf := fun ht => h'.wf (h.wf ht)

end Grown

theorem Grown.own {t u : Node} {limit p q : Path} (hg : Grown limit p t u) (h : Own t q)
    (hq : look u q = look t q) : Own u q := by
  refine ⟨by rw [hq]; exact h.1, ?_⟩
  intro i d hi r e hr
  exact h.2 i d (hg.file_iff.mp hi) r e (hg.file_iff.mp hr)

/-- Nothing but directories in the way of `p`, from `limit` on. -/
def Clear (limit p : Path) (t : Node) : Prop :=
  ∀ q, limit <+: q → q <+: p → q ≠ p → look t q = none ∨ IsDir t q

/-- Only `limit` itself is above a data path of one component. -/
theorem clear_single {limit : Path} {x : String} {t : Node}
    (h : look t limit = none ∨ IsDir t limit) : Clear limit (limit ++ [x]) t := by
  intro q hl hq hne
  have hql : q <+: limit := by
    rcases List.prefix_concat_iff.mp hq with hq | hq
    · exact absurd hq hne
    · exact hq
  have : q = limit := hql.eq_of_length (Nat.le_antisymm hql.length_le hl.length_le)
  rwa [this]

theorem Clear.grown {limit p : Path} {t u : Node} (h : Clear limit p t) (hg : Grown limit p t u) :
    Clear limit p u := by
  intro q hl hp hne
  rcases hg.grown q with hu | ⟨-, hu, -⟩
  · rcases h q hl hp hne with hq | hq
    · exact Or.inl (hu.trans hq)
    · exact Or.inr (hu.trans hq)
  · exact Or.inr hu

theorem Grown.weaken {limit p : Path} {t u : Node} (h : Grown limit p t u) (x : String) :
    Grown limit (p ++ [x]) t u where
  grown := by
    intro q
    rcases h.grown q with hu | ⟨ht, hu, hl, hp, -⟩
    · exact Or.inl hu
    · refine Or.inr ⟨ht, hu, hl, hp.trans (List.prefix_append _ _), ?_⟩
      rintro rfl
      have := hp.length_le
      simp at this
  links := h.links
  wf := h.wf

/-- Where the parent is there, nothing is made. -/
theorem mkpathRev_of_isDir {limit : Path} {t : Node} {q : List String}
    (h : IsDir t q.reverse.dropLast) :
    Spec (mkpathRev limit q) t (fun u => u = t) fun ok u => ok = true ∧ u = t := by
  cases q with
  | nil => exact Spec.pure rfl ⟨rfl, rfl⟩
  | cons x parent =>
      rw [List.reverse_cons, List.dropLast_concat] at h
      unfold mkpathRev
      split
      · exact Spec.pure rfl ⟨rfl, rfl⟩
      · refine Spec.bind (Spec.read rfl ?_)
        rw [h]
        exact Spec.pure rfl ⟨rfl, rfl⟩

theorem mkpathRev_spec {limit : Path} {t : Node} (hl : limit ≠ [])
    (hdir : IsDir t limit.dropLast) :
    ∀ (q : List String), limit <+: q.reverse → Clear limit q.reverse t →
      Spec (mkpathRev limit q) t (Grown limit q.reverse t)
        fun ok u => ok = true ∧ Grown limit q.reverse t u ∧ IsDir u q.reverse.dropLast := by
  intro q
  induction q with
  | nil =>
      intro hpre
      exact absurd (List.prefix_nil.mp hpre) hl
  | cons x parent ih =>
      intro hpre hclear
      by_cases heq : limit = (x :: parent).reverse
      · rw [heq] at hdir
        refine (mkpathRev_of_isDir hdir).mono (fun u hu => ?_) fun ok u _ hu => ?_
        · rw [hu]
          exact Grown.refl _ _ _
        · obtain ⟨hok, rfl⟩ := hu
          exact ⟨hok, Grown.refl _ _ _, hdir⟩
      · have hrev : (x :: parent).reverse = parent.reverse ++ [x] := by simp
        rw [hrev] at hpre hclear heq ⊢
        rw [List.dropLast_concat]
        -- `limit` is above the last component
        have hlpar : limit <+: parent.reverse := by
          rcases List.prefix_concat_iff.mp hpre with h | h
          · exact absurd h heq
          · exact h
        have hparne : parent ≠ [] := by
          rintro rfl
          exact hl (List.prefix_nil.mp (by simpa using hlpar))
        have hparp : parent.reverse <+: parent.reverse ++ [x] := List.prefix_append _ _
        have hparnep : parent.reverse ≠ parent.reverse ++ [x] := by simp
        have hlen : ¬ parent.length < limit.length := by
          have := hlpar.length_le
          simp only [List.length_reverse] at this
          omega
        have hclear' : Clear limit parent.reverse t := by
          intro r hlr hr hne
          refine hclear r hlr (hr.trans hparp) ?_
          rintro rfl
          have := hr.length_le
          simp at this
        unfold mkpathRev
        rw [if_neg hparne]
        refine Spec.bind (Spec.read (Grown.refl _ _ _) ?_)
        cases hlook : look t parent.reverse with
        | some e =>
            rcases hclear _ hlpar hparp hparnep with hnone | hisdir
            · rw [hlook] at hnone
              simp at hnone
            · exact Spec.pure (Grown.refl _ _ _) ⟨rfl, Grown.refl _ _ _, hisdir⟩
        | none =>
            refine Spec.bind ((ih hlpar hclear').mono (fun u hu => hu.weaken x) ?_)
            rintro ok u - ⟨rfl, hg, hu⟩
            rw [if_pos rfl, if_neg hlen]
            have hup : look u parent.reverse = none := by
              rw [hg.look_of_not_prefix (Or.inr (Or.inr rfl)), hlook]
            obtain ⟨hres, hl', hn⟩ := mkdir_absent hup hu
            have hg' : Grown limit (parent.reverse ++ [x]) u ((mkdir parent.reverse).final u) := by
              refine ⟨fun r => ?_, hn, fun hw => ?_⟩
              · by_cases hr : r = parent.reverse
                · subst hr
                  exact Or.inr ⟨hup, by rw [hl', if_pos rfl], hlpar, hparp, hparnep⟩
                · exact Or.inl (by rw [hl', if_neg hr])
              · simp only [mkdir, Prog.final_op, mkdirAt, hup, hu, and_self, if_true]
                exact hw.put fun n hn => by
                  simp only [Option.some.injEq] at hn
                  rw [← hn]
                  exact ⟨by simp, trivial⟩
            have hdone : IsDir ((mkdir parent.reverse).final u) parent.reverse :=
              (hl' _).trans (if_pos rfl)
            exact Spec.op (hg.weaken x) ((hg.weaken x).trans hg')
              ⟨hres, (hg.weaken x).trans hg', hdone⟩

/-- **`mkpath`** makes the missing directories of `p`, from `limit` on. -/
theorem mkpath_spec {limit p : Path} {t : Node} (hl : limit ≠ []) (hdir : IsDir t limit.dropLast)
    (hpre : limit <+: p) (hclear : Clear limit p t) :
    Spec (mkpath p limit) t (Grown limit p t)
      fun ok u => ok = true ∧ Grown limit p t u ∧ IsDir u p.dropLast := by
  have h := mkpathRev_spec hl hdir p.reverse (by simpa using hpre) (by simpa using hclear)
  simpa [mkpath] using h

/-! ## §3. Copying, linking, inflating, patching. -/

/-- The bytes behind a file that has been opened. -/
def contents (p : Path) : Prog Node Bytes :=
  .read fun t =>
    match look t p with
    | some (.file _ d) => d
    | _ => []

/-- `!lstat(path, &statp) && S_ISREG(statp.st_mode)`. -/
def isReg (p : Path) : Prog Node Bool :=
  .read fun t =>
    match look t p with
    | some (.file _ _) => true
    | _ => false

/-- `st_nlink` of a path. -/
def linkCount (p : Path) : Prog Node Nat :=
  .read fun t =>
    match look t p with
    | some (.file i _) => nlink t i
    | _ => 1

/-- `duplicate_file`.  The source is read after the destination has been truncated. -/
def duplicateFile (c : Codec) (oldpath newpath : Path) : Prog Node Bool := do
  match ← readFile oldpath with
  | none => pure false
  | some _ =>
      match ← openWrite newpath with
      | none => pure false
      | some i =>
          let d ← contents oldpath
          appendAll i (c.pieces d)
          pure true

/-- `do_link`: too many links make it a copy. -/
def doLink (c : Codec) (conf : Conf) (oldpath newpath : Path) : Prog Node Bool := do
  let n ← linkCount oldpath
  if conf.maxHardlinks ≤ n then duplicateFile c oldpath newpath else link oldpath newpath

/-- `inflate_or_link_oldfile`, of which there are two: a compressed file is inflated, an
empty one excepted, any other goes to `dup`. -/
def inflateOrLink (c : Codec) (dup : Prog Node Bool) (oldpath infpath : Path)
    (compression : Int) : Prog Node Bool := do
  match ← lstat oldpath with
  | none => pure false
  | some _ =>
      if dpthIsCompressed compression oldpath then
        let size ← contents oldpath
        match ← openWrite infpath with
        | none => pure false
        | some i =>
            if size = [] then pure true
            else
              match ← readFile oldpath with
              | none => pure false
              | some d =>
                  match c.inflate d with
                  | none => pure false
                  | some x =>
                      appendAll i (c.pieces x)
                      pure true
      else dup

/-- `do_patch`: patch `dst` with the delta `del` into `upd`, compressed at level `gzupd`
if that is not 0. -/
def doPatch (c : Codec) (dst del upd : Path) (gzupd : Nat) (compression : Int) :
    Prog Node Bool := do
  match ← readFile dst with
  | none => pure false
  | some _ =>
      match ← readFile del with
      | none => pure false
      | some _ =>
          match ← openWrite upd with
          | none => pure false
          | some i =>
              let basis ← contents dst
              let delta ← contents del
              match (c.content (dpthIsCompressed compression del) delta).bind (c.patch basis) with
              | none => pure false
              | some x =>
                  appendAll i (c.pieces (c.encode gzupd x))
                  pure true

theorem isReg_of_none {p : Path} {t : Node} (h : ∀ i d, look t p ≠ some (.file i d)) :
    (isReg p).result t = false := by
  simp only [isReg, Prog.result_read]

section Spec

variable {c : Codec} (hc : c.Lawful) {t : Node} {I : Node → Prop}

/-- An uncompressed old file goes to `dup`. -/
theorem inflateOrLink_plain {dup : Prog Node Bool} {o p : Path} {compression : Int} {e : Entry}
    {Q : Bool → Node → Prop} (hcomp : dpthIsCompressed compression o = false)
    (ho : look t o = some e) (h : Spec dup t I Q) :
    Spec (inflateOrLink c dup o p compression) t I Q := by
  unfold inflateOrLink
  refine Spec.bind (Spec.read h.start ?_)
  simpa only [ho, hcomp, Bool.false_eq_true, if_false] using h

theorem doLink_copy {conf : Conf} {o p : Path} {i : Nat} {d : Bytes} {Q : Bool → Node → Prop}
    (ho : look t o = some (.file i d)) (hn : conf.maxHardlinks ≤ nlink t i)
    (h : Spec (duplicateFile c o p) t I Q) : Spec (doLink c conf o p) t I Q := by
  unfold doLink
  refine Spec.bind (Spec.read h.start ?_)
  simpa only [ho, hn, if_true] using h

theorem doLink_link {conf : Conf} {o p : Path} {i : Nat} {d : Bytes} {Q : Bool → Node → Prop}
    (ho : look t o = some (.file i d)) (hn : nlink t i < conf.maxHardlinks)
    (h : Spec (link o p) t I Q) : Spec (doLink c conf o p) t I Q := by
  unfold doLink
  refine Spec.bind (Spec.read h.start ?_)
  simpa only [ho, Nat.not_le.mpr hn, if_false] using h

include hc

/-- The rest of a program that has opened the scratch file `p` and writes `d` to it. -/
theorem write_spec {p : Path} {u : Node} {i : Nat} (h : Put t u p i [])
    {d : Bytes} (hI : ∀ v j e, e <+: d → Put t v p j e → I v) :
    Spec (do appendAll i (c.pieces d); pure true) u I fun ok v =>
      ok = true ∧ ∃ j, Put t v p j d := by
  refine Spec.bind ((appendAll_spec (c.pieces d) u []
    (fun v e he => hI v i e (by simpa [hc.pieces_flatten] using he)) h).mono (fun _ hv => hv) ?_)
  intro _ v hv hput
  refine Spec.pure hv ⟨rfl, i, ?_⟩
  simpa [hc.pieces_flatten] using hput

theorem duplicateFile_spec {o p : Path} {i : Nat} {d : Bytes} (ho : look t o = some (.file i d))
    (hp : Scratch t p) (hop : o ≠ p) (ht : I t) (hI : ∀ v j e, e <+: d → Put t v p j e → I v) :
    Spec (duplicateFile c o p) t I fun ok v => ok = true ∧ ∃ j, Put t v p j d := by
  obtain ⟨j, hres, hput⟩ := openWrite_scratch hp
  unfold duplicateFile
  refine Spec.bind (Spec.read ht ?_)
  simp only [ho]
  refine Spec.bind (Spec.op ht (hI _ j [] List.nil_prefix hput) ?_)
  have hres' : (openAt true p t).2 = some j := hres
  rw [hres']
  refine Spec.bind (Spec.read (hI _ j [] List.nil_prefix hput) ?_)
  have ho' : look ((openAt true p t).1) o = some (.file i d) := (hput.look_ne hop).trans ho
  rw [ho']
  exact write_spec hc hput hI

/-- Inflating a compressed file into a scratch file. -/
theorem inflate_spec {dup : Prog Node Bool} {o p : Path} {compression : Int} {i : Nat} {d x : Bytes}
    (hcomp : dpthIsCompressed compression o = true) (ho : look t o = some (.file i d))
    (hx : if d = [] then x = [] else c.inflate d = some x)
    (hp : Scratch t p) (hop : o ≠ p) (ht : I t)
    (hI : ∀ v j e, e <+: x → Put t v p j e → I v) :
    Spec (inflateOrLink c dup o p compression) t I fun ok v =>
      ok = true ∧ ∃ j, Put t v p j x := by
  obtain ⟨j, hres, hput⟩ := openWrite_scratch hp
  have hres' : (openAt true p t).2 = some j := hres
  have ho' : look ((openAt true p t).1) o = some (.file i d) := (hput.look_ne hop).trans ho
  unfold inflateOrLink
  refine Spec.bind (Spec.read ht ?_)
  simp only [ho, hcomp, if_true]
  refine Spec.bind (Spec.read ht ?_)
  simp only [ho]
  refine Spec.bind (Spec.op ht (hI _ j [] List.nil_prefix hput) ?_)
  rw [hres']
  by_cases hd : d = []
  · simp only [if_pos hd]
    rw [if_pos hd] at hx
    exact Spec.pure (hI _ j [] List.nil_prefix hput) ⟨rfl, j, by rw [hx]; exact hput⟩
  · simp only [if_neg hd]
    rw [if_neg hd] at hx
    refine Spec.bind (Spec.read (hI _ j [] List.nil_prefix hput) ?_)
    rw [ho']
    simp only [hx]
    exact write_spec hc hput hI

theorem doPatch_spec {dst del upd : Path} {gzupd : Nat} {compression : Int} {i j : Nat}
    {basis db delta x : Bytes} (hdst : look t dst = some (.file i basis))
    (hdel : look t del = some (.file j db))
    (hdelta : c.content (dpthIsCompressed compression del) db = some delta)
    (hx : c.patch basis delta = some x) (hp : Scratch t upd) (hdu : dst ≠ upd) (hlu : del ≠ upd)
    (ht : I t) (hI : ∀ v k e, e <+: c.encode gzupd x → Put t v upd k e → I v) :
    Spec (doPatch c dst del upd gzupd compression) t I fun ok v =>
      ok = true ∧ ∃ k, Put t v upd k (c.encode gzupd x) := by
  obtain ⟨k, hres, hput⟩ := openWrite_scratch hp
  have hres' : (openAt true upd t).2 = some k := hres
  have hdst' : look ((openAt true upd t).1) dst = some (.file i basis) :=
    (hput.look_ne hdu).trans hdst
  have hdel' : look ((openAt true upd t).1) del = some (.file j db) :=
    (hput.look_ne hlu).trans hdel
  unfold doPatch
  refine Spec.bind (Spec.read ht ?_)
  simp only [hdst]
  refine Spec.bind (Spec.read ht ?_)
  simp only [hdel]
  refine Spec.bind (Spec.op ht (hI _ k [] List.nil_prefix hput) ?_)
  rw [hres']
  refine Spec.bind (Spec.read (hI _ k [] List.nil_prefix hput) ?_)
  rw [hdst']
  refine Spec.bind (Spec.read (hI _ k [] List.nil_prefix hput) ?_)
  rw [hdel']
  simp only [hdelta, Option.bind_some, hx]
  exact write_spec hc hput hI

end Spec

end Burp.Store
