/-
  Burp.Restore.RestoreFile — restoring one file of a backup.

  `restore_file` (restore_server.c) looks upwards from the wanted backup for one that has
  the file in its data directory, and then goes down again, patching with whatever reverse
  deltas it meets.  All patches of all files go through the same two scratch files, tmp1
  and tmp2, which swap roles with each patch; the first of them is made from the file
  that was found, inflated if it is compressed and hard linked if it is not.

  Main results:
    * `applyDeltas_patched` — the loop once it is running: the content is the deltas'
      composition and exactly one scratch file is left.
    * `restoreFile_spec` — the whole call, and what it leaves of the scratch files.
    * `restoreFile_blocked` — an uncompressed file cannot be patched while tmp1 is there.
-/
import Burp.Backups.Bu
import Burp.Store.Files

namespace Burp.Restore

open Crash FileSystem Burp.Store Burp.Backups

/-! ## §1. The code. -/

/-- `arr[x].data` and `arr[x].delta`. -/
def dataDir (b : Bu) : Path := [b.path, "data"]
def deltaDir (b : Bu) : Path := [b.path, "deltas.reverse"]

/-- The commands of the entries that `restore_sbuf` gives to `restore_file`. -/
inductive Cmd
  | file | encFile | metadata | encMetadata | vss | encVss | vssT | encVssT | efsFile
  deriving DecidableEq, Repr

/-- The ones that `send_file` and `verify_file` take as they are. -/
def Cmd.asIs : Cmd → Bool
  | .encFile | .encMetadata | .encVss | .efsFile => true
  | _ => false

inductive Action
  | restore | verify
  deriving DecidableEq, Repr

/-- What `restore_file` gets from the manifest entry. -/
structure Request where
  datapth : Path
  endfile : List Char
  cmd : Cmd
  compression : Int

/-- What a successful call comes to: the bytes on the wire, or what the verification
found. -/
inductive Reply
  | missing
  | sent (wire : Bytes)
  | noSum
  | unreadable
  | mismatch
  | verified (bytes : Nat)

/-- The text after the last colon of `endfile`. -/
def md5sumOf (endfile : List Char) : Option (List Char) :=
  if ':' ∈ endfile then some (endfile.reverse.takeWhile (· ≠ ':')).reverse else none

/-- `send_file`, for the file `best` with the bytes `b`. -/
def sendFile (c : Codec) (req : Request) (patches : Nat) (b : Bytes) : Reply :=
  if patches ≠ 0 then .sent (c.gzip 9 b)
  else if req.cmd.asIs then .sent b
  else if dpthIsCompressed req.compression req.datapth then .sent b
  else .sent (c.gzip 9 b)

/-- `verify_file`. -/
def verifyFile (c : Codec) (md5 : Bytes → List Char) (req : Request) (patches : Nat) (best : Path)
    (b : Bytes) : Reply :=
  match md5sumOf req.endfile with
  | none => .noSum
  | some sum =>
      let plain := decide (patches ≠ 0) || req.cmd.asIs || !dpthIsCompressed req.compression best
      match c.content (!plain) b with
      | none => .unreadable
      | some x => if md5 x = sum then .verified x.length else .mismatch

/-- `inflate_or_link_oldfile` of the restore. -/
def inflateOrLinkOldfile (c : Codec) (oldpath infpath : Path) (compression : Int) :
    Prog Node Bool :=
  inflateOrLink c (link oldpath infpath) oldpath infpath compression

/-- Go up the array until the file is in a data directory.  The result is its path and the
backups below it, the nearest first. -/
def findData (datapth : Path) : List Bu → List Bu → Prog Node (Option (Path × List Bu))
  | [], _ => pure none
  | b :: bs, below => do
      if ← isReg (dataDir b ++ datapth) then pure (some (dataDir b ++ datapth, below))
      else findData datapth bs (b :: below)

/-- The other scratch file. -/
def toggle (tmppath1 tmppath2 tmp : Path) : Path := if tmp = tmppath1 then tmppath2 else tmppath1

/-- Go down the array, applying any deltas; `none` is an error. -/
def applyDeltas (c : Codec) (compression : Int) (datapth tmppath1 tmppath2 : Path) :
    List Bu → Path → Path → Nat → Prog Node (Option (Path × Nat))
  | [], best, _, patches => pure (some (best, patches))
  | b :: bs, best, tmp, patches => do
      if ← isReg (deltaDir b ++ datapth) then
        -- need to gunzip the first one
        if ← (if patches = 0 then inflateOrLinkOldfile c best tmp compression else pure true) then
          let best' := if patches = 0 then tmp else best
          let tmp' := if patches = 0 then toggle tmppath1 tmppath2 tmp else tmp
          if ← doPatch c best' (deltaDir b ++ datapth) tmp' 0 compression then
            let _ ← unlink (toggle tmppath1 tmppath2 tmp')
            applyDeltas c compression datapth tmppath1 tmppath2 bs tmp'
              (toggle tmppath1 tmppath2 tmp') (patches + 1)
          else pure none
        else pure none
      else applyDeltas c compression datapth tmppath1 tmppath2 bs best tmp patches

/-- `tmppath1` and `tmppath2` of `do_restore_server`. -/
def tmp1 : Path := ["tmp1"]
def tmp2 : Path := ["tmp2"]

/-- `restore_file`, from the backup with the position `i` in `arr`; `none` is a return
value of -1. -/
def restoreFile (c : Codec) (md5 : Bytes → List Char) (arr : List Bu) (i : Nat) (act : Action)
    (req : Request) : Prog Node (Option Reply) := do
  match ← findData req.datapth (arr.drop i) [] with
  | none => pure (some .missing)
  | some (path, below) =>
      match ← applyDeltas c req.compression req.datapth tmp1 tmp2 below path tmp1 0 with
      | none => pure none
      | some (best, patches) =>
          match act, ← readFile best with
          | .restore, none => pure none
          | .restore, some b => pure (some (sendFile c req patches b))
          | .verify, none => pure (some .unreadable)
          | .verify, some b => pure (some (verifyFile c md5 req patches best b))

/-! ## §2. What is there to restore. -/

/-- `findData` as a function of the flat view. -/
def found (view : Path → Option Entry) (datapth : Path) :
    List Bu → List Bu → Option (Path × List Bu)
  | [], _ => none
  | b :: bs, below =>
      match view (dataDir b ++ datapth) with
      | some (.file _ _) => some (dataDir b ++ datapth, below)
      | _ => found view datapth bs (b :: below)

theorem findData_eq (datapth : Path) (t : Node) :
    ∀ (bs below : List Bu), findData datapth bs below t = ([], found (look t) datapth bs below)
  | [], _ => rfl
  | b :: bs, below => by
      unfold findData isReg found
      rw [Prog.read_bind]
      cases h : look t (dataDir b ++ datapth) with
      | none => simpa using findData_eq datapth t bs (b :: below)
      | some e =>
          cases e with
          | file i d => rfl
          | symlink x => simpa using findData_eq datapth t bs (b :: below)
          | dir => simpa using findData_eq datapth t bs (b :: below)

/-- What `findData` finds is a file, in the first backup that has one, and the backups
below it are the ones it has passed. -/
theorem found_spec {view : Path → Option Entry} {datapth : Path} :
    ∀ {bs below : List Bu} {path : Path} {below' : List Bu},
      found view datapth bs below = some (path, below') →
      ∃ l b r, bs = l ++ b :: r ∧ path = dataDir b ++ datapth ∧ below' = l.reverse ++ below
        ∧ (∃ i d, view path = some (.file i d))
        ∧ ∀ a ∈ l, ∀ i d, view (dataDir a ++ datapth) ≠ some (.file i d)
  | [], _, _, _, h => by simp [found] at h
  | b :: bs, below, path, below', h => by
      unfold found at h
      split at h
      next i d hview =>
        simp only [Option.some.injEq, Prod.mk.injEq] at h
        obtain ⟨rfl, rfl⟩ := h
        exact ⟨[], b, bs, rfl, rfl, rfl, ⟨i, d, hview⟩, by simp⟩
      next hnot =>
        obtain ⟨l, x, r, rfl, hpath, hbelow, hfile, hpass⟩ := found_spec h
        refine ⟨b :: l, x, r, rfl, hpath, by simp [hbelow], hfile, ?_⟩
        intro a ha
        rcases List.mem_cons.mp ha with rfl | ha
        · exact fun i d => hnot i d
        · exact hpass a ha

/-- The reverse deltas that are met on the way down. -/
def deltasBelow (view : Path → Option Entry) (datapth : Path) (below : List Bu) : List Bytes :=
  below.filterMap fun b =>
    match view (deltaDir b ++ datapth) with
    | some (.file _ d) => some d
    | _ => none

theorem deltasBelow_cons_file (bs : List Bu) {view : Path → Option Entry} {datapth : Path}
    {b : Bu} {k : Nat} {d : Bytes} (h : view (deltaDir b ++ datapth) = some (.file k d)) :
    deltasBelow view datapth (b :: bs) = d :: deltasBelow view datapth bs := by
  simp only [deltasBelow, List.filterMap_cons, h]

theorem deltasBelow_cons_none (bs : List Bu) {view : Path → Option Entry} {datapth : Path}
    {b : Bu} (h : ∀ k d, view (deltaDir b ++ datapth) ≠ some (.file k d)) :
    deltasBelow view datapth (b :: bs) = deltasBelow view datapth bs := by
  unfold deltasBelow
  rw [List.filterMap_cons]
  split
  · rfl
  next d hd =>
    split at hd
    next k db hdelta => exact absurd hdelta (h k db)
    next => simp at hd

/-- The content of the file that was found, as the first patch gets to see it. -/
def original (c : Codec) (gz : Bool) (b : Bytes) : Option Bytes :=
  if gz then if b = [] then some [] else c.inflate b else some b

/-- The content that is left after all of them have been applied. -/
def patchAll (c : Codec) (gz : Bool) : List Bytes → Bytes → Option Bytes
  | [], x => some x
  | d :: ds, x => ((c.content gz d).bind (c.patch x)).bind (patchAll c gz ds)

/-- What a call makes of the file it ends up with. -/
def serve (c : Codec) (md5 : Bytes → List Char) (act : Action) (req : Request) (patches : Nat)
    (best : Path) (b : Bytes) : Reply :=
  match act with
  | .restore => sendFile c req patches b
  | .verify => verifyFile c md5 req patches best b

/-- The deltas between the wanted backup and the one that has the file. -/
def deltasFor (view : Path → Option Entry) (arr : List Bu) (i : Nat) (datapth : Path) :
    List Bytes :=
  match found view datapth (arr.drop i) [] with
  | none => []
  | some (_, below) => deltasBelow view datapth below

/-- **What a call is for**, as a function of the stored files; `none` if they are damaged. -/
def answer (c : Codec) (md5 : Bytes → List Char) (view : Path → Option Entry) (arr : List Bu)
    (i : Nat) (act : Action) (req : Request) : Option Reply :=
  match found view req.datapth (arr.drop i) [] with
  | none => some .missing
  | some (path, below) =>
      match view path, deltasBelow view req.datapth below with
      | some (.file _ b), [] => some (serve c md5 act req 0 path b)
      | some (.file _ b), d :: ds =>
          let gz := dpthIsCompressed req.compression req.datapth
          ((original c gz b).bind (patchAll c gz (d :: ds))).map
            (serve c md5 act req (ds.length + 1) path)
      | _, _ => none

/-! ## §3. The loop. -/

/-- `t` differs from `s` in the two scratch files only. -/
def Beside (s t : Node) : Prop := ∀ q, q ≠ tmp1 → q ≠ tmp2 → look t q = look s q

/-- One of the two scratch files, and the other one. -/
def Pair (best tmp : Path) : Prop := (best = tmp1 ∧ tmp = tmp2) ∨ (best = tmp2 ∧ tmp = tmp1)

theorem Pair.swap {best tmp : Path} (h : Pair best tmp) : Pair tmp best :=
  Or.symm (h.imp And.symm And.symm)

theorem Pair.toggle_eq {best tmp : Path} (h : Pair best tmp) : toggle tmp1 tmp2 tmp = best := by
  rcases h with ⟨rfl, rfl⟩ | ⟨rfl, rfl⟩ <;> rfl

theorem Pair.ne {best tmp : Path} (h : Pair best tmp) : best ≠ tmp := by
  rcases h with ⟨rfl, rfl⟩ | ⟨rfl, rfl⟩ <;> decide

theorem Pair.mem {best tmp : Path} (h : Pair best tmp) {q : Path} (h1 : q ≠ best) (h2 : q ≠ tmp) :
    q ≠ tmp1 ∧ q ≠ tmp2 := by
  rcases h with ⟨rfl, rfl⟩ | ⟨rfl, rfl⟩
  · exact ⟨h1, h2⟩
  · exact ⟨h2, h1⟩

theorem Pair.parent {best tmp : Path} (h : Pair best tmp) : tmp.dropLast = [] := by
  rcases h with ⟨rfl, rfl⟩ | ⟨rfl, rfl⟩ <;> rfl

/-- Files of a backup are not scratch files. -/
theorem backup_ne_tmp (b : Bu) (datapth : Path) {best tmp : Path} (h : Pair best tmp) :
    deltaDir b ++ datapth ≠ tmp ∧ dataDir b ++ datapth ≠ tmp := by
  rcases h with ⟨rfl, rfl⟩ | ⟨rfl, rfl⟩ <;> simp [deltaDir, dataDir, tmp1, tmp2]

/-- Between two patches: `best` holds the content so far and `tmp` is free. -/
structure Running (s t : Node) (best tmp : Path) (x : Bytes) : Prop where
  beside : Beside s t
  root : IsDir t []
  wf : t.WF
  content : ∃ i, look t best = some (.file i x)
  own : Own t best
  free : look t tmp = none

section Loop

variable {c : Codec} (hc : c.Lawful) {s t : Node} {best tmp : Path} {compression : Int}

include hc

/-- One patch, and the removal of what it was made from. -/
theorem patch_step (hpair : Pair best tmp) (hbeside : Beside s t) (hroot : IsDir t [])
    (hwf : t.WF) {i : Nat} {x : Bytes} (hbest : look t best = some (.file i x)) (hown : Own t tmp)
    {b : Bu} {datapth : Path} {k : Nat} {db y : Bytes}
    (hdelta : look s (deltaDir b ++ datapth) = some (.file k db))
    (hy : (c.content (dpthIsCompressed compression (deltaDir b ++ datapth)) db).bind (c.patch x)
      = some y) :
    Spec (doPatch c best (deltaDir b ++ datapth) tmp 0 compression) t (fun _ => True)
      fun ok u => ok = true ∧ Running s ((unlink best).final u) tmp best y := by
  obtain ⟨d, hd, hpatch⟩ := Option.bind_eq_some_iff.mp hy
  have hne := backup_ne_tmp b datapth hpair
  have hne' := backup_ne_tmp b datapth hpair.swap
  have hdelta' : look t (deltaDir b ++ datapth) = some (.file k db) := by
    have := hpair.mem hne'.1 hne.1
    rw [hbeside _ this.1 this.2, hdelta]
  refine (doPatch_spec hc hbest hdelta' hd hpatch
    (hown.scratch (by rw [hpair.parent]; exact hroot)) hpair.ne hne.1 trivial
    fun _ _ _ _ _ => trivial).mono (fun _ h => h) ?_
  rintro ok u - ⟨hok, m, hput⟩
  have henc : c.encode 0 y = y := rfl
  rw [henc] at hput
  have hnil : best ≠ [] := by
    rcases hpair with ⟨rfl, -⟩ | ⟨rfl, -⟩ <;> decide
  have hbestu : look u best = some (.file i x) := (hput.look_ne hpair.ne).trans hbest
  obtain ⟨-, hlook, -⟩ := unlink_file hnil hbestu
  have htmp : look ((unlink best).final u) tmp = some (.file m y) := by
    rw [hlook, if_neg (Ne.symm hpair.ne)]
    exact hput.look_self
  refine ⟨hok, ?_, ?_, unlink_wf (hput.wf hwf), ⟨m, htmp⟩, ⟨Or.inr ⟨m, y, htmp⟩, ?_⟩, ?_⟩
  · intro q h1 h2
    have hq : q ≠ best ∧ q ≠ tmp := by
      rcases hpair with ⟨rfl, rfl⟩ | ⟨rfl, rfl⟩
      · exact ⟨h1, h2⟩
      · exact ⟨h2, h1⟩
    rw [hlook, if_neg hq.1, hput.look_ne hq.2]
    exact hbeside q h1 h2
  · have h0 : ([] : Path) ≠ tmp := by
      rcases hpair with ⟨-, rfl⟩ | ⟨-, rfl⟩ <;> decide
    unfold IsDir at hroot ⊢
    rw [hlook, if_neg (Ne.symm hnil), hput.look_ne h0]
    exact hroot
  · -- private: removing a link makes no new ones
    intro i' d' hi r e hr
    have hpriv := (Own.of_put hput).2
    rw [hlook, if_neg (Ne.symm hpair.ne)] at hi
    rw [hlook] at hr
    by_cases hrb : r = best
    · rw [if_pos hrb] at hr
      simp at hr
    · rw [if_neg hrb] at hr
      exact hpriv i' d' hi r e hr
  · rw [hlook, if_pos rfl]

/-- **The loop once it is running**: one scratch file is left, and which one depends on
the number of patches. -/
theorem applyDeltas_patched {datapth : Path} {gz : Bool}
    (hgz : ∀ b : Bu, dpthIsCompressed compression (deltaDir b ++ datapth) = gz) :
    ∀ (below : List Bu) (best tmp : Path) (t : Node) (x y : Bytes) (patches : Nat),
      Pair best tmp → Running s t best tmp x → patches ≠ 0 →
      patchAll c gz (deltasBelow (look s) datapth below) x = some y →
      ∃ best' tmp', Pair best' tmp'
        ∧ (applyDeltas c compression datapth tmp1 tmp2 below best tmp patches).result t
          = some (best', patches + (deltasBelow (look s) datapth below).length)
        ∧ Running s ((applyDeltas c compression datapth tmp1 tmp2 below best tmp patches).final t)
            best' tmp' y
        ∧ (best' = best ↔ (deltasBelow (look s) datapth below).length % 2 = 0) := by
  intro below
  induction below with
  | nil =>
      intro best tmp t x y patches hpair hrun _ hy
      simp only [deltasBelow, List.filterMap_nil, patchAll, Option.some.injEq] at hy
      subst hy
      exact ⟨best, tmp, hpair, rfl, hrun, by simp [deltasBelow]⟩
  | cons b bs ih =>
      intro best tmp t x y patches hpair hrun hp hy
      have hview : look t (deltaDir b ++ datapth) = look s (deltaDir b ++ datapth) := by
        have := hpair.mem (backup_ne_tmp b datapth hpair.swap).1 (backup_ne_tmp b datapth hpair).1
        exact hrun.beside _ this.1 this.2
      by_cases hfile : ∃ k db, look s (deltaDir b ++ datapth) = some (.file k db)
      · -- a delta: patch, and go on with the roles swapped
        obtain ⟨k, db, hdelta⟩ := hfile
        have hds := deltasBelow_cons_file bs hdelta
        rw [hds, patchAll] at hy
        obtain ⟨z, hz, hrest⟩ := Option.bind_eq_some_iff.mp hy
        obtain ⟨i, hbest⟩ := hrun.content
        have hstep := (patch_step hc hpair hrun.beside hrun.root hrun.wf hbest
          (Own.of_absent hrun.free) hdelta (by rw [hgz]; exact hz)).post
        obtain ⟨hok, hnext⟩ := hstep
        obtain ⟨best', tmp', hpair', hres, hend, hparity⟩ :=
          ih tmp best _ z y (patches + 1) hpair.swap hnext (by omega) hrest
        have hrunEq : applyDeltas c compression datapth tmp1 tmp2 (b :: bs) best tmp patches t
            = (doPatch c best (deltaDir b ++ datapth) tmp 0 compression >>= fun ok =>
                if ok then unlink best >>= fun _ =>
                  applyDeltas c compression datapth tmp1 tmp2 bs tmp best (patches + 1)
                else pure none) t := by
          conv_lhs => unfold applyDeltas isReg
          rw [Prog.read_bind]
          simp only [hview, hdelta, if_true, if_neg hp, hpair.toggle_eq]
          rfl
        refine ⟨best', tmp', hpair', ?_, ?_, ?_⟩
        · rw [Prog.result_congr hrunEq, Prog.result_bind, hok, if_pos rfl, Prog.result_bind, hres,
            hds, List.length_cons]
          congr 2
          omega
        · rw [Prog.final_congr hrunEq, Prog.final_bind, hok, if_pos rfl, Prog.final_bind]
          exact hend
        · rw [hds, List.length_cons]
          have hne := hpair.ne
          have hcases : best' = best ∨ best' = tmp := by
            rcases hpair with ⟨rfl, rfl⟩ | ⟨rfl, rfl⟩
            · exact hpair'.imp And.left And.left
            · exact (hpair'.imp And.left And.left).symm
          constructor
          · intro h
            have : ¬ best' = tmp := by rw [h]; exact hne
            rw [hparity] at this
            omega
          · intro h
            have : ¬ best' = tmp := by rw [hparity]; omega
            exact hcases.resolve_right this
      · -- no delta here
        have hnot : ∀ i d, look s (deltaDir b ++ datapth) ≠ some (.file i d) :=
          fun i d h => hfile ⟨i, d, h⟩
        have hds := deltasBelow_cons_none bs hnot
        have hskip : applyDeltas c compression datapth tmp1 tmp2 (b :: bs) best tmp patches t
            = applyDeltas c compression datapth tmp1 tmp2 bs best tmp patches t := by
          conv_lhs => unfold applyDeltas isReg
          rw [Prog.read_bind]
          simp only [hview, Bool.false_eq_true, if_false]
        rw [hds] at hy ⊢
        obtain ⟨best', tmp', hpair', hres, hend, hparity⟩ :=
          ih best tmp t x y patches hpair hrun hp hy
        refine ⟨best', tmp', hpair', ?_, ?_, hparity⟩
        · rw [Prog.result_congr hskip, hres]
        · rw [Prog.final_congr hskip]
          exact hend

end Loop

/-! ## §4. The whole call. -/

/-- Between two calls: nothing but the scratch files has changed, and `left` says whether
tmp1 is there. -/
structure Idle (s t : Node) (left : Bool) : Prop where
  beside : Beside s t
  root : IsDir t []
  wf : t.WF
  own1 : Own t tmp1
  own2 : Own t tmp2
  left : look t tmp1 = none ↔ left = false

theorem Running.idle {s t : Node} {best tmp : Path} {x : Bytes} (hpair : Pair best tmp)
    (h : Running s t best tmp x) : Idle s t (decide (best = tmp1)) := by
  obtain ⟨i, hbest⟩ := h.content
  have hfree := Own.of_absent h.free
  rcases hpair with ⟨rfl, rfl⟩ | ⟨rfl, rfl⟩
  · refine ⟨h.beside, h.root, h.wf, h.own, hfree, ?_⟩
    rw [hbest]
    simp
  · refine ⟨h.beside, h.root, h.wf, hfree, h.own, ?_⟩
    have hne : tmp2 ≠ tmp1 := by decide
    rw [h.free]
    simp [hne]

section Call

variable {c : Codec} (hc : c.Lawful) {s t : Node} {left : Bool}

theorem Idle.view (h : Idle s t left) (b : Bu) (datapth : Path) :
    look t (deltaDir b ++ datapth) = look s (deltaDir b ++ datapth)
      ∧ look t (dataDir b ++ datapth) = look s (dataDir b ++ datapth) := by
  have h1 := backup_ne_tmp b datapth (Or.inr ⟨rfl, rfl⟩ : Pair tmp2 tmp1)
  have h2 := backup_ne_tmp b datapth (Or.inl ⟨rfl, rfl⟩ : Pair tmp1 tmp2)
  exact ⟨h.beside _ h1.1 h2.1, h.beside _ h1.2 h2.2⟩

/-- A backup without a delta is passed over. -/
theorem applyDeltas_skip (c : Codec) (compression : Int) (bs : List Bu) (best tmp : Path)
    (patches : Nat) {datapth : Path} {b : Bu}
    (h : ∀ k d, look t (deltaDir b ++ datapth) ≠ some (.file k d)) :
    applyDeltas c compression datapth tmp1 tmp2 (b :: bs) best tmp patches t
      = applyDeltas c compression datapth tmp1 tmp2 bs best tmp patches t := by
  conv_lhs => unfold applyDeltas isReg
  rw [Prog.read_bind]
  simp only [Bool.false_eq_true, if_false]

/-- The first delta: `best` goes to tmp1 and is patched into tmp2. -/
theorem applyDeltas_first_eq (c : Codec) (compression : Int) (bs : List Bu) (best : Path)
    {datapth : Path} {b : Bu} {k : Nat} {d : Bytes}
    (h : look t (deltaDir b ++ datapth) = some (.file k d)) :
    applyDeltas c compression datapth tmp1 tmp2 (b :: bs) best tmp1 0 t
      = (inflateOrLinkOldfile c best tmp1 compression >>= fun ok =>
          if ok then doPatch c tmp1 (deltaDir b ++ datapth) tmp2 0 compression >>= fun ok =>
            if ok then unlink tmp1 >>= fun _ =>
              applyDeltas c compression datapth tmp1 tmp2 bs tmp2 tmp1 1
            else pure none
          else pure none) t := by
  have htog1 : toggle tmp1 tmp2 tmp1 = tmp2 := rfl
  have htog2 : toggle tmp1 tmp2 tmp2 = tmp1 := rfl
  conv_lhs => unfold applyDeltas isReg
  rw [Prog.read_bind]
  simp only [h, if_true, htog1, htog2]

include hc

/-- Making tmp1 from the file that was found. -/
theorem inflateOrLinkOldfile_spec (h : Idle s t left) {compression : Int} {path : Path} {i : Nat}
    {b x : Bytes} (hpath : look s path = some (.file i b)) (hne1 : path ≠ tmp1)
    (hne2 : path ≠ tmp2) (hx : original c (dpthIsCompressed compression path) b = some x)
    (hfree : dpthIsCompressed compression path = true ∨ left = false) :
    Spec (inflateOrLinkOldfile c path tmp1 compression) t (fun _ => True) fun ok u =>
      ok = true ∧ Beside s u ∧ IsDir u [] ∧ u.WF ∧ Own u tmp2
        ∧ ∃ k, look u tmp1 = some (.file k x) := by
  have hpatht : look t path = some (.file i b) := (h.beside path hne1 hne2).trans hpath
  have h12 : tmp2 ≠ tmp1 := by decide
  have h01 : ([] : Path) ≠ tmp1 := by decide
  have hroot : IsDir t tmp1.dropLast := h.root
  unfold inflateOrLinkOldfile
  cases hgz : dpthIsCompressed compression path with
  | true =>
      rw [hgz] at hx
      have hx' : if b = [] then x = [] else c.inflate b = some x := by
        rw [original, if_pos rfl] at hx
        split_ifs at hx ⊢ with hb
        · simpa using hx.symm
        · exact hx
      refine (inflate_spec hc hgz hpatht hx' (h.own1.scratch hroot) hne1 trivial
        fun _ _ _ _ _ => trivial).mono (fun _ hu => hu) ?_
      rintro ok u - ⟨hok, k, hput⟩
      refine ⟨hok, fun q h1 h2 => (hput.look_ne h1).trans (h.beside q h1 h2), ?_, hput.wf h.wf,
        h.own2.changed hput (Or.inr ⟨k, x, rfl⟩), k, hput.look_self⟩
      exact (hput.look_ne h01).trans h.root
  | false =>
      rw [hgz] at hx hfree
      have hgone : look t tmp1 = none := h.left.mpr (hfree.resolve_left Bool.false_ne_true)
      obtain rfl : b = x := by simpa [original] using hx
      obtain ⟨hres, hlook, -⟩ := link_file hpatht hgone hroot
      have hne : ∀ {q}, q ≠ tmp1 → look ((link path tmp1).final t) q = look t q :=
        fun hq => (hlook _).trans (if_neg hq)
      refine inflateOrLink_plain hgz hpatht (Spec.op trivial trivial ⟨hres,
        fun q h1 h2 => (hne h1).trans (h.beside q h1 h2), (hne h01).trans h.root, link_wf h.wf, ?_,
        i, (hlook _).trans (if_pos rfl)⟩)
      have htmp2 : look (linkAt path tmp1 t).1 tmp2 = look t tmp2 := hne h12
      refine ⟨by rw [htmp2]; exact h.own2.1, ?_⟩
      intro k d hk r e hr
      rw [htmp2] at hk
      by_cases hr1 : r = tmp1
      · -- the new link is of a stored file, which is not tmp2
        have hr' : look ((link path tmp1).final t) r = some (.file k e) := hr
        rw [hlook, if_pos hr1] at hr'
        simp only [Option.some.injEq, Entry.file.injEq] at hr'
        exact absurd (h.own2.2 k d hk path b (by rw [hpatht, hr'.1])) hne2
      · have hr' : look ((link path tmp1).final t) r = some (.file k e) := hr
        rw [hne hr1] at hr'
        exact h.own2.2 k d hk r e hr'

/-- The way down from the file that was found. -/
theorem applyDeltas_spec {compression : Int} {datapth : Path} {gz : Bool}
    (hgz : ∀ d : Path, dpthIsCompressed compression (d ++ datapth) = gz) (h : Idle s t left)
    {p0 : Bu} {i : Nat} {b x y : Bytes}
    (hpath : look s (dataDir p0 ++ datapth) = some (.file i b)) (hx : original c gz b = some x)
    (hfree : gz = true ∨ left = false) :
    ∀ (below : List Bu), deltasBelow (look s) datapth below ≠ [] →
      patchAll c gz (deltasBelow (look s) datapth below) x = some y →
      ∃ best tmp, Pair best tmp
        ∧ (applyDeltas c compression datapth tmp1 tmp2 below
            (dataDir p0 ++ datapth) tmp1 0).result t
          = some (best, (deltasBelow (look s) datapth below).length)
        ∧ Running s ((applyDeltas c compression datapth tmp1 tmp2 below (dataDir p0 ++ datapth)
            tmp1 0).final t) best tmp y
        ∧ (best = tmp1 ↔ (deltasBelow (look s) datapth below).length % 2 = 0) := by
  have hpair21 : Pair tmp2 tmp1 := Or.inr ⟨rfl, rfl⟩
  have hpair12 : Pair tmp1 tmp2 := Or.inl ⟨rfl, rfl⟩
  have hn1 := (backup_ne_tmp p0 datapth hpair21).2
  have hn2 := (backup_ne_tmp p0 datapth hpair12).2
  intro below
  induction below with
  | nil => intro hne; exact absurd rfl hne
  | cons a as ih =>
      intro hne hy
      by_cases hfile : ∃ k d, look s (deltaDir a ++ datapth) = some (.file k d)
      · obtain ⟨k, d, hdelta⟩ := hfile
        rw [deltasBelow_cons_file as hdelta] at hy ⊢
        obtain ⟨z, hz, hrest⟩ := Option.bind_eq_some_iff.mp hy
        have heq := applyDeltas_first_eq c compression as (dataDir p0 ++ datapth)
          ((h.view a datapth).1.trans hdelta)
        obtain ⟨hok, hbeside, hroot, hwf, hown, k1, htmp⟩ := (inflateOrLinkOldfile_spec hc h hpath
          hn1 hn2 (by rw [hgz]; exact hx) (by rw [hgz]; exact hfree)).post
        obtain ⟨hok2, hrun⟩ := (patch_step hc hpair12 hbeside hroot hwf htmp hown hdelta
          (by rw [hgz]; exact hz)).post
        obtain ⟨best, tmp, hpair, hres, hend, hparity⟩ := applyDeltas_patched hc
          (fun b => hgz (deltaDir b)) as tmp2 tmp1 _ z y 1 hpair21 hrun one_ne_zero hrest
        refine ⟨best, tmp, hpair, ?_, ?_, ?_⟩
        · rw [Prog.result_congr heq, Prog.result_bind, hok, if_pos rfl, Prog.result_bind, hok2,
            if_pos rfl, Prog.result_bind, hres, List.length_cons, Nat.add_comm]
        · rw [Prog.final_congr heq, Prog.final_bind, hok, if_pos rfl, Prog.final_bind, hok2,
            if_pos rfl, Prog.final_bind]
          exact hend
        · rw [List.length_cons]
          have h12 : tmp1 ≠ tmp2 := by decide
          have hcases : best = tmp1 ∨ best = tmp2 := hpair.imp And.left And.left
          constructor
          · rintro rfl
            have : ¬ tmp1 = tmp2 := h12
            rw [hparity] at this
            omega
          · intro hlen
            have : ¬ best = tmp2 := by rw [hparity]; omega
            exact hcases.resolve_right this
      · have hnot : ∀ k d, look s (deltaDir a ++ datapth) ≠ some (.file k d) :=
          fun k d hd => hfile ⟨k, d, hd⟩
        rw [deltasBelow_cons_none as hnot] at hne hy ⊢
        have heq := applyDeltas_skip c compression as (dataDir p0 ++ datapth) tmp1 0
            (fun k d => by rw [(h.view a datapth).1]; exact hnot k d)
        obtain ⟨best, tmp, hpair, hres, hend, hparity⟩ := ih hne hy
        refine ⟨best, tmp, hpair, (Prog.result_congr heq).trans hres, ?_, hparity⟩
        rw [Prog.final_congr heq]
        exact hend

omit hc in
/-- Without deltas nothing is done. -/
theorem applyDeltas_none (compression : Int) (datapth best tmp : Path) :
    ∀ (below : List Bu), deltasBelow (look t) datapth below = [] →
      applyDeltas c compression datapth tmp1 tmp2 below best tmp 0 t = ([], some (best, 0))
  | [], _ => rfl
  | b :: bs, h => by
      by_cases hfile : ∃ k d, look t (deltaDir b ++ datapth) = some (.file k d)
      · obtain ⟨k, d, hd⟩ := hfile
        rw [deltasBelow_cons_file bs hd] at h
        simp at h
      · have hnot : ∀ k d, look t (deltaDir b ++ datapth) ≠ some (.file k d) :=
          fun k d hd => hfile ⟨k, d, hd⟩
        rw [deltasBelow_cons_none bs hnot] at h
        rw [applyDeltas_skip c compression bs best tmp 0 hnot]
        exact applyDeltas_none compression datapth best tmp bs h

omit hc in
/-- An uncompressed file cannot be linked over the tmp1 of the call before. -/
theorem applyDeltas_blocked {compression : Int} {datapth best : Path} {e : Entry}
    (hplain : dpthIsCompressed compression best = false) (hbest : look t best = some e)
    (htmp : look t tmp1 ≠ none) :
    ∀ (below : List Bu), deltasBelow (look t) datapth below ≠ [] →
      (applyDeltas c compression datapth tmp1 tmp2 below best tmp1 0).result t = none
  | [], h => absurd rfl h
  | b :: bs, h => by
      by_cases hfile : ∃ k d, look t (deltaDir b ++ datapth) = some (.file k d)
      · obtain ⟨k, d, hd⟩ := hfile
        have hlink : Spec (inflateOrLinkOldfile c best tmp1 compression) t (fun _ => True)
            fun ok _ => ok = false :=
          inflateOrLink_plain hplain hbest (Spec.op trivial trivial (link_exists htmp).1)
        rw [Prog.result_congr (applyDeltas_first_eq c compression bs best hd), Prog.result_bind,
          hlink.post]
        rfl
      · have hnot : ∀ k d, look t (deltaDir b ++ datapth) ≠ some (.file k d) :=
          fun k d hd => hfile ⟨k, d, hd⟩
        rw [deltasBelow_cons_none bs hnot] at h
        rw [Prog.result_congr (applyDeltas_skip c compression bs best tmp1 0 hnot)]
        exact applyDeltas_blocked hplain hbest htmp bs h

end Call

/-! ## §5. `restore_file`. -/

/-- The end of a call. -/
def finish (c : Codec) (md5 : Bytes → List Char) (act : Action) (req : Request) :
    Option (Path × Nat) → Prog Node (Option Reply)
  | none => pure none
  | some (best, patches) => do
      match act, ← readFile best with
      | .restore, none => pure none
      | .restore, some b => pure (some (sendFile c req patches b))
      | .verify, none => pure (some .unreadable)
      | .verify, some b => pure (some (verifyFile c md5 req patches best b))

section Whole

variable {c : Codec} {md5 : Bytes → List Char} {arr : List Bu} {i : Nat} {act : Action}
  {req : Request} {s t : Node} {left : Bool}

theorem restoreFile_missing (h : found (look t) req.datapth (arr.drop i) [] = none) :
    restoreFile c md5 arr i act req t = ([], some .missing) := by
  have hfind := findData_eq req.datapth t (arr.drop i) []
  rw [h] at hfind
  exact Prog.still_bind hfind _

theorem restoreFile_found {path : Path} {below : List Bu}
    (h : found (look t) req.datapth (arr.drop i) [] = some (path, below)) :
    restoreFile c md5 arr i act req t
      = (applyDeltas c req.compression req.datapth tmp1 tmp2 below path tmp1 0
          >>= finish c md5 act req) t := by
  have hfind := findData_eq req.datapth t (arr.drop i) []
  rw [h] at hfind
  exact Prog.still_bind hfind _

theorem finish_file {best : Path} {k patches : Nat} {b : Bytes}
    (h : look t best = some (.file k b)) :
    finish c md5 act req (some (best, patches)) t
      = ([], some (serve c md5 act req patches best b)) := by
  have hread : readFile best t = ([], some b) := by
    simp only [readFile, Prog.read, h]
  refine (Prog.still_bind hread _).trans ?_
  cases act <;> rfl

theorem finish_result {best : Path} {k patches : Nat} {b : Bytes}
    (h : look t best = some (.file k b)) :
    (finish c md5 act req (some (best, patches))).result t
      = some (serve c md5 act req patches best b) :=
  congrArg Prod.snd (finish_file h)

theorem finish_final {best : Path} {k patches : Nat} {b : Bytes}
    (h : look t best = some (.file k b)) :
    (finish c md5 act req (some (best, patches))).final t = t := by
  unfold Prog.final Prog.visited
  rw [finish_file h]
  rfl

/-- After a patch the verification does not look at the name of the file. -/
theorem serve_patched {patches : Nat} (h : patches ≠ 0) (p q : Path) (b : Bytes) :
    serve c md5 act req patches p b = serve c md5 act req patches q b := by
  cases act
  · rfl
  · simp only [serve, verifyFile, h, ne_eq, not_false_eq_true, decide_true, Bool.true_or]

/-- Files of backups are the same between two calls. -/
theorem found_congr {view view' : Path → Option Entry} {datapth : Path}
    (h : ∀ b, view' (dataDir b ++ datapth) = view (dataDir b ++ datapth)) :
    ∀ bs below, found view' datapth bs below = found view datapth bs below
  | [], _ => rfl
  | b :: bs, below => by
      unfold found
      rw [h]
      split
      · rfl
      · exact found_congr h bs (b :: below)

theorem deltasBelow_congr {view view' : Path → Option Entry} {datapth : Path}
    (h : ∀ b, view' (deltaDir b ++ datapth) = view (deltaDir b ++ datapth)) (below : List Bu) :
    deltasBelow view' datapth below = deltasBelow view datapth below := by
  simp only [deltasBelow, h]

theorem Idle.found_eq (h : Idle s t left) (datapth : Path) (bs below : List Bu) :
    found (look t) datapth bs below = found (look s) datapth bs below :=
  found_congr (fun b => (h.view b datapth).2) bs below

theorem Idle.deltas_eq (h : Idle s t left) (datapth : Path) (below : List Bu) :
    deltasBelow (look t) datapth below = deltasBelow (look s) datapth below :=
  deltasBelow_congr (fun b => (h.view b datapth).1) below

/-- tmp1 after the call. -/
def leftAfter (left : Bool) (n : Nat) : Bool := if n = 0 then left else decide (n % 2 = 0)

/-- **One call**: it does what it is for, and leaves tmp1 behind after an even number of
patches. -/
theorem restoreFile_spec (hc : c.Lawful) (h : Idle s t left) (hd : req.datapth ≠ []) {r : Reply}
    (hr : answer c md5 (look s) arr i act req = some r)
    (hfree : deltasFor (look s) arr i req.datapth = []
      ∨ dpthIsCompressed req.compression req.datapth = true ∨ left = false) :
    (restoreFile c md5 arr i act req).result t = some r
      ∧ Idle s ((restoreFile c md5 arr i act req).final t)
          (leftAfter left (deltasFor (look s) arr i req.datapth).length) := by
  unfold answer at hr
  unfold deltasFor at hfree ⊢
  have hfoundt := h.found_eq req.datapth (arr.drop i) []
  cases hfound : found (look s) req.datapth (arr.drop i) [] with
  | none =>
      rw [hfound] at hr hfoundt
      have heq : restoreFile c md5 arr i act req t = (pure (some .missing) : Prog _ _) t :=
        restoreFile_missing hfoundt
      rw [Prog.result_congr heq, Prog.final_congr heq]
      exact ⟨hr, h⟩
  | some pb =>
      obtain ⟨path, below⟩ := pb
      rw [hfound] at hr hfoundt
      simp only [hfound] at hfree ⊢
      have heq : restoreFile c md5 arr i act req t = (applyDeltas c req.compression req.datapth tmp1
          tmp2 below path tmp1 0 >>= finish c md5 act req) t := restoreFile_found hfoundt
      rw [Prog.result_congr heq, Prog.final_congr heq, Prog.result_bind, Prog.final_bind]
      obtain ⟨-, p0, -, -, hpath, -, ⟨k, b, hb⟩, -⟩ := found_spec hfound
      simp only [hb] at hr
      cases hds : deltasBelow (look s) req.datapth below with
      | nil =>
          rw [hds] at hr
          have hstill : applyDeltas c req.compression req.datapth tmp1 tmp2 below path tmp1 0 t
              = (pure (some (path, 0)) : Prog Node (Option (Path × Nat))) t :=
            applyDeltas_none _ _ _ _ _ (by rw [h.deltas_eq, hds])
          have hbt : look t path = some (.file k b) := by rw [hpath, (h.view _ _).2, ← hpath, hb]
          rw [Prog.result_congr hstill, Prog.final_congr hstill, Prog.result_pure, Prog.final_pure,
            finish_result hbt, finish_final hbt]
          exact ⟨hr, h⟩
      | cons d ds =>
          simp only [hds] at hr hfree
          obtain ⟨y, hy, hserve⟩ := Option.map_eq_some_iff.mp hr
          obtain ⟨x, hx, hxy⟩ := Option.bind_eq_some_iff.mp hy
          have hgz : ∀ d : Path, dpthIsCompressed req.compression (d ++ req.datapth)
              = dpthIsCompressed req.compression req.datapth := fun _ => dpthIsCompressed_append hd
          obtain ⟨best, tmp, hpair, hres, hrun, hparity⟩ := applyDeltas_spec hc hgz h
            (hpath ▸ hb) hx (hfree.resolve_left (by simp)) below (by simp [hds])
            (by rw [hds]; exact hxy)
          rw [← hpath, hds] at hres
          rw [← hpath] at hrun
          rw [hds] at hparity
          obtain ⟨m, hbest⟩ := hrun.content
          rw [hres, finish_result hbest, finish_final hbest, List.length_cons,
            serve_patched (Nat.succ_ne_zero _) best path, hserve]
          refine ⟨rfl, ?_⟩
          have hleft : leftAfter left (ds.length + 1) = decide (best = tmp1) := by
            rw [leftAfter, if_neg (Nat.succ_ne_zero _)]
            simpa using hparity.symm
          rw [hleft]
          exact hrun.idle hpair

/-- An uncompressed file that needs patches is not restored while tmp1 is there. -/
theorem restoreFile_blocked (h : Idle s t true) (hd : req.datapth ≠ [])
    (hds : deltasFor (look s) arr i req.datapth ≠ [])
    (hplain : dpthIsCompressed req.compression req.datapth = false) :
    (restoreFile c md5 arr i act req).result t = none := by
  unfold deltasFor at hds
  have hfoundt := h.found_eq req.datapth (arr.drop i) []
  cases hfound : found (look s) req.datapth (arr.drop i) [] with
  | none => simp [hfound] at hds
  | some pb =>
      obtain ⟨path, below⟩ := pb
      rw [hfound] at hfoundt
      simp only [hfound] at hds
      obtain ⟨-, p0, -, -, hpath, -, ⟨k, b, hb⟩, -⟩ := found_spec hfound
      have hbt : look t path = some (.file k b) := by rw [hpath, (h.view _ _).2, ← hpath, hb]
      have htmp : look t tmp1 ≠ none := fun hn => by simpa using h.left.mp hn
      have hblock := applyDeltas_blocked (c := c)
          (by rw [hpath, dpthIsCompressed_append hd, hplain])
        hbt htmp below (by rw [h.deltas_eq]; exact hds)
      rw [Prog.result_congr (restoreFile_found hfoundt), Prog.result_bind, hblock]
      rfl

end Whole

end Burp.Restore
