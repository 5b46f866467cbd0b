/-
  Burp.Store.Duplicate — `recursive_hardlink` where its operations can fail.

  Phase 4 duplicates the current backup with hard links before it changes anything, and
  goes on only if `recursive_hardlink` returns 0.  Here any subset of the operations on the
  way can fail.  The loop over a directory ends with `break` after an error, and returns an
  error if the index that it has stopped at is positive.  Three failures do not get that
  far: an `lstat` that fails is only logged, a copy that a read error or `fclose` cuts short
  counts as done, and the entry with index 0 breaks the loop unnoticed.

  Main results:
    * `recursiveHardlink_spec` — what is returned, and what is there then.
    * `reports_iff`, `loses_iff` — which failures that comes from.
    * `duplicate_complete_iff` — for which failures a return value of 0 can be trusted.
-/
import Burp.Store.Recursive

namespace Burp.Store.Faulty

open Crash FileSystem

/-! ## §1. The code. -/

/-- How a copy of `duplicate_file` can fail: a file cannot be opened, a write is short, or a
read error or the final `fclose` keeps all but the first `k` bytes from arriving. -/
inductive CopyFault
  | none
  | refused
  | short (k : Nat)
  | cut (k : Nat)

/-- What the system does to a duplication.  Paths are relative to the directory that is
duplicated. -/
structure Faults where
  /-- How many of "." and ".." `scandir` lists in a directory before the other entry with
  the given index. -/
  dots : Path → Nat → Nat
  lstat : Path → Bool
  mkpath : Path → Bool
  scandir : Path → Bool
  link : Path → Bool
  copy : Path → CopyFault
  /-- `st_nlink`, as `lstat` reports it. -/
  nlink : Path → Nat
  /-- What is read through a symbolic link, if there is something. -/
  follow : Path → Option Bytes

/-- The bytes that arrive, and whether `duplicate_file` returns an error. -/
def CopyFault.outcome (d : Bytes) : CopyFault → Bytes × Bool
  | .none => (d, false)
  | .refused => ([], true)
  | .short k => (d.take k, decide (k < d.length))
  | .cut k => (d.take k, false)

/-- Not all of the bytes arrive. -/
def CopyFault.loses (d : Bytes) : CopyFault → Bool
  | .none => false
  | .refused => true
  | .short k => decide (k < d.length)
  | .cut k => decide (k < d.length)

/-- `duplicate_file` of a file with these bytes. -/
def duplicateFile (c : Codec) (fault : CopyFault) (source : Option Bytes) (newpath : Path) :
    Prog Node Bool :=
  match source, fault with
  | none, _ => pure false
  | some _, .refused => pure false
  | some d, fault => do
      match ← openWrite newpath with
      | none => pure false
      | some i =>
          appendAll i (c.pieces (fault.outcome d).1)
          pure (!(fault.outcome d).2)

/-- What is read from the entry at the path `p`. -/
def source (f : Faults) (p : Path) : Node → Option Bytes
  | .file _ d => some d
  | .symlink _ => f.follow p
  | .dir _ => none

/-- `do_link`. -/
def doLink (c : Codec) (conf : Conf) (f : Faults) (src dst p : Path) (n : Node) :
    Prog Node Bool :=
  if conf.maxHardlinks ≤ f.nlink p then duplicateFile c (f.copy p) (source f p n) (dst ++ p)
  else if f.link p then pure false
  else link (src ++ p) (dst ++ p)

mutual

/-- `recursive_hardlink` of the directory at the path `p`, in which there is the given
node. -/
def recursiveHardlink (c : Codec) (conf : Conf) (f : Faults) (src dst p : Path) :
    Node → Prog Node Bool
  | .dir es => do
      if f.mkpath p then pure false
      else if ← Store.mkpath (dst ++ p ++ ["dummy"]) (dst ++ p) then
        if f.scandir p then pure false
        else
          let walk ← linkEntries c conf f src dst p 0 es
          pure (!walk.failed)
      else pure false
  | .file _ _ => pure false
  | .symlink _ => pure false

/-- The loop over the entries from the index `k` on. -/
def linkEntries (c : Codec) (conf : Conf) (f : Faults) (src dst p : Path) (k : Nat) :
    List (String × Node) → Prog Node Walk
  | [] => pure none
  | (x, n) :: es => do
      match ← linkEntries c conf f src dst p (k + 1) es with
      | some j => pure (some j)
      | none =>
          if f.lstat (p ++ [x]) then pure none
          else
            match n with
            | .dir fs =>
                if ← recursiveHardlink c conf f src dst (p ++ [x]) (.dir fs) then pure none
                else pure (some (k + f.dots p k))
            | n =>
                if ← doLink c conf f src dst (p ++ [x]) n then pure none
                else pure (some (k + f.dots p k))

end

/-! ## §2. What the failures lead to. -/

mutual

/-- An error is returned for an entry. -/
def reports (conf : Conf) (f : Faults) (p : Path) : Node → Bool
  | .dir es => f.mkpath p || f.scandir p || reportsIn conf f p 0 es
  | .file _ d =>
      if conf.maxHardlinks ≤ f.nlink p then ((f.copy p).outcome d).2 else f.link p
  | .symlink _ =>
      if conf.maxHardlinks ≤ f.nlink p then
        match f.follow p with
        | none => true
        | some d => ((f.copy p).outcome d).2
      else f.link p

/-- An error is returned for an entry whose index is positive. -/
def reportsIn (conf : Conf) (f : Faults) (p : Path) (k : Nat) : List (String × Node) → Bool
  | [] => false
  | (x, n) :: es =>
      (decide (0 < k + f.dots p k) && !f.lstat (p ++ [x]) && reports conf f (p ++ [x]) n)
        || reportsIn conf f p (k + 1) es

end

/-- An error ends the loop, whatever the index is. -/
def breaks (conf : Conf) (f : Faults) (p : Path) (es : List (String × Node)) : Bool :=
  es.any fun e => !f.lstat (p ++ [e.1]) && reports conf f (p ++ [e.1]) e.2

mutual

/-- Something of an entry is lost. -/
def loses (conf : Conf) (f : Faults) (p : Path) : Node → Bool
  | .dir es => f.mkpath p || (f.scandir p && decide (es ≠ [])) || losesIn conf f p es
  | .file _ d => if conf.maxHardlinks ≤ f.nlink p then (f.copy p).loses d else f.link p
  | .symlink _ =>
      if conf.maxHardlinks ≤ f.nlink p then
        match f.follow p with
        | none => true
        | some d => (f.copy p).loses d
      else f.link p

/-- Something of a directory is lost: an entry that is not looked at, or something of one
that is, or what comes before an error. -/
def losesIn (conf : Conf) (f : Faults) (p : Path) : List (String × Node) → Bool
  | [] => false
  | (x, n) :: es =>
      f.lstat (p ++ [x]) || loses conf f (p ++ [x]) n || breaks conf f p es
        || losesIn conf f p es

end

/-! ## §3. Single entries. -/

/-- An entry of the duplicate stands for one of the original. -/
def Same (f : Faults) (p : Path) : Entry → Entry → Prop
  | .file _ d, .file _ d' => d' = d
  | .symlink s, .symlink s' => s' = s
  | .symlink _, .file _ d' => f.follow p = some d'
  | .dir, .dir => True
  | _, _ => False

/-- The duplicate of the entry at the path `p` has everything that is in it. -/
def CompleteAt (f : Faults) (dst p : Path) (n u : Node) : Prop :=
  ∀ q e, look n q = some e → ∃ e', look u (dst ++ p ++ q) = some e' ∧ Same f (p ++ q) e e'

/-- Before the entry at the path `p` is duplicated. -/
structure Ready (src dst p : Path) (n t : Node) : Prop where
  source : ∀ q, look t (src ++ p ++ q) = look n q
  absent : look t (dst ++ p) = none
  parent : IsDir t (dst ++ p).dropLast

/-- After it has been duplicated from `t` on, with this result. -/
structure Done (conf : Conf) (f : Faults) (dst p : Path) (n t u : Node) (ok : Bool) : Prop where
  returned : ok = !reports conf f p n
  frame : ∀ r, ¬ dst ++ p <+: r → look u r = look t r
  complete : CompleteAt f dst p n u ↔ loses conf f p n = false

theorem look_nil (n : Node) : look n [] = some n.entry := by
  simp [look]

/-- Nothing is below what is not there. -/
theorem look_below_absent {t : Node} {p : Path} (h : look t p = none) (q : Path) :
    look t (p ++ q) = none := by
  unfold look
  rw [Node.get_append, get_of_look_none h]
  rfl

theorem not_completeAt_of_absent {f : Faults} {dst p : Path} {n u : Node}
    (h : look u (dst ++ p) = none) : ¬ CompleteAt f dst p n u := by
  intro hc
  obtain ⟨e', he', -⟩ := hc [] n.entry (look_nil n)
  rw [List.append_nil, h] at he'
  simp at he'

/-- A leaf is complete if its entry stands for it. -/
theorem completeAt_leaf {f : Faults} {dst p : Path} {n u : Node} (hn : ∀ es, n ≠ .dir es) :
    CompleteAt f dst p n u
      ↔ ∃ e', look u (dst ++ p) = some e' ∧ Same f p n.entry e' := by
  constructor
  · intro h
    simpa using h [] n.entry (look_nil n)
  · intro h q e hq
    have hnil : q = [] := by
      cases q with
      | nil => rfl
      | cons x q =>
          cases n with
          | file i d => simp [look, Node.get] at hq
          | symlink s => simp [look, Node.get] at hq
          | dir es => exact absurd rfl (hn es)
    subst hnil
    rw [look_nil, Option.some.injEq] at hq
    rw [← hq]
    simpa using h

/-- The bytes that arrive are all of them, unless some are lost. -/
theorem CopyFault.outcome_eq_iff {d : Bytes} {fault : CopyFault} (h : fault ≠ .refused) :
    (fault.outcome d).1 = d ↔ fault.loses d = false := by
  have htake : ∀ k, d.take k = d ↔ ¬ k < d.length := by
    intro k
    rw [List.take_eq_self_iff, not_lt]
  cases fault with
  | none => simp [CopyFault.outcome, CopyFault.loses]
  | refused => exact absurd rfl h
  | short k => simp [CopyFault.outcome, CopyFault.loses]
  | cut k => simp [CopyFault.outcome, CopyFault.loses]

section Entries

variable {conf : Conf} {f : Faults} {src dst p : Path} {n t : Node}

/-- One leaf at the destination, and everything else as it was. -/
theorem done_of_leaf {u : Node} {ok : Bool} {e' : Entry} (hn : ∀ es, n ≠ .dir es)
    (hlook : ∀ r, look u r = if r = dst ++ p then some e' else look t r)
    (hok : ok = !reports conf f p n) (hsame : Same f p n.entry e' ↔ loses conf f p n = false) :
    Done conf f dst p n t u ok where
  returned := hok
  frame := by
    intro r hr
    rw [hlook, if_neg]
    rintro rfl
    exact hr (List.prefix_refl _)
  complete := by
    rw [completeAt_leaf hn, hlook, if_pos rfl]
    simpa using hsame

/-- Nothing has been done, and something should have been. -/
theorem done_of_nothing {ok : Bool} (habsent : look t (dst ++ p) = none)
    (hok : ok = !reports conf f p n) (hl : loses conf f p n = true) :
    Done conf f dst p n t t ok where
  returned := hok
  frame := fun _ _ => rfl
  complete := by
    rw [hl]
    simpa using not_completeAt_of_absent habsent

variable {c : Codec} (hc : c.Lawful)

include hc

/-- A copy that is not refused. -/
theorem duplicateFile_open {d : Bytes} (hparent : IsDir t (dst ++ p).dropLast)
    (habsent : look t (dst ++ p) = none) {fault : CopyFault} (h : fault ≠ .refused) :
    (duplicateFile c fault (some d) (dst ++ p)).result t = !(fault.outcome d).2
      ∧ ∃ i, Put t ((duplicateFile c fault (some d) (dst ++ p)).final t) (dst ++ p) i
          (fault.outcome d).1 := by
  have hscratch := Scratch.of_absent habsent hparent
  obtain ⟨i, hres, hput⟩ := openWrite_scratch hscratch
  have hres' : (openAt true (dst ++ p) t).2 = some i := hres
  have heq : duplicateFile c fault (some d) (dst ++ p) = (do
      match ← openWrite (dst ++ p) with
      | none => pure false
      | some i =>
          appendAll i (c.pieces (fault.outcome d).1)
          pure (!(fault.outcome d).2)) := by
    cases fault with
    | refused => exact absurd rfl h
    | none => rfl
    | short k => rfl
    | cut k => rfl
  suffices hspec : Spec (duplicateFile c fault (some d) (dst ++ p)) t (fun _ => True) fun ok u =>
      ok = !(fault.outcome d).2 ∧ ∃ i, Put t u (dst ++ p) i (fault.outcome d).1 from hspec.post
  rw [heq]
  refine Spec.bind (Spec.op trivial trivial ?_)
  rw [hres']
  refine Spec.bind ((appendAll_spec _ _ [] (fun _ _ _ _ => trivial) hput).mono
    (fun _ h => h) ?_)
  intro _ v _ hv
  rw [List.nil_append, hc.pieces_flatten] at hv
  exact Spec.pure trivial ⟨rfl, i, hv⟩

/-- What a copy leaves, if there is something to read. -/
theorem duplicateFile_done {d : Bytes} (hn : ∀ es, n ≠ .dir es) (h : Ready src dst p n t)
    (hreports : reports conf f p n = ((f.copy p).outcome d).2)
    (hloses : loses conf f p n = (f.copy p).loses d)
    (hsame : ∀ i d', Same f p n.entry (.file i d') ↔ d' = d) :
    Done conf f dst p n t ((duplicateFile c (f.copy p) (some d) (dst ++ p)).final t)
      ((duplicateFile c (f.copy p) (some d) (dst ++ p)).result t) := by
  by_cases href : f.copy p = .refused
  · rw [href] at hreports hloses ⊢
    exact done_of_nothing h.absent (by rw [hreports]; rfl) (by rw [hloses]; rfl)
  · obtain ⟨hres, i, hput⟩ := duplicateFile_open hc h.parent h.absent (d := d) href
    refine done_of_leaf hn hput.look_eq (by rw [hres, hreports]) ?_
    rw [hsame, hloses]
    exact CopyFault.outcome_eq_iff href

/-- **A leaf**: what `do_link` returns and what it leaves. -/
theorem doLink_done (hn : ∀ es, n ≠ .dir es) (h : Ready src dst p n t) :
    Done conf f dst p n t ((doLink c conf f src dst p n).final t)
      ((doLink c conf f src dst p n).result t) := by
  have hsource := h.source []
  rw [List.append_nil, look_nil] at hsource
  unfold doLink
  by_cases hmax : conf.maxHardlinks ≤ f.nlink p
  · rw [if_pos hmax]
    cases n with
    | dir es => exact absurd rfl (hn es)
    | file i d =>
        exact duplicateFile_done hc (d := d) hn h (by simp [reports, hmax])
          (by simp [loses, hmax]) fun j d' => Iff.rfl
    | symlink s =>
        cases hfollow : f.follow p with
        | none =>
            have hlost : loses conf f p (.symlink s) = true := by simp [loses, hmax, hfollow]
            rw [source, hfollow]
            refine done_of_nothing h.absent ?_ hlost
            simp [reports, hmax, hfollow, duplicateFile]
        | some d =>
            rw [source, hfollow]
            refine duplicateFile_done hc (d := d) hn h (by simp [reports, hmax, hfollow])
              (by simp [loses, hmax, hfollow]) fun j d' => ?_
            have : Same f p (Node.symlink s).entry (.file j d') ↔ f.follow p = some d' := Iff.rfl
            rw [this, hfollow, Option.some.injEq]
            exact eq_comm
  · rw [if_neg hmax]
    by_cases hlink : f.link p
    · rw [if_pos hlink]
      cases n with
      | dir es => exact absurd rfl (hn es)
      | file i d =>
          exact done_of_nothing h.absent (by simp [reports, hmax, hlink])
            (by simp [loses, hmax, hlink])
      | symlink s =>
          exact done_of_nothing h.absent (by simp [reports, hmax, hlink])
            (by simp [loses, hmax, hlink])
    · rw [if_neg hlink]
      cases n with
      | dir es => exact absurd rfl (hn es)
      | file i d =>
          obtain ⟨hres, hlook, -⟩ := link_file hsource h.absent h.parent
          exact done_of_leaf hn hlook (by simp [hres, reports, hmax, hlink])
            (by simp [loses, hmax, hlink, Same, Node.entry])
      | symlink s =>
          obtain ⟨hres, hlook⟩ := link_symlink hsource h.absent h.parent
          exact done_of_leaf hn hlook (by simp [hres, reports, hmax, hlink])
            (by simp [loses, hmax, hlink, Same, Node.entry])

end Entries

/-! ## §4. Directories. -/

/-- The entry `x` of a directory with distinct names. -/
theorem find_of_mem {es : Entries} (hnd : (es.map Prod.fst).Nodup) {x : String} {n : Node}
    (h : (x, n) ∈ es) : find es x = some n := by
  induction es with
  | nil => simp at h
  | cons e es ih =>
      obtain ⟨y, m⟩ := e
      rw [List.map_cons, List.nodup_cons] at hnd
      rcases List.mem_cons.mp h with h | h
      · rw [Prod.mk.injEq] at h
        simp [find, h.1, h.2]
      · have hxy : y ≠ x := by
          rintro rfl
          exact hnd.1 (List.mem_map.mpr ⟨(y, n), h, rfl⟩)
        simpa [find, hxy] using ih hnd.2 h

theorem mem_of_find {es : Entries} {x : String} {n : Node} (h : find es x = some n) :
    (x, n) ∈ es := by
  obtain ⟨pre, post, rfl, -⟩ := find_split h
  simp

theorem look_dir_cons (es : Entries) (x : String) (q : Path) :
    look (.dir es) (x :: q) = (find es x).bind fun n => look n q := by
  unfold look
  rw [Node.get_dir_cons]
  cases find es x <;> rfl

/-- `mkpath` for the destination makes this one directory. -/
theorem mkpath_dummy {d : Path} {t : Node} (hd : d ≠ []) (habsent : look t d = none)
    (hparent : IsDir t d.dropLast) :
    (Store.mkpath (d ++ ["dummy"]) d).result t = true
      ∧ ∀ r, look ((Store.mkpath (d ++ ["dummy"]) d).final t) r
          = if r = d then some .dir else look t r := by
  obtain ⟨hok, hg, hdir⟩ := (mkpath_spec hd hparent (List.prefix_append _ _)
    (clear_single (x := "dummy") (Or.inl habsent))).post
  refine ⟨hok, fun r => ?_⟩
  rw [List.dropLast_concat] at hdir
  by_cases hr : r = d
  · rw [if_pos hr, hr]
    exact hdir
  · rw [if_neg hr]
    refine hg.look_of_not_prefix ?_
    by_cases hl : d <+: r
    · by_cases hp : r <+: d ++ ["dummy"]
      · rcases List.prefix_concat_iff.mp hp with hp | hp
        · exact Or.inr (Or.inr hp)
        · exact absurd (hp.eq_of_length (Nat.le_antisymm hp.length_le hl.length_le)) hr
      · exact Or.inr (Or.inl hp)
    · exact Or.inl hl

/-- Two paths neither of which is above the other. -/
def Disjoint (src dst : Path) : Prop := ¬ src <+: dst ∧ ¬ dst <+: src

theorem Disjoint.not_below {src dst : Path} (h : Disjoint src dst) (p q : Path) :
    ¬ dst ++ p <+: src ++ q := by
  intro hpre
  have hdst : dst <+: src ++ q := (List.prefix_append _ _).trans hpre
  rcases List.prefix_or_prefix_of_prefix hdst (List.prefix_append src q) with hp | hp
  · exact h.2 hp
  · exact h.1 hp

/-- Two entries of a directory are not below each other. -/
theorem entry_not_below {d q : Path} {x y : String} (h : x ≠ y) :
    ¬ d ++ [x] <+: d ++ [y] ++ q := by
  intro hpre
  rw [List.append_assoc, List.prefix_append_right_inj] at hpre
  exact h (List.cons_prefix_cons.mp hpre).1

/-- Before the entries of a list are duplicated. -/
structure ReadyIn (src dst p : Path) (es : List (String × Node)) (t : Node) : Prop where
  dir : IsDir t (dst ++ p)
  nodup : (es.map Prod.fst).Nodup
  source : ∀ e ∈ es, ∀ q, look t (src ++ (p ++ [e.1]) ++ q) = look e.2 q
  absent : ∀ e ∈ es, look t (dst ++ (p ++ [e.1])) = none

/-- After the loop has gone through a list, from `t` on. -/
structure DoneIn (conf : Conf) (f : Faults) (dst p : Path) (k : Nat)
    (es : List (String × Node)) (t u : Node) (walk : Walk) : Prop where
  broke : walk.isSome = breaks conf f p es
  failed : walk.failed = reportsIn conf f p k es
  index : ∀ j, walk = some j → k ≤ j
  frame : ∀ r, (∀ e ∈ es, ¬ dst ++ (p ++ [e.1]) <+: r) → look u r = look t r
  complete : (∀ e ∈ es, CompleteAt f dst (p ++ [e.1]) e.2 u) ↔ losesIn conf f p es = false

section Loop

variable {conf : Conf} {f : Faults} {src dst p : Path} {t : Node}

theorem ReadyIn.tail {e : String × Node} {es : List (String × Node)}
    (h : ReadyIn src dst p (e :: es) t) : ReadyIn src dst p es t where
  dir := h.dir
  nodup := (List.nodup_cons.mp h.nodup).2
  source := fun e' he' => h.source e' (List.mem_cons_of_mem _ he')
  absent := fun e' he' => h.absent e' (List.mem_cons_of_mem _ he')

/-- The names of the other entries are different. -/
theorem ReadyIn.name_ne {x : String} {n : Node} {es : List (String × Node)}
    (h : ReadyIn src dst p ((x, n) :: es) t) : ∀ e ∈ es, e.1 ≠ x := by
  intro e he heq
  have hnd := h.nodup
  rw [List.map_cons, List.nodup_cons] at hnd
  exact hnd.1 (List.mem_map.mpr ⟨e, he, heq⟩)

/-- The first entry, after the others have been gone through. -/
theorem ReadyIn.head {x : String} {n v : Node} {k : Nat} {walk : Walk}
    {es : List (String × Node)} (h : ReadyIn src dst p ((x, n) :: es) t)
    (hdis : Disjoint src dst) (hv : DoneIn conf f dst p k es t v walk) :
    Ready src dst (p ++ [x]) n v where
  source := by
    intro q
    rw [hv.frame, h.source (x, n) List.mem_cons_self]
    intro e _
    rw [List.append_assoc src]
    exact hdis.not_below _ _
  absent := by
    rw [hv.frame, h.absent (x, n) List.mem_cons_self]
    intro e he hpre
    rw [← List.append_assoc, ← List.append_assoc] at hpre
    have := entry_not_below (d := dst ++ p) (q := []) (h.name_ne e he)
    rw [List.append_nil] at this
    exact this hpre
  parent := by
    rw [← List.append_assoc, List.dropLast_concat]
    unfold IsDir
    rw [hv.frame]
    · exact h.dir
    · intro e _ hpre
      have := hpre.length_le
      simp at this

/-- The whole list, from what has become of its first entry. -/
theorem doneIn_cons {x : String} {n u v : Node} {k : Nat} {ok : Bool}
    {es : List (String × Node)} (h : ReadyIn src dst p ((x, n) :: es) t)
    (hv : DoneIn conf f dst p (k + 1) es t v none) (hlstat : f.lstat (p ++ [x]) = false)
    (hu : Done conf f dst (p ++ [x]) n v u ok) :
    DoneIn conf f dst p k ((x, n) :: es) t u (if ok then none else some (k + f.dots p k)) := by
  have hbroke : breaks conf f p es = false := hv.broke.symm
  have hfailed : reportsIn conf f p (k + 1) es = false := hv.failed.symm
  have hne := h.name_ne
  -- what has become of the others is not touched
  have hothers : (∀ e ∈ es, CompleteAt f dst (p ++ [e.1]) e.2 u)
      ↔ ∀ e ∈ es, CompleteAt f dst (p ++ [e.1]) e.2 v := by
    refine forall₂_congr fun e he => forall₂_congr fun q e' => imp_congr_right fun _ => ?_
    rw [hu.frame]
    rw [← List.append_assoc, ← List.append_assoc]
    exact entry_not_below (hne e he).symm
  refine ⟨?_, ?_, ?_, ?_, ?_⟩
  · rw [hu.returned]
    unfold breaks at hbroke ⊢
    cases hr : reports conf f (p ++ [x]) n <;> simp [hlstat, hr, hbroke]
  · rw [hu.returned, reportsIn, hfailed, hlstat]
    cases hr : reports conf f (p ++ [x]) n <;> simp [Walk.failed]
  · intro j hj
    cases ok <;> simp at hj
    omega
  · intro r hr
    rw [hu.frame r (hr (x, n) List.mem_cons_self),
      hv.frame r fun e he => hr e (List.mem_cons_of_mem _ he)]
  · rw [List.forall_mem_cons, hothers, hu.complete, hv.complete, losesIn, hlstat, hbroke]
    simp

/-- An error further back leaves out the first entry. -/
theorem doneIn_broken {x : String} {n v : Node} {k j : Nat} {es : List (String × Node)}
    (h : ReadyIn src dst p ((x, n) :: es) t) (hdis : Disjoint src dst)
    (hv : DoneIn conf f dst p (k + 1) es t v (some j)) :
    DoneIn conf f dst p k ((x, n) :: es) t v (some j) := by
  have hbroke : breaks conf f p es = true := hv.broke.symm
  have hj := hv.index j rfl
  have hfailed : reportsIn conf f p (k + 1) es = true := by
    rw [← hv.failed]
    exact decide_eq_true (by omega)
  refine ⟨?_, ?_, ?_, ?_, ?_⟩
  · unfold breaks at hbroke ⊢
    rw [List.any_cons, hbroke, Bool.or_true]
    rfl
  · rw [reportsIn, hfailed, Bool.or_true, hv.failed, hfailed]
  · intro i hi
    rw [Option.some.injEq] at hi
    omega
  · exact fun r hr => hv.frame r fun e he => hr e (List.mem_cons_of_mem _ he)
  · have hnot := not_completeAt_of_absent (f := f) (n := n) (h.head hdis hv).absent
    rw [List.forall_mem_cons, losesIn, hbroke]
    simp [hnot]

/-- An `lstat` that fails leaves it out as well. -/
theorem doneIn_skipped {x : String} {n v : Node} {k : Nat} {es : List (String × Node)}
    (h : ReadyIn src dst p ((x, n) :: es) t) (hdis : Disjoint src dst)
    (hv : DoneIn conf f dst p (k + 1) es t v none) (hlstat : f.lstat (p ++ [x]) = true) :
    DoneIn conf f dst p k ((x, n) :: es) t v none := by
  have hbroke : breaks conf f p es = false := hv.broke.symm
  have hfailed : reportsIn conf f p (k + 1) es = false := hv.failed.symm
  refine ⟨?_, ?_, by simp, ?_, ?_⟩
  · unfold breaks at hbroke ⊢
    rw [List.any_cons, hbroke, hlstat]
    rfl
  · rw [reportsIn, hfailed, hlstat]
    simp [Walk.failed]
  · exact fun r hr => hv.frame r fun e he => hr e (List.mem_cons_of_mem _ he)
  · have hnot := not_completeAt_of_absent (f := f) (n := n) (h.head hdis hv).absent
    rw [List.forall_mem_cons, losesIn, hlstat]
    simp [hnot]

/-- Nothing is left to do. -/
theorem doneIn_nil (k : Nat) : DoneIn conf f dst p k [] t t none where
  broke := rfl
  failed := rfl
  index := by simp
  frame := fun _ _ => rfl
  complete := by simp [losesIn]

/-- A directory is complete if its entries are. -/
theorem completeAt_dir {es : Entries} {u : Node} (hnd : (es.map Prod.fst).Nodup)
    (hdir : IsDir u (dst ++ p)) :
    CompleteAt f dst p (.dir es) u ↔ ∀ e ∈ es, CompleteAt f dst (p ++ [e.1]) e.2 u := by
  constructor
  · intro h e he q e' hq
    have hlook : look (.dir es) (e.1 :: q) = some e' := by
      rw [look_dir_cons, find_of_mem hnd he]
      exact hq
    have := h (e.1 :: q) e' hlook
    simpa [List.append_assoc] using this
  · intro h q e' hq
    cases q with
    | nil =>
        rw [look_nil, Option.some.injEq] at hq
        refine ⟨.dir, by rw [List.append_nil]; exact hdir, ?_⟩
        rw [← hq]
        trivial
    | cons x q =>
        rw [look_dir_cons] at hq
        obtain ⟨n, hn, hq⟩ := Option.bind_eq_some_iff.mp hq
        have := h (x, n) (mem_of_find hn) q e' hq
        simpa [List.append_assoc] using this

end Loop

section Recursion

variable {c : Codec} {conf : Conf} {f : Faults} {src dst : Path}

mutual

/-- **A directory**: what `recursive_hardlink` returns and what it leaves. -/
theorem recursiveHardlink_spec (hc : c.Lawful) (hdis : Disjoint src dst) (hdst : dst ≠ []) :
    ∀ (n : Node) {es : Entries} {p : Path} {t : Node}, n = .dir es → n.WF →
      Ready src dst p n t →
      Done conf f dst p n t ((recursiveHardlink c conf f src dst p n).final t)
        ((recursiveHardlink c conf f src dst p n).result t)
  | .file _ _, _, _, _, hn, _, _ => by simp at hn
  | .symlink _, _, _, _, hn, _, _ => by simp at hn
  | .dir es, _, p, t, _, hwf, h => by
      obtain ⟨hok, hlook⟩ := mkpath_dummy (by simp [hdst]) h.absent h.parent
      unfold recursiveHardlink
      by_cases hmk : f.mkpath p = true
      · simp only [hmk, if_true, Prog.final_pure, Prog.result_pure]
        refine done_of_nothing h.absent ?_ ?_
        · simp [reports, hmk]
        · simp [loses, hmk]
      · simp only [hmk, Bool.false_eq_true, if_false]
        rw [Prog.final_bind, Prog.result_bind, hok]
        generalize (Store.mkpath (dst ++ p ++ ["dummy"]) (dst ++ p)).final t = v at hlook ⊢
        have hdir : IsDir v (dst ++ p) := by
          unfold IsDir
          rw [hlook, if_pos rfl]
        have hframe : ∀ r, ¬ dst ++ p <+: r → look v r = look t r := by
          intro r hr
          rw [hlook, if_neg]
          rintro rfl
          exact hr (List.prefix_refl _)
        have hready : ReadyIn src dst p es v := by
          refine ⟨hdir, hwf.1, fun e he q => ?_, fun e _ => ?_⟩
          · have hsrc := h.source (e.1 :: q)
            rw [look_dir_cons, find_of_mem hwf.1 he] at hsrc
            rw [hframe]
            · simpa [List.append_assoc] using hsrc
            · rw [List.append_assoc src]
              exact hdis.not_below _ _
          · rw [hlook, if_neg]
            · rw [← List.append_assoc]
              exact look_below_absent h.absent _
            · intro heq
              have := congrArg List.length heq
              simp at this
        by_cases hscan : f.scandir p = true
        · simp only [hscan, if_true, Prog.final_pure, Prog.result_pure]
          refine ⟨by simp [reports, hscan], hframe, ?_⟩
          rw [completeAt_dir hwf.1 hdir]
          cases es with
          | nil => simp [loses, losesIn, hmk]
          | cons e es =>
              have hnot := not_completeAt_of_absent (f := f) (n := e.2)
                (hready.absent e List.mem_cons_self)
              simp [loses, hscan, hnot]
        · simp only [hscan, Bool.false_eq_true, if_false, if_true]
          have hloop := linkEntries_spec hc hdis hdst es hready hwf.2 0
          rw [Prog.final_bind, Prog.result_bind, Prog.final_pure, Prog.result_pure]
          refine ⟨?_, fun r hr => ?_, ?_⟩
          · rw [hloop.failed]
            simp [reports, hmk, hscan]
          · rw [hloop.frame, hframe r hr]
            intro e _ hpre
            rw [← List.append_assoc] at hpre
            exact hr ((List.prefix_append _ _).trans hpre)
          · rw [completeAt_dir hwf.1, hloop.complete]
            · simp [loses, hmk, hscan]
            · unfold IsDir
              rw [hloop.frame]
              · exact hdir
              · intro e _ hpre
                have := hpre.length_le
                simp at this

/-- **The loop** over the entries of a directory. -/
theorem linkEntries_spec (hc : c.Lawful) (hdis : Disjoint src dst) (hdst : dst ≠ []) :
    ∀ (es : List (String × Node)) {p : Path} {t : Node}, ReadyIn src dst p es t →
      WFEntries es → ∀ k,
      DoneIn conf f dst p k es t ((linkEntries c conf f src dst p k es).final t)
        ((linkEntries c conf f src dst p k es).result t)
  | [], p, t, _, _, k => by
      unfold linkEntries
      exact doneIn_nil k
  | (x, n) :: es, p, t, h, hwf, k => by
      have hv := linkEntries_spec hc hdis hdst es h.tail hwf.2 (k + 1)
      unfold linkEntries
      rw [Prog.final_bind, Prog.result_bind]
      generalize (linkEntries c conf f src dst p (k + 1) es).final t = v at hv ⊢
      generalize (linkEntries c conf f src dst p (k + 1) es).result t = walk at hv ⊢
      cases walk with
      | some j => exact doneIn_broken h hdis hv
      | none =>
          have hhead := h.head hdis hv
          by_cases hlstat : f.lstat (p ++ [x]) = true
          · simp only [hlstat, if_true, Prog.final_pure, Prog.result_pure]
            exact doneIn_skipped h hdis hv hlstat
          · have hlstat' : f.lstat (p ++ [x]) = false := by simpa using hlstat
            simp only [hlstat', Bool.false_eq_true, if_false]
            cases n with
            | dir fs =>
                have hdone := recursiveHardlink_spec hc hdis hdst (.dir fs) rfl hwf.1 hhead
                have hcons := doneIn_cons h hv hlstat' hdone
                simp only
                rw [Prog.final_bind, Prog.result_bind]
                generalize (recursiveHardlink c conf f src dst (p ++ [x]) (.dir fs)).result v = ok
                  at hcons ⊢
                cases ok <;> exact hcons
            | file i d =>
                have hdone : Done conf f dst (p ++ [x]) (.file i d) v
                    ((doLink c conf f src dst (p ++ [x]) (.file i d)).final v)
                    ((doLink c conf f src dst (p ++ [x]) (.file i d)).result v) :=
                  doLink_done hc (by simp) hhead
                have hcons := doneIn_cons h hv hlstat' hdone
                simp only
                rw [Prog.final_bind, Prog.result_bind]
                generalize (doLink c conf f src dst (p ++ [x]) (.file i d)).result v = ok
                  at hcons ⊢
                cases ok <;> exact hcons
            | symlink s =>
                have hdone : Done conf f dst (p ++ [x]) (.symlink s) v
                    ((doLink c conf f src dst (p ++ [x]) (.symlink s)).final v)
                    ((doLink c conf f src dst (p ++ [x]) (.symlink s)).result v) :=
                  doLink_done hc (by simp) hhead
                have hcons := doneIn_cons h hv hlstat' hdone
                simp only
                rw [Prog.final_bind, Prog.result_bind]
                generalize (doLink c conf f src dst (p ++ [x]) (.symlink s)).result v = ok
                  at hcons ⊢
                cases ok <;> exact hcons

end

end Recursion

/-! ## §5. Which failures get through. -/

/-- An operation on the entry itself fails, and the function that makes it says so. -/
def fails (conf : Conf) (f : Faults) (p : Path) : Node → Bool
  | .dir _ => f.mkpath p || f.scandir p
  | n => reports conf f p n

/-- An operation on the entry itself fails, and there is something that gets lost. -/
def hurts (conf : Conf) (f : Faults) (p : Path) : Node → Bool
  | .dir es => f.mkpath p || (f.scandir p && decide (es ≠ []))
  | n => loses conf f p n

/-- A failure below the entry at the path `p` that is passed up to it: nothing on the way has
the index 0, and `lstat` finds all of it. -/
def FailsAt (conf : Conf) (f : Faults) (p : Path) (n : Node) : Path → Prop
  | [] => fails conf f p n = true
  | x :: q => ∃ pre m post, n = .dir (pre ++ (x, m) :: post) ∧ 0 < pre.length + f.dots p pre.length
      ∧ f.lstat (p ++ [x]) = false ∧ FailsAt conf f (p ++ [x]) m q

/-- An entry below the one at the path `p` that is lost: an operation on it fails, or it or a
directory that it is in is left out, because `lstat` fails, or because of a failure at an
entry that comes behind. -/
def Lost (conf : Conf) (f : Faults) (p : Path) (n : Node) : Path → Prop
  | [] => hurts conf f p n = true
  | x :: q => ∃ pre m post, n = .dir (pre ++ (x, m) :: post)
      ∧ (f.lstat (p ++ [x]) = true
        ∨ (∃ e ∈ post, f.lstat (p ++ [e.1]) = false ∧ ∃ r, FailsAt conf f (p ++ [e.1]) e.2 r)
        ∨ Lost conf f (p ++ [x]) m q)

section Paths

variable {conf : Conf} {f : Faults}

/-- Below what is no directory there is nothing to fail. -/
theorem exists_failsAt_leaf (p : Path) (n : Node) (hn : ∀ es, n ≠ .dir es) :
    (∃ q, FailsAt conf f p n q) ↔ fails conf f p n = true := by
  constructor
  · rintro ⟨q, h⟩
    cases q with
    | nil => exact h
    | cons x q =>
        obtain ⟨pre, m, post, heq, -⟩ := h
        exact absurd heq (hn _)
  · exact fun h => ⟨[], h⟩

theorem exists_lost_leaf (p : Path) (n : Node) (hn : ∀ es, n ≠ .dir es) :
    (∃ q, Lost conf f p n q) ↔ hurts conf f p n = true := by
  constructor
  · rintro ⟨q, h⟩
    cases q with
    | nil => exact h
    | cons x q =>
        obtain ⟨pre, m, post, heq, -⟩ := h
        exact absurd heq (hn _)
  · exact fun h => ⟨[], h⟩

mutual

theorem reports_iff : ∀ (n : Node) (p : Path),
    reports conf f p n = true ↔ ∃ q, FailsAt conf f p n q
  | .file i d, p => (exists_failsAt_leaf p (.file i d) (by simp)).symm
  | .symlink s, p => (exists_failsAt_leaf p (.symlink s) (by simp)).symm
  | .dir es, p => by
      have hes := reportsIn_iff es p 0
      simp only [Nat.zero_add] at hes
      rw [reports, Bool.or_eq_true, hes]
      constructor
      · rintro (h | ⟨pre, x, m, post, rfl, hpos, hl, q, hq⟩)
        · exact ⟨[], h⟩
        · exact ⟨x :: q, pre, m, post, rfl, hpos, hl, hq⟩
      · rintro ⟨q, h⟩
        cases q with
        | nil => exact Or.inl h
        | cons x q =>
            obtain ⟨pre, m, post, hn, hpos, hl, hq⟩ := h
            rw [Node.dir.injEq] at hn
            exact Or.inr ⟨pre, x, m, post, hn, hpos, hl, q, hq⟩

theorem reportsIn_iff : ∀ (es : List (String × Node)) (p : Path) (k : Nat),
    reportsIn conf f p k es = true
      ↔ ∃ pre x m post, es = pre ++ (x, m) :: post
        ∧ 0 < k + pre.length + f.dots p (k + pre.length)
        ∧ f.lstat (p ++ [x]) = false ∧ ∃ q, FailsAt conf f (p ++ [x]) m q
  | [], p, k => by simp [reportsIn]
  | (y, n) :: es, p, k => by
      have hes := reportsIn_iff es p (k + 1)
      rw [reportsIn, Bool.or_eq_true, Bool.and_eq_true, Bool.and_eq_true, hes,
        reports_iff n (p ++ [y])]
      constructor
      · rintro (⟨⟨hpos, hl⟩, hq⟩ | ⟨pre, x, m, post, rfl, hpos, hl, hq⟩)
        · exact ⟨[], y, n, es, rfl, by simpa using hpos, by simpa using hl, hq⟩
        · refine ⟨(y, n) :: pre, x, m, post, rfl, ?_, hl, hq⟩
          rw [List.length_cons, Nat.add_comm pre.length, ← Nat.add_assoc]
          exact hpos
      · rintro ⟨pre, x, m, post, heq, hpos, hl, hq⟩
        cases pre with
        | nil =>
            rw [List.nil_append, List.cons.injEq, Prod.mk.injEq] at heq
            obtain ⟨⟨rfl, rfl⟩, -⟩ := heq
            exact Or.inl ⟨⟨by simpa using hpos, by simpa using hl⟩, hq⟩
        | cons e pre =>
            rw [List.cons_append, List.cons.injEq] at heq
            rw [List.length_cons, Nat.add_comm pre.length, ← Nat.add_assoc] at hpos
            exact Or.inr ⟨pre, x, m, post, heq.2, hpos, hl, hq⟩

end

theorem breaks_iff {p : Path} {es : List (String × Node)} :
    breaks conf f p es = true
      ↔ ∃ e ∈ es, f.lstat (p ++ [e.1]) = false ∧ ∃ q, FailsAt conf f (p ++ [e.1]) e.2 q := by
  simp only [breaks, List.any_eq_true, Bool.and_eq_true, Bool.not_eq_true', reports_iff]

mutual

theorem loses_iff : ∀ (n : Node) (p : Path),
    loses conf f p n = true ↔ ∃ q, Lost conf f p n q
  | .file i d, p => (exists_lost_leaf p (.file i d) (by simp)).symm
  | .symlink s, p => (exists_lost_leaf p (.symlink s) (by simp)).symm
  | .dir es, p => by
      rw [loses, Bool.or_eq_true, losesIn_iff es p]
      constructor
      · rintro (h | ⟨pre, x, m, post, q, rfl, hq⟩)
        · exact ⟨[], h⟩
        · exact ⟨x :: q, pre, m, post, rfl, hq⟩
      · rintro ⟨q, h⟩
        cases q with
        | nil => exact Or.inl h
        | cons x q =>
            obtain ⟨pre, m, post, hn, hq⟩ := h
            rw [Node.dir.injEq] at hn
            exact Or.inr ⟨pre, x, m, post, q, hn, hq⟩

theorem losesIn_iff : ∀ (es : List (String × Node)) (p : Path),
    losesIn conf f p es = true
      ↔ ∃ pre x m post q, es = pre ++ (x, m) :: post
        ∧ (f.lstat (p ++ [x]) = true
          ∨ (∃ e ∈ post, f.lstat (p ++ [e.1]) = false ∧ ∃ r, FailsAt conf f (p ++ [e.1]) e.2 r)
          ∨ Lost conf f (p ++ [x]) m q)
  | [], p => by simp [losesIn]
  | (y, n) :: es, p => by
      rw [losesIn, Bool.or_eq_true, Bool.or_eq_true, Bool.or_eq_true, loses_iff n (p ++ [y]),
        breaks_iff, losesIn_iff es p]
      constructor
      · rintro (((h | ⟨q, h⟩) | h) | ⟨pre, x, m, post, q, rfl, h⟩)
        · exact ⟨[], y, n, es, [], rfl, Or.inl h⟩
        · exact ⟨[], y, n, es, q, rfl, Or.inr (Or.inr h)⟩
        · exact ⟨[], y, n, es, [], rfl, Or.inr (Or.inl h)⟩
        · exact ⟨(y, n) :: pre, x, m, post, q, rfl, h⟩
      · rintro ⟨pre, x, m, post, q, heq, h⟩
        cases pre with
        | nil =>
            rw [List.nil_append, List.cons.injEq, Prod.mk.injEq] at heq
            obtain ⟨⟨rfl, rfl⟩, rfl⟩ := heq
            rcases h with h | h | h
            · exact Or.inl (Or.inl (Or.inl h))
            · exact Or.inl (Or.inr h)
            · exact Or.inl (Or.inl (Or.inr ⟨q, h⟩))
        | cons e pre =>
            rw [List.cons_append, List.cons.injEq] at heq
            exact Or.inr ⟨pre, x, m, post, q, heq.2, h⟩

end

end Paths

/-! ## §6. Phase 4. -/

/-- Phase 4 up to where it goes on with `currentdup`. -/
def duplicateCurrent (c : Codec) (conf : Conf) (f : Faults) (current finishing : Path) (n : Node) :
    Prog Node Bool := do
  if ← recursiveHardlink c conf f current (finishing ++ ["currentdup.tmp"]) [] n then
    rename (finishing ++ ["currentdup.tmp"]) (finishing ++ ["currentdup"])
  else pure false

/-- A directory that gets another name next to the old one is as it was. -/
theorem look_rename_dir {d : Path} {x y : String} {t : Node} (hxy : x ≠ y)
    (hdir : IsDir t (d ++ [x])) (h : (renameAt (d ++ [x]) (d ++ [y]) t).2 = true) (q : Path) :
    look (renameAt (d ++ [x]) (d ++ [y]) t).1 (d ++ [y] ++ q) = look t (d ++ [x] ++ q) := by
  obtain ⟨es, hes, hput⟩ := rename_dir (by simp [hxy]) hdir h
  have hd : IsDir t d := by
    refine isDir_of_look_append (q := [x]) (by simp) ?_
    rw [show look t (d ++ [x]) = some .dir from hdir]
    simp
  obtain ⟨fs, hfs⟩ := isDir_iff.mp hd
  -- the directory that both names are in is still one in between
  have hbetween : IsDir (t.put (d ++ [x]) none) (d ++ [y]).dropLast := by
    rw [List.dropLast_concat, isDir_iff, get_put none (d ++ [x]) t d (by simp)
      (by rwa [List.dropLast_concat]), if_neg, if_pos (List.prefix_append _ _), hfs]
    · exact ⟨_, by simp [Node.put]; rfl⟩
    · intro hpre
      have := hpre.length_le
      simp at this
  unfold look
  rw [hput, get_put _ _ _ _ (by simp) hbetween, if_pos (List.prefix_append _ _), List.drop_left,
    Node.get_append t (d ++ [x]) q, hes]

theorem isDir_of_complete {f : Faults} {dst : Path} {es : Entries} {u : Node}
    (h : CompleteAt f dst [] (.dir es) u) : IsDir u dst := by
  obtain ⟨e', he', hsame⟩ := h [] .dir rfl
  rw [List.append_nil, List.append_nil] at he'
  cases e' with
  | dir => exact he'
  | file i d => exact absurd hsame id
  | symlink s => exact absurd hsame id

/-- **What phase 4 goes on with**: whatever fails, the duplicate that `recursive_hardlink`
returns 0 for, and that phase 4 renames, is complete if and only if an error is passed up, or
nothing is lost. -/
theorem duplicate_complete_iff {c : Codec} (hc : c.Lawful) {conf : Conf} {f : Faults}
    {src finishing : Path} {es : Entries} {t : Node} (hwf : (Node.dir es).WF)
    (hsrc : t.get src = some (.dir es)) (hdir : IsDir t finishing)
    (habsent : look t (finishing ++ ["currentdup.tmp"]) = none)
    (hdis : Disjoint src (finishing ++ ["currentdup.tmp"])) :
    ((recursiveHardlink c conf f src (finishing ++ ["currentdup.tmp"]) [] (.dir es)).result t = true
          → CompleteAt f (finishing ++ ["currentdup.tmp"]) [] (.dir es)
              ((recursiveHardlink c conf f src (finishing ++ ["currentdup.tmp"]) []
                (.dir es)).final t))
        ∧ ((duplicateCurrent c conf f src finishing (.dir es)).result t = true
          → CompleteAt f (finishing ++ ["currentdup"]) [] (.dir es)
              ((duplicateCurrent c conf f src finishing (.dir es)).final t))
      ↔ (∃ q, FailsAt conf f [] (.dir es) q) ∨ ∀ q, ¬ Lost conf f [] (.dir es) q := by
  have hready : Ready src (finishing ++ ["currentdup.tmp"]) [] (.dir es) t := by
    refine ⟨fun q => ?_, by rwa [List.append_nil], by rwa [List.append_nil, List.dropLast_concat]⟩
    unfold look
    rw [List.append_nil, Node.get_append, hsrc]
    rfl
  have hdone : Done conf f (finishing ++ ["currentdup.tmp"]) [] (.dir es) t _ _ :=
    recursiveHardlink_spec hc hdis (by simp) (.dir es) rfl hwf hready
  have hreports : reports conf f [] (.dir es) = true ↔ _ := reports_iff (.dir es) []
  have hloses : loses conf f [] (.dir es) = true ↔ _ := loses_iff (.dir es) []
  -- the first half says what the second half needs
  have hfirst : ((recursiveHardlink c conf f src (finishing ++ ["currentdup.tmp"]) []
        (.dir es)).result t = true
          → CompleteAt f (finishing ++ ["currentdup.tmp"]) [] (.dir es)
              ((recursiveHardlink c conf f src (finishing ++ ["currentdup.tmp"]) []
                (.dir es)).final t))
      ↔ (∃ q, FailsAt conf f [] (.dir es) q) ∨ ∀ q, ¬ Lost conf f [] (.dir es) q := by
    rw [hdone.complete, hdone.returned, ← hreports, ← not_exists, ← hloses]
    cases reports conf f [] (.dir es) <;> cases loses conf f [] (.dir es) <;> simp
  rw [← hfirst]
  refine ⟨fun h => h.1, fun h => ⟨h, fun hok => ?_⟩⟩
  unfold duplicateCurrent at hok ⊢
  rw [Prog.result_bind] at hok
  rw [Prog.final_bind]
  by_cases hlinked : (recursiveHardlink c conf f src (finishing ++ ["currentdup.tmp"]) []
      (.dir es)).result t = true
  · have hcomplete := h hlinked
    simp only [hlinked, if_true] at hok ⊢
    intro q e hq
    obtain ⟨e', he', hsame⟩ := hcomplete q e hq
    refine ⟨e', ?_, hsame⟩
    rw [List.append_nil] at he' ⊢
    have htmp := isDir_of_complete hcomplete
    exact (look_rename_dir (by decide) htmp hok q).trans he'
  · simp [hlinked] at hok

/-! A directory with a file and a symlink. -/

def sampleEntries : Entries := [("a", .file 1 [65]), ("l", .symlink "a")]

def sampleDirectory : Node :=
  .dir [("0000001", .dir sampleEntries), ("0000002", .dir [])]

/-- `link` fails for the entry `x`, in a directory that `scandir` lists without "." and ".."
or with both at its end. -/
def sampleFaults (x : String) : Faults where
  dots _ _ := 0
  lstat _ := false
  mkpath _ := false
  scandir _ := false
  link p := p == [x]
  copy _ := .none
  nlink _ := 1
  follow _ := none

/-- No entry has the name for which `link` fails. -/
theorem sample_complete :
    (recursiveHardlink sampleCodec {} (sampleFaults "b") ["0000001"] ["0000002", "currentdup.tmp"] []
        (.dir sampleEntries)).result sampleDirectory = true
      ∧ CompleteAt (sampleFaults "b") ["0000002", "currentdup.tmp"] [] (.dir sampleEntries)
          ((recursiveHardlink sampleCodec {} (sampleFaults "b") ["0000001"]
            ["0000002", "currentdup.tmp"] [] (.dir sampleEntries)).final sampleDirectory) := by
  have hres : (recursiveHardlink sampleCodec {} (sampleFaults "b") ["0000001"]
      ["0000002", "currentdup.tmp"] [] (.dir sampleEntries)).result
          sampleDirectory = true := by decide
  have hwf : (Node.dir sampleEntries).WF := by simp [sampleEntries, Node.WF, WFEntries]
  have hdir : IsDir sampleDirectory ["0000002"] := rfl
  have hdis : Disjoint ["0000001"] ["0000002", "currentdup.tmp"] := ⟨by decide, by decide⟩
  refine ⟨hres, ((duplicate_complete_iff sampleCodec_lawful hwf rfl hdir rfl hdis).mpr
    (Or.inr fun q hq => ?_)).1 hres⟩
  have hlost : loses {} (sampleFaults "b") [] (.dir sampleEntries) = true :=
    (loses_iff _ _).mpr ⟨q, hq⟩
  revert hlost
  decide

/-- `link` fails for the entry with the index 0, and 0 is returned. -/
theorem first_entry_not_complete :
    ¬ ((recursiveHardlink sampleCodec {} (sampleFaults "a") ["0000001"] ["0000002", "currentdup.tmp"]
          [] (.dir sampleEntries)).result sampleDirectory = true
        → CompleteAt (sampleFaults "a") ["0000002", "currentdup.tmp"] [] (.dir sampleEntries)
            ((recursiveHardlink sampleCodec {} (sampleFaults "a") ["0000001"]
              ["0000002", "currentdup.tmp"] [] (.dir sampleEntries)).final sampleDirectory)) := by
  intro h
  obtain ⟨e', he', -⟩ := h (by decide) ["a"] (.file 1 [65]) rfl
  revert he'
  rw [show look _ _ = none from by decide]
  simp

end Burp.Store.Faulty
