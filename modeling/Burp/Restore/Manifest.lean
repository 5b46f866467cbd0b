/-
  Burp.Restore.Manifest — restoring the entries of a manifest.

  `restore_manifest` goes through a manifest and sends what is selected by the regex and, if
  the server has started the restore, by the include list.  A directory is not sent when its
  turn comes but kept until something is selected that is not below it, so that its permissions
  come out right on the client; what is kept at the end is sent last.

  Main results:
    * `restoreLoop_selects` — whatever happens, only selected entries are sent.
    * `restoreManifest_sends` — without errors they are sent once, and directories after what is
      below them.
-/
import Burp.Phase2.Dpth
import Burp.Store.Subdir

namespace Burp.Restore

open FileSystem Burp.Store Burp.Phase2

/-! ## §1. The selection. -/

/-- `srestore_matches`: the path is compared up to the length of the include only. -/
def srestoreMatches (s : Bytes × Bool) (path : Bytes) : Bool :=
  -- do not know how to do excludes yet
  if s.2 = false then false
  else s.1.isPrefixOf path

/-- `check_srestore`, for the list `cconf->incexcdir`. -/
def checkSrestore (incexcdir : List (Bytes × Bool)) (path : Bytes) : Bool :=
  incexcdir.any fun s => srestoreMatches s path

/-- `check_regex`, where `none` is no regex. -/
def checkRegex (regex : Option (Bytes → Bool)) (buf : Bytes) : Bool :=
  match regex with
  | none => true
  | some regexec => regexec buf

/-- What `restore_manifest` selects by. -/
structure Selection where
  srestore : Bool
  incexcdir : List (Bytes × Bool)
  regex : Option (Bytes → Bool)

def Selection.selects (sel : Selection) (sb : Sbuf) : Bool :=
  (!sel.srestore || checkSrestore sel.incexcdir (sb.path.getD []))
    && checkRegex sel.regex (sb.path.getD [])

/-! ## §2. Sending. -/

/-- What a part of the restore comes to: no error, the directories that are waiting, the last
one first, and the entries that have been given to `restore_sbuf`. -/
structure Progress where
  ok : Bool
  sblist : List Sbuf
  sent : List Sbuf

/-- The loop of `restore_ent`, where `ok` is the success of `restore_sbuf`. -/
def restoreWaiting (ok : Sbuf → Bool) (path : Option Bytes) : List Sbuf → Progress
  | [] => ⟨true, [], []⟩
  | d :: sblist =>
      -- we are still in a subdir
      if 0 < isSubdir d.path path then ⟨true, d :: sblist, []⟩
      else if ok d then
        let p := restoreWaiting ok path sblist
        { p with sent := d :: p.sent }
      else ⟨false, d :: sblist, [d]⟩

/-- `restore_ent`. -/
def restoreEnt (ok : Sbuf → Bool) (sb : Sbuf) (sblist : List Sbuf) : Progress :=
  let p := restoreWaiting ok sb.path sblist
  if p.ok = false then p
  -- need to remember it and restore it later
  else if sb.statp.isDir then { p with sblist := sb :: p.sblist }
  else { p with ok := ok sb, sent := p.sent ++ [sb] }

/-- What `async_read_quick` gives before an entry is read: other messages are errors. -/
def readsQuick (messages : List (Store.Cmd × Bytes)) : Bool :=
  messages.all fun m => m.1 = .warning || m.1 = .interrupt

/-- The directories that are left in the list. -/
def restoreLeft (ok : Sbuf → Bool) : List Sbuf → Progress
  | [] => ⟨true, [], []⟩
  | d :: sblist =>
      if ok d then
        let p := restoreLeft ok sblist
        { p with sent := d :: p.sent }
      else ⟨false, d :: sblist, [d]⟩

/-- The loop of `restore_manifest` and the directories after it.  `ends` says that the manifest
does not end with an error, and `arrivals` has what arrives before each turn. -/
def restoreLoop (ok : Sbuf → Bool) (sel : Selection) (ends : Bool) :
    List (List (Store.Cmd × Bytes)) → List Sbuf → List Sbuf → Progress
  | arrivals, [], sblist =>
      if readsQuick (arrivals.headD []) ∧ ends = true then restoreLeft ok sblist
      else ⟨false, sblist, []⟩
  | arrivals, sb :: manifest, sblist =>
      if readsQuick (arrivals.headD []) then
        if sel.selects sb then
          let p := restoreEnt ok sb sblist
          if p.ok then
            let q := restoreLoop ok sel ends arrivals.tail manifest p.sblist
            { q with sent := p.sent ++ q.sent }
          else p
        else restoreLoop ok sel ends arrivals.tail manifest sblist
      else ⟨false, sblist, []⟩

/-- `do_restore_end`: what it reads after "restoreend" has been sent. -/
def doRestoreEnd : List (Store.Cmd × Bytes) → Bool
  | [] => false
  | (cmd, buf) :: messages =>
      if cmd = .gen ∧ cString buf = nameBytes "restoreend ok" then true
      else if cmd = .warning then doRestoreEnd messages
      -- client wanted to interrupt a file
      else if cmd = .interrupt then doRestoreEnd messages
      else false

/-- `restore_manifest`, from the second reading of the manifest on: a return value of 0, and
the entries that have been sent. -/
def restoreManifest (ok : Sbuf → Bool) (sel : Selection) (ends : Bool)
    (arrivals : List (List (Store.Cmd × Bytes))) (manifest : List Sbuf)
    (last : List (Store.Cmd × Bytes)) : Bool × List Sbuf :=
  let p := restoreLoop ok sel ends arrivals manifest []
  (p.ok && doRestoreEnd last, p.sent)

/-! ## §3. Only what is selected. -/

section Sent

variable {ok : Sbuf → Bool} {sel : Selection} {ends : Bool}

theorem mem_restoreWaiting {path : Option Bytes} : ∀ {sblist : List Sbuf} {sb : Sbuf},
    sb ∈ (restoreWaiting ok path sblist).sent ∨ sb ∈ (restoreWaiting ok path sblist).sblist →
      sb ∈ sblist := by
  intro sblist
  induction sblist with
  | nil =>
      intro sb h
      simp [restoreWaiting] at h
  | cons d sblist ih =>
      intro sb h
      unfold restoreWaiting at h
      split_ifs at h with hsub hok
      · simpa using h
      · simp only [List.mem_cons] at h ⊢
        rcases h with (h | h) | h
        · exact Or.inl h
        · exact Or.inr (ih (Or.inl h))
        · exact Or.inr (ih (Or.inr h))
      · simp only [List.mem_cons, List.not_mem_nil, or_false] at h ⊢
        rcases h with h | h
        · exact Or.inl h
        · exact h

theorem mem_restoreEnt {sb e : Sbuf} {sblist : List Sbuf}
    (h : e ∈ (restoreEnt ok sb sblist).sent ∨ e ∈ (restoreEnt ok sb sblist).sblist) :
    e = sb ∨ e ∈ sblist := by
  unfold restoreEnt at h
  simp only at h
  split_ifs at h with hp hdir
  · exact Or.inr (mem_restoreWaiting h)
  · rcases h with h | h
    · exact Or.inr (mem_restoreWaiting (Or.inl h))
    · rcases List.mem_cons.mp h with rfl | h
      · exact Or.inl rfl
      · exact Or.inr (mem_restoreWaiting (Or.inr h))
  · rcases h with h | h
    · rcases List.mem_append.mp h with h | h
      · exact Or.inr (mem_restoreWaiting (Or.inl h))
      · exact Or.inl (List.mem_singleton.mp h)
    · exact Or.inr (mem_restoreWaiting (Or.inr h))

theorem mem_restoreLeft : ∀ {sblist : List Sbuf} {sb : Sbuf},
    sb ∈ (restoreLeft ok sblist).sent → sb ∈ sblist := by
  intro sblist
  induction sblist with
  | nil =>
      intro sb h
      simp [restoreLeft] at h
  | cons d sblist ih =>
      intro sb h
      unfold restoreLeft at h
      split_ifs at h with hok
      · rcases List.mem_cons.mp h with rfl | h
        · exact List.mem_cons_self
        · exact List.mem_cons_of_mem _ (ih h)
      · exact List.mem_cons.mpr (Or.inl (List.mem_singleton.mp h))

/-- **Only selected entries** of the manifest are sent, with errors or without. -/
theorem restoreLoop_selects : ∀ (manifest : List Sbuf) (arrivals : List (List (Store.Cmd × Bytes)))
    (sblist : List Sbuf) {sb : Sbuf}, sb ∈ (restoreLoop ok sel ends arrivals manifest sblist).sent →
      sb ∈ sblist ∨ sb ∈ manifest ∧ sel.selects sb = true := by
  intro manifest
  induction manifest with
  | nil =>
      intro arrivals sblist sb h
      unfold restoreLoop at h
      split_ifs at h
      · exact Or.inl (mem_restoreLeft h)
      · simp at h
  | cons e manifest ih =>
      intro arrivals sblist sb h
      unfold restoreLoop at h
      simp only at h
      split_ifs at h with hquick hsel hok
      · rcases List.mem_append.mp h with h | h
        · rcases mem_restoreEnt (Or.inl h) with rfl | h
          · exact Or.inr ⟨List.mem_cons_self, hsel⟩
          · exact Or.inl h
        · rcases ih _ _ h with h | ⟨h, hs⟩
          · rcases mem_restoreEnt (Or.inr h) with rfl | h
            · exact Or.inr ⟨List.mem_cons_self, hsel⟩
            · exact Or.inl h
          · exact Or.inr ⟨List.mem_cons_of_mem _ h, hs⟩
      · rcases mem_restoreEnt (Or.inl h) with rfl | h
        · exact Or.inr ⟨List.mem_cons_self, hsel⟩
        · exact Or.inl h
      · rcases ih _ _ h with h | ⟨h, hs⟩
        · exact Or.inl h
        · exact Or.inr ⟨List.mem_cons_of_mem _ h, hs⟩
      · simp at h

end Sent

/-! ## §4. Directories last. -/

/-- A directory that is sent has nothing below it still to come. -/
def Settled (d e : Sbuf) : Prop := d.statp.isDir = true → ¬ Store.Below d.path e.path

/-- Not above, in the order of paths. -/
def Upto (a b : Sbuf) : Prop := pathcmp a.path b.path ≤ 0

theorem Upto.refl (a : Sbuf) : Upto a a := ((pathcmp_eq_iff _ _).mpr rfl).le

section Order

variable {ok : Sbuf → Bool} {sel : Selection} {ends : Bool}

/-- What waits is sent, up to a directory that the path is below. -/
theorem restoreWaiting_spec {path : Option Bytes} : ∀ {sblist : List Sbuf},
    (restoreWaiting ok path sblist).ok = true →
      sblist = (restoreWaiting ok path sblist).sent ++ (restoreWaiting ok path sblist).sblist
        ∧ ∀ d ∈ (restoreWaiting ok path sblist).sent, isSubdir d.path path = 0 := by
  intro sblist
  induction sblist with
  | nil =>
      intro _
      exact ⟨rfl, by simp [restoreWaiting]⟩
  | cons d sblist ih =>
      intro h
      unfold restoreWaiting at h ⊢
      split_ifs at h ⊢ with hsub hok
      · exact ⟨rfl, by simp⟩
      · obtain ⟨hsplit, hnot⟩ := ih h
        refine ⟨congrArg (d :: ·) hsplit, ?_⟩
        intro e he
        rcases List.mem_cons.mp he with rfl | he
        · omega
        · exact hnot e he

/-- A directory comes to what waits, anything else is sent after what is let go. -/
theorem restoreEnt_spec {sb : Sbuf} {sblist : List Sbuf} (h : (restoreEnt ok sb sblist).ok = true) :
    ∃ gone kept, sblist = gone ++ kept ∧ (∀ d ∈ gone, isSubdir d.path sb.path = 0)
      ∧ (sb.statp.isDir = true ∧ (restoreEnt ok sb sblist).sent = gone
            ∧ (restoreEnt ok sb sblist).sblist = sb :: kept
          ∨ sb.statp.isDir = false ∧ (restoreEnt ok sb sblist).sent = gone ++ [sb]
            ∧ (restoreEnt ok sb sblist).sblist = kept) := by
  unfold restoreEnt at h ⊢
  simp only at h ⊢
  have hspec : (restoreWaiting ok sb.path sblist).ok = true → _ ∧ _ := restoreWaiting_spec
  generalize restoreWaiting ok sb.path sblist = p at h hspec ⊢
  split_ifs at h ⊢ with hp hdir
  · simp [hp] at h
  · obtain ⟨hsplit, hnot⟩ := hspec (by simpa using hp)
    exact ⟨p.sent, p.sblist, hsplit, hnot, Or.inl ⟨hdir, rfl, rfl⟩⟩
  · obtain ⟨hsplit, hnot⟩ := hspec (by simpa using hp)
    exact ⟨p.sent, p.sblist, hsplit, hnot, Or.inr ⟨by simpa using hdir, rfl, rfl⟩⟩

theorem restoreLeft_spec : ∀ {sblist : List Sbuf}, (restoreLeft ok sblist).ok = true →
    (restoreLeft ok sblist).sent = sblist := by
  intro sblist
  induction sblist with
  | nil => exact fun _ => rfl
  | cons d sblist ih =>
      intro h
      unfold restoreLeft at h ⊢
      split_ifs at h ⊢ with hok
      exact congrArg (d :: ·) (ih h)

/-- What waits longer is not below what waits. -/
theorem settled_of_upto {d e : Sbuf} (h : Upto e d) : Settled d e :=
  fun _ hbelow => hbelow.pathcmp_pos h

/-- What does not come below a directory now never will. -/
theorem settled_of_left {d sb e : Sbuf} (hd : Upto d sb) (he : Upto sb e)
    (hleft : isSubdir d.path sb.path = 0) : Settled d e := by
  intro _ hbelow
  have := isSubdir_between hd he hbelow
  omega

/-- **The loop**: what waits and what is selected of the rest is sent, each once. -/
theorem restoreLoop_perm : ∀ (manifest : List Sbuf) (arrivals : List (List (Store.Cmd × Bytes)))
    (sblist : List Sbuf), (restoreLoop ok sel ends arrivals manifest sblist).ok = true →
      (restoreLoop ok sel ends arrivals manifest sblist).sent.Perm
        (sblist ++ manifest.filter sel.selects) := by
  intro manifest
  induction manifest with
  | nil =>
      intro arrivals sblist h
      unfold restoreLoop at h ⊢
      split_ifs at h ⊢
      rw [restoreLeft_spec h, List.filter_nil, List.append_nil]
  | cons sb manifest ih =>
      intro arrivals sblist h
      unfold restoreLoop at h ⊢
      simp only at h ⊢
      split_ifs at h ⊢ with hquick hsel hok
      · obtain ⟨gone, kept, rfl, -, hcase⟩ := restoreEnt_spec hok
        rw [List.filter_cons_of_pos hsel]
        rcases hcase with ⟨-, hsent, hwait⟩ | ⟨-, hsent, hwait⟩
        · rw [hwait] at h ⊢
          rw [hsent, List.append_assoc]
          exact List.Perm.append_left gone
            ((ih arrivals.tail (sb :: kept) h).trans List.perm_middle.symm)
        · rw [hwait] at h ⊢
          rw [hsent, List.append_assoc, List.append_assoc]
          exact List.Perm.append_left gone
            ((List.Perm.cons sb (ih arrivals.tail kept h)).trans List.perm_middle.symm)
      · exact absurd h hok
      · rw [List.filter_cons_of_neg hsel]
        exact ih _ _ h

/-- **The order**: what is below a directory is sent before it. -/
theorem restoreLoop_settled : ∀ (manifest : List Sbuf)
    (arrivals : List (List (Store.Cmd × Bytes)))
    (sblist : List Sbuf), manifest.Pairwise Upto → sblist.Pairwise (fun a b => Upto b a) →
    (∀ d ∈ sblist, ∀ e ∈ manifest, Upto d e) →
    (restoreLoop ok sel ends arrivals manifest sblist).ok = true →
      (restoreLoop ok sel ends arrivals manifest sblist).sent.Pairwise Settled := by
  intro manifest
  induction manifest with
  | nil =>
      intro arrivals sblist _ hstack _ h
      unfold restoreLoop at h ⊢
      split_ifs at h ⊢
      rw [restoreLeft_spec h]
      exact hstack.imp settled_of_upto
  | cons sb manifest ih =>
      intro arrivals sblist hsorted hstack hbefore h
      obtain ⟨hsb, hsorted'⟩ := List.pairwise_cons.mp hsorted
      unfold restoreLoop at h ⊢
      simp only at h ⊢
      split_ifs at h ⊢ with hquick hsel hok
      · obtain ⟨gone, kept, rfl, hleft, hcase⟩ := restoreEnt_spec hok
        obtain ⟨hgone, hkept, hacross⟩ := List.pairwise_append.mp hstack
        have hkeptsb : ∀ d ∈ kept, Upto d sb := fun d hd =>
          hbefore d (List.mem_append_right _ hd) sb List.mem_cons_self
        have hkeptrest : ∀ d ∈ kept, ∀ e ∈ manifest, Upto d e := fun d hd e he =>
          hbefore d (List.mem_append_right _ hd) e (List.mem_cons_of_mem _ he)
        -- what has been let go is settled with everything that comes
        have hsettled : ∀ d ∈ gone, ∀ e, e = sb ∨ e ∈ kept ∨ e ∈ manifest → Settled d e := by
          intro d hd e he
          have hdsb : Upto d sb := hbefore d (List.mem_append_left _ hd) sb List.mem_cons_self
          rcases he with rfl | he | he
          · exact settled_of_left hdsb (Upto.refl e) (hleft d hd)
          · exact settled_of_upto (hacross d hd e he)
          · exact settled_of_left hdsb (hsb e he) (hleft d hd)
        rcases hcase with ⟨-, hsent, hwait⟩ | ⟨hdir, hsent, hwait⟩
        · rw [hwait] at h ⊢
          have hpair := ih arrivals.tail (sb :: kept) hsorted'
            (List.pairwise_cons.mpr ⟨hkeptsb, hkept⟩) (by
              intro d hd e he
              rcases List.mem_cons.mp hd with rfl | hd
              · exact hsb e he
              · exact hkeptrest d hd e he) h
          rw [hsent]
          refine List.pairwise_append.mpr ⟨hgone.imp settled_of_upto, hpair, ?_⟩
          intro d hd e he
          have hmem := (restoreLoop_perm manifest arrivals.tail (sb :: kept) h).mem_iff.mp he
          simp only [List.cons_append, List.mem_cons, List.mem_append, List.mem_filter] at hmem
          exact hsettled d hd e (by tauto)
        · rw [hwait] at h ⊢
          have hpair := ih arrivals.tail kept hsorted' hkept hkeptrest h
          rw [hsent, List.append_assoc]
          refine List.pairwise_append.mpr ⟨hgone.imp settled_of_upto, ?_, ?_⟩
          · refine List.pairwise_cons.mpr ⟨?_, hpair⟩
            intro e _ hd
            rw [hdir] at hd
            cases hd
          · intro d hd e he
            rcases List.mem_cons.mp he with rfl | he
            · exact hsettled d hd e (Or.inl rfl)
            · have hmem := (restoreLoop_perm manifest arrivals.tail kept h).mem_iff.mp he
              simp only [List.mem_append, List.mem_filter] at hmem
              exact hsettled d hd e (by tauto)
      · exact absurd h hok
      · exact ih _ _ hsorted' hstack
          (fun d hd e he => hbefore d hd e (List.mem_cons_of_mem _ he)) h

end Order

/-- A list in the order of `sbuf_pathcmp` is in the order of paths. -/
theorem upto_of_sbufPathcmp {a b : Sbuf} (h : sbufPathcmp a b ≤ 0) : Upto a b := by
  unfold Upto
  unfold sbufPathcmp at h
  by_cases hp : pathcmp a.path b.path = 0
  · exact hp.le
  · simpa only [ne_eq, hp, not_false_eq_true, if_true] using h

section Errors

variable {ok : Sbuf → Bool} {sel : Selection} {path : Option Bytes} {sblist : List Sbuf}

theorem restoreWaiting_ok (h : ∀ sb ∈ sblist, ok sb = true) :
    (restoreWaiting ok path sblist).ok = true := by
  induction sblist with
  | nil => rfl
  | cons d sblist ih =>
      unfold restoreWaiting
      split_ifs with hsub hd
      · rfl
      · exact ih fun sb hsb => h sb (List.mem_cons_of_mem _ hsb)
      · exact absurd (h d List.mem_cons_self) hd

theorem restoreEnt_ok {sb : Sbuf} (hsb : ok sb = true) (h : ∀ d ∈ sblist, ok d = true) :
    (restoreEnt ok sb sblist).ok = true := by
  have hwaiting : (restoreWaiting ok sb.path sblist).ok = true := restoreWaiting_ok h
  unfold restoreEnt
  simp only
  split_ifs with hp hdir
  · simp [hwaiting] at hp
  · exact hwaiting
  · exact hsb

theorem restoreLeft_ok (h : ∀ sb ∈ sblist, ok sb = true) : (restoreLeft ok sblist).ok = true := by
  induction sblist with
  | nil => rfl
  | cons d sblist ih =>
      unfold restoreLeft
      rw [if_pos (h d List.mem_cons_self)]
      exact ih fun sb hsb => h sb (List.mem_cons_of_mem _ hsb)

/-- Where nothing fails, the loop does not fail. -/
theorem restoreLoop_ok : ∀ (manifest : List Sbuf) (arrivals : List (List (Store.Cmd × Bytes)))
    (sblist : List Sbuf), (∀ sb, sb ∈ sblist ∨ sb ∈ manifest → ok sb = true) →
    (∀ messages ∈ arrivals, readsQuick messages = true) →
    (restoreLoop ok sel true arrivals manifest sblist).ok = true := by
  intro manifest
  have hhead : ∀ arrivals : List (List (Store.Cmd × Bytes)),
      (∀ messages ∈ arrivals, readsQuick messages = true) →
      readsQuick (arrivals.headD []) = true := by
    intro arrivals h
    cases arrivals with
    | nil => rfl
    | cons messages arrivals => exact h messages List.mem_cons_self
  induction manifest with
  | nil =>
      intro arrivals sblist hok harr
      unfold restoreLoop
      rw [if_pos ⟨hhead arrivals harr, rfl⟩]
      exact restoreLeft_ok fun sb hsb => hok sb (Or.inl hsb)
  | cons sb manifest ih =>
      intro arrivals sblist hok harr
      have hsb := restoreEnt_ok (hok sb (Or.inr List.mem_cons_self)) fun d hd => hok d (Or.inl hd)
      have harr' : ∀ messages ∈ arrivals.tail, readsQuick messages = true :=
        fun messages hm => harr messages (List.mem_of_mem_tail hm)
      unfold restoreLoop
      simp only
      rw [if_pos (hhead arrivals harr)]
      split_ifs with hsel
      · refine ih _ _ (fun d hd => ?_) harr'
        rcases hd with hd | hd
        · rcases mem_restoreEnt (Or.inr hd) with rfl | hd
          · exact hok d (Or.inr List.mem_cons_self)
          · exact hok d (Or.inl hd)
        · exact hok d (Or.inr (List.mem_cons_of_mem _ hd))
      · exact ih _ _ (fun d hd => hok d (hd.imp_right (List.mem_cons_of_mem _))) harr'

end Errors

/-- **A restore** without errors sends everything that is selected once, and a directory after
all that is below it. -/
theorem restoreManifest_sends (ok : Sbuf → Bool) (sel : Selection) (ends : Bool)
    (arrivals : List (List (Store.Cmd × Bytes))) (manifest : List Sbuf)
    (last : List (Store.Cmd × Bytes)) (hsorted : manifest.Pairwise fun a b => sbufPathcmp a b ≤ 0) :
    ((∀ sb ∈ manifest, ok sb = true) → ends = true →
        (∀ messages ∈ arrivals, readsQuick messages = true) → doRestoreEnd last = true →
        (restoreManifest ok sel ends arrivals manifest last).1 = true)
      ∧ ((restoreManifest ok sel ends arrivals manifest last).1 = true →
        (restoreManifest ok sel ends arrivals manifest last).2.Perm (manifest.filter sel.selects)
          ∧ ∀ before d after, (restoreManifest ok sel ends arrivals manifest last).2
              = before ++ d :: after → d.statp.isDir = true →
            ∀ e ∈ after, ¬ Store.Below d.path e.path) := by
  constructor
  · intro hok hends harr hlast
    subst hends
    have hloop : (restoreLoop ok sel true arrivals manifest []).ok = true := restoreLoop_ok _ _ _
      (fun sb hsb => hok sb (hsb.resolve_left (by simp))) harr
    show (_ && _) = true
    rw [hloop, hlast]
    rfl
  · intro hret
    have hok : (restoreLoop ok sel ends arrivals manifest []).ok = true :=
      (Bool.and_eq_true _ _ ▸ hret).1
    have hpair := restoreLoop_settled manifest arrivals [] (hsorted.imp upto_of_sbufPathcmp)
      List.Pairwise.nil (by simp) hok
    refine ⟨restoreLoop_perm manifest arrivals [] hok, ?_⟩
    intro before d after hsplit hdir e he
    have hsent : (restoreLoop ok sel ends arrivals manifest []).sent = before ++ d :: after :=
      hsplit
    rw [hsent] at hpair
    exact (List.pairwise_cons.mp (List.pairwise_append.mp hpair).2.1).1 e he hdir

/-- A directory with its metadata and a file in it, and a file beside it. -/
def sampleManifest : List Sbuf :=
  [{ cmd := .directory, path := some [47, 97], statp := { mode := 0o40755 } },
   { cmd := .metadata, path := some [47, 97], statp := { mode := 0o40755 } },
   { cmd := .file, path := some [47, 97, 47, 98], statp := { mode := 0o100644 } },
   { cmd := .file, path := some [47, 99], statp := { mode := 0o100644 } }]

/-- Everything under "/a", for a restore that the server has started. -/
def sampleSelection : Selection := ⟨true, [([47, 97], true)], none⟩

theorem sampleManifest_sent :
    (restoreManifest (fun _ => true) sampleSelection true [[(.warning, [120])]] sampleManifest
        [(.interrupt, []), (.gen, nameBytes "restoreend ok")]).1 = true
      ∧ (restoreManifest (fun _ => true) sampleSelection true [[(.warning, [120])]] sampleManifest
          [(.interrupt, []), (.gen, nameBytes "restoreend ok")]).2.Perm
            (sampleManifest.filter sampleSelection.selects) := by
  have hsends := restoreManifest_sends (fun _ => true) sampleSelection true [[(.warning, [120])]]
    sampleManifest [(.interrupt, []), (.gen, nameBytes "restoreend ok")] (by decide)
  have hret := hsends.1 (fun _ _ => rfl) rfl (by decide) (by decide)
  exact ⟨hret, (hsends.2 hret).1⟩

end Burp.Restore
