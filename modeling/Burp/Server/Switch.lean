/-
  Burp.Server.Switch — who may become whom.

  A client may switch to a client whose configuration names it in `restore_client`.  It may do
  so again and again, and what counts for a switch is the client that it is at the time: a
  client that B permits, and that has become B, is let in by whoever permits B.

  Main results:
    * `switches_permitted_iff` — every session ends with a client that permits the first one
      if and only if permissions are transitive.
-/
import Burp.Server.Child

namespace Burp.Server

open FileSystem Burp.Store Burp.Phase2

/-! ## §1. Sessions with switches. -/

/-- The configuration of `name` lets `client` restore from it. -/
def Permits (load : Bytes → Option ClientConf) (name client : Bytes) : Prop :=
  ∃ cconf, load name = some cconf ∧ client ∈ cconf.rclients

/-- A message that asks for a switch is answered in the course of a session. -/
def AsksToSwitch (load : Bytes → Option ClientConf) : List Arrival → Session → Prop
  | [], _ => False
  | a :: arrivals, s =>
      (s.reading = .loop ∧ a.cmd = .gen ∧ ∃ name, requestOf (cString a.buf) = .origClient name)
        ∨ (step load a s).2 = .goOn ∧ AsksToSwitch load arrivals (step load a s).1

/-- The session of `extra_comms` has a switch in it. -/
def Switched (load : Bytes → Option ClientConf) (cliVer : Int) (client : Bytes)
    (cconf : ClientConf) (arrivals : List Arrival) : Prop :=
  minVer ≤ cliVer ∧ AsksToSwitch load arrivals.tail (start cliVer client cconf)

section Kept

variable {load : Bytes → Option ClientConf} {a : Arrival} {s s' : Session}

/-- Reading a restore file leaves alone who has switched. -/
theorem parseIncexcsPath_restoreClient {files : Bytes → AtPath} {path : Option Bytes}
    {cconf cconf' : ClientConf} (h : parseIncexcsPath files path cconf = some cconf') :
    cconf'.restoreClient = cconf.restoreClient := by
  unfold parseIncexcsPath at h
  split at h
  · cases h
    rfl
  · cases h

/-- Once there was a switch, it stays known. -/
theorem restoreClient_kept (h : Changes load a s s') (hs : s.cconf.restoreClient.isSome = true) :
    s'.cconf.restoreClient.isSome = true := by
  cases h with
  | speaks _ _ hrestoreClient => rwa [hrestoreClient]
  | accepts _ _ hparse => rwa [parseIncexcsPath_restoreClient hparse]
  | switches name sconf _ _ _ _ _ hconf =>
      split_ifs at hconf with hsr
      · rw [parseIncexcsPath_restoreClient hconf]
        rfl
      · rw [← Option.some.inj hconf]
        rfl

/-- A request for a switch that is not an error is a switch. -/
theorem restoreClient_switch {name : Bytes} (hreading : s.reading = .loop) (hcmd : a.cmd = .gen)
    (hreq : requestOf (cString a.buf) = .origClient name)
    (h : (step load a s).2 = .goOn ∨ (step load a s).2 = .done) :
    (step load a s).1.cconf.restoreClient.isSome = true := by
  have hstep : step load a s = switchTo load a name s := by
    unfold step answerRequest
    simp only [hreading, hcmd, hreq, if_true]
  rw [hstep] at h ⊢
  unfold switchTo at h ⊢
  cases hload : load name with
  | none => simp [hload] at h
  | some sconf =>
      simp only [hload] at h ⊢
      by_cases hallowed : s.client ∈ sconf.rclients
      · rw [if_pos (List.contains_iff_mem.mpr hallowed)] at h ⊢
        cases hconf : (if s.srestore then
            parseIncexcsPath a.files s.cconf.restorePath (switchedConf s name sconf)
          else some (switchedConf s name sconf)) with
        | none =>
            rw [hconf] at h
            simp at h
        | some cconf =>
            show cconf.restoreClient.isSome = true
            split_ifs at hconf with hsr
            · rw [parseIncexcsPath_restoreClient hconf]
              rfl
            · cases hconf
              rfl
      · rw [if_neg (mt List.contains_iff_mem.mp hallowed)] at h
        simp at h

end Kept

/-- A session with a switch ends with a configuration that knows of it. -/
theorem run_switched {load : Bytes → Option ClientConf} : ∀ {arrivals : List Arrival}
    {s : Session}, AsksToSwitch load arrivals s → (run load arrivals s).2 = .done →
    (run load arrivals s).1.cconf.restoreClient.isSome = true := by
  intro arrivals
  induction arrivals with
  | nil =>
      intro s hasks _
      exact hasks.elim
  | cons a arrivals ih =>
      intro s hasks h
      have hcases : (step load a s).2 = .goOn ∨ (step load a s).2 = .done →
          (step load a s).2 = .goOn ∧ AsksToSwitch load arrivals (step load a s).1
            ∨ (step load a s).1.cconf.restoreClient.isSome = true := by
        intro hret
        rcases hasks with ⟨hreading, hcmd, name, hreq⟩ | hrest
        · exact Or.inr (restoreClient_switch hreading hcmd hreq hret)
        · exact Or.inl hrest
      unfold run at h ⊢
      generalize step load a s = r at h hcases ⊢
      obtain ⟨s', ret⟩ := r
      cases ret with
      | goOn =>
          rcases hcases (Or.inl rfl) with ⟨-, hrest⟩ | hsome
          · exact ih hrest h
          · exact run_keeps (P := fun s => s.cconf.restoreClient.isSome = true)
              (fun _ _ _ _ hs hc => restoreClient_kept hc hs) hsome h
      | done =>
          rcases hcases (Or.inr rfl) with ⟨hgo, -⟩ | hsome
          · cases hgo
          · exact hsome
      | error => simp at h
      | exits => simp at h

theorem extraComms_switched {load : Bytes → Option ClientConf} {cliVer : Int} {client : Bytes}
    {cconf : ClientConf} {arrivals : List Arrival}
    (h : (extraComms load cliVer client cconf arrivals).2 = .done)
    (hswitched : Switched load cliVer client cconf arrivals) :
    (extraComms load cliVer client cconf arrivals).1.cconf.restoreClient.isSome = true := by
  obtain ⟨hver, hasks⟩ := hswitched
  unfold extraComms at h ⊢
  simp only at h ⊢
  split_ifs at h ⊢ with hneg hold
  · omega
  · cases arrivals with
    | nil => exact hasks.elim
    | cons a arrivals =>
        simp only at h ⊢
        split_ifs at h ⊢ with hbegin
        exact run_switched hasks h

/-! ## §2. Permissions. -/

/-- What switching is meant to guarantee for a client: every session that it opens ends with a
client that permits it, and with no way to make a backup if there was a switch. -/
def SwitchesPermitted (load : Bytes → Option ClientConf) (client : Bytes) : Prop :=
  ∀ (cliVer : Int) (cconf : ClientConf) (arrivals : List Arrival),
    (extraComms load cliVer client cconf arrivals).2 = .done →
    ((extraComms load cliVer client cconf arrivals).1.client = client
        ∨ Permits load (extraComms load cliVer client cconf arrivals).1.client client)
      ∧ (Switched load cliVer client cconf arrivals →
          ∀ (w : Around) (buf : Bytes), (nameBytes "backupphase1").isPrefixOf (cString buf) = true →
            child w (extraComms load cliVer client cconf arrivals).1.cconf .gen buf
              = .refuse "Backup is not allowed")

/-- Whoever permits a client that permits this one permits this one. -/
def PermissionsTransitive (load : Bytes → Option ClientConf) (client : Bytes) : Prop :=
  ∀ b c, IsName b → IsName c → Permits load b client → Permits load c b →
    c = client ∨ Permits load c client

section Chain

variable {load : Bytes → Option ClientConf} {client : Bytes}

theorem final_permitted (htrans : PermissionsTransitive load client) {cliVer : Int}
    {cconf : ClientConf} {arrivals : List Arrival}
    (h : (extraComms load cliVer client cconf arrivals).2 = .done) :
    (extraComms load cliVer client cconf arrivals).1.client = client
      ∨ Permits load (extraComms load cliVer client cconf arrivals).1.client client := by
  have hkept := extraComms_keeps (P := fun s : Session => s.client = client
      ∨ IsName s.client ∧ Permits load s.client client) ?_ (Or.inl rfl) h
  · exact hkept.imp_right And.right
  · intro a _ s s' hs hc
    cases hc with
    | speaks hclient => rwa [hclient]
    | accepts hclient => rwa [hclient]
    | switches name sconf hname hload hallowed hclient =>
        rw [hclient]
        have hnext : Permits load name s.client := ⟨sconf, hload, hallowed⟩
        rcases hs with hs | ⟨hsname, hs⟩
        · exact Or.inr ⟨hname, hs ▸ hnext⟩
        · rcases htrans s.client name hsname hname hs hnext with hsame | hpermits
          · exact Or.inl hsame
          · exact Or.inr ⟨hname, hpermits⟩

/-- The messages of a session with two switches. -/
def twoSwitches (b c : Bytes) : List Arrival :=
  [{ buf := nameBytes "extra_comms_begin" }, { buf := nameBytes "orig_client=" ++ b },
   { buf := nameBytes "orig_client=" ++ c }, { buf := nameBytes "extra_comms_end" }]

/-- A text that begins with another letter. -/
theorem ne_of_head {text : Bytes} {c d : UInt8} {b : Bytes} (htext : text.head? = some c)
    (hb : b.head? = some d) (hne : c ≠ d) : text ≠ b ∧ b.isPrefixOf text = false := by
  cases text with
  | nil => simp at htext
  | cons x text =>
      cases b with
      | nil => simp at hb
      | cons y b =>
          have hx : x = c := by simpa using htext
          have hy : y = d := by simpa using hb
          subst hx hy
          constructor
          · intro h
            exact hne (List.cons.inj h).1
          · show (y == x && _) = false
            rw [beq_false_of_ne hne.symm]
            rfl

theorem requestOf_switch {name : Bytes} (hname : IsName name) :
    requestOf (cString (nameBytes "orig_client=" ++ name)) = .origClient name := by
  have hcString : cString (nameBytes "orig_client=" ++ name)
      = nameBytes "orig_client=" ++ name := by
    unfold cString
    rw [List.takeWhile_eq_self_iff]
    intro c hc
    rcases List.mem_append.mp hc with hc | hc
    · have hword : ∀ c ∈ nameBytes "orig_client=", decide (c ≠ 0) = true := by decide +kernel
      exact hword c hc
    · exact decide_eq_true fun h => hname.2 (h ▸ hc)
  have hhead : (nameBytes "orig_client=" ++ name).head? = some 111 := rfl
  have hlength : (nameBytes "orig_client=").length < (nameBytes "orig_client=" ++ name).length := by
    rw [List.length_append]
    have := List.length_pos_of_ne_nil hname.1
    omega
  have hstarts : (nameBytes "orig_client=").isPrefixOf (nameBytes "orig_client=" ++ name) = true :=
    List.isPrefixOf_iff_prefix.mpr (List.prefix_append _ _)
  have hdrop : (nameBytes "orig_client=" ++ name).drop (nameBytes "orig_client=").length = name :=
    List.drop_left
  rw [hcString]
  generalize nameBytes "orig_client=" ++ name = text at hhead hlength hstarts hdrop ⊢
  unfold requestOf
  -- no other text begins with that letter
  rw [if_neg (ne_of_head hhead (d := 101) rfl (by decide)).1,
    if_neg (by rw [(ne_of_head hhead (d := 97) rfl (by decide)).2]; simp),
    if_neg (ne_of_head hhead (d := 115) rfl (by decide)).1,
    if_neg (ne_of_head hhead (d := 115) rfl (by decide)).1,
    if_neg (ne_of_head hhead (d := 115) rfl (by decide)).1,
    if_neg (ne_of_head hhead (d := 105) rfl (by decide)).1,
    if_neg (ne_of_head hhead (d := 99) rfl (by decide)).1, if_pos ⟨hstarts, hlength⟩,
    hdrop]

/-- A switch that is permitted. -/
theorem step_switch {name : Bytes} {sconf : ClientConf} {s : Session} (hname : IsName name)
    (hload : load name = some sconf) (hallowed : s.client ∈ sconf.rclients)
    (hreading : s.reading = .loop) (hsrestore : s.srestore = false) :
    step load { buf := nameBytes "orig_client=" ++ name } s
      = ({ s with client := name, cconf := switchedConf s name sconf }, .goOn) := by
  obtain ⟨client', cconf', srestore', incexc', reading'⟩ := s
  cases hreading
  cases hsrestore
  unfold step
  simp only [if_true]
  unfold answerRequest
  simp only [requestOf_switch hname]
  unfold switchTo
  simp only [hload, if_pos (List.contains_iff_mem.mpr hallowed),
      Bool.false_eq_true, if_false, if_true]

theorem twoSwitches_client {b c : Bytes} (hb : IsName b) (hc : IsName c)
    (hpb : Permits load b client) (hpc : Permits load c b) :
    (extraComms load minVer client {} (twoSwitches b c)).2 = .done
      ∧ (extraComms load minVer client {} (twoSwitches b c)).1.client = c := by
  obtain ⟨bconf, hloadb, hallowedb⟩ := hpb
  obtain ⟨cconf, hloadc, hallowedc⟩ := hpc
  have hbegin : cString (nameBytes "extra_comms_begin") = nameBytes "extra_comms_begin" := by
    decide
  have hend : requestOf (cString (nameBytes "extra_comms_end")) = .extraCommsEnd := by decide
  have hrun : extraComms load minVer client {} (twoSwitches b c)
      = run load (twoSwitches b c).tail (start minVer client {}) := by
    unfold extraComms
    simp only
    rw [if_neg (by decide), if_neg (by decide)]
    show (if _ then _ else _) = _
    rw [if_pos ⟨rfl, hbegin, rfl⟩]
    rfl
  have hswitchb := step_switch (s := start minVer client {}) hb hloadb hallowedb rfl rfl
  have hswitchc := step_switch (s := { start minVer client {} with
    client := b, cconf := switchedConf (start minVer client {}) b bconf })
        hc hloadc hallowedc rfl rfl
  rw [hrun]
  unfold twoSwitches
  rw [List.tail_cons, run, hswitchb]
  simp only
  rw [run, hswitchc]
  simp only
  rw [run, step]
  simp only [if_true]
  unfold answerRequest
  simp only [hend, if_true]
  exact ⟨rfl, rfl⟩

end Chain

/-- **Switching** needs the permission of every client for the first one exactly if
permissions are transitive. -/
theorem switches_permitted_iff (load : Bytes → Option ClientConf) (client : Bytes) :
    SwitchesPermitted load client ↔ PermissionsTransitive load client := by
  constructor
  · intro h b c hb hc hpb hpc
    obtain ⟨hdone, hclient⟩ := twoSwitches_client hb hc hpb hpc
    have hfinal := (h minVer {} (twoSwitches b c) hdone).1
    rwa [hclient] at hfinal
  · intro htrans cliVer cconf arrivals hdone
    refine ⟨final_permitted htrans hdone, ?_⟩
    intro hswitched w buf hbuf
    exact child_backup_refused (extraComms_switched hdone hswitched) hbuf

/-- B permits A, and C permits B but not A. -/
def sampleLoad (name : Bytes) : Option ClientConf :=
  if name = [66] then some { rclients := [[65]] }
  else if name = [67] then some { rclients := [[66]] }
  else if name = [65] then some {}
  else none

/-- **Two switches** lead to a client that does not permit the first one. -/
theorem not_always_permitted : ¬ ∀ load client, SwitchesPermitted load client := by
  intro hall
  have hb : Permits sampleLoad [66] [65] := ⟨_, rfl, by simp⟩
  have hc : Permits sampleLoad [67] [66] := ⟨_, rfl, by simp⟩
  obtain ⟨hdone, hclient⟩ := twoSwitches_client ⟨by simp, by decide⟩ ⟨by simp, by decide⟩ hb hc
  have hfinal := (hall sampleLoad [65] minVer {} (twoSwitches [66] [67]) hdone).1
  rw [hclient] at hfinal
  rcases hfinal with hsame | ⟨cconf, hload, hmem⟩
  · exact absurd hsame (by decide)
  · have hconf : cconf = { rclients := [[66]] } := (Option.some.inj hload).symm
    rw [hconf] at hmem
    exact absurd hmem (by decide)

end Burp.Server
