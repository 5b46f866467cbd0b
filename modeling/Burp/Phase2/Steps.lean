/-
  Burp.Phase2.Steps — what each part of a turn can do.

  Of the three parts of a turn, receiving changes the file that is being received, the
  counter and the last request; sending changes what is left to send; and only the last
  part looks at the two lists.  Each of them adds to the log what it does.

  Main results:
    * `doStuffToReceive_cases` — what can come of an arrival.
    * `doStuffToSend_spec`, `nextEntry_spec` — what the other two parts change.
    * `run_keeps` — what every turn keeps, a run keeps.
-/
import Burp.Phase2.Server

namespace Burp.Phase2

open FileSystem Burp.Store

/-! ## §1. Runs. -/

/-- A condition on every turn of a run. -/
def Throughout (conf : Conf) (working : Bytes) (cond : Turn → State → Prop) :
    List Turn → State → Prop
  | [], _ => True
  | t :: ts, s => cond t s ∧ Throughout conf working cond ts (turn conf working t s).1

section Runs

variable {conf : Conf} {working : Bytes}

instance {cond : Turn → State → Prop} [∀ t s, Decidable (cond t s)] :
    ∀ (ts : List Turn) (s : State), Decidable (Throughout conf working cond ts s)
  | [], _ => isTrue trivial
  | t :: ts, s =>
      have : Decidable (Throughout conf working cond ts (turn conf working t s).1) :=
        instDecidableThroughout ts _
      inferInstanceAs (Decidable (cond t s ∧ _))

/-- **Runs**: `P` holds as long as the loop goes on, and `Q` of its end. -/
theorem run_ends {cond : Turn → State → Prop} {P : State → Prop} {Q : State × Loop → Prop}
    (hmore : ∀ s, P s → Q (s, .more))
    (hturn : ∀ t s, P s → cond t s → (turn conf working t s).2 = .more →
      P (turn conf working t s).1)
    (hend : ∀ t s, P s → cond t s → (turn conf working t s).2 ≠ .more →
      Q (turn conf working t s)) :
    ∀ (ts : List Turn) (s : State), P s → Throughout conf working cond ts s →
      Q (run conf working ts s)
  | [], s, h, _ => hmore s h
  | t :: ts, s, h, hc => by
      have hgo := hturn t s h hc.1
      have hstop := hend t s h hc.1
      have hrest := hc.2
      unfold run
      generalize turn conf working t s = result at hgo hstop hrest ⊢
      obtain ⟨s', r⟩ := result
      cases r with
      | more => exact run_ends hmore hturn hend ts s' (hgo rfl) hrest
      | done => exact hstop (by simp)
      | error => exact hstop (by simp)

/-- **Runs**: what every turn under a condition keeps, a run under it keeps. -/
theorem run_keeps {cond : Turn → State → Prop} {P : State → Prop}
    (hturn : ∀ t s, P s → cond t s → P (turn conf working t s).1) (ts : List Turn) (s : State)
    (h : P s) (hc : Throughout conf working cond ts s) : P (run conf working ts s).1 :=
  run_ends (Q := fun r => P r.1) (fun _ hs => hs) (fun t s hs hcond _ => hturn t s hs hcond)
    (fun t s hs hcond _ => hturn t s hs hcond) ts s h hc

/-- `backup_phase2_server` returns 0 where the loop has ended well. -/
theorem returned_ok {ts : List Turn} {closes : Bool} {s s' : State} {ret : Returned}
    (hret : backupPhase2Server conf working ts closes s = (s', some ret)) (hok : ret.ok = true) :
    (run conf working ts s).2 = .done ∧ (run conf working ts s).1 = s' := by
  unfold backupPhase2Server at hret
  generalize run conf working ts s = result at hret ⊢
  obtain ⟨s'', r⟩ := result
  cases r with
  | more => simp at hret
  | done => exact ⟨rfl, (Prod.mk.inj hret).1⟩
  | error =>
      simp only [Prod.mk.injEq, Option.some.injEq] at hret
      rw [← hret.2] at hok
      cases hok

/-- **A turn**, from its parts: `R` holds after receiving. -/
theorem turn_cases {R : State → Prop} {P : State × Loop → Prop} {t : Turn} {s : State}
    (skipped : receives t s = false → R s)
    (received : receives t s = true → (doStuffToReceive conf working t s).2 = .more →
      R (doStuffToReceive conf working t s).1)
    (stops : receives t s = true → (doStuffToReceive conf working t s).2 ≠ .more →
      P (doStuffToReceive conf working t s))
    (again : ∀ s', R s' → (doStuffToSend t s').2 = .again → P ((doStuffToSend t s').1, .more))
    (fails : ∀ s', R s' → (doStuffToSend t s').2 = .error → P ((doStuffToSend t s').1, .error))
    (next : ∀ s', R s' → (doStuffToSend t s').2 = .all →
      P (nextEntry conf t (doStuffToSend t s').1)) :
    P (turn conf working t s) := by
  have hgo : ∀ s', R s' → P (sendAndGoOn conf t s') := by
    intro s' hs'
    have hagain := again s' hs'
    have hfails := fails s' hs'
    have hnext := next s' hs'
    unfold sendAndGoOn
    generalize doStuffToSend t s' = result at hagain hfails hnext ⊢
    obtain ⟨s'', r⟩ := result
    cases r with
    | again => exact hagain rfl
    | error => exact hfails rfl
    | all => exact hnext rfl
  unfold turn
  cases hr : receives t s with
  | false => exact hgo s (skipped hr)
  | true =>
      have hreceived := received hr
      have hstops := stops hr
      generalize doStuffToReceive conf working t s = result at hreceived hstops ⊢
      obtain ⟨s', r⟩ := result
      cases r with
      | more => exact hgo s' (hreceived rfl)
      | done => exact hstops (by simp)
      | error => exact hstops (by simp)

/-- What every part of a turn keeps, the turn keeps. -/
theorem turn_keeps {P : State → Prop} {t : Turn} {s : State} (h : P s)
    (hreceive : receives t s = true → P (doStuffToReceive conf working t s).1)
    (hsend : ∀ s, P s → P (doStuffToSend t s).1) (hnext : ∀ s, P s → P (nextEntry conf t s).1) :
    P (turn conf working t s).1 :=
  turn_cases (R := P) (P := fun r => P r.1) (fun _ => h) (fun hr _ => hreceive hr)
    (fun hr _ => hreceive hr) (fun s' hs' _ => hsend s' hs') (fun s' hs' _ => hsend s' hs')
    (fun s' hs' _ => hnext _ (hsend s' hs'))

end Runs

/-- No write has failed. -/
def NoneFailed (s : State) : Prop := ∀ writer sb, Event.failed writer sb ∉ s.log

def Event.isFailed : Event → Bool
  | .failed _ _ => true
  | _ => false

theorem noneFailed_iff (s : State) : NoneFailed s ↔ ∀ e ∈ s.log, e.isFailed = false := by
  refine ⟨fun h e he => ?_, fun h writer sb hmem => ?_⟩
  · cases e with
    | failed writer sb => exact absurd he (h writer sb)
    | _ => rfl
  · cases h _ hmem

instance (s : State) : Decidable (NoneFailed s) := decidable_of_iff _ (noneFailed_iff s).symm

/-- Nothing fails in what is added to a log. -/
theorem NoneFailed.append {s s' : State} {es : List Event} (h : NoneFailed s)
    (hlog : s'.log = s.log ++ es) (hes : ∀ writer sb, Event.failed writer sb ∉ es) :
    NoneFailed s' := by
  intro writer sb hmem
  rw [hlog, List.mem_append] at hmem
  rcases hmem with hmem | hmem
  · exact h writer sb hmem
  · exact hes writer sb hmem

/-- Nothing has failed in a log that has gone on. -/
theorem NoneFailed.before {s s' : State} {es : List Event} (h : NoneFailed s')
    (hlog : s'.log = s.log ++ es) : NoneFailed s := by
  intro writer sb hmem
  refine h writer sb ?_
  rw [hlog]
  exact List.mem_append_left _ hmem

/-! ## §2. Receiving. -/

/-- **What can come of an arrival.** -/
theorem doStuffToReceive_cases {conf : Conf} {working : Bytes} {t : Turn} {s : State}
    {P : State × Loop → Prop}
    (idle : ∀ lr, P ({ s with lastRequested := lr }, .more))
    (done : ∀ text, t.arrival = .message .gen text → P (s, .done))
    (error : P (s, .error))
    (datapth : ∀ text, t.arrival = .message .datapth text → s.rb.isOpen = false →
      P ({ s with rb := { s.rb with sb := { s.rb.sb with datapth := some text } } }, .more))
    (stat : ∀ text, t.arrival = .message .stat text → s.rb.isOpen = false →
      P ({ s with rb := { s.rb with sb := { s.rb.sb with statbuf := text } } }, .more))
    (delta : ∀ cmd text, t.arrival = .message cmd text → s.rb.isOpen = false →
      cmd.filedata = true → s.rb.sb.datapth ≠ none →
      P (startToReceiveDelta working t { s.rb.sb with cmd := cmd, path := some text } s))
    (whole : ∀ cmd text, t.arrival = .message cmd text → s.rb.isOpen = false →
      cmd.filedata = true → s.rb.sb.datapth = none →
      P (startToReceiveNewFile conf working t { s.rb.sb with cmd := cmd, path := some text } s))
    (ended : ∀ text, t.arrival = .message .endFile text → s.rb.isOpen = true →
      P (receiveEnd working t text s)) :
    P (doStuffToReceive conf working t s) := by
  unfold doStuffToReceive
  cases harr : t.arrival with
  | error => exact error
  | nothing => exact idle s.lastRequested
  | message cmd text =>
      simp only
      split_ifs with hwarning hopen happend hok hend hdatapth hstat hdata hdelta hgen hinterrupt
      case _ => exact idle s.lastRequested
      case _ => exact idle s.lastRequested
      case _ => exact error
      case _ =>
        subst hend
        exact ended text harr hopen
      case _ => exact error
      case _ =>
        subst hdatapth
        exact datapth text harr (by simpa using hopen)
      case _ =>
        subst hstat
        exact stat text harr (by simpa using hopen)
      case _ => exact delta cmd text harr (by simpa using hopen) hdata (by
          intro h; simp [h] at hdelta)
      case _ => exact whole cmd text harr (by simpa using hopen) hdata (by simpa using hdelta)
      case _ =>
        rw [hgen.1] at harr
        exact done text harr
      case _ => exact idle _
      case _ => exact error

/-- What receiving leaves alone, and what it adds to the log. -/
structure Receives (s s' : State) (es : List Event) : Prop where
  p1 : s'.p1 = s.p1
  cman : s'.cman = s.cman
  cb : s'.cb = s.cb
  p1b : s'.p1b = s.p1b
  log : s'.log = s.log ++ es

/-- A whole file is stored in the tree. -/
def inTree (conf : Conf) (sb : Sbuf) : Bool := conf.directoryTree && (treedata sb).2

/-- The data path of a whole file. -/
def wholeDatapth (conf : Conf) (d : Dpth) (sb : Sbuf) : Bytes :=
  if inTree conf sb then prependS [116] (sb.path.getD []) else mkDpth conf d sb.cmd

/-- Where it is received. -/
def wholeRpath (conf : Conf) (working : Bytes) (d : Dpth) (sb : Sbuf) : Bytes :=
  prependS (datadirtmp working) (wholeDatapth conf d sb)

/-- Decoding the stat leaves the rest of an entry alone. -/
theorem treedata_spec (sb : Sbuf) : (treedata sb).1.cmd = sb.cmd
    ∧ (treedata sb).1.path = sb.path ∧ (treedata sb).1.statbuf = sb.statbuf := by
  unfold treedata
  generalize decodeStat sb sb.statbuf = d
  obtain ⟨statp, winattr, compression⟩ := d
  exact ⟨rfl, rfl, rfl⟩

/-- **What `start_to_receive_new_file` does.** -/
theorem startToReceiveNewFile_spec (conf : Conf) (working : Bytes) (t : Turn) (sb : Sbuf)
    (s : State) :
    ∃ paths : List Bytes, Receives s (startToReceiveNewFile conf working t sb s).1
        ((if inTree conf sb then [] else [Event.named s.dpth sb.cmd]) ++ paths.map Event.touched)
      ∧ (∀ p ∈ paths, p = wholeRpath conf working s.dpth sb
        ∨ p ∈ (mkpath t.world (datadirtmp working) (wholeRpath conf working s.dpth sb)).1)
      ∧ (((startToReceiveNewFile conf working t sb s).2 = .error
          ∧ (startToReceiveNewFile conf working t sb s).1.dpth = s.dpth)
        ∨ ((startToReceiveNewFile conf working t sb s).2 = .more
          ∧ (startToReceiveNewFile conf working t sb s).1.dpth
            = (if inTree conf sb then s.dpth else (incrDpth conf s.dpth).1)
          ∧ (startToReceiveNewFile conf working t sb s).1.rb.isOpen = true
          ∧ (startToReceiveNewFile conf working t sb s).1.rb.sb.cmd = sb.cmd
          ∧ (startToReceiveNewFile conf working t sb s).1.rb.sb.path = sb.path
          ∧ (startToReceiveNewFile conf working t sb s).1.rb.sb.statbuf = sb.statbuf
          ∧ (startToReceiveNewFile conf working t sb s).1.rb.receivedelta
              = s.rb.receivedelta)) := by
  have hstored : ∃ sb', (if conf.directoryTree then treedata sb else (sb, false))
        = (sb', inTree conf sb)
      ∧ sb'.cmd = sb.cmd ∧ sb'.path = sb.path ∧ sb'.statbuf = sb.statbuf := by
    unfold inTree
    cases conf.directoryTree with
    | false => exact ⟨sb, rfl, rfl, rfl, rfl⟩
    | true => exact ⟨(treedata sb).1, by simp, treedata_spec sb⟩
  obtain ⟨sb', heq, hcmd, hpath, hstat⟩ := hstored
  have hdatapth : (if inTree conf sb then prependS [116] (sb.path.getD [])
      else mkDpth conf s.dpth sb.cmd) = wholeDatapth conf s.dpth sb := rfl
  have hrpath : prependS (datadirtmp working) (wholeDatapth conf s.dpth sb)
      = wholeRpath conf working s.dpth sb := rfl
  unfold startToReceiveNewFile
  rw [heq]
  simp only [hcmd, hpath, hdatapth, hrpath]
  generalize mkpath t.world (datadirtmp working) (wholeRpath conf working s.dpth sb) = r
  generalize wholeRpath conf working s.dpth sb = rpath
  obtain ⟨made, ok⟩ := r
  have hpaths : ∀ p ∈ made ++ [rpath], p = rpath ∨ p ∈ made := by
    intro p hp
    rcases List.mem_append.mp hp with hp | hp
    · exact Or.inr hp
    · exact Or.inl (List.mem_singleton.mp hp)
  by_cases hok : ok = true
  · by_cases hopens : t.opens = true
    · simp only [hok, hopens, Bool.not_true, Bool.false_eq_true, if_false]
      exact ⟨made ++ [rpath], ⟨rfl, rfl, rfl, rfl, rfl⟩, hpaths,
        Or.inr ⟨trivial, rfl, rfl, rfl, rfl, hstat, rfl⟩⟩
    · simp only [hok, hopens, Bool.not_true, Bool.false_eq_true, if_false, Bool.not_false, if_true]
      exact ⟨made ++ [rpath], ⟨rfl, rfl, rfl, rfl, rfl⟩, hpaths, Or.inl ⟨trivial, rfl⟩⟩
  · simp only [hok, Bool.not_false, if_true]
    exact ⟨made, ⟨rfl, rfl, rfl, rfl, rfl⟩, fun p hp => Or.inr hp, Or.inl ⟨trivial, rfl⟩⟩

/-- **What `start_to_receive_delta` does.** -/
theorem startToReceiveDelta_spec (working : Bytes) (t : Turn) (sb : Sbuf) (s : State) :
    Receives s (startToReceiveDelta working t sb s).1 [.touched (deltmppath working)]
      ∧ (startToReceiveDelta working t sb s).1.dpth = s.dpth
      ∧ ((startToReceiveDelta working t sb s).2 = .error
        ∨ ((startToReceiveDelta working t sb s).2 = .more
          ∧ (startToReceiveDelta working t sb s).1.rb
            = { sb := sb, isOpen := true, receivedelta := true })) := by
  unfold startToReceiveDelta
  simp only
  split_ifs
  · exact ⟨⟨rfl, rfl, rfl, rfl, rfl⟩, rfl, Or.inr ⟨rfl, rfl⟩⟩
  · exact ⟨⟨rfl, rfl, rfl, rfl, rfl⟩, rfl, Or.inl rfl⟩

/-- The paths of a delta that is put in its place. -/
def finishPaths (working : Bytes) (t : Turn) (rb : Receiving) : List Bytes :=
  if rb.receivedelta then (finishDelta working t rb.sb).1 else []

/-- **What the end of a file does**: it is written to the phase 2 file, or the loop ends. -/
theorem receiveEnd_spec (working : Bytes) (t : Turn) (text : Bytes) (s : State) :
    ∃ es, Receives s (receiveEnd working t text s).1 es
      ∧ (receiveEnd working t text s).1.dpth = s.dpth
      ∧ (receiveEnd working t text s).1.rb = {}
      ∧ ∃ paths : List Bytes, (∀ p ∈ paths, p ∈ finishPaths working t s.rb)
        ∧ (((receiveEnd working t text s).2 = .more
            ∧ es = paths.map Event.touched ++ [.phase2 { s.rb.sb with endfile := some text }]
            ∧ (receiveEnd working t text s).1.lastRequested
              = (s.forget (s.rb.sb.path.getD [])).lastRequested)
          ∨ ((receiveEnd working t text s).2 = .error ∧ (es = paths.map Event.touched
            ∨ es = paths.map Event.touched
              ++ [.failed none { s.rb.sb with endfile := some text }]))) := by
  have hfinish : (if s.rb.receivedelta then
      finishDelta working t { s.rb.sb with endfile := some text } else ([], true)).1
        = finishPaths working t s.rb := by
    unfold finishPaths
    split_ifs
    · rfl
    · rfl
  unfold receiveEnd
  simp only
  by_cases hcloses : t.closes = true
  · simp only [hcloses, Bool.not_true, Bool.false_eq_true, if_false]
    generalize (if s.rb.receivedelta then
      finishDelta working t { s.rb.sb with endfile := some text } else ([], true)) = r at hfinish ⊢
    obtain ⟨paths, ok⟩ := r
    have hmem : ∀ p ∈ paths, p ∈ finishPaths working t s.rb := by
      intro p hp
      rw [← hfinish]
      exact hp
    by_cases hok : ok = true
    · by_cases hwritten : Written t.writesPhase2 { s.rb.sb with endfile := some text } = true
      · simp only [hok, hwritten, Bool.not_true, Bool.false_eq_true, if_false, if_true]
        exact ⟨_, ⟨rfl, rfl, rfl, rfl, List.append_assoc _ _ _⟩, rfl, trivial, paths, hmem,
          Or.inl ⟨trivial, rfl, rfl⟩⟩
      · simp only [hok, hwritten, Bool.not_true, Bool.false_eq_true, if_false]
        exact ⟨_, ⟨rfl, rfl, rfl, rfl, List.append_assoc _ _ _⟩, rfl, trivial, paths, hmem,
          Or.inr ⟨trivial, Or.inr rfl⟩⟩
    · simp only [hok, Bool.not_false, if_true]
      exact ⟨_, ⟨rfl, rfl, rfl, rfl, rfl⟩, rfl, trivial, paths, hmem, Or.inr ⟨trivial, Or.inl rfl⟩⟩
  · simp only [hcloses, Bool.not_false, if_true]
    exact ⟨[], ⟨rfl, rfl, rfl, rfl, (List.append_nil _).symm⟩, trivial, trivial, [], by simp,
      Or.inr ⟨trivial, Or.inl rfl⟩⟩

/-! ## §3. Sending. -/

/-- A message in the log that is not looked at by name. -/
def Event.isMessage : Event → Bool
  | .asked _ => true
  | .sent _ _ => true
  | _ => false

/-- The requests of a log. -/
def asked (log : List Event) : List Sbuf :=
  log.filterMap fun e => match e with | .asked sb => some sb | _ => none

@[simp] theorem asked_append (a b : List Event) : asked (a ++ b) = asked a ++ asked b :=
  List.filterMap_append

/-- The request that is still to be sent. -/
def Asking.pending (a : Asking) : List Sbuf := if a.sendpath then [a.sb] else []

/-- What sending does to a state. -/
structure Sends (s s' : State) (es : List Event) : Prop where
  p1 : s'.p1 = s.p1
  cman : s'.cman = s.cman
  cb : s'.cb = s.cb
  rb : s'.rb = s.rb
  dpth : s'.dpth = s.dpth
  log : s'.log = s.log ++ es
  messages : ∀ e ∈ es, e.isMessage = true
  gen : ∀ text, Event.sent .gen text ∉ es
  pending : asked es ++ s'.p1b.pending = s.p1b.pending
  sb : s'.p1b.sb = s.p1b.sb

theorem Sends.refl (s : State) : Sends s s [] :=
  ⟨rfl, rfl, rfl, rfl, rfl, (List.append_nil _).symm, by simp, by simp, rfl, rfl⟩

theorem Sends.trans {s s' s'' : State} {es es' : List Event} (h : Sends s s' es)
    (h' : Sends s' s'' es') : Sends s s'' (es ++ es') where
  p1 := h'.p1.trans h.p1
  cman := h'.cman.trans h.cman
  cb := h'.cb.trans h.cb
  rb := h'.rb.trans h.rb
  dpth := h'.dpth.trans h.dpth
  log := by rw [h'.log, h.log, List.append_assoc]
  messages := by
    intro e he
    rcases List.mem_append.mp he with he | he
    · exact h.messages e he
    · exact h'.messages e he
  gen := by
    intro text hmem
    rcases List.mem_append.mp hmem with hmem | hmem
    · exact h.gen text hmem
    · exact h'.gen text hmem
  pending := by rw [asked_append, List.append_assoc, h'.pending, h.pending]
  sb := h'.sb.trans h.sb

/-- One message that may or may not be sent. -/
theorem sendPart_spec (flag : Asking → Bool) (part : State → State) (s : State)
    (room : Option Nat) (hpart : flag s.p1b = true → ∃ es, Sends s (part s) es) :
    (∃ es, Sends s (sendPart flag part (s, room)).1 es)
      ∧ ((sendPart flag part (s, room)).2 ≠ none →
        (sendPart flag part (s, room)).1 = if flag s.p1b then part s else s) := by
  cases room with
  | none => exact ⟨⟨[], .refl s⟩, by simp [sendPart]⟩
  | some room =>
      by_cases hflag : flag s.p1b = true
      · cases room with
        | zero =>
            simp only [sendPart, hflag, if_true]
            exact ⟨⟨[], .refl s⟩, by simp⟩
        | succ room =>
            simp only [sendPart, hflag, if_true]
            exact ⟨hpart hflag, by simp⟩
      · simp only [sendPart, hflag, if_false, Bool.false_eq_true]
        exact ⟨⟨[], .refl s⟩, by simp⟩

theorem sendSignature_spec (t : Turn) (room : Nat) (s : State) :
    ∃ es, Sends s (sendSignature t room s).1 es := by
  unfold sendSignature
  generalize (if s.p1b.sigjob && !s.p1b.sendendofsig then t.sig else .done) = sig
  cases sig with
  | error => exact ⟨[], .refl s⟩
  | running => exact ⟨[], .refl s⟩
  | done =>
      simp only
      split_ifs with h
      · cases room with
        | zero =>
          exact ⟨[], rfl, rfl, rfl, rfl, rfl, (List.append_nil _).symm, by simp, by simp, rfl, rfl⟩
        | succ room =>
            exact ⟨[.sent .endFile (nameBytes "endfile")], rfl, rfl, rfl, rfl, rfl, rfl,
              by simp [Event.isMessage], by simp, rfl, rfl⟩
      · exact ⟨[], .refl s⟩

/-- **What `do_stuff_to_send` changes**; if it returns 0, the request has been sent. -/
theorem doStuffToSend_spec (t : Turn) (s : State) :
    (∃ es, Sends s (doStuffToSend t s).1 es)
      ∧ ((doStuffToSend t s).2 = .all → (doStuffToSend t s).1.p1b.pending = []) := by
  unfold doStuffToSend
  simp only
  -- the data path
  generalize hr1 : sendPart _ _ (s, some t.room) = r1
  obtain ⟨⟨es1, h1⟩, -⟩ := sendPart_spec (·.senddatapth)
    (fun s => { s with p1b := { s.p1b with senddatapth := false } }.emit
      [.sent .datapth (s.p1b.sb.datapth.getD [])]) s (some t.room)
    fun _ => ⟨[.sent .datapth (s.p1b.sb.datapth.getD [])], rfl, rfl, rfl, rfl, rfl, rfl,
      by simp [Event.isMessage], by simp, rfl, rfl⟩
  rw [hr1] at h1
  obtain ⟨s1, room1⟩ := r1
  -- the stat
  generalize hr2 : sendPart _ _ (s1, room1) = r2
  obtain ⟨⟨es2, h2⟩, -⟩ := sendPart_spec (·.sendstat)
    (fun s => { s with p1b := { s.p1b with sendstat := false } }.emit
      [.sent .stat s.p1b.sb.statbuf]) s1 room1
    fun _ => ⟨[.sent .stat s1.p1b.sb.statbuf], rfl, rfl, rfl, rfl, rfl, rfl,
      by simp [Event.isMessage], by simp, rfl, rfl⟩
  rw [hr2] at h2
  obtain ⟨s2, room2⟩ := r2
  -- the path
  generalize hr3 : sendPart _ _ (s2, room2) = r3
  obtain ⟨⟨es3, h3⟩, hsent⟩ := sendPart_spec (·.sendpath)
    (fun s => { s with p1b := { s.p1b with sendpath := false },
                       lastRequested := s.p1b.sb.path }.emit [.asked s.p1b.sb]) s2 room2
    fun hflag =>
      ⟨[.asked s2.p1b.sb], rfl, rfl, rfl, rfl, rfl, rfl, by simp [Event.isMessage], by simp,
      by simp [asked, Asking.pending, hflag, State.emit], rfl⟩
  rw [hr3] at h3 hsent
  obtain ⟨s3, room3⟩ := r3
  have h := (h1.trans h2).trans h3
  cases room3 with
  | none => exact ⟨⟨_, h⟩, by simp⟩
  | some room =>
      obtain ⟨es4, h4⟩ := sendSignature_spec t room s3
      refine ⟨⟨_, h.trans h4⟩, fun _ => ?_⟩
      have hpending : s3.p1b.pending = [] := by
        have hs3 : s3 = _ := hsent (by simp)
        rw [hs3]
        split_ifs with hflag
        · rfl
        · simp [Asking.pending, hflag]
      have h4p := h4.pending
      rw [hpending, List.append_eq_nil_iff] at h4p
      exact h4p.2

/-! ## §4. The next entry. -/

/-- What the last part of a turn leaves alone. -/
structure Advances (s s' : State) (es : List Event) : Prop where
  rb : s'.rb = s.rb
  dpth : s'.dpth = s.dpth
  lastRequested : s'.lastRequested = s.lastRequested
  log : s'.log = s.log ++ es

/-- What is carried out, and what it adds to the log. -/
theorem carryOut_spec (t : Turn) (f : Found) (s : State) :
    ∃ es, Advances s (carryOut t f s).1 es
      ∧ (es = [] ∨ ∃ writer sb, f.outcome = .unchanged writer sb ∧ sb.path ≠ none
        ∧ ((es = [.unchanged sb] ∧ Written t.writesUnchanged sb = true)
          ∨ (es = [.failed (some writer) sb] ∧ Written t.writesUnchanged sb = false
            ∧ (writer ≠ .newNonFile → (carryOut t f s).2 = .error)))) := by
  unfold carryOut
  cases ho : f.outcome with
  | request => exact ⟨[], ⟨rfl, rfl, rfl, (List.append_nil _).symm⟩, Or.inl rfl⟩
  | delta =>
      simp only
      split_ifs
      · exact ⟨[], ⟨rfl, rfl, rfl, (List.append_nil _).symm⟩, Or.inl rfl⟩
      · exact ⟨[], ⟨rfl, rfl, rfl, (List.append_nil _).symm⟩, Or.inl rfl⟩
  | unchanged writer sb =>
      simp only
      split_ifs with hpath hwritten hwriter
      · exact ⟨[], ⟨rfl, rfl, rfl, (List.append_nil _).symm⟩, Or.inl rfl⟩
      · exact ⟨[.unchanged sb], ⟨rfl, rfl, rfl, rfl⟩,
          Or.inr ⟨writer, sb, rfl, by simpa using hpath, Or.inl ⟨rfl, hwritten⟩⟩⟩
      · exact ⟨[.failed (some writer) sb], ⟨rfl, rfl, rfl, rfl⟩, Or.inr ⟨writer, sb, rfl,
          by simpa using hpath, Or.inr ⟨rfl, by simpa using hwritten, fun h => absurd hwriter h⟩⟩⟩
      · exact ⟨[.failed (some writer) sb], ⟨rfl, rfl, rfl, rfl⟩, Or.inr ⟨writer, sb, rfl,
          by simpa using hpath, Or.inr ⟨rfl, by simpa using hwritten, fun _ => rfl⟩⟩⟩

/-- What is found for the next entry, if there is one and the lists can be read. -/
def State.found (conf : Conf) (t : Turn) (s : State) : Option Found :=
  match s.p1 with
  | some (sb :: _) =>
      if !t.reads || (s.cman.isSome && mustRead conf s.cb sb && !t.readsOld) then none
      else some (lookup conf s.cman s.cb sb)
  | _ => none

/-- Where an outcome comes from. -/
theorem scanManifest_cases (conf : Conf) (p1b : Sbuf) : ∀ cbs : List Sbuf,
    (scanManifest conf p1b cbs).outcome = processNew p1b
      ∨ ∃ keep, maybeProcessFile conf (scanManifest conf p1b cbs).old p1b
          = .done (scanManifest conf p1b cbs).outcome keep
        ∧ (scanManifest conf p1b cbs).old ∈ cbs
  | [] => Or.inl rfl
  | cb :: rest => by
      unfold scanManifest
      cases h : maybeProcessFile conf cb p1b with
      | behind =>
          rcases scanManifest_cases conf p1b rest with hnew | ⟨keep, hdone, hmem⟩
          · exact Or.inl hnew
          · exact Or.inr ⟨keep, hdone, List.mem_cons_of_mem _ hmem⟩
      | done outcome keep => exact Or.inr ⟨keep, h, List.mem_cons_self⟩

/-- **Where an outcome comes from**: from nothing but the entry, or from a verdict on it and
an entry of the old manifest. -/
theorem lookup_cases (conf : Conf) (cman : Option (List Sbuf)) (cb p1b : Sbuf) :
    (lookup conf cman cb p1b).outcome = processNew p1b
      ∨ ∃ keep, maybeProcessFile conf (lookup conf cman cb p1b).old p1b
          = .done (lookup conf cman cb p1b).outcome keep
        ∧ ((lookup conf cman cb p1b).old = cb
          ∨ ∃ cbs, cman = some cbs ∧ (lookup conf cman cb p1b).old ∈ cbs) := by
  have hscan : ∀ cbs, (scanManifest conf p1b cbs).outcome = processNew p1b
      ∨ ∃ keep, maybeProcessFile conf (scanManifest conf p1b cbs).old p1b
          = .done (scanManifest conf p1b cbs).outcome keep
        ∧ ((scanManifest conf p1b cbs).old = cb
          ∨ ∃ cbs', some cbs = some cbs' ∧ (scanManifest conf p1b cbs).old ∈ cbs') := by
    intro cbs
    rcases scanManifest_cases conf p1b cbs with hnew | ⟨keep, hdone, hmem⟩
    · exact Or.inl hnew
    · exact Or.inr ⟨keep, hdone, Or.inr ⟨cbs, rfl, hmem⟩⟩
  unfold lookup
  cases cman with
  | none => exact Or.inl rfl
  | some cbs =>
      simp only
      split_ifs with hpath
      · exact hscan cbs
      · cases h : maybeProcessFile conf cb p1b with
        | behind => exact hscan cbs
        | done outcome keep => exact Or.inr ⟨keep, h, Or.inl rfl⟩

theorem path_of_sbufPathcmp {a b : Sbuf} (h : sbufPathcmp a b = 0) : a.path = b.path := by
  unfold sbufPathcmp at h
  by_cases hr : pathcmp a.path b.path = 0
  · exact (pathcmp_eq_iff _ _).mp hr
  · simp [hr] at h

/-- **What goes to the unchanged file** has the path of the entry. -/
theorem lookup_unchanged {conf : Conf} {cman : Option (List Sbuf)} {cb p1b : Sbuf} {writer : Writer}
    {sb : Sbuf} (h : (lookup conf cman cb p1b).outcome = .unchanged writer sb) :
    sb = p1b ∧ p1b.cmd.filedata = false
      ∨ writer = .unchangedFile ∧ sb = (lookup conf cman cb p1b).old ∧ sb.path = p1b.path
        ∧ sb.cmd = p1b.cmd ∧ sbufPathcmp sb p1b = 0 := by
  rcases lookup_cases conf cman cb p1b with hnew | ⟨keep, hdone, -⟩
  · rw [hnew, processNew] at h
    split_ifs at h with hdata
    simp only [Outcome.unchanged.injEq] at h
    exact Or.inl ⟨h.2.symm, by simpa using hdata⟩
  · rw [h] at hdone
    rcases unchanged_spec hdone with ⟨hw, hsb, hcmp, hcmd, -⟩ | ⟨-, hsb, hdata⟩
    · rw [hsb]
      exact Or.inr ⟨hw, rfl, path_of_sbufPathcmp hcmp, hcmd, hcmp⟩
    · exact Or.inl ⟨hsb, hdata⟩

/-- Nothing is written for the end of the list. -/
theorem lookup_end {conf : Conf} {cman : Option (List Sbuf)} {cb : Sbuf} {writer : Writer}
    {sb : Sbuf} (h : (lookup conf cman cb {}).outcome = .unchanged writer sb) : sb.path = none := by
  rcases lookup_unchanged h with ⟨rfl, -⟩ | ⟨-, -, hpath, -⟩
  · rfl
  · exact hpath

/-- What comparing adds to the log. -/
theorem compareEntry_spec (conf : Conf) (t : Turn) (s : State) :
    ∃ es, Advances s (compareEntry conf t s).1 es
      ∧ (es = [] ∨ ∃ writer sb,
        (s.cman.isSome && mustRead conf s.cb s.p1b.sb && !t.readsOld) = false
        ∧ (lookup conf s.cman s.cb s.p1b.sb).outcome = .unchanged writer sb ∧ sb.path ≠ none
        ∧ ((es = [.unchanged sb] ∧ Written t.writesUnchanged sb = true)
          ∨ (es = [.failed (some writer) sb] ∧ Written t.writesUnchanged sb = false
            ∧ (writer ≠ .newNonFile → (compareEntry conf t s).2 = .error)))) := by
  unfold compareEntry
  split_ifs with hread
  · exact ⟨[], ⟨rfl, rfl, rfl, (List.append_nil _).symm⟩, Or.inl rfl⟩
  · obtain ⟨es, hadv, hes⟩ := carryOut_spec t (lookup conf s.cman s.cb s.p1b.sb) s
    refine ⟨es, hadv, ?_⟩
    rcases hes with hes | ⟨writer, sb, hout, hpath, hw⟩
    · exact Or.inl hes
    · exact Or.inr ⟨writer, sb, by simpa using hread, hout, hpath, hw⟩

/-- Phase 2 does not end with an entry. -/
theorem nextEntry_ne_done (conf : Conf) (t : Turn) (s : State) :
    (nextEntry conf t s).2 ≠ .done := by
  have hcarry : ∀ (f : Found) (s : State), (carryOut t f s).2 ≠ .done := by
    intro f s
    unfold carryOut
    cases f.outcome with
    | request => simp
    | delta =>
        simp only
        split_ifs <;> simp
    | unchanged writer sb =>
        simp only
        split_ifs <;> simp
  have hcompare : ∀ s, (compareEntry conf t s).2 ≠ .done := by
    intro s
    unfold compareEntry
    split_ifs
    · simp
    · exact hcarry _ s
  unfold nextEntry
  rcases s.p1 with _ | _ | ⟨x, p1⟩
  · simp
  · simp only
    split_ifs
    · simp
    · exact hcompare _
    · simp
  · simp only
    split_ifs
    · simp
    · exact hcompare _

/-- **What the last part of a turn changes**, and what it adds to the log. -/
theorem nextEntry_spec (conf : Conf) (t : Turn) (s : State) :
    ∃ es, Advances s (nextEntry conf t s).1 es
      ∧ ∀ e ∈ es, e.isMessage = true ∨ (∃ sb, e = .unchanged sb)
        ∨ ∃ f writer sb, s.found conf t = some f ∧ f.outcome = .unchanged writer sb
          ∧ e = .failed (some writer) sb ∧ Written t.writesUnchanged sb = false
          ∧ (writer ≠ .newNonFile → (nextEntry conf t s).2 = .error) := by
  unfold nextEntry State.found
  rcases s.p1 with _ | _ | ⟨sb, p1⟩
  · exact ⟨[], ⟨rfl, rfl, rfl, (List.append_nil _).symm⟩, by simp⟩
  · simp only
    split_ifs with hreads hend
    · exact ⟨[], ⟨rfl, rfl, rfl, (List.append_nil _).symm⟩, by simp⟩
    · -- the end of the list
      obtain ⟨es, hadv, hes⟩ := compareEntry_spec conf t
        ({ s with p1 := none, p1b := {} }.emit [.sent .gen (nameBytes "backupphase2end")])
      have hnil : es = [] := by
        rcases hes with hes | ⟨writer, sb, -, hout, hpath, -⟩
        · exact hes
        · exact absurd (lookup_end hout) hpath
      subst hnil
      exact ⟨[_], ⟨hadv.rb, hadv.dpth, hadv.lastRequested, by rw [hadv.log, List.append_nil]; rfl⟩,
        by simp [Event.isMessage]⟩
    · exact ⟨[_], ⟨rfl, rfl, rfl, rfl⟩, by simp [Event.isMessage]⟩
  · simp only
    by_cases hreads : t.reads = true
    · simp only [hreads, Bool.not_true, Bool.false_eq_true, if_false, Bool.false_or]
      obtain ⟨es, hadv, hes⟩ := compareEntry_spec conf t
          { s with p1 := some p1, p1b := { sb := sb } }
      refine ⟨es, ⟨hadv.rb, hadv.dpth, hadv.lastRequested, hadv.log⟩, ?_⟩
      rcases hes with rfl | ⟨writer, sb', hread, hout, -, ⟨rfl, -⟩ | ⟨rfl, hw, herror⟩⟩
      · simp
      · simp
      · intro e he
        rw [List.mem_singleton] at he
        exact Or.inr (Or.inr ⟨_, writer, sb', if_neg (by simpa using hread), hout, he, hw, herror⟩)
    · simp only [hreads, Bool.not_false, if_true]
      exact ⟨[], ⟨rfl, rfl, rfl, (List.append_nil _).symm⟩, by simp⟩

end Burp.Phase2
