/-
  Burp.Phase2.Accounts — every entry of the client's list is accounted for.

  What happens to an entry is decided from the two lists alone, whatever the client does
  meanwhile.  The books of a run are the decisions that have been taken: what they send to
  the unchanged file is there, what they ask for has been asked or is just being asked, and
  the client's answers are the first of these.

  Main results:
    * `turn_books` — the books are right after every turn.
    * `books_closed` — at the end everything has been decided, asked and answered.
    * `phase2_accounts` — each entry is in the unchanged file, in the phase 2 file or
      interrupted, once, and the two files are in order.
-/
import Burp.Phase2.Client

namespace Burp.Phase2

open FileSystem Burp.Store

/-! ## §1. Decisions. -/

/-- What is decided about each entry of a list. -/
def decisions (conf : Conf) : Option (List Sbuf) → Sbuf → List Sbuf → List (Sbuf × Found)
  | _, _, [] => []
  | cman, cb, x :: xs =>
      (x, lookup conf cman cb x)
        :: decisions conf (lookup conf cman cb x).cman (lookup conf cman cb x).cb xs

/-- What goes to the unchanged file. -/
def unchangedOf (d : Sbuf × Found) : Option Sbuf :=
  match d.2.outcome with
  | .unchanged _ sb => some sb
  | _ => none

/-- What the client is asked for. -/
def requestOf (d : Sbuf × Found) : Option Sbuf :=
  match d.2.outcome with
  | .unchanged _ _ => none
  | _ => some d.1

/-- The entries of a list that are still to be decided on. -/
def State.ahead (conf : Conf) (s : State) : List (Sbuf × Found) :=
  match s.p1 with
  | some p1 => decisions conf s.cman s.cb p1
  | none => []

/-- Every entry is decided on, whether or not the others are. -/
theorem fst_decisions (conf : Conf) : ∀ (xs : List Sbuf) (cman : Option (List Sbuf)) (cb : Sbuf),
    (decisions conf cman cb xs).map Prod.fst = xs
  | [], _, _ => rfl
  | x :: xs, cman, cb => by
      rw [decisions, List.map_cons, fst_decisions conf xs]

/-- Each decision is a lookup. -/
theorem mem_decisions {conf : Conf} : ∀ {xs : List Sbuf} {cman : Option (List Sbuf)} {cb : Sbuf}
    {d : Sbuf × Found}, d ∈ decisions conf cman cb xs → ∃ cman' cb', d.2 = lookup conf cman' cb' d.1
  | [], _, _, _, h => by cases h
  | x :: xs, cman, cb, d, h => by
      rw [decisions, List.mem_cons] at h
      rcases h with rfl | h
      · exact ⟨cman, cb, rfl⟩
      · exact mem_decisions h

/-- What is asked for has file data. -/
theorem lookup_request (conf : Conf) (cman : Option (List Sbuf)) (cb : Sbuf) {p1b : Sbuf}
    (h : ∀ writer sb, (lookup conf cman cb p1b).outcome ≠ .unchanged writer sb) :
    p1b.cmd.filedata = true := by
  have hnew : processNew p1b = (lookup conf cman cb p1b).outcome → p1b.cmd.filedata = true := by
    intro heq
    by_contra hdata
    rw [processNew, if_neg hdata] at heq
    exact h _ _ heq.symm
  rcases lookup_cases conf cman cb p1b with heq | ⟨keep, hdone, -⟩
  · exact hnew heq.symm
  · cases hout : (lookup conf cman cb p1b).outcome with
    | unchanged writer sb => exact absurd hout (h writer sb)
    | delta =>
        rw [hout] at hdone
        rw [(delta_spec hdone).2.2.1]
        rfl
    | request =>
        rw [hout] at hdone
        exact request_spec hdone

/-! ## §2. The log. -/

/-- What a log has in the unchanged file. -/
def unchangeds (log : List Event) : List Sbuf :=
  log.filterMap fun e => match e with | .unchanged sb => some sb | _ => none

/-- What it has in the phase 2 file. -/
def phase2s (log : List Event) : List Sbuf :=
  log.filterMap fun e => match e with | .phase2 sb => some sb | _ => none

@[simp] theorem unchangeds_append (a b : List Event) :
    unchangeds (a ++ b) = unchangeds a ++ unchangeds b := List.filterMap_append

@[simp] theorem phase2s_append (a b : List Event) :
    phase2s (a ++ b) = phase2s a ++ phase2s b := List.filterMap_append

/-- Messages are in neither file. -/
theorem files_of_messages {es : List Event} (h : ∀ e ∈ es, e.isMessage = true) :
    unchangeds es = [] ∧ phase2s es = [] := by
  refine ⟨List.filterMap_eq_nil_iff.mpr ?_, List.filterMap_eq_nil_iff.mpr ?_⟩
  all_goals
    intro e he
    have hmessage := h e he
    cases e <;> simp_all [Event.isMessage]

/-- What is neither a message nor in the unchanged file. -/
def Quiet (es : List Event) : Prop := ∀ e ∈ es, e.isMessage = false ∧ ∀ sb, e ≠ .unchanged sb

theorem Quiet.asked {es : List Event} (h : Quiet es) : asked es = [] := by
  refine List.filterMap_eq_nil_iff.mpr ?_
  intro e he
  have hmessage := (h e he).1
  cases e <;> simp_all [Event.isMessage]

theorem Quiet.unchangeds {es : List Event} (h : Quiet es) : unchangeds es = [] := by
  refine List.filterMap_eq_nil_iff.mpr ?_
  intro e he
  have hne := (h e he).2
  cases e <;> simp_all

theorem Quiet.gen {es : List Event} (h : Quiet es) (cmd : Cmd) (text : Bytes) :
    Event.sent cmd text ∉ es := by
  intro hmem
  have hmessage := (h _ hmem).1
  simp [Event.isMessage] at hmessage

/-! ## §3. The books. -/

/-- What an entry is called. -/
def Sbuf.label (sb : Sbuf) : Cmd × Option Bytes := (sb.cmd, sb.path)

/-- What a file that is received is called, and its stat. -/
def Sbuf.record (sb : Sbuf) : Cmd × Option Bytes × Bytes := (sb.cmd, sb.path, sb.statbuf)

def Answer.record (a : Answer) : Option (Cmd × Option Bytes × Bytes) :=
  a.transfer.map fun x => (a.request.cmd, some a.path, x.stat)

/-- The answers that have been sent to their end. -/
def Client.complete (c : Client) : List Answer :=
  if c.todo = [] then c.answers else c.answers.dropLast

/-- **The file that is being received**, and what is left to send of it. -/
inductive Midway (rb : Receiving) (c : Client) : Prop
  | idle (htodo : c.todo = []) (hrb : rb = {})
  | stat (answers : List Answer) (a : Answer) (x : Transfer) (ha : a.transfer = some x)
      (hanswers : c.answers = answers ++ [a])
      (htodo : c.todo = (.stat, x.stat) :: (a.request.cmd, a.path) :: dataMessages x.appends x.endfile)
      (hclosed : rb.isOpen = false)
  | path (answers : List Answer) (a : Answer) (x : Transfer) (ha : a.transfer = some x)
      (hanswers : c.answers = answers ++ [a])
      (htodo : c.todo = (a.request.cmd, a.path) :: dataMessages x.appends x.endfile)
      (hclosed : rb.isOpen = false) (hstat : rb.sb.statbuf = x.stat)
  | data (answers : List Answer) (a : Answer) (x : Transfer) (appends : List Bytes)
      (ha : a.transfer = some x) (hanswers : c.answers = answers ++ [a])
      (htodo : c.todo = dataMessages appends x.endfile) (hopen : rb.isOpen = true)
      (hrecord : Sbuf.record rb.sb = (a.request.cmd, some a.path, x.stat))

/-- **The books** of a run, with the decisions that have been taken. -/
structure Books (conf : Conf) (all done : List (Sbuf × Found)) (s : State) (c : Client) :
    Prop where
  ahead : all = done ++ s.ahead conf
  written : (unchangeds s.log).Sublist (done.filterMap unchangedOf)
  takes : ∀ d ∈ done, ∀ sb, d.2.outcome = .unchanged .unchangedFile sb → sb ∈ unchangeds s.log
  unchanged : NoneFailed s → unchangeds s.log = done.filterMap unchangedOf
  requests : (asked s.log ++ s.p1b.pending).map Sbuf.label
    = (done.filterMap requestOf).map Sbuf.label
  data : ∀ sb ∈ asked s.log ++ s.p1b.pending, sb.cmd.filedata = true
  ended : Event.sent .gen (nameBytes "backupphase2end") ∈ s.log → s.p1 = none
  last : s.p1 = none → s.p1b.pending = []
  answered : ∃ queue, asked s.log = c.requests ++ queue
  midway : Midway s.rb c
  phase2 : (phase2s s.log).map Sbuf.record = c.complete.filterMap Answer.record

section Turns

variable {conf : Conf} {working : Bytes} {all done : List (Sbuf × Found)} {t : Turn} {s : State}
  {c c' : Client}

/-- What receiving leaves of the books. -/
theorem Books.received {s' : State} (h : Books conf all done s c) (es : List Event)
    (hrec : Receives s s' es) (hquiet : Quiet es)
    (hanswered : ∃ queue, asked s.log = c'.requests ++ queue) (hmidway : Midway s'.rb c')
    (hphase2 : (phase2s s.log ++ phase2s es).map Sbuf.record
      = c'.complete.filterMap Answer.record) :
    Books conf all done s' c' where
  ahead := by
    have hahead : s'.ahead conf = s.ahead conf := by
      unfold State.ahead
      rw [hrec.p1, hrec.cman, hrec.cb]
    rw [hahead]
    exact h.ahead
  written := by
    rw [hrec.log, unchangeds_append, hquiet.unchangeds, List.append_nil]
    exact h.written
  takes := by
    rw [hrec.log, unchangeds_append, hquiet.unchangeds, List.append_nil]
    exact h.takes
  unchanged := by
    intro hfailed
    rw [hrec.log, unchangeds_append, hquiet.unchangeds, List.append_nil,
      h.unchanged (hfailed.before hrec.log)]
  requests := by rw [hrec.log, asked_append, hquiet.asked, List.append_nil, hrec.p1b, h.requests]
  data := by
    rw [hrec.log, asked_append, hquiet.asked, List.append_nil, hrec.p1b]
    exact h.data
  ended := by
    intro hmem
    rw [hrec.log, List.mem_append] at hmem
    rw [hrec.p1]
    rcases hmem with hmem | hmem
    · exact h.ended hmem
    · exact absurd hmem (hquiet.gen _ _)
  last := by
    rw [hrec.p1, hrec.p1b]
    exact h.last
  answered := by
    rw [hrec.log, asked_append, hquiet.asked, List.append_nil]
    exact hanswered
  midway := hmidway
  phase2 := by rw [hrec.log, phase2s_append, hphase2]

/-- Between two answers nothing is being received. -/
theorem Books.idle (h : Books conf all done s c) (hidle : c.todo = []) : s.rb = {} := by
  cases h.midway with
  | idle _ hrb => exact hrb
  | stat answers a x ha hanswers htodo => simp [hidle] at htodo
  | path answers a x ha hanswers htodo => simp [hidle] at htodo
  | data answers a x appends ha hanswers htodo => simp [hidle, dataMessages] at htodo

/-- An answer that has begun. -/
theorem Client.complete_begun {answers : List Answer} {a : Answer} {todo : List (Cmd × Bytes)}
    (htodo : todo ≠ []) :
    ({ answers := answers ++ [a], todo := todo } : Client).complete = answers := by
  unfold Client.complete
  rw [if_neg htodo, List.dropLast_concat]

/-- **An answer begins.** -/
theorem Books.begins {a : Answer} {queue : List Sbuf} {cmd : Cmd} {text : Bytes}
    {todo : List (Cmd × Bytes)} (h : Books conf all done s c) (hidle : c.todo = [])
    (hasked : asked s.log = c.requests ++ a.request :: queue)
    (hmessages : a.messages = (cmd, text) :: todo) (harr : t.arrival = .message cmd text) :
    Books conf all done (doStuffToReceive conf working t s).1
      { answers := c.answers ++ [a], todo := todo } := by
  have hrb : s.rb = {} := h.idle hidle
  have hclosed : s.rb.isOpen = false := by rw [hrb]
  have hcomplete : c.complete = c.answers := if_pos hidle
  have hanswered : ∃ queue, asked s.log
      = ({ answers := c.answers ++ [a], todo := todo } : Client).requests ++ queue :=
    ⟨queue, by simp [hasked, Client.requests]⟩
  have hphase2 : (phase2s s.log ++ phase2s []).map Sbuf.record
      = c.answers.filterMap Answer.record := by
    rw [← hcomplete, ← h.phase2]
    simp [phase2s]
  unfold Answer.messages at hmessages
  cases ha : a.transfer with
  | none =>
      -- an interrupt is all of the answer
      simp only [ha, List.cons.injEq, Prod.mk.injEq] at hmessages
      obtain ⟨⟨rfl, rfl⟩, rfl⟩ := hmessages
      rw [receive_interrupt harr hclosed]
      refine h.received [] ⟨rfl, rfl, rfl, rfl, (List.append_nil _).symm⟩ (by simp [Quiet])
        hanswered (.idle rfl hrb) ?_
      rw [hphase2, Client.complete, if_pos rfl]
      simp [Answer.record, ha]
  | some x =>
      have hbegun : todo ≠ [] → (phase2s s.log ++ phase2s []).map Sbuf.record
          = ({ answers := c.answers ++ [a], todo := todo } : Client).complete.filterMap
            Answer.record := by
        intro htodo
        rw [Client.complete_begun htodo, hphase2]
      cases hd : x.datapth with
      | none =>
          simp only [ha, hd, Option.toList_none, List.map_nil, List.nil_append, List.cons.injEq,
            Prod.mk.injEq] at hmessages
          obtain ⟨⟨rfl, rfl⟩, rfl⟩ := hmessages
          rw [receive_stat harr hclosed]
          exact h.received [] ⟨rfl, rfl, rfl, rfl, (List.append_nil _).symm⟩
            (by simp [Quiet]) hanswered (.path c.answers a x ha rfl rfl hclosed rfl)
            (hbegun (by simp))
      | some d =>
          simp only [ha, hd, Option.toList_some, List.map_cons, List.map_nil, List.cons_append,
            List.nil_append, List.cons.injEq, Prod.mk.injEq] at hmessages
          obtain ⟨⟨rfl, rfl⟩, rfl⟩ := hmessages
          rw [receive_datapth harr hclosed]
          exact h.received [] ⟨rfl, rfl, rfl, rfl, (List.append_nil _).symm⟩
            (by simp [Quiet]) hanswered (.stat c.answers a x ha rfl rfl hclosed)
            (hbegun (by simp))

/-- In the middle of an answer, what has been sent to its end does not change. -/
theorem Books.underway {s' : State} {todo : List (Cmd × Bytes)}
    (h : Books conf all done s c) (es : List Event) (hbusy : c.todo ≠ []) (htodo : todo ≠ [])
    (hrec : Receives s s' es) (hquiet : Quiet es) (hnone : phase2s es = [])
    (hmidway : Midway s'.rb { c with todo := todo }) :
    Books conf all done s' { c with todo := todo } := by
  refine h.received _ hrec hquiet h.answered hmidway ?_
  rw [hnone, List.append_nil, h.phase2]
  unfold Client.complete
  rw [if_neg hbusy, if_neg htodo]

/-- The data of a file begin. -/
theorem Books.path {answers : List Answer} {a : Answer} {x : Transfer}
    (h : Books conf all done s c) (ha : a.transfer = some x) (hanswers : c.answers = answers ++ [a])
    (htodo : c.todo = (a.request.cmd, a.path) :: dataMessages x.appends x.endfile)
    (hclosed : s.rb.isOpen = false) (hstat : s.rb.sb.statbuf = x.stat)
    (harr : t.arrival = .message a.request.cmd a.path)
    (hmore : (doStuffToReceive conf working t s).2 = .more) :
    Books conf all done (doStuffToReceive conf working t s).1
      { c with todo := dataMessages x.appends x.endfile } := by
  have hdata : a.request.cmd.filedata = true := by
    obtain ⟨queue, hasked⟩ := h.answered
    refine h.data _ (List.mem_append_left _ ?_)
    rw [hasked, Client.requests, hanswers]
    simp
  have hbusy : c.todo ≠ [] := by simp [htodo]
  have hleft : dataMessages x.appends x.endfile ≠ [] := by simp [dataMessages]
  rw [receive_file harr hclosed hdata] at hmore ⊢
  split_ifs at hmore ⊢ with hdelta
  · obtain ⟨hrec, -, herror | ⟨-, hrb⟩⟩ := startToReceiveDelta_spec working t
      { s.rb.sb with cmd := a.request.cmd, path := some a.path } s
    · simp [hmore] at herror
    · refine h.underway _ hbusy hleft hrec (by simp [Quiet, Event.isMessage]) (by simp [phase2s]) ?_
      refine .data answers a x x.appends ha hanswers rfl (by rw [hrb]) ?_
      rw [hrb, Sbuf.record, ← hstat]
  · obtain ⟨paths, hrec, -, ⟨herror, -⟩ | ⟨-, -, hopen, hcmd, hpath, hstat', -⟩⟩ :=
      startToReceiveNewFile_spec conf working t
        { s.rb.sb with cmd := a.request.cmd, path := some a.path } s
    · simp [hmore] at herror
    · refine h.underway _ hbusy hleft hrec ?_ ?_ ?_
      · intro e he
        rcases List.mem_append.mp he with he | he
        · split_ifs at he
          · cases he
          · rw [List.mem_singleton.mp he]
            simp [Event.isMessage]
        · obtain ⟨p, -, rfl⟩ := List.mem_map.mp he
          simp [Event.isMessage]
      · unfold phase2s
        split_ifs <;> simp [List.filterMap_map]
      · refine .data answers a x x.appends ha hanswers rfl hopen ?_
        rw [Sbuf.record, hcmd, hpath, hstat', ← hstat]

/-- The data of a file go on, or end. -/
theorem Books.data_goesOn {answers : List Answer} {a : Answer} {x : Transfer}
    {appends : List Bytes} {cmd : Cmd} {text : Bytes} {todo : List (Cmd × Bytes)}
    (h : Books conf all done s c) (ha : a.transfer = some x) (hanswers : c.answers = answers ++ [a])
    (hopen : s.rb.isOpen = true)
    (hrecord : Sbuf.record s.rb.sb = (a.request.cmd, some a.path, x.stat))
    (htodo : c.todo = dataMessages appends x.endfile) (hnext : c.todo = (cmd, text) :: todo)
    (harr : t.arrival = .message cmd text) (hmore : (doStuffToReceive conf working t s).2 = .more) :
    Books conf all done (doStuffToReceive conf working t s).1 { c with todo := todo } := by
  have hbusy : c.todo ≠ [] := by simp [hnext]
  rw [htodo] at hnext
  cases appends with
  | cons b appends =>
      simp only [dataMessages, List.map_cons, List.cons_append, List.cons.injEq,
        Prod.mk.injEq] at hnext
      obtain ⟨⟨rfl, rfl⟩, rfl⟩ := hnext
      rw [receive_append harr hopen]
      exact h.underway [] hbusy (by simp)
        ⟨rfl, rfl, rfl, rfl, (List.append_nil _).symm⟩ (by simp [Quiet]) rfl
        (.data answers a x appends ha hanswers rfl hopen hrecord)
  | nil =>
      simp only [dataMessages, List.map_nil, List.nil_append, List.cons.injEq,
        Prod.mk.injEq] at hnext
      obtain ⟨⟨rfl, rfl⟩, rfl⟩ := hnext
      rw [receive_endFile harr hopen] at hmore ⊢
      obtain ⟨es, hrec, -, hrb, paths, -, ⟨-, hes, -⟩ | ⟨herror, -⟩⟩ :=
        receiveEnd_spec working t x.endfile s
      · refine h.received _ hrec ?_ h.answered (.idle rfl hrb) ?_
        · intro e he
          rw [hes] at he
          rcases List.mem_append.mp he with he | he
          · obtain ⟨p, -, rfl⟩ := List.mem_map.mp he
            simp [Event.isMessage]
          · rw [List.mem_singleton.mp he]
            simp [Event.isMessage]
        · -- the record of this file is the one of the last answer
          have hnew : (phase2s es).map Sbuf.record = [(a.request.cmd, some a.path, x.stat)] := by
            rw [hes, phase2s_append, ← hrecord]
            simp [phase2s, List.filterMap_map, Sbuf.record]
          rw [List.map_append, h.phase2, hnew]
          unfold Client.complete
          rw [if_neg hbusy, if_pos rfl, hanswers, List.dropLast_concat, List.filterMap_append]
          simp [Answer.record, ha]
      · simp [hmore] at herror

/-- **Receiving** keeps the books, while the loop goes on. -/
theorem Books.receive (h : Books conf all done s c) (hsaid : c.Says s.log t.arrival c')
    (hmore : (doStuffToReceive conf working t s).2 = .more) :
    Books conf all done (doStuffToReceive conf working t s).1 c' := by
  generalize harr : t.arrival = arrival at hsaid
  cases hsaid with
  | nothing =>
      rw [receive_nothing harr]
      exact h
  | warning text =>
      rw [receive_warning harr]
      exact h
  | begins a queue cmd text todo hidle hasked hmessages =>
      exact h.begins hidle hasked hmessages harr
  | goesOn cmd text todo hnext =>
      cases h.midway with
      | idle htodo hrb => simp [htodo] at hnext
      | stat answers a x ha hanswers htodo hclosed =>
          have hbusy : c.todo ≠ [] := by simp [hnext]
          rw [htodo] at hnext
          simp only [List.cons.injEq, Prod.mk.injEq] at hnext
          obtain ⟨⟨rfl, rfl⟩, rfl⟩ := hnext
          rw [receive_stat harr hclosed]
          exact h.underway [] hbusy (by simp)
            ⟨rfl, rfl, rfl, rfl, (List.append_nil _).symm⟩ (by simp [Quiet]) rfl
            (.path answers a x ha hanswers rfl hclosed rfl)
      | path answers a x ha hanswers htodo hclosed hstat =>
          have hthis := htodo
          rw [hnext] at hthis
          simp only [List.cons.injEq, Prod.mk.injEq] at hthis
          obtain ⟨⟨rfl, rfl⟩, rfl⟩ := hthis
          exact h.path ha hanswers htodo hclosed hstat harr hmore
      | data answers a x appends ha hanswers htodo hopen hrecord =>
          exact h.data_goesOn ha hanswers hopen hrecord htodo hnext harr hmore
  | agrees text htext hidle hasked htold =>
      have hclosed : s.rb.isOpen = false := by rw [h.idle hidle]
      rw [receive_agrees harr hclosed htext] at hmore
      cases hmore

/-- **Sending** keeps the books. -/
theorem Books.send (h : Books conf all done s c) :
    Books conf all done (doStuffToSend t s).1 c := by
  obtain ⟨⟨es, hsends⟩, -⟩ := doStuffToSend_spec t s
  obtain ⟨hnounchanged, hnophase2⟩ := files_of_messages hsends.messages
  have hasked : asked (doStuffToSend t s).1.log ++ (doStuffToSend t s).1.p1b.pending
      = asked s.log ++ s.p1b.pending := by
    rw [hsends.log, asked_append, List.append_assoc, hsends.pending]
  exact {
    ahead := by
      have hahead : (doStuffToSend t s).1.ahead conf = s.ahead conf := by
        unfold State.ahead
        rw [hsends.p1, hsends.cman, hsends.cb]
      rw [hahead]
      exact h.ahead
    written := by
      rw [hsends.log, unchangeds_append, hnounchanged, List.append_nil]
      exact h.written
    takes := by
      rw [hsends.log, unchangeds_append, hnounchanged, List.append_nil]
      exact h.takes
    unchanged := by
      intro hfailed
      rw [hsends.log, unchangeds_append, hnounchanged, List.append_nil,
        h.unchanged (hfailed.before hsends.log)]
    requests := by rw [hasked, h.requests]
    data := by rw [hasked]; exact h.data
    ended := by
      intro hmem
      rw [hsends.log, List.mem_append] at hmem
      rw [hsends.p1]
      rcases hmem with hmem | hmem
      · exact h.ended hmem
      · exact absurd hmem (hsends.gen _)
    last := by
      intro hp1
      rw [hsends.p1] at hp1
      have hpending := hsends.pending
      rw [h.last hp1, List.append_eq_nil_iff] at hpending
      exact hpending.2
    answered := by
      obtain ⟨queue, hqueue⟩ := h.answered
      exact ⟨queue ++ asked es, by
        rw [hsends.log, asked_append, hqueue, List.append_assoc]⟩
    midway := by rw [hsends.rb]; exact h.midway
    phase2 := by rw [hsends.log, phase2s_append, hnophase2, List.append_nil, h.phase2] }

/-- What a decision adds to the log: what it sends to the unchanged file, or the failure of
`new_non_file` to write it. -/
inductive Carried (d : Sbuf × Found) : List Event → Prop
  | request (hnone : unchangedOf d = none) : Carried d []
  | written (writer : Writer) (sb : Sbuf) (hout : d.2.outcome = .unchanged writer sb) :
      Carried d [.unchanged sb]
  | failed (sb : Sbuf) (hout : d.2.outcome = .unchanged .newNonFile sb) :
      Carried d [.failed (some .newNonFile) sb]

theorem Carried.quiet {d : Sbuf × Found} {es : List Event} (h : Carried d es) :
    asked es = [] ∧ phase2s es = [] ∧ ∀ cmd text, Event.sent cmd text ∉ es := by
  cases h with
  | request hnone => simp [asked, phase2s]
  | written writer sb hout => simp [asked, phase2s]
  | failed sb hout => simp [asked, phase2s]

/-- An entry has been decided on. -/
theorem Books.decided {x : Sbuf} {p1 : List Sbuf} {s' : State}
    (h : Books conf all done s c) (es : List Event) (hp1 : s.p1 = some (x :: p1))
    (hpending : s.p1b.pending = [])
    (hp1' : s'.p1 = some p1) (hcman : s'.cman = (lookup conf s.cman s.cb x).cman)
    (hcb : s'.cb = (lookup conf s.cman s.cb x).cb) (hrb : s'.rb = s.rb)
    (hlog : s'.log = s.log ++ es)
    (hes : Carried (x, lookup conf s.cman s.cb x) es)
    (hrequests : s'.p1b.pending.map Sbuf.label
      = (requestOf (x, lookup conf s.cman s.cb x)).toList.map Sbuf.label)
    (hdata : ∀ sb ∈ s'.p1b.pending, sb.cmd.filedata = true) :
    Books conf all (done ++ [(x, lookup conf s.cman s.cb x)]) s' c := by
  obtain ⟨hnoasked, hnophase2, hnosent⟩ := hes.quiet
  have hasked : asked s'.log = asked s.log := by
    rw [hlog, asked_append, hnoasked, List.append_nil]
  have hreq := h.requests
  have hdat := h.data
  rw [hpending, List.append_nil] at hreq hdat
  generalize hd : (x, lookup conf s.cman s.cb x) = d at hes hrequests
  exact {
    ahead := by
      rw [List.append_assoc, h.ahead, State.ahead, State.ahead, hp1, hp1', hcman, hcb, ← hd]
      rfl
    written := by
      rw [hlog, unchangeds_append, List.filterMap_append]
      refine h.written.append ?_
      cases hes with
      | request hnone => exact List.nil_sublist _
      | written writer sb hout => simp [unchangeds, unchangedOf, hout]
      | failed sb hout => exact List.nil_sublist _
    takes := by
      intro d' hd' sb hsb
      rw [hlog, unchangeds_append]
      rcases List.mem_append.mp hd' with hd' | hd'
      · exact List.mem_append_left _ (h.takes d' hd' sb hsb)
      · rw [List.mem_singleton.mp hd'] at hsb
        refine List.mem_append_right _ ?_
        cases hes with
        | request hnone => simp [unchangedOf, hsb] at hnone
        | written writer sb' hout =>
            rw [hout, Outcome.unchanged.injEq] at hsb
            simp [unchangeds, hsb.2]
        | failed sb' hout =>
            rw [hout, Outcome.unchanged.injEq] at hsb
            cases hsb.1
    unchanged := by
      intro hfailed
      rw [hlog, unchangeds_append, h.unchanged (hfailed.before hlog), List.filterMap_append]
      cases hes with
      | request hnone => simp [unchangeds, hnone]
      | written writer sb hout => simp [unchangeds, unchangedOf, hout]
      | failed sb hout =>
          refine absurd ?_ (hfailed (some .newNonFile) sb)
          rw [hlog]
          simp
    requests := by
      rw [hasked, List.map_append, hreq, hrequests, List.filterMap_append, List.map_append]
      cases hr : requestOf d <;> simp [hr]
    data := by
      rw [hasked]
      intro sb hsb
      rcases List.mem_append.mp hsb with hsb | hsb
      · exact hdat sb hsb
      · exact hdata sb hsb
    ended := by
      intro hmem
      rw [hlog, List.mem_append] at hmem
      rcases hmem with hmem | hmem
      · have hnone := h.ended hmem
        rw [hp1] at hnone
        cases hnone
      · exact absurd hmem (hnosent _ _)
    last := by
      intro hnone
      rw [hp1'] at hnone
      cases hnone
    answered := by rw [hasked]; exact h.answered
    midway := by rw [hrb]; exact h.midway
    phase2 := by rw [hlog, phase2s_append, hnophase2, List.append_nil, h.phase2] }

/-- **The next entry** of the list. -/
theorem Books.nextEntry_cons {x : Sbuf} {p1 : List Sbuf} (h : Books conf all done s c)
    (hp1 : s.p1 = some (x :: p1)) (hpending : s.p1b.pending = []) (hpath : x.path ≠ none)
    (hmore : (nextEntry conf t s).2 = .more) :
    Books conf all (done ++ [(x, lookup conf s.cman s.cb x)]) (nextEntry conf t s).1 c := by
  unfold nextEntry at hmore ⊢
  rw [hp1] at hmore ⊢
  simp only at hmore ⊢
  split_ifs at hmore ⊢ with hreads
  unfold compareEntry at hmore ⊢
  simp only at hmore ⊢
  split_ifs at hmore ⊢ with hread
  unfold carryOut at hmore ⊢
  simp only at hmore ⊢
  cases hout : (lookup conf s.cman s.cb x).outcome with
  | request =>
      have hdata : x.cmd.filedata = true := lookup_request conf s.cman s.cb (by simp [hout])
      exact h.decided [] hp1 hpending rfl rfl rfl rfl (List.append_nil _).symm
        (.request (by simp [unchangedOf, hout]))
        (by simp [requestOf, hout, Asking.pending]) (by simpa [Asking.pending] using hdata)
  | delta =>
      have hdata : x.cmd.filedata = true := lookup_request conf s.cman s.cb (by simp [hout])
      rw [hout] at hmore
      simp only at hmore ⊢
      split_ifs at hmore ⊢ with hold
      exact h.decided [] hp1 hpending rfl rfl rfl rfl (List.append_nil _).symm
        (.request (by simp [unchangedOf, hout]))
        (by simp [requestOf, hout, Asking.pending, Sbuf.label])
        (by simpa [Asking.pending] using hdata)
  | unchanged writer sb =>
      rw [hout] at hmore
      simp only at hmore ⊢
      have hsome : ¬ sb.path.isNone = true := by
        have hsb : sb.path = x.path := by
          rcases lookup_unchanged hout with ⟨rfl, -⟩ | ⟨-, -, hpath', -⟩
          · rfl
          · exact hpath'
        rw [hsb]
        simpa using hpath
      have hrequests : ∀ a : Asking, a.sendpath = false → a.pending.map Sbuf.label
          = (requestOf (x, lookup conf s.cman s.cb x)).toList.map Sbuf.label := by
        intro a ha
        simp [requestOf, hout, Asking.pending, ha]
      rw [if_neg hsome] at hmore ⊢
      split_ifs at hmore ⊢ with hwritten hwriter
      · exact h.decided [.unchanged sb] hp1 hpending rfl rfl rfl rfl rfl
          (.written writer sb hout) (hrequests _ rfl) (by simp [Asking.pending, State.emit])
      · rw [hwriter] at hout
        exact h.decided _ hp1 hpending rfl rfl rfl rfl (by rw [hwriter]; rfl) (.failed sb hout)
          (hrequests _ rfl) (by simp [Asking.pending, State.emit])

/-- For an entry without a path there is nothing to do. -/
theorem lookup_nothing (conf : Conf) (cman : Option (List Sbuf)) (cb : Sbuf) :
    ∃ writer sb, (lookup conf cman cb {}).outcome = .unchanged writer sb ∧ sb.path = none := by
  by_cases h : ∃ writer sb, (lookup conf cman cb {}).outcome = .unchanged writer sb
  · obtain ⟨writer, sb, hout⟩ := h
    exact ⟨writer, sb, hout, lookup_end hout⟩
  · have hdata : ({} : Sbuf).cmd.filedata = true :=
      lookup_request conf cman cb fun writer sb hout =>
        h ⟨writer, sb, hout⟩
    cases hdata

/-- **The end of the list.** -/
theorem Books.nextEntry_nil (h : Books conf all done s c) (hp1 : s.p1 = some [])
    (hpending : s.p1b.pending = []) (hmore : (nextEntry conf t s).2 = .more) :
    Books conf all done (nextEntry conf t s).1 c := by
  have hall : all = done := by
    have hahead := h.ahead
    unfold State.ahead at hahead
    rw [hp1] at hahead
    simpa [decisions] using hahead
  obtain ⟨s', rfl, hp1', hp1b, hrb, hlog⟩ :
      ∃ s', (nextEntry conf t s).1 = s' ∧ s'.p1 = none ∧ s'.p1b = {}
      ∧ s'.rb = s.rb ∧ s'.log = s.log ++ [.sent .gen (nameBytes "backupphase2end")] := by
    unfold nextEntry at hmore ⊢
    rw [hp1] at hmore ⊢
    simp only at hmore ⊢
    split_ifs at hmore ⊢ with hreads hend
    unfold compareEntry at hmore ⊢
    split_ifs at hmore ⊢ with hread
    obtain ⟨writer, sb, hout, hpath⟩ := lookup_nothing conf s.cman s.cb
    unfold carryOut at hmore ⊢
    simp only [State.emit, hout, hpath, Option.isNone_none, if_true]
    exact ⟨_, rfl, rfl, rfl, rfl, rfl⟩
  have hasked : asked (nextEntry conf t s).1.log = asked s.log := by
    rw [hlog, asked_append]
    exact List.append_nil _
  have hunchangeds : unchangeds (nextEntry conf t s).1.log = unchangeds s.log := by
    rw [hlog, unchangeds_append]
    exact List.append_nil _
  have hreq := h.requests
  have hdat := h.data
  rw [hpending] at hreq hdat
  exact {
    ahead := by
      unfold State.ahead
      rw [hp1', List.append_nil, hall]
    written := by
      rw [hunchangeds]
      exact h.written
    takes := by
      rw [hunchangeds]
      exact h.takes
    unchanged := by
      intro hfailed
      rw [hunchangeds, h.unchanged (hfailed.before hlog)]
    requests := by rw [hasked, hp1b]; exact hreq
    data := by rw [hasked, hp1b]; exact hdat
    ended := fun _ => hp1'
    last := by intro _; rw [hp1b]; rfl
    answered := by rw [hasked]; exact h.answered
    midway := by rw [hrb]; exact h.midway
    phase2 := by
      rw [hlog, phase2s_append]
      rw [show phase2s [Event.sent .gen (nameBytes "backupphase2end")] = [] from rfl,
        List.append_nil, h.phase2] }

/-- **The last part of a turn** keeps the books, while the loop goes on. -/
theorem Books.nextEntry (h : Books conf all done s c) (hpending : s.p1b.pending = [])
    (hpaths : ∀ d ∈ all, d.1.path ≠ none) (hmore : (nextEntry conf t s).2 = .more) :
    ∃ done', Books conf all done' (nextEntry conf t s).1 c := by
  rcases hp1 : s.p1 with _ | _ | ⟨x, p1⟩
  · refine ⟨done, ?_⟩
    unfold Phase2.nextEntry
    rw [hp1]
    exact h
  · exact ⟨done, h.nextEntry_nil hp1 hpending hmore⟩
  · refine ⟨_, h.nextEntry_cons hp1 hpending ?_ hmore⟩
    refine hpaths (x, lookup conf s.cman s.cb x) ?_
    rw [h.ahead, State.ahead, hp1]
    simp [decisions]

/-- **One turn** keeps the books, while the loop goes on. -/
theorem turn_books (hpaths : ∀ d ∈ all, d.1.path ≠ none) (h : Books conf all done s c)
    (hheard : Heard t s c c') : (turn conf working t s).2 = .more →
      ∃ done, Books conf all done (turn conf working t s).1 c' := by
  unfold Heard at hheard
  apply turn_cases (P := fun r : State × Loop => r.2 = .more → ∃ done, Books conf all done r.1 c')
    (R := fun s' => Books conf all done s' c')
  case skipped =>
    intro hr
    rw [hr] at hheard
    rw [show c' = c from by simpa using hheard]
    exact h
  case received =>
    intro hr hmore
    rw [if_pos hr] at hheard
    exact h.receive hheard hmore
  case stops =>
    intro _ hne hmore
    exact absurd hmore hne
  case again =>
    intro s' hs' _ _
    exact ⟨done, hs'.send⟩
  case fails =>
    intro s' _ _ hmore
    cases hmore
  case next =>
    intro s' hs' hall hmore
    exact hs'.send.nextEntry ((doStuffToSend_spec t s').2 hall) hpaths hmore

end Turns

/-! ## §4. Closed books. -/

/-- The start of a run. -/
def State.start (p1 : List Sbuf) (cman : Option (List Sbuf)) (dpth : Dpth) : State :=
  { p1 := some p1, cman := cman, dpth := dpth }

/-- **At the end** everything has been decided on, asked and answered. -/
structure Closed (all : List (Sbuf × Found)) (s : State) (c : Client) : Prop where
  written : (unchangeds s.log).Sublist (all.filterMap unchangedOf)
  takes : ∀ d ∈ all, ∀ sb, d.2.outcome = .unchanged .unchangedFile sb → sb ∈ unchangeds s.log
  unchanged : NoneFailed s → unchangeds s.log = all.filterMap unchangedOf
  requests : c.requests.map Sbuf.label = (all.filterMap requestOf).map Sbuf.label
  phase2 : (phase2s s.log).map Sbuf.record = c.answers.filterMap Answer.record

/-- No message of an answer could end phase 2. -/
theorem messages_ne_gen {a : Answer} (hdata : a.request.cmd.filedata = true) :
    ∀ m ∈ a.messages, m.1 ≠ .gen := by
  have hcmd : a.request.cmd ≠ .gen := by
    intro h
    simp [h, Cmd.filedata] at hdata
  intro m hm
  unfold Answer.messages at hm
  cases ha : a.transfer with
  | none =>
      simp only [ha, List.mem_singleton] at hm
      simp [hm]
  | some x =>
      simp only [ha, dataMessages, List.mem_append, List.mem_cons, List.mem_map,
        List.not_mem_nil, or_false] at hm
      rcases hm with ⟨d, -, rfl⟩ | rfl | rfl | ⟨b, -, rfl⟩ | rfl
      · simp
      · simp
      · exact hcmd
      · simp
      · simp

/-- What is left to send is from an answer. -/
theorem Books.todo_messages {conf : Conf} {all done : List (Sbuf × Found)} {s : State} {c : Client}
    (h : Books conf all done s c) : ∀ m ∈ c.todo, m.1 ≠ .gen := by
  have hlast : ∀ (answers : List Answer) (a : Answer), c.answers = answers ++ [a] →
      a.request.cmd ≠ .gen := by
    intro answers a hanswers hgen
    obtain ⟨queue, hasked⟩ := h.answered
    have hdata := h.data a.request (List.mem_append_left _ (by
      rw [hasked, Client.requests, hanswers]
      simp))
    simp [hgen, Cmd.filedata] at hdata
  intro m hm
  cases h.midway with
  | idle htodo hrb => simp [htodo] at hm
  | stat answers a x ha hanswers htodo hclosed =>
      simp only [htodo, dataMessages, List.mem_append, List.mem_cons, List.mem_map,
        List.not_mem_nil, or_false] at hm
      rcases hm with rfl | rfl | ⟨b, -, rfl⟩ | rfl
      · simp
      · exact hlast answers a hanswers
      · simp
      · simp
  | path answers a x ha hanswers htodo hclosed hstat =>
      simp only [htodo, dataMessages, List.mem_append, List.mem_cons, List.mem_map,
        List.not_mem_nil, or_false] at hm
      rcases hm with rfl | ⟨b, -, rfl⟩ | rfl
      · exact hlast answers a hanswers
      · simp
      · simp
  | data answers a x appends ha hanswers htodo hopen hrecord =>
      simp only [htodo, dataMessages, List.mem_append, List.mem_cons, List.mem_map,
        List.not_mem_nil, or_false] at hm
      rcases hm with ⟨b, -, rfl⟩ | rfl
      · simp
      · simp

/-- What ends phase 2 is that the client agrees. -/
theorem Books.agreed {conf : Conf} {working : Bytes} {all done : List (Sbuf × Found)} {t : Turn}
    {s : State} {c c' : Client} (h : Books conf all done s c) (hsaid : c.Says s.log t.arrival c')
    (hdone : (doStuffToReceive conf working t s).2 = .done) :
    c' = c ∧ c.todo = [] ∧ asked s.log = c.requests
      ∧ Event.sent .gen (nameBytes "backupphase2end") ∈ s.log
      ∧ doStuffToReceive conf working t s = (s, .done) := by
  generalize harr : t.arrival = arrival at hsaid
  cases hsaid with
  | agrees text htext hidle hasked htold =>
      have hclosed : s.rb.isOpen = false := by rw [h.idle hidle]
      exact ⟨rfl, hidle, hasked, htold, receive_agrees harr hclosed htext⟩
  | nothing =>
      rw [receive_nothing harr] at hdone
      cases hdone
  | warning text =>
      rw [receive_warning harr] at hdone
      cases hdone
  | begins a queue cmd text todo hidle hasked hmessages =>
      have hdata : a.request.cmd.filedata = true :=
        h.data _ (List.mem_append_left _ (by rw [hasked]; simp))
      obtain ⟨text', harr'⟩ := receive_done hdone
      rw [harr, Arrival.message.injEq] at harr'
      exact absurd harr'.1 (messages_ne_gen hdata (cmd, text) (by rw [hmessages]; simp))
  | goesOn cmd text todo hnext =>
      obtain ⟨text', harr'⟩ := receive_done hdone
      rw [harr, Arrival.message.injEq] at harr'
      exact absurd harr'.1 (h.todo_messages (cmd, text) (by rw [hnext]; simp))

/-- The client agrees to the end of phase 2. -/
theorem Books.closed {conf : Conf} {working : Bytes} {all done : List (Sbuf × Found)} {t : Turn}
    {s : State} {c c' : Client} (h : Books conf all done s c) (hsaid : c.Says s.log t.arrival c')
    (hdone : (doStuffToReceive conf working t s).2 = .done) :
    Closed all (doStuffToReceive conf working t s).1 c' := by
  obtain ⟨rfl, hidle, hasked, htold, hresult⟩ := h.agreed hsaid hdone
  rw [hresult]
  have hp1 := h.ended htold
  have hall : all = done := by
    have hahead := h.ahead
    unfold State.ahead at hahead
    rw [hp1] at hahead
    simpa using hahead
  have hrequests := h.requests
  rw [h.last hp1, List.append_nil, hasked] at hrequests
  have hphase2 := h.phase2
  rw [Client.complete, if_pos hidle] at hphase2
  rw [hall]
  exact ⟨h.written, h.takes, h.unchanged, hrequests, hphase2⟩

section Runs

variable {conf : Conf} {working : Bytes} {all : List (Sbuf × Found)} {t : Turn} {s : State}
  {c c' : Client}

/-- The last turn of a run that ends well. -/
theorem turn_closed {done : List (Sbuf × Found)} (h : Books conf all done s c)
    (hheard : Heard t s c c') : (turn conf working t s).2 = .done →
      Closed all (turn conf working t s).1 c' := by
  unfold Heard at hheard
  apply turn_cases (R := fun _ => True) (P := fun r : State × Loop => r.2 = .done →
      Closed all r.1 c')
  case skipped => intro _; trivial
  case received => intro _ _; trivial
  case stops =>
    intro hr _ hdone
    rw [if_pos hr] at hheard
    exact h.closed hheard hdone
  case again => intro s' _ _ hdone; cases hdone
  case fails => intro s' _ _ hdone; cases hdone
  case next => intro s' _ _ hdone; exact absurd hdone (nextEntry_ne_done conf t _)

/-- A run starts with nothing decided. -/
theorem books_start (conf : Conf) (p1 : List Sbuf) (cman : Option (List Sbuf)) (dpth : Dpth) :
    Books conf (decisions conf cman {} p1) [] (.start p1 cman dpth) {} where
  ahead := rfl
  written := .slnil
  takes := by intro d hd; cases hd
  unchanged := fun _ => rfl
  requests := rfl
  data := by intro sb hsb; cases hsb
  ended := by intro hmem; cases hmem
  last := by intro hnone; cases hnone
  answered := ⟨[], rfl⟩
  midway := .idle rfl rfl
  phase2 := rfl

/-- **Runs** that end well close the books. -/
theorem run_closed {ts : List Turn} {p1 : List Sbuf} {cman : Option (List Sbuf)} {dpth : Dpth}
    (hpaths : ∀ sb ∈ p1, sb.path ≠ none)
    (hserved : Served conf working ts (.start p1 cman dpth) {} c)
    (hdone : (run conf working ts (.start p1 cman dpth)).2 = .done) :
    Closed (decisions conf cman {} p1) (run conf working ts (.start p1 cman dpth)).1 c := by
  have hall : ∀ d ∈ decisions conf cman {} p1, d.1.path ≠ none := by
    intro d hd
    refine hpaths d.1 ?_
    rw [← fst_decisions conf p1 cman {}]
    exact List.mem_map_of_mem hd
  refine served_ends (P := fun s c => ∃ done, Books conf (decisions conf cman {} p1) done s c)
    (Q := fun r c => r.2 = .done → Closed (decisions conf cman {} p1) r.1 c)
    ?_ ?_ ?_ hserved ⟨[], books_start conf p1 cman dpth⟩ hdone
  · intro s c _ hmore
    cases hmore
  · rintro t s c c' ⟨done, h⟩ hheard hmore
    exact turn_books hall h hheard hmore
  · rintro t s c c' ⟨done, h⟩ hheard _
    exact turn_closed h hheard

end Runs

/-! ## §5. Every entry, once. -/

/-- What is decided about an entry keeps its label. -/
theorem unchangedOf_label {conf : Conf} {cman : Option (List Sbuf)} {cb : Sbuf} {p1 : List Sbuf}
    {d : Sbuf × Found} (hd : d ∈ decisions conf cman cb p1) :
    (∃ sb, unchangedOf d = some sb ∧ requestOf d = none ∧ Sbuf.label sb = Sbuf.label d.1)
      ∨ unchangedOf d = none ∧ requestOf d = some d.1 := by
  obtain ⟨cman', cb', hf⟩ := mem_decisions hd
  unfold unchangedOf requestOf
  cases hout : d.2.outcome with
  | request => exact Or.inr ⟨rfl, rfl⟩
  | delta => exact Or.inr ⟨rfl, rfl⟩
  | unchanged writer sb =>
      refine Or.inl ⟨sb, rfl, rfl, ?_⟩
      rw [hf] at hout
      unfold Sbuf.label
      rcases lookup_unchanged hout with ⟨rfl, -⟩ | ⟨-, -, hpath, hcmd, -⟩
      · rfl
      · rw [hpath, hcmd]

/-- **The decisions** send each entry to one of two places, in order. -/
theorem decisions_split (all : List (Sbuf × Found))
    (h : ∀ d ∈ all, (∃ sb, unchangedOf d = some sb ∧ requestOf d = none
        ∧ Sbuf.label sb = Sbuf.label d.1) ∨ unchangedOf d = none ∧ requestOf d = some d.1) :
    ((all.filterMap unchangedOf).map Sbuf.label
        ++ (all.filterMap requestOf).map Sbuf.label).Perm ((all.map Prod.fst).map Sbuf.label)
      ∧ ((all.filterMap unchangedOf).map Sbuf.label).Sublist ((all.map Prod.fst).map Sbuf.label)
      ∧ ((all.filterMap requestOf).map Sbuf.label).Sublist
        ((all.map Prod.fst).map Sbuf.label) := by
  induction all with
  | nil => exact ⟨.nil, .slnil, .slnil⟩
  | cons d all ih =>
      obtain ⟨hperm, hun, hreq⟩ := ih fun d' hd' => h d' (List.mem_cons_of_mem _ hd')
      rcases h d List.mem_cons_self with ⟨sb, hsb, hnone, hlabel⟩ | ⟨hnone, hsome⟩
      · rw [List.filterMap_cons_some hsb, List.filterMap_cons_none hnone, List.map_cons, hlabel]
        exact ⟨hperm.cons _, hun.cons_cons _, hreq.cons _⟩
      · rw [List.filterMap_cons_none hnone, List.filterMap_cons_some hsome, List.map_cons]
        exact ⟨List.perm_middle.trans (hperm.cons _), hun.cons _, hreq.cons_cons _⟩

/-- The order of `sbuf_pathcmp` is one of labels. -/
def Below (l m : Cmd × Option Bytes) : Prop :=
  sbufPathcmp { cmd := l.1, path := l.2 } { cmd := m.1, path := m.2 } < 0

theorem below_label (a b : Sbuf) : Below (Sbuf.label a) (Sbuf.label b) ↔ sbufPathcmp a b < 0 :=
  Iff.rfl

theorem pairwise_label {l : List Sbuf} :
    (l.map Sbuf.label).Pairwise Below ↔ l.Pairwise fun a b => sbufPathcmp a b < 0 :=
  List.pairwise_map

/-- No label is below itself. -/
theorem below_irrefl (l : Cmd × Option Bytes) : ¬ Below l l := by
  have hcompat : Compatible { cmd := l.1, path := l.2 } { cmd := l.1, path := l.2 } := by
    intro _
    have hclass := (Cmd.classes l.1).2
    refine ⟨fun h => ?_, fun h => ?_⟩
    · simp [hclass h.1] at h
    · simp [hclass h.2] at h
  unfold Below
  rw [(sbufPathcmp_spec hcompat).1]
  exact lt_irrefl _

/-- The requests that have been answered with a file. -/
def Client.received (c : Client) : List Sbuf :=
  (c.answers.filter fun a => a.transfer.isSome).map Answer.request

/-- A file that is received is called what has been asked for. -/
theorem record_label : ∀ {answers : List Answer}, (∀ a ∈ answers, a.request.path ≠ none) →
    (answers.filterMap Answer.record).map (fun r => (r.1, r.2.1))
      = ((answers.filter fun a => a.transfer.isSome).map Answer.request).map Sbuf.label
  | [], _ => rfl
  | a :: answers, h => by
      have ih := record_label fun a' ha' => h a' (List.mem_cons_of_mem _ ha')
      have hpath := h a List.mem_cons_self
      cases ha : a.transfer with
      | none =>
          rw [List.filterMap_cons_none (by simp [Answer.record, ha]),
            List.filter_cons_of_neg (by simp [ha])]
          exact ih
      | some x =>
          rw [List.filterMap_cons_some (by rw [Answer.record, ha]; rfl),
            List.filter_cons_of_pos (by simp [ha]), List.map_cons, List.map_cons, List.map_cons, ih]
          obtain ⟨p, hp⟩ := Option.ne_none_iff_exists'.mp hpath
          simp [Answer.path, Sbuf.label, hp]

section Closed

variable {conf : Conf} {p1 : List Sbuf} {cman : Option (List Sbuf)} {cb : Sbuf} {s : State}
  {c : Client}

/-- What goes to the unchanged file and what is asked for are the list, in two parts. -/
theorem Closed.split (h : Closed (decisions conf cman cb p1) s c) :
    (((decisions conf cman cb p1).filterMap unchangedOf).map Sbuf.label
        ++ c.requests.map Sbuf.label).Perm (p1.map Sbuf.label)
      ∧ ((unchangeds s.log).map Sbuf.label).Sublist (p1.map Sbuf.label)
      ∧ (c.requests.map Sbuf.label).Sublist (p1.map Sbuf.label) := by
  obtain ⟨hperm, hun, hreq⟩ := decisions_split (decisions conf cman cb p1)
    fun d hd => unchangedOf_label hd
  rw [fst_decisions, ← h.requests] at hperm hreq
  rw [fst_decisions] at hun
  exact ⟨hperm, (h.written.map _).trans hun, hreq⟩

/-- Every request is one for an entry of the list. -/
theorem Closed.request_path (h : Closed (decisions conf cman cb p1) s c)
    (hpaths : ∀ sb ∈ p1, sb.path ≠ none) : ∀ a ∈ c.answers, a.request.path ≠ none := by
  intro a ha hnone
  have hmem : Sbuf.label a.request ∈ p1.map Sbuf.label :=
    h.split.2.2.mem (List.mem_map_of_mem (List.mem_map_of_mem ha))
  obtain ⟨x, hx, hlabel⟩ := List.mem_map.mp hmem
  refine hpaths x hx ?_
  rw [← hnone]
  exact congrArg Prod.snd hlabel

/-- The phase 2 file has what has been received. -/
theorem Closed.received (h : Closed (decisions conf cman cb p1) s c)
    (hpaths : ∀ sb ∈ p1, sb.path ≠ none) :
    (phase2s s.log).map Sbuf.label = c.received.map Sbuf.label := by
  rw [Client.received, ← record_label (h.request_path hpaths), ← h.phase2, List.map_map]
  rfl

theorem received_sublist (c : Client) : c.received.Sublist c.requests :=
  List.filter_sublist.map _

theorem received_interrupted (c : Client) : (c.received ++ c.interrupted).Perm c.requests := by
  have hsplit := List.filter_append_perm (fun a : Answer => a.transfer.isSome) c.answers
  have hnone : (c.answers.filter fun a => !a.transfer.isSome)
      = c.answers.filter fun a => a.transfer.isNone := by
    congr 1
    funext a
    cases a.transfer <;> rfl
  rw [hnone] at hsplit
  unfold Client.received Client.interrupted Client.requests
  rw [← List.map_append]
  exact hsplit.map _

/-- **The two files are in order.** -/
theorem Closed.sorted (h : Closed (decisions conf cman cb p1) s c)
    (hpaths : ∀ sb ∈ p1, sb.path ≠ none) (hp1 : p1.Pairwise fun a b => sbufPathcmp a b < 0) :
    (p1.map Sbuf.label).Nodup ∧ (unchangeds s.log).Pairwise (fun a b => sbufPathcmp a b < 0)
      ∧ (phase2s s.log).Pairwise (fun a b => sbufPathcmp a b < 0) := by
  have hbelow := pairwise_label.mpr hp1
  refine ⟨hbelow.imp ?_, pairwise_label.mp (hbelow.sublist h.split.2.1), ?_⟩
  · rintro l m hlt rfl
    exact below_irrefl l hlt
  · rw [← pairwise_label, h.received hpaths]
    exact hbelow.sublist (((received_sublist c).map _).trans h.split.2.2)

end Closed

/-- **Phase 2 accounts for every entry**: whatever the timing of the client, if
`backup_phase2_server` returns 0, then each entry of the client's list has been written once
to the unchanged file, or once to the phase 2 file, or has been interrupted by the client;
nothing else is in the two files, and both of them are in order. -/
theorem phase2_accounts (conf : Conf) (working : Bytes) (ts : List Turn) (closes : Bool)
    (p1 : List Sbuf) (cman : Option (List Sbuf)) (dpth : Dpth) (s : State) (ret : Returned)
    (c : Client) (hpaths : ∀ sb ∈ p1, sb.path ≠ none)
    (hp1 : p1.Pairwise fun a b => sbufPathcmp a b < 0)
    (hserved : Served conf working ts (.start p1 cman dpth) {} c)
    (hret : backupPhase2Server conf working ts closes (.start p1 cman dpth) = (s, some ret))
    (hok : ret.ok = true) (hfailed : NoneFailed s) :
    ((unchangeds s.log ++ phase2s s.log ++ c.interrupted).map Sbuf.label).Perm (p1.map Sbuf.label)
      ∧ (p1.map Sbuf.label).Nodup
      ∧ (unchangeds s.log).Pairwise (fun a b => sbufPathcmp a b < 0)
      ∧ (phase2s s.log).Pairwise (fun a b => sbufPathcmp a b < 0) := by
  obtain ⟨hdone, hs⟩ : (run conf working ts (.start p1 cman dpth)).2 = .done
      ∧ (run conf working ts (.start p1 cman dpth)).1 = s := returned_ok hret hok
  have hclosed := run_closed hpaths hserved hdone
  rw [hs] at hclosed
  obtain ⟨hnodup, hun, hph⟩ := hclosed.sorted hpaths hp1
  refine ⟨?_, hnodup, hun, hph⟩
  rw [List.map_append, List.map_append, hclosed.received hpaths, List.append_assoc,
    ← List.map_append, hclosed.unchanged hfailed]
  exact (((received_interrupted c).map _).append_left _).trans hclosed.split.1

/-- A directory and two files. -/
def threeEntries : List Sbuf :=
  [{ cmd := .directory, path := some [97], statbuf := [65] },
   { cmd := .file, path := some [98], statbuf := [65] },
   { cmd := .file, path := some [99], statbuf := [65] }]

/-- The client sends the first file and interrupts the second one. -/
def threeAnswers : List Answer :=
  [{ request := { cmd := .file, path := some [98], statbuf := [65] },
     transfer := some { stat := [66], appends := [[1]], endfile := [48] } },
   { request := { cmd := .file, path := some [99], statbuf := [65] }, transfer := none }]

/-- The turns of this run: the client answers as soon as it has been asked. -/
def threeTurns : List Turn :=
  [{}, {}, {}, { arrival := .message .stat [66] }, { arrival := .message .file [98] },
   { arrival := .message .append [1] }, { arrival := .message .endFile [48] },
   { arrival := .message .interrupt [99] },
   { arrival := .message .gen (nameBytes "okbackupphase2end") }]

theorem threeTurns_served :
    Served { directoryTree := false } [119] threeTurns (.start threeEntries none {}) {}
      { answers := threeAnswers } := by
  refine .more (heard_idle (by decide)) (by decide) ?_
  refine .more (heard_idle (by decide)) (by decide) ?_
  refine .more (heard_idle (by decide)) (by decide) ?_
  refine .more (show Heard _ _ _ { answers := threeAnswers.take 1, todo := _ } from
    heard_said (by decide) (.begins threeAnswers[0] [] _ _ _ rfl (by decide) rfl)) (by decide) ?_
  refine .more (heard_said (by decide) (.goesOn _ _ _ rfl)) (by decide) ?_
  refine .more (heard_said (by decide) (.goesOn _ _ _ rfl)) (by decide) ?_
  refine .more (heard_said (by decide) (.goesOn _ _ _ rfl)) (by decide) ?_
  refine .more (heard_said (by decide) (.begins threeAnswers[1] [] _ _ _ rfl (by decide) rfl))
    (by decide) ?_
  exact .last (heard_said (by decide) (.agrees _ (by decide) rfl (by decide) (by decide)))
      (by decide)

/-- The state at its end. -/
def threeEnd : State :=
  (backupPhase2Server { directoryTree := false } [119] threeTurns true
    (.start threeEntries none {})).1

theorem three_entries_accounted :
    ((unchangeds threeEnd.log ++ phase2s threeEnd.log
        ++ ({ answers := threeAnswers } : Client).interrupted).map Sbuf.label).Perm
        (threeEntries.map Sbuf.label)
      ∧ (threeEntries.map Sbuf.label).Nodup
      ∧ (unchangeds threeEnd.log).Pairwise (fun a b => sbufPathcmp a b < 0)
      ∧ (phase2s threeEnd.log).Pairwise (fun a b => sbufPathcmp a b < 0) :=
  phase2_accounts { directoryTree := false } [119] threeTurns true threeEntries none {}
    threeEnd { ok := true, phase1 := false } { answers := threeAnswers } (by decide) (by decide)
    threeTurns_served (Prod.ext rfl (by decide)) rfl (by decide)

end Burp.Phase2
