/-
  Burp.Server.Polling — the loop of `run_server` and the table of children.

  Children of both kinds take the first spare slot of one table, which has room for the children
  of both limits together.  The five loops of `run_server` walk over the first `max_children`
  slots.  What they are meant to do for all children, they do for all as long as no child has
  had to take a slot behind these.

  Main results:
    * `reaches_consistent` — in every run in which each child finds a slot among the first
      `max_children`, the limits hold, the records stay and the loops reach all children.
    * `status_child_not_offered` — in other runs they do not.
-/
import Burp.Server.Children

namespace Burp.Server.Children

open FileSystem Burp.Store

/-! ## §1. The loops. -/

/-- What `select` gives: `EAGAIN` or `EINTR`, which leave the sets as they are, another error,
or the sets of what is ready. -/
inductive Select
  | again
  | failed
  | ready (r e : Int → Bool)

/-- The two sets after `select`, if the loop goes on. -/
def Select.sets (sel : Select) (set : List Int) : Option (List Int × List Int) :=
  match sel with
  | .again => some (set, set)
  | .failed => none
  | .ready r e => some (set.filter r, set.filter e)

/-- The two listening sockets. -/
structure Sockets where
  rfd : Int
  sfd : Int

/-- `add_fd_to_sets` for the listening sockets. -/
def Sockets.listening (so : Sockets) : List Int :=
  if 0 ≤ so.sfd then [so.rfd, so.sfd] else [so.rfd]

/-- The first loop: the status pipes of the normal children, which are also what
`found_normal_child` counts. -/
def normalPipes (conf : Limits) (chlds : List Chldstat) : List Int :=
  ((chlds.take conf.maxChildren).filter fun c => !c.statusServer && 0 ≤ c.rfd).map Chldstat.rfd

/-- One status message is read: a full line is kept, and the first one gives the name.  `read`
gives no bytes at the end of the pipe and on errors. -/
def readStatus (read : Int → Bytes) (c : Chldstat) : Chldstat :=
  let buf := read c.rfd
  if buf.getLast? = some 10 then
    let line := cString buf
    let name := if line.contains 9 then some (line.takeWhile (· ≠ 9)) else none
    { c with data := some line, name := c.name.or name }
  else if buf = [] then { c with data := none, rfd := closeFd c.rfd }
  else { c with data := none }

/-- One turn of the second loop: the record after it, and the pipe if it is read. -/
def readChild (fsr fse : List Int) (read : Int → Bytes) (c : Chldstat) : Chldstat × List Int :=
  if !c.statusServer && 0 ≤ c.rfd then
    if fse.contains c.rfd then (c, [])
    else if fsr.contains c.rfd then (readStatus read c, [c.rfd])
    else (c, [])
  else (c, [])

/-- The second loop: the table after it, and the pipes that have been read. -/
def readChildren (conf : Limits) (fsr fse : List Int) (read : Int → Bytes)
    (chlds : List Chldstat) : List Chldstat × List Int :=
  let first := (chlds.take conf.maxChildren).map (readChild fsr fse read)
  (first.map Prod.fst ++ chlds.drop conf.maxChildren, first.flatMap Prod.snd)

/-- The third loop: the pipes to the status children. -/
def statusPipes (conf : Limits) (chlds : List Chldstat) : List Int :=
  ((chlds.take conf.maxChildren).filter fun c => c.statusServer && 0 ≤ c.wfd).map Chldstat.wfd

/-- The fifth loop: the status data that a status child is sent. -/
def statuses (conf : Limits) (chlds : List Chldstat) : List Bytes :=
  (chlds.take conf.maxChildren).filterMap fun c => if c.statusServer then none else c.data

/-- The fourth loop: what is written, and to which pipe. -/
def writeStatuses (conf : Limits) (fsw fse : List Int) (chlds : List Chldstat) :
    List (Int × Bytes) :=
  (chlds.take conf.maxChildren).flatMap fun c =>
    if c.statusServer && 0 ≤ c.wfd then
      if fse.contains c.wfd then []
      else if fsw.contains c.wfd then (statuses conf chlds).map fun data => (c.wfd, data)
      else []
    else []

/-! ## §2. The server and its children. -/

/-- Where `run_server` is in its loop. -/
inductive Point
  | top
  | normalClient (fsr fse : List Int)
  | statusClient (fsr fse : List Int)
  | reading (fsr fse : List Int)
  | statusSelect
  | writing (fsw fse : List Int)
  | left (ret : Bool)

/-- The server with its table, the children that run, each with its kind, and those that have
exited and have not been waited for. -/
structure Parent where
  chlds : List Chldstat
  point : Point
  running : List (Nat × Bool)
  exited : List Nat

/-- What happens. -/
inductive Event
  | exits (pid : Nat)
  | sigchld (pid : Nat)
  | poll (hupreload gentleshutdown : Bool) (sel : Select)
  | client (accept : Accept) (waited : Option Nat) (forked : Forked)
  | read (bytes : Int → Bytes)
  | statusSelect (sel : Select)
  | write

/-- The kind of client that is waiting at a point, if one is. -/
def incoming (so : Sockets) : Point → Option Bool
  | .normalClient fsr _ => if fsr.contains so.rfd then some false else none
  | .statusClient fsr _ => if 0 ≤ so.sfd && fsr.contains so.sfd then some true else none
  | _ => none

/-- Where the loop goes on after a client. -/
def Point.afterClient : Point → Point
  | .normalClient fsr fse => .statusClient fsr fse
  | .statusClient fsr fse => .reading fsr fse
  | p => p

/-- The child that `process_incoming_client` has forked, as the kernel sees it. -/
def forkedChild (conf : Limits) (isStatusServer : Bool) (forked : Forked)
    (chlds : List Chldstat) : List (Nat × Bool) :=
  match slotFor conf isStatusServer chlds, forked with
  | some _, .child pid _ _ => [(pid, isStatusServer)]
  | _, _ => []

/-- A connection is dealt with. -/
def acceptClient (conf : Limits) (isStatusServer : Bool) (accept : Accept) (waited : Option Nat)
    (forked : Forked) (s : Parent) : Parent :=
  let (chlds, failed) := processIncomingClient conf isStatusServer accept waited forked s.chlds
  { chlds
    point := if failed then .left true else s.point.afterClient
    running :=
      if accept = .connected then
        forkedChild conf isStatusServer forked (checkForExitingChildren waited s.chlds)
          ++ s.running
      else s.running
    exited := if accept = .connected then s.exited.filter (some · ≠ waited) else s.exited }

/-- The head of the loop, up to the two checks for exceptions. -/
def top (conf : Limits) (so : Sockets) (hupreload gentleshutdown : Bool) (sel : Select)
    (chlds : List Chldstat) : Point :=
  if hupreload then .left false
  else if gentleshutdown && (normalPipes conf chlds).length == 0 then .left false
  else
    match sel.sets (so.listening ++ normalPipes conf chlds) with
    | none => .left true
    | some (fsr, fse) =>
        if fse.contains so.rfd || (0 ≤ so.sfd && fse.contains so.sfd) then .top
        else .normalClient fsr fse

/-- The `select` for the status children. -/
def selectStatus (conf : Limits) (sel : Select) (chlds : List Chldstat) : Point :=
  if (statusPipes conf chlds).isEmpty then .top
  else
    match sel.sets (statusPipes conf chlds) with
    | none => .left true
    | some (fsw, fse) => .writing fsw fse

/-- One step. -/
def step (conf : Limits) (so : Sockets) (s : Parent) : Event → Parent
  | .exits pid =>
      { s with
        running := s.running.filter (·.1 ≠ pid)
        exited := pid :: s.exited }
  | .sigchld pid =>
      { s with
        chlds := checkForExitingChildren (some pid) s.chlds
        exited := s.exited.filter (· ≠ pid) }
  | .poll hupreload gentleshutdown sel =>
      match s.point with
      | .top => { s with point := top conf so hupreload gentleshutdown sel s.chlds }
      | _ => s
  | .client accept waited forked =>
      match incoming so s.point with
      | some isStatusServer => acceptClient conf isStatusServer accept waited forked s
      | none => { s with point := s.point.afterClient }
  | .read bytes =>
      match s.point with
      | .reading fsr fse =>
          { s with
            chlds := (readChildren conf fsr fse bytes s.chlds).1
            point := .statusSelect }
      | _ => s
  | .statusSelect sel =>
      match s.point with
      | .statusSelect => { s with point := selectStatus conf sel s.chlds }
      | _ => s
  | .write =>
      match s.point with
      | .writing _ _ => { s with point := .top }
      | _ => s

/-- What the kernel keeps to: a running process exits, one that has exited is waited for, and a
new one has a number that no other has. -/
def Allowed (s : Parent) : Event → Prop
  | .exits pid => ∃ k, (pid, k) ∈ s.running
  | .sigchld pid => pid ∈ s.exited
  | .client _ waited forked =>
      (∀ pid, waited = some pid → pid ∈ s.exited) ∧
      ∀ pid rfd wfd, forked = .child pid rfd wfd →
        (pid ∈ s.exited → waited = some pid) ∧ ∀ k, (pid, k) ∉ s.running
  | _ => True

/-- The server that `setup_signals` has prepared. -/
def start (conf : Limits) (memory : Nat → Chldstat) : Parent where
  chlds := setupSignals 0 conf.maxChildren 0 conf.maxStatusChildren memory []
  point := .top
  running := []
  exited := []

/-- The states that a run comes by whose steps all satisfy `ok`. -/
inductive Reaches (conf : Limits) (so : Sockets) (memory : Nat → Chldstat)
    (ok : Parent → Event → Prop) : Parent → Prop
  | start : Reaches conf so memory ok (start conf memory)
  | step {s : Parent} (e : Event) (h : Reaches conf so memory ok s) (allowed : Allowed s e)
      (hok : ok s e) : Reaches conf so memory ok (step conf so s e)

/-! ## §3. What always holds. -/

/-- The children of one kind, over the whole table. -/
def recordedOf (isStatusServer : Bool) (c : Chldstat) : Bool :=
  c.recorded && c.statusServer == isStatusServer

/-- **The invariant of the table.** A running child has one record, of its kind and with its
pipe, no child is recorded twice, and the limits hold. -/
structure Sound (conf : Limits) (chlds : List Chldstat) (running : List (Nat × Bool))
    (exited : List Nat) : Prop where
  length : chlds.length = conf.total + 1
  marker : ∀ (i : Nat) (c : Chldstat), chlds[i]? = some c → (c.pid = -2 ↔ i = conf.total)
  free : ∀ c ∈ chlds, c.recorded = false → c.rfd < 0 ∧ c.wfd < 0 ∧ c.data = none
  once : ∀ (i j : Nat) (a b : Chldstat), chlds[i]? = some a → chlds[j]? = some b →
    a.recorded = true → a.pid = b.pid → i = j
  run : ∀ q k, (q, k) ∈ running → ∃ c ∈ chlds, c.pid = q ∧ c.statusServer = k ∧ 0 ≤ c.wfd
  known : ∀ c ∈ chlds, ∀ q : Nat, c.pid = q → (∃ k, (q, k) ∈ running) ∨ q ∈ exited
  apart : ∀ q k, (q, k) ∈ running → q ∉ exited
  limits : ∀ k, chlds.countP (recordedOf k) ≤ conf.of k

section Table

variable {conf : Limits} {chlds : List Chldstat} {c : Chldstat} {p : Int}

theorem freeChild_eq_map (hp : 0 ≤ p)
    (hmarker : ∀ (i : Nat) (c : Chldstat), chlds[i]? = some c → c.pid = -2 → i + 1 = chlds.length)
    (honce : ∀ (i j : Nat) (a b : Chldstat), chlds[i]? = some a → chlds[j]? = some b →
      a.pid = p → b.pid = p → i = j) :
    freeChild p chlds = chlds.map fun c => if c.pid = p then chldstatFree c else c := by
  induction chlds with
  | nil => rfl
  | cons c cs ih =>
      unfold freeChild
      rw [List.map_cons]
      by_cases hm : c.pid = -2
      · have hlast := hmarker 0 c rfl hm
        have hnil : cs = [] :=
          List.eq_nil_of_length_eq_zero (by rw [List.length_cons] at hlast; omega)
        rw [if_pos hm, if_neg (by omega), hnil]
        rfl
      · rw [if_neg hm]
        by_cases hc : p = c.pid
        · -- the child is in this slot, and in no later one
          rw [if_pos hc, if_pos hc.symm]
          have hrest : cs.map (fun c => if c.pid = p then chldstatFree c else c) = cs.map id := by
            apply List.map_congr_left
            intro b hb
            obtain ⟨j, hj⟩ := List.mem_iff_getElem?.mp hb
            rw [if_neg, id_eq]
            intro hbp
            exact absurd (honce 0 (j + 1) c b rfl hj hc.symm hbp) (by omega)
          rw [hrest, List.map_id]
        · rw [if_neg hc, if_neg (fun h => hc h.symm), ih]
          · intro i b hb hbm
            have := hmarker (i + 1) b hb hbm
            rw [List.length_cons] at this
            omega
          · intro i j a b ha hb hap hbp
            have := honce (i + 1) (j + 1) a b ha hb hap hbp
            omega

theorem chldstatFree_recorded : (chldstatFree c).recorded = false := by
  show decide ((0 : Int) ≤ -1) = false
  decide

theorem closeFd_neg (fd : Int) : closeFd fd < 0 := by
  unfold closeFd
  split_ifs with h
  · exact h
  · decide

theorem recorded_iff : c.recorded = true ↔ ∃ q : Nat, c.pid = q := by
  unfold Chldstat.recorded
  rw [decide_eq_true_eq]
  constructor
  · intro h
    exact ⟨c.pid.toNat, (Int.toNat_of_nonneg h).symm⟩
  · rintro ⟨q, hq⟩
    omega

theorem readStatus_kept (read : Int → Bytes) (c : Chldstat) :
    (readStatus read c).pid = c.pid ∧ (readStatus read c).wfd = c.wfd
      ∧ (readStatus read c).statusServer = c.statusServer := by
  unfold readStatus
  simp only
  split_ifs <;> exact ⟨rfl, rfl, rfl⟩

theorem readChild_kept (fsr fse : List Int) (read : Int → Bytes) (c : Chldstat) :
    (readChild fsr fse read c).1.pid = c.pid ∧ (readChild fsr fse read c).1.wfd = c.wfd
      ∧ (readChild fsr fse read c).1.statusServer = c.statusServer := by
  unfold readChild
  split_ifs <;> first | exact readStatus_kept read c | exact ⟨rfl, rfl, rfl⟩

/-- A record without a pipe is left alone. -/
theorem readChild_closed (fsr fse : List Int) (read : Int → Bytes) (h : c.rfd < 0) :
    (readChild fsr fse read c).1 = c := by
  unfold readChild
  rw [decide_eq_false (by omega), Bool.and_false, if_neg Bool.false_ne_true]

theorem readChildren_getElem? (fsr fse : List Int) (read : Int → Bytes) (i : Nat) :
    (readChildren conf fsr fse read chlds).1[i]?
      = if i < conf.maxChildren then (chlds[i]?).map fun c => (readChild fsr fse read c).1
        else chlds[i]? := by
  unfold readChildren
  simp only
  rw [List.getElem?_append]
  simp only [List.length_map, List.length_take, List.getElem?_map, List.getElem?_drop]
  by_cases hi : i < conf.maxChildren
  · rw [if_pos hi]
    by_cases hlen : i < chlds.length
    · rw [if_pos (by omega), List.getElem?_take_of_lt hi, Option.map_map]
      rfl
    · rw [if_neg (by omega), List.getElem?_eq_none (by omega),
        List.getElem?_eq_none (by omega)]
      rfl
  · rw [if_neg hi, if_neg (by omega)]
    by_cases hlen : i < chlds.length
    · congr 1
      omega
    · rw [List.getElem?_eq_none (by omega), List.getElem?_eq_none (by omega)]

end Table

section Steps

variable {conf : Limits} {chlds : List Chldstat} {running : List (Nat × Bool)}
  {exited : List Nat}

theorem Sound.reap_eq (h : Sound conf chlds running exited) (pid : Nat) :
    checkForExitingChildren (some pid) chlds
      = chlds.map fun c => if c.pid = (pid : Int) then chldstatFree c else c := by
  apply freeChild_eq_map (by omega)
  · intro i c hc hm
    rw [(h.marker i c hc).mp hm, h.length]
  · intro i j a b ha hb hap hbp
    exact h.once i j a b ha hb (recorded_iff.mpr ⟨pid, hap⟩) (hap.trans hbp.symm)

/-- A child that has exited is waited for. -/
theorem Sound.reap (h : Sound conf chlds running exited) {pid : Nat} (hpid : pid ∈ exited) :
    Sound conf (checkForExitingChildren (some pid) chlds) running
      (exited.filter (· ≠ pid)) := by
  rw [h.reap_eq pid]
  constructor
  · rw [List.length_map]
    exact h.length
  · intro i c hc
    rw [List.getElem?_map] at hc
    obtain ⟨b, hb, rfl⟩ := Option.map_eq_some_iff.mp hc
    rw [← h.marker i b hb]
    split_ifs with hbp
    · show (-1 : Int) = -2 ↔ b.pid = -2
      omega
    · rfl
  · intro c hc hrec
    obtain ⟨b, hb, rfl⟩ := List.mem_map.mp hc
    split_ifs at hrec ⊢ with hbp
    · exact ⟨closeFd_neg _, closeFd_neg _, rfl⟩
    · exact h.free b hb hrec
  · intro i j a b ha hb hrec hab
    rw [List.getElem?_map] at ha hb
    obtain ⟨a', ha', rfl⟩ := Option.map_eq_some_iff.mp ha
    obtain ⟨b', hb', rfl⟩ := Option.map_eq_some_iff.mp hb
    split_ifs at hrec hab with hap hbp hbp
    · rw [chldstatFree_recorded] at hrec
      cases hrec
    · rw [chldstatFree_recorded] at hrec
      cases hrec
    · obtain ⟨q, hq⟩ := recorded_iff.mp hrec
      have : a'.pid = -1 := hab
      omega
    · exact h.once i j a' b' ha' hb' hrec hab
  · intro q k hq
    obtain ⟨c, hc, hpidc, hkind, hwfd⟩ := h.run q k hq
    have hne : c.pid ≠ pid := by
      intro heq
      obtain rfl : q = pid := by omega
      exact h.apart q k hq hpid
    refine ⟨c, List.mem_map.mpr ⟨c, hc, if_neg hne⟩, hpidc, hkind, hwfd⟩
  · intro c hc q hcq
    obtain ⟨b, hb, rfl⟩ := List.mem_map.mp hc
    split_ifs at hcq with hbp
    · have : (-1 : Int) = q := hcq
      omega
    · rcases h.known b hb q hcq with hrun | hex
      · exact Or.inl hrun
      · right
        rw [List.mem_filter, decide_eq_true_eq]
        refine ⟨hex, ?_⟩
        rintro rfl
        exact hbp hcq
  · intro q k hq hex
    exact h.apart q k hq (List.mem_of_mem_filter hex)
  · intro k
    apply le_trans _ (h.limits k)
    rw [List.countP_map]
    apply List.countP_mono_left
    intro c _ hc
    unfold recordedOf at hc ⊢
    simp only [Function.comp_apply] at hc
    split_ifs at hc with hcp
    · rw [chldstatFree_recorded] at hc
      cases hc
    · exact hc

/-- A child exits. -/
theorem Sound.exits (h : Sound conf chlds running exited) {pid : Nat} :
    Sound conf chlds (running.filter (·.1 ≠ pid)) (pid :: exited) := by
  constructor
  · exact h.length
  · exact h.marker
  · exact h.free
  · exact h.once
  · intro q k hq
    exact h.run q k (List.mem_of_mem_filter hq)
  · intro c hc q hcq
    by_cases hqp : q = pid
    · exact Or.inr (hqp ▸ List.mem_cons_self)
    · rcases h.known c hc q hcq with hrun | hex
      · obtain ⟨k, hk⟩ := hrun
        exact Or.inl ⟨k, List.mem_filter.mpr ⟨hk, decide_eq_true hqp⟩⟩
      · exact Or.inr (List.mem_cons_of_mem _ hex)
  · intro q k hq hex
    rw [List.mem_filter, decide_eq_true_eq] at hq
    rcases List.mem_cons.mp hex with rfl | hex
    · exact hq.2 rfl
    · exact h.apart q k hq.1 hex
  · exact h.limits

/-- What two tables have in common if the same children are recorded in them. -/
structure SameChild (b c : Chldstat) : Prop where
  pid : c.pid = b.pid
  wfd : c.wfd = b.wfd
  kind : c.statusServer = b.statusServer
  closed : b.rfd < 0 → c = b

theorem SameChild.recordedOf_eq {b c : Chldstat} (h : SameChild b c) (k : Bool) :
    recordedOf k c = recordedOf k b := by
  unfold recordedOf Chldstat.recorded
  rw [h.pid, h.kind]

theorem readChild_same (fsr fse : List Int) (read : Int → Bytes) (c : Chldstat) :
    SameChild c (readChild fsr fse read c).1 := by
  obtain ⟨hpid, hwfd, hkind⟩ := readChild_kept fsr fse read c
  exact ⟨hpid, hwfd, hkind, readChild_closed fsr fse read⟩

theorem readChildren_length (fsr fse : List Int) (read : Int → Bytes) :
    (readChildren conf fsr fse read chlds).1.length = chlds.length := by
  unfold readChildren
  rw [List.length_append, List.length_map, List.length_map, List.length_take, List.length_drop]
  omega

/-- A record after the second loop comes from the one of the same child. -/
theorem readChildren_from {fsr fse : List Int} {read : Int → Bytes} {i : Nat} {c : Chldstat}
    (hc : (readChildren conf fsr fse read chlds).1[i]? = some c) :
    ∃ b, chlds[i]? = some b ∧ SameChild b c := by
  rw [readChildren_getElem?] at hc
  split_ifs at hc with hi
  · obtain ⟨b, hb, rfl⟩ := Option.map_eq_some_iff.mp hc
    exact ⟨b, hb, readChild_same fsr fse read b⟩
  · exact ⟨c, hc, rfl, rfl, rfl, fun _ => rfl⟩

theorem readChildren_to {fsr fse : List Int} {read : Int → Bytes} {i : Nat} {b : Chldstat}
    (hb : chlds[i]? = some b) :
    ∃ c, (readChildren conf fsr fse read chlds).1[i]? = some c ∧ SameChild b c := by
  rw [readChildren_getElem?, hb]
  split_ifs with hi
  · exact ⟨_, rfl, readChild_same fsr fse read b⟩
  · exact ⟨b, rfl, rfl, rfl, rfl, fun _ => rfl⟩

/-- The second loop runs. -/
theorem Sound.reads (h : Sound conf chlds running exited) (fsr fse : List Int)
    (read : Int → Bytes) :
    Sound conf (readChildren conf fsr fse read chlds).1 running exited := by
  constructor
  · rw [readChildren_length]
    exact h.length
  · intro i c hc
    obtain ⟨b, hb, hsame⟩ := readChildren_from hc
    rw [hsame.pid]
    exact h.marker i b hb
  · intro c hc hrec
    obtain ⟨i, hi⟩ := List.mem_iff_getElem?.mp hc
    obtain ⟨b, hb, hsame⟩ := readChildren_from hi
    have hfree : b.recorded = false := by
      unfold Chldstat.recorded at hrec ⊢
      rw [← hsame.pid]
      exact hrec
    have hb' := h.free b (List.mem_iff_getElem?.mpr ⟨i, hb⟩) hfree
    rw [hsame.closed hb'.1]
    exact hb'
  · intro i j a b ha hb hrec hab
    obtain ⟨a', ha', hsame⟩ := readChildren_from ha
    obtain ⟨b', hb', hsame'⟩ := readChildren_from hb
    apply h.once i j a' b' ha' hb'
    · unfold Chldstat.recorded at hrec ⊢
      rw [← hsame.pid]
      exact hrec
    · rw [← hsame.pid, ← hsame'.pid]
      exact hab
  · intro q k hq
    obtain ⟨b, hb, hpid, hkind, hwfd⟩ := h.run q k hq
    obtain ⟨i, hi⟩ := List.mem_iff_getElem?.mp hb
    obtain ⟨c, hc, hsame⟩ := @readChildren_to conf chlds fsr fse read i b hi
    refine ⟨c, List.mem_iff_getElem?.mpr ⟨i, hc⟩, hsame.pid.trans hpid, hsame.kind.trans hkind, ?_⟩
    rw [hsame.wfd]
    exact hwfd
  · intro c hc q hcq
    obtain ⟨i, hi⟩ := List.mem_iff_getElem?.mp hc
    obtain ⟨b, hb, hsame⟩ := readChildren_from hi
    exact h.known b (List.mem_iff_getElem?.mpr ⟨i, hb⟩) q (hsame.pid ▸ hcq)
  · exact h.apart
  · intro k
    have hmap : (readChildren conf fsr fse read chlds).1.map (recordedOf k)
        = chlds.map (recordedOf k) := by
      apply List.ext_getElem?
      intro i
      rw [List.getElem?_map, List.getElem?_map, readChildren_getElem?]
      split_ifs with hi
      · rw [Option.map_map]
        congr 1
        funext c
        exact (readChild_same fsr fse read c).recordedOf_eq k
      · rfl
    have hcount : ∀ l : List Chldstat, l.countP (recordedOf k) = (l.map (recordedOf k)).countP id :=
      fun l => by rw [List.countP_map]; rfl
    rw [hcount, hmap, ← hcount]
    exact h.limits k

/-! ## §4. A child is forked. -/

/-- The slots that are counted are those in which children are. -/
theorem Sound.count_eq (h : Sound conf chlds running exited) (k : Bool) :
    count conf k chlds = chlds.countP (recordedOf k) := by
  have hsplit : chlds = chlds.take conf.total ++ chlds.drop conf.total :=
    (List.take_append_drop _ _).symm
  have hlen := h.length
  have hlast : (chlds.drop conf.total).countP (recordedOf k) = 0 := by
    rw [List.countP_eq_zero]
    intro c hc hrec
    obtain ⟨i, hi⟩ := List.mem_iff_getElem?.mp hc
    rw [List.getElem?_drop] at hi
    have hlt := (List.getElem?_eq_some_iff.mp hi).1
    have hm := (h.marker _ c hi).mpr (by omega)
    unfold recordedOf Chldstat.recorded at hrec
    rw [hm] at hrec
    cases k <;> simp at hrec
  calc count conf k chlds = (chlds.take conf.total).countP (recordedOf k) := rfl
    _ = (chlds.take conf.total ++ chlds.drop conf.total).countP (recordedOf k) := by
        rw [List.countP_append, hlast, Nat.add_zero]
    _ = chlds.countP (recordedOf k) := by rw [← hsplit]

theorem slotFor_some {k : Bool} {p : Nat} (h : slotFor conf k chlds = some p) :
    count conf k chlds < conf.of k ∧ p < conf.total
      ∧ (∃ c, chlds[p]? = some c ∧ c.recorded = false)
      ∧ ∀ i c, i < p → chlds[i]? = some c → c.recorded = true := by
  unfold slotFor at h
  split_ifs at h with hcount
  unfold spareSlot at h
  obtain ⟨hlt, hfree, hbefore⟩ := List.findIdx?_eq_some_iff_getElem.mp h
  rw [List.length_take] at hlt
  rw [List.getElem_take] at hfree
  refine ⟨by omega, by omega, ⟨_, List.getElem?_eq_getElem (by omega), ?_⟩, ?_⟩
  · rw [Bool.not_eq_true'] at hfree
    exact hfree
  · intro i c hi hc
    have hb := hbefore i hi
    rw [List.getElem_take] at hb
    obtain ⟨hlen, rfl⟩ := List.getElem?_eq_some_iff.mp hc
    rw [Bool.not_eq_true', Bool.not_eq_false] at hb
    exact hb

/-- The record that the parent writes for a child. -/
def newRecord (k : Bool) (pid rfd wfd : Nat) (c : Chldstat) : Chldstat :=
  { c with pid := pid, rfd := rfd, wfd := wfd, statusServer := k }

theorem newRecord_recorded {k : Bool} {pid rfd wfd : Nat} {c : Chldstat} :
    (newRecord k pid rfd wfd c).recorded = true :=
  recorded_iff.mpr ⟨pid, rfl⟩

theorem countP_newRecord {k k' : Bool} {pid rfd wfd : Nat} {p : Nat} {c : Chldstat}
    (hc : chlds[p]? = some c) (hfree : c.recorded = false) :
    (chlds.modify p (newRecord k pid rfd wfd)).countP (recordedOf k')
      = chlds.countP (recordedOf k') + if k = k' then 1 else 0 := by
  have hzero : recordedOf k' c = false := by
    unfold recordedOf
    rw [hfree, Bool.false_and]
  have hone : recordedOf k' (newRecord k pid rfd wfd c) = (k == k') := by
    unfold recordedOf
    rw [newRecord_recorded, Bool.true_and]
    rfl
  induction chlds generalizing p with
  | nil => simp at hc
  | cons b bs ih =>
      cases p with
      | zero =>
          obtain rfl : b = c := Option.some.inj hc
          rw [List.modify_zero_cons, List.countP_cons, List.countP_cons, hzero, hone]
          simp
      | succ p =>
          rw [List.modify_succ_cons, List.countP_cons, List.countP_cons, ih hc]
          omega

/-- **A child is forked.** It gets the slot that was found for it. -/
theorem Sound.takes (h : Sound conf chlds running exited) {k : Bool} {p pid rfd wfd : Nat}
    (hslot : slotFor conf k chlds = some p) (hex : pid ∉ exited)
    (hrun : ∀ k', (pid, k') ∉ running) :
    Sound conf (chlds.modify p (newRecord k pid rfd wfd)) ((pid, k) :: running) exited := by
  obtain ⟨hcount, hp, ⟨c, hc, hfree⟩, -⟩ := slotFor_some hslot
  have hself : (chlds.modify p (newRecord k pid rfd wfd))[p]?
      = some (newRecord k pid rfd wfd c) := by
    rw [List.getElem?_modify_eq, hc]
    rfl
  have hother : ∀ {i}, i ≠ p → (chlds.modify p (newRecord k pid rfd wfd))[i]? = chlds[i]? :=
    fun hi => List.getElem?_modify_ne _ _ (Ne.symm hi)
  -- no record has the new number
  have hnew : ∀ b ∈ chlds, b.pid ≠ pid := by
    intro b hb hbp
    rcases h.known b hb pid hbp with hr | he
    · obtain ⟨k', hk'⟩ := hr
      exact hrun k' hk'
    · exact hex he
  constructor
  · rw [List.length_modify]
    exact h.length
  · intro i b hb
    by_cases hi : i = p
    · subst hi
      rw [hself] at hb
      cases hb
      show ((pid : Int) = -2 ↔ i = conf.total)
      omega
    · rw [hother hi] at hb
      exact h.marker i b hb
  · intro b hb hrec
    obtain ⟨i, hi⟩ := List.mem_iff_getElem?.mp hb
    by_cases hip : i = p
    · subst hip
      rw [hself] at hi
      cases hi
      rw [newRecord_recorded] at hrec
      cases hrec
    · rw [hother hip] at hi
      exact h.free b (List.mem_iff_getElem?.mpr ⟨i, hi⟩) hrec
  · intro i j a b ha hb hrec hab
    by_cases hi : i = p
    · by_cases hj : j = p
      · rw [hi, hj]
      · subst hi
        rw [hself] at ha
        cases ha
        rw [hother hj] at hb
        exact absurd hab.symm (hnew b (List.mem_iff_getElem?.mpr ⟨j, hb⟩))
    · rw [hother hi] at ha
      by_cases hj : j = p
      · subst hj
        rw [hself] at hb
        cases hb
        exact absurd hab (hnew a (List.mem_iff_getElem?.mpr ⟨i, ha⟩))
      · rw [hother hj] at hb
        exact h.once i j a b ha hb hrec hab
  · intro q k' hq
    rcases List.mem_cons.mp hq with heq | hq
    · cases heq
      exact ⟨_, List.mem_iff_getElem?.mpr ⟨p, hself⟩, rfl, rfl, Int.natCast_nonneg _⟩
    · obtain ⟨b, hb, hpid, hkind, hwfd⟩ := h.run q k' hq
      obtain ⟨i, hi⟩ := List.mem_iff_getElem?.mp hb
      have hip : i ≠ p := by
        rintro rfl
        rw [hc] at hi
        cases hi
        rw [recorded_iff.mpr ⟨q, hpid⟩] at hfree
        cases hfree
      exact ⟨b, List.mem_iff_getElem?.mpr ⟨i, (hother hip).trans hi⟩, hpid, hkind, hwfd⟩
  · intro b hb q hbq
    obtain ⟨i, hi⟩ := List.mem_iff_getElem?.mp hb
    by_cases hip : i = p
    · subst hip
      rw [hself] at hi
      cases hi
      obtain rfl : pid = q := Int.ofNat.inj hbq
      exact Or.inl ⟨k, List.mem_cons_self⟩
    · rw [hother hip] at hi
      rcases h.known b (List.mem_iff_getElem?.mpr ⟨i, hi⟩) q hbq with hr | he
      · obtain ⟨k', hk'⟩ := hr
        exact Or.inl ⟨k', List.mem_cons_of_mem _ hk'⟩
      · exact Or.inr he
  · intro q k' hq
    rcases List.mem_cons.mp hq with heq | hq
    · cases heq
      exact hex
    · exact h.apart q k' hq
  · intro k'
    rw [countP_newRecord hc hfree]
    split_ifs with hk
    · subst hk
      rw [h.count_eq] at hcount
      omega
    · exact h.limits k'

/-! ## §5. Every step. -/

theorem Sound.check (h : Sound conf chlds running exited) {waited : Option Nat}
    (hw : ∀ pid, waited = some pid → pid ∈ exited) :
    Sound conf (checkForExitingChildren waited chlds) running
      (exited.filter (some · ≠ waited)) := by
  cases waited with
  | none =>
      have hall : exited.filter (some · ≠ none) = exited := by
        rw [List.filter_eq_self]
        intro a _
        rfl
      rw [hall]
      exact h
  | some pid =>
      have hsame : exited.filter (some · ≠ some pid) = exited.filter (· ≠ pid) := by
        congr 1
        funext a
        simp
      rw [hsame]
      exact h.reap (hw pid rfl)

/-- What `process_incoming_client` does to the table of a connection that it accepts. -/
theorem accepted_cases (conf : Limits) (k : Bool) (waited : Option Nat) (forked : Forked)
    (chlds : List Chldstat) :
    (∃ p pid rfd wfd, slotFor conf k (checkForExitingChildren waited chlds) = some p
        ∧ forked = .child pid rfd wfd
        ∧ (processIncomingClient conf k .connected waited forked chlds).1
          = (checkForExitingChildren waited chlds).modify p (newRecord k pid rfd wfd)
        ∧ forkedChild conf k forked (checkForExitingChildren waited chlds) = [(pid, k)])
    ∨ ((processIncomingClient conf k .connected waited forked chlds).1
          = checkForExitingChildren waited chlds
        ∧ forkedChild conf k forked (checkForExitingChildren waited chlds) = []) := by
  unfold processIncomingClient forkedChild
  simp only
  cases hslot : slotFor conf k (checkForExitingChildren waited chlds) with
  | none => exact Or.inr ⟨rfl, rfl⟩
  | some p =>
      cases forked with
      | pipeFailed => exact Or.inr ⟨rfl, rfl⟩
      | failed => exact Or.inr ⟨rfl, rfl⟩
      | child pid rfd wfd => exact Or.inl ⟨p, pid, rfd, wfd, rfl, rfl, rfl, rfl⟩

theorem not_mem_waited {waited : Option Nat} {pid : Nat}
    (h : pid ∈ exited → waited = some pid) : pid ∉ exited.filter (some · ≠ waited) := by
  rw [List.mem_filter, decide_eq_true_eq]
  intro hmem
  exact hmem.2 (h hmem.1).symm

theorem Sound.client (h : Sound conf chlds running exited) {k : Bool}
    {accept : Accept} {waited : Option Nat} {forked : Forked} {point : Point}
    (hal : Allowed ⟨chlds, point, running, exited⟩ (.client accept waited forked)) :
    Sound conf (acceptClient conf k accept waited forked ⟨chlds, point, running, exited⟩).chlds
      (acceptClient conf k accept waited forked ⟨chlds, point, running, exited⟩).running
      (acceptClient conf k accept waited forked ⟨chlds, point, running, exited⟩).exited := by
  cases accept with
  | interrupted => exact h
  | failed => exact h
  | connected =>
      show Sound conf (processIncomingClient conf k .connected waited forked chlds).1
        (forkedChild conf k forked (checkForExitingChildren waited chlds) ++ running)
        (exited.filter (some · ≠ waited))
      have hcheck := h.check hal.1
      rcases accepted_cases conf k waited forked chlds with htaken | hnone
      · obtain ⟨p, pid, rfd, wfd, hslot, rfl, htable, hchild⟩ := htaken
        obtain ⟨hex, hrun⟩ := hal.2 pid rfd wfd rfl
        rw [htable, hchild]
        exact hcheck.takes hslot (not_mem_waited hex) hrun
      · rw [hnone.1, hnone.2]
        exact hcheck

end Steps

section Invariant

variable {conf : Limits} {so : Sockets} {memory : Nat → Chldstat} {s : Parent}

/-- The invariant holds of the state. -/
def Parent.Sound (conf : Limits) (s : Parent) : Prop :=
  Children.Sound conf s.chlds s.running s.exited

theorem Parent.Sound.step (h : s.Sound conf) (e : Event) (hal : Allowed s e) :
    (step conf so s e).Sound conf := by
  cases e with
  | exits pid => exact Children.Sound.exits h
  | sigchld pid => exact Children.Sound.reap h hal
  | poll hupreload gentleshutdown sel =>
      unfold Children.step
      cases s.point <;> exact h
  | client accept waited forked =>
      unfold Children.step
      simp only
      cases incoming so s.point with
      | none => exact h
      | some k => exact Children.Sound.client h hal
  | read bytes =>
      unfold Children.step
      cases s.point with
      | reading fsr fse => exact Children.Sound.reads h fsr fse bytes
      | _ => exact h
  | statusSelect sel =>
      unfold Children.step
      cases s.point <;> exact h
  | write =>
      unfold Children.step
      cases s.point <;> exact h

theorem start_getElem? {i : Nat} (hi : i < conf.total) :
    (start conf memory).chlds[i]? = some .empty := by
  show (setupSignals 0 conf.maxChildren 0 conf.maxStatusChildren memory [])[i]? = _
  rw [setupSignals_getElem? hi, if_pos (Nat.zero_le i)]

theorem start_marker :
    (start conf memory).chlds[conf.total]? = some { Chldstat.empty with pid := -2 } := by
  show (setupSignals 0 conf.maxChildren 0 conf.maxStatusChildren memory [])[conf.total]? = _
  unfold setupSignals
  simp only
  unfold Limits.total
  rw [List.getElem?_modify_eq, emptySlots_getElem?, realloc_length, if_pos (by omega)]
  rfl

theorem start_length : (start conf memory).chlds.length = conf.total + 1 :=
  setupSignals_length

/-- No child is in the table at the start. -/
theorem start_mem {c : Chldstat} (hc : c ∈ (start conf memory).chlds) :
    c = .empty ∨ c = { Chldstat.empty with pid := -2 } := by
  obtain ⟨i, hi⟩ := List.mem_iff_getElem?.mp hc
  have hlt := (List.getElem?_eq_some_iff.mp hi).1
  rw [start_length] at hlt
  by_cases hit : i < conf.total
  · rw [start_getElem? hit] at hi
    exact Or.inl (Option.some.inj hi).symm
  · obtain rfl : i = conf.total := by omega
    rw [start_marker] at hi
    exact Or.inr (Option.some.inj hi).symm

theorem start_recorded {c : Chldstat} (hc : c ∈ (start conf memory).chlds) :
    c.recorded = false := by
  rcases start_mem hc with rfl | rfl <;> rfl

theorem start_sound : (start conf memory).Sound conf := by
  constructor
  · exact start_length
  · intro i c hc
    have hlt := (List.getElem?_eq_some_iff.mp hc).1
    rw [start_length] at hlt
    by_cases hit : i < conf.total
    · rw [start_getElem? hit] at hc
      cases hc
      show ((-1 : Int) = -2 ↔ i = conf.total)
      omega
    · obtain rfl : i = conf.total := by omega
      rw [start_marker] at hc
      cases hc
      exact ⟨fun _ => rfl, fun _ => rfl⟩
  · intro c hc _
    rcases start_mem hc with rfl | rfl <;> exact ⟨by decide, by decide, rfl⟩
  · intro i j a b ha _ hrec _
    rw [start_recorded (List.mem_iff_getElem?.mpr ⟨i, ha⟩)] at hrec
    cases hrec
  · intro q k hq
    cases hq
  · intro c hc q hcq
    have hfalse := start_recorded hc
    rw [recorded_iff.mpr ⟨q, hcq⟩] at hfalse
    cases hfalse
  · intro q k hq
    cases hq
  · intro k
    have hzero : (start conf memory).chlds.countP (recordedOf k) = 0 := by
      rw [List.countP_eq_zero]
      intro c hc
      unfold recordedOf
      rw [start_recorded hc, Bool.false_and]
      exact Bool.false_ne_true
    rw [hzero]
    exact Nat.zero_le _

theorem Reaches.sound {ok : Parent → Event → Prop} (h : Reaches conf so memory ok s) :
    s.Sound conf := by
  induction h with
  | start => exact start_sound
  | step e _ allowed _ ih => exact ih.step e allowed

/-! ## §6. Records stay. -/

/-- Each of the children has its record in the slot where it was. -/
def Kept (running : List (Nat × Bool)) (chlds chlds' : List Chldstat) : Prop :=
  ∀ q k, (q, k) ∈ running → ∀ (i : Nat) (c : Chldstat), chlds[i]? = some c → c.pid = q →
    ∃ c', chlds'[i]? = some c' ∧ c'.pid = c.pid ∧ c'.statusServer = c.statusServer
      ∧ c'.wfd = c.wfd

theorem Kept.refl (running : List (Nat × Bool)) (chlds : List Chldstat) :
    Kept running chlds chlds := fun _ _ _ _ c hc _ => ⟨c, hc, rfl, rfl, rfl⟩

theorem Kept.trans {running : List (Nat × Bool)} {a b c : List Chldstat}
    (hab : Kept running a b) (hbc : Kept running b c) : Kept running a c := by
  intro q k hq i r hr hpid
  obtain ⟨r', hr', hpid', hkind', hwfd'⟩ := hab q k hq i r hr hpid
  obtain ⟨r'', hr'', hpid'', hkind'', hwfd''⟩ := hbc q k hq i r' hr' (hpid'.trans hpid)
  exact ⟨r'', hr'', hpid''.trans hpid', hkind''.trans hkind', hwfd''.trans hwfd'⟩

section Changes

variable {chlds : List Chldstat} {running : List (Nat × Bool)} {exited : List Nat}

theorem Sound.kept_check (h : Children.Sound conf chlds running exited)
    {waited : Option Nat} (hw : ∀ pid, waited = some pid → pid ∈ exited) :
    Kept running chlds (checkForExitingChildren waited chlds) := by
  cases waited with
  | none => exact Kept.refl running chlds
  | some pid =>
      rw [h.reap_eq pid]
      intro q k hq i c hc hpid
      refine ⟨c, ?_, rfl, rfl, rfl⟩
      rw [List.getElem?_map, hc, Option.map_some, if_neg]
      intro heq
      obtain rfl : q = pid := by omega
      exact h.apart q k hq (hw q rfl)

theorem kept_takes {k : Bool} {p pid rfd wfd : Nat} (hslot : slotFor conf k chlds = some p) :
    Kept running chlds (chlds.modify p (newRecord k pid rfd wfd)) := by
  obtain ⟨-, -, ⟨b, hb, hfree⟩, -⟩ := slotFor_some hslot
  intro q k' hq i c hc hpid
  have hip : p ≠ i := by
    rintro rfl
    rw [hb] at hc
    cases hc
    rw [recorded_iff.mpr ⟨q, hpid⟩] at hfree
    cases hfree
  refine ⟨c, ?_, rfl, rfl, rfl⟩
  rw [List.getElem?_modify_ne _ _ hip]
  exact hc

end Changes

/-- **No slot of a running child is used for another.** -/
theorem Parent.Sound.step_kept (h : s.Sound conf) (e : Event) (hal : Allowed s e) :
    Kept s.running s.chlds (Children.step conf so s e).chlds := by
  cases e with
  | exits pid => exact Kept.refl _ _
  | sigchld pid =>
      exact Children.Sound.kept_check h (fun p hp => Option.some.inj hp ▸ hal)
  | poll hupreload gentleshutdown sel =>
      unfold Children.step
      cases s.point <;> exact Kept.refl _ _
  | client accept waited forked =>
      unfold Children.step
      simp only
      cases incoming so s.point with
      | none => exact Kept.refl _ _
      | some k =>
          cases accept with
          | interrupted => exact Kept.refl _ _
          | failed => exact Kept.refl _ _
          | connected =>
              show Kept s.running s.chlds
                (processIncomingClient conf k .connected waited forked s.chlds).1
              have hcheck := Children.Sound.kept_check h hal.1
              rcases accepted_cases conf k waited forked s.chlds with htaken | hnone
              · obtain ⟨p, pid, rfd, wfd, hslot, -, htable, -⟩ := htaken
                rw [htable]
                exact hcheck.trans (kept_takes hslot)
              · rw [hnone.1]
                exact hcheck
  | read bytes =>
      unfold Children.step
      cases s.point with
      | reading fsr fse =>
          intro q k hq i c hc hpid
          obtain ⟨c', hc', hsame⟩ := @readChildren_to conf s.chlds fsr fse bytes i c hc
          exact ⟨c', hc', hsame.pid, hsame.kind, hsame.wfd⟩
      | _ => exact Kept.refl _ _
  | statusSelect sel =>
      unfold Children.step
      cases s.point <;> exact Kept.refl _ _
  | write =>
      unfold Children.step
      cases s.point <;> exact Kept.refl _ _

/-! ## §7. Children behind the first slots. -/

/-- If the limit of its kind lets a connection in, one of the first `max_children` slots is
spare. -/
def RoomBelow (conf : Limits) (isStatusServer : Bool) (chlds : List Chldstat) : Prop :=
  count conf isStatusServer chlds < conf.of isStatusServer →
    ∃ p c, p < conf.maxChildren ∧ chlds[p]? = some c ∧ c.recorded = false

/-- The condition on a step: a connection that is accepted meets `RoomBelow`. -/
def Fits (conf : Limits) (so : Sockets) (s : Parent) : Event → Prop
  | .client accept waited _ => ∀ k, incoming so s.point = some k → accept = .connected →
      RoomBelow conf k (checkForExitingChildren waited s.chlds)
  | _ => True

/-- No child is recorded behind the slots that the loops walk over. -/
def Below (conf : Limits) (chlds : List Chldstat) : Prop :=
  ∀ (i : Nat) (c : Chldstat), chlds[i]? = some c → c.recorded = true → i < conf.maxChildren

section Placing

variable {chlds : List Chldstat} {running : List (Nat × Bool)} {exited : List Nat}

theorem Below.check (h : Below conf chlds) (hs : Children.Sound conf chlds running exited)
    (waited : Option Nat) : Below conf (checkForExitingChildren waited chlds) := by
  cases waited with
  | none => exact h
  | some pid =>
      rw [hs.reap_eq pid]
      intro i c hc hrec
      rw [List.getElem?_map] at hc
      obtain ⟨b, hb, rfl⟩ := Option.map_eq_some_iff.mp hc
      split_ifs at hrec
      · rw [chldstatFree_recorded] at hrec
        cases hrec
      · exact h i b hb hrec

theorem Below.takes (h : Below conf chlds) {k : Bool} {p pid rfd wfd : Nat}
    (hslot : slotFor conf k chlds = some p) (hroom : RoomBelow conf k chlds) :
    Below conf (chlds.modify p (newRecord k pid rfd wfd)) := by
  obtain ⟨hcount, -, -, hbefore⟩ := slotFor_some hslot
  obtain ⟨r, b, hr, hb, hfree⟩ := hroom hcount
  -- the slot that is taken is the first spare one
  have hpr : p ≤ r := by
    by_contra hlt
    rw [hbefore r b (by omega) hb] at hfree
    cases hfree
  intro i c hc hrec
  by_cases hi : p = i
  · omega
  · rw [List.getElem?_modify_ne _ _ hi] at hc
    exact h i c hc hrec

end Placing

theorem below_step (hs : s.Sound conf) (h : Below conf s.chlds) (e : Event)
    (hfits : Fits conf so s e) : Below conf (step conf so s e).chlds := by
  cases e with
  | exits pid => exact h
  | sigchld pid => exact h.check hs (some pid)
  | poll hupreload gentleshutdown sel =>
      unfold step
      cases s.point <;> exact h
  | client accept waited forked =>
      unfold step
      simp only
      cases hin : incoming so s.point with
      | none => exact h
      | some k =>
          cases accept with
          | interrupted => exact h
          | failed => exact h
          | connected =>
              show Below conf (processIncomingClient conf k .connected waited forked s.chlds).1
              have hcheck := h.check hs waited
              rcases accepted_cases conf k waited forked s.chlds with htaken | hnone
              · obtain ⟨p, pid, rfd, wfd, hslot, -, htable, -⟩ := htaken
                rw [htable]
                exact hcheck.takes hslot (hfits k hin rfl)
              · rw [hnone.1]
                exact hcheck
  | read bytes =>
      unfold step
      cases s.point with
      | reading fsr fse =>
          intro i c hc hrec
          obtain ⟨b, hb, hsame⟩ := readChildren_from hc
          apply h i b hb
          unfold Chldstat.recorded at hrec ⊢
          rw [← hsame.pid]
          exact hrec
      | _ => exact h
  | statusSelect sel =>
      unfold step
      cases s.point <;> exact h
  | write =>
      unfold step
      cases s.point <;> exact h

theorem Reaches.firstSlots (h : Reaches conf so memory (Fits conf so) s) : Below conf s.chlds := by
  induction h with
  | start =>
      intro i c hc hrec
      rw [start_recorded (List.mem_iff_getElem?.mpr ⟨i, hc⟩)] at hrec
      cases hrec
  | step e hreach _ hok ih => exact below_step hreach.sound ih e hok

/-! ## §8. The table and the loops. -/

/-- What the table and the loops over it are meant to be for the children that run.  A status
pipe is open until it has come to its end. -/
structure Consistent (conf : Limits) (so : Sockets) (s : Parent) : Prop where
  limits : ∀ k, count conf k s.chlds ≤ conf.of k
  recorded : ∀ q k, (q, k) ∈ s.running → ∃ c ∈ s.chlds, c.pid = q ∧ c.statusServer = k
  kept : ∀ e, Allowed s e → Kept s.running s.chlds (step conf so s e).chlds
  polled : ∀ q, (q, false) ∈ s.running → ∀ c ∈ s.chlds, c.pid = q → 0 ≤ c.rfd →
    c.rfd ∈ normalPipes conf s.chlds
  counted : (normalPipes conf s.chlds).length
    = s.chlds.countP fun c => recordedOf false c && 0 ≤ c.rfd
  read : ∀ q, (q, false) ∈ s.running → ∀ c ∈ s.chlds, c.pid = q → 0 ≤ c.rfd →
    ∀ fsr fse bytes, c.rfd ∈ fsr → c.rfd ∉ fse →
      c.rfd ∈ (readChildren conf fsr fse bytes s.chlds).2
  selected : ∀ q, (q, true) ∈ s.running → ∀ c ∈ s.chlds, c.pid = q →
    c.wfd ∈ statusPipes conf s.chlds
  offered : ∀ q, (q, true) ∈ s.running → ∀ c ∈ s.chlds, c.pid = q →
    ∀ fsw fse, c.wfd ∈ fsw → c.wfd ∉ fse →
    ∀ q', (q', false) ∈ s.running → ∀ d ∈ s.chlds, d.pid = q' → ∀ data, d.data = some data →
      (c.wfd, data) ∈ writeStatuses conf fsw fse s.chlds

section Loops

theorem mem_first (h : Below conf s.chlds) {c : Chldstat} (hc : c ∈ s.chlds) {q : Nat}
    (hpid : c.pid = q) : c ∈ s.chlds.take conf.maxChildren := by
  obtain ⟨i, hi⟩ := List.mem_iff_getElem?.mp hc
  have hlt := h i c hi (recorded_iff.mpr ⟨q, hpid⟩)
  exact List.mem_iff_getElem?.mpr ⟨i, (List.getElem?_take_of_lt hlt).trans hi⟩

/-- The record of a running child is of its kind. -/
theorem Parent.Sound.kind (h : s.Sound conf) {q : Nat} {k : Bool} (hq : (q, k) ∈ s.running)
    {c : Chldstat} (hc : c ∈ s.chlds) (hpid : c.pid = q) :
    c.statusServer = k ∧ 0 ≤ c.wfd := by
  obtain ⟨b, hb, hpidb, hkind, hwfd⟩ := h.run q k hq
  obtain ⟨i, hi⟩ := List.mem_iff_getElem?.mp hc
  obtain ⟨j, hj⟩ := List.mem_iff_getElem?.mp hb
  obtain rfl := h.once i j c b hi hj (recorded_iff.mpr ⟨q, hpid⟩) (hpid.trans hpidb.symm)
  rw [hi] at hj
  cases hj
  exact ⟨hkind, hwfd⟩

theorem normalPipes_length (hs : s.Sound conf) (h : Below conf s.chlds) :
    (normalPipes conf s.chlds).length
      = s.chlds.countP fun c => recordedOf false c && 0 ≤ c.rfd := by
  have hsplit : s.chlds
      = s.chlds.take conf.maxChildren ++ s.chlds.drop conf.maxChildren :=
    (List.take_append_drop _ _).symm
  have hfirst : (normalPipes conf s.chlds).length
      = (s.chlds.take conf.maxChildren).countP fun c => recordedOf false c && 0 ≤ c.rfd := by
    unfold normalPipes
    rw [List.length_map, ← List.countP_eq_length_filter]
    apply List.countP_congr
    intro c hc
    -- an open pipe is that of a child
    cases hrec : c.recorded with
    | true => simp [recordedOf, hrec]
    | false =>
        have hneg := (hs.free c (List.mem_of_mem_take hc) hrec).1
        simp [recordedOf, hrec, hneg]
  have hrest : (s.chlds.drop conf.maxChildren).countP
      (fun c => recordedOf false c && 0 ≤ c.rfd) = 0 := by
    rw [List.countP_eq_zero]
    intro c hc hrec
    obtain ⟨i, hi⟩ := List.mem_iff_getElem?.mp hc
    rw [List.getElem?_drop] at hi
    unfold recordedOf at hrec
    rw [Bool.and_eq_true, Bool.and_eq_true] at hrec
    have := h _ c hi hrec.1.1
    omega
  rw [hfirst]
  nth_rewrite 2 [hsplit]
  rw [List.countP_append, hrest, Nat.add_zero]

theorem mem_statuses {c : Chldstat} {data : Bytes} (hc : c ∈ s.chlds.take conf.maxChildren)
    (hkind : c.statusServer = false) (hdata : c.data = some data) :
    data ∈ statuses conf s.chlds := by
  unfold statuses
  apply List.mem_filterMap.mpr
  refine ⟨c, hc, ?_⟩
  rw [hkind, if_neg Bool.false_ne_true, hdata]

end Loops

/-- **The loops reach all children.** In every state of a run whose connections find room among
the first `max_children` slots. -/
theorem reaches_consistent (h : Reaches conf so memory (Fits conf so) s) :
    Consistent conf so s := by
  have hs := h.sound
  have hbelow := h.firstSlots
  constructor
  · intro k
    rw [hs.count_eq k]
    exact hs.limits k
  · intro q k hq
    obtain ⟨c, hc, hpid, hkind, -⟩ := hs.run q k hq
    exact ⟨c, hc, hpid, hkind⟩
  · exact fun e hal => hs.step_kept e hal
  · intro q hq c hc hpid hrfd
    unfold normalPipes
    apply List.mem_map_of_mem
    rw [List.mem_filter, (hs.kind hq hc hpid).1]
    exact ⟨mem_first hbelow hc hpid, by simpa using hrfd⟩
  · exact normalPipes_length hs hbelow
  · intro q hq c hc hpid hrfd fsr fse bytes hin hnot
    unfold readChildren
    apply List.mem_flatMap.mpr
    refine ⟨readChild fsr fse bytes c, List.mem_map_of_mem (mem_first hbelow hc hpid), ?_⟩
    unfold readChild
    rw [(hs.kind hq hc hpid).1, decide_eq_true hrfd, if_pos (show (!false && true) = true from rfl),
      if_neg (by simpa using hnot), if_pos (by simpa using hin)]
    exact List.mem_singleton_self _
  · intro q hq c hc hpid
    obtain ⟨hkind, hwfd⟩ := hs.kind hq hc hpid
    unfold statusPipes
    apply List.mem_map_of_mem
    rw [List.mem_filter, hkind]
    exact ⟨mem_first hbelow hc hpid, by simpa using hwfd⟩
  · intro q hq c hc hpid fsw fse hin hnot q' hq' d hd hpid' data hdata
    obtain ⟨hkind, hwfd⟩ := hs.kind hq hc hpid
    have hmem := mem_statuses (mem_first hbelow hd hpid') (hs.kind hq' hd hpid').1 hdata
    unfold writeStatuses
    apply List.mem_flatMap.mpr
    refine ⟨c, mem_first hbelow hc hpid, ?_⟩
    rw [hkind, decide_eq_true hwfd, if_pos (show (true && true) = true from rfl),
      if_neg (by simpa using hnot), if_pos (by simpa using hin)]
    exact List.mem_map_of_mem hmem

end Invariant

/-- A memory without anything in it. -/
def blank : Nat → Chldstat := fun _ => .empty

/-- Both listening sockets are ready. -/
def bothReady : Event := .poll false false (.ready (fun _ => true) fun _ => false)

/-- A client of either kind is accepted and gets a child. -/
def backupConnects : Event := .client .connected none (.child 100 5 6)

def statusConnects : Event := .client .connected none (.child 101 7 8)

/-- The server after a backup client, and after a status client that came next. -/
def afterBackup : Parent :=
  [bothReady, backupConnects].foldl (step oneOfEach ⟨3, 4⟩) (start oneOfEach blank)

def afterBoth : Parent := step oneOfEach ⟨3, 4⟩ afterBackup statusConnects

theorem afterBackup_reached {ok : Parent → Event → Prop}
    (hok : ok (start oneOfEach blank) bothReady)
    (hok' : ok (step oneOfEach ⟨3, 4⟩ (start oneOfEach blank) bothReady) backupConnects) :
    Reaches oneOfEach ⟨3, 4⟩ blank ok afterBackup := by
  apply Reaches.step backupConnects (Reaches.step bothReady .start trivial hok) _ hok'
  constructor
  · intro pid hpid
    cases hpid
  · intro pid _ _ _
    exact ⟨fun h => (List.not_mem_nil h).elim, fun _ h => (List.not_mem_nil h).elim⟩

/-- A status client that comes after the backup is in the second of two slots, and no loop looks
there. -/
theorem status_child_not_offered :
    ¬ ∀ (conf : Limits) (so : Sockets) (memory : Nat → Chldstat) (s : Parent),
      Reaches conf so memory (fun _ _ => True) s → Consistent conf so s := by
  intro h
  have hreach : Reaches oneOfEach ⟨3, 4⟩ blank (fun _ _ => True) afterBoth := by
    apply Reaches.step statusConnects (afterBackup_reached trivial trivial) _ trivial
    constructor
    · intro pid hpid
      cases hpid
    · intro pid _ _ hfork
      cases hfork
      refine ⟨fun hex => (List.not_mem_nil hex).elim, fun k hk => ?_⟩
      have hmem : ((101 : Nat), k) ∈ [((100 : Nat), false)] := hk
      simp at hmem
  have hsel := (h oneOfEach ⟨3, 4⟩ blank afterBoth hreach).selected 101 (by decide)
    ⟨101, 7, 8, none, none, true⟩ (by decide) rfl
  exact absurd hsel (by decide)

theorem reaches_consistent_afterBackup : Consistent oneOfEach ⟨3, 4⟩ afterBackup := by
  apply @reaches_consistent oneOfEach ⟨3, 4⟩ blank afterBackup
  apply afterBackup_reached trivial
  intro k hk _ _
  exact ⟨0, .empty, by decide, rfl, rfl⟩

end Burp.Server.Children
