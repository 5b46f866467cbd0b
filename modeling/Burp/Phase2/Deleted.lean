/-
  Burp.Phase2.Deleted — the count of deleted files.

  An entry of the old manifest is counted as deleted when the loop passes over it on the way
  to an entry of the client's list.  So the entries behind the end of the list are never
  counted; and a run that resumes goes through the old manifest from its beginning, and counts
  the entries that an earlier run has dealt with.

  Main results:
    * `gtotalDeleted_eq` — what a run counts, from the old manifest and what is left of the
      list.
    * `gtotalDeleted_right_iff` — when this is the number of deleted files.
-/
import Burp.Phase2.Accounts
import Burp.Phase2.Resume

namespace Burp.Phase2

open FileSystem Burp.Store

/-! ## §1. The counter. -/

/-- `do_filecounter_deleted` in the `while(*cmanfp)` loop. -/
def scanDeleted (conf : Conf) (p1b : Sbuf) : List Sbuf → Nat
  | [] => 0
  | cb :: rest =>
      match maybeProcessFile conf cb p1b with
      | .behind => scanDeleted conf p1b rest + 1
      | .done _ _ => 0

/-- What is counted while an entry is looked up. -/
def lookupDeleted (conf : Conf) (cman : Option (List Sbuf)) (cb p1b : Sbuf) : Nat :=
  match cman with
  | none => 0
  | some rest =>
      if cb.path.isNone then scanDeleted conf p1b rest
      else
        match maybeProcessFile conf cb p1b with
        | .behind => scanDeleted conf p1b rest + 1
        | .done _ _ => 0

/-- What is counted for the entry `p1b`.  After an error the counter is not looked at. -/
def compareDeleted (conf : Conf) (t : Turn) (s : State) : Nat :=
  if s.cman.isSome && mustRead conf s.cb s.p1b.sb && !t.readsOld then 0
  else lookupDeleted conf s.cman s.cb s.p1b.sb

/-- What is counted in the part of a turn after everything has been sent. -/
def nextDeleted (conf : Conf) (t : Turn) (s : State) : Nat :=
  match s.p1 with
  | none => 0
  | some p1 =>
      if !t.reads then 0
      else
        match p1 with
        | [] => if t.endSent then compareDeleted conf t { s with p1 := none, p1b := {} } else 0
        | sb :: p1 => compareDeleted conf t { s with p1 := some p1, p1b := { sb := sb } }

def sendDeleted (conf : Conf) (t : Turn) (s : State) : Nat :=
  match doStuffToSend t s with
  | (s, .all) => nextDeleted conf t s
  | _ => 0

/-- What is counted in one turn of the loop. -/
def turnDeleted (conf : Conf) (working : Bytes) (t : Turn) (s : State) : Nat :=
  if receives t s then
    match doStuffToReceive conf working t s with
    | (s, .more) => sendDeleted conf t s
    | _ => 0
  else sendDeleted conf t s

/-- `gtotal_deleted` after the loop.  A run begins with the counters at 0, and a resume does
not count deleted files. -/
def gtotalDeleted (conf : Conf) (working : Bytes) : List Turn → State → Nat
  | [], _ => 0
  | t :: ts, s =>
      turnDeleted conf working t s
        + match turn conf working t s with
          | (s, .more) => gtotalDeleted conf working ts s
          | _ => 0

/-! ## §2. What is counted. -/

/-- Some entry of a list comes after an old one. -/
def before (list : List Sbuf) (e : Sbuf) : Bool := list.any fun p => decide (sbufPathcmp e p < 0)

/-- An entry of a list is at the place of an old one. -/
def listed (list : List Sbuf) (e : Sbuf) : Bool := list.any fun p => decide (sbufPathcmp e p = 0)

/-- The old entries that are passed over on the way to the end of a list. -/
def passed (old list : List Sbuf) : Nat := old.countP fun e => before list e && !listed list e

/-- What is left of the old manifest. -/
def oldLeft (cman : Option (List Sbuf)) (cb : Sbuf) : List Sbuf :=
  match cman with
  | none => []
  | some rest => if cb.path.isNone then rest else cb :: rest

/-- In order, and every entry has a path. -/
structure Sorted (list : List Sbuf) : Prop where
  increasing : list.Pairwise fun a b => sbufPathcmp a b < 0
  path : ∀ sb ∈ list, sb.path ≠ none

theorem Sorted.sublist {l l' : List Sbuf} (h : Sorted l) (hs : l'.Sublist l) : Sorted l' :=
  ⟨h.increasing.sublist hs, fun sb hsb => h.path sb (hs.subset hsb)⟩

/-- The verdicts by the order of the entries. -/
theorem maybeProcessFile_verdict (conf : Conf) (cb p1b : Sbuf) :
    (maybeProcessFile conf cb p1b = .behind ∧ sbufPathcmp cb p1b < 0)
      ∨ (∃ outcome, maybeProcessFile conf cb p1b = .done outcome false ∧ sbufPathcmp cb p1b = 0)
      ∨ ∃ outcome, maybeProcessFile conf cb p1b = .done outcome true ∧ 0 < sbufPathcmp cb p1b := by
  unfold maybeProcessFile
  simp only
  split_ifs with h0
  all_goals first
    | exact Or.inr (Or.inl ⟨_, rfl, h0⟩)
    | skip
  · exact Or.inr (Or.inr ⟨_, rfl, by assumption⟩)
  · exact Or.inl ⟨rfl, by omega⟩

section Lookup

variable {conf : Conf} {x : Sbuf} {xs : List Sbuf}

/-- The first entry of the list is the lowest one. -/
theorem before_cons_of_behind (h : Sorted (x :: xs)) {e : Sbuf} (he : sbufPathcmp e x < 0) :
    (before (x :: xs) e && !listed (x :: xs) e) = true := by
  have hall : ∀ p ∈ x :: xs, sbufPathcmp e p < 0 := by
    intro p hp
    rcases List.mem_cons.mp hp with rfl | hp
    · exact he
    · exact sbufPathcmp_trans he ((List.pairwise_cons.mp h.increasing).1 p hp)
  have hbefore : before (x :: xs) e = true := by simp [before, he]
  have hlisted : listed (x :: xs) e = false := by
    simp only [listed, List.any_eq_false, decide_eq_true_eq]
    intro p hp
    have := hall p hp
    omega
  rw [hbefore, hlisted]
  rfl

/-- What is above the first entry does not depend on it. -/
theorem passed_above {old : List Sbuf} (h : ∀ e ∈ old, 0 < sbufPathcmp e x) :
    passed old (x :: xs) = passed old xs := by
  unfold passed
  apply List.countP_congr
  intro e he
  have hx := h e he
  have hlt : ¬ sbufPathcmp e x < 0 := by omega
  have hne : sbufPathcmp e x ≠ 0 := by omega
  simp [before, listed, hlt, hne]

/-- What comes after an entry of the old manifest that is not behind is above. -/
theorem above_rest {e : Sbuf} {es : List Sbuf} (h : Sorted (e :: es))
    (he : ¬ sbufPathcmp e x < 0) : ∀ a ∈ es, 0 < sbufPathcmp a x := fun a ha =>
  sbufPathcmp_above he ((List.pairwise_cons.mp h.increasing).1 a ha)

/-- **The `while(*cmanfp)` loop** counts what it passes over. -/
theorem scan_passed (hx : Sorted (x :: xs)) {es : List Sbuf} (hes : Sorted es) :
    passed es (x :: xs) = scanDeleted conf x es
        + passed (oldLeft (scanManifest conf x es).cman (scanManifest conf x es).cb) xs
      ∧ (oldLeft (scanManifest conf x es).cman (scanManifest conf x es).cb).Sublist es := by
  induction es with
  | nil => exact ⟨rfl, .slnil⟩
  | cons e es ih =>
      have htail : Sorted es := hes.sublist (List.sublist_cons_self _ _)
      rw [scanDeleted, scanManifest]
      rcases maybeProcessFile_verdict conf e x with ⟨hv, hlt⟩ | ⟨o, hv, heq⟩ | ⟨o, hv, hgt⟩
      · obtain ⟨hcount, hsub⟩ := ih htail
        rw [hv]
        refine ⟨?_, hsub.cons _⟩
        rw [passed, List.countP_cons, if_pos (before_cons_of_behind hx hlt)]
        rw [passed] at hcount
        simp only [hcount]
        omega
      · rw [hv]
        have habove := above_rest hes (x := x) (by omega)
        have hnot : (before (x :: xs) e && !listed (x :: xs) e) = false := by
          simp [listed, heq]
        refine ⟨?_, List.sublist_cons_self _ _⟩
        simp only [Found.of, oldLeft, Option.isNone_none, if_true, Bool.false_eq_true, if_false]
        rw [passed, List.countP_cons, hnot, ← passed, passed_above habove]
        simp
      · rw [hv]
        have hall : ∀ a ∈ e :: es, 0 < sbufPathcmp a x := by
          intro a ha
          rcases List.mem_cons.mp ha with rfl | ha
          · exact hgt
          · exact above_rest hes (by omega) a ha
        have hpath : e.path.isNone = false := by
          rw [Option.isNone_eq_false_iff, Option.isSome_iff_ne_none]
          exact hes.path e List.mem_cons_self
        simp only [Found.of, oldLeft, if_true, hpath, Bool.false_eq_true, if_false]
        exact ⟨by rw [passed_above hall]; omega, List.Sublist.refl _⟩

/-- **Looking an entry up** counts what it passes over. -/
theorem lookup_passed (conf : Conf) (hx : Sorted (x :: xs)) {cman : Option (List Sbuf)} {cb : Sbuf}
    (hold : Sorted (oldLeft cman cb)) :
    passed (oldLeft cman cb) (x :: xs) = lookupDeleted conf cman cb x
        + passed (oldLeft (lookup conf cman cb x).cman (lookup conf cman cb x).cb) xs
      ∧ (oldLeft (lookup conf cman cb x).cman (lookup conf cman cb x).cb).Sublist
        (oldLeft cman cb) := by
  cases cman with
  | none => exact ⟨rfl, .slnil⟩
  | some rest =>
      by_cases hpath : cb.path.isNone = true
      · simp only [lookup, lookupDeleted, oldLeft, hpath, if_true] at hold ⊢
        exact scan_passed hx hold
      · -- the entry that has been read before is the first one of the scan
        have hscan : lookup conf (some rest) cb x = scanManifest conf x (cb :: rest) := by
          simp only [lookup, hpath, scanManifest]
          rfl
        have hcount : lookupDeleted conf (some rest) cb x = scanDeleted conf x (cb :: rest) := by
          simp only [lookupDeleted, hpath, scanDeleted]
          rfl
        have hold' : oldLeft (some rest) cb = cb :: rest := by
          simp [oldLeft, hpath]
        rw [hold'] at hold ⊢
        rw [hscan, hcount]
        exact scan_passed hx hold

/-- At the end of the list nothing is behind. -/
theorem lookupDeleted_end (conf : Conf) {cman : Option (List Sbuf)} {cb : Sbuf}
    (hold : Sorted (oldLeft cman cb)) : lookupDeleted conf cman cb {} = 0 := by
  have habove : ∀ e : Sbuf, e.path ≠ none → 0 < sbufPathcmp e {} := by
    intro e he
    obtain ⟨p, hp⟩ := Option.ne_none_iff_exists'.mp he
    simp [sbufPathcmp, pathcmp, hp]
  have hscan : ∀ es : List Sbuf, Sorted es → scanDeleted conf {} es = 0 := by
    intro es hes
    cases es with
    | nil => rfl
    | cons e es =>
        have := habove e (hes.path e List.mem_cons_self)
        rw [scanDeleted]
        rcases maybeProcessFile_verdict conf e {} with ⟨-, hlt⟩ | ⟨o, hv, -⟩ | ⟨o, hv, -⟩
        · omega
        · rw [hv]
        · rw [hv]
  cases cman with
  | none => rfl
  | some rest =>
      by_cases hpath : cb.path.isNone = true
      · simp only [lookupDeleted, oldLeft, hpath, if_true] at hold ⊢
        exact hscan rest hold
      · have hold' : oldLeft (some rest) cb = cb :: rest := by
          simp [oldLeft, hpath]
        have hcount : lookupDeleted conf (some rest) cb {} = scanDeleted conf {} (cb :: rest) := by
          simp only [lookupDeleted, hpath, scanDeleted]
          rfl
        rw [hcount]
        exact hscan _ (hold' ▸ hold)

end Lookup

/-! ## §3. Turns and runs. -/

/-- What is still to be counted. -/
def State.uncounted (s : State) : Nat :=
  match s.p1 with
  | none => 0
  | some p1 => passed (oldLeft s.cman s.cb) p1

/-- As long as there is a list, what is left of it and of the old manifest is in order. -/
def Ready (s : State) : Prop :=
  ∀ p1, s.p1 = some p1 → Sorted p1 ∧ Sorted (oldLeft s.cman s.cb)

/-- The same is left of both lists. -/
structure SameLists (s s' : State) : Prop where
  p1 : s'.p1 = s.p1
  cman : s'.cman = s.cman
  cb : s'.cb = s.cb

theorem SameLists.uncounted {s s' : State} (h : SameLists s s') : s'.uncounted = s.uncounted := by
  unfold State.uncounted
  rw [h.p1, h.cman, h.cb]

theorem SameLists.ready {s s' : State} (h : SameLists s s') (hs : Ready s) : Ready s' := by
  unfold Ready
  rw [h.p1, h.cman, h.cb]
  exact hs

theorem receive_sameLists (conf : Conf) (working : Bytes) (t : Turn) (s : State) :
    SameLists s (doStuffToReceive conf working t s).1 := by
  have hof : ∀ {s' : State} {es : List Event}, Receives s s' es → SameLists s s' :=
    fun h => ⟨h.p1, h.cman, h.cb⟩
  apply doStuffToReceive_cases (P := fun r => SameLists s r.1)
  case idle => exact fun _ => ⟨rfl, rfl, rfl⟩
  case done => exact fun _ _ => ⟨rfl, rfl, rfl⟩
  case error => exact ⟨rfl, rfl, rfl⟩
  case datapth => exact fun _ _ _ => ⟨rfl, rfl, rfl⟩
  case stat => exact fun _ _ _ => ⟨rfl, rfl, rfl⟩
  case delta =>
    intro cmd text _ _ _ _
    exact hof (startToReceiveDelta_spec working t _ s).1
  case whole =>
    intro cmd text _ _ _ _
    obtain ⟨paths, hrec, -⟩ := startToReceiveNewFile_spec conf working t
      { s.rb.sb with cmd := cmd, path := some text } s
    exact hof hrec
  case ended =>
    intro text _ _
    obtain ⟨es, hrec, -⟩ := receiveEnd_spec working t text s
    exact hof hrec

theorem send_sameLists (t : Turn) (s : State) : SameLists s (doStuffToSend t s).1 := by
  obtain ⟨⟨es, hsends⟩, -⟩ := doStuffToSend_spec t s
  exact ⟨hsends.p1, hsends.cman, hsends.cb⟩

theorem carryOut_lists (t : Turn) (f : Found) (s : State) :
    (carryOut t f s).1.p1 = s.p1 ∧ (carryOut t f s).1.cman = f.cman
      ∧ (carryOut t f s).1.cb = f.cb := by
  unfold carryOut
  cases f.outcome with
  | request => exact ⟨rfl, rfl, rfl⟩
  | delta =>
      simp only
      split_ifs <;> exact ⟨rfl, rfl, rfl⟩
  | unchanged writer sb =>
      simp only
      split_ifs <;> exact ⟨rfl, rfl, rfl⟩

section Turns

variable {conf : Conf} {working : Bytes} {t : Turn} {s : State}

/-- Comparing an entry, as long as the loop goes on. -/
theorem compare_lists (hmore : (compareEntry conf t s).2 = .more) :
    compareDeleted conf t s = lookupDeleted conf s.cman s.cb s.p1b.sb
      ∧ (compareEntry conf t s).1.p1 = s.p1
      ∧ (compareEntry conf t s).1.cman = (lookup conf s.cman s.cb s.p1b.sb).cman
      ∧ (compareEntry conf t s).1.cb = (lookup conf s.cman s.cb s.p1b.sb).cb := by
  unfold compareEntry compareDeleted at *
  split_ifs at hmore ⊢ with hread
  exact ⟨rfl, carryOut_lists t _ s⟩

/-- **The next entry**: what is counted for it is no longer to be counted. -/
theorem next_uncounted (h : Ready s) (hmore : (nextEntry conf t s).2 = .more) :
    s.uncounted = nextDeleted conf t s + (nextEntry conf t s).1.uncounted
      ∧ Ready (nextEntry conf t s).1 := by
  rcases hp1 : s.p1 with _ | _ | ⟨x, xs⟩
  · have hsame : (nextEntry conf t s).1 = s := by simp [nextEntry, hp1]
    rw [hsame]
    exact ⟨by simp [nextDeleted, hp1], h⟩
  · -- the end of the list
    unfold nextEntry nextDeleted at *
    rw [hp1] at hmore ⊢
    simp only at hmore ⊢
    split_ifs at hmore ⊢ with hreads hend
    obtain ⟨-, hnone, -⟩ := compare_lists hmore
    have hcount := lookupDeleted_end conf (h _ hp1).2
    refine ⟨?_, fun p1 hsome => ?_⟩
    · have hzero : compareDeleted conf t { s with p1 := none, p1b := {} } = 0 := by
        unfold compareDeleted
        split_ifs
        · rfl
        · exact hcount
      rw [hzero, State.uncounted, State.uncounted, hp1, hnone]
      simp [passed, before, State.emit]
    · rw [hnone] at hsome
      cases hsome
  · unfold nextEntry nextDeleted at *
    rw [hp1] at hmore ⊢
    simp only at hmore ⊢
    split_ifs at hmore ⊢ with hreads
    obtain ⟨hdeleted, hlist, hcman, hcb⟩ := compare_lists hmore
    obtain ⟨hx, hold⟩ := h _ hp1
    obtain ⟨hcount, hsub⟩ := lookup_passed conf hx hold
    refine ⟨?_, fun p1 hsome => ?_⟩
    · rw [hdeleted, State.uncounted, State.uncounted, hlist, hcman, hcb, hp1]
      exact hcount
    · rw [hlist, Option.some.injEq] at hsome
      rw [hcman, hcb]
      exact ⟨hsome ▸ hx.sublist (List.sublist_cons_self _ _), hold.sublist hsub⟩

theorem send_uncounted (h : Ready s) (hmore : (sendAndGoOn conf t s).2 = .more) :
    s.uncounted = sendDeleted conf t s + (sendAndGoOn conf t s).1.uncounted
      ∧ Ready (sendAndGoOn conf t s).1 := by
  have hsame := send_sameLists t s
  have hready := hsame.ready h
  unfold sendAndGoOn sendDeleted at *
  rw [← hsame.uncounted]
  generalize doStuffToSend t s = result at hready hmore ⊢
  obtain ⟨s', r⟩ := result
  cases r with
  | error => cases hmore
  | again => exact ⟨(Nat.zero_add _).symm, hready⟩
  | all => exact next_uncounted hready hmore

/-- **One turn**: what it counts is no longer to be counted. -/
theorem turn_uncounted (h : Ready s) (hmore : (turn conf working t s).2 = .more) :
    s.uncounted = turnDeleted conf working t s + (turn conf working t s).1.uncounted
      ∧ Ready (turn conf working t s).1 := by
  have hsame := receive_sameLists conf working t s
  have hready := hsame.ready h
  have huncounted := hsame.uncounted
  unfold turn turnDeleted at *
  cases hr : receives t s with
  | false =>
      rw [hr] at hmore
      exact send_uncounted h hmore
  | true =>
      rw [hr] at hmore
      simp only [if_true] at hmore ⊢
      rw [← huncounted]
      generalize doStuffToReceive conf working t s = result at hready hmore ⊢
      obtain ⟨s', r⟩ := result
      cases r with
      | more => exact send_uncounted hready hmore
      | done => cases hmore
      | error => cases hmore

/-- The last turn of a run that ends well counts nothing: it ends with what it receives. -/
theorem turnDeleted_done (hdone : (turn conf working t s).2 = .done) :
    turnDeleted conf working t s = 0 ∧ receives t s = true
      ∧ (doStuffToReceive conf working t s).2 = .done := by
  have hsend : ∀ s, (sendAndGoOn conf t s).2 ≠ .done := by
    intro s
    unfold sendAndGoOn
    generalize doStuffToSend t s = result
    obtain ⟨s', r⟩ := result
    cases r with
    | error => simp
    | again => simp
    | all => exact nextEntry_ne_done conf t s'
  unfold turn turnDeleted at *
  cases hr : receives t s with
  | false =>
      rw [hr] at hdone
      exact absurd hdone (hsend s)
  | true =>
      rw [hr] at hdone
      simp only [if_true] at hdone ⊢
      generalize doStuffToReceive conf working t s = result at hdone ⊢
      obtain ⟨s', r⟩ := result
      cases r with
      | more => exact absurd hdone (hsend s')
      | done => exact ⟨rfl, trivial, rfl⟩
      | error => cases hdone

/-- **Runs** that end well have counted all that there was to be counted. -/
theorem gtotalDeleted_uncounted {all : List (Sbuf × Found)} (hpaths : ∀ d ∈ all, d.1.path ≠ none)
    {ts : List Turn} {c c' : Client} (hserved : Served conf working ts s c c') (hs : Ready s)
    (hbooks : ∃ done, Books conf all done s c) (hdone : (run conf working ts s).2 = .done) :
    gtotalDeleted conf working ts s = s.uncounted := by
  induction hserved with
  | nil s c => cases hdone
  | @more t ts s c c' c'' hheard hmore hrest ih =>
      obtain ⟨done, hbook⟩ := hbooks
      obtain ⟨hcount, hready⟩ := turn_uncounted hs hmore
      have hnext := ih hready (turn_books hpaths hbook hheard hmore)
      unfold run at hdone
      unfold gtotalDeleted
      rw [hcount]
      generalize turn conf working t s = result at hmore hnext hdone ⊢
      obtain ⟨s', r⟩ := result
      rw [show r = .more from hmore] at hdone ⊢
      rw [← hnext hdone]
  | @last t ts s c c' hheard hlast =>
      obtain ⟨done, hbook⟩ := hbooks
      have hturn : (turn conf working t s).2 = .done := by
        unfold run at hdone
        generalize turn conf working t s = result at hlast hdone ⊢
        obtain ⟨s', r⟩ := result
        cases r with
        | more => exact absurd rfl hlast
        | done => rfl
        | error => cases hdone
      obtain ⟨hzero, hr, hreceived⟩ := turnDeleted_done hturn
      unfold Heard at hheard
      rw [if_pos hr] at hheard
      obtain ⟨-, -, -, htold, -⟩ := hbook.agreed hheard hreceived
      unfold gtotalDeleted State.uncounted
      rw [hzero, hbook.ended htold]
      generalize turn conf working t s = result at hturn
      obtain ⟨s', r⟩ := result
      rw [show r = .done from hturn]
      rfl

/-- **What a run counts**, from the old manifest and what is left of the list. -/
theorem gtotalDeleted_eq {ts : List Turn} {left : List Sbuf} {cman : Option (List Sbuf)}
    {dpth : Dpth} {c : Client} (hleft : Sorted left) (hold : Sorted (cman.getD []))
    (hserved : Served conf working ts (.start left cman dpth) {} c)
    (hdone : (run conf working ts (.start left cman dpth)).2 = .done) :
    gtotalDeleted conf working ts (.start left cman dpth) = passed (cman.getD []) left := by
  have hall : ∀ d ∈ decisions conf cman {} left, d.1.path ≠ none := by
    intro d hd
    refine hleft.path d.1 ?_
    rw [← fst_decisions conf left cman {}]
    exact List.mem_map_of_mem hd
  have holdLeft : oldLeft cman {} = cman.getD [] := by
    cases cman <;> rfl
  have hready : Ready (.start left cman dpth) := by
    intro p1 hp1
    obtain rfl : left = p1 := Option.some.inj hp1
    exact ⟨hleft, holdLeft.symm ▸ hold⟩
  rw [gtotalDeleted_uncounted hall hserved hready ⟨[], books_start conf left cman dpth⟩ hdone]
  show passed (oldLeft cman {}) left = _
  rw [holdLeft]

end Turns

/-! ## §4. What is left of the list after a resume. -/

/-- A file holds a list of entries, and nothing after them. -/
inductive ReadsAs (fill : Bytes → Ars × Sbuf × Bytes) : Bytes → List Sbuf → Prop
  | nil (hend : (fill []).1 = .ended) : ReadsAs fill [] []
  | cons {b : Bytes} {sbs : List Sbuf} (hok : (fill b).1 = .ok)
      (hrest : ReadsAs fill (fill b).2.2 sbs) : ReadsAs fill b ((fill b).2.1 :: sbs)

/-- What comes after the position in a file that has been gone forward in. -/
theorem forwardSbuf_left {fill : Bytes → Ars × Sbuf × Bytes} {target : Option Sbuf}
    (hnil : (fill []).2.2 = []) : ∀ {fuel : Nat} {d : Dpth} {latest : Sbuf} {b : Bytes}
      {f : Forward} {sbs : List Sbuf}, forwardSbuf fill target false fuel d latest b = some f →
      ReadsAs fill b sbs → ∃ gone left, sbs = gone ++ left ∧ ReadsAs fill f.rest left
  | 0, _, _, _, _, _, h, _ => by cases h
  | fuel + 1, d, latest, b, f, sbs, h, hreads => by
      unfold forwardSbuf at h
      simp only at h
      cases hset : setDpthFromString d (fill b).2.1.datapth with
      | none => simp [hset] at h
      | some d' =>
          simp only [hset] at h
          cases hreads with
          | nil hend =>
              rw [hend] at h
              simp only [Option.some.injEq] at h
              subst h
              exact ⟨[], [], rfl, by simpa [hnil] using ReadsAs.nil hend⟩
          | @cons _ sbs hok hrest =>
              rw [hok] at h
              simp only [Bool.false_eq_true, if_false] at h
              split_ifs at h with htarget
              · rw [Option.some.injEq] at h
                subst h
                exact ⟨[(fill b).2.1], sbs, rfl, hrest⟩
              · obtain ⟨gone, left, rfl, hleft⟩ := forwardSbuf_left hnil h hrest
                exact ⟨(fill b).2.1 :: gone, left, rfl, hleft⟩

/-- A file is read in one way. -/
theorem ReadsAs.unique {fill : Bytes → Ars × Sbuf × Bytes} {b : Bytes} {sbs sbs' : List Sbuf}
    (h : ReadsAs fill b sbs) (h' : ReadsAs fill b sbs') : sbs = sbs' := by
  induction h generalizing sbs' with
  | nil hend =>
      cases h' with
      | nil => rfl
      | cons hok => simp [hend] at hok
  | @cons b sbs hok hrest ih =>
      cases h' with
      | nil hend => simp [hok] at hend
      | cons _ hrest' => rw [ih hrest']

/-- What is left of the client's list when a run begins: all of it, or what comes after the
position that a resume finds, whatever earlier runs have left in the two other files. -/
inductive LeftOf (conf : Conf) (p1 : List Sbuf) : List Sbuf → Prop
  | fresh : LeftOf conf p1 p1
  | resumed (files : Interrupted) (d : Dpth) (r : Resumed) (left : List Sbuf)
      (hphase1 : ReadsAs sbufFillPhase1 files.phase1 p1)
      (hresume : doResume conf files d = some r)
      (hleft : ReadsAs sbufFillPhase1 r.phase1 left) : LeftOf conf p1 left

/-- It is an end of the list. -/
theorem LeftOf.suffix {conf : Conf} {p1 left : List Sbuf} (h : LeftOf conf p1 left) :
    left <:+ p1 := by
  cases h with
  | fresh => exact List.suffix_refl _
  | resumed files d r left hphase1 hresume hleft =>
      unfold doResume at hresume
      split_ifs at hresume
      simp only [Option.bind_eq_bind, Option.bind_eq_some_iff] at hresume
      obtain ⟨p2btmp, -, p2b, -, p1b, hforward, ucb, -, hlast⟩ := hresume
      split_ifs at hlast
      obtain ⟨gone, left', rfl, hleft'⟩ := forwardSbuf_left rfl hforward hphase1
      rw [Option.some.injEq] at hlast
      subst hlast
      rw [hleft.unique hleft']
      exact List.suffix_append _ _

/-! ## §5. The number of deleted files. -/

/-- The old entries at no place of the list. -/
def deletedFiles (old p1 : List Sbuf) : Nat := old.countP fun e => !listed p1 e

/-- As many deleted files come after everything that is left of the list as other old entries,
which the earlier runs have dealt with, come before the last of what is left. -/
def EvenCount (old p1 left : List Sbuf) : Prop :=
  (old.countP fun e => !listed p1 e && !before left e)
    = old.countP fun e => listed p1 e && !listed left e && before left e

instance (old p1 left : List Sbuf) : Decidable (EvenCount old p1 left) :=
  inferInstanceAs (Decidable (_ = _))

theorem countP_add_countP {p q p' q' : Sbuf → Bool} {l : List Sbuf}
    (h : ∀ e ∈ l, (p e).toNat + (q e).toNat = (p' e).toNat + (q' e).toNat) :
    l.countP p + l.countP q = l.countP p' + l.countP q' := by
  induction l with
  | nil => rfl
  | cons e l ih =>
      have he := h e List.mem_cons_self
      have hl := ih fun x hx => h x (List.mem_cons_of_mem _ hx)
      simp only [List.countP_cons]
      cases hp : p e <;> cases hq : q e <;> cases hp' : p' e <;> cases hq' : q' e <;>
        simp [hp, hq, hp', hq'] at he ⊢ <;> omega

theorem passed_eq_iff {old p1 left : List Sbuf} (hleft : ∀ sb ∈ left, sb ∈ p1) :
    passed old left = deletedFiles old p1 ↔ EvenCount old p1 left := by
  have hsum : passed old left + (old.countP fun e => !listed p1 e && !before left e)
      = deletedFiles old p1
        + old.countP fun e => listed p1 e && !listed left e && before left e := by
    apply countP_add_countP
    intro e _
    have hlisted : listed left e = true → listed p1 e = true := by
      simp only [listed, List.any_eq_true]
      exact fun ⟨p, hp, hep⟩ => ⟨p, hleft p hp, hep⟩
    cases hb : before left e <;> cases hl : listed left e <;> cases h1 : listed p1 e <;>
      simp_all
  unfold EvenCount
  omega

/-- **The count of deleted files** of the last run, however many runs there have been before
it, is right if it is even, and only then. -/
theorem gtotalDeleted_right_iff {conf : Conf} {working : Bytes} {ts : List Turn} {closes : Bool}
    {p1 left : List Sbuf} {cman : Option (List Sbuf)} {dpth : Dpth} {s : State} {ret : Returned}
    {c : Client} (hp1 : Sorted p1) (hold : Sorted (cman.getD [])) (hleft : LeftOf conf p1 left)
    (hserved : Served conf working ts (.start left cman dpth) {} c)
    (hret : backupPhase2Server conf working ts closes (.start left cman dpth) = (s, some ret))
    (hok : ret.ok = true) :
    gtotalDeleted conf working ts (.start left cman dpth) = deletedFiles (cman.getD []) p1
      ↔ EvenCount (cman.getD []) p1 left := by
  have hdone := (returned_ok hret hok).1
  rw [gtotalDeleted_eq (hp1.sublist hleft.suffix.sublist) hold hserved hdone]
  exact passed_eq_iff hleft.suffix.subset

/-- A list with the directory "b". -/
def oneDirectory : List Sbuf := [{ cmd := .directory, path := some [98], statbuf := [65] }]

/-- A run for this list: the client has nothing to send, and agrees to the end. -/
def oneDirectoryTurns : List Turn :=
  [{}, {}, { arrival := .message .gen (nameBytes "okbackupphase2end") }]

/-- The directory "a" has been deleted. -/
def deletedBefore : List Sbuf := [{ cmd := .directory, path := some [97], statbuf := [65] }]

theorem oneDirectory_before_served :
    Served {} [119] oneDirectoryTurns (.start oneDirectory (some deletedBefore) {}) {} {} := by
  refine .more (heard_idle (by decide)) (by decide) ?_
  refine .more (heard_idle (by decide)) (by decide) ?_
  exact .last (heard_said (by decide) (.agrees _ (by decide) rfl (by decide) (by decide)))
      (by decide)

theorem sorted_directory (p : Bytes) :
    Sorted [{ cmd := .directory, path := some p, statbuf := [65] }] :=
  ⟨List.pairwise_singleton _ _, by simp⟩

/-- It is counted. -/
theorem deletedBefore_counted :
    gtotalDeleted {} [119] oneDirectoryTurns (.start oneDirectory (some deletedBefore) {}) = 1 := by
  have hold : Sorted ((some deletedBefore).getD []) := sorted_directory [97]
  have hret : (backupPhase2Server {} [119] oneDirectoryTurns true
      (.start oneDirectory (some deletedBefore) {})).2 = some { ok := true, phase1 := false } := by
    decide
  have hright := (gtotalDeleted_right_iff (sorted_directory [98]) hold .fresh
    oneDirectory_before_served (Prod.ext rfl hret) rfl).mpr (by decide)
  exact hright.trans (by decide)

/-- The directory "c" has been deleted. -/
def deletedAfter : List Sbuf := [{ cmd := .directory, path := some [99], statbuf := [65] }]

theorem oneDirectory_after_served :
    Served {} [119] oneDirectoryTurns (.start oneDirectory (some deletedAfter) {}) {} {} := by
  refine .more (heard_idle (by decide)) (by decide) ?_
  refine .more (heard_idle (by decide)) (by decide) ?_
  exact .last (heard_said (by decide) (.agrees _ (by decide) rfl (by decide) (by decide)))
      (by decide)

/-- It is not counted, although phase 2 has run to its end. -/
theorem deletedAfter_not_counted :
    Served {} [119] oneDirectoryTurns (.start oneDirectory (some deletedAfter) {}) {} {}
      ∧ (backupPhase2Server {} [119] oneDirectoryTurns true
          (.start oneDirectory (some deletedAfter) {})).2 = some { ok := true, phase1 := false }
      ∧ gtotalDeleted {} [119] oneDirectoryTurns (.start oneDirectory (some deletedAfter) {})
          ≠ deletedFiles deletedAfter oneDirectory :=
  ⟨oneDirectory_after_served, by decide, by decide⟩

/-- For a run that is not a resume the count is even if no deleted file comes after the whole
list. -/
theorem evenCount_fresh (old p1 : List Sbuf) :
    EvenCount old p1 p1 ↔ ∀ e ∈ old, listed p1 e = true ∨ before p1 e = true := by
  have hzero : (old.countP fun e => listed p1 e && !listed p1 e && before p1 e) = 0 := by
    rw [List.countP_eq_zero]
    intro e _
    cases listed p1 e <;> simp
  unfold EvenCount
  rw [hzero, List.countP_eq_zero]
  refine forall₂_congr fun e _ => ?_
  cases listed p1 e <;> simp

end Burp.Phase2
