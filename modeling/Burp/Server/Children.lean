/-
  Burp.Server.Children — the table of the forked children.

  The server keeps one record for each child that it has forked, for normal and for status
  clients in one table, and an end marker behind it.  The table is made on the start and made
  again on a reload, from the limits before and after it.

  Main results:
    * `reload_tracks_iff` — a reload keeps all records and adds empty ones exactly when the last
      record of the old table is the empty one.
-/
import Burp.Store.Sbuf

namespace Burp.Server.Children

open FileSystem Burp.Store

/-! ## §1. The records. -/

/-- `struct chldstat`. -/
structure Chldstat where
  pid : Int
  rfd : Int
  wfd : Int
  data : Option Bytes
  name : Option Bytes
  statusServer : Bool
  deriving DecidableEq

/-- The record that `setup_signals` writes into a slot. -/
def Chldstat.empty : Chldstat := ⟨-1, -1, -1, none, none, false⟩

/-- `max_children` and `max_status_children` as `server_conf_checks` lets them through. -/
structure Limits where
  maxChildren : Nat
  maxStatusChildren : Nat
  children_pos : 0 < maxChildren
  status_pos : 0 < maxStatusChildren

/-- `total_max_children`. -/
def Limits.total (conf : Limits) : Nat := conf.maxChildren + conf.maxStatusChildren

/-! ## §2. Making the table. -/

/-- `realloc` to `n` records: the ones that were there, then memory that nobody has written. -/
def realloc (n : Nat) (memory : Nat → Chldstat) (chlds : List Chldstat) : List Chldstat :=
  (List.range n).map fun p => (chlds[p]?).getD (memory p)

/-- `n` turns of the loop that writes empty records, from `p` on. -/
def emptySlots : Nat → Nat → List Chldstat → List Chldstat
  | 0, _, chlds => chlds
  | n + 1, p, chlds => emptySlots n (p + 1) (chlds.set p .empty)

/-- `setup_signals`, as far as the table goes. -/
def setupSignals (oldmaxChildren maxChildren oldmaxStatusChildren maxStatusChildren : Nat)
    (memory : Nat → Chldstat) (chlds : List Chldstat) : List Chldstat :=
  let totalMaxChildren := maxChildren + maxStatusChildren
  let totalOldmaxChildren := oldmaxChildren + oldmaxStatusChildren
  let chlds := realloc (totalMaxChildren + 1) memory chlds
  -- `total_oldmax_children-1`, and 0 if that is negative
  let p := totalOldmaxChildren - 1
  let chlds := emptySlots (totalMaxChildren + 1 - p) p chlds
  chlds.modify totalMaxChildren fun c => { c with pid := -2 }

/-- `reload`, called by `server` with the limits that hold before: `load_config` gives the new
ones, or fails, and the table stays as it is. -/
def reload (conf : Limits) (loadConfig : Option Limits) (memory : Nat → Chldstat)
    (chlds : List Chldstat) : List Chldstat :=
  match loadConfig with
  | none => chlds
  | some new => setupSignals conf.maxChildren new.maxChildren conf.maxStatusChildren
      new.maxStatusChildren memory chlds

section Table

variable {n p q : Nat} {memory : Nat → Chldstat} {chlds : List Chldstat}

theorem realloc_length : (realloc n memory chlds).length = n := by
  simp [realloc]

theorem realloc_getElem? (hp : p < n) :
    (realloc n memory chlds)[p]? = some ((chlds[p]?).getD (memory p)) := by
  unfold realloc
  rw [List.getElem?_map, List.getElem?_range hp, Option.map_some]

theorem emptySlots_length (n p : Nat) (chlds : List Chldstat) :
    (emptySlots n p chlds).length = chlds.length := by
  induction n generalizing p chlds with
  | zero => rfl
  | succ n ih =>
      show (emptySlots n (p + 1) (chlds.set p .empty)).length = chlds.length
      rw [ih, List.length_set]

/-- The loop writes the slots that it walks over, and no other. -/
theorem emptySlots_getElem? (n p q : Nat) (chlds : List Chldstat) :
    (emptySlots n p chlds)[q]?
      = if p ≤ q ∧ q < p + n ∧ q < chlds.length then some .empty else chlds[q]? := by
  induction n generalizing p chlds with
  | zero =>
      show chlds[q]? = _
      rw [if_neg (by omega)]
  | succ n ih =>
      show (emptySlots n (p + 1) (chlds.set p .empty))[q]? = _
      rw [ih, List.length_set]
      by_cases hq : p = q
      · subst hq
        rw [if_neg (by omega)]
        by_cases hlen : p < chlds.length
        · rw [List.getElem?_set_self hlen, if_pos ⟨le_rfl, by omega, hlen⟩]
        · rw [if_neg (by omega), List.getElem?_eq_none (by rw [List.length_set]; omega),
            List.getElem?_eq_none (by omega)]
      · rw [List.getElem?_set_ne hq]
        split_ifs <;> first | rfl | omega

/-- **What a slot of the table holds after `setup_signals`.** The loop begins one slot before
the end of the old table. -/
theorem setupSignals_getElem? {a b c d : Nat} (hp : p < b + d) :
    (setupSignals a b c d memory chlds)[p]?
      = if a + c - 1 ≤ p then some .empty else some ((chlds[p]?).getD (memory p)) := by
  unfold setupSignals
  simp only
  have hne : b + d ≠ p := by omega
  rw [List.getElem?_modify_ne _ _ hne, emptySlots_getElem?, realloc_length,
    realloc_getElem? (by omega)]
  split_ifs <;> first | rfl | omega

theorem setupSignals_length {a b c d : Nat} :
    (setupSignals a b c d memory chlds).length = b + d + 1 := by
  unfold setupSignals
  simp only
  rw [List.length_modify, emptySlots_length, realloc_length]

/-- The end marker, which stops `check_for_exiting_children`. -/
theorem setupSignals_marker {a b c d : Nat} :
    ((setupSignals a b c d memory chlds)[b + d]?).map Chldstat.pid = some (-2) := by
  unfold setupSignals
  simp only
  have hlt : b + d < (emptySlots (b + d + 1 - (a + c - 1)) (a + c - 1)
      (realloc (b + d + 1) memory chlds)).length := by
    rw [emptySlots_length, realloc_length]
    omega
  rw [List.getElem?_modify_eq, List.getElem?_eq_getElem hlt]
  rfl

end Table

/-! ## §3. What a reload leaves. -/

/-- What a reload is meant to do: the records of the old table stay, and the slots behind them
are empty. -/
structure Tracked (old new : Limits) (chlds chlds' : List Chldstat) : Prop where
  kept : ∀ p, p < old.total → chlds'[p]? = chlds[p]?
  added : ∀ p, old.total ≤ p → p < new.total → chlds'[p]? = some .empty

section Reload

variable {old new : Limits} {memory : Nat → Chldstat} {chlds : List Chldstat}

theorem reload_getElem? {p : Nat} (hp : p < new.total) :
    (reload old (some new) memory chlds)[p]?
      = if old.total - 1 ≤ p then some .empty else some ((chlds[p]?).getD (memory p)) :=
  setupSignals_getElem? hp

theorem Limits.total_pos (conf : Limits) : 1 < conf.total := by
  have h := conf.children_pos
  have h' := conf.status_pos
  unfold Limits.total
  omega

/-- **A reload keeps track of all children exactly if the last slot was empty.** The table has
the end marker behind its `old.total` records. -/
theorem reload_tracks_iff (hlen : chlds.length = old.total + 1) (hle : old.total ≤ new.total) :
    Tracked old new chlds (reload old (some new) memory chlds)
      ↔ chlds[old.total - 1]? = some .empty := by
  have hpos := old.total_pos
  constructor
  · intro h
    rw [← h.kept (old.total - 1) (by omega), reload_getElem? (by omega), if_pos le_rfl]
  · intro hlast
    constructor
    · intro p hp
      rw [reload_getElem? (by omega)]
      by_cases hp' : old.total - 1 ≤ p
      · obtain rfl : p = old.total - 1 := by omega
        rw [if_pos le_rfl, hlast]
      · rw [if_neg hp', List.getElem?_eq_getElem (by omega), Option.getD_some]
    · intro p hp hp'
      rw [reload_getElem? hp', if_pos (by omega)]

/-- The live children alone: the one in the last slot is forgotten, and only that one. -/
theorem reload_keeps_live_iff (hle : old.total ≤ new.total) :
    (∀ p c, p < old.total → chlds[p]? = some c → 0 ≤ c.pid →
        (reload old (some new) memory chlds)[p]? = some c)
      ↔ ∀ c, chlds[old.total - 1]? = some c → c.pid < 0 := by
  have hpos := old.total_pos
  constructor
  · intro h c hc
    by_contra hlive
    have hkept := h _ c (by omega) hc (by omega)
    rw [reload_getElem? (by omega), if_pos le_rfl] at hkept
    rw [← Option.some.inj hkept] at hlive
    exact hlive (by decide)
  · intro hlast p c hp hc hlive
    rw [reload_getElem? (by omega)]
    by_cases hp' : old.total - 1 ≤ p
    · obtain rfl : p = old.total - 1 := by omega
      exact absurd hlive (by have := hlast c hc; omega)
    · rw [if_neg hp', hc, Option.getD_some]

end Reload

/-- One normal and one status child may run. -/
def oneOfEach : Limits := ⟨1, 1, by decide, by decide⟩

/-- The table with a backup running in the first slot and `last` in the second. -/
def twoSlots (last : Chldstat) : List Chldstat :=
  [⟨100, 5, 6, none, none, false⟩, last, ⟨-2, -1, -1, none, none, false⟩]

/-- The status client that came after the backup is forgotten on a reload that changes
nothing. -/
theorem last_child_forgotten :
    ¬ ∀ (old new : Limits) (memory : Nat → Chldstat) (chlds : List Chldstat),
      chlds.length = old.total + 1 → old.total ≤ new.total →
      Tracked old new chlds (reload old (some new) memory chlds) := by
  intro h
  have hkept := (h oneOfEach oneOfEach (fun _ => .empty) (twoSlots ⟨101, 7, 8, none, none, true⟩)
    rfl le_rfl).kept 1 (by decide)
  exact absurd hkept (by decide)

theorem reload_tracks_iff_twoSlots :
    Tracked oneOfEach oneOfEach (twoSlots .empty)
        (reload oneOfEach (some oneOfEach) (fun _ => .empty) (twoSlots .empty))
      ↔ (twoSlots .empty)[oneOfEach.total - 1]? = some .empty :=
  reload_tracks_iff rfl le_rfl

/-! ## §4. Children that come and go. -/

/-- `close_fd`. -/
def closeFd (fd : Int) : Int := if fd < 0 then fd else -1

/-- `chldstat_free`: the kind of the child stays in the slot. -/
def chldstatFree (c : Chldstat) : Chldstat :=
  { c with pid := -1, data := none, name := none, rfd := closeFd c.rfd, wfd := closeFd c.wfd }

/-- The loop of `check_for_exiting_children`, which ends at the marker. -/
def freeChild (p : Int) : List Chldstat → List Chldstat
  | [] => []
  | c :: cs =>
      if c.pid = -2 then c :: cs
      else if p = c.pid then chldstatFree c :: cs
      else c :: freeChild p cs

/-- `check_for_exiting_children`: `waitpid` gives one child that has exited, if there is one. -/
def checkForExitingChildren (waited : Option Nat) (chlds : List Chldstat) : List Chldstat :=
  match waited with
  | none => chlds
  | some p => freeChild p chlds

/-- A slot counts as taken. -/
def Chldstat.recorded (c : Chldstat) : Bool := 0 ≤ c.pid

/-- The taken slots of one kind: `c_count` and `sc_count`. -/
def count (conf : Limits) (isStatusServer : Bool) (chlds : List Chldstat) : Nat :=
  (chlds.take conf.total).countP fun c => c.recorded && c.statusServer == isStatusServer

/-- The limit for one kind of children. -/
def Limits.of (conf : Limits) (isStatusServer : Bool) : Nat :=
  if isStatusServer then conf.maxStatusChildren else conf.maxChildren

/-- A spare slot: the first one in which no child is recorded. -/
def spareSlot (conf : Limits) (chlds : List Chldstat) : Option Nat :=
  (chlds.take conf.total).findIdx? fun c => !c.recorded

/-- A connection of the kind gets a slot. -/
def slotFor (conf : Limits) (isStatusServer : Bool) (chlds : List Chldstat) : Option Nat :=
  if conf.of isStatusServer ≤ count conf isStatusServer chlds then none
  else spareSlot conf chlds

/-- What `accept` gives. -/
inductive Accept
  | interrupted
  | failed
  | connected
  deriving DecidableEq

/-- What `pipe` and `fork` give to `process_incoming_client`. -/
inductive Forked
  | pipeFailed
  | failed
  | child (pid : Nat) (rfd wfd : Nat)
  deriving DecidableEq

/-- `process_incoming_client` of the forking server: the table after it, and whether it reports
an error. -/
def processIncomingClient (conf : Limits) (isStatusServer : Bool) (accept : Accept)
    (waited : Option Nat) (forked : Forked) (chlds : List Chldstat) : List Chldstat × Bool :=
  match accept with
  | .interrupted => (chlds, false)
  | .failed => (chlds, true)
  | .connected =>
      let chlds := checkForExitingChildren waited chlds
      match slotFor conf isStatusServer chlds with
      | none => (chlds, false)
      | some p =>
          match forked with
          | .pipeFailed => (chlds, true)
          | .failed => (chlds, false)
          | .child pid rfd wfd =>
              (chlds.modify p fun c =>
                { c with pid := pid, rfd := rfd, wfd := wfd, statusServer := isStatusServer },
               false)

end Burp.Server.Children
