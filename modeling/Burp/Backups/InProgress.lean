/-
  Burp.Backups.InProgress — the backup that is being made.

  While a backup is made, `working` points to its directory, and later `finishing` does.
  `get_current_backups` passes over a directory whose name is what it reads of one of the two
  links, and reads them into 32 bytes.  The name of a directory is a timestamp with an index in
  front, in the format that the configuration gives, and may be longer.

  Main results:
    * `separate_iff` — the backup in progress is passed over, and the next index is new, exactly
      when the names fit and no index is the last one that there is.
    * `getNewTimestamp_length` — how long the names are.
-/
import Burp.Backups.Delete
import Burp.Text.Decimal

namespace Burp.Backups.OnDisk

open Crash FileSystem Burp.Store Burp.Text

/-! ## §1. `get_new_timestamp`. -/

/-- The index of the next backup, an unsigned long. -/
def newIndex (arr : List Bu) : Nat := (newestIndex arr + 1) % 2 ^ 64

/-- `get_new_timestamp` into a buffer of `s` bytes.  `tmpbuf` is what `strftime` makes of the
time. -/
def getNewTimestamp (tmpbuf : Bytes) (s : Nat) : Prog Node (Option Bytes) := do
  match ← getCurrentBackups with
  | none => pure none
  | some arr => pure (some ((decimalPad 7 (newIndex arr) ++ 32 :: tmpbuf).take (s - 1)))

/-- **A name has the length of its format**, and eight characters more. -/
theorem getNewTimestamp_length {t : Node} {tmpbuf name : Bytes} {s : Nat}
    (h : (getNewTimestamp tmpbuf s).result t = some name) {arr : List Bu}
    (harr : getCurrentBackups.result t = some arr) (hindex : newIndex arr < 10 ^ 7)
    (hs : 8 + tmpbuf.length < s) : name.length = 8 + tmpbuf.length := by
  unfold getNewTimestamp at h
  rw [Prog.result_bind] at h
  have hfinal : getCurrentBackups.final t = t := rfl
  rw [harr, hfinal] at h
  obtain rfl := Option.some.inj h
  have hpad : (decimalPad 7 (newIndex arr)).length = 7 := by
    unfold decimalPad
    have hle := (@decimal_length_le (newIndex arr) 7 (by decide)).mpr hindex
    rw [List.length_append, List.length_replicate]
    omega
  rw [List.length_take, List.length_append, hpad, List.length_cons]
  omega

/-! ## §2. Directories that are taken for backups. -/

/-- A directory with a timestamp that can be read. -/
structure IsBackup (t : Node) (x : String) (d : Bytes) : Prop where
  dir : IsDir t [x]
  timestamp : regular t [x, "timestamp"] = some d
  readable : (readTimestamp 32 [] (some d)).2 = true

/-- The index of a backup with a timestamp. -/
def indexOf (d : Bytes) : Nat := strtoul (readTimestamp 32 [] (some d)).1

/-- The name is what `get_link` reads of one of the two links. -/
def Excluded (t : Node) (x : String) : Prop :=
  x = getLink t "working" ∨ x = getLink t "finishing"

/-- A backup that is not passed over. -/
structure Taken (t : Node) (x : String) (d : Bytes) : Prop where
  backup : IsBackup t x d
  free : ¬ Excluded t x

section Collect

variable {t : Node}

theorem readTimestamp_ne_nil {d buf : Bytes} (hd : d ≠ []) :
    readTimestamp 32 buf (some d) = readTimestamp 32 [] (some d) := by
  simp only [readTimestamp, if_neg hd]

/-- What the buffer of `read_timestamp` holds: nothing, or the line of a backup that has been
taken. -/
def Holds (t : Node) (buf : Bytes) : Prop :=
  buf = [] ∨ ∃ x d, Taken t x d ∧ buf = (readTimestamp 32 [] (some d)).1

theorem holds_line {x : String} {d : Bytes} (hfree : ¬ Excluded t x) (hdir : IsDir t [x])
    (hts : regular t [x, "timestamp"] = some d) :
    Holds t (readTimestamp 32 [] (some d)).1 := by
  by_cases hread : (readTimestamp 32 [] (some d)).2 = true
  · exact Or.inr ⟨x, d, ⟨⟨hdir, hts, hread⟩, hfree⟩, rfl⟩
  · left
    unfold readTimestamp at hread ⊢
    simpa using hread

/-- One turn of the loop: the entry is passed over, or it is taken with the index of a backup
that has been read. -/
theorem found_cases {buf : Bytes} {name : String} (hbuf : Holds t buf) :
    Holds t (found t buf name).1 ∧ ∀ b, (found t buf name).2 = some b →
      b.path = name ∧ ¬ Excluded t name ∧ ∃ x d, Taken t x d ∧ b.index = indexOf d := by
  unfold found
  split_ifs with hlinks hnode
  · exact ⟨hbuf, fun b hb => by cases hb⟩
  · exact ⟨hbuf, fun b hb => by cases hb⟩
  · cases hts : regular t [name, "timestamp"] with
    | none => exact ⟨hbuf, fun b hb => by cases hb⟩
    | some d =>
        have hlook : look t ([name] ++ ["timestamp"]) ≠ none := by
          intro hnone
          have hnone' : look t [name, "timestamp"] = none := hnone
          unfold regular at hts
          rw [hnone'] at hts
          cases hts
        have hdir : IsDir t [name] := isDir_of_look_append (by simp) hlook
        -- what is in the buffer after this turn
        have hline : Holds t (readTimestamp 32 buf (some d)).1 := by
          by_cases hd : d = []
          · subst hd
            exact hbuf
          · rw [readTimestamp_ne_nil hd]
            exact holds_line hlinks hdir hts
        have hsecond : (readTimestamp 32 buf (some d)).2
            = decide ((readTimestamp 32 buf (some d)).1 ≠ []) := rfl
        simp only
        split
        next buf' heq =>
          rw [heq] at hline
          exact ⟨hline, fun b hb => by cases hb⟩
        next buf' heq =>
          rw [heq] at hline hsecond
          have hne : buf' ≠ [] := of_decide_eq_true hsecond.symm
          refine ⟨hline, fun b hb => ?_⟩
          cases hb
          refine ⟨rfl, hlinks, ?_⟩
          rcases hline with hnil | hheld
          · exact absurd hnil hne
          · obtain ⟨x, e, htaken, he⟩ := hheld
            exact ⟨x, e, htaken, by rw [indexOf, ← he]⟩

/-- **What is found** has a name that is not passed over, and the index of a backup. -/
theorem mem_collect_taken {b : Bu} {names : List String} {buf : Bytes} (hbuf : Holds t buf)
    (h : b ∈ collect t buf names) :
    ¬ Excluded t b.path ∧ ∃ x d, Taken t x d ∧ b.index = indexOf d := by
  induction names generalizing buf with
  | nil => simp [collect] at h
  | cons name names ih =>
      obtain ⟨hnext, hfound⟩ := @found_cases t buf name hbuf
      rw [collect, List.mem_append] at h
      rcases h with h | h
      · obtain ⟨hpath, hfree, hindex⟩ := hfound b (Option.mem_toList.mp h)
        rw [hpath]
        exact ⟨hfree, hindex⟩
      · exact ih hnext h

/-- **A backup that is not passed over is found**, with its own index. -/
theorem taken_mem_collect {x : String} {d : Bytes} (h : Taken t x d) {names : List String}
    (hx : x ∈ names) (buf : Bytes) :
    ∃ b ∈ collect t buf names, b.path = x ∧ b.index = indexOf d := by
  have hd : d ≠ [] := by
    rintro rfl
    exact absurd h.backup.readable (by decide)
  induction names generalizing buf with
  | nil => cases hx
  | cons name names ih =>
      rw [collect]
      rcases List.mem_cons.mp hx with rfl | hx
      · have hfound : (found t buf x).2
            = some { path := x, hardlinked := decide (look t [x, "hardlinked"] ≠ none),
                     index := indexOf d } := by
          have hread := h.backup.readable
          have hfree : ¬ (x = getLink t "working" ∨ x = getLink t "finishing") := h.free
          unfold found
          rw [if_neg hfree, if_neg (fun hnode => hnode.2 h.backup.dir), h.backup.timestamp]
          simp only [readTimestamp_ne_nil hd]
          split
          next heq => rw [heq] at hread; cases hread
          next heq => rw [indexOf, heq]
        exact ⟨_, List.mem_append_left _ (Option.mem_toList.mpr hfound), rfl, rfl⟩
      · obtain ⟨b, hb, hpath, hindex⟩ := ih hx (found t buf name).1
        exact ⟨b, List.mem_append_right _ hb, hpath, hindex⟩

end Collect

/-! ## §3. The array. -/

section Array

variable {t : Node} {es : Entries} {arr : List Bu}

/-- The array is sorted by index, whether or not the indexes are distinct. -/
theorem le_newestIndex_of_found {fs : List Bu} :
    ∀ b ∈ Backups.getCurrentBackups fs, b.index ≤ newestIndex (Backups.getCurrentBackups fs) := by
  have hsorted : ((Backups.getCurrentBackups fs).map Bu.index).Pairwise (· ≤ ·) := by
    rw [getCurrentBackups_map_index, List.pairwise_map]
    exact List.pairwise_insertionSort buLe _
  intro b hb
  rw [newestIndex_eq]
  have hmem := List.mem_map_of_mem (f := Bu.index) hb
  have hne := List.ne_nil_of_mem hmem
  rw [List.getLast?_eq_getLast_of_ne_nil hne, Option.getD_some]
  rw [← List.dropLast_append_getLast hne] at hsorted hmem
  rcases List.mem_append.mp hmem with hinit | hlast
  · exact (List.pairwise_append.mp hsorted).2.2 _ hinit _ (List.mem_singleton_self _)
  · rw [List.mem_singleton.mp hlast]

/-- The directories of the array, and their indexes. -/
theorem mem_array (harr : getCurrentBackups.result (.dir es) = some arr) {b : Bu} (hb : b ∈ arr) :
    ¬ Excluded (.dir es) b.path ∧ ∃ x d, Taken (.dir es) x d ∧ b.index = indexOf d := by
  rw [getCurrentBackups_result rfl] at harr
  obtain rfl := Option.some.inj harr
  constructor
  · have hpath := (mem_path_getCurrentBackups _ b.path).mp (List.mem_map_of_mem hb)
    obtain ⟨c, hc, hcb⟩ := List.mem_map.mp hpath
    rw [← hcb]
    exact (mem_collect_taken (Or.inl rfl) hc).1
  · have hindex := (mem_index_getCurrentBackups _ b.index).mp (List.mem_map_of_mem hb)
    obtain ⟨c, hc, hcb⟩ := List.mem_map.mp hindex
    rw [← hcb]
    exact (mem_collect_taken (Or.inl rfl) hc).2

theorem taken_mem_array (harr : getCurrentBackups.result (.dir es) = some arr) {x : String}
    {d : Bytes} (h : Taken (.dir es) x d) :
    x ∈ arr.map Bu.path ∧ indexOf d ∈ arr.map Bu.index := by
  obtain ⟨b, hb, hpath, hindex⟩ := taken_mem_collect h (mem_names h.backup.dir) []
  rw [getCurrentBackups_result rfl] at harr
  obtain rfl := Option.some.inj harr
  constructor
  · rw [mem_path_getCurrentBackups, ← hpath]
    exact List.mem_map_of_mem hb
  · rw [mem_index_getCurrentBackups, ← hindex]
    exact List.mem_map_of_mem hb

end Array

/-! ## §4. The backup in progress. -/

/-- One of the two links points to a backup. -/
structure InProgress (t : Node) (x : String) : Prop where
  link : ∃ lnk, (lnk = "working" ∨ lnk = "finishing") ∧ look t [lnk] = some (.symlink x)
  backup : ∃ d, IsBackup t x d

/-- What is meant to hold of the array: a backup in progress is not in it, nor is it ever
deleted, and the next index is greater than all in it. -/
structure Separate (t : Node) (arr : List Bu) : Prop where
  passed : ∀ x, InProgress t x → x ∉ arr.map Bu.path
  kept : ∀ x, InProgress t x → ∀ keep, x ∉ (Backups.doRemoveOldBackups keep arr).map Bu.path
  newer : ∀ b ∈ arr, b.index < newIndex arr

section Separate

variable {t : Node} {es : Entries} {arr : List Bu} {x lnk : String}

theorem getLink_eq (h : look t [lnk] = some (.symlink x)) :
    getLink t lnk = String.ofList (x.toList.take 31) := by
  unfold getLink
  rw [h]

theorem getLink_length (t : Node) (lnk : String) : (getLink t lnk).toList.length ≤ 31 := by
  unfold getLink
  split
  · rw [String.toList_ofList]
    exact List.length_take_le _ _
  · exact Nat.zero_le _

/-- A link is read in full if its target fits. -/
theorem getLink_of_le (h : look t [lnk] = some (.symlink x)) (hx : x.toList.length ≤ 31) :
    getLink t lnk = x := by
  rw [getLink_eq h, List.take_of_length_le hx, String.ofList_toList]

theorem InProgress.excluded (h : InProgress t x) (hx : x.toList.length ≤ 31) : Excluded t x := by
  obtain ⟨lnk, hlnk, hlook⟩ := h.link
  rcases hlnk with rfl | rfl
  · exact Or.inl (getLink_of_le hlook hx).symm
  · exact Or.inr (getLink_of_le hlook hx).symm

theorem not_excluded_of_long (hx : 31 < x.toList.length) : ¬ Excluded t x := by
  rintro (h | h)
  · have := getLink_length t "working"
    rw [← h] at this
    omega
  · have := getLink_length t "finishing"
    rw [← h] at this
    omega

theorem indexOf_lt (d : Bytes) : indexOf d < 2 ^ 64 := by
  unfold indexOf strtoul
  simp only
  split
  all_goals
    simp only
    split_ifs <;> omega

/-- **The backup in progress is kept apart** exactly if the target of a link that points to a
backup has at most 31 characters, and no backup that is not passed over has the last index. -/
theorem separate_iff (harr : getCurrentBackups.result (.dir es) = some arr) :
    Separate (.dir es) arr
      ↔ (∀ x, InProgress (.dir es) x → x.toList.length ≤ 31)
        ∧ ∀ x d, Taken (.dir es) x d → indexOf d ≠ 2 ^ 64 - 1 := by
  have hle : ∀ b ∈ arr, b.index ≤ newestIndex arr := by
    rw [getCurrentBackups_result rfl] at harr
    obtain rfl := Option.some.inj harr
    exact le_newestIndex_of_found
  constructor
  · intro h
    constructor
    · intro x hx
      by_contra hlong
      obtain ⟨d, hd⟩ := hx.backup
      exact h.passed x hx
        (taken_mem_array harr ⟨hd, not_excluded_of_long (by omega)⟩).1
    · intro x d htaken hlast
      obtain ⟨b, hb, hindex⟩ := List.mem_map.mp (taken_mem_array harr htaken).2
      have hnew := h.newer b hb
      have hnewest := hle b hb
      unfold newIndex at hnew
      omega
  · intro h
    have hpassed : ∀ x, InProgress (.dir es) x → x ∉ arr.map Bu.path := by
      intro x hx hmem
      obtain ⟨b, hb, rfl⟩ := List.mem_map.mp hmem
      exact (mem_array harr hb).1 (hx.excluded (h.1 _ hx))
    constructor
    · exact hpassed
    · intro x hx keep hmem
      obtain ⟨b, hb, hpath⟩ := List.mem_map.mp hmem
      exact hpassed x hx (List.mem_map.mpr ⟨b, mem_of_mem_doRemoveOldBackups hb, hpath⟩)
    · intro b hb
      -- the newest index is the one of a backup, and so not the last
      obtain ⟨c, hc, hnewest⟩ := newestIndex_mem (List.ne_nil_of_mem hb)
      obtain ⟨-, x, d, htaken, hcd⟩ := mem_array harr hc
      have hlast := h.2 x d htaken
      have hlt := indexOf_lt d
      have hbn := hle b hb
      unfold newIndex
      omega

end Separate

/-- A directory with its own name as timestamp, and `working` pointing to it. -/
def beingMade (x : String) : Entries :=
  [("working", .symlink x),
   (x, .dir [("timestamp", .file 1 (x.toList.map fun c => UInt8.ofNat c.toNat))])]

/-- The name of a format with the day of the week. -/
def withWeekday : String := "0000001 2023-11-15 22:13:20 Wednesday"

/-- The backup that is being made, in the format with the day of the week, is taken for a
finished one. -/
theorem weekday_not_separate :
    ¬ ∀ (es : Entries) (arr : List Bu), getCurrentBackups.result (.dir es) = some arr →
      Separate (.dir es) arr := by
  intro h
  have hsep := h (beingMade withWeekday) _ rfl
  apply hsep.passed withWeekday
  · refine ⟨⟨"working", Or.inl rfl, by decide⟩, _, ⟨?_, rfl, ?_⟩⟩
    all_goals decide
  · decide

theorem separate_iff_beingMade :
    Separate (.dir (beingMade "0000001 2023-11-15"))
        (Backups.getCurrentBackups
          (collect (.dir (beingMade "0000001 2023-11-15")) []
            ((beingMade "0000001 2023-11-15").map Prod.fst)))
      ↔ (∀ x, InProgress (.dir (beingMade "0000001 2023-11-15")) x → x.toList.length ≤ 31)
        ∧ ∀ x d, Taken (.dir (beingMade "0000001 2023-11-15")) x d → indexOf d ≠ 2 ^ 64 - 1 :=
  separate_iff (getCurrentBackups_result rfl)

end Burp.Backups.OnDisk
