/-
  Burp.Conf.Arguments — lists of arguments in a configuration (conf.c, strlist.c).

  `struct config` keeps an array of values and its length apart.  While a file is read, the values
  are in an array of `struct llists`, and their number is counted in the configuration already.  A
  client starts with the values of the server, which its own ones replace, and a client that gets
  its include lists from the server reads a second text into its configuration.

  Main results:
    * `loadArgs_first` — a first configuration, and when it uses memory that it has freed.
    * `arguments_lost` — after a second text has been read the scripts of a client have lost their
      arguments, and can only be run if they had none.
    * `arguments_inherited` — what a client inherits from the server, and when an argument of a
      server script is read that is not there.
-/
import Burp.Conf.Incexc

namespace Burp.Conf.Arguments

open FileSystem
open Burp.Phase2 (nameBytes)
open Burp.Text (tokens)

/-! ## §1. Arrays. -/

/-- A `struct strlist **`: an array, in which an entry may never have been written, or one that has
been freed. -/
inductive Strlists
  | null
  | array (entries : List (Option Bytes))
  | freed
  deriving DecidableEq

/-- The text of an entry.  Behind the end, and where nothing has been written, there is none. -/
def Strlists.path (list : Strlists) (i : Nat) : Option Bytes :=
  match list with
  | .array entries => entries[i]?.join
  | _ => none

/-- `strlists_free`, and what the pointer is then. -/
def strlistsFree (list : Strlists) (count : Nat) : Option Strlists :=
  match list with
  | .null => some .null
  | .array entries => if ∀ i < count, ((Strlists.array entries).path i).isSome then some .freed else none
  | .freed => none

/-- `strlist_add`, which asks for one more entry than there are. -/
def strlistAdd (list : Strlists × Nat) (path : Bytes) : Option (Strlists × Nat) :=
  match list.1 with
  | .null => some (.array (List.replicate list.2 none ++ [some path]), list.2 + 1)
  | .array entries => some (.array (entries.takeD list.2 none ++ [some path]), list.2 + 1)
  | .freed => none

/-- The arguments of a script that `run_script` takes from a list, if there is room for so many. -/
def userArgs (list : Strlists) (count room : Nat) : Option (List Bytes) :=
  (List.range (min count room)).mapM list.path

/-! ## §2. Options. -/

inductive Script
  | server
  | backup
  | restore
  deriving DecidableEq

/-- The options that are lists of arguments, or of that kind. -/
inductive ArgOpt
  | keep
  | timerArg
  | notifySuccessArg
  | notifyFailureArg
  | restoreClient
  | scriptPreArg (s : Script)
  | scriptPostArg (s : Script)
  | scriptArg (s : Script)
  deriving DecidableEq

/-- The options that the reader has a `got_args` for: those that a client can have from the
server. -/
def ArgOpt.hasGot : ArgOpt → Bool
  | .scriptPreArg s => s = .server
  | .scriptPostArg s => s = .server
  | .scriptArg s => s = .server
  | _ => true

def argOptions : List (Bytes × ArgOpt) :=
  [(nameBytes "keep", .keep),
    (nameBytes "timer_arg", .timerArg),
    (nameBytes "notify_success_arg", .notifySuccessArg),
    (nameBytes "notify_failure_arg", .notifyFailureArg),
    (nameBytes "backup_script_pre_arg", .scriptPreArg .backup),
    (nameBytes "backup_script_post_arg", .scriptPostArg .backup),
    (nameBytes "restore_script_pre_arg", .scriptPreArg .restore),
    (nameBytes "restore_script_post_arg", .scriptPostArg .restore),
    (nameBytes "server_script_pre_arg", .scriptPreArg .server),
    (nameBytes "server_script_post_arg", .scriptPostArg .server),
    (nameBytes "backup_script_arg", .scriptArg .backup),
    (nameBytes "restore_script_arg", .scriptArg .restore),
    (nameBytes "server_script_arg", .scriptArg .server),
    (nameBytes "restore_client", .restoreClient)]

/-- `struct config`: arrays and their lengths. -/
structure Args where
  list : ArgOpt → Strlists
  count : ArgOpt → Nat

/-- `init_config`. -/
def initArgs : Args where
  list := fun _ => .null
  count := fun _ => 0

/-- `struct llists`. -/
structure ArgLists where
  list : ArgOpt → Strlists
  got : ArgOpt → Nat

/-- While a file is read. -/
structure Reading where
  conf : Args
  l : ArgLists

/-! ## §3. Reading. -/

/-- Before the first line, with `set_got_args`. -/
def setGotArgs (conf : Args) : Reading where
  conf := conf
  l :=
    { list := fun _ => .null
      got := fun o => if o.hasGot then conf.count o else 0 }

/-- `get_conf_val_args`, of the option of the line. -/
def getConfValArgs (o : ArgOpt) (path : Bytes) (r : Reading) : Option Reading :=
  -- the values that were there before go with the first new one
  if r.l.got o ≠ 0 then
    (strlistsFree (r.conf.list o) (r.conf.count o)).bind fun _ =>
      (strlistAdd (r.l.list o, 0) path).map fun list =>
        { conf :=
            { list := Function.update r.conf.list o .null
              count := Function.update r.conf.count o list.2 }
          l :=
            { list := Function.update r.l.list o list.1
              got := Function.update r.l.got o 0 } }
  else
    (strlistAdd (r.l.list o, r.conf.count o) path).map fun list =>
      { conf := { r.conf with count := Function.update r.conf.count o list.2 }
        l := { r.l with list := Function.update r.l.list o list.1 } }

/-- The lines of a file, as fields and values. -/
def loadArgLines : List (Bytes × Bytes) → Reading → Option Reading
  | [], r => some r
  | (field, value) :: lines, r =>
      match argOptions.lookup field with
      | some o => (getConfValArgs o value r).bind (loadArgLines lines)
      | none => loadArgLines lines r

/-- One text of the list that is for both scripts. -/
def addBoth (list : Strlists) (lists : (Strlists × Nat) × (Strlists × Nat)) (i : Nat) :
    Option ((Strlists × Nat) × (Strlists × Nat)) :=
  (list.path i).bind fun path =>
    (strlistAdd lists.1 path).bind fun pre => (strlistAdd lists.2 path).map fun post => (pre, post)

/-- `setup_script_arg_override`: the lists for both scripts, from one that is for both of them. -/
def setupScriptArgOverride (list : Strlists) (count : Nat) (pre post : Strlists × Nat) :
    Option ((Strlists × Nat) × (Strlists × Nat)) :=
  match list with
  | .null => some (pre, post)
  | list =>
      (strlistsFree pre.1 pre.2).bind fun pre =>
        (strlistsFree post.1 post.2).bind fun post =>
          -- the two pointers have not been set to NULL
          (List.range count).foldlM (addBoth list) ((pre, 0), (post, 0))

/-- The new list, if there is one, or else the one that was there before. -/
def Reading.taken (r : Reading) (o : ArgOpt) : Strlists :=
  if r.l.got o = 0 then r.l.list o else r.conf.list o

/-- The list that is for both scripts. -/
def Reading.both (r : Reading) : Script → Strlists
  | .server => r.taken (.scriptArg .server)
  | s => r.l.list (.scriptArg s)

def Reading.override (r : Reading) (s : Script) : Option ((Strlists × Nat) × (Strlists × Nat)) :=
  setupScriptArgOverride (r.both s) (r.conf.count (.scriptArg s))
    (r.l.list (.scriptPreArg s), r.conf.count (.scriptPreArg s))
    (r.l.list (.scriptPostArg s), r.conf.count (.scriptPostArg s))

/-- The arrays and lengths that go into the configuration. -/
def Reading.result (r : Reading) (lists : Script → (Strlists × Nat) × (Strlists × Nat)) : Args where
  list
    | .scriptPreArg s =>
        if r.l.got (.scriptPreArg s) = 0 then (lists s).1.1 else r.conf.list (.scriptPreArg s)
    | .scriptPostArg s =>
        if r.l.got (.scriptPostArg s) = 0 then (lists s).2.1 else r.conf.list (.scriptPostArg s)
    | .scriptArg .server => r.taken (.scriptArg .server)
    | .scriptArg s => r.conf.list (.scriptArg s)
    | o => r.taken o
  count
    | .scriptPreArg s => (lists s).1.2
    | .scriptPostArg s => (lists s).2.2
    | o => r.conf.count o

/-- `finalise_config`.  Values of 'keep' that it refuses are not looked at here. -/
def finaliseArgs (r : Reading) : Option Args :=
  if r.l.got .keep = 0 ∧ ¬ ∀ i < r.conf.count .keep, ((r.l.list .keep).path i).isSome then none
  else
    (r.override .backup).bind fun backup =>
      (r.override .restore).bind fun restore =>
        (r.override .server).map fun server =>
          r.result fun
            | .backup => backup
            | .restore => restore
            | .server => server

/-- `load_config`, and `parse_incexcs_buf`, which reads the lines of the server into a
configuration that has been loaded. -/
def loadArgs (lines : List (Bytes × Bytes)) (conf : Args) : Option Args :=
  (loadArgLines lines (setGotArgs conf)).bind finaliseArgs

/-! ### What a client has from the server. -/

/-- The options of `set_client_global_config`. -/
def globalOptions : List ArgOpt :=
  [.timerArg, .notifySuccessArg, .notifyFailureArg, .keep, .scriptPreArg .server,
    .scriptPostArg .server, .scriptArg .server, .restoreClient]

/-- `set_global_arglist`, for a configuration in which nothing has been set. -/
def setGlobalArglist (src : Strlists) (srccount : Nat) : Option (Strlists × Nat) :=
  match src with
  | .null => some (.null, 0)
  | src =>
      (List.range srccount).foldlM (fun list i => (src.path i).bind (strlistAdd list)) (.null, 0)

/-- `set_client_global_config`. -/
def setClientGlobalArgs (conf : Args) : Option Args :=
  globalOptions.foldlM (fun cconf o =>
    (setGlobalArglist (conf.list o) (conf.count o)).map fun list =>
      { list := Function.update cconf.list o list.1
        count := Function.update cconf.count o list.2 }) initArgs

/-- `load_client_config`, with the lines of the file of the client. -/
def loadClientArgs (conf : Args) (lines : List (Bytes × Bytes)) : Option Args :=
  (setClientGlobalArgs conf).bind (loadArgs lines)

/-! ## §4. Arrays and their values. -/

/-- The array of some values. -/
def listOf (values : List Bytes) : Strlists :=
  if values = [] then .null else .array (values.map some)

section Values

variable {values : List Bytes} {i : Nat}

theorem path_listOf (h : i < values.length) : (listOf values).path i = values[i]? := by
  have hne : values ≠ [] := List.ne_nil_of_length_pos (Nat.zero_lt_of_lt h)
  unfold listOf Strlists.path
  rw [if_neg hne]
  show ((values.map some)[i]?).join = _
  rw [List.getElem?_map, List.getElem?_eq_getElem h]
  rfl

theorem path_listOf_outside (h : values.length ≤ i) : (listOf values).path i = none := by
  unfold listOf Strlists.path
  split_ifs
  · rfl
  · show ((values.map some)[i]?).join = none
    rw [List.getElem?_eq_none (by rwa [List.length_map])]
    rfl

/-- The list of the values can be freed. -/
theorem strlistsFree_listOf (values : List Bytes) :
    strlistsFree (listOf values) values.length = some (if values = [] then .null else .freed) := by
  by_cases hne : values = []
  · subst hne
    rfl
  · have hall : ∀ i < values.length, ((Strlists.array (values.map some)).path i).isSome := by
      intro i hi
      have hpath := path_listOf hi
      rw [listOf, if_neg hne] at hpath
      rw [hpath, List.getElem?_eq_getElem hi]
      rfl
    rw [listOf, if_neg hne, if_neg hne]
    exact if_pos hall

theorem strlistAdd_listOf (values : List Bytes) (path : Bytes) :
    strlistAdd (listOf values, values.length) path
      = some (listOf (values ++ [path]), (values ++ [path]).length) := by
  have hadded : listOf (values ++ [path]) = .array (values.map some ++ [some path]) := by
    rw [listOf, if_neg (by simp), List.map_append]
    rfl
  rw [hadded, List.length_append]
  by_cases hne : values = []
  · subst hne
    rfl
  · have htake : (values.map some).takeD values.length none = values.map some := by
      rw [List.takeD_eq_take none (by rw [List.length_map]),
        List.take_of_length_le (by rw [List.length_map])]
    rw [listOf, if_neg hne]
    unfold strlistAdd
    dsimp only
    rw [htake]
    rfl

/-- The arguments that a script is given. -/
theorem userArgs_listOf (values : List Bytes) (count room : Nat) :
    userArgs (listOf values) count room
      = if min count room ≤ values.length then some (values.take (min count room)) else none := by
  unfold userArgs
  generalize min count room = n
  induction n with
  | zero => rw [if_pos (Nat.zero_le _)]; rfl
  | succ n ih =>
      have hone : [n].mapM (listOf values).path = ((listOf values).path n).map fun path => [path] := by
        cases h : (listOf values).path n <;> simp [h]
      rw [List.range_succ, List.mapM_append, ih, hone]
      by_cases hn : n + 1 ≤ values.length
      · rw [if_pos (Nat.le_of_succ_le hn), if_pos hn, path_listOf hn, List.getElem?_eq_getElem hn,
          List.take_succ_eq_append_getElem hn]
        rfl
      · rw [path_listOf_outside (Nat.le_of_not_lt hn), if_neg hn]
        split_ifs <;> rfl

/-- One value after the other makes the list of them. -/
theorem foldlM_add {n : Nat} (hn : n ≤ values.length) :
    (List.range n).foldlM (fun list i => ((listOf values).path i).bind (strlistAdd list)) (.null, 0)
      = some (listOf (values.take n), n) := by
  induction n with
  | zero => rfl
  | succ n ih =>
      have hlength : (values.take n).length = n := List.length_take_of_le (Nat.le_of_succ_le hn)
      have hadd := strlistAdd_listOf (values.take n) values[n]
      rw [hlength, List.length_append, hlength, List.take_append_getElem hn] at hadd
      rw [List.range_succ, List.foldlM_append, ih (Nat.le_of_succ_le hn)]
      show (((listOf values).path n).bind _).bind some = _
      rw [path_listOf hn, List.getElem?_eq_getElem hn]
      show (strlistAdd _ _).bind some = _
      rw [hadd]
      rfl

theorem setGlobalArglist_listOf (values : List Bytes) :
    setGlobalArglist (listOf values) values.length = some (listOf values, values.length) := by
  by_cases hne : values = []
  · subst hne
    rfl
  · have hall := foldlM_add (le_refl values.length)
    rw [List.take_length] at hall
    rw [listOf, if_neg hne] at hall ⊢
    exact hall

theorem foldlM_addBoth {n : Nat} (hn : n ≤ values.length) :
    (List.range n).foldlM (addBoth (listOf values)) ((.null, 0), (.null, 0))
      = some ((listOf (values.take n), n), (listOf (values.take n), n)) := by
  induction n with
  | zero => rfl
  | succ n ih =>
      have hlength : (values.take n).length = n := List.length_take_of_le (Nat.le_of_succ_le hn)
      have hadd := strlistAdd_listOf (values.take n) values[n]
      rw [hlength, List.length_append, hlength, List.take_append_getElem hn] at hadd
      rw [List.range_succ, List.foldlM_append, ih (Nat.le_of_succ_le hn)]
      show (addBoth _ _ n).bind some = _
      unfold addBoth
      rw [path_listOf hn, List.getElem?_eq_getElem hn]
      show ((strlistAdd _ _).bind _).bind some = _
      rw [hadd]
      rfl

/-- What has become of a list that has been freed. -/
theorem strlistsFree_cases (list : Strlists) (count : Nat) :
    list = .null ∧ strlistsFree list count = some .null
      ∨ list ≠ .null ∧ (strlistsFree list count = none ∨ strlistsFree list count = some .freed) := by
  cases list with
  | null => exact Or.inl ⟨rfl, rfl⟩
  | array entries =>
      refine Or.inr ⟨nofun, ?_⟩
      unfold strlistsFree
      dsimp only
      split_ifs
      · exact Or.inr rfl
      · exact Or.inl rfl
  | freed => exact Or.inr ⟨nofun, Or.inl rfl⟩

/-- The list for both scripts goes where no other list was.  Otherwise that one is freed and then
used. -/
theorem setupScriptArgOverride_listOf (values : List Bytes) (pre post : Strlists × Nat) :
    setupScriptArgOverride (listOf values) values.length pre post
      = if values = [] then some (pre, post)
        else if pre.1 = .null ∧ post.1 = .null then
          some ((listOf values, values.length), (listOf values, values.length))
        else none := by
  by_cases hne : values = []
  · subst hne
    rfl
  rw [if_neg hne]
  have heq : setupScriptArgOverride (listOf values) values.length pre post
      = (strlistsFree pre.1 pre.2).bind fun pre => (strlistsFree post.1 post.2).bind fun post =>
        (List.range values.length).foldlM (addBoth (listOf values)) ((pre, 0), (post, 0)) := by
    rw [listOf, if_neg hne]
    rfl
  -- nothing can be added to a list that has been freed
  have hfault : ∀ pre post : Strlists, pre = .freed ∨ post = .freed →
      (List.range values.length).foldlM (addBoth (listOf values)) ((pre, 0), (post, 0)) = none := by
    intro pre post hfreed
    have hpos : 0 < values.length := List.length_pos_of_ne_nil hne
    have hadd : addBoth (listOf values) ((pre, 0), (post, 0)) 0 = none := by
      unfold addBoth
      rw [path_listOf hpos, List.getElem?_eq_getElem hpos]
      rcases hfreed with rfl | rfl
      · rfl
      · cases pre <;> rfl
    obtain ⟨n, hn⟩ := Nat.exists_eq_succ_of_ne_zero hpos.ne'
    rw [hn, List.range_succ_eq_map, List.foldlM_cons, hadd]
    rfl
  rw [heq]
  rcases strlistsFree_cases pre.1 pre.2 with ⟨hpre, hfree⟩ | ⟨hpre, hfree⟩
  · rw [hfree]
    rcases strlistsFree_cases post.1 post.2 with ⟨hpost, hfree⟩ | ⟨hpost, hfree⟩
    · have hall := foldlM_addBoth (le_refl values.length)
      rw [List.take_length] at hall
      rw [hfree, if_pos ⟨hpre, hpost⟩]
      exact hall
    · rw [if_neg fun h => hpost h.2]
      rcases hfree with hfree | hfree
      · rw [hfree]
        rfl
      · rw [hfree]
        exact hfault _ _ (Or.inr rfl)
  · rw [if_neg fun h => hpre h.1]
    rcases hfree with hfree | hfree
    · rw [hfree]
      rfl
    · rw [hfree]
      rcases strlistsFree_cases post.1 post.2 with ⟨-, hfree⟩ | ⟨-, hfree | hfree⟩
      · rw [hfree]
        exact hfault _ _ (Or.inl rfl)
      · rw [hfree]
        rfl
      · rw [hfree]
        exact hfault _ _ (Or.inl rfl)

end Values

/-! ## §5. While lines are read. -/

/-- The values that the lines give to an option. -/
def own (o : ArgOpt) (lines : List (Bytes × Bytes)) : List Bytes :=
  lines.filterMap fun l => if argOptions.lookup l.1 = some o then some l.2 else none

/-- Where the first value goes: an option of the other kind still has the length of the array that
was there before. -/
def base (conf : Args) (o : ArgOpt) : Nat := if o.hasGot then 0 else conf.count o

/-- After some values of an option have been read. -/
structure After (conf : Args) (o : ArgOpt) (values : List Bytes) (r : Reading) : Prop where
  list : r.l.list o = if values = [] then .null
    else .array (List.replicate (base conf o) none ++ values.map some)
  count : r.conf.count o = if values = [] then conf.count o else base conf o + values.length
  got : r.l.got o = if values = [] then (setGotArgs conf).l.got o else 0
  before : r.conf.list o = if values ≠ [] ∧ (setGotArgs conf).l.got o ≠ 0 then .null else conf.list o

theorem base_of_got {conf : Args} {o : ArgOpt} :
    ((setGotArgs conf).l.got o = 0 → base conf o = conf.count o)
      ∧ ((setGotArgs conf).l.got o ≠ 0 → base conf o = 0) := by
  unfold base setGotArgs
  dsimp only
  cases o.hasGot with
  | true => exact ⟨fun h => h.symm, fun _ => rfl⟩
  | false => exact ⟨fun _ => rfl, fun h => absurd rfl h⟩

/-- The arrays of a configuration, where they are replaced, can be freed. -/
def Frees (conf : Args) : Prop :=
  ∀ o, (setGotArgs conf).l.got o ≠ 0 → strlistsFree (conf.list o) (conf.count o) ≠ none

section Reading

variable {conf : Args} {o : ArgOpt} {values : List Bytes} {r r' : Reading} {v : Bytes}

theorem after_start (conf : Args) (o : ArgOpt) : After conf o [] (setGotArgs conf) :=
  ⟨rfl, rfl, rfl, rfl⟩

theorem After.add (hconf : Frees conf) (h : After conf o values r) (v : Bytes) :
    ∃ r', getConfValArgs o v r = some r' ∧ After conf o (values ++ [v]) r'
      ∧ ∀ o' values', o' ≠ o → After conf o' values' r → After conf o' values' r' := by
  have hne : values ++ [v] ≠ [] := by simp
  have hother : ∀ r' : Reading, (∀ o', o' ≠ o → r'.l.list o' = r.l.list o'
        ∧ r'.conf.count o' = r.conf.count o' ∧ r'.l.got o' = r.l.got o'
        ∧ r'.conf.list o' = r.conf.list o') →
      ∀ o' values', o' ≠ o → After conf o' values' r → After conf o' values' r' := by
    intro r' hsame o' values' ho' h'
    obtain ⟨hlist, hcount, hgot, hbefore⟩ := hsame o' ho'
    exact ⟨hlist.trans h'.list, hcount.trans h'.count, hgot.trans h'.got, hbefore.trans h'.before⟩
  by_cases hgot : r.l.got o = 0
  · -- the value goes behind those that have been read, or that are counted
    obtain ⟨entries, hadd, hentries⟩ : ∃ entries, strlistAdd (r.l.list o, r.conf.count o) v
          = some (.array entries, base conf o + (values ++ [v]).length)
        ∧ entries = List.replicate (base conf o) none ++ (values ++ [v]).map some := by
      by_cases hnil : values = []
      · subst hnil
        have hbase : base conf o = conf.count o := base_of_got.1 (h.got.symm.trans hgot)
        rw [h.list, h.count, if_pos rfl, if_pos rfl, ← hbase]
        exact ⟨_, rfl, rfl⟩
      · rw [h.list, h.count, if_neg hnil, if_neg hnil]
        have hlength : (List.replicate (base conf o) none ++ values.map some).length
            = base conf o + values.length := by
          rw [List.length_append, List.length_replicate, List.length_map]
        have htake : (List.replicate (base conf o) none ++ values.map some).takeD
            (base conf o + values.length) none = List.replicate (base conf o) none ++ values.map some := by
          rw [← hlength, List.takeD_eq_take none le_rfl, List.take_length]
        unfold strlistAdd
        dsimp only
        rw [htake, List.length_append, List.map_append, List.append_assoc]
        exact ⟨_, rfl, rfl⟩
    have hdef : getConfValArgs o v r = some
        { conf := { r.conf with
            count := Function.update r.conf.count o (base conf o + (values ++ [v]).length) }
          l := { r.l with list := Function.update r.l.list o (.array entries) } } := by
      unfold getConfValArgs
      rw [if_neg (not_not_intro hgot), hadd]
      rfl
    refine ⟨_, hdef, ⟨?_, ?_, ?_, ?_⟩, hother _ fun o' ho' => ⟨?_, ?_, rfl, rfl⟩⟩
    · rw [if_neg hne, ← hentries]
      exact Function.update_self ..
    · rw [if_neg hne]
      exact Function.update_self ..
    · rw [if_neg hne]
      exact hgot
    · show r.conf.list o = _
      rw [h.before]
      by_cases hnil : values = []
      · subst hnil
        have hgot' : (setGotArgs conf).l.got o = 0 := h.got.symm.trans hgot
        rw [if_neg fun h => h.1 rfl, if_neg fun h => h.2 hgot']
      · by_cases hgot' : (setGotArgs conf).l.got o = 0
        · rw [if_neg fun h => h.2 hgot', if_neg fun h => h.2 hgot']
        · rw [if_pos ⟨hnil, hgot'⟩, if_pos ⟨hne, hgot'⟩]
    · exact Function.update_of_ne ho' ..
    · exact Function.update_of_ne ho' ..
  · -- it is the first one, and takes the place of those that were there before
    have hnil : values = [] := by
      by_contra hnil
      exact hgot (h.got.trans (if_neg hnil))
    subst hnil
    have hgot' : (setGotArgs conf).l.got o ≠ 0 := fun h' => hgot (h.got.trans h')
    have hbase : base conf o = 0 := base_of_got.2 hgot'
    obtain ⟨_, hfree⟩ := Option.ne_none_iff_exists'.mp (hconf o hgot')
    have hlist : r.conf.list o = conf.list o := h.before.trans (if_neg fun h => h.1 rfl)
    have hdef : getConfValArgs o v r = some
        { conf :=
            { list := Function.update r.conf.list o .null
              count := Function.update r.conf.count o 1 }
          l :=
            { list := Function.update r.l.list o (.array [some v])
              got := Function.update r.l.got o 0 } } := by
      unfold getConfValArgs
      rw [if_pos hgot, hlist, h.count, if_pos rfl, hfree, h.list, if_pos rfl]
      rfl
    refine ⟨_, hdef, ⟨?_, ?_, ?_, ?_⟩, hother _ fun o' ho' => ⟨?_, ?_, ?_, ?_⟩⟩
    · rw [if_neg hne, hbase]
      exact Function.update_self ..
    · rw [if_neg hne, hbase]
      exact Function.update_self ..
    · rw [if_neg hne]
      exact Function.update_self ..
    · rw [if_pos ⟨hne, hgot'⟩]
      exact Function.update_self ..
    all_goals exact Function.update_of_ne ho' ..

/-- **After some lines** each option has the values that they give to it. -/
theorem after_loadArgLines (hconf : Frees conf) (lines : List (Bytes × Bytes))
    {given : ArgOpt → List Bytes} (h : ∀ o, After conf o (given o) r) :
    ∃ r', loadArgLines lines r = some r' ∧ ∀ o, After conf o (given o ++ own o lines) r' := by
  induction lines generalizing r given with
  | nil => exact ⟨r, rfl, fun o => by rw [own, List.filterMap_nil, List.append_nil]; exact h o⟩
  | cons line lines ih =>
      obtain ⟨field, value⟩ := line
      unfold loadArgLines
      cases hlookup : argOptions.lookup field with
      | none =>
          have hown : ∀ o, own o ((field, value) :: lines) = own o lines := fun o =>
            List.filterMap_cons_none (by rw [hlookup]; rfl)
          obtain ⟨r', hr', hafter⟩ := ih h
          exact ⟨r', hr', fun o => by rw [hown]; exact hafter o⟩
      | some o =>
          obtain ⟨r', hr', hself, hother⟩ := (h o).add hconf value
          have hown : ∀ o', own o' ((field, value) :: lines)
              = if o' = o then value :: own o' lines else own o' lines := by
            intro o'
            by_cases ho' : o' = o
            · subst ho'
              rw [if_pos rfl]
              exact List.filterMap_cons_some (by rw [hlookup]; exact if_pos rfl)
            · rw [if_neg ho']
              exact List.filterMap_cons_none (by
                rw [hlookup]
                exact if_neg fun h => ho' (Option.some.inj h).symm)
          have hafter : ∀ o', After conf o' (if o' = o then given o' ++ [value] else given o') r' := by
            intro o'
            by_cases ho' : o' = o
            · subst ho'
              rw [if_pos rfl]
              exact hself
            · rw [if_neg ho']
              exact hother o' _ ho' (h o')
          obtain ⟨r'', hr'', hafter⟩ := ih hafter
          refine ⟨r'', by dsimp only; rw [hr']; exact hr'', fun o' => ?_⟩
          have ho' := hafter o'
          rw [hown]
          by_cases heq : o' = o
          · rw [if_pos heq] at ho' ⊢
            rwa [List.append_assoc] at ho'
          · rw [if_neg heq] at ho' ⊢
            exact ho'

end Reading

/-! ## §6. After a file has been read. -/

/-- The array and the length are those of the values. -/
structure Holds (conf : Args) (o : ArgOpt) (values : List Bytes) : Prop where
  list : conf.list o = listOf values
  count : conf.count o = values.length

/-- The new values, if there are any, or else those that were there before. -/
def given (before : ArgOpt → List Bytes) (lines : List (Bytes × Bytes)) (o : ArgOpt) : List Bytes :=
  if own o lines = [] then before o else own o lines

/-- A configuration that holds these values; those of the scripts of a client have not been read
before. -/
structure Holding (conf : Args) (before : ArgOpt → List Bytes) : Prop where
  holds : ∀ o, Holds conf o (before o)
  none : ∀ o, o.hasGot = false → before o = []

/-- The options that have a list of their own. -/
def ArgOpt.whole : ArgOpt → Bool
  | .scriptPreArg _ => false
  | .scriptPostArg _ => false
  | .scriptArg s => s = .server
  | _ => true

/-- A list for one script of two: the values for both, if there are any. -/
structure OneScript (conf : Args) (o : ArgOpt) (both before given : List Bytes) : Prop where
  list : conf.list o = listOf (if both ≠ [] ∧ before = [] then both else given)
  count : conf.count o = (if both = [] then given else both).length

/-- A file that has, for some script, values for both and values for one. -/
def Twice (before : ArgOpt → List Bytes) (lines : List (Bytes × Bytes)) : Prop :=
  ∃ s, given before lines (.scriptArg s) ≠ []
    ∧ (own (.scriptPreArg s) lines ≠ [] ∨ own (.scriptPostArg s) lines ≠ [])

section File

variable {conf conf' : Args} {before : ArgOpt → List Bytes} {lines : List (Bytes × Bytes)}
  {o : ArgOpt} {values : List Bytes} {r : Reading} {s : Script}

theorem listOf_eq_null : listOf values = .null ↔ values = [] := by
  unfold listOf
  split_ifs with h
  · exact ⟨fun _ => h, fun _ => rfl⟩
  · exact ⟨fun h => absurd h nofun, fun h' => absurd h' h⟩

/-- A list that is as long as its length says is read as it is, as far as there is room. -/
theorem userArgs_whole (values : List Bytes) (room : Nat) :
    userArgs (listOf values) values.length room = some (values.take room) := by
  rw [userArgs_listOf, if_pos (min_le_left _ _), min_comm, ← List.take_eq_take_min]

theorem Holding.frees (h : Holding conf before) : Frees conf := by
  intro o _
  rw [(h.holds o).list, (h.holds o).count, strlistsFree_listOf]
  exact Option.some_ne_none _

theorem Holding.base (h : Holding conf before) (o : ArgOpt) : base conf o = 0 := by
  unfold Arguments.base
  split_ifs with ho
  · rfl
  · rw [(h.holds o).count, h.none o (Bool.eq_false_iff.mpr ho)]
    rfl

theorem Holding.got (h : Holding conf before) (o : ArgOpt) :
    (setGotArgs conf).l.got o = (before o).length := by
  show (if o.hasGot then conf.count o else 0) = _
  split_ifs with ho
  · exact (h.holds o).count
  · rw [h.none o (Bool.eq_false_iff.mpr ho)]
    rfl

theorem own_nil_of_not_twice (h : ¬ Twice before lines)
    (hboth : given before lines (.scriptArg s) ≠ []) :
    own (.scriptPreArg s) lines = [] ∧ own (.scriptPostArg s) lines = [] := by
  by_contra hown
  exact h ⟨s, hboth, not_and_or.mp hown⟩

/-! What has been read of an option. -/

theorem After.read (hconf : Holding conf before) (h : After conf o values r) :
    r.l.list o = listOf values := by
  rw [h.list, hconf.base o]
  rfl

theorem After.length (hconf : Holding conf before) (h : After conf o (own o lines) r) :
    r.conf.count o = (given before lines o).length := by
  rw [h.count, hconf.base o, (hconf.holds o).count, Nat.zero_add]
  unfold given
  split_ifs <;> rfl

theorem After.gotArgs (hconf : Holding conf before) (h : After conf o (own o lines) r) :
    r.l.got o = 0 ↔ own o lines ≠ [] ∨ before o = [] := by
  rw [h.got, hconf.got o]
  by_cases hown : own o lines = []
  · rw [if_pos hown, List.length_eq_zero_iff]
    exact ⟨Or.inr, fun h => h.resolve_left (not_not_intro hown)⟩
  · rw [if_neg hown]
    exact ⟨fun _ => Or.inl hown, fun _ => rfl⟩

theorem After.taken (hconf : Holding conf before) (h : After conf o (own o lines) r) :
    r.taken o = listOf (given before lines o) := by
  unfold Reading.taken given
  by_cases hgot : r.l.got o = 0
  · rw [if_pos hgot, h.read hconf]
    by_cases hown : own o lines = []
    · have hbefore := ((h.gotArgs hconf).mp hgot).resolve_left (not_not_intro hown)
      rw [if_pos hown, hown, hbefore]
    · rw [if_neg hown]
  · have hown : own o lines = [] := by
      by_contra hown
      exact hgot ((h.gotArgs hconf).mpr (Or.inl hown))
    rw [if_neg hgot, if_pos hown, h.before, if_neg fun h => h.1 hown]
    exact (hconf.holds o).list

/-- The lists for both scripts of a pair, one way or another. -/
theorem override_eq (hconf : Holding conf before) (h : ∀ o, After conf o (own o lines) r) (s : Script) :
    r.override s
      = if given before lines (.scriptArg s) = [] then
          some ((listOf (own (.scriptPreArg s) lines), (given before lines (.scriptPreArg s)).length),
            (listOf (own (.scriptPostArg s) lines), (given before lines (.scriptPostArg s)).length))
        else if own (.scriptPreArg s) lines = [] ∧ own (.scriptPostArg s) lines = [] then
          some ((listOf (given before lines (.scriptArg s)), (given before lines (.scriptArg s)).length),
            (listOf (given before lines (.scriptArg s)), (given before lines (.scriptArg s)).length))
        else none := by
  have hboth : r.both s = listOf (given before lines (.scriptArg s)) := by
    cases s with
    | server => exact (h _).taken hconf
    | backup | restore =>
        refine ((h _).read hconf).trans ?_
        unfold given
        split_ifs with hown
        · rw [hown, hconf.none _ rfl]
        · rfl
  unfold Reading.override
  rw [hboth, (h _).length hconf, (h _).length hconf, (h _).length hconf, (h _).read hconf,
    (h _).read hconf, setupScriptArgOverride_listOf]
  simp only [listOf_eq_null]

/-- What comes of a list for one script of two. -/
theorem After.oneScript (hconf : Holding conf before) (h : After conf o (own o lines) r)
    {both : List Bytes} (hown : both ≠ [] → own o lines = []) :
    (if r.l.got o = 0 then if both = [] then listOf (own o lines) else listOf both
        else r.conf.list o)
      = listOf (if both ≠ [] ∧ before o = [] then both else given before lines o) := by
  have htaken := h.taken hconf
  rw [Reading.taken, h.read hconf] at htaken
  by_cases hboth : both = []
  · have hnot : ¬ (both ≠ [] ∧ before o = []) := fun h => h.1 hboth
    rw [if_pos hboth, if_neg hnot]
    exact htaken
  · rw [if_neg hboth]
    by_cases hbefore : before o = []
    · rw [if_pos ((h.gotArgs hconf).mpr (Or.inr hbefore)), if_pos ⟨hboth, hbefore⟩]
    · have hgot : r.l.got o ≠ 0 := fun hgot =>
        ((h.gotArgs hconf).mp hgot).elim (fun hne => hne (hown hboth)) hbefore
      rw [if_neg hgot] at htaken ⊢
      rw [if_neg fun h => hbefore h.2]
      exact htaken

theorem loadArgs_of_read (h : loadArgLines lines (setGotArgs conf) = some r) :
    loadArgs lines conf = finaliseArgs r := by
  unfold loadArgs
  rw [h]
  rfl

theorem finaliseArgs_some (lists : Script → (Strlists × Nat) × (Strlists × Nat))
    (hkeep : ¬ (r.l.got .keep = 0
      ∧ ¬ ∀ i < r.conf.count .keep, ((r.l.list .keep).path i).isSome)) (h : ∀ s, r.override s = some (lists s)) :
    finaliseArgs r = some (r.result lists) := by
  have hlists : (fun | .backup => lists .backup | .restore => lists .restore | .server => lists .server)
      = lists := by
    funext s
    cases s <;> rfl
  unfold finaliseArgs
  rw [if_neg hkeep, h, h, h]
  exact congrArg (fun lists => some (r.result lists)) hlists

theorem finaliseArgs_none (h : r.override s = none) : finaliseArgs r = none := by
  unfold finaliseArgs
  split_ifs
  · rfl
  · cases s with
    | backup => rw [h]; rfl
    | restore => cases r.override .backup <;> rw [h] <;> rfl
    | server => cases r.override .backup <;> cases r.override .restore <;> rw [h] <;> rfl

/-- **A file, read into a configuration.** -/
theorem loadArgs_holding (hconf : Holding conf before) (lines : List (Bytes × Bytes)) :
    (loadArgs lines conf = none ↔ Twice before lines)
      ∧ ∀ conf', loadArgs lines conf = some conf' →
        (∀ o, o.whole = true → Holds conf' o (given before lines o))
          ∧ ∀ s, OneScript conf' (.scriptPreArg s) (given before lines (.scriptArg s))
              (before (.scriptPreArg s)) (given before lines (.scriptPreArg s))
            ∧ OneScript conf' (.scriptPostArg s) (given before lines (.scriptArg s))
              (before (.scriptPostArg s)) (given before lines (.scriptPostArg s)) := by
  obtain ⟨r, hr, hafter⟩ := after_loadArgLines hconf.frees lines (after_start conf)
  have hafter : ∀ o, After conf o (own o lines) r := hafter
  have hload := loadArgs_of_read hr
  have hkeep : ¬ (r.l.got .keep = 0 ∧ ¬ ∀ i < r.conf.count .keep, ((r.l.list .keep).path i).isSome) := by
    rintro ⟨hgot, hnot⟩
    apply hnot
    have htaken := (hafter .keep).taken hconf
    rw [Reading.taken, if_pos hgot] at htaken
    intro i hi
    rw [(hafter .keep).length hconf] at hi
    rw [htaken, path_listOf hi, List.getElem?_eq_getElem hi]
    rfl
  rw [hload]
  by_cases htwice : Twice before lines
  · obtain ⟨s, hboth, hown⟩ := htwice
    have hnone : r.override s = none := by
      rw [override_eq hconf hafter, if_neg hboth, if_neg (not_and_or.mpr hown)]
    rw [finaliseArgs_none hnone]
    exact ⟨⟨fun _ => ⟨s, hboth, hown⟩, fun _ => rfl⟩, fun _ h => absurd h nofun⟩
  -- no list has been freed, and there is one for each script
  have hown := fun s => own_nil_of_not_twice (s := s) htwice
  have hsome := finaliseArgs_some (fun s =>
      if given before lines (.scriptArg s) = [] then
        ((listOf (own (.scriptPreArg s) lines), (given before lines (.scriptPreArg s)).length),
          (listOf (own (.scriptPostArg s) lines), (given before lines (.scriptPostArg s)).length))
      else
        ((listOf (given before lines (.scriptArg s)), (given before lines (.scriptArg s)).length),
          (listOf (given before lines (.scriptArg s)), (given before lines (.scriptArg s)).length)))
    hkeep fun s => by
      rw [override_eq hconf hafter]
      split_ifs with hboth hnil
      · rfl
      · rfl
      · exact absurd (hown s hboth) hnil
  rw [hsome]
  refine ⟨⟨fun h => absurd h nofun, fun h => absurd h htwice⟩, fun conf' h => ?_⟩
  obtain rfl := Option.some.inj h
  refine ⟨fun o ho => ⟨?_, ?_⟩, fun s => ⟨⟨?_, ?_⟩, ?_, ?_⟩⟩
  · cases o with
    | scriptPreArg | scriptPostArg => exact absurd ho nofun
    | scriptArg s =>
        cases s with
        | server => exact (hafter _).taken hconf
        | backup | restore => exact absurd ho nofun
    | _ => exact (hafter _).taken hconf
  · cases o with
    | scriptPreArg | scriptPostArg => exact absurd ho nofun
    | _ => exact (hafter _).length hconf
  · refine Eq.trans ?_ ((hafter (.scriptPreArg s)).oneScript hconf fun hboth => (hown s hboth).1)
    show (if _ then (if _ then _ else _ : (Strlists × Nat) × (Strlists × Nat)).1.1 else _) = _
    split_ifs <;> rfl
  · show (if _ then _ else _ : (Strlists × Nat) × (Strlists × Nat)).1.2 = _
    split_ifs <;> rfl
  · refine Eq.trans ?_ ((hafter (.scriptPostArg s)).oneScript hconf fun hboth => (hown s hboth).2)
    show (if _ then (if _ then _ else _ : (Strlists × Nat) × (Strlists × Nat)).2.1 else _) = _
    split_ifs <;> rfl
  · show (if _ then _ else _ : (Strlists × Nat) × (Strlists × Nat)).2.2 = _
    split_ifs <;> rfl

end File

/-! ## §7. The first file. -/

/-- The values of an option: those for both scripts of a pair override those for one of them. -/
def effective (lines : List (Bytes × Bytes)) : ArgOpt → List Bytes
  | .scriptPreArg s =>
      if own (.scriptArg s) lines = [] then own (.scriptPreArg s) lines else own (.scriptArg s) lines
  | .scriptPostArg s =>
      if own (.scriptArg s) lines = [] then own (.scriptPostArg s) lines else own (.scriptArg s) lines
  | o => own o lines

section First

variable {conf conf' : Args} {lines : List (Bytes × Bytes)} {o : ArgOpt}

theorem holding_initArgs : Holding initArgs fun _ => [] :=
  ⟨fun _ => ⟨rfl, rfl⟩, fun _ _ => rfl⟩

theorem given_nil (lines : List (Bytes × Bytes)) (o : ArgOpt) : given (fun _ => []) lines o = own o lines := by
  unfold given
  split_ifs with h
  · exact h.symm
  · rfl

theorem OneScript.holds {both given : List Bytes} (h : OneScript conf o both [] given) :
    Holds conf o (if both = [] then given else both) := by
  refine ⟨h.list.trans ?_, h.count⟩
  by_cases hboth : both = []
  · rw [if_pos hboth, if_neg fun h => h.1 hboth]
  · rw [if_neg hboth, if_pos ⟨hboth, rfl⟩]

/-- **The first file.**  Its values are in the arrays, as many as there are.  If it has, for some
script, arguments for both and arguments for one, an array is used after it has been freed. -/
theorem loadArgs_first (lines : List (Bytes × Bytes)) :
    (loadArgs lines initArgs = none ↔ ∃ s, own (.scriptArg s) lines ≠ []
        ∧ (own (.scriptPreArg s) lines ≠ [] ∨ own (.scriptPostArg s) lines ≠ []))
      ∧ ∀ conf, loadArgs lines initArgs = some conf →
        ∀ o, o ≠ .scriptArg .backup → o ≠ .scriptArg .restore → Holds conf o (effective lines o) := by
  obtain ⟨hnone, hsome⟩ := loadArgs_holding holding_initArgs lines
  refine ⟨?_, fun conf h o hbackup hrestore => ?_⟩
  · rw [hnone]
    unfold Twice
    simp only [given_nil]
  · obtain ⟨hwhole, hone⟩ := hsome conf h
    simp only [given_nil] at hwhole hone
    cases o with
    | scriptPreArg s => exact (hone s).1.holds
    | scriptPostArg s => exact (hone s).2.holds
    | scriptArg s =>
        cases s with
        | server => exact hwhole _ rfl
        | backup => exact absurd rfl hbackup
        | restore => exact absurd rfl hrestore
    | _ => exact hwhole _ rfl

end First

/-! ## §8. A second text. -/

/-- The lines of a text, as fields and values, if all of them are lines of a configuration. -/
def pairsOf : List Bytes → Option (List (Bytes × Bytes))
  | [] => some []
  | line :: lines =>
      match configGetPair line with
      | none => none
      | some none => pairsOf lines
      | some (some pair) => (pairsOf lines).map (pair :: ·)

section Second

variable {conf conf' : Args} {lines pairs : List (Bytes × Bytes)} {o : ArgOpt}

theorem mem_pairsOf {texts : List Bytes} (h : pairsOf texts = some pairs) {pair : Bytes × Bytes}
    (hpair : pair ∈ pairs) : ∃ text ∈ texts, configGetPair text = some (some pair) := by
  induction texts generalizing pairs with
  | nil =>
      obtain rfl := Option.some.inj h
      exact absurd hpair List.not_mem_nil
  | cons text texts ih =>
      unfold pairsOf at h
      cases hget : configGetPair text with
      | none =>
          rw [hget] at h
          exact absurd h nofun
      | some found =>
          rw [hget] at h
          cases found with
          | none =>
              obtain ⟨text', htext', hfound⟩ := ih h hpair
              exact ⟨text', List.mem_cons_of_mem _ htext', hfound⟩
          | some first =>
              obtain ⟨rest, hrest, rfl⟩ := Option.map_eq_some_iff.mp h
              rcases List.mem_cons.mp hpair with rfl | hpair
              · exact ⟨text, List.mem_cons_self, hget⟩
              · obtain ⟨text', htext', hfound⟩ := ih hrest hpair
                exact ⟨text', List.mem_cons_of_mem _ htext', hfound⟩

/-- The options of `do_sends` are none of those here. -/
theorem sent_no_arguments :
    (∀ t ∈ sentLists, (IsName t.2.1 ∧ argOptions.lookup t.2.1 = none)
        ∧ IsName t.2.2 ∧ argOptions.lookup t.2.2 = none)
      ∧ (∀ t ∈ sentInts, IsName t.2 ∧ argOptions.lookup t.2 = none)
      ∧ ∀ t ∈ sentSizes, IsName t.2 ∧ argOptions.lookup t.2 = none := by
  decide

theorem lookup_sent {pre str : Bytes} (hpre : IsName pre ∧ argOptions.lookup pre = none)
    (hstr : str ≠ []) {pair : Bytes × Bytes}
    (h : configGetPair (sendIncexcStr pre str) = some (some pair)) : argOptions.lookup pair.1 = none := by
  rw [sendIncexcStr_eq hstr, configGetPair_line hpre.1] at h
  split_ifs at h
  obtain rfl := Option.some.inj (Option.some.inj h)
  exact hpre.2

theorem lookup_doSends {cfg : Config} (hcfg : Loaded cfg) {b : Bytes} (hb : b ∈ doSends cfg)
    {pair : Bytes × Bytes} (h : configGetPair b = some (some pair)) : argOptions.lookup pair.1 = none := by
  unfold doSends at hb
  rcases List.mem_append.mp hb with hb | hb
  · obtain ⟨t, ht, hmem⟩ := List.mem_flatMap.mp hb
    obtain ⟨e, he, rfl⟩ := List.mem_map.mp hmem
    obtain ⟨hyes, hno⟩ := sent_no_arguments.1 t ht
    split_ifs at h
    · exact lookup_sent hyes (hcfg.isValue he).ne_nil h
    · exact lookup_sent hno (hcfg.isValue he).ne_nil h
  · rcases List.mem_append.mp hb with hb | hb
    · obtain ⟨t, ht, rfl⟩ := List.mem_map.mp hb
      exact lookup_sent (sent_no_arguments.2.1 t ht) (isValue_decimalInt _).1.ne_nil h
    · obtain ⟨t, ht, rfl⟩ := List.mem_map.mp hb
      exact lookup_sent (sent_no_arguments.2.2 t ht) (isValue_decimal _).1.ne_nil h

/-- The lists of the server give no arguments to scripts. -/
theorem own_received {cfg : Config} (hcfg : Loaded cfg) {text : Bytes}
    (hrecv : incexcRecv .server (incexcSend .server cfg) = (true, some text))
    (hpairs : pairsOf (tokens (· = 10) text) = some pairs) (o : ArgOpt) : own o pairs = [] := by
  obtain ⟨text', hrecv', htokens⟩ := tokens_received
    (fun b hb => isLine_of_mem_doSends hcfg .server hb) (doSends_ne_nil cfg)
  have heq : incexcRecv .server (incexcSend .server cfg) = (true, some text') := hrecv'
  obtain rfl : text = text' := Option.some.inj (congrArg Prod.snd (hrecv.symm.trans heq))
  rw [htokens] at hpairs
  refine List.filterMap_eq_nil_iff.mpr fun pair hpair => ?_
  obtain ⟨b, hb, hget⟩ := mem_pairsOf hpairs hpair
  rw [lookup_doSends hcfg hb hget]
  rfl

/-- What holds of a configuration of a client after the first file. -/
structure Started (conf : Args) (lines : List (Bytes × Bytes)) : Prop where
  holds : ∀ o, o ≠ .scriptArg .backup → o ≠ .scriptArg .restore → Holds conf o (effective lines o)

theorem Started.got (h : Started conf lines) (ho : o.hasGot = true) :
    Holds conf o (effective lines o) :=
  h.holds o (fun heq => by rw [heq] at ho; exact absurd ho nofun)
    fun heq => by rw [heq] at ho; exact absurd ho nofun

/-- A list that is kept. -/
theorem Started.taken (h : Started conf lines) (ho : o.hasGot = true) :
    (setGotArgs conf).taken o = listOf (effective lines o) := by
  have hgot : (setGotArgs conf).l.got o = (effective lines o).length := (if_pos ho).trans (h.got ho).count
  unfold Reading.taken
  rw [hgot]
  split_ifs with hnil
  · rw [List.length_eq_zero_iff.mp hnil]
    rfl
  · exact (h.got ho).list

theorem Started.frees (h : Started conf lines) : Frees conf := by
  intro o hgot
  have ho : o.hasGot = true := by
    by_contra ho
    exact hgot (if_neg ho)
  rw [(h.got ho).list, (h.got ho).count, strlistsFree_listOf]
  exact Option.some_ne_none _

/-- Lines that are about something else. -/
structure Unread (conf : Args) (r : Reading) : Prop where
  list : ∀ o, r.l.list o = .null
  count : ∀ o, r.conf.count o = conf.count o
  got : ∀ o, r.l.got o = (setGotArgs conf).l.got o
  before : ∀ o, r.conf.list o = conf.list o

theorem loadArgLines_unread (hconf : Frees conf) (hnone : ∀ o, own o pairs = []) :
    ∃ r, loadArgLines pairs (setGotArgs conf) = some r ∧ Unread conf r := by
  obtain ⟨r, hr, hafter⟩ := after_loadArgLines hconf pairs (after_start conf)
  simp only [hnone, List.append_nil] at hafter
  exact ⟨r, hr, fun o => (hafter o).list, fun o => (hafter o).count, fun o => (hafter o).got,
    fun o => (hafter o).before⟩

/-- The lists of the scripts, of which there is only the one of the server. -/
theorem Unread.override {r : Reading} (hr : Unread conf r) (h : Started conf lines) (s : Script) :
    r.override s = some (if s = .server ∧ own (.scriptArg .server) lines ≠ [] then
        ((listOf (own (.scriptArg .server) lines), (own (.scriptArg .server) lines).length),
          (listOf (own (.scriptArg .server) lines), (own (.scriptArg .server) lines).length))
      else ((.null, conf.count (.scriptPreArg s)), (.null, conf.count (.scriptPostArg s)))) := by
  unfold Reading.override
  rw [hr.count, hr.count, hr.count, hr.list, hr.list]
  cases s with
  | backup =>
      have hboth : r.both .backup = .null := hr.list _
      rw [hboth, if_neg fun h => absurd h.1 nofun]
      rfl
  | restore =>
      have hboth : r.both .restore = .null := hr.list _
      rw [hboth, if_neg fun h => absurd h.1 nofun]
      rfl
  | server =>
      have hboth : r.both .server = listOf (own (.scriptArg .server) lines) := by
        refine Eq.trans ?_ (h.taken (o := .scriptArg .server) rfl)
        show r.taken _ = _
        rw [Reading.taken, hr.got, hr.list, hr.before]
        rfl
      have hlength : conf.count (.scriptArg .server) = (own (.scriptArg .server) lines).length :=
        (h.got (o := .scriptArg .server) rfl).count
      rw [hboth, hlength, setupScriptArgOverride_listOf]
      by_cases hnil : own (.scriptArg .server) lines = []
      · rw [if_pos hnil, if_neg fun h => h.2 hnil]
      · rw [if_neg hnil, if_pos ⟨rfl, rfl⟩, if_pos ⟨rfl, hnil⟩]

/-- **A second text** without arguments keeps the lists that a server uses, and loses those of the
scripts of a client, whose lengths stay. -/
theorem loadArgs_second (h : Started conf lines) (hnone : ∀ o, own o pairs = []) :
    ∃ conf', loadArgs pairs conf = some conf'
      ∧ (∀ o, o.hasGot = true → Holds conf' o (effective lines o))
      ∧ ∀ s, s ≠ .server → conf'.list (.scriptPreArg s) = .null ∧ conf'.list (.scriptPostArg s) = .null
        ∧ conf'.count (.scriptPreArg s) = (effective lines (.scriptPreArg s)).length
        ∧ conf'.count (.scriptPostArg s) = (effective lines (.scriptPostArg s)).length := by
  obtain ⟨r, hload, hr⟩ := loadArgLines_unread h.frees hnone
  have hkeep : ¬ (r.l.got .keep = 0 ∧ ¬ ∀ i < r.conf.count .keep, ((r.l.list .keep).path i).isSome) := by
    rintro ⟨hzero, hnot⟩
    have hzero : conf.count .keep = 0 := (hr.got .keep).symm.trans hzero
    apply hnot
    intro i hi
    rw [hr.count, hzero] at hi
    exact absurd hi (Nat.not_lt_zero i)
  have htaken : ∀ o, o.hasGot = true → r.taken o = listOf (effective lines o) := by
    intro o ho
    rw [← h.taken ho, Reading.taken, hr.got, hr.list, hr.before]
    rfl
  -- a list for one script, which is the one for both if there is such a list
  have hone : ∀ o, o.hasGot = true → (own (.scriptArg .server) lines ≠ [] →
        effective lines o = own (.scriptArg .server) lines) →
      (if r.l.got o = 0 then
          if own (.scriptArg .server) lines ≠ [] then listOf (own (.scriptArg .server) lines) else .null
        else r.conf.list o) = listOf (effective lines o)
      ∧ (if own (.scriptArg .server) lines ≠ [] then (own (.scriptArg .server) lines).length
        else conf.count o) = (effective lines o).length := by
    intro o ho hboth
    have htaken := htaken o ho
    rw [Reading.taken, hr.list] at htaken
    by_cases hnil : own (.scriptArg .server) lines = []
    · rw [if_neg (not_not_intro hnil), if_neg (not_not_intro hnil)]
      exact ⟨htaken, (h.got ho).count⟩
    · rw [if_pos hnil, if_pos hnil, hboth hnil, hr.before, (h.got ho).list, hboth hnil, ite_self]
      exact ⟨rfl, rfl⟩
  refine ⟨_, (loadArgs_of_read hload).trans (finaliseArgs_some _ hkeep (hr.override h)), fun o ho => ?_, fun s hs => ?_⟩
  · cases o with
    | scriptPreArg s =>
        obtain rfl : s = .server := of_decide_eq_true ho
        obtain ⟨hlist, hcount⟩ := hone (.scriptPreArg .server) rfl fun hne => if_neg hne
        refine ⟨Eq.trans ?_ hlist, Eq.trans ?_ hcount⟩
        · show (if _ then (if _ then _ else _ : (Strlists × Nat) × (Strlists × Nat)).1.1 else _) = _
          by_cases hnil : own (.scriptArg .server) lines = [] <;> simp [hnil]
        · show (if _ then _ else _ : (Strlists × Nat) × (Strlists × Nat)).1.2 = _
          by_cases hnil : own (.scriptArg .server) lines = [] <;> simp [hnil]
    | scriptPostArg s =>
        obtain rfl : s = .server := of_decide_eq_true ho
        obtain ⟨hlist, hcount⟩ := hone (.scriptPostArg .server) rfl fun hne => if_neg hne
        refine ⟨Eq.trans ?_ hlist, Eq.trans ?_ hcount⟩
        · show (if _ then (if _ then _ else _ : (Strlists × Nat) × (Strlists × Nat)).2.1 else _) = _
          by_cases hnil : own (.scriptArg .server) lines = [] <;> simp [hnil]
        · show (if _ then _ else _ : (Strlists × Nat) × (Strlists × Nat)).2.2 = _
          by_cases hnil : own (.scriptArg .server) lines = [] <;> simp [hnil]
    | scriptArg s =>
        obtain rfl : s = .server := of_decide_eq_true ho
        exact ⟨htaken _ rfl, (hr.count _).trans (h.got ho).count⟩
    | _ => exact ⟨htaken _ rfl, (hr.count _).trans (h.got ho).count⟩
  · have hgot : ∀ o : ArgOpt, o.hasGot = false → r.l.got o = 0 := fun o ho =>
      (hr.got o).trans (if_neg (by rw [ho]; exact Bool.false_ne_true))
    have hnot : ¬ (s = .server ∧ own (.scriptArg .server) lines ≠ []) := fun h => hs h.1
    have hpre := h.holds (.scriptPreArg s) nofun nofun
    have hpost := h.holds (.scriptPostArg s) nofun nofun
    refine ⟨?_, ?_, ?_, ?_⟩
    · show (if _ then (if _ then _ else _ : (Strlists × Nat) × (Strlists × Nat)).1.1 else _) = _
      rw [if_pos (hgot (.scriptPreArg s) (decide_eq_false hs)), if_neg hnot]
    · show (if _ then (if _ then _ else _ : (Strlists × Nat) × (Strlists × Nat)).2.1 else _) = _
      rw [if_pos (hgot (.scriptPostArg s) (decide_eq_false hs)), if_neg hnot]
    · show (if _ then _ else _ : (Strlists × Nat) × (Strlists × Nat)).1.2 = _
      rw [if_neg hnot]
      exact hpre.count
    · show (if _ then _ else _ : (Strlists × Nat) × (Strlists × Nat)).2.2 = _
      rw [if_neg hnot]
      exact hpost.count

/-- **Lost arguments.**  A client that has read the lists of the server can run the scripts of its
own configuration only without arguments: with any, it reads from an array that is not there. -/
theorem arguments_lost (h : loadArgs lines initArgs = some conf) {cfg : Conf.Config} (hcfg : Loaded cfg)
    {text : Bytes} (hrecv : incexcRecv .server (incexcSend .server cfg) = (true, some text))
    (hpairs : pairsOf (tokens (· = 10) text) = some pairs) :
    ∃ conf', loadArgs pairs conf = some conf'
      ∧ (∀ o, o.hasGot = true → Holds conf' o (effective lines o))
      ∧ ∀ s room, s ≠ .server → 0 < room →
        (userArgs (conf'.list (.scriptPreArg s)) (conf'.count (.scriptPreArg s)) room = none
            ↔ effective lines (.scriptPreArg s) ≠ [])
          ∧ (userArgs (conf'.list (.scriptPostArg s)) (conf'.count (.scriptPostArg s)) room = none
            ↔ effective lines (.scriptPostArg s) ≠ []) := by
  have hstart : Started conf lines := ⟨(loadArgs_first lines).2 conf h⟩
  obtain ⟨conf', hload, hkept, hlost⟩ := loadArgs_second hstart (own_received hcfg hrecv hpairs)
  have hnull : ∀ (values : List Bytes) room, 0 < room →
      (userArgs .null values.length room = none ↔ values ≠ []) := by
    intro values room hroom
    have heq := userArgs_listOf [] values.length room
    rw [listOf, if_pos rfl] at heq
    by_cases hnil : values = []
    · subst hnil
      exact ⟨fun h => absurd h nofun, fun h => absurd rfl h⟩
    · have hpos : 0 < min values.length room := lt_min (List.length_pos_of_ne_nil hnil) hroom
      rw [heq, List.length_nil, if_neg (Nat.not_le_of_gt hpos)]
      exact ⟨fun _ => hnil, fun _ => rfl⟩
  refine ⟨conf', hload, hkept, fun s room hs hroom => ?_⟩
  obtain ⟨hpre, hpost, hprecount, hpostcount⟩ := hlost s hs
  rw [hpre, hpost, hprecount, hpostcount]
  exact ⟨hnull _ _ hroom, hnull _ _ hroom⟩

/-- One argument, and lists of the server without any entries. -/
theorem arguments_lost_one :
    ∃ conf text pairs conf', loadArgs [(nameBytes "backup_script_pre_arg", nameBytes "a")] initArgs = some conf
      ∧ incexcRecv .server (incexcSend .server Conf.initConfig) = (true, some text)
      ∧ pairsOf (tokens (· = 10) text) = some pairs ∧ loadArgs pairs conf = some conf'
      ∧ userArgs (conf'.list (.scriptPreArg .backup)) (conf'.count (.scriptPreArg .backup)) 57 = none := by
  obtain ⟨conf, hconf⟩ := Option.isSome_iff_exists.mp
    (show (loadArgs [(nameBytes "backup_script_pre_arg", nameBytes "a")] initArgs).isSome by decide)
  obtain ⟨text, hrecv, htokens⟩ := tokens_received
    (fun b hb => isLine_of_mem_doSends loaded_initConfig .server hb) (doSends_ne_nil Conf.initConfig)
  obtain ⟨pairs, hpairs⟩ : ∃ pairs, pairsOf (tokens (· = 10) text) = some pairs := by
    rw [htokens]
    exact Option.isSome_iff_exists.mp (by decide)
  obtain ⟨conf', hload, -, hlost⟩ := arguments_lost hconf loaded_initConfig hrecv hpairs
  exact ⟨conf, text, pairs, conf', hconf, hrecv, hpairs, hload,
    (hlost .backup 57 nofun (by decide)).1.mpr (by decide)⟩

end Second

/-! ## §9. What a client has from the server. -/

/-- The values that the server has for its clients. -/
def inherited (lines : List (Bytes × Bytes)) (o : ArgOpt) : List Bytes :=
  if o.hasGot then effective lines o else []

section Inherited

variable {conf cconf : Args} {lines : List (Bytes × Bytes)} {o : ArgOpt} {values : ArgOpt → List Bytes}

/-- Setting the first one and then the others is setting all of them. -/
theorem set_rest {β : Type} (opts : List ArgOpt) (o : ArgOpt) (f g : ArgOpt → β) :
    (fun o' => if o' ∈ opts then f o' else Function.update g o (f o) o')
      = fun o' => if o' ∈ o :: opts then f o' else g o' := by
  funext o'
  by_cases hmem : o' ∈ opts
  · rw [if_pos hmem, if_pos (List.mem_cons_of_mem _ hmem)]
  · rw [if_neg hmem]
    by_cases heq : o' = o
    · rw [heq, if_pos List.mem_cons_self, Function.update_self]
    · rw [if_neg (List.not_mem_cons_of_ne_of_not_mem heq hmem), Function.update_of_ne heq]

theorem foldlM_setGlobalArglist (opts : List ArgOpt) (h : ∀ o ∈ opts, Holds conf o (values o))
    (cconf : Args) :
    opts.foldlM (fun cconf o =>
        (setGlobalArglist (conf.list o) (conf.count o)).map fun list =>
          ({ list := Function.update cconf.list o list.1
             count := Function.update cconf.count o list.2 } : Args)) cconf
      = some
        { list := fun o => if o ∈ opts then listOf (values o) else cconf.list o
          count := fun o => if o ∈ opts then (values o).length else cconf.count o } := by
  induction opts generalizing cconf with
  | nil => simp
  | cons o opts ih =>
      have ho := h o List.mem_cons_self
      rw [List.foldlM_cons, ho.list, ho.count, setGlobalArglist_listOf, Option.map_some]
      refine (ih (fun o' ho' => h o' (List.mem_cons_of_mem _ ho')) _).trans ?_
      rw [set_rest opts o (fun o => listOf (values o)), set_rest opts o fun o => (values o).length]

theorem mem_globalOptions : o ∈ globalOptions ↔ o.hasGot = true := by
  cases o with
  | scriptPreArg s | scriptPostArg s | scriptArg s => cases s <;> decide
  | _ => decide

theorem inherited_eq {β : Type} (f : List Bytes → β) :
    (if o ∈ globalOptions then f (effective lines o) else f []) = f (inherited lines o) := by
  unfold inherited
  by_cases ho : o.hasGot = true
  · rw [if_pos (mem_globalOptions.mpr ho), if_pos ho]
  · rw [if_neg (fun h => ho (mem_globalOptions.mp h)), if_neg ho]

/-- The client starts with the values of the server. -/
theorem setClientGlobalArgs_holding (h : Started conf lines) :
    ∃ cconf, setClientGlobalArgs conf = some cconf ∧ Holding cconf (inherited lines) := by
  have hall := foldlM_setGlobalArglist globalOptions
    (fun o ho => h.got (mem_globalOptions.mp ho)) initArgs
  refine ⟨_, hall, fun o => ⟨?_, ?_⟩, fun o ho => if_neg (by rw [ho]; exact Bool.false_ne_true)⟩
  · exact inherited_eq listOf
  · exact inherited_eq List.length

/-- The arguments of one script of two: where the values for both have come after others, these
are still there, and the length is that of the values for both. -/
theorem OneScript.userArgs {both before given : List Bytes} (h : OneScript cconf o both before given)
    (hgiven : both ≠ [] → before ≠ [] → given = before) (room : Nat) :
    userArgs (cconf.list o) (cconf.count o) room
      = if both = [] then some (given.take room)
        else if before = [] then some (both.take room)
        else if min both.length room ≤ before.length then some (before.take (min both.length room))
        else none := by
  rw [h.list, h.count]
  by_cases hboth : both = []
  · rw [if_pos hboth, if_pos hboth, if_neg fun h => h.1 hboth]
    exact userArgs_whole given room
  · rw [if_neg hboth, if_neg hboth]
    by_cases hbefore : before = []
    · rw [if_pos ⟨hboth, hbefore⟩, if_pos hbefore]
      exact userArgs_whole both room
    · rw [if_neg fun h => hbefore h.2, if_neg hbefore, hgiven hboth hbefore]
      exact userArgs_listOf before both.length room

/-- **What a client has from the server**, for each list that it does not have itself.  Arguments
for both server scripts are the exception: those of the client do not take the place of arguments
that the server has, and if there are more of them, one is read that is not there. -/
theorem arguments_inherited {serverLines : List (Bytes × Bytes)}
    (h : loadArgs serverLines initArgs = some conf) (lines : List (Bytes × Bytes)) :
    (loadClientArgs conf lines = none ↔ Twice (inherited serverLines) lines)
      ∧ ∀ cconf, loadClientArgs conf lines = some cconf →
        (∀ o, o.whole = true → Holds cconf o (given (inherited serverLines) lines o))
        ∧ ∀ o room, o = .scriptPreArg .server ∨ o = .scriptPostArg .server →
          userArgs (cconf.list o) (cconf.count o) room
            = if given (inherited serverLines) lines (.scriptArg .server) = [] then
                some ((given (inherited serverLines) lines o).take room)
              else if effective serverLines o = [] then
                some ((given (inherited serverLines) lines (.scriptArg .server)).take room)
              else if min (given (inherited serverLines) lines (.scriptArg .server)).length room
                  ≤ (effective serverLines o).length then
                some ((effective serverLines o).take
                  (min (given (inherited serverLines) lines (.scriptArg .server)).length room))
              else none := by
  have hstart : Started conf serverLines := ⟨(loadArgs_first serverLines).2 conf h⟩
  obtain ⟨cconf₀, hglobal, hholding⟩ := setClientGlobalArgs_holding hstart
  obtain ⟨hnone, hsome⟩ := loadArgs_holding hholding lines
  have hload : loadClientArgs conf lines = loadArgs lines cconf₀ := by
    unfold loadClientArgs
    rw [hglobal]
    rfl
  rw [hload]
  refine ⟨hnone, fun cconf hcconf => ?_⟩
  obtain ⟨hwhole, hone⟩ := hsome cconf hcconf
  refine ⟨hwhole, ?_⟩
  -- there are no values for one script where there are values for both
  have htwice : ¬ Twice (inherited serverLines) lines := fun htwice => by
    rw [hnone.mpr htwice] at hcconf
    exact absurd hcconf nofun
  have hown := own_nil_of_not_twice (s := .server) htwice
  rintro o room (rfl | rfl)
  · exact (hone .server).1.userArgs (fun hboth _ => if_pos (hown hboth).1) room
  · exact (hone .server).2.userArgs (fun hboth _ => if_pos (hown hboth).2) room

/-- One argument of the server, and two of the client. -/
theorem arguments_inherited_two :
    ∃ conf cconf, loadArgs [(nameBytes "server_script_arg", nameBytes "a")] initArgs = some conf
      ∧ loadClientArgs conf [(nameBytes "server_script_arg", nameBytes "b"),
        (nameBytes "server_script_arg", nameBytes "c")] = some cconf
      ∧ userArgs (cconf.list (.scriptPreArg .server)) (cconf.count (.scriptPreArg .server)) 57 = none := by
  obtain ⟨conf, hconf⟩ := Option.isSome_iff_exists.mp
    (show (loadArgs [(nameBytes "server_script_arg", nameBytes "a")] initArgs).isSome by decide)
  obtain ⟨hnone, hsome⟩ := arguments_inherited hconf
    [(nameBytes "server_script_arg", nameBytes "b"), (nameBytes "server_script_arg", nameBytes "c")]
  obtain ⟨cconf, hcconf⟩ := Option.ne_none_iff_exists'.mp fun h => by
    obtain ⟨s, -, hown⟩ := hnone.mp h
    have hnothing : ∀ s, own (.scriptPreArg s) [(nameBytes "server_script_arg", nameBytes "b"),
          (nameBytes "server_script_arg", nameBytes "c")] = []
        ∧ own (.scriptPostArg s) [(nameBytes "server_script_arg", nameBytes "b"),
          (nameBytes "server_script_arg", nameBytes "c")] = [] := by
      intro s
      cases s <;> decide
    exact hown.elim (fun h => h (hnothing s).1) fun h => h (hnothing s).2
  refine ⟨conf, cconf, hconf, hcconf, ((hsome cconf hcconf).2 _ 57 (Or.inl rfl)).trans ?_⟩
  decide

end Inherited

end Burp.Conf.Arguments
