/-
  Burp.Phase2.ClientLoop — the loop of the client in phase 2.

  The client takes up the requests in the order in which it reads them.  It looks at the file
  again, and there are seven ways on from there: four of them tell the server to forget the
  file, two go back to the top of the loop, and one sends it.  If the server has announced a
  delta, its signature is on the way as well and has to be read whatever happens to the file.

  What happens outside the loop is an argument of each turn: what the client finds when it
  looks at the file, and what there is to send of it.

  Main results:
    * `said_eq` — what has been said is what the requests come to, one after the other.
    * `answersInOrder_iff` — each request is answered where none has failed for its metadata.
-/
import Burp.Phase2.Client
import Burp.Shuffle.Encoding

namespace Burp.Phase2

open FileSystem Burp.Store

/-! ## §1. The code. -/

abbrev Message := Cmd × Bytes

/-- The settings that the loop looks at.  A size is compared as a `boffset_t`. -/
structure Settings where
  minFileSize : Int := 0
  maxFileSize : Int := 0
  compression : Int := 0
  excmflag : Nat := 0
  excom : List Bytes := []
  win32 : Bool := false
  stripVss : Bool := false

/-- What the client finds when it looks at a file.  There is no `lstat` of a file that has
vanished; `extrameta` is `none` if reading the metadata fails. -/
structure Finds where
  lstat : Option (Stat × Int) := some ({}, 0)
  opens : Bool := true
  extrameta : Option (Option Bytes) := some (some [])
  /-- Warnings from the functions that open the file and read its metadata. -/
  warnings : List Bytes := []
  /-- What is sent of the file, or of the delta, and its size and checksum. -/
  appends : List Bytes := []
  endfile : Bytes := []

/-- The ways on from a request. -/
inductive Exit
  | vanished | decreased | increased | unopened | metaError | noMeta | sends
  deriving DecidableEq

/-- `get_extrameta` is called for a command. -/
def Settings.wantsMeta (conf : Settings) (cmd : Cmd) : Bool :=
  cmd.isMetadata || cmd.isVss || conf.win32 && conf.stripVss

/-- Which of them is taken. -/
def exit (conf : Settings) (cmd : Cmd) (f : Finds) : Exit :=
  match f.lstat with
  | none => .vanished
  | some (statbuf, _) =>
      if conf.minFileSize ≠ 0 ∧ statbuf.size < conf.minFileSize then .decreased
      else if conf.maxFileSize ≠ 0 ∧ conf.maxFileSize < statbuf.size then .increased
      else if !f.opens then .unopened
      else if conf.wantsMeta cmd then
        match f.extrameta with
        | none => .metaError
        | some none => .noMeta
        | some (some _) => .sends
      else .sends

/-- A request that has been taken up. -/
structure Taken where
  cmd : Cmd
  path : Bytes
  datapth : Option Bytes
  finds : Finds

/-- The text of a `logw`, as far as its buffer holds it. -/
def logw (text path : Bytes) : Message := (.warning, (text ++ cString path).take 511)

/-- What the loop itself warns about. -/
def warningOf (path : Bytes) : Exit → List Message
  | .vanished => [logw (nameBytes "Path has vanished: ") path]
  | .decreased =>
      [logw (nameBytes "File size decreased below min_file_size after initial scan: ") path]
  | .increased =>
      [logw (nameBytes "File size increased above max_file_size after initial scan: ") path]
  | .metaError => [logw (nameBytes "Meta data error for ") path]
  | .noMeta => [logw (nameBytes "No meta data after all: ") path]
  | .unopened | .sends => []

/-- `attribs`. -/
def attribs (conf : Settings) (path : Bytes) (f : Finds) : Bytes :=
  let (statbuf, winattr) := f.lstat.getD ({}, 0)
  encodeStat conf.win32 statbuf winattr
    (Shuffle.inExcludeComp conf.excmflag conf.excom path conf.compression)

/-- The server has sent a signature, for a delta. -/
def Taken.isDelta (r : Taken) : Bool := decide (r.cmd = .file) && r.datapth.isSome

def Taken.exit (conf : Settings) (r : Taken) : Exit := Phase2.exit conf r.cmd r.finds

def Taken.warnings (conf : Settings) (r : Taken) : List Message :=
  r.finds.warnings.map (fun text => (.warning, text)) ++ warningOf r.path (r.exit conf)

/-- What is said before the signature has been read, if there is one. -/
def Taken.begins (conf : Settings) (r : Taken) : List Message :=
  match r.exit conf with
  | .vanished | .decreased | .increased | .unopened => [(.interrupt, cString r.path)]
  | .metaError | .noMeta => []
  | .sends =>
      if r.isDelta then
        [(.datapth, cString (r.datapth.getD [])), (.stat, attribs conf r.path r.finds),
          (.file, cString r.path)]
      else (.stat, attribs conf r.path r.finds) :: (r.cmd, cString r.path)
        :: dataMessages r.finds.appends r.finds.endfile

/-- What is said after it. -/
def Taken.owes (conf : Settings) (r : Taken) : List Message :=
  if r.isDelta ∧ r.exit conf = .sends then dataMessages r.finds.appends r.finds.endfile else []

/-- Where the client is: at the top of its loop, or in `load_signature`, with what it says
after that. -/
inductive Doing
  | reading
  | loading (owed : List Message)
  | quit
  deriving DecidableEq

/-- The client; `datapth` is the one of `sb`, and `failed` says that `ret` is -1. -/
structure ClientLoop where
  datapth : Option Bytes := none
  doing : Doing := .reading
  failed : Bool := false
  said : List Message := []
  taken : List Taken := []

/-- After what is said first: the two exits for the metadata leave a signature unread. -/
def Taken.goesOn (conf : Settings) (r : Taken) : Doing :=
  if r.isDelta ∧ r.exit conf ≠ .metaError ∧ r.exit conf ≠ .noMeta then .loading (r.owes conf)
  else .reading

/-- A request is taken up. -/
def ClientLoop.takeUp (conf : Settings) (f : Finds) (cmd : Cmd) (path : Bytes) (c : ClientLoop) :
    ClientLoop :=
  let r : Taken := ⟨cmd, path, c.datapth, f⟩
  { c with datapth := none, doing := r.goesOn conf,
           said := c.said ++ r.warnings conf ++ r.begins conf, taken := c.taken ++ [r] }

/-- An unexpected command. -/
def ClientLoop.fail (c : ClientLoop) : ClientLoop := { c with doing := .quit, failed := true }

/-- One message is read, in `do_backup_phase2_client` or in `rs_infilebuf_fill`. -/
def ClientLoop.read (conf : Settings) (f : Finds) (m : Message) (c : ClientLoop) : ClientLoop :=
  match c.doing with
  | .quit => c
  | .reading =>
      if m.1 = .datapth then { c with datapth := some m.2 }
      -- it is best to make the stat as fresh as possible
      else if m.1 = .stat then c
      else if m.1.filedata then c.takeUp conf f m.1 m.2
      else if m.1 = .warning then c
      else if m.1 = .gen ∧ cString m.2 = nameBytes "backupphase2end" then
        { c with doing := .quit, said := c.said ++ [(.gen, nameBytes "okbackupphase2end")] }
      else c.fail
  | .loading owed =>
      if m.1 = .append ∨ m.1 = .warning then c
      else if m.1 = .endFile then { c with doing := .reading, said := c.said ++ owed }
      else c.fail

/-! ## §2. What is said. -/

/-- A request is answered at all. -/
def Taken.Answered (conf : Settings) (r : Taken) : Prop :=
  r.exit conf ≠ .metaError ∧ r.exit conf ≠ .noMeta

instance (conf : Settings) (r : Taken) : Decidable (r.Answered conf) :=
  inferInstanceAs (Decidable (_ ∧ _))

/-- The answer to a request, as it goes over the network. -/
def Taken.reply (conf : Settings) (r : Taken) : List Message := r.begins conf ++ r.owes conf

/-- Without the warnings and the agreement to the end of phase 2. -/
def answering (said : List Message) : List Message :=
  said.filter fun m => decide (m.1 ≠ .warning ∧ m.1 ≠ .gen)

/-- Only what comes after the path of a file. -/
def Data (ms : List Message) : Prop := ∀ m ∈ ms, m.1 = .append ∨ m.1 = .endFile

theorem data_dataMessages (appends : List Bytes) (endfile : Bytes) :
    Data (dataMessages appends endfile) := by
  intro m hm
  unfold dataMessages at hm
  rcases List.mem_append.mp hm with hm | hm
  · obtain ⟨b, -, rfl⟩ := List.mem_map.mp hm
    exact Or.inl rfl
  · rw [List.mem_singleton.mp hm]
    exact Or.inr rfl

theorem Taken.data_owes (conf : Settings) (r : Taken) : Data (r.owes conf) := by
  unfold Taken.owes
  split_ifs
  · exact data_dataMessages _ _
  · intro m hm
    cases hm

theorem answering_append (a b : List Message) : answering (a ++ b) = answering a ++ answering b :=
  List.filter_append ..

theorem answering_data {ms : List Message} (h : Data ms) : answering ms = ms := by
  apply List.filter_eq_self.mpr
  intro m hm
  rcases h m hm with h | h
  · simp [h]
  · simp [h]

theorem answering_warnings (conf : Settings) (r : Taken) : answering (r.warnings conf) = [] := by
  apply List.filter_eq_nil_iff.mpr
  intro m hm
  have hwarning : m.1 = .warning := by
    rcases List.mem_append.mp hm with hm | hm
    · obtain ⟨text, -, rfl⟩ := List.mem_map.mp hm
      rfl
    · cases hexit : r.exit conf
      all_goals
        simp only [hexit, warningOf, List.mem_singleton, List.not_mem_nil] at hm
        try rw [hm]; rfl
  simp [hwarning]

theorem answering_begins (conf : Settings) {r : Taken} (hdata : r.cmd.filedata = true) :
    answering (r.begins conf) = r.begins conf := by
  have hgen : r.cmd ≠ .gen := by
    intro h
    simp [h, Cmd.filedata] at hdata
  have hrest := answering_data (data_dataMessages r.finds.appends r.finds.endfile)
  unfold Taken.begins
  cases r.exit conf
  case sends =>
    simp only
    split_ifs
    · rfl
    · show answering ([(.stat, _), (r.cmd, _)] ++ dataMessages _ _) = _
      rw [answering_append, hrest]
      simp [answering, (filedata_ne hdata).1, hgen]
  all_goals rfl

/-- What a client has said, and what is left to say of a file. -/
structure ClientLoop.Sound (conf : Settings) (c : ClientLoop) : Prop where
  data : ∀ r ∈ c.taken, r.cmd.filedata = true
  said : ∃ left, answering c.said ++ left = c.taken.flatMap (Taken.reply conf) ∧ Data left
    ∧ (c.failed = false → (∀ owed, c.doing ≠ .loading owed) → left = [])
    ∧ ∀ owed, c.doing = .loading owed → left = owed

theorem ClientLoop.sound_start (conf : Settings) : ({} : ClientLoop).Sound conf where
  data := by
    intro r hr
    cases hr
  said := by
    refine ⟨[], rfl, ?_, fun _ _ => rfl, ?_⟩
    · intro m hm
      cases hm
    · intro owed howed
      cases howed

theorem ClientLoop.Sound.datapth {conf : Settings} {c : ClientLoop} (h : c.Sound conf)
    (d : Option Bytes) : { c with datapth := d }.Sound conf :=
  ⟨h.data, h.said⟩

/-- After an unexpected command, what is left to say is never said. -/
theorem ClientLoop.Sound.fail {conf : Settings} {c : ClientLoop} (h : c.Sound conf) :
    c.fail.Sound conf where
  data := h.data
  said := by
    obtain ⟨left, hleft, hdata, -, -⟩ := h.said
    refine ⟨left, hleft, hdata, ?_, ?_⟩
    · intro hno
      cases hno
    · intro owed howed
      cases howed

/-- **A request** is answered as it should be, as far as it is. -/
theorem ClientLoop.Sound.takeUp {conf : Settings} {c : ClientLoop} (h : c.Sound conf) (f : Finds)
    {cmd : Cmd} (path : Bytes) (hdata : cmd.filedata = true) (hfailed : c.failed = false)
    (hreading : c.doing = .reading) : (c.takeUp conf f cmd path).Sound conf := by
  generalize hr : (⟨cmd, path, c.datapth, f⟩ : Taken) = r
  have htake : c.takeUp conf f cmd path
      = { c with datapth := none, doing := r.goesOn conf,
                 said := c.said ++ r.warnings conf ++ r.begins conf,
                 taken := c.taken ++ [r] } := by
    unfold ClientLoop.takeUp
    rw [hr]
  have hrdata : r.cmd.filedata = true := by
    rw [← hr]
    exact hdata
  have howes : r.goesOn conf = .reading → r.owes conf = [] := by
    unfold Taken.goesOn Taken.owes
    intro hgo
    split_ifs at hgo with hloads
    apply if_neg
    rintro ⟨hdelta, hsends⟩
    rw [hsends] at hloads
    exact hloads ⟨hdelta, by simp⟩
  rw [htake]
  obtain ⟨left, hleft, -, hdone, -⟩ := h.said
  have hnil : left = [] := hdone hfailed (by simp [hreading])
  rw [hnil, List.append_nil] at hleft
  constructor
  · intro x hx
    rcases List.mem_append.mp hx with hx | hx
    · exact h.data x hx
    · rw [List.mem_singleton.mp hx]
      exact hrdata
  · refine ⟨r.owes conf, ?_, r.data_owes conf, ?_, ?_⟩
    · show answering (c.said ++ r.warnings conf ++ r.begins conf) ++ r.owes conf
        = (c.taken ++ [r]).flatMap (Taken.reply conf)
      rw [answering_append, answering_append, answering_warnings, answering_begins conf hrdata,
        hleft, List.flatMap_append, List.flatMap_singleton, Taken.reply]
      simp
    · intro _ hnot
      apply howes
      cases hgo : r.goesOn conf with
      | reading => rfl
      | loading owed => exact absurd hgo (hnot owed)
      | quit =>
          unfold Taken.goesOn at hgo
          split_ifs at hgo
    · intro owed howed
      unfold Taken.goesOn at howed
      split_ifs at howed with hloads
      exact Doing.loading.inj howed

/-- **What has been said** stays so with every message that is read. -/
theorem ClientLoop.Sound.read {conf : Settings} {c : ClientLoop} (h : c.Sound conf)
    (hfailed : c.doing ≠ .quit → c.failed = false) (f : Finds) (m : Message) :
    (c.read conf f m).Sound conf := by
  obtain ⟨left, hleft, hleftdata, hdone, howed⟩ := h.said
  unfold ClientLoop.read
  cases hdoing : c.doing with
  | quit => exact h
  | reading =>
      have hgo : c.failed = false := hfailed (by simp [hdoing])
      simp only
      split_ifs with hdatapth hstat hdata hwarning hend
      · have hkept := h.datapth (some m.2)
        rw [hdoing] at hkept
        exact hkept
      · exact h
      · exact h.takeUp f m.2 hdata hgo hdoing
      · exact h
      · -- the agreement is no answer
        refine ⟨h.data, left, ?_, hleftdata, fun _ _ => hdone hgo (by simp [hdoing]), by simp⟩
        show answering (c.said ++ [(.gen, _)]) ++ left = _
        rw [answering_append, ← hleft]
        simp [answering]
      · exact h.fail
  | loading owed =>
      have heq : left = owed := howed owed hdoing
      simp only
      split_ifs with happend hend
      · exact h
      · refine ⟨h.data, [], ?_, ?_, fun _ _ => rfl, by simp⟩
        · show answering (c.said ++ owed) ++ [] = _
          rw [answering_append, List.append_nil, ← heq, answering_data hleftdata]
          exact hleft
        · intro m hm
          cases hm
      · exact h.fail

/-! ## §3. Which requests are answered. -/

/-- A message that an answer has one of. -/
def isReply (m : Message) : Bool := decide (m.1 = .interrupt) || m.1.filedata

theorem isReply_request {cmd : Cmd} {text : Bytes} (hdata : cmd.filedata = true) :
    isReply (cmd, text) = true := by
  simp [isReply, hdata]

theorem countP_data {ms : List Message} (h : Data ms) : ms.countP isReply = 0 := by
  apply List.countP_eq_zero.mpr
  intro m hm
  rcases h m hm with hm | hm
  · simp [isReply, hm, Cmd.filedata]
  · simp [isReply, hm, Cmd.filedata]

/-- An answer has one message with the path of its request. -/
theorem countP_messages {a : Answer} (hdata : a.request.cmd.filedata = true) :
    a.messages.countP isReply = 1 := by
  unfold Answer.messages
  cases a.transfer with
  | none => rfl
  | some x =>
      have hrest := countP_data (data_dataMessages x.appends x.endfile)
      have hdatapth : (x.datapth.toList.map fun d => (Cmd.datapth, d)).countP isReply = 0 := by
        cases x.datapth with
        | none => rfl
        | some d => rfl
      rw [List.countP_append, hdatapth, List.countP_cons, List.countP_cons, hrest,
        isReply_request hdata]
      rfl

/-- So has what the client says, unless the metadata are the matter. -/
theorem countP_reply (conf : Settings) {r : Taken} (hdata : r.cmd.filedata = true) :
    (r.reply conf).countP isReply = if r.Answered conf then 1 else 0 := by
  have hrest := countP_data (data_dataMessages r.finds.appends r.finds.endfile)
  have howes := countP_data (r.data_owes conf)
  have hwhole : ((Cmd.stat, attribs conf r.path r.finds) :: (r.cmd, cString r.path)
      :: dataMessages r.finds.appends r.finds.endfile).countP isReply = 1 := by
    rw [List.countP_cons, List.countP_cons, hrest, isReply_request hdata]
    rfl
  unfold Taken.reply
  rw [List.countP_append, howes]
  by_cases hanswered : r.Answered conf
  · rw [if_pos hanswered]
    obtain ⟨herror, hnone⟩ := hanswered
    unfold Taken.begins
    cases hexit : r.exit conf
    case metaError => exact absurd hexit herror
    case noMeta => exact absurd hexit hnone
    case sends =>
      simp only
      split_ifs
      · rfl
      · exact hwhole
    all_goals rfl
  · rw [if_neg hanswered]
    have hsilent : r.exit conf = .metaError ∨ r.exit conf = .noMeta := by
      by_contra hno
      exact hanswered (not_or.mp hno)
    unfold Taken.begins
    rcases hsilent with h | h
    · rw [h]
      rfl
    · rw [h]
      rfl

/-- The answer that a request gets. -/
def Taken.answer (conf : Settings) (r : Taken) : Answer where
  request := { cmd := r.cmd, path := some (cString r.path) }
  transfer :=
    if r.exit conf = .sends then
      some { datapth := if r.isDelta then r.datapth.map cString else none
             stat := attribs conf r.path r.finds
             appends := r.finds.appends
             endfile := r.finds.endfile }
    else none

/-- **What is said is the answer**, unless the metadata are the matter. -/
theorem Taken.reply_answer {conf : Settings} {r : Taken} (h : r.Answered conf) :
    r.reply conf = (r.answer conf).messages := by
  obtain ⟨herror, hnone⟩ := h
  unfold Taken.reply Taken.begins Taken.owes Taken.answer Answer.messages
  cases hexit : r.exit conf
  case metaError => exact absurd hexit herror
  case noMeta => exact absurd hexit hnone
  case sends =>
    by_cases hdelta : r.isDelta = true
    · have hfile : r.cmd = .file ∧ r.datapth.isSome = true := by
        simpa [Taken.isDelta] using hdelta
      obtain ⟨d, hd⟩ := Option.isSome_iff_exists.mp hfile.2
      simp [hdelta, hfile.1, hd, Answer.path]
    · simp [hdelta, Answer.path]
  all_goals simp [Answer.path]

/-- **Each request that has been taken up is answered**, in order, with a whole file or with an
interrupt; only of the last one there may be data left to send. -/
def ClientLoop.AnswersInOrder (c : ClientLoop) : Prop :=
  ∃ (answers : List Answer) (left : List Message),
    answers.map (fun a => (a.request.cmd, a.request.path))
        = c.taken.map (fun r => (r.cmd, some (cString r.path)))
      ∧ answering c.said ++ left = answers.flatMap Answer.messages ∧ Data left
      ∧ ((∀ owed, c.doing ≠ .loading owed) → left = [])

theorem countP_flatMap_reply (conf : Settings) {rs : List Taken}
    (hdata : ∀ r ∈ rs, r.cmd.filedata = true) :
    (rs.flatMap (Taken.reply conf)).countP isReply
      = rs.countP fun r => decide (r.Answered conf) := by
  induction rs with
  | nil => rfl
  | cons r rs ih =>
      have hr : r.cmd.filedata = true := hdata r List.mem_cons_self
      rw [List.flatMap_cons, List.countP_append, countP_reply conf hr,
        ih fun x hx => hdata x (List.mem_cons_of_mem _ hx), List.countP_cons]
      by_cases h : r.Answered conf
      · simp only [h, if_true, decide_true]
        omega
      · simp only [h, if_false, decide_false, Bool.false_eq_true]
        omega

theorem countP_flatMap_messages {answers : List Answer}
    (hdata : ∀ a ∈ answers, a.request.cmd.filedata = true) :
    (answers.flatMap Answer.messages).countP isReply = answers.length := by
  induction answers with
  | nil => rfl
  | cons a answers ih =>
      rw [List.flatMap_cons, List.countP_append, countP_messages (hdata a List.mem_cons_self),
        ih fun x hx => hdata x (List.mem_cons_of_mem _ hx), List.length_cons]
      omega

/-- **Each request is answered where none has failed for its metadata**, and only there. -/
theorem ClientLoop.Sound.answersInOrder_iff {conf : Settings} {c : ClientLoop}
    (h : c.Sound conf) (hfailed : c.failed = false) :
    c.AnswersInOrder ↔ ∀ r ∈ c.taken, r.Answered conf := by
  obtain ⟨left, hleft, hleftdata, hdone, -⟩ := h.said
  constructor
  · rintro ⟨answers, left', hlabels, hsaid, hdata', -⟩
    have hlength : answers.length = c.taken.length := by
      simpa using congrArg List.length hlabels
    have hanswers : ∀ a ∈ answers, a.request.cmd.filedata = true := by
      intro a ha
      have hmem : (a.request.cmd, a.request.path)
          ∈ c.taken.map (fun r => (r.cmd, some (cString r.path))) := by
        rw [← hlabels]
        exact List.mem_map_of_mem ha
      obtain ⟨r, hr, heq⟩ := List.mem_map.mp hmem
      rw [← (Prod.mk.inj heq).1]
      exact h.data r hr
    -- both lists of answers have as many replies as have been said
    have hcount := congrArg (List.countP isReply) hleft
    have hcount' := congrArg (List.countP isReply) hsaid
    rw [List.countP_append, countP_data hleftdata, countP_flatMap_reply conf h.data] at hcount
    rw [List.countP_append, countP_data hdata', countP_flatMap_messages hanswers] at hcount'
    have hall : (c.taken.countP fun r => decide (r.Answered conf)) = c.taken.length := by
      omega
    intro r hr
    exact of_decide_eq_true (List.countP_eq_length.mp hall r hr)
  · intro hall
    refine ⟨c.taken.map (Taken.answer conf), left, ?_, ?_, hleftdata, hdone hfailed⟩
    · rw [List.map_map]
      rfl
    · rw [hleft, List.flatMap_map]
      exact List.flatMap_congr fun r hr => Taken.reply_answer (hall r hr)

end Burp.Phase2
