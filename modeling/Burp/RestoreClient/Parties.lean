/-
  Burp.RestoreClient.Parties — a restore as two parties: the server that sends the entries of a
  manifest and may be told to interrupt a file, the client that may refuse an entry, and the
  messages between them.

  Main results:
    Server.Step.agrees  : what the server sends can be read as entries, whatever it is told.
    At.read             : each message finds the client where the server takes it to be.
    refused_in_step_iff : after a refusal the next message begins an entry or ends the restore,
                          except where the entry was metadata.
    metadata_not_drained : refused metadata leaves its data in the way.
-/
import Burp.RestoreClient.Client
import Mathlib.Logic.Relation

namespace Burp.RestoreClient

open FileSystem Burp.Store Burp.Phase2

/-! ## §1. The server. -/

/-- An entry that `restore_manifest` sends: `found` has the pieces in which the data is sent, if
there is a file with it in the backup. -/
structure Item where
  sb : Sbuf
  found : Option (List Bytes) := some []
  restorable : Entry.contains sb.cmd = true
  named : sb.cmd.filedata = true → sb.datapth.isSome = true

/-- A message to the client; `first` says that an entry begins with it, or that it ends the
restore. -/
structure Sent where
  msg : Message
  first : Bool
  deriving DecidableEq, Repr

/-- What is sent for an entry before its data: `restore_sbuf` and the beginning of `send_file`,
or the warning of `restore_file`. -/
def Item.messages (e : Item) : List Message :=
  let path := cString (e.sb.path.getD [])
  e.sb.datapth.toList.map (fun d => (.datapth, cString d)) ++ (.stat, e.sb.statbuf) ::
    if e.sb.cmd.filedata then
      match e.found with
      | some _ => [(e.sb.cmd, path)]
      | none =>
          [(.warning, (nameBytes "restore could not find " ++ path ++ nameBytes " ("
              ++ cString (e.sb.datapth.getD []) ++ nameBytes ")\n").take 511)]
    else if e.sb.cmd.isLink then
      [(e.sb.cmd, e.sb.path.getD []), (e.sb.cmd, e.sb.linkto.getD [])]
    else [(e.sb.cmd, e.sb.path.getD [])]

/-- The messages of an entry. -/
def opening : List Message → List Sent
  | [] => []
  | m :: ms => ⟨m, true⟩ :: ms.map fun m => ⟨m, false⟩

/-- What the server is at: the manifest, the pieces of a file, or `do_restore_end`. -/
inductive Serving
  | between
  | sending (datapth : Bytes) (pieces : List Bytes)
  | ending
  | done
  | failed
  deriving DecidableEq, Repr

/-- What the server is at once an entry has begun. -/
def Item.serving (e : Item) : Serving :=
  match e.sb.cmd.filedata, e.found with
  | true, some pieces => .sending (cString (e.sb.datapth.getD [])) pieces
  | _, _ => .between

/-- The server and the entries it has still to send. -/
structure Server where
  serving : Serving
  todo : List Item

/-- `do_quick_read` with a message. -/
def doQuickRead (datapth : Bytes) (m : Message) : Int :=
  if m.1 = .warning then 0
  -- double check that it is still talking about the file that is being sent
  else if m.1 = .interrupt then if cString m.2 = datapth then 1 else 0
  else -1

/-- The text of `write_endfile`. -/
def endFileText (bytes : Nat) (checksum : Bytes) : Bytes :=
  nameBytes (toString bytes) ++ 58 :: checksum

/-- The message of `write_endfile`. -/
def endFile (bytes : Nat) (checksum : Bytes) : Sent :=
  ⟨(.endFile, endFileText bytes checksum), false⟩

/-- The message of `do_restore_end`. -/
def restoreEnd : Sent := ⟨(.gen, nameBytes "restoreend"), true⟩

/-- A message that arrives between two entries. -/
def betweenRead (m : Message) : Serving :=
  if m.1 = .warning then .between
  -- it has already moved on
  else if m.1 = .interrupt then .between
  else .failed

/-- A message that arrives in `do_restore_end`. -/
def endRead (m : Message) : Serving :=
  if m.1 = .gen ∧ cString m.2 = nameBytes "restoreend ok" then .done
  else if m.1 = .warning then .ending
  else if m.1 = .interrupt then .ending
  else .failed

/-- A step of the server: what it reads of the messages that have been sent to it, and what it
sends.  `async_read_quick` need not see a message that is on its way. -/
inductive Server.Step : Server → List Message → Server → List Message → List Sent → Prop
  | betweenRead {todo m ms} :
      Step ⟨.between, todo⟩ (m :: ms) ⟨betweenRead m, todo⟩ ms []
  | restoreSbuf {e todo ms} :
      Step ⟨.between, e :: todo⟩ ms ⟨e.serving, todo⟩ ms (opening e.messages)
  | append {todo d x xs ms} :
      Step ⟨.sending d (x :: xs), todo⟩ ms ⟨.sending d xs, todo⟩ ms [⟨(.append, x), false⟩]
  | appendRead {todo d x xs m ms} (h : doQuickRead d m = 0) :
      Step ⟨.sending d (x :: xs), todo⟩ (m :: ms) ⟨.sending d xs, todo⟩ ms
        [⟨(.append, x), false⟩]
  | interrupted {todo d x xs m ms} (bytes : Nat) (checksum : Bytes) (h : doQuickRead d m = 1) :
      Step ⟨.sending d (x :: xs), todo⟩ (m :: ms) ⟨.between, todo⟩ ms
        [⟨(.append, x), false⟩, endFile bytes checksum]
  | unexpected {todo d x xs m ms} (h : doQuickRead d m = -1) :
      Step ⟨.sending d (x :: xs), todo⟩ (m :: ms) ⟨.failed, todo⟩ ms [⟨(.append, x), false⟩]
  | endFile {todo d ms} (bytes : Nat) (checksum : Bytes) :
      Step ⟨.sending d [], todo⟩ ms ⟨.between, todo⟩ ms [endFile bytes checksum]
  | restoreEnd {ms} :
      Step ⟨.between, []⟩ ms ⟨.ending, []⟩ ms [restoreEnd]
  | endRead {m ms} :
      Step ⟨.ending, []⟩ (m :: ms) ⟨endRead m, []⟩ ms []

/-! ## §2. The parties. -/

/-- The two parties and the messages that neither has read yet. -/
structure Parties where
  server : Server
  toClient : List Sent := []
  toServer : List Message := []
  client : Client := {}

/-- A step of the server. -/
inductive Parties.Serves : Parties → Parties → Prop
  | step {p s ms out} (h : Server.Step p.server p.toServer s ms out) :
      Serves p { p with server := s, toServer := ms, toClient := p.toClient ++ out }

/-- The client reads a message. -/
def Parties.clientReads (conf : Settings) (f : Finds) (m : Sent) (rest : List Sent) (p : Parties) :
    Parties :=
  let r := p.client.read conf f m.msg
  { p with toClient := rest, client := r.1, toServer := p.toServer ++ r.2 }

/-- A step of either. -/
inductive Parties.Step (conf : Settings) : Parties → Parties → Prop
  | server {p q} (h : Parties.Serves p q) : Step conf p q
  | client {p m rest} (f : Finds) (hreads : p.client.reads = true) (hm : p.toClient = m :: rest) :
      Step conf p (p.clientReads conf f m rest)

/-- A step of the client, by what it comes to. -/
theorem Parties.Step.to {conf : Settings} {p q : Parties} {m : Sent} {rest : List Sent} (f : Finds)
    (hreads : p.client.reads = true) (hm : p.toClient = m :: rest)
    (hq : p.clientReads conf f m rest = q) : Parties.Step conf p q :=
  hq ▸ Parties.Step.client f hreads hm

/-- What a restore of these entries can come to. -/
def Parties.Reachable (conf : Settings) (todo : List Item) (p : Parties) : Prop :=
  Relation.ReflTransGen (Parties.Step conf) { server := ⟨.between, todo⟩ } p

/-- **The next message that the client reads begins an entry, or ends the restore**, whatever
the server does before it is read. -/
def Parties.NextFirst (p : Parties) : Prop :=
  ∀ q, Relation.ReflTransGen Parties.Serves p q →
    ∀ m rest, q.toClient = m :: rest → m.first = true

/-! ## §3. The messages to the client. -/

/-- What part of the entries comes next; `named` says that a data path came with the entry. -/
inductive Mode
  | entry
  | stat
  | cmd (named : Bool)
  | link
  | data
  | finished
  deriving DecidableEq, Repr

/-- A message of the entries, and what comes after it. -/
def Mode.next : Mode → Sent → Option Mode
  | .entry, ⟨(.datapth, _), true⟩ => some .stat
  | .entry, ⟨(.stat, _), true⟩ => some (.cmd false)
  | .entry, ⟨(.gen, t), true⟩ => if t = nameBytes "restoreend" then some .finished else none
  | .stat, ⟨(.stat, _), false⟩ => some (.cmd true)
  | .cmd named, ⟨(c, _), false⟩ =>
      if c = .warning then some .entry
      else if c.filedata then if named then some .data else none
      else if c.isLink then some .link
      else if Entry.contains c then some .entry
      else none
  | .link, ⟨(c, _), false⟩ => if c.isLink then some .entry else none
  | .data, ⟨(.append, _), false⟩ => some .data
  | .data, ⟨(.endFile, t), false⟩ => if t = [] then none else some .entry
  | _, _ => none

/-- What comes after these messages. -/
def Mode.after : Mode → List Sent → Option Mode := List.foldlM Mode.next

theorem Mode.after_cons (m : Mode) (x : Sent) (xs : List Sent) :
    m.after (x :: xs) = (m.next x).bind fun m => m.after xs :=
  List.foldlM_cons

theorem Mode.after_append (m : Mode) (xs ys : List Sent) :
    m.after (xs ++ ys) = (m.after xs).bind fun m => m.after ys :=
  List.foldlM_append

/-- What the server is at, by what it sends next. -/
def Serving.Agrees : Serving → Mode → Prop
  | .between, m => m = .entry
  | .sending _ _, m => m = .data
  | .ending, m => m = .finished
  | .done, m => m = .finished
  | .failed, _ => True

theorem endFile_next (bytes : Nat) (checksum : Bytes) :
    Mode.data.next (endFile bytes checksum) = some .entry := by
  have h : endFileText bytes checksum ≠ [] := by
    unfold endFileText
    simp
  show (if endFileText bytes checksum = [] then none else some Mode.entry) = some .entry
  rw [if_neg h]

/-- The messages of an entry, up to its data. -/
theorem after_opening (e : Item) :
    ∃ m, Mode.entry.after (opening e.messages) = some m ∧ e.serving.Agrees m := by
  have hr := e.restorable
  unfold Item.messages Item.serving
  cases hf : e.sb.cmd.filedata with
  | true =>
      obtain ⟨d, hd⟩ := Option.isSome_iff_exists.mp (e.named hf)
      have hw : e.sb.cmd ≠ .warning := by
        intro h
        rw [h] at hf
        cases hf
      cases e.found with
      | some pieces => exact ⟨.data, by simp [hd, opening, Mode.after, Mode.next, hf, hw], rfl⟩
      | none => exact ⟨.entry, by simp [hd, opening, Mode.after, Mode.next], rfl⟩
  | false =>
      have hw : e.sb.cmd ≠ .warning := by
        intro h
        rw [h] at hr
        revert hr
        decide
      refine ⟨.entry, ?_, rfl⟩
      cases hl : e.sb.cmd.isLink <;> cases hd : e.sb.datapth <;>
        simp [opening, Mode.after, Mode.next, hf, hl, hw, List.contains_iff_mem.mp hr]

/-- **Whatever it is told, the server goes on with entries.** -/
theorem Server.Step.agrees {s s' : Server} {ms ms' : List Message} {out : List Sent} {m : Mode}
    (h : Server.Step s ms s' ms' out) (ha : s.serving.Agrees m) :
    ∃ m', m.after out = some m' ∧ s'.serving.Agrees m' := by
  cases h with
  | @betweenRead todo x ms =>
      refine ⟨m, rfl, ?_⟩
      show (RestoreClient.betweenRead x).Agrees m
      unfold RestoreClient.betweenRead
      split_ifs
      · exact ha
      · exact ha
      · trivial
  | @restoreSbuf e =>
      obtain rfl : m = .entry := ha
      exact after_opening e
  | append =>
      obtain rfl : m = .data := ha
      exact ⟨.data, rfl, rfl⟩
  | appendRead =>
      obtain rfl : m = .data := ha
      exact ⟨.data, rfl, rfl⟩
  | @interrupted _ _ x _ _ _ bytes checksum _ =>
      obtain rfl : m = .data := ha
      refine ⟨.entry, ?_, rfl⟩
      show (Mode.data.next (RestoreClient.endFile bytes checksum)).bind some = some .entry
      rw [endFile_next]
      rfl
  | unexpected =>
      obtain rfl : m = .data := ha
      exact ⟨.data, rfl, trivial⟩
  | endFile bytes checksum =>
      obtain rfl : m = .data := ha
      refine ⟨.entry, ?_, rfl⟩
      show (Mode.data.next (RestoreClient.endFile bytes checksum)).bind some = some .entry
      rw [endFile_next]
      rfl
  | restoreEnd =>
      obtain rfl : m = .entry := ha
      exact ⟨.finished, rfl, rfl⟩
  | @endRead x ms =>
      obtain rfl : m = .finished := ha
      refine ⟨.finished, rfl, ?_⟩
      show (RestoreClient.endRead x).Agrees .finished
      unfold RestoreClient.endRead
      split_ifs
      · rfl
      · rfl
      · rfl
      · trivial

/-- What a client says that goes on with the restore. -/
def Quiet (ms : List Message) : Prop := ∀ m ∈ ms, m.1 = .warning ∨ m.1 = .interrupt

/-- No message of such a client makes the server fail. -/
theorem Server.Step.quiet {s s' : Server} {ms ms' : List Message} {out : List Sent}
    (h : Server.Step s ms s' ms' out) (hq : Quiet ms) (hs : s.serving ≠ .failed) :
    Quiet ms' ∧ s'.serving ≠ .failed := by
  cases h with
  | @betweenRead todo x ms =>
      refine ⟨fun y hy => hq y (List.mem_cons_of_mem x hy), ?_⟩
      show RestoreClient.betweenRead x ≠ .failed
      unfold RestoreClient.betweenRead
      rcases hq x List.mem_cons_self with h | h <;> simp [h]
  | @restoreSbuf e =>
      refine ⟨hq, ?_⟩
      show e.serving ≠ .failed
      unfold Item.serving
      split <;> simp
  | append => exact ⟨hq, by simp⟩
  | @appendRead _ _ _ _ x => exact ⟨fun y hy => hq y (List.mem_cons_of_mem x hy), by simp⟩
  | @interrupted _ _ _ _ x => exact ⟨fun y hy => hq y (List.mem_cons_of_mem x hy), by simp⟩
  | @unexpected _ d _ _ x _ hx =>
      -- a warning and an interrupt are both expected
      unfold doQuickRead at hx
      rcases hq x List.mem_cons_self with h | h
      · simp [h] at hx
      · simp only [h, reduceCtorEq, if_false, if_true] at hx
        split at hx <;> omega
  | endFile => exact ⟨hq, by simp⟩
  | restoreEnd => exact ⟨hq, by simp⟩
  | @endRead x ms =>
      refine ⟨fun y hy => hq y (List.mem_cons_of_mem x hy), ?_⟩
      show RestoreClient.endRead x ≠ .failed
      unfold RestoreClient.endRead
      rcases hq x List.mem_cons_self with h | h <;> simp [h]

theorem Quiet.append {ms ms' : List Message} (h : Quiet ms) (h' : Quiet ms') :
    Quiet (ms ++ ms') := by
  intro m hm
  rcases List.mem_append.mp hm with hm | hm
  · exact h m hm
  · exact h' m hm

theorem quiet_nil : Quiet [] := fun _ hm => absurd hm (List.not_mem_nil)

theorem quiet_logged (warnings : List Bytes) : Quiet (logged warnings) := by
  intro m hm
  obtain ⟨w, -, rfl⟩ := List.mem_map.mp hm
  exact Or.inl rfl

theorem quiet_restoreInterrupt (sb : Sbuf) (msg : Bytes) (after : After) :
    Quiet (restoreInterrupt sb msg after).2 := by
  intro m hm
  unfold restoreInterrupt at hm
  split at hm
  · rcases List.mem_cons.mp hm with rfl | hm
    · exact Or.inl rfl
    · rw [List.mem_singleton.mp hm]
      exact Or.inr rfl
  · rw [List.mem_singleton.mp hm]
    exact Or.inl rfl

/-! ## §4. The place of the client. -/

/-- An entry whose data `restore_interrupt` reads to the end. -/
def Drained (sb : Sbuf) : Prop := interruptible sb.cmd = true ∧ sb.datapth.isSome = true

/-- What comes next for a client. -/
inductive At : Client → Mode → Prop
  | entry {r} (h : ∀ sb, r = some sb → sb.cmd.isMetadata = false) : At ⟨.stat none, r⟩ .entry
  -- refused metadata, whose data is still to come
  | behind {sb} (h : sb.cmd.isMetadata = true) : At ⟨.stat none, some sb⟩ .data
  | stat (d : Bytes) : At ⟨.stat (some d), none⟩ .stat
  | cmd (sb : Sbuf) : At ⟨.cmd sb, none⟩ (.cmd sb.datapth.isSome)
  | link {sb} (h : sb.cmd.isLink = true) : At ⟨.linkto sb, none⟩ .link
  | transfer {sb rpath} (h : sb.cmd.filedata = true) (hd : sb.datapth.isSome = true) :
      At ⟨.transfer sb rpath true, none⟩ .data
  -- the file was not opened, and its data has been read
  | unopened {sb rpath} (h : Drained sb) : At ⟨.transfer sb rpath false, some sb⟩ .entry
  | flush {sb after} (h : Drained sb) : At ⟨.flush sb after, none⟩ .data
  -- the data was at its end when the transfer failed
  | lost {sb m} (h : Drained sb) : At ⟨.flush sb .quit, none⟩ m
  | gone {sb} (h : Drained sb) : At ⟨.quit, some sb⟩ .entry

/-- The client has returned, and not from a refusal. -/
def Client.Gone (c : Client) : Prop := c = ⟨.quit, none⟩ ∨ c = ⟨.finished, none⟩

/-- The client will return -1, whatever it reads. -/
def Client.Leaving (c : Client) : Prop := c.doing = .quit ∨ ∃ sb, c.doing = .flush sb .quit

/-- What a message comes to for a client at a place where `m` comes next. -/
def Comes (m : Mode) (r : Result) : Prop :=
  r.1.Gone ∨ (At r.1 m ∧ (r.1.Leaving ∨ Quiet r.2))

/-- The way back from `restore_interrupt`, when the data has been read. -/
theorem After.doing_at {sb : Sbuf} (h : Drained sb) (after : After) :
    At ⟨after.doing sb, some sb⟩ .entry := by
  have hm : sb.cmd.isMetadata = false := ((interruptible_iff sb.cmd).mp h.1).2
  cases after with
  | next =>
      apply At.entry
      intro sb' hsb
      rw [← Option.some.inj hsb]
      exact hm
  | transfer rpath => exact At.unopened h
  | quit => exact At.gone h

/-- **A refusal at the beginning of the data**: it is read to its end, or it was metadata. -/
theorem restoreInterrupt_data {sb : Sbuf} (h : sb.cmd.filedata = true)
    (hd : sb.datapth.isSome = true) (msg : Bytes) {after : After}
    (hafter : sb.cmd.isMetadata = true → after = .next) :
    At (restoreInterrupt sb msg after).1 .data := by
  rcases restoreInterrupt_cases sb msg after with ⟨hi, hs, hr⟩ | ⟨hi, hr⟩
  · rw [hr]
    exact At.flush ⟨hi, hs⟩
  · rw [hr]
    cases hm : sb.cmd.isMetadata with
    | true =>
        rw [hafter hm]
        exact At.behind hm
    | false =>
        exfalso
        rcases hi with hi | hi
        · have := (interruptible_iff sb.cmd).mpr ⟨h, hm⟩
          rw [hi] at this
          cases this
        · rw [hi] at hd
          cases hd

/-- A refusal of an entry that has no data. -/
theorem restoreInterrupt_entry {sb : Sbuf} (h : sb.cmd.filedata = false) (msg : Bytes) :
    At (restoreInterrupt sb msg .next).1 .entry := by
  have hm : sb.cmd.isMetadata = false := by
    revert h
    cases sb.cmd <;> simp [Cmd.filedata, Cmd.isMetadata]
  rcases restoreInterrupt_cases sb msg .next with ⟨hi, -, -⟩ | ⟨-, hr⟩
  · rw [((interruptible_iff sb.cmd).mp hi).1] at h
    cases h
  · rw [hr]
    apply At.entry
    intro sb' hsb
    rw [← Option.some.inj hsb]
    exact hm

theorem next_entry (sent : List Message) : At (next sent).1 .entry :=
  At.entry fun _ h => nomatch h

section Entries

variable {conf : Settings} {f : Finds} {sb : Sbuf}

/-- `restore_file_or_get_meta` reads the data, or has it read. -/
theorem restoreFileOrGetMeta_data (h : sb.cmd.filedata = true) (hd : sb.datapth.isSome = true)
    (fname : Bytes) {metadata : Bool} (hmeta : sb.cmd.isMetadata = true → metadata = true) :
    At (restoreFileOrGetMeta f sb fname metadata).1 .data
      ∧ Quiet (restoreFileOrGetMeta f sb fname metadata).2 := by
  unfold restoreFileOrGetMeta
  split_ifs with h₁ h₂
  · exact ⟨restoreInterrupt_data h hd _ fun _ => rfl, quiet_restoreInterrupt _ _ _⟩
  · refine ⟨restoreInterrupt_data h hd _ ?_, quiet_restoreInterrupt _ _ _⟩
    -- metadata goes to no file
    intro hm
    simp [hmeta hm] at h₂
  · exact ⟨At.transfer h hd, quiet_nil⟩

theorem restoreEntry_data (h : sb.cmd.filedata = true) (hd : sb.datapth.isSome = true)
    (fullpath : Bytes) :
    At (restoreEntry f sb fullpath).1 .data ∧ Quiet (restoreEntry f sb fullpath).2 := by
  have hfile := @restoreFileOrGetMeta_data f sb h hd fullpath
  have hmetadata : At (restoreMetadata f sb fullpath).1 .data
      ∧ Quiet (restoreMetadata f sb fullpath).2 := by
    refine ⟨(hfile fun _ => rfl).1, Quiet.append ?_ (hfile fun _ => rfl).2⟩
    split_ifs
    · exact quiet_logged _
    · exact quiet_nil
  revert h
  unfold restoreEntry
  cases hc : sb.cmd <;> intro h <;>
    first | exact hmetadata | exact hfile (by simp [hc, Cmd.isMetadata]) | cases h

theorem restoreEntry_entry (h : sb.cmd.filedata = false) (hk : Entry.contains sb.cmd = true)
    (fullpath : Bytes) :
    At (restoreEntry f sb fullpath).1 .entry ∧ Quiet (restoreEntry f sb fullpath).2 := by
  have hrefused : ∀ msg, At (restoreInterrupt sb msg .next).1 .entry
      ∧ Quiet (restoreInterrupt sb msg .next).2 := fun msg =>
    ⟨restoreInterrupt_entry h msg, quiet_restoreInterrupt sb msg .next⟩
  have hdone : At (next (logged f.warnings)).1 .entry ∧ Quiet (next (logged f.warnings)).2 :=
    ⟨next_entry _, quiet_logged _⟩
  have hdir : At (restoreDir f sb fullpath).1 .entry ∧ Quiet (restoreDir f sb fullpath).2 := by
    unfold restoreDir
    split_ifs
    · exact hrefused _
    · exact ⟨next_entry _, quiet_nil⟩
    · exact hrefused _
    · exact hdone
  have hlink : At (restoreLink f sb fullpath).1 .entry ∧ Quiet (restoreLink f sb fullpath).2 := by
    unfold restoreLink
    split_ifs
    · exact hrefused _
    · exact hrefused _
    · exact hdone
  have hspecial : At (restoreSpecial f sb fullpath).1 .entry
      ∧ Quiet (restoreSpecial f sb fullpath).2 := by
    unfold restoreSpecial
    split_ifs
    · exact hrefused _
    · exact hdone
  revert h hk
  unfold restoreEntry
  cases hc : sb.cmd <;> intro h hk <;>
    first
    | exact hdir
    | exact hlink
    | exact hspecial
    | exact absurd h (by decide)
    | simp [Entry] at hk

/-- What an entry comes to: its refusal, or what is done with it under its full path. -/
theorem entry_cases (hk : Entry.contains sb.cmd = true) :
    (∃ msg, entry conf f sb = restoreInterrupt sb msg .next)
      ∨ ∃ path fullpath, entry conf f sb = restoreEntry f { sb with path := path } fullpath := by
  unfold entry
  rw [if_pos hk]
  dsimp only
  split
  · exact Or.inl ⟨_, rfl⟩
  · split_ifs
    · exact Or.inr ⟨_, _, rfl⟩
    · exact Or.inl ⟨_, rfl⟩

theorem restorable_of_filedata {cmd : Cmd} (h : cmd.filedata = true) :
    Entry.contains cmd = true := by
  revert h
  cases cmd <;> simp [Cmd.filedata, Entry]

/-- **An entry with data leaves the client at its data**, refused or not. -/
theorem entry_data (h : sb.cmd.filedata = true) (hd : sb.datapth.isSome = true) :
    At (entry conf f sb).1 .data ∧ Quiet (entry conf f sb).2 := by
  rcases @entry_cases conf f sb (restorable_of_filedata h) with ⟨msg, hr⟩ | ⟨path, fullpath, hr⟩
  · rw [hr]
    exact ⟨restoreInterrupt_data h hd msg fun _ => rfl, quiet_restoreInterrupt sb msg .next⟩
  · rw [hr]
    exact @restoreEntry_data f { sb with path := path } h hd fullpath

/-- And one without data leaves it at the next entry. -/
theorem entry_entry (h : sb.cmd.filedata = false) (hk : Entry.contains sb.cmd = true) :
    At (entry conf f sb).1 .entry ∧ Quiet (entry conf f sb).2 := by
  rcases @entry_cases conf f sb hk with ⟨msg, hr⟩ | ⟨path, fullpath, hr⟩
  · rw [hr]
    exact ⟨restoreInterrupt_entry h msg, quiet_restoreInterrupt sb msg .next⟩
  · rw [hr]
    exact @restoreEntry_entry f { sb with path := path } h hk fullpath

/-- A transfer that has failed: the client is on its way out. -/
theorem transferFailed_comes {rpath : Bytes} {complaint : Option Bytes} {m : Mode}
    (h : sb.cmd.filedata = true) (hd : sb.datapth.isSome = true) :
    Comes m (transferFailed sb rpath complaint) := by
  unfold transferFailed
  cases hm : isMeta sb.cmd with
  | true => exact Or.inl (Or.inl rfl)
  | false =>
      obtain ⟨hm, -⟩ := Bool.or_eq_false_iff.mp hm
      have hi := (interruptible_iff sb.cmd).mpr ⟨h, hm⟩
      obtain ⟨d, hd'⟩ := Option.isSome_iff_exists.mp hd
      have hr : ∀ msg, (restoreInterrupt sb msg .quit).1 = ⟨.flush sb .quit, none⟩ := by
        intro msg
        unfold restoreInterrupt
        rw [hi, hd']
      refine Or.inr ⟨?_, Or.inl (Or.inr ⟨sb, ?_⟩)⟩
      · show At (restoreInterrupt sb _ .quit).1 m
        rw [hr]
        exact At.lost ⟨hi, hd⟩
      · show (restoreInterrupt sb _ .quit).1.doing = _
        rw [hr]

end Entries

/-! ## §5. One message. -/

section Read

variable {conf : Settings} {f : Finds} {m m' : Mode} {x : Sent}

/-- The messages with which an entry begins. -/
inductive Opens : Sent → Mode → Prop
  | datapth (d : Bytes) : Opens ⟨(.datapth, d), true⟩ .stat
  | stat (b : Bytes) : Opens ⟨(.stat, b), true⟩ (.cmd false)
  | restoreend : Opens restoreEnd .finished

theorem opens_of_next (h : Mode.entry.next x = some m') : Opens x m' := by
  unfold Mode.next at h
  split at h
  · obtain rfl := Option.some.inj h
    exact Opens.datapth _
  · obtain rfl := Option.some.inj h
    exact Opens.stat _
  · split_ifs at h with ht
    obtain rfl := Option.some.inj h
    rw [ht]
    exact Opens.restoreend
  all_goals first | (rename_i heq; cases heq) | cases h

/-- The messages of the data. -/
inductive Brings : Sent → Mode → Prop
  | append (b : Bytes) : Brings ⟨(.append, b), false⟩ .data
  | endFile {t : Bytes} (ht : t ≠ []) : Brings ⟨(.endFile, t), false⟩ .entry

theorem brings_of_next (h : Mode.data.next x = some m') : Brings x m' := by
  unfold Mode.next at h
  split at h
  · rename_i heq; cases heq
  · rename_i heq; cases heq
  · rename_i heq; cases heq
  · rename_i heq; cases heq
  · rename_i heq; cases heq
  · rename_i heq; cases heq
  · obtain rfl := Option.some.inj h
    exact Brings.append _
  · split_ifs at h with ht
    obtain rfl := Option.some.inj h
    exact Brings.endFile ht
  · cases h

/-- Only the data has an end. -/
theorem endFile_only_in_data (h : m.next x = some m') (hx : x.msg.1 = .endFile) : m = .data := by
  obtain ⟨⟨c, t⟩, first⟩ := x
  obtain rfl : c = .endFile := hx
  cases m with
  | data => rfl
  | entry => cases first <;> cases h
  | stat => cases first <;> cases h
  | cmd named => cases first <;> cases h
  | link => cases first <;> cases h
  | finished => cases first <;> cases h

/-- The client is at the top of its loop. -/
theorem read_entry {r : Option Sbuf} (h : Mode.entry.next x = some m') :
    Comes m' ((⟨.stat none, r⟩ : Client).read conf f x.msg) := by
  cases opens_of_next h with
  | datapth d => exact Or.inr ⟨At.stat d, Or.inr quiet_nil⟩
  | stat b => exact Or.inr ⟨At.cmd (statOf none b), Or.inr quiet_nil⟩
  | restoreend =>
      refine Or.inl (Or.inr ?_)
      have hend : endTexts.contains (cString (nameBytes "restoreend")) = true := by decide
      show (statRead none restoreEnd.msg).1 = _
      simp only [restoreEnd, statRead, hend, if_true]

/-- The entry itself. -/
theorem read_cmd {sb : Sbuf} (h : (Mode.cmd sb.datapth.isSome).next x = some m') :
    Comes m' ((⟨.cmd sb, none⟩ : Client).read conf f x.msg) := by
  obtain ⟨⟨c, t⟩, first⟩ := x
  cases first with
  | true => cases h
  | false =>
      show Comes m' (if c.isLink = true
        then (⟨.linkto { sb with cmd := c, path := some t }, none⟩, [])
        else entry conf f { sb with cmd := c, path := some t })
      simp only [Mode.next] at h
      by_cases hw : c = .warning
      · rw [if_pos hw] at h
        obtain rfl := Option.some.inj h
        obtain rfl := hw
        exact Or.inr ⟨next_entry [], Or.inr quiet_nil⟩
      · rw [if_neg hw] at h
        by_cases hf : c.filedata = true
        · rw [if_pos hf] at h
          have hl : c.isLink = false := by
            revert hf
            cases c <;> simp [Cmd.filedata, Cmd.isLink]
          rw [hl, if_neg (by decide)]
          split_ifs at h with hd
          obtain rfl := Option.some.inj h
          obtain ⟨hat, hq⟩ := @entry_data conf f { sb with cmd := c, path := some t } hf hd
          exact Or.inr ⟨hat, Or.inr hq⟩
        · rw [if_neg hf] at h
          by_cases hl : c.isLink = true
          · rw [if_pos hl] at h ⊢
            obtain rfl := Option.some.inj h
            exact Or.inr ⟨At.link hl, Or.inr quiet_nil⟩
          · rw [if_neg hl] at h ⊢
            split_ifs at h with hk
            obtain rfl := Option.some.inj h
            obtain ⟨hat, hq⟩ := @entry_entry conf f { sb with cmd := c, path := some t }
              (by simpa using hf) hk
            exact Or.inr ⟨hat, Or.inr hq⟩

/-- What a link points to. -/
theorem read_link {sb : Sbuf} (hsb : sb.cmd.isLink = true) (h : Mode.link.next x = some m') :
    Comes m' ((⟨.linkto sb, none⟩ : Client).read conf f x.msg) := by
  obtain ⟨⟨c, t⟩, first⟩ := x
  cases first with
  | true => cases h
  | false =>
      simp only [Mode.next] at h
      split_ifs at h with hl
      obtain rfl := Option.some.inj h
      show Comes .entry (if c.isLink = true then entry conf f { sb with linkto := some t }
        else failed)
      rw [if_pos hl]
      have hf : sb.cmd.filedata = false ∧ Entry.contains sb.cmd = true := by
        revert hsb
        cases sb.cmd <;> simp [Cmd.isLink, Cmd.filedata, Entry]
      obtain ⟨hat, hq⟩ := @entry_entry conf f { sb with linkto := some t } hf.1 hf.2
      exact Or.inr ⟨hat, Or.inr hq⟩

/-- The data, in a transfer. -/
theorem read_transfer {sb : Sbuf} {rpath : Bytes} (hf : sb.cmd.filedata = true)
    (hd : sb.datapth.isSome = true) (h : Mode.data.next x = some m') :
    Comes m' ((⟨.transfer sb rpath true, none⟩ : Client).read conf f x.msg) := by
  cases brings_of_next h with
  | append b =>
      show Comes .data (if f.writes = true then (⟨.transfer sb rpath true, none⟩, [])
        else transferFailed sb rpath f.complaint)
      split_ifs
      · exact Or.inr ⟨At.transfer hf hd, Or.inr quiet_nil⟩
      · exact transferFailed_comes hf hd
  | endFile ht =>
      show Comes .entry (if (!f.writes) = true then transferFailed sb rpath f.complaint
        else if (isMeta sb.cmd || f.closes) = true then next (logged f.warnings)
        else transferFailed sb rpath none)
      split_ifs
      · exact transferFailed_comes hf hd
      · exact Or.inr ⟨next_entry _, Or.inr (quiet_logged _)⟩
      · exact transferFailed_comes hf hd

/-- A transfer with no file to write to, at the next entry. -/
theorem read_unopened {sb : Sbuf} {rpath : Bytes} {r : Option Sbuf} (hsb : Drained sb)
    (h : Mode.entry.next x = some m') :
    Comes m' ((⟨.transfer sb rpath false, r⟩ : Client).read conf f x.msg) := by
  have hf : sb.cmd.filedata = true := ((interruptible_iff sb.cmd).mp hsb.1).1
  cases opens_of_next h with
  | datapth d => exact transferFailed_comes hf hsb.2
  | stat b => exact transferFailed_comes hf hsb.2
  | restoreend => exact transferFailed_comes hf hsb.2

/-- The loop of `restore_interrupt`, in the data. -/
theorem read_flush {sb : Sbuf} {after : After} (hsb : Drained sb)
    (h : Mode.data.next x = some m') :
    Comes m' ((⟨.flush sb after, none⟩ : Client).read conf f x.msg) := by
  cases brings_of_next h with
  | append b =>
      have hr : flushRead sb after (.append, b) = ⟨.flush sb after, none⟩ := by
        unfold flushRead
        rw [if_pos rfl, ite_self]
      show Comes .data (flushRead sb after (.append, b), [])
      rw [hr]
      exact Or.inr ⟨At.flush hsb, Or.inr quiet_nil⟩
  | @endFile t ht =>
      have hr : flushRead sb after (.endFile, t) = ⟨after.doing sb, some sb⟩ := by
        unfold flushRead
        rw [if_neg ht, if_neg (by simp), if_pos rfl]
      show Comes .entry (flushRead sb after (.endFile, t), [])
      rw [hr]
      exact Or.inr ⟨After.doing_at hsb after, Or.inr quiet_nil⟩

/-- The same loop past the data: it meets no end of a file. -/
theorem read_lost {sb : Sbuf} (hsb : Drained sb) (h : m.next x = some m') :
    Comes m' ((⟨.flush sb .quit, none⟩ : Client).read conf f x.msg) := by
  by_cases hx : x.msg.1 = .endFile
  · obtain rfl := endFile_only_in_data h hx
    exact read_flush hsb h
  · show Comes m' (flushRead sb .quit x.msg, [])
    unfold flushRead
    rw [if_neg hx]
    split_ifs
    · exact Or.inr ⟨At.lost hsb, Or.inr quiet_nil⟩
    · exact Or.inr ⟨At.lost hsb, Or.inr quiet_nil⟩
    · exact Or.inl (Or.inl rfl)

/-- **Each message finds the client at its place**, or is the last one that it reads. -/
theorem At.read {c : Client} (h : At c m) (hreads : c.reads = true) (hx : m.next x = some m') :
    Comes m' (c.read conf f x.msg) := by
  cases h with
  | entry hr => exact read_entry hx
  | behind hm =>
      -- the data of the entry is not expected
      cases brings_of_next hx with
      | append b => exact Or.inl (Or.inl rfl)
      | endFile ht => exact Or.inl (Or.inl rfl)
  | stat d =>
      obtain ⟨⟨c, t⟩, first⟩ := x
      have hc : c = .stat ∧ m' = .cmd true := by
        cases first <;> cases c <;> simp_all [Mode.next]
      obtain ⟨rfl, rfl⟩ := hc
      exact Or.inr ⟨At.cmd (statOf (some d) t), Or.inr quiet_nil⟩
  | cmd sb => exact read_cmd hx
  | link hl => exact read_link hl hx
  | transfer hf hd => exact read_transfer hf hd hx
  | unopened hsb => exact read_unopened hsb hx
  | flush hsb => exact read_flush hsb hx
  | lost hsb => exact read_lost hsb hx
  | gone hsb => cases hreads

end Read

/-! ## §6. Runs. -/

/-- **What holds of every run**: the messages on their way lead from the place of the client to
that of the server, and a client that goes on has said nothing the server does not expect. -/
def Inv (p : Parties) : Prop :=
  p.client.Gone ∨ ∃ m m', At p.client m ∧ m.after p.toClient = some m'
    ∧ p.server.serving.Agrees m'
    ∧ (p.client.Leaving ∨ (Quiet p.toServer ∧ p.server.serving ≠ .failed))

theorem Inv.start (todo : List Item) : Inv { server := ⟨.between, todo⟩ } :=
  Or.inr ⟨.entry, .entry, At.entry (fun _ h => nomatch h), rfl, rfl, Or.inr ⟨quiet_nil, nofun⟩⟩

theorem Inv.serves {p q : Parties} (h : Inv p) (hs : Parties.Serves p q) : Inv q := by
  obtain ⟨hstep⟩ := hs
  rename_i s ms out
  rcases h with hgone | ⟨m, m', hat, hafter, hagrees, hrest⟩
  · exact Or.inl hgone
  · obtain ⟨m'', hout, hagrees'⟩ := hstep.agrees hagrees
    refine Or.inr ⟨m, m'', hat, ?_, hagrees', ?_⟩
    · show m.after (p.toClient ++ out) = some m''
      rw [Mode.after_append, hafter]
      exact hout
    · rcases hrest with hl | ⟨hq, hf⟩
      · exact Or.inl hl
      · exact Or.inr (hstep.quiet hq hf)

/-- A client that is on its way out stays so. -/
theorem Client.Leaving.read {c : Client} (h : c.Leaving) (conf : Settings) (f : Finds)
    (m : Message) : (c.read conf f m).1.Leaving := by
  obtain ⟨doing, refused⟩ := c
  rcases h with h | ⟨sb, h⟩
  · obtain rfl : doing = .quit := h
    exact Or.inl rfl
  · obtain rfl : doing = .flush sb .quit := h
    show (flushRead sb .quit m).Leaving
    unfold flushRead
    split_ifs
    · exact Or.inr ⟨sb, rfl⟩
    · exact Or.inr ⟨sb, rfl⟩
    · exact Or.inl rfl
    · exact Or.inl rfl

theorem Inv.clientReads {p : Parties} {conf : Settings} {f : Finds} {x : Sent} {rest : List Sent}
    (h : Inv p) (hreads : p.client.reads = true) (hm : p.toClient = x :: rest) :
    Inv (p.clientReads conf f x rest) := by
  rcases h with hgone | ⟨m, m', hat, hafter, hagrees, hrest⟩
  · exfalso
    rcases hgone with hc | hc
    · rw [hc] at hreads
      cases hreads
    · rw [hc] at hreads
      cases hreads
  · rw [hm, Mode.after_cons] at hafter
    obtain ⟨m₁, hnext, hafter⟩ := Option.bind_eq_some_iff.mp hafter
    rcases @At.read conf f m m₁ x p.client hat hreads hnext with hgone | ⟨hat', hsaid⟩
    · exact Or.inl hgone
    · refine Or.inr ⟨m₁, m', hat', hafter, hagrees, ?_⟩
      rcases hrest with hl | ⟨hq, hf⟩
      · exact Or.inl (hl.read conf f x.msg)
      · rcases hsaid with hl | hq'
        · exact Or.inl hl
        · exact Or.inr ⟨hq.append hq', hf⟩

theorem Inv.reachable {conf : Settings} {todo : List Item} {p : Parties}
    (hp : Parties.Reachable conf todo p) : Inv p := by
  induction hp with
  | refl => exact Inv.start todo
  | tail _ hstep ih =>
      cases hstep with
      | server h => exact ih.serves h
      | client f hreads hm => exact ih.clientReads hreads hm

/-! ## §7. After a refusal. -/

/-- The server goes on with entries, so the next message begins one. -/
theorem nextFirst_of_entry {p : Parties} {m : Mode}
    (hafter : Mode.entry.after p.toClient = some m)
    (hagrees : p.server.serving.Agrees m) : p.NextFirst := by
  intro q hq
  suffices h : ∃ m, Mode.entry.after q.toClient = some m ∧ q.server.serving.Agrees m by
    obtain ⟨m, hm, -⟩ := h
    intro x rest hx
    rw [hx, Mode.after_cons] at hm
    obtain ⟨m₁, hnext, -⟩ := Option.bind_eq_some_iff.mp hm
    cases opens_of_next hnext <;> rfl
  induction hq with
  | refl => exact ⟨m, hafter, hagrees⟩
  | tail _ hs ih =>
      obtain ⟨m₁, hm₁, hagrees₁⟩ := ih
      obtain ⟨hstep⟩ := hs
      rename_i s ms out
      obtain ⟨m₂, hout, hagrees₂⟩ := hstep.agrees hagrees₁
      refine ⟨m₂, ?_, hagrees₂⟩
      show Mode.entry.after (_ ++ out) = some m₂
      rw [Mode.after_append, hm₁]
      exact hout

/-- The server is in the data, so the next message brings some of it. -/
theorem not_nextFirst_of_data {p : Parties} {m : Mode}
    (hafter : Mode.data.after p.toClient = some m) (hagrees : p.server.serving.Agrees m)
    (hs : p.server.serving ≠ .failed) : ¬ p.NextFirst := by
  intro hfirst
  cases hc : p.toClient with
  | cons x rest =>
      have hx := hfirst p Relation.ReflTransGen.refl x rest hc
      rw [hc, Mode.after_cons] at hafter
      obtain ⟨m₁, hnext, -⟩ := Option.bind_eq_some_iff.mp hafter
      cases brings_of_next hnext <;> cases hx
  | nil =>
      rw [hc] at hafter
      obtain rfl := Option.some.inj hafter
      obtain ⟨⟨serving, todo⟩, toClient, toServer, client⟩ := p
      obtain rfl : toClient = [] := hc
      cases serving with
      | sending d pieces =>
          cases pieces with
          | nil =>
              have := hfirst _ (Relation.ReflTransGen.single ⟨Server.Step.endFile 0 []⟩) _ [] rfl
              cases this
          | cons y ys =>
              have := hfirst _ (Relation.ReflTransGen.single ⟨Server.Step.append⟩) _ [] rfl
              cases this
      | between => cases hagrees
      | ending => cases hagrees
      | done => cases hagrees
      | failed => exact hs rfl

/-- **A refusal leaves a restore in step exactly when the entry was not metadata**: whatever the
strip count, the setting to overwrite and the order of the messages, once `restore_interrupt` has
returned 0 the next message that the client reads begins an entry or ends the restore, if and only
if the command of the refused entry is neither `CMD_METADATA` nor `CMD_ENC_METADATA`. -/
theorem refused_in_step_iff {conf : Settings} {todo : List Item} {p : Parties}
    (hp : Parties.Reachable conf todo p) {sb : Sbuf} (hr : p.client.refused = some sb) :
    p.NextFirst ↔ sb.cmd.isMetadata = false := by
  rcases Inv.reachable hp with hgone | ⟨m, m', hat, hafter, hagrees, hrest⟩
  · -- this client has refused nothing
    rcases hgone with hc | hc <;> rw [hc] at hr <;> cases hr
  · obtain ⟨server, toClient, toServer, client⟩ := p
    cases hat with
    | entry h => exact iff_of_true (nextFirst_of_entry hafter hagrees) (h sb hr)
    | @behind sb' hmeta =>
        obtain rfl : sb' = sb := Option.some.inj hr
        rcases hrest with hl | ⟨-, hf⟩
        · -- it goes on with the restore
          rcases hl with hl | ⟨_, hl⟩ <;> cases hl
        · refine iff_of_false (not_nextFirst_of_data hafter hagrees hf) ?_
          rw [hmeta]
          decide
    | @unopened sb' rpath h =>
        obtain rfl : sb' = sb := Option.some.inj hr
        exact iff_of_true (nextFirst_of_entry hafter hagrees) ((interruptible_iff _).mp h.1).2
    | @gone sb' h =>
        obtain rfl : sb' = sb := Option.some.inj hr
        exact iff_of_true (nextFirst_of_entry hafter hagrees) ((interruptible_iff _).mp h.1).2
    | stat d => cases hr
    | cmd sb' => cases hr
    | link h => cases hr
    | transfer h hd => cases hr
    | flush h => cases hr
    | lost h => cases hr

/-- Two components are stripped from the paths. -/
def stripTwo : Settings := { strip := 2 }

/-- An entry for "/a". -/
def sampleSbuf (cmd : Cmd) : Sbuf :=
  { cmd := cmd, path := some [47, 97], datapth := some [116], statbuf := [65] }

/-- The same entry as the client has it. -/
def sampleRead (cmd : Cmd) : Sbuf :=
  { statOf (some [116]) [65] with cmd := cmd, path := some [47, 97] }

/-- What the client says of it. -/
def sampleWarning : Message := (.warning, text 256 "Stripped too many components: " [47, 97])

/-- The entry on the server. -/
def sampleItem (cmd : Cmd) (hf : cmd.filedata = true) (pieces : List Bytes) : Item :=
  ⟨sampleSbuf cmd, some pieces, restorable_of_filedata hf, fun _ => rfl⟩

/-- The client has read all of the entry but its command. -/
theorem sample_begun {cmd : Cmd} (hf : cmd.filedata = true) (pieces : List Bytes) :
    Parties.Reachable stripTwo [sampleItem cmd hf pieces]
      { server := ⟨.sending [116] pieces, []⟩, toClient := [⟨(cmd, [47, 97]), false⟩],
        client := ⟨.cmd (statOf (some [116]) [65]), none⟩ } := by
  have hopen : opening (sampleItem cmd hf pieces).messages
      = [⟨(.datapth, [116]), true⟩, ⟨(.stat, [65]), false⟩, ⟨(cmd, [47, 97]), false⟩] := by
    simp [Item.messages, sampleItem, sampleSbuf, hf, opening, cString]
  have hserving : (sampleItem cmd hf pieces).serving = .sending [116] pieces := by
    simp [Item.serving, sampleItem, sampleSbuf, hf, cString]
  have hsent : Parties.Reachable stripTwo [sampleItem cmd hf pieces]
      { server := ⟨(sampleItem cmd hf pieces).serving, []⟩,
        toClient := opening (sampleItem cmd hf pieces).messages } :=
    Relation.ReflTransGen.single (.server ⟨Server.Step.restoreSbuf⟩)
  rw [hopen, hserving] at hsent
  exact (hsent.tail (.to {} rfl rfl rfl)).tail (.to {} rfl rfl rfl)

/-- The file has been refused, and its end has been read. -/
def fileRefused : Parties where
  server := ⟨.between, []⟩
  toServer := [sampleWarning, (.interrupt, [116])]
  client := ⟨.stat none, some (sampleRead .file)⟩

theorem fileRefused_reachable :
    Parties.Reachable stripTwo [sampleItem .file rfl []] fileRefused := by
  have hflush := (@sample_begun .file rfl []).tail (.client {} rfl rfl)
  have hend : Parties.Reachable stripTwo [sampleItem .file rfl []]
      { server := ⟨.between, []⟩, toClient := [endFile 0 []],
        toServer := [sampleWarning, (.interrupt, [116])],
        client := ⟨.flush (sampleRead .file) .next, none⟩ } :=
    hflush.tail (.server ⟨Server.Step.endFile 0 []⟩)
  exact hend.tail (.to {} rfl rfl rfl)

/-- A refused file leaves the restore in step. -/
theorem refused_in_step_iff_file :
    fileRefused.NextFirst ↔ (sampleRead .file).cmd.isMetadata = false :=
  refused_in_step_iff fileRefused_reachable rfl

/-- The metadata has been refused, and its data is still to come. -/
def metadataRefused : Parties where
  server := ⟨.sending [116] [[1]], []⟩
  toServer := [sampleWarning]
  client := ⟨.stat none, some (sampleRead .metadata)⟩

/-- **Refused metadata is not read to its end**: the next message that the client reads is
its data. -/
theorem metadata_not_drained :
    ¬ ∀ conf todo p, Parties.Reachable conf todo p → ∀ sb, p.client.refused = some sb →
      p.NextFirst := by
  intro h
  have hrefused : Parties.Reachable stripTwo [sampleItem .metadata rfl [[1]]] metadataRefused :=
    (sample_begun rfl [[1]]).tail (.to {} rfl rfl rfl)
  exact @not_nextFirst_of_data metadataRefused _ rfl rfl nofun (h _ _ _ hrefused _ rfl)

end Burp.RestoreClient
