/-
  Burp.Session.Requests — what a server makes of the requests of a client (server.c, client.c,
  restore_client.c, list_client.c).

  A request is one line of text.  The server refuses it with another text, or says that it begins:
  for a backup with the compression and whether an interrupted one is resumed.

  Main results:
    * `serves_backup`, `serves_restore`, `serves_list` — what the client goes on with is what the
      server does.
-/
import Burp.Server.Switch
import Burp.Session.Client

namespace Burp.Session

open FileSystem
open Burp.Phase2 (nameBytes)
open Burp.Conf (atoi)
open Burp.Restore (Message)
open Burp.Server (Act Answer Around ClientConf child childBackup childList childRestore splitColon
  splitLastColon stripSlash)
open Burp.Store (cString Cmd)

/-! ## §1. What is asked for. -/

/-- The texts fit in a request. -/
structure Fits (backup arg : Bytes) : Prop where
  backup_zero : 0 ∉ backup
  arg_zero : 0 ∉ arg
  length_le : backup.length + arg.length ≤ 502

/-- A restore of the backup, with the regular expression, that the client has named.  A colon
separates them. -/
def AsksRestore (conf : OwnConf) (backup : Bytes) (regex : Option Bytes) : Prop :=
  Fits (conf.backup.getD []) (conf.regex.getD []) → 58 ∉ conf.backup.getD [] →
    backup = conf.backup.getD [] ∧ regex = some (conf.regex.getD [])

/-- A list.  In a directory the first colon separates the backup from it, elsewhere the last one
separates it from the regular expression. -/
def AsksList (conf : OwnConf) (act : Option Act) : Prop :=
  match conf.browsedir with
  | some dir =>
      ∃ backupno browsedir, act = some (.list backupno none browsedir)
        ∧ (Fits (conf.backup.getD []) dir → 58 ∉ conf.backup.getD [] →
          backupno = conf.backup.getD [] ∧ browsedir = some (stripSlash dir))
  | none =>
      ∃ backupno listregex, act = some (.list backupno listregex none)
        ∧ (Fits (conf.backup.getD []) (conf.regex.getD []) → 58 ∉ conf.regex.getD [] →
          backupno = conf.backup.getD [] ∧ listregex = some (conf.regex.getD []))

/-- What the server does for a client that goes on. -/
def Serves (act : Action) (conf : OwnConf) (cconf : ClientConf) (ans : Answer) : Goes → Prop
  | .backup resume =>
      (act = .backup ∨ act = .backupTimed) ∧ ans.act = some (.backup resume)
        ∧ (cconf.compression ≤ 9 → conf.compression = cconf.compression)
  | .restore verify =>
      act = (if verify then .verify else .restore)
        ∧ ∃ backup regex, ans.act = some (.restore verify backup regex)
          ∧ AsksRestore conf backup regex
  | .list => act = .list ∧ AsksList conf ans.act

/-! ## §2. The request as it is read. -/

/-- A text with an argument, in a buffer. -/
theorem cString_take {pre x : Bytes} {size : Nat} (hpre : 0 ∉ pre) (hsize : pre.length ≤ size) :
    cString ((pre ++ x).take size) = pre ++ cString (x.take (size - pre.length)) := by
  rw [List.take_append, List.take_of_length_le hsize, Store.cString_append hpre]

section Colon

variable {backup arg : Bytes}

/-- Both texts are read if they fit. -/
theorem cString_request (h : Fits backup arg) {size : Nat} (hsize : 503 ≤ size) :
    cString ((backup ++ 58 :: arg).take size) = backup ++ 58 :: arg := by
  have hzero : 0 ∉ backup ++ 58 :: arg := by
    rw [List.mem_append, not_or]
    exact ⟨h.backup_zero, List.not_mem_cons_of_ne_of_not_mem (by decide) h.arg_zero⟩
  have hlength : (backup ++ 58 :: arg).length ≤ size := by
    have := h.length_le
    rw [List.length_append, List.length_cons]
    omega
  rw [List.take_of_length_le hlength, Store.cString_of_notMem hzero]

theorem splitColon_of (h : 58 ∉ backup) : splitColon (backup ++ 58 :: arg) = (backup, some arg) := by
  have hall : ∀ c ∈ backup, decide (c ≠ 58) = true := fun c hc => decide_eq_true fun heq => h (heq ▸ hc)
  unfold splitColon
  rw [if_pos (by simp), List.takeWhile_append_of_pos hall, List.dropWhile_append_of_pos hall,
    List.takeWhile_cons_of_neg (by simp), List.dropWhile_cons_of_neg (by simp), List.append_nil]
  rfl

theorem splitLastColon_of (h : 58 ∉ arg) :
    splitLastColon (backup ++ 58 :: arg) = (backup, some arg) := by
  have hall : ∀ c ∈ arg.reverse, decide (c ≠ 58) = true :=
    fun c hc => decide_eq_true fun heq => h (List.mem_reverse.mp (heq ▸ hc))
  have hreverse : (backup ++ 58 :: arg).reverse = arg.reverse ++ 58 :: backup.reverse := by simp
  unfold splitLastColon
  rw [if_pos (by simp), hreverse, List.takeWhile_append_of_pos hall, List.dropWhile_append_of_pos hall,
    List.takeWhile_cons_of_neg (by simp), List.dropWhile_cons_of_neg (by simp), List.append_nil]
  simp

end Colon

/-! ## §3. What the server does. -/

section Child

variable {w : Around} {cconf : ClientConf} {buf rest : Bytes} {m : Message} {ms : List Message}
  {c : Client} {op : Goes} {verify : Bool}

theorem child_backup {text : Bytes} (h : text = nameBytes "backupphase1" ∨ text = nameBytes "backupphase1timed") :
    child w cconf .gen text = childBackup w cconf text := by
  rcases h with rfl | rfl
  · have htext : cString (nameBytes "backupphase1") = nameBytes "backupphase1" := by decide
    unfold child
    dsimp only
    rw [htext]
    rfl
  · have htext : cString (nameBytes "backupphase1timed") = nameBytes "backupphase1timed" := by
      decide
    unfold child
    dsimp only
    rw [htext]
    rfl

/-- The requests with an argument. -/
def requestKinds : List String := ["restore ", "verify ", "list ", "listb "]

theorem requestKinds_ok :
    ∀ x ∈ requestKinds, 0 ∉ nameBytes x ∧ (nameBytes x).length ≤ 8 := by
  decide

/-- What is said instead of "ok" to a client that may not restore, verify or list. -/
def unallowed : List String :=
  ["Client restore is not allowed", "Client verify is not allowed", "Client list is not allowed"]

theorem unallowed_ok :
    ∀ t ∈ unallowed, nameBytes t ≠ nameBytes "ok" ∧ cString (nameBytes t) = nameBytes t := by
  decide

theorem child_restore_text (h : cString buf = nameBytes "restore " ++ rest) :
    child w cconf .gen buf = childRestore w cconf false rest := by
  unfold child
  dsimp only
  rw [h]
  rfl

theorem child_verify_text (h : cString buf = nameBytes "verify " ++ rest) :
    child w cconf .gen buf = childRestore w cconf true rest := by
  unfold child
  dsimp only
  rw [h]
  rfl

theorem child_list_text (h : cString buf = nameBytes "list " ++ rest) :
    child w cconf .gen buf = childList w cconf false rest := by
  unfold child
  dsimp only
  rw [h]
  rfl

theorem child_listb_text (h : cString buf = nameBytes "listb " ++ rest) :
    child w cconf .gen buf = childList w cconf true rest := by
  unfold child
  dsimp only
  rw [h]
  rfl

/-! ### Backups. -/

/-- What the server says if it makes a backup. -/
def begins (resume : Bool) (compression : Nat) : Message :=
  gen (nameBytes ((if resume then "resume:" else "ok:") ++ toString compression))

/-- The texts of the refusals. -/
def refusals : List String :=
  ["Backup is not allowed", "timer conditions not met", "Forced backup is not allowed"]

theorem childBackup_cases (w : Around) (cconf : ClientConf) (text : Bytes) :
    (childBackup w cconf text).said = []
      ∨ (∃ t ∈ refusals, childBackup w cconf text = .refuse t)
      ∨ ∃ resume, (childBackup w cconf text).said = [begins resume cconf.compression]
        ∧ (childBackup w cconf text).act = some (.backup resume) := by
  unfold childBackup
  by_cases hswitched : cconf.restoreClient.isSome = true
  · rw [if_pos hswitched]
    exact Or.inr (Or.inl ⟨_, by decide, rfl⟩)
  · rw [if_neg hswitched]
    cases w.lock with
    | none => exact Or.inl rfl
    | some resume =>
        dsimp only
        by_cases hmkpath : w.mkpath = false
        · rw [if_pos hmkpath]
          exact Or.inl rfl
        rw [if_neg hmkpath]
        by_cases htimed : text = nameBytes "backupphase1timed"
        · rw [if_pos htimed]
          by_cases hfailed : w.timer < 0
          · rw [if_pos hfailed]
            exact Or.inl rfl
          rw [if_neg hfailed]
          by_cases hnot : w.timer ≠ 0
          · rw [if_pos hnot]
            exact Or.inr (Or.inl ⟨_, by decide, rfl⟩)
          · rw [if_neg hnot]
            exact Or.inr (Or.inr ⟨resume, rfl, rfl⟩)
        · rw [if_neg htimed]
          by_cases hforce : cconf.clientCanForceBackup = false
          · rw [if_pos hforce]
            exact Or.inr (Or.inl ⟨_, by decide, rfl⟩)
          · rw [if_neg hforce]
            exact Or.inr (Or.inr ⟨resume, rfl, rfl⟩)

/-- No refusal is taken for anything else. -/
theorem refusals_refused : ∀ t ∈ refusals, ¬ nameBytes "ok" <+: cString (nameBytes t)
    ∧ ¬ nameBytes "resume" <+: cString (nameBytes t) := by
  decide

theorem nameBytes_append (a b : String) : nameBytes (a ++ b) = nameBytes a ++ nameBytes b := by
  simp [nameBytes]

/-- The compression is read as it was written. -/
theorem begins_compression : ∀ n : Fin 10, ∀ resume : Bool,
    3 < (cString (begins resume n).2).length
      ∧ atoi ((cString (begins resume n).2).drop (if resume then 7 else 3)) = n := by
  decide

/-- The settings that only a refusal or the compression can change. -/
def OwnConf.SameBut (conf conf' : OwnConf) : Prop :=
  { conf with compression := conf'.compression } = conf'

theorem told_same (s : Client) (rdst : Bytes) (complen : Nat) :
    s.conf.SameBut (s.told rdst complen) := by
  unfold Client.told OwnConf.SameBut
  split_ifs <;> rfl

theorem checkTimer_ok {buf : Bytes} (hne : cString buf ≠ nameBytes "timer conditions not met")
    (h : nameBytes "ok" <+: cString buf) :
    c.checkTimer (some (gen buf))
      = { c with point := .goes (.backup false), conf := c.told (cString buf) 3 } := by
  have hcmd : ¬ Cmd.gen ≠ Cmd.gen := fun h => h rfl
  unfold Client.checkTimer
  dsimp only [gen]
  rw [if_neg fun h => hne h.2, if_neg hcmd, if_pos h]

theorem checkTimer_resume {buf : Bytes} (hne : cString buf ≠ nameBytes "timer conditions not met")
    (hok : ¬ nameBytes "ok" <+: cString buf) (h : nameBytes "resume" <+: cString buf) :
    c.checkTimer (some (gen buf))
      = { c with point := .goes (.backup true), conf := c.told (cString buf) 7 } := by
  have hcmd : ¬ Cmd.gen ≠ Cmd.gen := fun h => h rfl
  unfold Client.checkTimer
  dsimp only [gen]
  rw [if_neg fun h => hne h.2, if_neg hcmd, if_neg hok, if_pos h]

/-- The client takes the beginning of a backup for what it is. -/
theorem checkTimer_begins (resume : Bool) (n : Nat) :
    ∃ conf, c.checkTimer (some (begins resume n)) = { c with point := .goes (.backup resume), conf := conf }
      ∧ c.conf.SameBut conf ∧ (n ≤ 9 → conf.compression = n) := by
  have htext : cString (begins resume n).2
      = nameBytes (if resume then "resume:" else "ok:") ++ cString (nameBytes (toString n)) := by
    show cString (nameBytes (_ ++ toString n)) = _
    rw [nameBytes_append, Store.cString_append]
    cases resume <;> decide
  refine ⟨c.told (cString (begins resume n).2) (if resume then 7 else 3), ?_, told_same _ _ _, fun hn => ?_⟩
  · cases resume with
    | false =>
        have hhead : (cString (begins false n).2).head? = some 111 := by rw [htext]; rfl
        have hok : nameBytes "ok" <+: cString (begins false n).2 := by
          rw [htext]
          exact ⟨nameBytes ":" ++ cString (nameBytes (toString n)), rfl⟩
        exact checkTimer_ok (Server.ne_of_head hhead (d := 116) rfl (by decide)).1 hok
    | true =>
        have hhead : (cString (begins true n).2).head? = some 114 := by rw [htext]; rfl
        have hresume : nameBytes "resume" <+: cString (begins true n).2 := by
          rw [htext]
          exact ⟨nameBytes ":" ++ cString (nameBytes (toString n)), rfl⟩
        have hok : ¬ nameBytes "ok" <+: cString (begins true n).2 := by
          rw [← List.isPrefixOf_iff_prefix, (Server.ne_of_head hhead (d := 111) rfl (by decide)).2]
          exact Bool.false_ne_true
        exact checkTimer_resume (Server.ne_of_head hhead (d := 116) rfl (by decide)).1 hok hresume
  · obtain ⟨hlength, hread⟩ := begins_compression ⟨n, by omega⟩ resume
    rw [Client.told, if_pos hlength]
    exact hread

/-- What is no beginning of a backup leads nowhere. -/
theorem checkTimer_refused {t : String} (ht : t ∈ refusals) :
    ∃ ret, (c.checkTimer (some (gen (nameBytes t)))).point = .done ret := by
  obtain ⟨hok, hresume⟩ := refusals_refused t ht
  unfold Client.checkTimer
  dsimp only [gen]
  split_ifs
  all_goals exact ⟨_, rfl⟩

theorem serves_backup (hact : c.act = .backup ∨ c.act = .backupTimed)
    (hsaid : (child w cconf .gen c.request).said = m :: ms)
    (hgoes : (c.checkTimer (some m)).point = .goes op) :
    ms = [] ∧ c.conf.SameBut (c.checkTimer (some m)).conf ∧ (c.checkTimer (some m)).act = c.act
      ∧ Serves c.act (c.checkTimer (some m)).conf cconf (child w cconf .gen c.request) op := by
  have hrequest : c.request = nameBytes "backupphase1" ∨ c.request = nameBytes "backupphase1timed" := by
    unfold Client.request
    rcases hact with h | h
    · rw [h]
      exact Or.inl rfl
    · rw [h]
      exact Or.inr rfl
  rw [child_backup hrequest] at hsaid ⊢
  rcases childBackup_cases w cconf c.request with hnil | ⟨t, ht, heq⟩ | ⟨resume, hbegins, hback⟩
  · exact absurd (hnil.symm.trans hsaid) nofun
  · rw [heq] at hsaid
    obtain ⟨rfl, -⟩ := List.cons.inj hsaid
    obtain ⟨ret, hret⟩ := checkTimer_refused (c := c) ht
    exact absurd (hret.symm.trans hgoes) nofun
  · obtain ⟨rfl, rfl⟩ := List.cons.inj (hbegins.symm.trans hsaid)
    obtain ⟨conf, hconf, hsame, hcompression⟩ := checkTimer_begins (c := c) resume cconf.compression
    rw [hconf] at hgoes ⊢
    obtain rfl : Goes.backup resume = op := ClientAt.goes.inj hgoes
    exact ⟨rfl, hsame, rfl, hact, hback, hcompression⟩

/-! ### Restores and lists. -/

theorem childRestore_cases (w : Around) (cconf : ClientConf) (verify : Bool) (rest : Bytes) :
    (childRestore w cconf verify rest).said = []
      ∨ (∃ t : String, nameBytes t ≠ nameBytes "ok" ∧ cString (nameBytes t) = nameBytes t
        ∧ childRestore w cconf verify rest = .refuse t)
      ∨ (childRestore w cconf verify rest).said = [gen (nameBytes "ok")]
        ∧ (childRestore w cconf verify rest).act
          = some (.restore verify (splitColon rest).1 ((splitColon rest).2 <|> cconf.regex)) := by
  unfold childRestore
  cases w.lock with
  | none => exact Or.inl rfl
  | some _ =>
      dsimp only
      by_cases hallowed : (if verify then (cconf.clientCanVerify, [])
          else Server.clientCanRestore w.files cconf).1 = false
      · rw [if_pos hallowed]
        have hmem : (if verify then "Client verify is not allowed"
            else "Client restore is not allowed") ∈ unallowed := by
          cases verify <;> simp [unallowed]
        exact Or.inr (Or.inl ⟨_, (unallowed_ok _ hmem).1, (unallowed_ok _ hmem).2, rfl⟩)
      · rw [if_neg hallowed]
        exact Or.inr (Or.inr ⟨rfl, rfl⟩)

theorem childList_cases (w : Around) (cconf : ClientConf) (browse : Bool) (rest : Bytes) :
    (childList w cconf browse rest).said = []
      ∨ childList w cconf browse rest = .refuse "Client list is not allowed"
      ∨ (childList w cconf browse rest).said = [gen (nameBytes "ok")]
        ∧ (childList w cconf browse rest).act = some (if browse then
            .list (splitColon rest).1 none ((splitColon rest).2.map stripSlash)
          else .list (splitLastColon rest).1 (splitLastColon rest).2 none) := by
  unfold childList
  cases w.lock with
  | none => exact Or.inl rfl
  | some _ =>
      dsimp only
      by_cases hallowed : cconf.clientCanList = false
      · rw [if_pos hallowed]
        exact Or.inr (Or.inl rfl)
      · rw [if_neg hallowed]
        cases browse <;> exact Or.inr (Or.inr ⟨rfl, rfl⟩)

/-- What the client takes for a yes. -/
theorem expects_goes {text : Bytes} {next : Goes}
    (h : (c.expects text (.goes next) (some m)).point = .goes op) :
    next = op ∧ m.1 = .gen ∧ cString m.2 = text
      ∧ c.expects text (.goes next) (some m) = { c with point := .goes next } := by
  obtain ⟨cmd, buf⟩ := m
  unfold Client.expects at h ⊢
  dsimp only at h ⊢
  by_cases hyes : cmd = .gen ∧ cString buf = text
  · rw [if_pos hyes] at h ⊢
    exact ⟨ClientAt.goes.inj h, hyes.1, hyes.2, rfl⟩
  · rw [if_neg hyes] at h
    exact absurd h nofun

/-- A request with an argument: what is behind the kind of it is whole, if it fits. -/
theorem cString_asks {x : String} (h : x ∈ requestKinds) (backup arg : Bytes) :
    ∃ rest, cString ((nameBytes x ++ backup ++ [58] ++ arg).take 511) = nameBytes x ++ rest
      ∧ (Fits backup arg → rest = backup ++ 58 :: arg) := by
  obtain ⟨hzero, hlength⟩ := requestKinds_ok x h
  refine ⟨cString ((backup ++ 58 :: arg).take (511 - (nameBytes x).length)), ?_,
    fun hfits => cString_request hfits ?_⟩
  · rw [List.append_assoc, List.append_assoc, cString_take hzero (by omega)]
    rfl
  · omega

variable (cconf) in
theorem child_restore (hact : c.act = if verify then .verify else .restore) :
    ∃ rest, child w cconf .gen c.request = childRestore w cconf verify rest
      ∧ (Fits (c.conf.backup.getD []) (c.conf.regex.getD []) →
        rest = c.conf.backup.getD [] ++ 58 :: c.conf.regex.getD []) := by
  unfold Client.request
  cases verify with
  | false =>
      have h : c.act = .restore := hact
      rw [h]
      dsimp only
      obtain ⟨rest, htext, hrest⟩ := cString_asks (x := "restore ") (by simp [requestKinds])
        (c.conf.backup.getD []) (c.conf.regex.getD [])
      exact ⟨rest, child_restore_text htext, hrest⟩
  | true =>
      have h : c.act = .verify := hact
      rw [h]
      dsimp only
      obtain ⟨rest, htext, hrest⟩ := cString_asks (x := "verify ") (by simp [requestKinds])
        (c.conf.backup.getD []) (c.conf.regex.getD [])
      exact ⟨rest, child_verify_text htext, hrest⟩

theorem serves_restore (hact : c.act = if verify then .verify else .restore)
    (hsaid : (child w cconf .gen c.request).said = m :: ms)
    (hgoes : (c.expects (nameBytes "ok") (.goes (.restore verify)) (some m)).point = .goes op) :
    ms = [] ∧ Serves c.act c.conf cconf (child w cconf .gen c.request) op := by
  obtain ⟨rest, hchild, hrest⟩ := child_restore (w := w) cconf hact
  obtain ⟨rfl, -, hok, -⟩ := expects_goes hgoes
  rw [hchild] at hsaid ⊢
  rcases childRestore_cases w cconf verify rest with hnil | ⟨t, hne, htext, heq⟩ | ⟨hyes, hact'⟩
  · exact absurd (hnil.symm.trans hsaid) nofun
  · rw [heq] at hsaid
    obtain ⟨rfl, -⟩ := List.cons.inj hsaid
    exact absurd (htext.symm.trans hok) hne
  · obtain ⟨rfl, rfl⟩ := List.cons.inj (hyes.symm.trans hsaid)
    refine ⟨rfl, hact, _, _, hact', fun hfits hcolon => ?_⟩
    rw [hrest hfits, splitColon_of hcolon]
    exact ⟨rfl, rfl⟩

theorem serves_list (hact : c.act = .list)
    (hsaid : (child w cconf .gen c.request).said = m :: ms)
    (hgoes : (c.expects (nameBytes "ok") (.goes .list) (some m)).point = .goes op) :
    ms = [] ∧ Serves c.act c.conf cconf (child w cconf .gen c.request) op := by
  obtain ⟨rfl, -, hok, -⟩ := expects_goes hgoes
  have hne : cString (nameBytes "Client list is not allowed") ≠ nameBytes "ok" := by
    obtain ⟨hne, htext⟩ := unallowed_ok "Client list is not allowed" (by simp [unallowed])
    rwa [htext]
  -- the same for both kinds of lists
  have hserves : ∀ browse rest, child w cconf .gen c.request = childList w cconf browse rest →
      ms = [] ∧ (child w cconf .gen c.request).act = some (if browse then
          .list (splitColon rest).1 none ((splitColon rest).2.map stripSlash)
        else .list (splitLastColon rest).1 (splitLastColon rest).2 none) := by
    intro browse rest hchild
    rw [hchild] at hsaid ⊢
    rcases childList_cases w cconf browse rest with hnil | heq | ⟨hyes, hact'⟩
    · exact absurd (hnil.symm.trans hsaid) nofun
    · rw [heq] at hsaid
      obtain ⟨rfl, -⟩ := List.cons.inj hsaid
      exact absurd hok hne
    · exact ⟨(List.cons.inj (hyes.symm.trans hsaid)).2.symm, hact'⟩
  cases hdir : c.conf.browsedir with
  | some dir =>
      have hrequest : c.request
          = (nameBytes "listb " ++ c.conf.backup.getD [] ++ [58] ++ dir).take 511 := by
        rw [Client.request, hact]
        dsimp only
        rw [hdir]
      obtain ⟨rest, htext, hrest⟩ := cString_asks (x := "listb ") (by simp [requestKinds])
        (c.conf.backup.getD []) dir
      rw [← hrequest] at htext
      obtain ⟨hms, hact'⟩ := hserves true _ (child_listb_text htext)
      refine ⟨hms, hact, ?_⟩
      rw [AsksList, hdir]
      refine ⟨_, _, hact', fun hfits hcolon => ?_⟩
      rw [hrest hfits, splitColon_of hcolon]
      exact ⟨rfl, rfl⟩
  | none =>
      have hrequest : c.request
          = (nameBytes "list " ++ c.conf.backup.getD [] ++ [58] ++ c.conf.regex.getD []).take 511 := by
        rw [Client.request, hact]
        dsimp only
        rw [hdir]
      obtain ⟨rest, htext, hrest⟩ := cString_asks (x := "list ") (by simp [requestKinds])
        (c.conf.backup.getD []) (c.conf.regex.getD [])
      rw [← hrequest] at htext
      obtain ⟨hms, hact'⟩ := hserves false _ (child_list_text htext)
      refine ⟨hms, hact, ?_⟩
      rw [AsksList, hdir]
      refine ⟨_, _, hact', fun hfits hcolon => ?_⟩
      rw [hrest hfits, splitLastColon_of hcolon]
      exact ⟨rfl, rfl⟩

end Child

end Burp.Session
