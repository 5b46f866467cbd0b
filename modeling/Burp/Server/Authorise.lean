/-
  Burp.Server.Authorise — who a client is, and how it shows that.

  `authorise_server` reads three messages: a greeting with the version of the client, its name
  and its password.  With the name the server loads what is configured for that client, and
  there may be a `password` to compare with, a `passwd` that has been through `crypt`, or both.
  A server that is built without `crypt` cannot compare the second, and says so with a result of
  its own, which the caller takes for a match.

  Main results:
    * `authoriseServer_ok_iff` — who gets in.
    * `authorise_needs_secrets_iff` — every secret is needed, as long as `crypt` is there to
      look at the second.
-/
import Burp.Phase2.Dpth
import Burp.Status.Counters

namespace Burp.Server

open FileSystem Burp.Store Burp.Phase2

/-! ## §1. Versions. -/

/-- `VERSION`. -/
def serverVersion : Bytes := nameBytes "1.3.21"

/-- A `long`, of what has been computed with some. -/
def toLong (z : Int) : Int := z.bmod (2 ^ 64)

/-- `version_to_long`: the first three numbers, two digits for each but the first. -/
def versionToLong (version : Bytes) : Int :=
  if version = [] then 0
  else
    match Text.tokens (· == 46) version with
    | tok1 :: tok2 :: tok3 :: _ =>
        toLong (Status.atol tok3 + Status.atol tok2 * 100 + Status.atol tok1 * 100 * 100)
    | _ => -1

example : versionToLong (nameBytes "1.3.2") = 10302 := by decide

/-- What `snprintf` leaves of a text in a buffer of 256 bytes. -/
def inBuffer (text : Bytes) : Bytes := text.take 255

/-- The answer to a greeting with this version, if the version can be read. -/
def whoareyou (cversion : Option Bytes) : Option Bytes :=
  match cversion with
  | none => some (nameBytes "whoareyou")
  | some v =>
      if versionToLong (nameBytes "1.3.2") < 0 ∨ versionToLong v < 0 then none
      else if versionToLong (nameBytes "1.3.2") ≤ versionToLong v then
        some (inBuffer (nameBytes "whoareyou:" ++ serverVersion))
      else some (nameBytes "whoareyou")

/-- `version_warn`: the warning that goes to the client, if there is one. -/
def versionWarn (client : Bytes) (cversion : Option Bytes) : Option Bytes :=
  if cversion = some serverVersion then none
  else if cversion.getD [] = [] then
    some (inBuffer (nameBytes "Client '" ++ client
      ++ nameBytes "' has an unknown version. Please upgrade."))
  else
    some (inBuffer (nameBytes "Client '" ++ client ++ nameBytes "' version '" ++ cversion.getD []
      ++ nameBytes "' does not match server version '" ++ serverVersion
      ++ nameBytes "'. An upgrade is recommended."))

/-! ## §2. Secrets. -/

/-- `struct config` of a client, as far as `authorise_server` looks at it. -/
structure AuthConf where
  passwordCheck : Bool := true
  password : Option Bytes := none
  passwd : Option Bytes := none
  sslPeerCn : Option Bytes := none
  /-- The values of `keep`; without one the pointer is `NULL`. -/
  keep : List Bytes := []
  versionWarn : Bool := true

/-- How the program is built, and what it calls. -/
structure Program where
  /-- `HAVE_CRYPT`. -/
  haveCrypt : Bool
  /-- `crypt` of a text with a salt, which can give `NULL`. -/
  crypt : Bytes → Bytes → Option Bytes
  /-- `load_client_config` for a name. -/
  loadClientConfig : Bytes → Option AuthConf

/-- How a check ends.  One that compares with a `NULL` does not. -/
inductive Outcome
  | ok | error | crashes
  deriving DecidableEq

/-- `check_passwd`. -/
def checkPasswd (p : Program) (passwd plainText : Option Bytes) : Option Int :=
  if p.haveCrypt then
    match plainText, passwd with
    | some plainText, some passwd =>
        if passwd.length ≠ 13 then some 0
        else (p.crypt plainText (passwd.take 2)).map fun c => if c = passwd then 1 else 0
    | _, _ => some 0
  -- Server compiled without crypt support - cannot use passwd option
  else some (-1)

/-- What `check_client_and_password` does if `password_check` is on. -/
def checkSecrets (p : Program) (cconf : AuthConf) (password : Bytes) : Outcome :=
  if cconf.password = none ∧ cconf.passwd = none then .error
  -- check against plain text
  else if cconf.password ≠ none ∧ cconf.password ≠ some password then .error
  -- check against encrypted passwd
  else
    match cconf.passwd with
    | none => .ok
    | some passwd =>
        match checkPasswd p (some passwd) (some password) with
        | none => .crashes
        | some r => if r = 0 then .error else .ok

/-- `check_client_and_password`: the result, and the configuration if it could be loaded. -/
def checkClientAndPassword (p : Program) (client password : Bytes) :
    Outcome × Option AuthConf :=
  match p.loadClientConfig client with
  | none => (.error, none)
  | some cconf =>
      let cconf := { cconf with sslPeerCn := cconf.sslPeerCn <|> some client }
      let r := if cconf.passwordCheck then checkSecrets p cconf password else .ok
      (if r = .ok ∧ cconf.keep = [] then .error else r, some cconf)

/-! ## §3. The messages. -/

/-- A message, as `async_read` gives it. -/
structure Message where
  cmd : Cmd := .gen
  buf : Bytes

/-- What `authorise_server` leaves behind. -/
structure Authorised where
  result : Outcome
  client : Option Bytes := none
  cversion : Option Bytes := none
  cconf : Option AuthConf := none
  said : List (Cmd × Bytes) := []

/-- The first message is a greeting. -/
def isHello (m : Message) : Bool :=
  m.cmd == .gen && (nameBytes "hello").isPrefixOf (cString m.buf)

/-- What follows the first colon of a greeting. -/
def helloVersion (m : Message) : Option Bytes :=
  let rest := (cString m.buf).dropWhile (· ≠ 58)
  if rest = [] then none else some rest.tail

/-- A message that has to say something. -/
def text (m : Option Message) : Option Bytes :=
  match m with
  | none => none
  | some m => if m.buf.length = 0 then none else some (cString m.buf)

/-- `authorise_server`, where `reads n` is what its `async_read` number `n` gives. -/
def authoriseServer (p : Program) (reads : Nat → Option Message) : Authorised :=
  match reads 0 with
  | none => { result := .error }
  | some hello =>
      if isHello hello = false then { result := .error }
      else
        let cversion := helloVersion hello
        match whoareyou cversion with
        | none => { result := .error, cversion := cversion }
        | some who =>
            match text (reads 1) with
            | none => { result := .error, said := [(.gen, who)] }
            | some client =>
                let said := [(Cmd.gen, who), (.gen, nameBytes "okpassword")]
                match text (reads 2) with
                | none => { result := .error, said := said }
                | some password =>
                    let (r, cconf) := checkClientAndPassword p client password
                    if r ≠ .ok then { result := r, cconf := cconf, said := said }
                    else
                      let warning :=
                        if cconf.any (·.versionWarn) then versionWarn client cversion else none
                      { result := .ok
                        client := some client
                        cversion := cversion
                        cconf := cconf
                        said := said ++ (warning.toList.map fun w => (Cmd.warning, w))
                          ++ [(.gen, nameBytes "ok")] }

/-! ## §4. Who gets in. -/

theorem checkPasswd_haveCrypt {p : Program} (h : p.haveCrypt = true) (passwd plainText : Bytes) :
    checkPasswd p (some passwd) (some plainText)
      = if passwd.length ≠ 13 then some 0
        else (p.crypt plainText (passwd.take 2)).map fun c => if c = passwd then 1 else 0 := by
  unfold checkPasswd
  rw [if_pos h]

theorem checkPasswd_noCrypt {p : Program} (h : p.haveCrypt = false)
    (passwd plainText : Option Bytes) : checkPasswd p passwd plainText = some (-1) := by
  unfold checkPasswd
  rw [if_neg (by simp [h])]

/-- The caller goes on after a match, and after `check_passwd` has not been able to look. -/
theorem checkPasswd_passes_iff (p : Program) (passwd plainText : Bytes) :
    (∃ r, checkPasswd p (some passwd) (some plainText) = some r ∧ r ≠ 0)
      ↔ (p.haveCrypt = true →
          passwd.length = 13 ∧ p.crypt plainText (passwd.take 2) = some passwd) := by
  cases h : p.haveCrypt with
  | false =>
      rw [checkPasswd_noCrypt h]
      exact ⟨fun _ hc => (Bool.false_ne_true hc).elim, fun _ => ⟨-1, rfl, by decide⟩⟩
  | true =>
      rw [checkPasswd_haveCrypt h]
      by_cases hlen : passwd.length = 13
      · rw [if_neg (by simp [hlen])]
        cases hc : p.crypt plainText (passwd.take 2) with
        | none => simp
        | some c =>
            by_cases hcp : c = passwd
            · simp [hcp, hlen]
            · simp [hcp]
      · rw [if_pos hlen]
        simp [hlen]

/-- The secrets that are compared: `passwd` only where there is `crypt`. -/
theorem checkSecrets_ok_iff (p : Program) (cconf : AuthConf) (password : Bytes) :
    checkSecrets p cconf password = .ok
      ↔ (cconf.password ≠ none ∨ cconf.passwd ≠ none)
        ∧ (∀ q, cconf.password = some q → password = q)
        ∧ (∀ q, cconf.passwd = some q → p.haveCrypt = true →
            q.length = 13 ∧ p.crypt password (q.take 2) = some q) := by
  unfold checkSecrets
  by_cases hnone : cconf.password = none ∧ cconf.passwd = none
  · rw [if_pos hnone]
    simp [hnone.1, hnone.2]
  rw [if_neg hnone]
  have hsome : cconf.password ≠ none ∨ cconf.passwd ≠ none := not_and_or.mp hnone
  by_cases hplain : cconf.password ≠ none ∧ cconf.password ≠ some password
  · rw [if_pos hplain]
    obtain ⟨q, hq⟩ := Option.ne_none_iff_exists'.mp hplain.1
    refine ⟨fun h => (Outcome.noConfusion h), fun h => ?_⟩
    exact (hplain.2 (by rw [h.2.1 q hq, hq])).elim
  rw [if_neg hplain]
  have hpassword : ∀ q, cconf.password = some q → password = q := by
    intro q hq
    by_contra hne
    exact hplain ⟨by simp [hq], by simpa [hq] using fun h => hne h.symm⟩
  cases hp : cconf.passwd with
  | none => exact ⟨fun _ => ⟨by simpa [hp] using hsome, hpassword, by simp⟩, fun _ => rfl⟩
  | some passwd =>
      have hpasses := checkPasswd_passes_iff p passwd password
      have hres : (match checkPasswd p (some passwd) (some password) with
            | none => Outcome.crashes
            | some r => if r = 0 then .error else .ok) = .ok
          ↔ ∃ r, checkPasswd p (some passwd) (some password) = some r ∧ r ≠ 0 := by
        cases checkPasswd p (some passwd) (some password) with
        | none => simp
        | some r => by_cases hr : r = 0 <;> simp [hr]
      rw [hres, hpasses]
      constructor
      · intro h
        exact ⟨.inr (by simp), hpassword, fun q hq => Option.some.inj hq ▸ h⟩
      · intro h
        exact h.2.2 passwd rfl

theorem checkClientAndPassword_ok_iff (p : Program) (client password : Bytes) :
    (checkClientAndPassword p client password).1 = .ok
      ↔ ∃ cconf, p.loadClientConfig client = some cconf ∧ cconf.keep ≠ []
        ∧ (cconf.passwordCheck = true → checkSecrets p cconf password = .ok) := by
  unfold checkClientAndPassword
  cases hload : p.loadClientConfig client with
  | none => simp
  | some cconf =>
      -- the name of the peer is not looked at by the check
      have hsame : checkSecrets p { cconf with sslPeerCn := cconf.sslPeerCn <|> some client }
          password = checkSecrets p cconf password := rfl
      simp only [hsame]
      by_cases hkeep : cconf.keep = []
      · cases hcheck : cconf.passwordCheck with
        | false => simp [hkeep]
        | true => by_cases hok : checkSecrets p cconf password = .ok <;> simp [hkeep, hok]
      · cases hcheck : cconf.passwordCheck <;> simp [hkeep, hcheck]

/-- The first message is a greeting with a version that can be read. -/
def Greeted (reads : Nat → Option Message) : Prop :=
  ∃ m, reads 0 = some m ∧ isHello m = true ∧ whoareyou (helloVersion m) ≠ none

/-- The three messages that get as far as the secrets of a client, with what is configured
for it. -/
structure Introduced (p : Program) (reads : Nat → Option Message) (client password : Bytes)
    (cconf : AuthConf) : Prop where
  greeted : Greeted reads
  client_eq : text (reads 1) = some client
  password_eq : text (reads 2) = some password
  load_eq : p.loadClientConfig client = some cconf

/-- After three messages the check decides. -/
theorem authoriseServer_result {reads : Nat → Option Message} {client password : Bytes}
    (p : Program) (hgreeted : Greeted reads) (hclient : text (reads 1) = some client)
    (hpassword : text (reads 2) = some password) :
    (authoriseServer p reads).result = (checkClientAndPassword p client password).1 := by
  obtain ⟨m, hm, his, hne⟩ := hgreeted
  obtain ⟨who, hwho⟩ := Option.ne_none_iff_exists'.mp hne
  unfold authoriseServer
  simp only [hm, his, Bool.true_eq_false, if_false, hwho, hclient, hpassword]
  by_cases hr : (checkClientAndPassword p client password).1 = .ok
  · rw [if_neg (not_not.mpr hr), hr]
  · rw [if_pos hr]

/-- Nobody gets in without the three messages. -/
theorem messages_of_ok {p : Program} {reads : Nat → Option Message}
    (h : (authoriseServer p reads).result = .ok) :
    Greeted reads ∧ ∃ client password, text (reads 1) = some client
      ∧ text (reads 2) = some password := by
  unfold authoriseServer at h
  cases hm : reads 0 with
  | none => simp [hm] at h
  | some m =>
      cases his : isHello m with
      | false => simp [hm, his] at h
      | true =>
          cases hwho : whoareyou (helloVersion m) with
          | none => simp [hm, his, hwho] at h
          | some who =>
              cases hclient : text (reads 1) with
              | none => simp [hm, his, hwho, hclient] at h
              | some client =>
                  cases hpassword : text (reads 2) with
                  | none => simp [hm, his, hwho, hclient, hpassword] at h
                  | some password =>
                      exact ⟨⟨m, hm, his, by simp [hwho]⟩, client, password, rfl, rfl⟩

/-- **Who gets in**: a client that introduces itself, has a value of `keep`, and passes the
check of its secrets unless that is off. -/
theorem authoriseServer_ok_iff (p : Program) (reads : Nat → Option Message) :
    (authoriseServer p reads).result = .ok
      ↔ ∃ client password cconf, Introduced p reads client password cconf ∧ cconf.keep ≠ []
        ∧ (cconf.passwordCheck = true → checkSecrets p cconf password = .ok) := by
  constructor
  · intro h
    obtain ⟨hgreeted, client, password, hclient, hpassword⟩ := messages_of_ok h
    rw [authoriseServer_result p hgreeted hclient hpassword] at h
    obtain ⟨cconf, hload, hrest⟩ := (checkClientAndPassword_ok_iff p client password).mp h
    exact ⟨client, password, cconf, ⟨hgreeted, hclient, hpassword, hload⟩, hrest⟩
  · rintro ⟨client, password, cconf, hin, hrest⟩
    rw [authoriseServer_result p hin.greeted hin.client_eq hin.password_eq]
    exact (checkClientAndPassword_ok_iff p client password).mpr ⟨cconf, hin.load_eq, hrest⟩

/-! ## §5. Every secret is needed. -/

/-- What a client has to know that is configured like this: there is a secret, the password is
`password` if that is set, and `crypt` with the salt of `passwd` makes `passwd` of it if that is
set. -/
def Secrets (p : Program) (cconf : AuthConf) (password : Bytes) : Prop :=
  (cconf.password ≠ none ∨ cconf.passwd ≠ none)
    ∧ (∀ q, cconf.password = some q → password = q)
    ∧ ∀ q, cconf.passwd = some q → p.crypt password (q.take 2) = some q

/-- A success under `password_check` is that of a client that knows every secret. -/
def NeedsSecrets (p : Program) (reads : Nat → Option Message) : Prop :=
  (authoriseServer p reads).result = .ok → ∀ client password cconf,
    text (reads 1) = some client → text (reads 2) = some password →
    p.loadClientConfig client = some cconf → cconf.passwordCheck = true →
    Secrets p cconf password

/-- **Every secret is needed**, for every program, every configuration and whatever the client
sends, exactly if `crypt` is there, or nothing hangs on it: the client is turned away before its
secrets are looked at, it has no `keep`, its `password` is another one, or there is no `passwd`
that the password it sends does not match. -/
theorem authorise_needs_secrets_iff (p : Program) (reads : Nat → Option Message) :
    NeedsSecrets p reads
      ↔ p.haveCrypt = true ∨ ∀ client password cconf passwd,
          Introduced p reads client password cconf → cconf.passwordCheck = true →
          cconf.keep ≠ [] → (∀ q, cconf.password = some q → password = q) →
          cconf.passwd = some passwd → p.crypt password (passwd.take 2) = some passwd := by
  constructor
  · intro h
    by_cases hcrypt : p.haveCrypt = true
    · exact .inl hcrypt
    right
    intro client password cconf passwd hin hon hkeep hplain hpasswd
    -- nothing but the password stands in the way
    have hok : (authoriseServer p reads).result = .ok := by
      refine (authoriseServer_ok_iff p reads).mpr ⟨client, password, cconf, hin, hkeep, ?_⟩
      intro _
      exact (checkSecrets_ok_iff p cconf password).mpr
        ⟨.inr (by simp [hpasswd]), hplain, fun _ _ hc => (hcrypt hc).elim⟩
    have hsecrets := h hok client password cconf hin.client_eq hin.password_eq hin.load_eq hon
    exact hsecrets.2.2 passwd hpasswd
  · intro h hok client password cconf hclient hpassword hload hon
    obtain ⟨client', password', cconf', hin, hkeep, hcheck⟩ :=
      (authoriseServer_ok_iff p reads).mp hok
    have hc : client' = client := Option.some.inj (hin.client_eq.symm.trans hclient)
    have hp : password' = password := Option.some.inj (hin.password_eq.symm.trans hpassword)
    subst hc hp
    have hl : cconf' = cconf := Option.some.inj (hin.load_eq.symm.trans hload)
    subst hl
    obtain ⟨hany, hplain, hpasswd⟩ := (checkSecrets_ok_iff p cconf' password').mp (hcheck hon)
    refine ⟨hany, hplain, fun q hq => ?_⟩
    rcases h with hcrypt | h
    · exact (hpasswd q hq hcrypt).2
    · exact h client' password' cconf' q hin hon hkeep hplain hq

/-! A server without `crypt`, and a client with a `passwd`. -/

/-- The messages of a client that has no idea of its password. -/
def guessing : Nat → Option Message
  | 0 => some { buf := nameBytes "hello:1.3.21" }
  | 1 => some { buf := nameBytes "web" }
  | 2 => some { buf := nameBytes "guess" }
  | _ => none

/-- `passwd` is what `crypt` makes of another word. -/
def withoutCrypt : Program where
  haveCrypt := false
  crypt := fun plainText salt => some (salt ++ plainText.take 11)
  loadClientConfig := fun _ =>
    some { passwd := some (nameBytes "abpassword123"), keep := [[55]] }

/-- It gets in. -/
theorem guessing_gets_in : ¬ NeedsSecrets withoutCrypt guessing := by
  intro h
  have hok : (authoriseServer withoutCrypt guessing).result = .ok := by decide
  have hsecrets := h hok (nameBytes "web") (nameBytes "guess") _ (by decide)
    (by decide) rfl rfl
  have hno : ¬ withoutCrypt.crypt (nameBytes "guess") (nameBytes "ab")
      = some (nameBytes "abpassword123") := by decide
  exact hno (hsecrets.2.2 _ rfl)

end Burp.Server
