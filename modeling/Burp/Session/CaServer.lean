/-
  Burp.Session.CaServer — signing the certificate of a client (ca_server.c).

  After the authentication a client may ask for a certificate.  The server refuses that to a
  client that is called like the certificate authority, or that has asked before; otherwise it
  takes the signing request from the client, has it signed, and sends back the certificate and
  its own.  On an error it removes what it has made.

  Main results:
    * `holds_run` — what has happened, from where the server is.
    * `signs_only_new` — whatever a client sends, no certificate or request that was there is
      touched, and what a failed attempt has made is gone.
-/
import Burp.Server.Authorise
import Burp.Session.Transfer

namespace Burp.Session

open Dialogue FileSystem
open Burp.Phase2 (nameBytes)
open Burp.Server (inBuffer)
open Burp.Store (cString Cmd)
open Burp.Restore (Message)

/-! ## §1. The code. -/

/-- The configuration of the server, and the script that it runs. -/
structure CaConf where
  /-- `ca_conf` is set, and the directory of the authority is known. -/
  caConf : Bool := true
  gcaDir : Bytes := []
  caName : Bytes
  caServerName : Bytes
  /-- What is in `ssl_cert_ca`, if it can be opened. -/
  sslCertCa : Option Bytes
  /-- `ca_burp_ca --sign` on a request: whether it succeeds, and the certificate that is there
  afterwards. -/
  sign : Bytes → Bool × Option Bytes

/-- What can fail on the side of the server. -/
inductive ServerOp
  | openCsr | closeCsr | openCrt | openSslCertCa
  deriving DecidableEq

variable (w : Wire)

/-- How far `ca_server_maybe_sign_client_cert` is. -/
inductive ServerPoint
  /-- Waiting for "csr" or "nocsr". -/
  | reads
  | answersNocsr
  /-- An error goes to the client. -/
  | complains (text : Bytes)
  /-- In `sign_client_cert`. -/
  | checks
  | answersCsr
  | opensCsr
  | receivesCsr (strm : w.streams.Strm)
  | signs
  | opensCrt
  | sendsCrt (todo : List Message)
  | opensCa
  | sendsCa (todo : List Message)
  /-- At its end, after an error. -/
  | unlinksCrt
  | unlinksCsr
  | done (ret : Int)

/-- The server, with the two files of this client in the directory of the authority. -/
structure CaServer where
  point : ServerPoint w := .reads
  csr : Option Bytes := none
  crt : Option Bytes := none

variable {w}

/-- What `snprintf` leaves of a text in a buffer of 512 bytes. -/
def inBuffer512 (text : Bytes) : Bytes := text.take 511

/-- The refusal of a client that is called like the authority. -/
def sameNameText (caName : Bytes) : Bytes :=
  inBuffer512 (nameBytes "Will not accept a client certificate request with the same name as the CA ("
    ++ caName ++ nameBytes ")!")

/-- The refusal of a client whose file is there. -/
def existsText (client path : Bytes) : Bytes :=
  inBuffer512 (nameBytes "Will not accept a client certificate request for '" ++ client
    ++ nameBytes "' - " ++ path ++ nameBytes " already exists!")

/-- `csrpath` and `crtpath`. -/
def caPath (gcaDir client : Bytes) (ext : String) : Bytes :=
  inBuffer512 (gcaDir ++ 47 :: client ++ nameBytes ext)

/-- The answer to "csr". -/
def csrOk (cf : CaConf) : Message := (.gen, inBuffer (nameBytes "csr ok:" ++ cf.caServerName))

/-- The first message. -/
def readsCsr (cf : CaConf) : Option Message → ServerPoint w
  | none => .done (-1)
  | some (cmd, buf) =>
      if cmd = .gen then
        if cString buf = nameBytes "csr" then
          if cf.caConf then .checks
          else .complains (nameBytes "server not configured to sign client certificates")
        else if cString buf = nameBytes "nocsr" then .answersNocsr
        else .done (-1)
      else .done (-1)

/-- The tests at the beginning of `sign_client_cert`. -/
def checksCsr (cf : CaConf) (client : Bytes) (s : CaServer w) : ServerPoint w :=
  if client = cf.caName then .complains (sameNameText cf.caName)
  else if s.crt.isSome then .complains (existsText client (caPath cf.gcaDir client ".crt"))
  else if s.csr.isSome then .complains (existsText client (caPath cf.gcaDir client ".csr"))
  else .answersCsr

/-- `ca_server_maybe_sign_client_cert`, for a client that knows about it. -/
def caServer (cf : CaConf) (client : Bytes) (io : ServerOp → Bool) : Party (CaServer w) Message :=
  fun s =>
    match s.point with
    | .reads => .hear fun m => { s with point := readsCsr cf m }
    | .answersNocsr => .say (.gen, nameBytes "nocsr ok") { s with point := .done 0 }
        { s with point := .done (-1) }
    | .complains text => .say (.error, text) { s with point := .done (-1) }
        { s with point := .done (-1) }
    | .checks => .act { s with point := checksCsr cf client s }
    | .answersCsr => .say (csrOk cf) { s with point := .opensCsr } { s with point := .done (-1) }
    | .opensCsr =>
        .act (if io .openCsr then
            { s with point := .receivesCsr w.streams.inflateInit, csr := some [] }
          else { s with point := .unlinksCrt })
    | .receivesCsr strm =>
        .hear fun m =>
          match w.received strm m with
          | .more out strm => { s with point := .receivesCsr strm, csr := s.csr.map (· ++ out) }
          | .finished => { s with point := if io .closeCsr then .signs else .unlinksCrt }
          | .failed => { s with point := .unlinksCrt }
    | .signs =>
        let signed := cf.sign (s.csr.getD [])
        .act { s with point := if signed.1 then .opensCrt else .unlinksCrt, crt := signed.2 }
    | .opensCrt =>
        .act { s with
          point := match s.crt with
            | some crt => if io .openCrt then .sendsCrt (w.fileMessages crt) else .unlinksCrt
            | none => .unlinksCrt }
    | .sendsCrt [] => .act { s with point := .opensCa }
    | .sendsCrt (m :: todo) => .say m { s with point := .sendsCrt todo }
        { s with point := .unlinksCrt }
    | .opensCa =>
        .act { s with
          point := match cf.sslCertCa with
            | some ca => if io .openSslCertCa then .sendsCa (w.fileMessages ca) else .unlinksCrt
            | none => .unlinksCrt }
    | .sendsCa [] => .act { s with point := .done 1 }
    | .sendsCa (m :: todo) => .say m { s with point := .sendsCa todo }
        { s with point := .unlinksCrt }
    | .unlinksCrt => .act { s with point := .unlinksCsr, crt := none }
    | .unlinksCsr => .act { s with point := .done (-1), csr := none }
    | .done _ => .stop

/-! ## §2. What has happened when the server is at a point. -/

/-- A signing request that has been received: the first message has been "csr", and the others
are this file. -/
def GotCsr (w : Wire) (x : Bytes) (h : List (Option Message)) : Prop :=
  ∃ m ms, heard h = m :: ms ∧ w.Delivers ms x

/-- The client may have a certificate. -/
structure Admits (cf : CaConf) (client : Bytes) (s₀ : CaServer w) : Prop where
  caConf : cf.caConf = true
  name : client ≠ cf.caName
  crt : s₀.crt = none
  csr : s₀.csr = none

/-- A request has been received and signed. -/
structure Signed (cf : CaConf) (client : Bytes) (s₀ : CaServer w) (h : List (Option Message))
    (s : CaServer w) (x y : Bytes) : Prop where
  admits : Admits cf client s₀
  got : GotCsr w x h
  csr : s.csr = some x
  sign : cf.sign x = (true, some y)
  crt : s.crt = some y

/-- What has happened, for a server that started in `s₀`. -/
def Holds (cf : CaConf) (client : Bytes) (s₀ : CaServer w) (h : List (Option Message))
    (o : List Message) (s : CaServer w) : Prop :=
  match s.point with
  | .reads => h = [] ∧ o = [] ∧ s.csr = s₀.csr ∧ s.crt = s₀.crt
  | .answersNocsr | .complains _ => o = [] ∧ s.csr = s₀.csr ∧ s.crt = s₀.crt
  | .checks =>
      cf.caConf = true ∧ (∃ m, heard h = [m]) ∧ o = [] ∧ s.csr = s₀.csr ∧ s.crt = s₀.crt
  | .answersCsr =>
      Admits cf client s₀ ∧ (∃ m, heard h = [m]) ∧ o = [] ∧ s.csr = s₀.csr ∧ s.crt = s₀.crt
  | .opensCsr =>
      Admits cf client s₀ ∧ (∃ m, heard h = [m]) ∧ o = [csrOk cf] ∧ s.csr = s₀.csr
        ∧ s.crt = s₀.crt
  | .receivesCsr strm =>
      Admits cf client s₀ ∧ o = [csrOk cf] ∧ s.crt = s₀.crt
        ∧ ∃ m ms got, heard h = m :: ms ∧ s.csr = some got ∧ w.Receiving ms got strm
  | .signs =>
      Admits cf client s₀ ∧ o = [csrOk cf] ∧ s.crt = s₀.crt ∧ ∃ x, s.csr = some x ∧ GotCsr w x h
  | .opensCrt =>
      Admits cf client s₀ ∧ o = [csrOk cf]
        ∧ ∃ x, s.csr = some x ∧ GotCsr w x h ∧ cf.sign x = (true, s.crt)
  | .sendsCrt todo =>
      ∃ x y, Signed cf client s₀ h s x y ∧ o ++ todo = csrOk cf :: w.fileMessages y
  | .opensCa => ∃ x y, Signed cf client s₀ h s x y ∧ o = csrOk cf :: w.fileMessages y
  | .sendsCa todo =>
      ∃ x y ca, Signed cf client s₀ h s x y ∧ cf.sslCertCa = some ca
        ∧ o ++ todo = csrOk cf :: w.fileMessages y ++ w.fileMessages ca
  | .unlinksCrt => Admits cf client s₀ ∧ wholeFiles o ≤ 1
  | .unlinksCsr => Admits cf client s₀ ∧ wholeFiles o ≤ 1 ∧ s.crt = none
  | .done ret =>
      (ret = 1 ∧ ∃ x y ca, Signed cf client s₀ h s x y ∧ cf.sslCertCa = some ca
        ∧ o = csrOk cf :: w.fileMessages y ++ w.fileMessages ca)
      ∨ (ret ≠ 1 ∧ wholeFiles o ≤ 1 ∧ s.csr = s₀.csr ∧ s.crt = s₀.crt)

theorem wholeFiles_csrOk (cf : CaConf) : wholeFiles [csrOk cf] = 0 := rfl

section Run

variable {cf : CaConf} {client : Bytes} {io : ServerOp → Bool} {s₀ s : CaServer w}
  {h : List (Option Message)} {o : List Message}

theorem readsCsr_cases (cf : CaConf) (m : Option Message) :
    (∃ p : ServerPoint w, readsCsr cf m = p ∧ (p = .answersNocsr ∨ ∃ t, p = .complains t))
      ∨ (readsCsr cf m = (.done (-1) : ServerPoint w))
      ∨ (cf.caConf = true ∧ (∃ x, m = some x) ∧ readsCsr cf m = (.checks : ServerPoint w)) := by
  cases m with
  | none => exact Or.inr (Or.inl rfl)
  | some m =>
      obtain ⟨cmd, buf⟩ := m
      unfold readsCsr
      dsimp only
      split_ifs with hgen hcsr hconf hno
      · exact Or.inr (Or.inr ⟨hconf, ⟨_, rfl⟩, rfl⟩)
      · exact Or.inl ⟨_, rfl, Or.inr ⟨_, rfl⟩⟩
      · exact Or.inl ⟨_, rfl, Or.inl rfl⟩
      · exact Or.inr (Or.inl rfl)
      · exact Or.inr (Or.inl rfl)

/-- **What has happened** by the time the server is at a point. -/
theorem holds_run (hpoint : s₀.point = .reads) (hr : Runs (caServer cf client io) s₀ h o s) :
    Holds cf client s₀ h o s := by
  induction hr with
  | start => simp only [Holds, hpoint]; exact ⟨trivial, trivial, trivial, trivial⟩
  | @act h o s s' hr hs ih =>
      obtain ⟨p, csr, crt⟩ := s
      cases p with
      | checks =>
          obtain ⟨hconf, hm, ho, hcsr, hcrt⟩ := ih
          obtain rfl := Move.act.inj hs
          dsimp only at hcsr hcrt
          unfold checksCsr
          dsimp only
          split_ifs with hname hc hs
          · exact ⟨ho, hcsr, hcrt⟩
          · exact ⟨ho, hcsr, hcrt⟩
          · exact ⟨ho, hcsr, hcrt⟩
          · have hadmits : Admits cf client s₀ :=
              ⟨hconf, hname, by rw [← hcrt]; simpa using hc, by rw [← hcsr]; simpa using hs⟩
            exact ⟨hadmits, hm, ho, hcsr, hcrt⟩
      | opensCsr =>
          obtain ⟨hadmits, ⟨m, hm⟩, ho, hcsr, hcrt⟩ := ih
          obtain rfl := Move.act.inj hs
          split_ifs with hio
          · exact ⟨hadmits, ho, hcrt, m, [], [], hm, rfl, .start⟩
          · exact ⟨hadmits, by rw [ho, wholeFiles_csrOk]; exact Nat.zero_le _⟩
      | signs =>
          obtain ⟨hadmits, ho, hcrt, x, hx, hgot⟩ := ih
          obtain rfl := Move.act.inj hs
          obtain rfl : csr = some x := hx
          dsimp only [Option.getD_some]
          split_ifs with hsign
          · exact ⟨hadmits, ho, x, rfl, hgot, Prod.ext hsign rfl⟩
          · exact ⟨hadmits, by rw [ho, wholeFiles_csrOk]; exact Nat.zero_le _⟩
      | opensCrt =>
          obtain ⟨hadmits, ho, x, hx, hgot, hsign⟩ := ih
          obtain rfl := Move.act.inj hs
          have hfail : wholeFiles o ≤ 1 := by rw [ho, wholeFiles_csrOk]; exact Nat.zero_le _
          cases hc : crt with
          | none => exact ⟨hadmits, hfail⟩
          | some y =>
              subst hc
              dsimp only
              split_ifs with hio
              · exact ⟨x, y, ⟨hadmits, hgot, hx, hsign, rfl⟩, by rw [ho]; rfl⟩
              · exact ⟨hadmits, hfail⟩
      | sendsCrt todo =>
          cases todo with
          | nil =>
              obtain ⟨x, y, hsigned, ho⟩ := ih
              obtain rfl := Move.act.inj hs
              exact ⟨x, y, ⟨hsigned.admits, hsigned.got, hsigned.csr, hsigned.sign, hsigned.crt⟩,
                by rw [← ho, List.append_nil]⟩
          | cons m todo => exact absurd hs nofun
      | opensCa =>
          obtain ⟨x, y, hsigned, ho⟩ := ih
          obtain rfl := Move.act.inj hs
          have hfail : wholeFiles o ≤ 1 := by
            rw [ho, ← List.singleton_append, wholeFiles_append, wholeFiles_csrOk,
              wholeFiles_fileMessages]
          cases hc : cf.sslCertCa with
          | none => exact ⟨hsigned.admits, hfail⟩
          | some ca =>
              dsimp only
              split_ifs with hio
              · exact ⟨x, y, ca, ⟨hsigned.admits, hsigned.got, hsigned.csr, hsigned.sign, hsigned.crt⟩,
                  hc, by rw [ho]⟩
              · exact ⟨hsigned.admits, hfail⟩
      | sendsCa todo =>
          cases todo with
          | nil =>
              obtain ⟨x, y, ca, hsigned, hca, ho⟩ := ih
              obtain rfl := Move.act.inj hs
              exact Or.inl ⟨rfl, x, y, ca,
                ⟨hsigned.admits, hsigned.got, hsigned.csr, hsigned.sign, hsigned.crt⟩, hca,
                by rw [← ho, List.append_nil]⟩
          | cons m todo => exact absurd hs nofun
      | unlinksCrt =>
          obtain rfl := Move.act.inj hs
          exact ⟨ih.1, ih.2, rfl⟩
      | unlinksCsr =>
          obtain ⟨hadmits, hfiles, hcrt⟩ := ih
          obtain rfl := Move.act.inj hs
          exact Or.inr ⟨by decide, hfiles, hadmits.csr.symm, hcrt.trans hadmits.crt.symm⟩
      | _ => exact absurd hs nofun
  | @say h o s s' f m hr hs ih =>
      obtain ⟨p, csr, crt⟩ := s
      cases p with
      | answersNocsr =>
          obtain ⟨ho, hcsr, hcrt⟩ := ih
          obtain ⟨rfl, rfl, -⟩ := Move.say.inj hs
          exact Or.inr ⟨by decide, by rw [ho]; exact Nat.zero_le _, hcsr, hcrt⟩
      | complains text =>
          obtain ⟨ho, hcsr, hcrt⟩ := ih
          obtain ⟨rfl, rfl, -⟩ := Move.say.inj hs
          exact Or.inr ⟨by decide, by rw [ho]; exact Nat.zero_le _, hcsr, hcrt⟩
      | answersCsr =>
          obtain ⟨hadmits, hm, ho, hcsr, hcrt⟩ := ih
          obtain ⟨rfl, rfl, -⟩ := Move.say.inj hs
          exact ⟨hadmits, hm, by rw [ho]; rfl, hcsr, hcrt⟩
      | sendsCrt todo =>
          cases todo with
          | nil => exact absurd hs nofun
          | cons m todo =>
              obtain ⟨x, y, hsigned, ho⟩ := ih
              obtain ⟨rfl, rfl, -⟩ := Move.say.inj hs
              exact ⟨x, y, ⟨hsigned.admits, hsigned.got, hsigned.csr, hsigned.sign, hsigned.crt⟩,
                by rw [← ho, List.append_assoc]; rfl⟩
      | sendsCa todo =>
          cases todo with
          | nil => exact absurd hs nofun
          | cons m todo =>
              obtain ⟨x, y, ca, hsigned, hca, ho⟩ := ih
              obtain ⟨rfl, rfl, -⟩ := Move.say.inj hs
              exact ⟨x, y, ca,
                ⟨hsigned.admits, hsigned.got, hsigned.csr, hsigned.sign, hsigned.crt⟩, hca,
                by rw [← ho, List.append_assoc]; rfl⟩
      | _ => exact absurd hs nofun
  | @fail h o s s' f m hr hs ih =>
      obtain ⟨p, csr, crt⟩ := s
      cases p with
      | answersNocsr =>
          obtain ⟨ho, hcsr, hcrt⟩ := ih
          obtain ⟨-, -, rfl⟩ := Move.say.inj hs
          exact Or.inr ⟨by decide, by rw [ho]; exact Nat.zero_le _, hcsr, hcrt⟩
      | complains text =>
          obtain ⟨ho, hcsr, hcrt⟩ := ih
          obtain ⟨-, -, rfl⟩ := Move.say.inj hs
          exact Or.inr ⟨by decide, by rw [ho]; exact Nat.zero_le _, hcsr, hcrt⟩
      | answersCsr =>
          obtain ⟨hadmits, hm, ho, hcsr, hcrt⟩ := ih
          obtain ⟨-, -, rfl⟩ := Move.say.inj hs
          exact Or.inr ⟨by decide, by rw [ho]; exact Nat.zero_le _, hcsr, hcrt⟩
      | sendsCrt todo =>
          cases todo with
          | nil => exact absurd hs nofun
          | cons m todo =>
              obtain ⟨x, y, hsigned, ho⟩ := ih
              obtain ⟨-, -, rfl⟩ := Move.say.inj hs
              refine ⟨hsigned.admits, (wholeFiles_le_of_unfinished (l := [csrOk cf]) ho).trans ?_⟩
              rw [wholeFiles_csrOk]
              exact Nat.zero_le _
      | sendsCa todo =>
          cases todo with
          | nil => exact absurd hs nofun
          | cons m todo =>
              obtain ⟨x, y, ca, hsigned, hca, ho⟩ := ih
              obtain ⟨-, -, rfl⟩ := Move.say.inj hs
              refine ⟨hsigned.admits, (wholeFiles_le_of_unfinished ho).trans ?_⟩
              rw [← List.singleton_append, wholeFiles_append, wholeFiles_csrOk,
                wholeFiles_fileMessages]
      | _ => exact absurd hs nofun
  | @hear h o s k x hr hs ih =>
      obtain ⟨p, csr, crt⟩ := s
      cases p with
      | reads =>
          obtain ⟨rfl, ho, hcsr, hcrt⟩ := ih
          obtain rfl := Move.hear.inj hs
          dsimp only
          rcases readsCsr_cases cf x with ⟨p, hp, rfl | ⟨t, rfl⟩⟩ | hp | ⟨hconf, ⟨m, rfl⟩, hp⟩
          · rw [hp]
            exact ⟨ho, hcsr, hcrt⟩
          · rw [hp]
            exact ⟨ho, hcsr, hcrt⟩
          · rw [hp]
            exact Or.inr ⟨by decide, by rw [ho]; exact Nat.zero_le _, hcsr, hcrt⟩
          · rw [hp]
            exact ⟨hconf, ⟨m, rfl⟩, ho, hcsr, hcrt⟩
      | receivesCsr strm =>
          obtain ⟨hadmits, ho, hcrt, m, ms, got, hm, hcsr, hrec⟩ := ih
          obtain rfl := Move.hear.inj hs
          have hfail : wholeFiles o ≤ 1 := by rw [ho, wholeFiles_csrOk]; exact Nat.zero_le _
          dsimp only
          cases hx : w.received strm x with
          | more out strm' =>
              -- only a message gives more
              cases x with
              | none => exact absurd hx nofun
              | some m' =>
                  obtain rfl : csr = some got := hcsr
                  exact ⟨hadmits, ho, hcrt, m, ms ++ [m'], got ++ out,
                    by rw [heard_append, hm]; rfl, rfl, hrec.more hx⟩
          | finished =>
              cases x with
              | none => exact absurd hx nofun
              | some m' =>
                  dsimp only
                  split_ifs with hio
                  · exact ⟨hadmits, ho, hcrt, got, hcsr, m, ms ++ [m'],
                      by rw [heard_append, hm]; rfl, hrec.delivers hx⟩
                  · exact ⟨hadmits, hfail⟩
          | failed => exact ⟨hadmits, hfail⟩
      | sendsCrt todo => cases todo <;> exact absurd hs nofun
      | sendsCa todo => cases todo <;> exact absurd hs nofun
      | _ => exact absurd hs nofun

/-- What was there before is there, and unless the client is admitted nothing else is. -/
theorem Holds.kept (hs : Holds cf client s₀ h o s) (hno : ¬ Admits cf client s₀) :
    s.csr = s₀.csr ∧ s.crt = s₀.crt := by
  obtain ⟨p, csr, crt⟩ := s
  cases p with
  | reads => exact hs.2.2
  | answersNocsr => exact hs.2
  | complains text => exact hs.2
  | checks => exact hs.2.2.2
  | answersCsr => exact hs.2.2.2
  | opensCsr => exact hs.2.2.2
  | receivesCsr strm => exact absurd hs.1 hno
  | signs => exact absurd hs.1 hno
  | opensCrt => exact absurd hs.1 hno
  | sendsCrt todo => obtain ⟨x, y, hsigned, -⟩ := hs; exact absurd hsigned.admits hno
  | opensCa => obtain ⟨x, y, hsigned, -⟩ := hs; exact absurd hsigned.admits hno
  | sendsCa todo => obtain ⟨x, y, ca, hsigned, -⟩ := hs; exact absurd hsigned.admits hno
  | unlinksCrt => exact absurd hs.1 hno
  | unlinksCsr => exact absurd hs.1 hno
  | done ret =>
      rcases hs with ⟨-, x, y, ca, hsigned, -⟩ | ⟨-, -, hkept⟩
      · exact absurd hsigned.admits hno
      · exact hkept

/-- **Whatever a client sends**, and wherever the server is, a request or a certificate that was
there is as it was.  At the end either there are a request and a certificate that were not there
before, the one that the client has sent whole and the one that the authority has made of it,
or everything is as it was. -/
theorem signs_only_new (cf : CaConf) (client : Bytes) (io : ServerOp → Bool) {s₀ s : CaServer w}
    {h : List (Option Message)} {o : List Message} (hpoint : s₀.point = .reads)
    (hr : Runs (caServer cf client io) s₀ h o s) :
    (s₀.csr ≠ none ∨ s₀.crt ≠ none ∨ client = cf.caName → s.csr = s₀.csr ∧ s.crt = s₀.crt)
      ∧ ∀ ret, s.point = .done ret →
          if ret = 1 then
            s₀.csr = none ∧ s₀.crt = none ∧ client ≠ cf.caName
              ∧ ∃ x y, GotCsr w x h ∧ cf.sign x = (true, some y) ∧ s.csr = some x ∧ s.crt = some y
          else s.csr = s₀.csr ∧ s.crt = s₀.crt := by
  have hholds := holds_run hpoint hr
  refine ⟨fun hthere => hholds.kept fun hadmits => ?_, fun ret hret => ?_⟩
  · rcases hthere with hcsr | hcrt | hname
    · exact hcsr hadmits.csr
    · exact hcrt hadmits.crt
    · exact hadmits.name hname
  · rw [Holds, hret] at hholds
    rcases hholds with ⟨rfl, x, y, ca, hsigned, -⟩ | ⟨hne, -, hkept⟩
    · rw [if_pos rfl]
      exact ⟨hsigned.admits.csr, hsigned.admits.crt, hsigned.admits.name, x, y, hsigned.got,
        hsigned.sign, hsigned.csr, hsigned.crt⟩
    · rw [if_neg hne]
      exact hkept

end Run

def sampleServerConf : CaConf :=
  { caName := nameBytes "burpCA", caServerName := nameBytes "burpserver"
    sslCertCa := some (nameBytes "ca"), sign := fun x => (true, some (x ++ nameBytes " signed")) }

/-- A client that says nothing at all. -/
theorem signs_only_new_silent :
    ((⟨.reads, some [1], none⟩ : CaServer sampleWire).csr ≠ none ∨ (none : Option Bytes) ≠ none
        ∨ nameBytes "laptop" = sampleServerConf.caName →
      (⟨.done (-1), some [1], none⟩ : CaServer sampleWire).csr = some [1]
        ∧ (⟨.done (-1), some [1], none⟩ : CaServer sampleWire).crt = none)
      ∧ ∀ ret, (⟨.done (-1), some [1], none⟩ : CaServer sampleWire).point = .done ret →
          if ret = 1 then
            some [1] = (none : Option Bytes) ∧ (none : Option Bytes) = none
              ∧ nameBytes "laptop" ≠ sampleServerConf.caName
              ∧ ∃ x y, GotCsr sampleWire x [none] ∧ sampleServerConf.sign x = (true, some y)
                ∧ some [1] = some x ∧ none = some y
          else some ([1] : Bytes) = some [1] ∧ (none : Option Bytes) = none := by
  have hstart : Runs (caServer (w := sampleWire) sampleServerConf (nameBytes "laptop") fun _ => true)
      ⟨.reads, some [1], none⟩ [] [] ⟨.reads, some [1], none⟩ := .start
  exact signs_only_new sampleServerConf (nameBytes "laptop") (fun _ => true) rfl
    (hstart.hear none rfl)

end Burp.Session
