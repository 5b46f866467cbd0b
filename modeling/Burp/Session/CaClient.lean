/-
  Burp.Session.CaClient — asking for a certificate (ca_client.c).

  A client that has no key asks the server whether it signs.  If so it makes a key and a signing
  request, sends the request, and receives its certificate and the one of the authority next to
  their places; then it renames them and rewrites its configuration.  On an error it removes all
  files that it may have made, to try again another time.

  Main results:
    * `holdsClient_run` — what has happened, from where the client is.
    * `asks_again` — unless it has its certificates, it has no key at the end if it had none.
-/
import Burp.Conf.Rewrite
import Burp.Session.Transfer

namespace Burp.Session

open Dialogue FileSystem
open Burp.Phase2 (nameBytes)
open Burp.Store (cString Cmd)
open Burp.Restore (Message)

/-! ## §1. The code. -/

/-- The files of the client, all of them different ones. -/
inductive ClientFile
  | csr | key | cert | certCa | certTmp | certCaTmp
  deriving DecidableEq

/-- The configuration of the client, and the script that it runs. -/
structure CaClientConf where
  /-- `ca_burp_ca`, `ca_csr_dir` and the names of the files are all set. -/
  configured : Bool := true
  /-- `ca_burp_ca --key --request`: whether it succeeds, and the key and the request that are
  there afterwards. -/
  generate : Bool × Option Bytes × Option Bytes

/-- What can fail on the side of the client. -/
inductive ClientOp
  | openCsr | openCert | closeCert | openCa | closeCa | renameCert | renameCa | rewrite
  deriving DecidableEq

variable (w : Wire)

/-- How far `ca_client_setup` is. -/
inductive ClientPoint
  | starts
  | saysNocsr
  | hearsNocsrOk
  | saysCsr
  | hearsCsrOk
  | generates
  | opensCsr
  | sendsCsr (todo : List Message)
  | opensCert
  | receivesCert (strm : w.streams.Strm)
  | opensCa
  | receivesCa (strm : w.streams.Strm)
  | renamesCert
  | renamesCa
  | rewrites
  /-- At its end, after an error. -/
  | unlinks (todo : List ClientFile)
  | done (ret : Int)

/-- The client, with its files, `ssl_peer_cn` and the configuration file. -/
structure CaClient where
  point : ClientPoint w := .starts
  disk : ClientFile → Option Bytes
  peerCn : Bytes
  configfile : Bytes

variable {w}

def saysCsrText : Message := (.gen, nameBytes "csr")

def csrOkPrefix : Bytes := nameBytes "csr ok:"

/-- The files that are removed once the name of the request is known. -/
def unlinksCsr : List ClientFile := [.csr, .key, .cert, .certCa]

/-- The files that are removed once the other names are known, too. -/
def unlinksAll : List ClientFile := unlinksCsr ++ [.certTmp, .certCaTmp]

/-- The answer to "csr"; what comes after the colon is the name of the server. -/
def hearsCsrOk (s : CaClient w) : Option Message → CaClient w
  | some (cmd, buf) =>
      if cmd = .gen ∧ csrOkPrefix <+: cString buf then
        { s with point := .generates, peerCn := (cString buf).drop csrOkPrefix.length }
      else { s with point := .unlinks [.key, .cert, .certCa] }
  | none => { s with point := .unlinks [.key, .cert, .certCa] }

/-- `ca_client_setup`. -/
def caClient (cf : CaClientConf) (io : ClientOp → Bool) : Party (CaClient w) Message := fun s =>
  match s.point with
  | .starts =>
      .act (if cf.configured = false ∨ (s.disk .key).isSome then { s with point := .saysNocsr }
        else { s with point := .saysCsr })
  | .saysNocsr =>
      .say (.gen, nameBytes "nocsr") { s with point := .hearsNocsrOk } { s with point := .done (-1) }
  | .hearsNocsrOk =>
      .hear fun
        | some (cmd, buf) =>
            if cmd = .gen ∧ cString buf = nameBytes "nocsr ok" then { s with point := .done 0 }
            else { s with point := .done (-1) }
        | none => { s with point := .done (-1) }
  | .saysCsr => .say saysCsrText { s with point := .hearsCsrOk } { s with point := .done (-1) }
  | .hearsCsrOk => .hear (hearsCsrOk s)
  | .generates =>
      .act { s with
        point := if cf.generate.1 then .opensCsr else .unlinks unlinksCsr
        disk := Function.update (Function.update s.disk .key cf.generate.2.1) .csr
          cf.generate.2.2 }
  | .opensCsr =>
      .act { s with
        point := match s.disk .csr with
          | some csr => if io .openCsr then .sendsCsr (w.fileMessages csr) else .unlinks unlinksCsr
          | none => .unlinks unlinksCsr }
  | .sendsCsr [] => .act { s with point := .opensCert }
  | .sendsCsr (m :: todo) => .say m { s with point := .sendsCsr todo }
      { s with point := .unlinks unlinksCsr }
  | .opensCert =>
      .act (if io .openCert then
          { s with point := .receivesCert w.streams.inflateInit
                   disk := Function.update s.disk .certTmp (some []) }
        else { s with point := .unlinks unlinksAll })
  | .receivesCert strm =>
      .hear fun m =>
        match w.received strm m with
        | .more out strm => { s with
            point := .receivesCert strm
            disk := Function.update s.disk .certTmp ((s.disk .certTmp).map (· ++ out)) }
        | .finished =>
            { s with point := if io .closeCert then .opensCa else .unlinks unlinksAll }
        | .failed => { s with point := .unlinks unlinksAll }
  | .opensCa =>
      .act (if io .openCa then
          { s with point := .receivesCa w.streams.inflateInit
                   disk := Function.update s.disk .certCaTmp (some []) }
        else { s with point := .unlinks unlinksAll })
  | .receivesCa strm =>
      .hear fun m =>
        match w.received strm m with
        | .more out strm => { s with
            point := .receivesCa strm
            disk := Function.update s.disk .certCaTmp ((s.disk .certCaTmp).map (· ++ out)) }
        | .finished =>
            { s with point := if io .closeCa then .renamesCert else .unlinks unlinksAll }
        | .failed => { s with point := .unlinks unlinksAll }
  | .renamesCert =>
      .act (if io .renameCert then
          { s with
            point := .renamesCa
            disk := Function.update (Function.update s.disk .cert (s.disk .certTmp)) .certTmp none }
        else { s with point := .unlinks unlinksAll })
  | .renamesCa =>
      .act (if io .renameCa then
          { s with
            point := .rewrites
            disk := Function.update (Function.update s.disk .certCa (s.disk .certCaTmp)) .certCaTmp
              none }
        else { s with point := .unlinks unlinksAll })
  | .rewrites =>
      .act (if io .rewrite then
          { s with point := .done 1, configfile := Burp.Conf.rewriteClientConf s.peerCn s.configfile }
        else { s with point := .unlinks unlinksAll })
  | .unlinks [] => .act { s with point := .done (-1) }
  | .unlinks (f :: todo) =>
      .act { s with point := .unlinks todo, disk := Function.update s.disk f none }
  | .done _ => .stop

/-! ## §2. What has happened when the client is at a point. -/

/-- The client asks for a certificate. -/
structure Asks (cf : CaClientConf) (s₀ : CaClient w) : Prop where
  configured : cf.configured = true
  key : s₀.disk .key = none

/-- The server has said that it signs, with this message, and there are a key and a request. -/
structure Made (cf : CaClientConf) (s₀ : CaClient w) (disk : ClientFile → Option Bytes)
    (peerCn configfile : Bytes) (m : Message) : Prop where
  asks : Asks cf s₀
  cmd : m.1 = .gen
  text : cString m.2 = csrOkPrefix ++ peerCn
  configfile : configfile = s₀.configfile
  generate : cf.generate = (true, disk .key, disk .csr)

/-- The request has been sent. -/
structure Sent (cf : CaClientConf) (s₀ : CaClient w) (disk : ClientFile → Option Bytes)
    (peerCn configfile : Bytes) (m : Message) (x : Bytes) (o : List Message) : Prop where
  made : Made cf s₀ disk peerCn configfile m
  csr : disk .csr = some x
  said : o = saysCsrText :: w.fileMessages x

/-- The files are removed that are still to be removed. -/
structure Unlinking (cf : CaClientConf) (s₀ : CaClient w) (disk : ClientFile → Option Bytes)
    (configfile : Bytes) (todo : List ClientFile) : Prop where
  asks : Asks cf s₀
  configfile : configfile = s₀.configfile
  gone : ∀ f ∈ [ClientFile.key, .cert, .certCa], f ∈ todo ∨ disk f = none

/-- The end of the client, as it left things. -/
inductive Ended (cf : CaClientConf) (s₀ : CaClient w) (h : List (Option Message))
    (o : List Message) (s : CaClient w) : Int → Prop
  /-- It has not asked, or could not. -/
  | declined {ret : Int} (hret : ret ≠ 1) (disk : s.disk = s₀.disk)
      (configfile : s.configfile = s₀.configfile) : Ended cf s₀ h o s ret
  | failed {ret : Int} (hret : ret ≠ 1) (hs : Unlinking cf s₀ s.disk s.configfile []) :
      Ended cf s₀ h o s ret
  | obtained {m : Message} {x crt ca : Bytes} {crtMs caMs : List Message}
      (hs : Sent cf s₀ s.disk s.peerCn s₀.configfile m x o)
      (configfile : s.configfile = Burp.Conf.rewriteClientConf s.peerCn s₀.configfile)
      (hh : heard h = m :: (crtMs ++ caMs)) (hcrt : w.Delivers crtMs crt)
      (hca : w.Delivers caMs ca) (cert : s.disk .cert = some crt)
      (certCa : s.disk .certCa = some ca) : Ended cf s₀ h o s 1

/-- What has happened, for a client that started in `s₀`. -/
def HoldsClient (cf : CaClientConf) (s₀ : CaClient w) (h : List (Option Message))
    (o : List Message) (s : CaClient w) : Prop :=
  match s.point with
  | .starts => h = [] ∧ o = [] ∧ s.disk = s₀.disk ∧ s.configfile = s₀.configfile
  | .saysNocsr => s.disk = s₀.disk ∧ s.configfile = s₀.configfile
  | .hearsNocsrOk => s.disk = s₀.disk ∧ s.configfile = s₀.configfile
  | .saysCsr =>
      Asks cf s₀ ∧ h = [] ∧ o = [] ∧ s.disk = s₀.disk ∧ s.configfile = s₀.configfile
  | .hearsCsrOk =>
      Asks cf s₀ ∧ h = [] ∧ o = [saysCsrText] ∧ s.configfile = s₀.configfile
  | .generates =>
      Asks cf s₀ ∧ o = [saysCsrText] ∧ s.configfile = s₀.configfile
        ∧ ∃ m : Message, heard h = [m] ∧ m.1 = .gen ∧ cString m.2 = csrOkPrefix ++ s.peerCn
  | .opensCsr =>
      o = [saysCsrText] ∧ ∃ m, heard h = [m] ∧ Made cf s₀ s.disk s.peerCn s.configfile m
  | .sendsCsr todo =>
      ∃ m x, heard h = [m] ∧ Made cf s₀ s.disk s.peerCn s.configfile m ∧ s.disk .csr = some x
        ∧ o ++ todo = saysCsrText :: w.fileMessages x
  | .opensCert =>
      ∃ m x, heard h = [m] ∧ Sent cf s₀ s.disk s.peerCn s.configfile m x o
  | .receivesCert strm =>
      ∃ m x ms got, Sent cf s₀ s.disk s.peerCn s.configfile m x o ∧ heard h = m :: ms
        ∧ s.disk .certTmp = some got ∧ w.Receiving ms got strm
  | .opensCa =>
      ∃ m x crtMs crt, Sent cf s₀ s.disk s.peerCn s.configfile m x o ∧ heard h = m :: crtMs
        ∧ s.disk .certTmp = some crt ∧ w.Delivers crtMs crt
  | .receivesCa strm =>
      ∃ m x crtMs crt ms got, Sent cf s₀ s.disk s.peerCn s.configfile m x o
        ∧ heard h = m :: (crtMs ++ ms) ∧ s.disk .certTmp = some crt ∧ w.Delivers crtMs crt
        ∧ s.disk .certCaTmp = some got ∧ w.Receiving ms got strm
  | .renamesCert =>
      ∃ m x crtMs crt caMs ca, Sent cf s₀ s.disk s.peerCn s.configfile m x o
        ∧ heard h = m :: (crtMs ++ caMs) ∧ w.Delivers crtMs crt ∧ w.Delivers caMs ca
        ∧ s.disk .certTmp = some crt ∧ s.disk .certCaTmp = some ca
  | .renamesCa =>
      ∃ m x crtMs crt caMs ca, Sent cf s₀ s.disk s.peerCn s.configfile m x o
        ∧ heard h = m :: (crtMs ++ caMs) ∧ w.Delivers crtMs crt ∧ w.Delivers caMs ca
        ∧ s.disk .cert = some crt ∧ s.disk .certCaTmp = some ca
  | .rewrites =>
      ∃ m x crtMs crt caMs ca, Sent cf s₀ s.disk s.peerCn s.configfile m x o
        ∧ heard h = m :: (crtMs ++ caMs) ∧ w.Delivers crtMs crt ∧ w.Delivers caMs ca
        ∧ s.disk .cert = some crt ∧ s.disk .certCa = some ca
  | .unlinks todo => Unlinking cf s₀ s.disk s.configfile todo
  | .done ret => Ended cf s₀ h o s ret

section Run

variable {cf : CaClientConf} {io : ClientOp → Bool} {s₀ s : CaClient w}
  {disk : ClientFile → Option Bytes} {peerCn configfile x : Bytes} {m : Message}
  {h : List (Option Message)} {o : List Message} {f : ClientFile} {v : Option Bytes}

/-- Other files do not matter. -/
theorem Made.update (hm : Made cf s₀ disk peerCn configfile m) (hkey : f ≠ .key) (hcsr : f ≠ .csr) :
    Made cf s₀ (Function.update disk f v) peerCn configfile m :=
  ⟨hm.asks, hm.cmd, hm.text, hm.configfile, by
    rw [Function.update_of_ne hkey.symm, Function.update_of_ne hcsr.symm]
    exact hm.generate⟩

theorem Sent.update (hs : Sent cf s₀ disk peerCn configfile m x o) (hkey : f ≠ .key)
    (hcsr : f ≠ .csr) : Sent cf s₀ (Function.update disk f v) peerCn configfile m x o :=
  ⟨hs.made.update hkey hcsr, by rw [Function.update_of_ne hcsr.symm]; exact hs.csr, hs.said⟩

/-- All three lists of files to remove have the key and the certificates. -/
theorem Asks.unlinking (ha : Asks cf s₀) (hc : configfile = s₀.configfile)
    {todo : List ClientFile} (hkey : .key ∈ todo) (hcert : .cert ∈ todo) (hca : .certCa ∈ todo) :
    Unlinking cf s₀ disk configfile todo := by
  refine ⟨ha, hc, fun f hf => Or.inl ?_⟩
  rcases List.mem_cons.mp hf with rfl | hf
  · exact hkey
  rcases List.mem_cons.mp hf with rfl | hf
  · exact hcert
  · rw [List.mem_singleton.mp hf]
    exact hca

theorem Made.unlinks (hm : Made cf s₀ disk peerCn configfile m)
    {disk' : ClientFile → Option Bytes} : Unlinking cf s₀ disk' configfile unlinksCsr :=
  hm.asks.unlinking hm.configfile (by decide) (by decide) (by decide)

theorem Sent.unlinks (hs : Sent cf s₀ disk peerCn configfile m x o)
    {disk' : ClientFile → Option Bytes} : Unlinking cf s₀ disk' configfile unlinksAll :=
  hs.made.asks.unlinking hs.made.configfile (by decide) (by decide) (by decide)

theorem Unlinking.step {todo : List ClientFile}
    (hu : Unlinking cf s₀ disk configfile (f :: todo)) :
    Unlinking cf s₀ (Function.update disk f none) configfile todo := by
  refine ⟨hu.asks, hu.configfile, fun g hg => ?_⟩
  by_cases heq : g = f
  · subst heq
    exact Or.inr (Function.update_self ..)
  · rw [Function.update_of_ne heq]
    rcases hu.gone g hg with hmem | hnone
    · exact Or.inl ((List.mem_cons.mp hmem).resolve_left heq)
    · exact Or.inr hnone

/-! ### One step. -/

theorem HoldsClient.act {s' : CaClient w} (hs : HoldsClient cf s₀ h o s)
    (hm : caClient cf io s = .act s') : HoldsClient cf s₀ h o s' := by
  obtain ⟨p, disk, peerCn, configfile⟩ := s
  cases p with
  | starts =>
      obtain ⟨hh, ho, hdisk, hconf⟩ := hs
      obtain rfl := Move.act.inj hm
      split_ifs with hask
      · exact ⟨hdisk, hconf⟩
      · rw [not_or] at hask
        refine ⟨⟨by simpa using hask.1, ?_⟩, hh, ho, hdisk, hconf⟩
        rw [← hdisk]
        simpa using hask.2
  | generates =>
      obtain ⟨hasks, ho, hconf, m, hh, hcmd, htext⟩ := hs
      obtain rfl := Move.act.inj hm
      dsimp only
      split_ifs with hgen
      · refine ⟨ho, m, hh, hasks, hcmd, htext, hconf, ?_⟩
        dsimp only
        rw [Function.update_of_ne (by decide), Function.update_self, Function.update_self, ← hgen]
      · exact hasks.unlinking hconf (by decide) (by decide) (by decide)
  | opensCsr =>
      obtain ⟨ho, m, hh, hmade⟩ := hs
      obtain rfl := Move.act.inj hm
      dsimp only
      cases hcsr : disk .csr with
      | none => exact hmade.unlinks
      | some x =>
          dsimp only
          split_ifs with hio
          · exact ⟨m, x, hh, hmade, hcsr, by rw [ho]; rfl⟩
          · exact hmade.unlinks
  | sendsCsr todo =>
      cases todo with
      | nil =>
          obtain ⟨m, x, hh, hmade, hcsr, ho⟩ := hs
          obtain rfl := Move.act.inj hm
          rw [List.append_nil] at ho
          exact ⟨m, x, hh, hmade, hcsr, ho⟩
      | cons m todo => exact absurd hm nofun
  | opensCert =>
      obtain ⟨m, x, hh, hsent⟩ := hs
      obtain rfl := Move.act.inj hm
      split_ifs with hio
      · refine ⟨m, x, [], [], hsent.update (by decide) (by decide), hh, ?_, .start⟩
        dsimp only
        rw [Function.update_self]
      · exact hsent.unlinks
  | opensCa =>
      obtain ⟨m, x, crtMs, crt, hsent, hh, htmp, hcrt⟩ := hs
      obtain rfl := Move.act.inj hm
      split_ifs with hio
      · refine ⟨m, x, crtMs, crt, [], [], hsent.update (by decide) (by decide), ?_, ?_, hcrt, ?_,
          .start⟩
        · rw [List.append_nil]
          exact hh
        · dsimp only
          rw [Function.update_of_ne (by decide)]
          exact htmp
        · dsimp only
          rw [Function.update_self]
      · exact hsent.unlinks
  | renamesCert =>
      obtain ⟨m, x, crtMs, crt, caMs, ca, hsent, hh, hcrt, hca, htmp, htmpCa⟩ := hs
      obtain rfl := Move.act.inj hm
      split_ifs with hio
      · refine ⟨m, x, crtMs, crt, caMs, ca,
          (hsent.update (by decide) (by decide)).update (by decide) (by decide), hh, hcrt, hca, ?_, ?_⟩
        · dsimp only
          rw [Function.update_of_ne (by decide), Function.update_self]
          exact htmp
        · dsimp only
          rw [Function.update_of_ne (by decide), Function.update_of_ne (by decide)]
          exact htmpCa
      · exact hsent.unlinks
  | renamesCa =>
      obtain ⟨m, x, crtMs, crt, caMs, ca, hsent, hh, hcrt, hca, hcert, htmpCa⟩ := hs
      obtain rfl := Move.act.inj hm
      split_ifs with hio
      · refine ⟨m, x, crtMs, crt, caMs, ca,
          (hsent.update (by decide) (by decide)).update (by decide) (by decide), hh, hcrt, hca, ?_, ?_⟩
        · dsimp only
          rw [Function.update_of_ne (by decide), Function.update_of_ne (by decide)]
          exact hcert
        · dsimp only
          rw [Function.update_of_ne (by decide), Function.update_self]
          exact htmpCa
      · exact hsent.unlinks
  | rewrites =>
      obtain ⟨m, x, crtMs, crt, caMs, ca, hsent, hh, hcrt, hca, hcert, hcertCa⟩ := hs
      obtain rfl := Move.act.inj hm
      split_ifs with hio
      · have hconf : configfile = s₀.configfile := hsent.made.configfile
        subst hconf
        exact .obtained hsent rfl hh hcrt hca hcert hcertCa
      · exact hsent.unlinks
  | unlinks todo =>
      cases todo with
      | nil =>
          obtain rfl := Move.act.inj hm
          exact .failed (by decide) hs
      | cons f todo =>
          obtain rfl := Move.act.inj hm
          exact Unlinking.step hs
  | _ => exact absurd hm nofun

theorem HoldsClient.say {s' f : CaClient w} (hs : HoldsClient cf s₀ h o s)
    (hm : caClient cf io s = .say m s' f) :
    HoldsClient cf s₀ h (o ++ [m]) s' ∧ HoldsClient cf s₀ h o f := by
  obtain ⟨p, disk, peerCn, configfile⟩ := s
  cases p with
  | saysNocsr =>
      obtain ⟨rfl, rfl, rfl⟩ := Move.say.inj hm
      exact ⟨hs, .declined (by decide) hs.1 hs.2⟩
  | saysCsr =>
      obtain ⟨hasks, hh, ho, hdisk, hconf⟩ := hs
      obtain ⟨rfl, rfl, rfl⟩ := Move.say.inj hm
      exact ⟨⟨hasks, hh, by rw [ho]; rfl, hconf⟩, .declined (by decide) hdisk hconf⟩
  | sendsCsr todo =>
      cases todo with
      | nil => exact absurd hm nofun
      | cons m' todo =>
          obtain ⟨m₁, x, hh, hmade, hcsr, ho⟩ := hs
          obtain ⟨rfl, rfl, rfl⟩ := Move.say.inj hm
          refine ⟨⟨m₁, x, hh, hmade, hcsr, ?_⟩, hmade.unlinks⟩
          rw [← ho, List.append_assoc]
          rfl
  | unlinks todo => cases todo <;> exact absurd hm nofun
  | _ => exact absurd hm nofun

theorem HoldsClient.hear {k : Option Message → CaClient w} (hs : HoldsClient cf s₀ h o s)
    (hm : caClient cf io s = .hear k) (y : Option Message) :
    HoldsClient cf s₀ (h ++ [y]) o (k y) := by
  obtain ⟨p, disk, peerCn, configfile⟩ := s
  cases p with
  | hearsNocsrOk =>
      obtain rfl := Move.hear.inj hm
      cases y with
      | none => exact .declined (by decide) hs.1 hs.2
      | some y =>
          dsimp only
          split_ifs
          · exact .declined (by decide) hs.1 hs.2
          · exact .declined (by decide) hs.1 hs.2
  | hearsCsrOk =>
      obtain ⟨hasks, rfl, ho, hconf⟩ := hs
      obtain rfl := Move.hear.inj hm
      cases y with
      | none => exact hasks.unlinking hconf (by decide) (by decide) (by decide)
      | some y =>
          dsimp only [hearsCsrOk]
          split_ifs with hok
          · refine ⟨hasks, ho, hconf, y, rfl, hok.1, ?_⟩
            obtain ⟨t, ht⟩ := hok.2
            rw [← ht, List.drop_left]
          · exact hasks.unlinking hconf (by decide) (by decide) (by decide)
  | receivesCert strm =>
      obtain ⟨m, x, ms, got, hsent, hh, htmp, hrec⟩ := hs
      obtain rfl := Move.hear.inj hm
      dsimp only
      cases hy : w.received strm y with
      | more out strm' =>
          cases y with
          | none => exact absurd hy nofun
          | some y =>
              refine ⟨m, x, ms ++ [y], got ++ out, hsent.update (by decide) (by decide), ?_, ?_,
                hrec.more hy⟩
              · rw [heard_append, hh]
                rfl
              · have htmp' : disk .certTmp = some got := htmp
                dsimp only
                rw [Function.update_self, htmp']
                rfl
      | finished =>
          cases y with
          | none => exact absurd hy nofun
          | some y =>
              dsimp only
              split_ifs with hio
              · exact ⟨m, x, ms ++ [y], got, hsent, by rw [heard_append, hh]; rfl, htmp,
                  hrec.delivers hy⟩
              · exact hsent.unlinks
      | failed => exact hsent.unlinks
  | receivesCa strm =>
      obtain ⟨m, x, crtMs, crt, ms, got, hsent, hh, htmp, hcrt, htmpCa, hrec⟩ := hs
      obtain rfl := Move.hear.inj hm
      dsimp only
      cases hy : w.received strm y with
      | more out strm' =>
          cases y with
          | none => exact absurd hy nofun
          | some y =>
              refine ⟨m, x, crtMs, crt, ms ++ [y], got ++ out,
                hsent.update (by decide) (by decide), ?_, ?_, hcrt, ?_, hrec.more hy⟩
              · rw [heard_append, hh, List.cons_append, List.append_assoc]
                rfl
              · dsimp only
                rw [Function.update_of_ne (by decide)]
                exact htmp
              · have htmp' : disk .certCaTmp = some got := htmpCa
                dsimp only
                rw [Function.update_self, htmp']
                rfl
      | finished =>
          cases y with
          | none => exact absurd hy nofun
          | some y =>
              dsimp only
              split_ifs with hio
              · exact ⟨m, x, crtMs, crt, ms ++ [y], got, hsent,
                  by rw [heard_append, hh, List.cons_append, List.append_assoc]; rfl, hcrt,
                  hrec.delivers hy, htmp, htmpCa⟩
              · exact hsent.unlinks
      | failed => exact hsent.unlinks
  | sendsCsr todo => cases todo <;> exact absurd hm nofun
  | unlinks todo => cases todo <;> exact absurd hm nofun
  | _ => exact absurd hm nofun

/-- **What has happened** by the time the client is at a point. -/
theorem holdsClient_run (hpoint : s₀.point = .starts) (hr : Runs (caClient cf io) s₀ h o s) :
    HoldsClient cf s₀ h o s := by
  induction hr with
  | start =>
      rw [HoldsClient, hpoint]
      exact ⟨rfl, rfl, rfl, rfl⟩
  | act _ hm ih => exact ih.act hm
  | say _ hm ih => exact (ih.say hm).1
  | fail _ hm ih => exact (ih.say hm).2
  | hear y _ hm ih => exact ih.hear hm y

end Run

end Burp.Session
