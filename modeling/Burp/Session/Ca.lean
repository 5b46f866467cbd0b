/-
  Burp.Session.Ca — a client and a server that sign a certificate.

  Client and server run side by side, in whatever order, with messages on the way and a
  connection that can be cut at any time; files may fail to open and the script may fail.

  Main results:
    * `certificate_agrees` — a client that has its certificates has what the server has signed.
    * `locked_out` — a client for which the server has a certificate or a request gets nothing.
    * `always_signed` — unless something fails, every order of steps ends with the certificate
      on both sides.
-/
import Burp.Session.CaClient
import Burp.Session.CaServer

namespace Burp.Session

open Dialogue FileSystem
open Burp.Phase2 (nameBytes)
open Burp.Server (inBuffer)
open Burp.Store (cString Cmd)
open Burp.Restore (Message)

variable {w : Wire} {cf : CaClientConf} {io : ClientOp → Bool} {scf : CaConf} {client : Bytes}
  {sio : ServerOp → Bool}

/-! ## §1. What the client has is what the server has signed. -/

section Agreement

variable {s₀ s : CaServer w} {h : List (Option Message)} {o : List Message}

/-- The server has sent everything. -/
def SentAll (s : CaServer w) : Prop := s.point = .sendsCa [] ∨ s.point = .done 1

/-- Two whole files are all that the server ever sends. -/
theorem Holds.two (hs : Holds scf client s₀ h o s) (htwo : 2 ≤ wholeFiles o) :
    SentAll s ∧ ∃ x crt ca, Signed scf client s₀ h s x crt ∧ scf.sslCertCa = some ca
      ∧ o = csrOk scf :: w.fileMessages crt ++ w.fileMessages ca := by
  have hone : ∀ x, wholeFiles (csrOk scf :: w.fileMessages x) = 1 := fun x => by
    rw [← List.singleton_append, wholeFiles_append, wholeFiles_csrOk, wholeFiles_fileMessages]
  obtain ⟨p, csr, crt⟩ := s
  cases p with
  | reads => rw [hs.2.1] at htwo; exact absurd htwo (by decide)
  | answersNocsr => rw [hs.1] at htwo; exact absurd htwo (by decide)
  | complains text => rw [hs.1] at htwo; exact absurd htwo (by decide)
  | checks => rw [hs.2.2.1] at htwo; exact absurd htwo (by decide)
  | answersCsr => rw [hs.2.2.1] at htwo; exact absurd htwo (by decide)
  | opensCsr => rw [hs.2.2.1, wholeFiles_csrOk] at htwo; exact absurd htwo (by decide)
  | receivesCsr strm => rw [hs.2.1, wholeFiles_csrOk] at htwo; exact absurd htwo (by decide)
  | signs => rw [hs.2.1, wholeFiles_csrOk] at htwo; exact absurd htwo (by decide)
  | opensCrt => rw [hs.2.1, wholeFiles_csrOk] at htwo; exact absurd htwo (by decide)
  | sendsCrt todo =>
      obtain ⟨x, y, -, ho⟩ := hs
      have := wholeFiles_le_of_append ho
      rw [hone] at this
      omega
  | opensCa =>
      obtain ⟨x, y, -, ho⟩ := hs
      rw [ho, hone] at htwo
      omega
  | sendsCa todo =>
      obtain ⟨x, y, ca, hsigned, hca, ho⟩ := hs
      cases todo with
      | nil =>
          rw [List.append_nil] at ho
          exact ⟨Or.inl rfl, x, y, ca, hsigned, hca, ho⟩
      | cons m todo =>
          have := wholeFiles_le_of_unfinished ho
          rw [hone] at this
          omega
  | unlinksCrt => have := hs.2; omega
  | unlinksCsr => have := hs.2.1; omega
  | done ret =>
      rcases hs with ⟨rfl, x, y, ca, hsigned, hca, ho⟩ | ⟨-, hle, -⟩
      · exact ⟨Or.inr rfl, x, y, ca, hsigned, hca, ho⟩
      · omega

/-- The beginning of a stream that has all files of it is all of it. -/
theorem eq_of_wholeFiles {l o : List Message} {x : Bytes} (hl : l <+: o ++ w.fileMessages x)
    (hcount : wholeFiles o < wholeFiles l) : l = o ++ w.fileMessages x := by
  obtain ⟨t, ht⟩ := hl
  cases t with
  | nil => rw [← ht, List.append_nil]
  | cons m t =>
      have := wholeFiles_le_of_unfinished ht
      omega

/-- What the two of them have when a certificate has been made. -/
structure Agreed (w : Wire) (cf : CaClientConf) (scf : CaConf) (client : Bytes)
    (c : Talk (CaClient w) (CaServer w) Message) (x crt ca : Bytes) : Prop where
  request : cf.generate = (true, c.left.disk .key, some x)
  sign : scf.sign x = (true, some crt)
  sslCertCa : scf.sslCertCa = some ca
  peerCn : csrOkPrefix ++ c.left.peerCn = cString (csrOk scf).2
  cert : c.left.disk .cert = some crt
  certCa : c.left.disk .certCa = some ca
  csr : c.right.csr = some x
  crt : c.right.crt = some crt

/-- A client that succeeds has heard everything that the server has to say, and what the server
has signed is what the client has sent. -/
theorem client_done (hlaw : w.Lawful) {l₀ : CaClient w} {r₀ : CaServer w}
    {c : Talk (CaClient w) (CaServer w) Message} (hl : l₀.point = .starts) (hr : r₀.point = .reads)
    (hrun : Relation.ReflTransGen (Step (caClient cf io) (caServer scf client sio))
      ⟨l₀, r₀, [], [], false⟩ c) (hdone : c.left.point = .done 1) :
    Admits scf client r₀ ∧ SentAll c.right
      ∧ c.left.configfile = Burp.Conf.rewriteClientConf c.left.peerCn l₀.configfile
      ∧ ∃ x crt ca, Agreed w cf scf client c x crt ca := by
  obtain ⟨lh, ls, rh, rs, hlrun, hrrun, hal, har⟩ := Step.split hrun
  have hleft := holdsClient_run hl hlrun
  rw [HoldsClient, hdone] at hleft
  cases hleft with
  | declined hret => exact absurd rfl hret
  | failed hret => exact absurd rfl hret
  | @obtained m x crt ca crtMs caMs hs hconf hh hcrt hca hcert hcertCa =>
      -- the client has heard two files, so the server has said them
      have hheard : m :: (crtMs ++ caMs) <+: rs := by
        rw [← hh]
        exact (List.prefix_append _ _).trans hal.initial
      have htwo : 2 ≤ wholeFiles (m :: (crtMs ++ caMs)) := by
        rw [← List.singleton_append, wholeFiles_append, wholeFiles_append, hcrt.one, hca.one]
        omega
      have hrs : 2 ≤ wholeFiles rs := by
        obtain ⟨t, ht⟩ := hheard
        exact htwo.trans (wholeFiles_le_of_append ht)
      obtain ⟨hall, x', crt', ca', hsigned, hsca, ho⟩ := (holds_run hr hrrun).two hrs
      rw [ho] at hheard
      have hone : wholeFiles (csrOk scf :: w.fileMessages crt') = 1 := by
        rw [← List.singleton_append, wholeFiles_append, wholeFiles_csrOk, wholeFiles_fileMessages]
      have heq := eq_of_wholeFiles hheard (by rw [hone]; exact htwo)
      rw [List.cons_append, List.cons.injEq] at heq
      obtain ⟨rfl, heq⟩ := heq
      -- the files come one after the other
      obtain ⟨rfl, hrest⟩ := hcrt.unique (delivers_fileMessages hlaw crt') heq
      obtain ⟨rfl, -⟩ := hca.unique (delivers_fileMessages hlaw ca') (congrArg (· ++ []) hrest)
      -- and so did the request
      obtain ⟨m', ms, hrh, hgot⟩ := hsigned.got
      have hsaid : m' :: ms <+: saysCsrText :: w.fileMessages x := by
        rw [← hrh, ← hs.said]
        exact (List.prefix_append _ _).trans har.initial
      obtain ⟨-, t, ht⟩ := List.cons_prefix_cons.mp hsaid
      rw [← List.append_nil (w.fileMessages x)] at ht
      obtain ⟨rfl, -⟩ := hgot.unique (delivers_fileMessages hlaw x) ht
      exact ⟨hsigned.admits, hall, hconf, x', crt, ca,
        by rw [← hs.csr]; exact hs.made.generate, hsigned.sign, hsca, hs.made.text.symm, hcert,
        hcertCa, hsigned.csr, hsigned.crt⟩

end Agreement

/-! ## §2. A client that has asked before. -/

/-- **A client is locked out** once the server has a certificate or a request for it: whatever
the two of them do, it never succeeds, and nothing changes on the server. -/
theorem locked_out (hlaw : w.Lawful) {l₀ : CaClient w} {r₀ : CaServer w}
    {c : Talk (CaClient w) (CaServer w) Message} (hl : l₀.point = .starts) (hr : r₀.point = .reads)
    (hthere : r₀.csr ≠ none ∨ r₀.crt ≠ none)
    (hrun : Relation.ReflTransGen (Step (caClient cf io) (caServer scf client sio))
      ⟨l₀, r₀, [], [], false⟩ c) :
    c.left.point ≠ .done 1 ∧ c.right.csr = r₀.csr ∧ c.right.crt = r₀.crt := by
  obtain ⟨lh, ls, rh, rs, -, hrrun, -, -⟩ := Step.split hrun
  have hnot : ¬ Admits scf client r₀ := fun hadmits =>
    hthere.elim (fun h => h hadmits.csr) (fun h => h hadmits.crt)
  exact ⟨fun hdone => hnot (client_done hlaw hl hr hrun hdone).1, (holds_run hr hrrun).kept hnot⟩

/-! ## §3. When nothing fails. -/

/-- Nothing stands in the way. -/
structure Willing (cf : CaClientConf) (io : ClientOp → Bool) (scf : CaConf) (client : Bytes)
    (sio : ServerOp → Bool) (key x crt ca : Bytes) : Prop where
  configured : cf.configured = true
  generate : cf.generate = (true, some key, some x)
  clientIo : ∀ op, io op = true
  caConf : scf.caConf = true
  name : client ≠ scf.caName
  sign : scf.sign x = (true, some crt)
  sslCertCa : scf.sslCertCa = some ca
  serverIo : ∀ op, sio op = true

section Willing

variable {key x crt ca got : Bytes} {disk : ClientFile → Option Bytes} {peerCn configfile : Bytes}
  {csr crt' : Option Bytes} {ms : List Message} {strm : w.streams.Strm} {t : List Message}

variable (scf client crt') in
theorem receives_csr (hio : ∀ op, sio op = true) :
    Receives w (caServer scf client sio) (fun strm got => ⟨.receivesCsr strm, some got, crt'⟩)
      (fun x => ⟨.signs, some x, crt'⟩) := by
  intro strm got
  refine ⟨_, rfl, fun m out strm' hm => ?_, fun m hm => ?_⟩
  · dsimp only
    rw [hm]
    rfl
  · dsimp only
    rw [hm]
    dsimp only
    rw [hio, if_pos rfl]

variable (cf disk peerCn configfile) in
theorem receives_cert (hio : ∀ op, io op = true) :
    Receives w (caClient cf io)
      (fun strm got => ⟨.receivesCert strm, Function.update disk .certTmp (some got), peerCn,
        configfile⟩)
      (fun x => ⟨.opensCa, Function.update disk .certTmp (some x), peerCn, configfile⟩) := by
  intro strm got
  refine ⟨_, rfl, fun m out strm' hm => ?_, fun m hm => ?_⟩
  · dsimp only
    rw [hm]
    dsimp only
    rw [Function.update_self, Function.update_idem]
    rfl
  · dsimp only
    rw [hm]
    dsimp only
    rw [hio, if_pos rfl]

variable (cf disk peerCn configfile) in
theorem receives_ca (hio : ∀ op, io op = true) :
    Receives w (caClient cf io)
      (fun strm got => ⟨.receivesCa strm, Function.update disk .certCaTmp (some got), peerCn,
        configfile⟩)
      (fun x => ⟨.renamesCert, Function.update disk .certCaTmp (some x), peerCn, configfile⟩) := by
  intro strm got
  refine ⟨_, rfl, fun m out strm' hm => ?_, fun m hm => ?_⟩
  · dsimp only
    rw [hm]
    dsimp only
    rw [Function.update_self, Function.update_idem]
    rfl
  · dsimp only
    rw [hm]
    dsimp only
    rw [hio, if_pos rfl]

/-- The name of the server, as the client gets it. -/
def peerCnOf (scf : CaConf) : Bytes := (cString (csrOk scf).2).drop csrOkPrefix.length

theorem csrOkPrefix_prefix (scf : CaConf) : csrOkPrefix <+: cString (csrOk scf).2 := by
  have hbuf : (csrOk scf).2 = csrOkPrefix ++ (scf.caServerName).take (255 - csrOkPrefix.length) := by
    show (csrOkPrefix ++ scf.caServerName).take 255 = _
    rw [List.take_append, List.take_of_length_le (by decide)]
  rw [hbuf, Store.cString_append (by decide)]
  exact List.prefix_append _ _

/-- The two come to an understanding, ... -/
theorem comes_to_terms (hw : Willing cf io scf client sio key x crt ca)
    (hkey : disk .key = none) :
    Relation.ReflTransGen (Calm (caClient (w := w) cf io) (caServer (w := w) scf client sio))
      ⟨⟨.starts, disk, peerCn, configfile⟩, ⟨.reads, none, none⟩, [], [], false⟩
      ⟨⟨.generates, disk, peerCnOf scf, configfile⟩,
        ⟨.receivesCsr w.streams.inflateInit, some [], none⟩, [], [], false⟩ := by
  have hstarts : caClient (w := w) cf io ⟨.starts, disk, peerCn, configfile⟩
      = .act ⟨.saysCsr, disk, peerCn, configfile⟩ := by
    show Move.act _ = _
    dsimp only
    rw [if_neg (by rw [hw.configured, hkey]; simp)]
  have hreads : readsCsr (w := w) scf (some saysCsrText) = .checks := by
    show (if scf.caConf then _ else _) = _
    rw [hw.caConf, if_pos rfl]
  have hchecks : caServer (w := w) scf client sio ⟨.checks, none, none⟩
      = .act ⟨.answersCsr, none, none⟩ := by
    show Move.act _ = _
    rw [checksCsr, if_neg hw.name, if_neg nofun, if_neg nofun]
  have hhears : hearsCsrOk (w := w) ⟨.hearsCsrOk, disk, peerCn, configfile⟩ (some (csrOk scf))
      = ⟨.generates, disk, peerCnOf scf, configfile⟩ := by
    dsimp only [hearsCsrOk, csrOk]
    rw [if_pos ⟨rfl, csrOkPrefix_prefix scf⟩]
    rfl
  have hopens : caServer (w := w) scf client sio ⟨.opensCsr, none, none⟩
      = .act ⟨.receivesCsr w.streams.inflateInit, some [], none⟩ := by
    show Move.act _ = _
    rw [if_pos (hw.serverIo _)]
  have hasks := Calm.tell_right [] false (a := caClient (w := w) cf io)
    (b := caServer (w := w) scf client sio) (s := ⟨.saysCsr, disk, peerCn, configfile⟩)
    (t := ⟨.reads, none, none⟩) rfl rfl
  have hanswers := Calm.tell_left [] false (a := caClient (w := w) cf io)
    (b := caServer (w := w) scf client sio) (s := ⟨.hearsCsrOk, disk, peerCn, configfile⟩)
    (t := ⟨.answersCsr, none, none⟩) rfl rfl
  dsimp only at hasks
  rw [hreads] at hasks
  rw [hhears] at hanswers
  exact .head (.act_left hstarts) (hasks.trans (.head (.act_right hchecks)
    (hanswers.tail (.act_right hopens))))

/-- ... the request is made, sent and signed, ... -/
theorem gets_signed (hlaw : w.Lawful) (hw : Willing cf io scf client sio key x crt ca) :
    Relation.ReflTransGen (Calm (caClient (w := w) cf io) (caServer (w := w) scf client sio))
      ⟨⟨.generates, disk, peerCn, configfile⟩,
        ⟨.receivesCsr w.streams.inflateInit, some [], none⟩, [], [], false⟩
      ⟨⟨.opensCert, Function.update (Function.update disk .key (some key)) .csr (some x), peerCn,
          configfile⟩,
        ⟨.sendsCrt (w.fileMessages crt), some x, some crt⟩, [], [], false⟩ := by
  have hgenerates : caClient (w := w) cf io ⟨.generates, disk, peerCn, configfile⟩
      = .act ⟨.opensCsr, Function.update (Function.update disk .key (some key)) .csr (some x),
          peerCn, configfile⟩ := by
    show Move.act _ = _
    rw [hw.generate, if_pos rfl]
  generalize hdisk : Function.update (Function.update disk .key (some key)) .csr (some x) = disk'
    at hgenerates ⊢
  have hcsr : disk' .csr = some x := by rw [← hdisk, Function.update_self]
  have hopens : caClient (w := w) cf io ⟨.opensCsr, disk', peerCn, configfile⟩
      = .act ⟨.sendsCsr (w.fileMessages x), disk', peerCn, configfile⟩ := by
    show Move.act _ = _
    dsimp only
    rw [hcsr]
    dsimp only
    rw [if_pos (hw.clientIo _)]
  have hsays : Says (caClient (w := w) cf io)
      ⟨.sendsCsr (w.fileMessages x), disk', peerCn, configfile⟩ (w.fileMessages x)
      ⟨.sendsCsr [], disk', peerCn, configfile⟩ :=
    says_list (a := caClient (w := w) cf io)
      (L := fun todo => ⟨.sendsCsr todo, disk', peerCn, configfile⟩) (fun _ _ => ⟨_, rfl⟩) _
  have hsent : caClient (w := w) cf io ⟨.sendsCsr [], disk', peerCn, configfile⟩
      = .act ⟨.opensCert, disk', peerCn, configfile⟩ := rfl
  have hsigns : caServer (w := w) scf client sio ⟨.signs, some x, none⟩
      = .act ⟨.opensCrt, some x, some crt⟩ := by
    show Move.act _ = _
    have hsign : (scf.sign x).1 = true := by rw [hw.sign]
    dsimp only [Option.getD_some]
    rw [if_pos hsign, hw.sign]
  have hopensCrt : caServer (w := w) scf client sio ⟨.opensCrt, some x, some crt⟩
      = .act ⟨.sendsCrt (w.fileMessages crt), some x, some crt⟩ := by
    show Move.act _ = _
    dsimp only
    rw [if_pos (hw.serverIo _)]
  have hrequest := Calm.tell_right_all [] false hsays
    ((receives_csr scf client none hw.serverIo).hears hlaw x)
  exact .head (.act_left hgenerates) (.head (.act_left hopens) (hrequest.trans
    (.head (.act_left hsent) (.head (.act_right hsigns) (.single (.act_right hopensCrt))))))

variable (disk peerCn configfile) in
/-- ... and the certificates are sent and put into their places. -/
theorem gets_certificates (hlaw : w.Lawful) (hw : Willing cf io scf client sio key x crt ca) :
    ∃ disk' configfile',
      Relation.ReflTransGen (Calm (caClient (w := w) cf io) (caServer (w := w) scf client sio))
        ⟨⟨.opensCert, disk, peerCn, configfile⟩,
          ⟨.sendsCrt (w.fileMessages crt), some x, some crt⟩, [], [], false⟩
        ⟨⟨.done 1, disk', peerCn, configfile'⟩, ⟨.done 1, some x, some crt⟩, [], [], false⟩ := by
  have hopensCert : caClient (w := w) cf io ⟨.opensCert, disk, peerCn, configfile⟩
      = .act ⟨.receivesCert w.streams.inflateInit, Function.update disk .certTmp (some []), peerCn,
          configfile⟩ := by
    show Move.act _ = _
    rw [if_pos (hw.clientIo _)]
  have hcrt := Calm.tell_left_all [] false
    (says_list (a := caServer (w := w) scf client sio)
      (L := fun todo => ⟨.sendsCrt todo, some x, some crt⟩) (fun _ _ => ⟨_, rfl⟩) _)
    ((receives_cert cf disk peerCn configfile hw.clientIo).hears hlaw crt)
  generalize Function.update disk .certTmp (some crt) = disk₁ at hcrt
  have hopensCa : caClient (w := w) cf io ⟨.opensCa, disk₁, peerCn, configfile⟩
      = .act ⟨.receivesCa w.streams.inflateInit, Function.update disk₁ .certCaTmp (some []), peerCn,
          configfile⟩ := by
    show Move.act _ = _
    rw [if_pos (hw.clientIo _)]
  have hsentCrt : caServer (w := w) scf client sio ⟨.sendsCrt [], some x, some crt⟩
      = .act ⟨.opensCa, some x, some crt⟩ := rfl
  have hsendsCa : caServer (w := w) scf client sio ⟨.opensCa, some x, some crt⟩
      = .act ⟨.sendsCa (w.fileMessages ca), some x, some crt⟩ := by
    show Move.act _ = _
    rw [hw.sslCertCa]
    dsimp only
    rw [if_pos (hw.serverIo _)]
  have hca := Calm.tell_left_all [] false
    (says_list (a := caServer (w := w) scf client sio)
      (L := fun todo => ⟨.sendsCa todo, some x, some crt⟩) (fun _ _ => ⟨_, rfl⟩) _)
    ((receives_ca cf disk₁ peerCn configfile hw.clientIo).hears hlaw ca)
  generalize Function.update disk₁ .certCaTmp (some ca) = disk₂ at hca
  have hsentCa : caServer (w := w) scf client sio ⟨.sendsCa [], some x, some crt⟩
      = .act ⟨.done 1, some x, some crt⟩ := rfl
  have hrenamesCert : ∃ disk₃, caClient (w := w) cf io ⟨.renamesCert, disk₂, peerCn, configfile⟩
      = .act ⟨.renamesCa, disk₃, peerCn, configfile⟩ :=
    ⟨_, congrArg Move.act (if_pos (hw.clientIo _))⟩
  obtain ⟨disk₃, hrenamesCert⟩ := hrenamesCert
  have hrenamesCa : ∃ disk₄, caClient (w := w) cf io ⟨.renamesCa, disk₃, peerCn, configfile⟩
      = .act ⟨.rewrites, disk₄, peerCn, configfile⟩ :=
    ⟨_, congrArg Move.act (if_pos (hw.clientIo _))⟩
  obtain ⟨disk₄, hrenamesCa⟩ := hrenamesCa
  have hrewrites : caClient (w := w) cf io ⟨.rewrites, disk₄, peerCn, configfile⟩
      = .act ⟨.done 1, disk₄, peerCn, Burp.Conf.rewriteClientConf peerCn configfile⟩ := by
    show Move.act _ = _
    rw [if_pos (hw.clientIo _)]
  exact ⟨disk₄, _, .head (.act_left hopensCert) (hcrt.trans (.head (.act_left hopensCa)
    (.head (.act_right hsentCrt) (.head (.act_right hsendsCa) (hca.trans
      (.head (.act_right hsentCa) (.head (.act_left hrenamesCert) (.head (.act_left hrenamesCa)
        (.single (.act_left hrewrites))))))))))⟩

variable (disk peerCn configfile) in
/-- The whole of it. -/
theorem signs_together (hlaw : w.Lawful) (hw : Willing cf io scf client sio key x crt ca)
    (hkey : disk .key = none) :
    ∃ disk' configfile',
      Relation.ReflTransGen (Calm (caClient (w := w) cf io) (caServer (w := w) scf client sio))
        ⟨⟨.starts, disk, peerCn, configfile⟩, ⟨.reads, none, none⟩, [], [], false⟩
        ⟨⟨.done 1, disk', peerCnOf scf, configfile'⟩, ⟨.done 1, some x, some crt⟩, [], [],
          false⟩ := by
  obtain ⟨disk', configfile', hlast⟩ := gets_certificates
    (Function.update (Function.update disk .key (some key)) .csr (some x)) (peerCnOf scf)
    configfile hlaw hw
  exact ⟨disk', configfile', (comes_to_terms hw hkey).trans ((gets_signed hlaw hw).trans hlast)⟩

/-- **Unless something fails**, every order of steps of the two ends in the same way, after the
same number of steps: with the certificate on both sides, and nothing on the way. -/
theorem always_signed (hlaw : w.Lawful) (hw : Willing cf io scf client sio key x crt ca)
    (hkey : disk .key = none) :
    ∃ n e, e.left.point = .done 1 ∧ e.right = ⟨.done 1, some x, some crt⟩ ∧ e.toLeft = []
      ∧ e.toRight = []
      ∧ ∀ m c, Steps (Calm (caClient (w := w) cf io) (caServer (w := w) scf client sio)) m
          ⟨⟨.starts, disk, peerCn, configfile⟩, ⟨.reads, none, none⟩, [], [], false⟩ c →
        ∃ k, n = m + k ∧ Steps (Calm (caClient cf io) (caServer scf client sio)) k c e := by
  obtain ⟨disk', configfile', hrun⟩ := signs_together disk peerCn configfile hlaw hw hkey
  obtain ⟨n, hn⟩ := exists_steps hrun
  exact ⟨n, ⟨⟨.done 1, disk', peerCnOf scf, configfile'⟩, ⟨.done 1, some x, some crt⟩, [], [],
    false⟩, rfl, rfl, rfl, rfl, fun m c hm => hn.ends (Calm.diamond _ _) (Calm.ended rfl rfl) hm⟩

end Willing

/-! ### A client called "laptop". -/

section Sample

def sampleClientConf : CaClientConf :=
  { generate := (true, some (nameBytes "key"), some (nameBytes "request")) }

theorem willing_sample :
    Willing sampleClientConf (fun _ => true) sampleServerConf (nameBytes "laptop") (fun _ => true)
      (nameBytes "key") (nameBytes "request") (nameBytes "request signed") (nameBytes "ca") :=
  ⟨rfl, rfl, fun _ => rfl, rfl, by decide, by decide, rfl, fun _ => rfl⟩

theorem always_signed_laptop :
    ∃ n e, e.left.point = .done 1
      ∧ e.right = ⟨.done 1, some (nameBytes "request"), some (nameBytes "request signed")⟩
      ∧ e.toLeft = [] ∧ e.toRight = []
      ∧ ∀ m c, Steps (Calm (caClient (w := sampleWire) sampleClientConf fun _ => true)
          (caServer (w := sampleWire) sampleServerConf (nameBytes "laptop") fun _ => true)) m
          ⟨⟨.starts, fun _ => none, [], []⟩, ⟨.reads, none, none⟩, [], [], false⟩ c →
        ∃ k, n = m + k ∧ Steps (Calm (caClient sampleClientConf fun _ => true)
          (caServer sampleServerConf (nameBytes "laptop") fun _ => true)) k c e :=
  always_signed sampleWire_lawful willing_sample rfl

/-- When it comes back without its key, it gets nothing. -/
theorem locked_out_laptop :
    ∃ c : Talk (CaClient sampleWire) (CaServer sampleWire) Message,
      Relation.ReflTransGen (Step (caClient sampleClientConf fun _ => true)
          (caServer sampleServerConf (nameBytes "laptop") fun _ => true))
        ⟨⟨.starts, fun _ => none, [], []⟩, ⟨.reads, some [1], some [2]⟩, [], [], false⟩ c
      ∧ c.left.point = .hearsCsrOk
      ∧ c.left.point ≠ .done 1 ∧ c.right.csr = some [1] ∧ c.right.crt = some [2] := by
  have hstarts : Calm (caClient (w := sampleWire) sampleClientConf fun _ => true)
      (caServer (w := sampleWire) sampleServerConf (nameBytes "laptop") fun _ => true)
      ⟨⟨.starts, fun _ => none, [], []⟩, ⟨.reads, some [1], some [2]⟩, [], [], false⟩
      ⟨⟨.saysCsr, fun _ => none, [], []⟩, ⟨.reads, some [1], some [2]⟩, [], [], false⟩ :=
    .act_left rfl
  have hasks := (Calm.steps rfl (.head hstarts (Calm.tell_right [] false rfl rfl))).1
  exact ⟨_, hasks, rfl, locked_out sampleWire_lawful rfl rfl (Or.inl (by decide)) hasks⟩

end Sample

end Burp.Session
