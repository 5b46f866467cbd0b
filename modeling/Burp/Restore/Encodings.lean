/-
  Burp.Restore.Encodings — what a client sends and what it gets back.

  A client compresses and encrypts what it sends, depending on the command and on its
  settings, and the server stores the bytes as they come.  For a restore the server
  compresses what it believes to be plain, and the client decrypts and inflates what it
  believes to be encrypted and compressed.  Nobody says over the network what has been done.

  Main results:
    * `transferGzfileIn_decoder` — the client's loop runs one of three machines.
    * `restoresWhatWasSent_iff` — every command and every level but for encrypted trailing VSS
      data without compression.
-/
import Burp.Restore.RestoreFile
import Burp.Store.Sbuf
import Burp.Stream.Transducer

namespace Burp.Restore

open FileSystem Burp.Store Burp.Stream

/-! ## §1. zlib and the cipher, piece by piece. -/

/-- `inflate` and the cipher of a client, as the client calls them. -/
structure Streams where
  Strm : Type
  inflateInit : Strm
  inflate : Strm → Bytes → Option (Bytes × Strm)
  Key : Type
  Ctx : Type
  encrypt : Key → Bytes → Bytes
  encSetup : Key → Ctx
  cipherUpdate : Ctx → Bytes → Option (Bytes × Ctx)
  cipherFinal : Ctx → Option Bytes

namespace Streams

variable (s : Streams)

/-- Inflating, where there is nothing more at the end. -/
def inflater : Transducer UInt8 UInt8 := ⟨s.Strm, s.inflateInit, s.inflate, fun _ => some []⟩

def decipherer (key : s.Key) : Transducer UInt8 UInt8 :=
  ⟨s.Ctx, s.encSetup key, s.cipherUpdate, s.cipherFinal⟩

/-- They are exact inverses on whole streams. -/
structure Lawful (c : Codec) : Prop where
  inflates : ∀ level, s.inflater.Undoes (c.gzip level)
  deciphers : ∀ key, (s.decipherer key).Undoes (s.encrypt key)

end Streams

/-! ## §2. Sending a file for the backup. -/

/-- The commands of a client that has an encryption password. -/
def Cmd.isEnc : Cmd → Bool
  | .encFile | .encMetadata | .encVss | .encVssT => true
  | _ => false

variable {c : Codec} {s : Streams}

/-- `send_whole_file_gz`, without the checksum. -/
def sendWholeFileGz (c : Codec) (s : Streams) (encpassword : Option s.Key) (compression : Nat)
    (content : Bytes) : Bytes :=
  let out := if compression ≠ 0 then c.gzip compression content else content
  match encpassword with
  | none => out
  | some key => s.encrypt key out

/-- `send_whole_file_w`. -/
def sendWholeFileW (c : Codec) (s : Streams) (cmd : Cmd) (encpassword : Option s.Key)
    (compression : Nat) (content : Bytes) : Bytes :=
  if (compression ≠ 0 ∨ encpassword.isSome) ∧ cmd ≠ .efsFile then
    sendWholeFileGz c s encpassword compression content
  else content

/-! ## §3. Getting it back. -/

/-- A message that has been read. -/
abbrev Message := Store.Cmd × Bytes

/-- `do_inflate`: what is written. -/
def doInflate (s : Streams) (strm : s.Strm) (buf : Bytes) (encrypted enccompressed : Bool) :
    Option (Bytes × s.Strm) :=
  -- encrypted data that was not compressed
  if encrypted ∧ enccompressed = false then some (buf, strm)
  else s.inflate strm buf

/-- The loop of `transfer_gzfile_in`: what it writes, and the messages that it leaves. -/
def transferLoop (s : Streams) (enccompressed : Bool) : Option s.Ctx → s.Strm → List Message →
    Option (Bytes × List Message)
  | _, _, [] => none
  | encCtx, strm, (cmd, buf) :: messages =>
      match cmd with
      | .append =>
          match encCtx with
          | none =>
              (doInflate s strm buf false enccompressed).bind fun r =>
                (transferLoop s enccompressed none r.2 messages).map fun q => (r.1 ++ q.1, q.2)
          | some ctx =>
              (s.cipherUpdate ctx buf).bind fun dout =>
                if dout.1.isEmpty then transferLoop s enccompressed (some dout.2) strm messages
                else
                  (doInflate s strm dout.1 true enccompressed).bind fun r =>
                    (transferLoop s enccompressed (some dout.2) r.2 messages).map fun q =>
                      (r.1 ++ q.1, q.2)
      | .endFile =>
          match encCtx with
          | none => some ([], messages)
          | some ctx =>
              (s.cipherFinal ctx).bind fun dout =>
                if dout.isEmpty then some ([], messages)
                else (doInflate s strm dout true enccompressed).map fun r => (r.1, messages)
      | .warning => transferLoop s enccompressed encCtx strm messages
      | _ => none

/-- `transfer_efs_in`. -/
def transferEfsIn : List Message → Option (Bytes × List Message)
  | [] => none
  | (.append, buf) :: messages => (transferEfsIn messages).map fun q => (buf ++ q.1, q.2)
  | (.endFile, _) :: messages => some ([], messages)
  | (.warning, _) :: messages => transferEfsIn messages
  | _ => none

/-- `transfer_gzfile_in`, with somewhere to write to. -/
def transferGzfileIn (s : Streams) (win32 : Bool) (cmd : Cmd) (encpassword : Option s.Key)
    (enccompressed : Bool) (messages : List Message) : Option (Bytes × List Message) :=
  if win32 ∧ cmd = .efsFile then transferEfsIn messages
  else transferLoop s enccompressed (encpassword.map s.encSetup) s.inflateInit messages

/-- What `do_restore_client` and `restore_file_or_get_meta` make of an entry.  Encrypted and
not encrypted files can be restored at the same time. -/
def restoreFileOrGetMeta (s : Streams) (win32 : Bool) (encryptionPassword : Option s.Key)
    (req : Request) (messages : List Message) : Option (Bytes × List Message) :=
  let encpassword := if req.cmd.isEnc then encryptionPassword else none
  transferGzfileIn s win32 req.cmd encpassword (dpthIsCompressed req.compression req.datapth)
    messages

/-! ## §4. The loop as a machine. -/

/-- Some data on the wire: appends, with warnings among them, and the end marker. -/
inductive Carries (rest : List Message) : List Bytes → List Message → Prop
  | endFile (e : Bytes) : Carries rest [] ((.endFile, e) :: rest)
  | append {xs : List Bytes} {messages : List Message} (x : Bytes)
      (h : Carries rest xs messages) : Carries rest (x :: xs) ((.append, x) :: messages)
  | warning {xs : List Bytes} {messages : List Message} (w : Bytes)
      (h : Carries rest xs messages) : Carries rest xs ((.warning, w) :: messages)

/-- The machine that the loop is. -/
def decoder (s : Streams) (encpassword : Option s.Key) (enccompressed : Bool) :
    Transducer UInt8 UInt8 :=
  match encpassword with
  | none => s.inflater
  | some key => if enccompressed then (s.decipherer key).pipe s.inflater else s.decipherer key

section Loop

variable {rest messages : List Message} {xs ys : List Bytes}

theorem transferLoop_plain (enccompressed : Bool) (h : Carries rest xs messages) :
    ∀ {strm strm' : s.Strm} {ys : List Bytes}, s.inflater.feed strm xs = some (ys, strm') →
      transferLoop s enccompressed none strm messages = some (ys.flatten, rest) := by
  induction h with
  | endFile e =>
      intro strm strm' ys hfeed
      cases hfeed
      rfl
  | append x h ih =>
      intro strm strm' ys hfeed
      obtain ⟨y, zs, strm₁, hy, hzs, rfl⟩ := Transducer.feed_cons.mp hfeed
      show (s.inflate strm x).bind _ = _
      rw [show s.inflate strm x = some (y, strm₁) from hy]
      show (transferLoop s enccompressed none strm₁ _).map _ = _
      rw [ih hzs]
      rfl
  | warning w h ih =>
      intro strm strm' ys hfeed
      exact ih hfeed

theorem transferLoop_enc (key : s.Key) (h : Carries rest xs messages) :
    ∀ (strm : s.Strm) {ctx ctx' : s.Ctx} {ys : List Bytes} {y : Bytes},
      (s.decipherer key).feed ctx xs = some (ys, ctx') → s.cipherFinal ctx' = some y →
      transferLoop s false (some ctx) strm messages = some ((ys ++ [y]).flatten, rest) := by
  induction h with
  | endFile e =>
      intro strm ctx ctx' ys y hfeed hfinal
      cases hfeed
      show (s.cipherFinal ctx).bind _ = _
      rw [hfinal]
      cases y with
      | nil => rfl
      | cons b y => exact congrArg (fun z => some (z, rest)) (List.append_nil _).symm
  | append x h ih =>
      intro strm ctx ctx' ys y hfeed hfinal
      obtain ⟨z, zs, ctx₁, hz, hzs, rfl⟩ := Transducer.feed_cons.mp hfeed
      show (s.cipherUpdate ctx x).bind _ = _
      rw [show s.cipherUpdate ctx x = some (z, ctx₁) from hz]
      have hrest := ih strm hzs hfinal
      cases z with
      | nil => exact hrest
      | cons b z =>
          show (transferLoop s false (some ctx₁) strm _).map _ = _
          rw [hrest]
          rfl
  | warning w h ih =>
      intro strm ctx ctx' ys y hfeed hfinal
      exact ih strm hfeed hfinal

theorem transferLoop_pipe (key : s.Key) (h : Carries rest xs messages) :
    ∀ {ctx ctx' : s.Ctx} {strm strm' : s.Strm} {ys : List Bytes} {y : Bytes},
      ((s.decipherer key).pipe s.inflater).feed (ctx, strm) xs = some (ys, (ctx', strm')) →
      ((s.decipherer key).pipe s.inflater).final (ctx', strm') = some y →
      transferLoop s true (some ctx) strm messages = some ((ys ++ [y]).flatten, rest) := by
  induction h with
  | endFile e =>
      intro ctx ctx' strm strm' ys y hfeed hfinal
      cases hfeed
      show (s.cipherFinal ctx).bind _ = _
      obtain ⟨dout, hdout, hy⟩ := Option.bind_eq_some_iff.mp hfinal
      rw [show s.cipherFinal ctx = some dout from hdout]
      cases dout with
      | nil =>
          cases hy
          rfl
      | cons b dout =>
          obtain ⟨r, hr, hw⟩ := Option.bind_eq_some_iff.mp hy
          cases hw
          show (s.inflate strm (b :: dout)).map _ = _
          rw [show s.inflate strm (b :: dout) = some r from hr]
          show some (r.1, rest) = some (([] ++ [r.1 ++ []]).flatten, rest)
          simp
  | append x h ih =>
      intro ctx ctx' strm strm' ys y hfeed hfinal
      obtain ⟨z, zs, ⟨ctx₁, strm₁⟩, hz, hzs, rfl⟩ := Transducer.feed_cons.mp hfeed
      obtain ⟨⟨dout, ctx₂⟩, hdout, hout⟩ := Option.bind_eq_some_iff.mp hz
      have hrest := ih hzs hfinal
      show (s.cipherUpdate ctx x).bind _ = _
      rw [show s.cipherUpdate ctx x = some (dout, ctx₂) from hdout]
      cases dout with
      | nil =>
          cases hout
          exact hrest
      | cons b dout =>
          obtain ⟨⟨out, strm₂⟩, hr, heq⟩ := Option.map_eq_some_iff.mp hout
          cases heq
          show (s.inflate strm (b :: dout)).bind _ = _
          rw [show s.inflate strm (b :: dout) = some (out, strm₂) from hr]
          show (transferLoop s true (some ctx₂) strm₂ _).map _ = _
          rw [hrest]
          rfl
  | warning w h ih =>
      intro ctx ctx' strm strm' ys y hfeed hfinal
      exact ih hfeed hfinal

/-- **The loop is its machine.** -/
theorem transferLoop_decoder (encpassword : Option s.Key) (enccompressed : Bool)
    (h : Carries rest xs messages) (hrun : (decoder s encpassword enccompressed).run xs = some ys) :
    transferLoop s enccompressed (encpassword.map s.encSetup) s.inflateInit messages
      = some (ys.flatten, rest) := by
  obtain ⟨zs, st, y, hfeed, hfinal, rfl⟩ := Transducer.run_eq_some.mp hrun
  cases encpassword with
  | none =>
      cases hfinal
      have hloop := transferLoop_plain enccompressed h hfeed
      rw [List.flatten_append, show [([] : Bytes)].flatten = [] from rfl, List.append_nil]
      exact hloop
  | some key =>
      cases enccompressed with
      | false => exact transferLoop_enc key h _ hfeed hfinal
      | true => exact transferLoop_pipe key h hfeed hfinal

theorem transferEfsIn_carries (h : Carries rest xs messages) :
    transferEfsIn messages = some (xs.flatten, rest) := by
  induction h with
  | endFile e => rfl
  | append x h ih =>
      show (transferEfsIn _).map _ = _
      rw [ih]
      rfl
  | warning w h ih => exact ih

end Loop

/-! ## §5. What is stored, and what comes back. -/

/-- What `send_file` streams from: the bytes that the client sent, or with patches, which are
not made for encrypted files, the content itself. -/
inductive Stored (c : Codec) (s : Streams) (cmd : Cmd) (encpassword : Option s.Key)
    (compression : Nat) (content : Bytes) : Nat → Bytes → Prop
  | whole : Stored c s cmd encpassword compression content 0
      (sendWholeFileW c s cmd encpassword compression content)
  | rebuilt {patches : Nat} (hpatches : patches ≠ 0) (hplain : cmd.isEnc = false)
      (hefs : cmd ≠ .efsFile) : Stored c s cmd encpassword compression content patches content

/-- **What the client restores is what it sent**, whatever the codecs, the content and the
messages. -/
def RestoresWhatWasSent (cmd : Cmd) (compression : Nat) (win32 : Bool) : Prop :=
  ∀ (c : Codec) (s : Streams), c.Lawful → s.Lawful c →
  ∀ (encpassword encryptionPassword : Option s.Key) (content : Bytes) (patches : Nat)
    (best : Bytes) (req : Request) (wire : Bytes) (xs : List Bytes) (messages rest : List Message),
  -- the command says whether the file was encrypted, and the password is still the same
  (cmd ≠ .efsFile → encpassword.isSome = cmd.isEnc) →
  (cmd.isEnc = true → encryptionPassword = encpassword) →
  Stored c s cmd encpassword compression content patches best →
  req.cmd = cmd → req.compression = compression →
  sendFile c req patches best = .sent wire → xs.flatten = wire → Carries rest xs messages →
  restoreFileOrGetMeta s win32 encryptionPassword req messages = some (content, rest)

/-- What the server sends is what the client's machine takes for an encoding of the content. -/
theorem restored_of_decoder {req : Request} {encryptionPassword : Option s.Key}
    {content wire : Bytes} {xs : List Bytes} {messages rest : List Message} {win32 : Bool}
    (hefs : req.cmd ≠ .efsFile) (f : Bytes → Bytes)
    (hdecoder : (decoder s (if req.cmd.isEnc then encryptionPassword else none)
      (dpthIsCompressed req.compression req.datapth)).Undoes f)
    (hwire : wire = f content) (hxs : xs.flatten = wire) (hcarries : Carries rest xs messages) :
    restoreFileOrGetMeta s win32 encryptionPassword req messages = some (content, rest) := by
  obtain ⟨ys, hrun, hys⟩ := hdecoder content xs (hxs.trans hwire)
  unfold restoreFileOrGetMeta transferGzfileIn
  simp only
  rw [if_neg (fun h => hefs h.2), transferLoop_decoder _ _ hcarries hrun, hys]

/-- The level that is recorded says whether the file is compressed. -/
theorem dpthIsCompressed_level (compression : Nat) (datapth : Path) :
    dpthIsCompressed compression datapth = decide (compression ≠ 0) := by
  unfold dpthIsCompressed
  by_cases h : compression = 0
  · rw [h]
    rfl
  · rw [if_pos (by omega), decide_eq_true h]

section Cases

variable {req : Request} {encpassword encryptionPassword : Option s.Key} {compression : Nat}
  {content wire : Bytes} {patches : Nat} {best : Bytes} {xs : List Bytes}
  {messages rest : List Message} {win32 : Bool}

/-- What is not encrypted always comes compressed. -/
theorem restored_plain (hs : s.Lawful c) (hplain : req.cmd.isEnc = false)
    (hefs : req.cmd ≠ .efsFile) (hpassword : encpassword.isSome = req.cmd.isEnc)
    (hstored : Stored c s req.cmd encpassword compression content patches best)
    (hcomp : req.compression = compression) (hsent : sendFile c req patches best = .sent wire)
    (hxs : xs.flatten = wire) (hcarries : Carries rest xs messages) :
    restoreFileOrGetMeta s win32 encryptionPassword req messages = some (content, rest) := by
  have hlevel : ∃ level, wire = c.gzip level content := by
    cases hstored with
    | rebuilt hpatches =>
        rw [sendFile, if_pos hpatches] at hsent
        exact ⟨9, (Reply.sent.inj hsent).symm⟩
    | whole =>
        rw [sendFile, if_neg (by simp), if_neg] at hsent
        · rw [hcomp, dpthIsCompressed_level] at hsent
          have hnone : encpassword = none := by simpa [hplain] using hpassword
          by_cases h : compression = 0
          · -- the server compresses it
            rw [if_neg (by simpa using h)] at hsent
            refine ⟨9, (Reply.sent.inj hsent).symm.trans ?_⟩
            rw [sendWholeFileW, hnone, if_neg (by simp [h])]
          · rw [if_pos (by simpa using h)] at hsent
            refine ⟨compression, (Reply.sent.inj hsent).symm.trans ?_⟩
            rw [sendWholeFileW, hnone, if_pos ⟨Or.inl h, hefs⟩, sendWholeFileGz]
            simp only [if_pos h]
        · revert hplain hefs
          cases req.cmd <;> decide
  obtain ⟨level, hwire⟩ := hlevel
  refine restored_of_decoder hefs (c.gzip level) ?_ hwire hxs hcarries
  rw [hplain]
  exact hs.inflates level

/-- What is encrypted is sent as it is, but for one command. -/
theorem restored_enc (hs : s.Lawful c) (henc : req.cmd.isEnc = true)
    (hcmd : req.cmd = .encVssT → compression ≠ 0)
    (hpassword : encpassword.isSome = req.cmd.isEnc) (hsame : encryptionPassword = encpassword)
    (hstored : Stored c s req.cmd encpassword compression content patches best)
    (hcomp : req.compression = compression) (hsent : sendFile c req patches best = .sent wire)
    (hxs : xs.flatten = wire) (hcarries : Carries rest xs messages) :
    restoreFileOrGetMeta s win32 encryptionPassword req messages = some (content, rest) := by
  have hefs : req.cmd ≠ .efsFile := by
    intro h
    rw [h] at henc
    cases henc
  obtain ⟨key, hkey⟩ := Option.isSome_iff_exists.mp (hpassword.trans henc)
  cases hstored with
  | rebuilt _ hplain => simp [henc] at hplain
  | whole =>
      have hasIs : wire = sendWholeFileGz c s encpassword compression content := by
        have hbest : sendWholeFileW c s req.cmd encpassword compression content
            = sendWholeFileGz c s encpassword compression content := by
          rw [sendWholeFileW, if_pos ⟨Or.inr (by simp [hkey]), hefs⟩]
        rw [sendFile, if_neg (show ¬(0 : Nat) ≠ 0 by simp), hbest] at hsent
        by_cases his : req.cmd.asIs = true
        · rw [if_pos his] at hsent
          exact (Reply.sent.inj hsent).symm
        · have hT : req.cmd = .encVssT := by
            revert his henc
            cases req.cmd <;> decide
          rw [if_neg his, hcomp, dpthIsCompressed_level, if_pos (by simpa using hcmd hT)] at hsent
          exact (Reply.sent.inj hsent).symm
      rw [hkey, sendWholeFileGz] at hasIs
      by_cases h : compression = 0
      · refine restored_of_decoder hefs (s.encrypt key) ?_ (by simpa [h] using hasIs) hxs hcarries
        rw [if_pos henc, hsame, hkey, hcomp, dpthIsCompressed_level, decide_eq_false (by simpa)]
        exact hs.deciphers key
      · refine restored_of_decoder hefs (s.encrypt key ∘ c.gzip compression) ?_
          (by simpa [h] using hasIs) hxs hcarries
        rw [if_pos henc, hsame, hkey, hcomp, dpthIsCompressed_level, decide_eq_true h]
        exact (hs.deciphers key).pipe (hs.inflates compression)

/-- What Windows has encrypted nobody touches. -/
theorem restored_efs (hefs : req.cmd = .efsFile)
    (hstored : Stored c s req.cmd encpassword compression content patches best)
    (hsent : sendFile c req patches best = .sent wire)
    (hxs : xs.flatten = wire) (hcarries : Carries rest xs messages) :
    restoreFileOrGetMeta s true encryptionPassword req messages = some (content, rest) := by
  cases hstored with
  | rebuilt _ _ h => exact absurd hefs h
  | whole =>
      rw [sendFile, if_neg (by simp), if_pos (by rw [hefs]; rfl), sendWholeFileW,
        if_neg (fun h => h.2 hefs)] at hsent
      rw [restoreFileOrGetMeta, transferGzfileIn]
      simp only [hefs, and_self, if_true]
      rw [transferEfsIn_carries hcarries, hxs, ← Reply.sent.inj hsent]

end Cases

/-! ## §6. When it works. -/

/-- A zlib whose only header is two bytes, and a cipher that adds the key. -/
def sampleInflate : Nat → Bytes → Option (Bytes × Nat)
  | n, [] => some ([], n)
  | 0, x :: b => if x = 31 then sampleInflate 1 b else none
  | 1, x :: b => if x = 139 then sampleInflate 2 b else none
  | n + 2, x :: b => some (x :: b, n + 2)

def sampleStreams : Streams where
  Strm := Nat
  inflateInit := 0
  inflate := sampleInflate
  Key := UInt8
  Ctx := UInt8
  encrypt key b := b.map (· + key)
  encSetup key := key
  cipherUpdate key b := some (b.map (· - key), key)
  cipherFinal _ := some []

theorem sampleInflate_nil (n : Nat) : sampleInflate n [] = some ([], n) := by
  cases n with
  | zero => rfl
  | succ n => cases n <;> rfl

theorem sampleInflate_append (n : Nat) (x y : Bytes) : sampleInflate n (x ++ y)
    = (sampleInflate n x).bind fun r =>
        (sampleInflate r.2 y).map fun q => (r.1 ++ q.1, q.2) := by
  have hnil : ∀ n, ((some (([] : Bytes), n)).bind fun r : Bytes × Nat =>
      (sampleInflate r.2 y).map fun q => (r.1 ++ q.1, q.2)) = sampleInflate n y := by
    intro n
    show (sampleInflate n y).map _ = _
    simp
  induction n, x using sampleInflate.induct with
  | case1 n =>
      rw [sampleInflate]
      exact (hnil n).symm
  | case2 b ih =>
      rw [List.cons_append, sampleInflate, sampleInflate, if_pos rfl, if_pos rfl]
      exact ih
  | case3 x b h =>
      rw [List.cons_append, sampleInflate, sampleInflate, if_neg h, if_neg h]
      rfl
  | case4 b ih =>
      rw [List.cons_append, sampleInflate, sampleInflate, if_pos rfl, if_pos rfl]
      exact ih
  | case5 x b h =>
      rw [List.cons_append, sampleInflate, sampleInflate, if_neg h, if_neg h]
      rfl
  | case6 n x b =>
      rw [List.cons_append, sampleInflate, sampleInflate]
      show _ = (sampleInflate (n + 2) y).map _
      cases y with
      | nil =>
          rw [sampleInflate]
          simp
      | cons z y =>
          rw [sampleInflate]
          rfl

/-- Feeding a machine that does not care about the pieces. -/
theorem run_of_flatten {t : Transducer UInt8 UInt8} {xs : List Bytes} {y : Bytes}
    (hnil : ∀ st, t.update st [] = some ([], st))
    (happend : ∀ st x y, t.update st (x ++ y)
      = (t.update st x).bind fun r => (t.update r.2 y).map fun q => (r.1 ++ q.1, q.2))
    (hfinal : ∀ st, t.final st = some [])
    (h : ∃ st, t.update t.init xs.flatten = some (y, st)) :
    ∃ ys, t.run xs = some ys ∧ ys.flatten = y := by
  obtain ⟨st, hst⟩ := h
  have hfeed := Transducer.feed_flatten hnil happend xs t.init
  rw [hst] at hfeed
  obtain ⟨⟨ys, st'⟩, hys, heq⟩ := Option.map_eq_some_iff.mp hfeed
  cases heq
  refine ⟨ys ++ [[]], Transducer.run_eq_some.mpr ⟨ys, st', [], hys, hfinal st', rfl⟩, ?_⟩
  simp

theorem sampleInflate_header (b : Bytes) : sampleInflate 0 (31 :: 139 :: b) = some (b, 2) := by
  have hbody : sampleInflate 2 b = some (b, 2) := by cases b <;> rfl
  exact (if_pos rfl).trans ((if_pos rfl).trans hbody)

theorem sampleCipher_undone (key : UInt8) (b : Bytes) :
    (b.map (· + key)).map (· - key) = b := by
  have hid : (fun x : UInt8 => x - key) ∘ (fun x => x + key) = id := by
    funext x
    exact UInt8.add_sub_cancel x key
  rw [List.map_map, hid, List.map_id]

theorem sampleStreams_lawful : sampleStreams.Lawful sampleCodec where
  inflates level := by
    intro x xs hxs
    refine run_of_flatten (fun n => ?_) sampleInflate_append (fun _ => rfl) ⟨(2 : Nat), ?_⟩
    · exact sampleInflate_nil n
    · show sampleInflate 0 xs.flatten = _
      rw [hxs]
      exact sampleInflate_header x
  deciphers key := by
    intro x xs hxs
    refine run_of_flatten (fun _ => rfl) (fun st x y => ?_) (fun _ => rfl) ⟨key, ?_⟩
    · exact congrArg (fun z => some (z, st)) List.map_append
    · rw [hxs]
      exact congrArg (fun z => some (z, key)) (sampleCipher_undone key x)

/-- An entry for the examples. -/
def sampleEntry (cmd : Cmd) (compression : Nat) : Request where
  datapth := ["0000", "0000", "0000"]
  endfile := []
  cmd := cmd
  compression := compression

/-- Encrypted trailing VSS data come back with a deciphered gzip header. -/
theorem encVssT_written (win32 : Bool) :
    restoreFileOrGetMeta sampleStreams win32 (some (3 : UInt8)) (sampleEntry .encVssT 0)
      [(.append, [31, 139, 68]), (.endFile, [])] = some ([28, 136, 65], []) := by
  cases win32 with
  | true => rfl
  | false => rfl

theorem encVssT_corrupted (win32 : Bool) : ¬ RestoresWhatWasSent .encVssT 0 win32 := by
  intro h
  have hbytes := h sampleCodec sampleStreams sampleCodec_lawful sampleStreams_lawful
    (some (3 : UInt8)) (some (3 : UInt8)) [65] 0 [68] (sampleEntry .encVssT 0) [31, 139, 68]
    [[31, 139, 68]] [(.append, [31, 139, 68]), (.endFile, [])] [] (fun _ => rfl) (fun _ => rfl)
    .whole rfl rfl rfl rfl (.append _ (.endFile _))
  rw [encVssT_written] at hbytes
  exact absurd hbytes (by decide)

/-- Elsewhere what Windows has encrypted is taken for something compressed. -/
theorem efsFile_elsewhere (compression : Nat) :
    ¬ RestoresWhatWasSent .efsFile compression false := by
  intro h
  have hwhole : Stored sampleCodec sampleStreams .efsFile none compression [65] 0 [65] := by
    have hwhole : Stored sampleCodec sampleStreams .efsFile none compression [65] 0
        (sendWholeFileW sampleCodec sampleStreams .efsFile none compression [65]) := .whole
    rwa [sendWholeFileW, if_neg (fun h => h.2 rfl)] at hwhole
  have hbytes := h sampleCodec sampleStreams sampleCodec_lawful sampleStreams_lawful none none
    [65] 0 [65] (sampleEntry .efsFile compression) [65] [[65]] [(.append, [65]), (.endFile, [])] []
    (fun h => absurd rfl h) (fun h => Bool.noConfusion h) hwhole rfl rfl rfl rfl
    (.append _ (.endFile _))
  have hnone : restoreFileOrGetMeta sampleStreams false none (sampleEntry .efsFile compression)
      [(.append, [65]), (.endFile, [])] = none := by
    rfl
  rw [hnone] at hbytes
  cases hbytes

/-- **When a client gets back what it sent**: for all commands and levels, except encrypted
trailing VSS data without compression; EFS files exist on Windows only. -/
theorem restoresWhatWasSent_iff (cmd : Cmd) (compression : Nat) (win32 : Bool) :
    RestoresWhatWasSent cmd compression win32
      ↔ ¬ (cmd = .encVssT ∧ compression = 0) ∧ (cmd = .efsFile → win32 = true) := by
  constructor
  · intro h
    constructor
    · intro ⟨hcmd, hcomp⟩
      rw [hcmd, hcomp] at h
      exact encVssT_corrupted win32 h
    · intro hcmd
      rw [hcmd] at h
      cases win32 with
      | true => rfl
      | false => exact absurd h (efsFile_elsewhere compression)
  · intro ⟨hT, hwin⟩ c s hc hs encpassword encryptionPassword content patches best req wire xs
      messages rest hpassword hsame hstored hcmd hcomp hsent hxs hcarries
    rw [← hcmd] at hT hwin hpassword hsame hstored
    by_cases hefs : req.cmd = .efsFile
    · rw [hwin hefs]
      exact restored_efs hefs hstored hsent hxs hcarries
    · by_cases henc : req.cmd.isEnc = true
      · exact restored_enc hs henc (fun h h' => hT ⟨h, h'⟩) (hpassword hefs) (hsame henc) hstored
          hcomp hsent hxs hcarries
      · exact restored_plain hs (by simpa using henc) hefs (hpassword hefs) hstored hcomp hsent hxs
          hcarries

/-- **Encrypted trailing VSS data without compression** do not come back as they were. -/
theorem not_every_command_restores :
    ¬ ∀ (cmd : Cmd) (compression : Nat), RestoresWhatWasSent cmd compression true :=
  fun h => encVssT_corrupted true (h .encVssT 0)

end Burp.Restore
