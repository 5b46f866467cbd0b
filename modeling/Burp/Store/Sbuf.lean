/-
  Burp.Store.Sbuf — manifest entries and their bytes.

  A `struct sbuf` is one entry of a manifest, of the phase 1, phase 2 and unchanged files,
  and of what goes over the network.  In a file it is a few messages, each a command
  character, a length of four hexadecimal digits, that many bytes and a newline: the data
  path if there is one, the stat, the path under the entry's own command, and then the
  target of a link or the size and checksum of a file.  Reading past the end of a file in
  the middle of a message is not an error but the end of the file.  What reading makes of
  what has been written is in `Burp.Store.RoundTrip`.
-/
import Burp.FileSystem.Tree

namespace Burp.Store

open FileSystem

/-! ## §1. Entries. -/

/-- The command characters of cmd.h. -/
inductive Cmd
  | datapth | stat
  | file | encFile | directory | softLink | hardLink | special | metadata | encMetadata
  | efsFile | vss | encVss | vssT | encVssT
  | gen | error | append | interrupt | warning | endFile
  | other (c : UInt8)
  deriving DecidableEq, Repr

def Cmd.toByte : Cmd → UInt8
  | .datapth => 116
  | .stat => 114
  | .file => 102
  | .encFile => 121
  | .directory => 100
  | .softLink => 108
  | .hardLink => 76
  | .special => 115
  | .metadata => 109
  | .encMetadata => 110
  | .efsFile => 107
  | .vss => 118
  | .encVss => 86
  | .vssT => 117
  | .encVssT => 85
  | .gen => 99
  | .error => 101
  | .append => 97
  | .interrupt => 105
  | .warning => 119
  | .endFile => 120
  | .other c => c

/-- The commands that have a name. -/
def Cmd.named : List Cmd :=
  [.datapth, .stat, .file, .encFile, .directory, .softLink, .hardLink, .special, .metadata,
   .encMetadata, .efsFile, .vss, .encVss, .vssT, .encVssT, .gen, .error, .append, .interrupt,
   .warning, .endFile]

def Cmd.ofByte (c : UInt8) : Cmd := (Cmd.named.find? fun cmd => cmd.toByte = c).getD (.other c)

/-- `cmd_is_link`. -/
def Cmd.isLink : Cmd → Bool
  | .softLink | .hardLink => true
  | _ => false

/-- `filedata`, and the same list of commands wherever the source writes it out. -/
def Cmd.filedata : Cmd → Bool
  | .file | .encFile | .metadata | .encMetadata | .vss | .encVss | .vssT | .encVssT
  | .efsFile => true
  | _ => false

/-- `struct stat`, as far as a stat record holds it. -/
structure Stat where
  dev : Int := 0
  ino : Int := 0
  mode : Int := 0
  nlink : Int := 0
  uid : Int := 0
  gid : Int := 0
  rdev : Int := 0
  size : Int := 0
  blksize : Int := 0
  blocks : Int := 0
  atime : Int := 0
  mtime : Int := 0
  ctime : Int := 0
  deriving DecidableEq, Repr

/-- `S_ISDIR`. -/
def Stat.isDir (s : Stat) : Bool := decide (s.mode % 2 ^ 16 / 2 ^ 12 = 4)

/-- `struct sbuf`, as far as it is kept in files. -/
structure Sbuf where
  cmd : Cmd := .error
  path : Option Bytes := none
  linkto : Option Bytes := none
  datapth : Option Bytes := none
  statbuf : Bytes := []
  statp : Stat := {}
  winattr : Int := 0
  compression : Int := -1
  endfile : Option Bytes := none
  deriving DecidableEq, Repr

/-! ## §2. The order of a manifest. -/

/-- A `char`, which is signed. -/
def charVal (c : UInt8) : Int := if c < 128 then c.toNat else (c.toNat : Int) - 256

/-- The loop of `pathcmp`, over C strings. -/
def pathcmpBytes : Bytes → Bytes → Int
  | [], [] => 0
  | _ :: _, [] => 1
  | [], _ :: _ => -1
  | x :: a, y :: b =>
      if x = y then pathcmpBytes a b
      else if x = 47 then -1
      else if y = 47 then 1
      else if charVal x < charVal y then -1
      else 1

/-- `pathcmp`. -/
def pathcmp : Option Bytes → Option Bytes → Int
  | none, none => 0
  | some _, none => 1
  | none, some _ => -1
  | some a, some b => pathcmpBytes a b

def Cmd.isMetadata : Cmd → Bool
  | .metadata | .encMetadata => true
  | _ => false

def Cmd.isVss : Cmd → Bool
  | .vss | .encVss => true
  | _ => false

def Cmd.isVssT : Cmd → Bool
  | .vssT | .encVssT => true
  | _ => false

/-- `sbuf_pathcmp`: like `pathcmp`, with metadata and trailing vss data after the file and
leading vss data before it. -/
def sbufPathcmp (a b : Sbuf) : Int :=
  let r := pathcmp a.path b.path
  if r ≠ 0 then r
  else if a.cmd.isMetadata then if b.cmd.isMetadata then 0 else 1
  else if a.cmd.isVss then if b.cmd.isVss then 0 else -1
  else if a.cmd.isVssT then if b.cmd.isVssT then 0 else 1
  else if b.cmd.isMetadata then -1
  else if b.cmd.isVss then 1
  else if b.cmd.isVssT then -1
  else 0

/-! ## §3. Stat records. -/

/-- `base64_digits`. -/
def base64Digit (n : Nat) : UInt8 :=
  if n < 26 then UInt8.ofNat (65 + n)
  else if n < 52 then UInt8.ofNat (71 + n)
  else if n < 62 then UInt8.ofNat (n - 4)
  else if n = 62 then 43
  else 47

/-- The digits of a number, of which there are at most `fuel + 1`. -/
def base64Digits : Nat → Nat → Bytes
  | 0, n => [base64Digit (n % 64)]
  | fuel + 1, n => if n < 64 then [base64Digit n] else base64Digits fuel (n / 64) ++ [base64Digit (n % 64)]

/-- `to_base64`, of an `int64_t`. -/
def toBase64 (v : Int) : Bytes :=
  if v < 0 then 45 :: base64Digits 10 (-v).toNat else base64Digits 10 v.toNat

/-- The conversion to `int64_t`. -/
def toInt64 (v : Int) : Int := if v < 2 ^ 63 then v else v - 2 ^ 64

/-- `encode_stat`.  A Windows client has no blocks to report, any other no attributes. -/
def encodeStat (win32 : Bool) (s : Stat) (winattr compression : Int) : Bytes :=
  toBase64 (toInt64 s.dev) ++ 32 ::
  (toBase64 (toInt64 s.ino) ++ 32 ::
  (toBase64 s.mode ++ 32 ::
  (toBase64 (toInt64 s.nlink) ++ 32 ::
  (toBase64 s.uid ++ 32 ::
  (toBase64 s.gid ++ 32 ::
  (toBase64 (toInt64 s.rdev) ++ 32 ::
  (toBase64 s.size ++ 32 ::
  (toBase64 (if win32 then 0 else s.blksize) ++ 32 ::
  (toBase64 (if win32 then 0 else s.blocks) ++ 32 ::
  (toBase64 s.atime ++ 32 ::
  (toBase64 s.mtime ++ 32 ::
  (toBase64 s.ctime ++ 32 ::
  (toBase64 0 ++ 32 ::
  (toBase64 (if win32 then winattr else 0) ++ 32 :: toBase64 compression))))))))))))))

/-- `base64_map`. -/
def base64Map (c : UInt8) : Nat :=
  if 65 ≤ c ∧ c ≤ 90 then c.toNat - 65
  else if 97 ≤ c ∧ c ≤ 122 then c.toNat - 71
  else if 48 ≤ c ∧ c ≤ 57 then c.toNat + 4
  else if c = 43 then 62
  else if c = 47 then 63
  else 0

/-- Whether there is a minus sign, and what comes after it. -/
def minusSign : Bytes → Bool × Bytes
  | 45 :: b => (true, b)
  | b => (false, b)

/-- `from_base64`: the value, and what is left of the text. -/
def fromBase64 (b : Bytes) : Int × Bytes :=
  let (neg, b) := minusSign b
  let digits := b.takeWhile fun c => c ≠ 0 ∧ c ≠ 32
  let val := digits.foldl (fun v c => (v * 64 + base64Map c) % 2 ^ 64) 0
  let val : Int := if val < 2 ^ 63 then val else (val : Int) - 2 ^ 64
  (if neg then toInt64 (-val) else val, b.drop digits.length)

/-- A field and the blank after it. -/
def statField (b : Bytes) : Int × Bytes :=
  let (v, b) := fromBase64 b
  (v, b.drop 1)

/-- The test in front of each of the last fields. -/
def hasField : Bytes → Bool
  | 32 :: _ => true
  | c :: 32 :: _ => decide (c ≠ 0)
  | _ => false

/-- The end of `decode_stat`, from the flags on. -/
def decodeLast (sb : Sbuf) (stat : Stat) (b : Bytes) : Stat × Int × Int :=
  if hasField b ∧ b.drop 1 = [] then (stat, sb.winattr, sb.compression)
  else
    let b := if hasField b then (fromBase64 (b.drop 1)).2 else b
    let (winattr, b) := if hasField b then fromBase64 (b.drop 1) else (0, b)
    if hasField b then
      if b.drop 1 = [] then (stat, winattr, sb.compression)
      else
        let c := (fromBase64 (b.drop 1)).1 % 2 ^ 32
        (stat, winattr, if c < 2 ^ 31 then c else c - 2 ^ 32)
    else (stat, winattr, -1)

/-- `decode_stat`, into an `sbuf` with the `winattr` and `compression` of `sb`. -/
def decodeStat (sb : Sbuf) (buf : Bytes) : Stat × Int × Int :=
  let (dev, b) := statField buf
  let (ino, b) := statField b
  let (mode, b) := statField b
  let (nlink, b) := statField b
  let (uid, b) := statField b
  let (gid, b) := statField b
  let (rdev, b) := statField b
  let (size, b) := statField b
  let (blksize, b) := statField b
  let (blocks, b) := statField b
  let (atime, b) := statField b
  let (mtime, b) := statField b
  let (ctime, b) := fromBase64 b
  -- the fields of 64 bits without a sign, and of 32
  decodeLast sb
    { dev := dev % 2 ^ 64, ino := ino % 2 ^ 64, mode := mode % 2 ^ 32, nlink := nlink % 2 ^ 64,
      uid := uid % 2 ^ 32, gid := gid % 2 ^ 32, rdev := rdev % 2 ^ 64, size := size,
      blksize := blksize, blocks := blocks, atime := atime, mtime := mtime, ctime := ctime } b

/-! ## §4. Writing. -/

/-- A digit of `%X`. -/
def hexDigit (n : Nat) : UInt8 := if n < 10 then UInt8.ofNat (48 + n) else UInt8.ofNat (55 + n)

/-- `%04X` of a number that fits. -/
def hex4 (n : Nat) : Bytes :=
  [hexDigit (n / 4096 % 16), hexDigit (n / 256 % 16), hexDigit (n / 16 % 16), hexDigit (n % 16)]

/-- `send_msg_fp`.  The length goes through an `unsigned int`; one that then takes more than
four digits is an error. -/
def sendMsg (cmd : Cmd) (buf : Bytes) : Option Bytes :=
  let s := buf.length % 2 ^ 32
  if s < 65536 then some (cmd.toByte :: hex4 s ++ buf ++ [10]) else none

/-- `send_msg_zp`: `gzwrite` gets an `unsigned int` as well. -/
def sendMsgZp (cmd : Cmd) (buf : Bytes) : Option Bytes :=
  let s := buf.length % 2 ^ 32
  if s < 65536 then some (cmd.toByte :: hex4 s ++ buf.take s ++ [10]) else none

/-- The text up to the first NUL. -/
def cString (b : Bytes) : Bytes := b.takeWhile (· ≠ 0)

/-- A message for what an entry may not have. -/
def sendIf (send : Cmd → Bytes → Option Bytes) (cmd : Cmd) : Option Bytes → Option Bytes
  | none => some []
  | some text => send cmd text

/-- `sbuf_to_fp` and `sbuf_to_zp`, whose body is the same but for what it writes a message
with. -/
def sbufTo (send : Cmd → Bytes → Option Bytes) (writeEndfile : Bool) (sb : Sbuf) : Option Bytes :=
  match sb.path with
  | none => some []
  | some path => do
      let datapth ← sendIf send .datapth (sb.datapth.map cString)
      let stat ← send .stat sb.statbuf
      let name ← send sb.cmd path
      let linkto ← sendIf send sb.cmd sb.linkto
      let endfile ← sendIf send .endFile
        (if writeEndfile && sb.cmd.filedata then some (sb.endfile.getD []) else none)
      some (datapth ++ stat ++ name ++ linkto ++ endfile)

/-- `sbuf_to_fp`. -/
def toManifest : Bool → Sbuf → Option Bytes := sbufTo sendMsg

/-- `sbuf_to_zp`. -/
def toManifestZp : Bool → Sbuf → Option Bytes := sbufTo sendMsgZp

/-! ## §5. Reading. -/

/-- A return value of the reading functions: 0, 1 for the end, or -1. -/
inductive Ars
  | ok | ended | error
  deriving DecidableEq, Repr

/-- `async_read_fp_msg`: `len` bytes, or the end of the file. -/
def readFpMsg (len : Nat) (b : Bytes) : Option (Bytes × Bytes) :=
  if len ≤ b.length then some (b.take len, b.drop len) else none

/-- The value of a hexadecimal digit. -/
def hexVal (c : UInt8) : Option Nat :=
  if 48 ≤ c ∧ c ≤ 57 then some (c.toNat - 48)
  else if 65 ≤ c ∧ c ≤ 70 then some (c.toNat - 55)
  else if 97 ≤ c ∧ c ≤ 102 then some (c.toNat - 87)
  else none

/-- `%04X` of `scanf`: blanks, a sign, `0x`, digits. -/
def scanHex (b : Bytes) : Option Nat :=
  let b := b.dropWhile fun c => c = 32 ∨ (9 ≤ c ∧ c ≤ 13)
  let (neg, b) :=
    match b with
    | 45 :: b => (true, b)
    | 43 :: b => (false, b)
    | b => (false, b)
  let b :=
    match b with
    | 48 :: 120 :: b => b
    | 48 :: 88 :: b => b
    | b => b
  let digits := b.takeWhile fun c => (hexVal c).isSome
  if digits = [] then none
  else
    let v := digits.foldl (fun v c => 16 * v + (hexVal c).getD 0) 0
    some (if neg then (2 ^ 32 - v) % 2 ^ 32 else v)

/-- `async_read_fp`: the result, the command, the text and the rest of the file. -/
def readFp (b : Bytes) : Ars × Cmd × Bytes × Bytes :=
  match readFpMsg 5 b with
  | none => (.ended, .error, [], [])
  | some (head, b) =>
      match head.takeWhile (· ≠ 0) with
      | [] => (.error, .error, [], b)
      | c :: len =>
          match scanHex len with
          | none => (.error, .error, [], b)
          | some r =>
              match readFpMsg (r + 1) b with
              | none => (.ended, Cmd.ofByte c, [], [])
              | some (text, b) => (.ok, Cmd.ofByte c, text.take r, b)

/-- The texts that end a list. -/
def endTexts : List Bytes :=
  ["backupend", "restoreend", "phase1end", "backupphase2", "estimateend"].map
    fun s => s.toList.map fun c => UInt8.ofNat c.toNat

/-- `async_read_stat` on a file.  Each turn reads a message, so the length of the file
bounds their number; `d` is the data path so far. -/
def readStat : Nat → Option Bytes → Sbuf → Bytes → Ars × Sbuf × Bytes
  | 0, _, sb, b => (.error, sb, b)
  | fuel + 1, d, sb, b =>
      match readFp b with
      | (.ok, .datapth, buf, b) => readStat fuel (some buf) sb b
      | (.ok, .stat, buf, b) =>
          let (statp, winattr, compression) := decodeStat sb buf
          (.ok, { sb with statp := statp, winattr := winattr, compression := compression,
                          statbuf := buf, datapth := d }, b)
      | (.ok, .gen, buf, b) => (if cString buf ∈ endTexts then .ended else .error, sb, b)
      | (.ok, _, _, b) => (.error, sb, b)
      | (.ended, _, _, b) => (.ended, sb, b)
      | (.error, _, _, b) => (.error, sb, b)

/-- `do_sbuf_fill_from_file`, into `sb`. -/
def fillFromFile (phase1 : Bool) (sb : Sbuf) (b : Bytes) : Ars × Sbuf × Bytes :=
  match readStat (b.length + 1) none sb b with
  | (.ok, sb, b) =>
      match readFp b with
      | (.ok, cmd, path, b) =>
          let sb := { sb with cmd := cmd, path := some path }
          if cmd.isLink then
            match readFp b with
            | (.ok, cmd', linkto, b) =>
                (if cmd'.isLink then .ok else .error, { sb with linkto := some linkto }, b)
            | (ars, _, _, b) => (ars, sb, b)
          else if !phase1 && cmd.filedata then
            match readFp b with
            | (.ok, cmd', endfile, b) =>
                (if cmd' = .endFile then .ok else .error, { sb with endfile := some endfile }, b)
            | (ars, _, _, b) => (ars, sb, b)
          else (.ok, sb, b)
      | (ars, cmd, _, b) => (ars, { sb with cmd := cmd }, b)
  | (ars, sb, b) => (ars, sb, b)

/-- `sbuf_fill`. -/
def sbufFill : Bytes → Ars × Sbuf × Bytes := fillFromFile false {}

/-- `sbuf_fill_phase1`. -/
def sbufFillPhase1 : Bytes → Ars × Sbuf × Bytes := fillFromFile true {}

end Burp.Store
