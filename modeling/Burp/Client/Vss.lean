/-
  Burp.Client.Vss — the three entries of a Windows file.

  A file that Windows backs up is a sequence of streams, each with a header of 20 bytes, and
  the stream with the id 1 is the data of the file.  With `split_vss` the client sends it as
  three entries: what comes before the data with the header of the data, the data, and what
  comes after them.  All three are read from one open file, and the number of bytes to expect
  is kept from the first entry to the last.

  Main results:
    * `getVss_streams` — the first entry ends with the header of the data.
    * `reads_sendWholeFileW` — the others have the expected number of bytes, or all of them.
    * `whole_stream_iff` — the three entries are the whole file if what comes after the data is
      no longer than the data, or there are none.
-/
import Burp.Store.Sbuf

namespace Burp.Client

open FileSystem Burp.Store

/-! ## §1. The open file. -/

/-- `BFILE`: what is left to read of it, and how the next reads split it. -/
structure Bfd where
  left : Bytes := []
  splits : List Nat := []

/-- `bread`: at least one byte, if there is one and there is room for it. -/
def bread (count : Nat) (bfd : Bfd) : Bytes × Bfd :=
  let most := min count bfd.left.length
  let n := min most (max 1 (bfd.splits.headD most))
  (bfd.left.take n, { left := bfd.left.drop n, splits := bfd.splits.tail })

/-- `ensure_read`: what it has read, which is less than `s` bytes if it fails. -/
def ensureReadLoop : Nat → Nat → Bfd → Bytes × Bfd
  | 0, _, bfd => ([], bfd)
  | fuel + 1, s, bfd =>
      let (got, bfd) := bread s bfd
      if got = [] then ([], bfd)
      else if s ≤ got.length then (got, bfd)
      else
        let (more, bfd) := ensureReadLoop fuel (s - got.length) bfd
        (got ++ more, bfd)

def ensureRead (s : Nat) (bfd : Bfd) : Bytes × Bfd := ensureReadLoop (s + 1) s bfd

/-! ## §2. The headers. -/

/-- A number in some bytes, the lowest byte first. -/
def littleEndian : Nat → Nat → Bytes
  | 0, _ => []
  | k + 1, n => UInt8.ofNat (n % 256) :: littleEndian k (n / 256)

def ofLittleEndian : Bytes → Nat
  | [] => 0
  | c :: b => c.toNat + 256 * ofLittleEndian b

/-- `struct bsid`, without the attributes; Windows gives no size that is negative. -/
structure Bsid where
  dwStreamId : Nat
  size : Nat
  dwStreamNameSize : Nat

def bsidsize : Nat := 20

def bsidOf (b : Bytes) : Bsid where
  dwStreamId := ofLittleEndian (b.take 4)
  size := ofLittleEndian ((b.drop 8).take 8)
  dwStreamNameSize := ofLittleEndian ((b.drop 16).take 4)

/-- The loop of `get_vss`: the bytes that it keeps, and the number of bytes to expect. -/
def getVssLoop : Nat → Bytes → Nat → Bfd → Option (Bytes × Nat × Bfd)
  | 0, _, _, _ => none
  | fuel + 1, vss, datalen, bfd =>
      let (header, bfd) := ensureRead bsidsize bfd
      if header.length ≠ bsidsize then some (vss, datalen, bfd)
      else
        let sid := bsidOf header
        -- the start of the data of the file
        if sid.dwStreamId = 1 then some (vss ++ header, sid.size, bfd)
        else
          let s := sid.size + sid.dwStreamNameSize
          let (rest, bfd) := ensureRead s bfd
          if rest.length ≠ s then none else getVssLoop fuel (vss ++ header ++ rest) datalen bfd

/-- `get_vss`; each turn takes a header, so the length of the file bounds their number. -/
def getVss (datalen : Nat) (bfd : Bfd) : Option (Bytes × Nat × Bfd) :=
  getVssLoop (bfd.left.length + 1) [] datalen bfd

/-! ## §3. Sending. -/

/-- What `send_whole_file` reads.  The number of bytes to expect is known if it is not zero. -/
def sendLoop (known : Bool) : Nat → Nat → Bfd → Bytes × Bfd
  | 0, _, bfd => ([], bfd)
  | fuel + 1, datalen, bfd =>
      let (s, bfd) := bread (if known then min 4096 datalen else 4096) bfd
      let datalen := datalen - s.length
      if s = [] then ([], bfd)
      else if known ∧ datalen = 0 then (s, bfd)
      else
        let (more, bfd) := sendLoop known fuel datalen bfd
        (s ++ more, bfd)

def sendWholeFile (datalen : Nat) (bfd : Bfd) : Bytes × Bfd :=
  sendLoop (decide (0 < datalen)) (bfd.left.length + 1) datalen bfd

def zchunk : Nat := 16000

/-- What `send_whole_file_gz` reads. -/
def sendLoopGz (compression : Nat) (known : Bool) : Nat → Nat → Bfd → Bytes × Bfd
  | 0, _, bfd => ([], bfd)
  | fuel + 1, datalen, bfd =>
      let (s, bfd) :=
        if known then if datalen = 0 then ([], bfd) else bread (min zchunk datalen) bfd
        else bread zchunk bfd
      let datalen := datalen - s.length
      if compression = 0 ∧ s = [] then ([], bfd)
      else
        let finish := if known ∧ datalen = 0 then true else decide (s = [])
        if finish then (s, bfd)
        else
          let (more, bfd) := sendLoopGz compression known fuel datalen bfd
          (s ++ more, bfd)

def sendWholeFileGz (compression datalen : Nat) (bfd : Bfd) : Bytes × Bfd :=
  sendLoopGz compression (decide (0 < datalen)) (bfd.left.length + 1) datalen bfd

/-- The options of the client that matter here. -/
structure Conf where
  compression : Nat
  /-- There is an encryption password. -/
  encryption : Bool
  stripVss : Bool

/-- `send_whole_file_w`, for anything but an EFS file. -/
def sendWholeFileW (conf : Conf) (datalen : Nat) (bfd : Bfd) : Bytes × Bfd :=
  if conf.compression ≠ 0 ∨ conf.encryption then sendWholeFileGz conf.compression datalen bfd
  else sendWholeFile datalen bfd

/-- What the loop of phase 2 keeps from one request to the next: the open file, and the number
of bytes to expect. -/
structure Reading where
  path : Option Bytes := none
  bfd : Bfd := {}
  datalen : Nat := 0

/-- `open_file_for_send`, where `files` opens a file at its start. -/
def openFileForSend (files : Bytes → Bfd) (path : Bytes) (r : Reading) : Reading :=
  -- it is open already after reading the VSS data
  if r.path = some path then r else { path := some path, bfd := files path, datalen := 0 }

/-- The answer to a request for a whole file: what is read of the file for its entry. -/
def sendEntry (conf : Conf) (files : Bytes → Bfd) (cmd : Cmd) (path : Bytes) (r : Reading) :
    Option (Bytes × Reading) :=
  let r := openFileForSend files path r
  let send (r : Reading) : Bytes × Reading :=
    let (data, bfd) := sendWholeFileW conf r.datalen r.bfd
    (data, { r with bfd := bfd })
  if cmd = .metadata ∨ cmd = .encMetadata ∨ cmd = .vss ∨ cmd = .encVss ∨ conf.stripVss then
    match getVss r.datalen r.bfd with
    | none => none
    | some (vss, datalen, bfd) =>
        let r := { r with datalen := datalen, bfd := bfd }
        if conf.stripVss then some (send r) else some (vss, r)
  else some (send r)

/-- The three entries of a file, in the order of phase 1. -/
def threeEntries (conf : Conf) (files : Bytes → Bfd) (path : Bytes) (r : Reading) :
    Option Bytes := do
  let (vss, r) ← sendEntry conf files (if conf.encryption then .encVss else .vss) path r
  let (data, r) ← sendEntry conf files (if conf.encryption then .encFile else .file) path r
  let (trail, _) ← sendEntry conf files (if conf.encryption then .encVssT else .vssT) path r
  some (vss ++ data ++ trail)

/-! ## §4. What is read. -/

/-- The next bytes of a file, as far as there are any. -/
structure Reads (n : Nat) (bfd : Bfd) (r : Bytes × Bfd) : Prop where
  got : r.1 = bfd.left.take n
  left : r.2.left = bfd.left.drop n

theorem Reads.append {n m : Nat} {bfd bfd' bfd'' : Bfd} {got more : Bytes}
    (h : Reads n bfd (got, bfd')) (h' : Reads m bfd' (more, bfd'')) :
    Reads (n + m) bfd (got ++ more, bfd'') := by
  have hgot : got = bfd.left.take n := h.got
  have hleft : bfd'.left = bfd.left.drop n := h.left
  constructor
  · show got ++ more = _
    rw [show more = bfd'.left.take m from h'.got, hgot, hleft, List.take_add]
  · show bfd''.left = _
    rw [show bfd''.left = bfd'.left.drop m from h'.left, hleft, List.drop_drop]

/-- Reading beyond the end is reading up to the end. -/
theorem Reads.congr {n m : Nat} {bfd : Bfd} {r : Bytes × Bfd} (h : Reads n bfd r)
    (hnm : min n bfd.left.length = min m bfd.left.length) : Reads m bfd r := by
  constructor
  · rw [h.got, List.take_eq_take_min, hnm, ← List.take_eq_take_min]
  · rw [h.left]
    rcases Nat.le_total bfd.left.length n with hn | hn
    · rw [List.drop_of_length_le hn, List.drop_of_length_le (by omega)]
    · rcases Nat.le_total bfd.left.length m with hm | hm
      · rw [List.drop_of_length_le hm, List.drop_of_length_le (by omega)]
      · rw [show n = m by omega]

/-- **A read**: some bytes, but none only where there are none to read. -/
theorem bread_reads (count : Nat) (bfd : Bfd) : ∃ n, Reads n bfd (bread count bfd)
    ∧ (bread count bfd).1.length = n ∧ n ≤ count
    ∧ (n = 0 → count = 0 ∨ bfd.left = []) := by
  refine ⟨min (min count bfd.left.length)
    (max 1 (bfd.splits.headD (min count bfd.left.length))), ⟨rfl, rfl⟩, ?_, ?_, ?_⟩
  · show (bfd.left.take _).length = _
    rw [List.length_take]
    omega
  · omega
  · intro hzero
    rcases Nat.eq_zero_or_pos bfd.left.length with hlen | hlen
    · exact Or.inr (List.length_eq_zero_iff.mp hlen)
    · exact Or.inl (by omega)

theorem ensureReadLoop_reads : ∀ (fuel s : Nat) (bfd : Bfd), s < fuel →
    Reads s bfd (ensureReadLoop fuel s bfd)
  | 0, _, _, h => by omega
  | fuel + 1, s, bfd, h => by
      obtain ⟨n, hreads, hlen, hle, hzero⟩ := bread_reads s bfd
      unfold ensureReadLoop
      generalize bread s bfd = r at hreads hlen
      obtain ⟨got, bfd'⟩ := r
      simp only at hlen ⊢
      by_cases hgot : got = []
      · -- nothing is left, or nothing was wanted
        rw [if_pos hgot]
        have hn : n = 0 := by rw [← hlen, hgot]; rfl
        rw [hgot] at hreads
        refine hreads.congr ?_
        rcases hzero hn with hs | hnil
        · rw [hn, hs]
        · rw [hnil]
          simp
      · rw [if_neg hgot]
        have hpos : 0 < got.length := List.length_pos_of_ne_nil hgot
        by_cases hdone : s ≤ got.length
        · rw [if_pos hdone, show s = n by omega]
          exact hreads
        · rw [if_neg hdone]
          have hrest := ensureReadLoop_reads fuel (s - got.length) bfd' (by omega)
          have hall := hreads.append hrest
          rwa [show n + (s - got.length) = s by omega] at hall

theorem ensureRead_reads (s : Nat) (bfd : Bfd) : Reads s bfd (ensureRead s bfd) :=
  ensureReadLoop_reads (s + 1) s bfd (by omega)

/-- How many bytes a file is sent with. -/
def wanted (known : Bool) (datalen : Nat) (bfd : Bfd) : Nat :=
  if known then datalen else bfd.left.length

section Loops

variable {known : Bool} {datalen room : Nat} {bfd bfd' bfd'' : Bfd} {s more : Bytes}

/-- A read that gives nothing, though there is room, is the end of the file. -/
theorem reads_nothing (hroom : 0 < room) (hknown : known = true → 0 < datalen)
    (h : bread (if known then min room datalen else room) bfd = (s, bfd')) (hs : s = []) :
    Reads (wanted known datalen bfd) bfd ([], bfd') := by
  obtain ⟨n, hreads, hlen, hle, hzero⟩ :=
    bread_reads (if known then min room datalen else room) bfd
  rw [h] at hreads hlen
  have hn : n = 0 := by rw [← hlen, hs]; rfl
  have hnil : bfd.left = [] := by
    rcases hzero hn with hc | hnil
    · split_ifs at hc with hk
      · have := hknown hk
        omega
      · omega
    · exact hnil
  rw [hs] at hreads
  refine hreads.congr ?_
  rw [hnil]
  simp

/-- A read that gives something: no more than is expected, and less is left. -/
theorem reads_something (h : bread (if known then min room datalen else room) bfd = (s, bfd'))
    (hs : s ≠ []) : Reads s.length bfd (s, bfd') ∧ (known = true → s.length ≤ datalen)
      ∧ bfd'.left.length + s.length = bfd.left.length ∧ 0 < s.length := by
  obtain ⟨n, hreads, hlen, hle, -⟩ :=
    bread_reads (if known then min room datalen else room) bfd
  rw [h] at hreads hlen
  have hgot : s = bfd.left.take n := hreads.got
  have hleft : bfd'.left = bfd.left.drop n := hreads.left
  have hlength := congrArg List.length hgot
  rw [List.length_take] at hlength
  simp only at hlen
  refine ⟨hlen ▸ hreads, ?_, ?_, List.length_pos_of_ne_nil hs⟩
  · intro hk
    rw [if_pos hk] at hle
    omega
  · rw [hleft, List.length_drop]
    omega

/-- The rest is read after it. -/
theorem Reads.goesOn (h : Reads s.length bfd (s, bfd'))
    (hcount : known = true → s.length ≤ datalen)
    (hleft : bfd'.left.length + s.length = bfd.left.length)
    (hrest : Reads (wanted known (datalen - s.length) bfd') bfd' (more, bfd'')) :
    Reads (wanted known datalen bfd) bfd (s ++ more, bfd'') := by
  have hall := h.append hrest
  unfold wanted at hall ⊢
  cases known with
  | false =>
      simp only [Bool.false_eq_true, if_false] at hall ⊢
      rwa [show s.length + bfd'.left.length = bfd.left.length by omega] at hall
  | true =>
      have := hcount rfl
      simp only [if_true] at hall ⊢
      rwa [show s.length + (datalen - s.length) = datalen by omega] at hall

end Loops

theorem sendLoop_reads : ∀ (fuel datalen : Nat) (bfd : Bfd) (known : Bool),
    bfd.left.length < fuel → (known = true → 0 < datalen) →
    Reads (wanted known datalen bfd) bfd (sendLoop known fuel datalen bfd)
  | 0, _, _, _, h, _ => by omega
  | fuel + 1, datalen, bfd, known, h, hknown => by
      unfold sendLoop
      generalize hread : bread (if known then min 4096 datalen else 4096) bfd = r
      obtain ⟨s, bfd'⟩ := r
      simp only
      by_cases hs : s = []
      · rw [if_pos hs]
        exact reads_nothing (by omega) hknown hread hs
      · rw [if_neg hs]
        obtain ⟨hreads, hcount, hleft, hpos⟩ := reads_something hread hs
        by_cases hdone : known = true ∧ datalen - s.length = 0
        · rw [if_pos hdone, wanted, if_pos hdone.1]
          have := hcount hdone.1
          rwa [show datalen = s.length by omega]
        · rw [if_neg hdone]
          refine hreads.goesOn hcount hleft (sendLoop_reads fuel _ bfd' known (by omega) ?_)
          intro hk
          have : datalen - s.length ≠ 0 := fun hz => hdone ⟨hk, hz⟩
          omega

theorem sendLoopGz_reads (compression : Nat) : ∀ (fuel datalen : Nat) (bfd : Bfd) (known : Bool),
    bfd.left.length < fuel → (known = true → 0 < datalen) →
    Reads (wanted known datalen bfd) bfd (sendLoopGz compression known fuel datalen bfd)
  | 0, _, _, _, h, _ => by omega
  | fuel + 1, datalen, bfd, known, h, hknown => by
      have hcond : (if known = true then if datalen = 0 then ([], bfd) else
          bread (min zchunk datalen) bfd else bread zchunk bfd)
          = bread (if known then min zchunk datalen else zchunk) bfd := by
        by_cases hk : known = true
        · have := hknown hk
          rw [if_pos hk, if_neg (by omega), if_pos hk]
        · rw [if_neg hk, if_neg hk]
      unfold sendLoopGz
      rw [hcond]
      generalize hread : bread (if known then min zchunk datalen else zchunk) bfd = r
      obtain ⟨s, bfd'⟩ := r
      simp only
      by_cases hs : s = []
      · -- the end of the file, whether there is something to finish or not
        have hnone := reads_nothing (by decide) hknown hread hs
        have hfinish : (if known = true ∧ datalen - s.length = 0 then true
            else decide (s = [])) = true := by
          rw [hs]
          simp
        rw [hfinish, if_pos rfl, hs, ite_self]
        exact hnone
      · obtain ⟨hreads, hcount, hleft, hpos⟩ := reads_something hread hs
        rw [if_neg (fun hstop => hs hstop.2)]
        by_cases hdone : known = true ∧ datalen - s.length = 0
        · rw [if_pos hdone, if_pos rfl, wanted, if_pos hdone.1]
          have := hcount hdone.1
          rwa [show datalen = s.length by omega]
        · rw [if_neg hdone, if_neg (by simpa using hs)]
          refine hreads.goesOn hcount hleft
            (sendLoopGz_reads compression fuel _ bfd' known (by omega) ?_)
          intro hk
          have : datalen - s.length ≠ 0 := fun hz => hdone ⟨hk, hz⟩
          omega

/-- **What is sent of a file**: the expected number of bytes, or all of them if none is
expected. -/
theorem reads_sendWholeFileW (conf : Conf) (datalen : Nat) (bfd : Bfd) :
    Reads (if datalen = 0 then bfd.left.length else datalen) bfd
      (sendWholeFileW conf datalen bfd) := by
  have hcount : wanted (decide (0 < datalen)) datalen bfd
      = if datalen = 0 then bfd.left.length else datalen := by
    unfold wanted
    by_cases hd : datalen = 0
    · rw [if_pos hd, if_neg (by simp [hd])]
    · rw [if_neg hd, if_pos (by simpa using Nat.pos_of_ne_zero hd)]
  rw [← hcount]
  unfold sendWholeFileW
  split_ifs
  · exact sendLoopGz_reads _ _ _ _ _ (by omega) (by simp)
  · exact sendLoop_reads _ _ _ _ (by omega) (by simp)

/-! ## §5. The streams. -/

theorem length_littleEndian : ∀ k n : Nat, (littleEndian k n).length = k
  | 0, _ => rfl
  | k + 1, n => by rw [littleEndian, List.length_cons, length_littleEndian k]

/-- **Numbers are read back.** -/
theorem ofLittleEndian_littleEndian : ∀ (k : Nat) {n : Nat}, n < 256 ^ k →
    ofLittleEndian (littleEndian k n) = n
  | 0, n, h => by
      have hn : n = 0 := by simpa using h
      rw [hn]
      rfl
  | k + 1, n, h => by
      have hdiv : n / 256 < 256 ^ k := by
        rw [Nat.div_lt_iff_lt_mul (by omega), ← Nat.pow_succ]
        exact h
      have hbyte : (UInt8.ofNat (n % 256)).toNat = n % 256 := by
        rw [UInt8.toNat_ofNat']
        omega
      rw [littleEndian, ofLittleEndian, hbyte, ofLittleEndian_littleEndian k hdiv]
      omega

/-- A stream of the Windows backup API. -/
structure Stream where
  id : Nat
  attributes : Nat
  name : Bytes
  data : Bytes
  id_lt : id < 2 ^ 32
  name_lt : name.length < 2 ^ 31
  data_lt : data.length < 2 ^ 63

def Stream.header (s : Stream) : Bytes :=
  littleEndian 4 s.id ++ (littleEndian 4 s.attributes
    ++ (littleEndian 8 s.data.length ++ littleEndian 4 s.name.length))

def Stream.bytes (s : Stream) : Bytes := s.header ++ (s.name ++ s.data)

theorem Stream.length_header (s : Stream) : s.header.length = bsidsize := by
  simp [Stream.header, length_littleEndian, bsidsize]

/-- **A header is read back.** -/
theorem Stream.bsidOf_header (s : Stream) : (bsidOf s.header).dwStreamId = s.id
    ∧ (bsidOf s.header).size = s.data.length
    ∧ (bsidOf s.header).dwStreamNameSize = s.name.length := by
  have hid := s.id_lt
  have hname := s.name_lt
  have hdata := s.data_lt
  have h4 : ∀ n, (littleEndian 4 n).length = 4 := length_littleEndian 4
  have h8 : (littleEndian 8 s.data.length).length = 8 := length_littleEndian 8 _
  unfold bsidOf Stream.header
  refine ⟨?_, ?_, ?_⟩
  · simp only
    rw [List.take_left' (h4 _), ofLittleEndian_littleEndian 4 (by omega)]
  · simp only
    rw [List.drop_append, List.drop_of_length_le (by rw [h4]; omega), List.nil_append, h4,
      List.drop_left' (h4 _), List.take_left' h8, ofLittleEndian_littleEndian 8 (by omega)]
  · simp only
    rw [List.drop_append, List.drop_of_length_le (by rw [h4]; omega), List.nil_append, h4,
      List.drop_append, List.drop_of_length_le (by rw [h4]; omega), List.nil_append, h4,
      List.drop_left' h8, List.take_of_length_le (by rw [h4]),
      ofLittleEndian_littleEndian 4 (by omega)]

/-- The file of a backup: some streams, the data, and some more streams. -/
structure BackupFile where
  before : List Stream
  data : Stream
  after : List Stream
  before_id : ∀ s ∈ before, s.id ≠ 1
  data_id : data.id = 1

/-- What comes before the data, with their header. -/
def BackupFile.vss (f : BackupFile) : Bytes := f.before.flatMap Stream.bytes ++ f.data.header

def BackupFile.trailer (f : BackupFile) : Bytes := f.after.flatMap Stream.bytes

/-- What comes after the header of the data. -/
def BackupFile.rest (f : BackupFile) : Bytes := f.data.name ++ (f.data.data ++ f.trailer)

def BackupFile.bytes (f : BackupFile) : Bytes := f.vss ++ f.rest

/-- **The headers are read** up to that of the data, which says how many bytes to expect. -/
theorem getVssLoop_streams (d : Stream) (hd : d.id = 1) (rest : Bytes) :
    ∀ (before : List Stream), (∀ s ∈ before, s.id ≠ 1) →
    ∀ (fuel datalen : Nat) (vss : Bytes) (bfd : Bfd), before.length < fuel →
      bfd.left = before.flatMap Stream.bytes ++ (d.header ++ rest) →
      ∃ bfd', bfd'.left = rest ∧ getVssLoop fuel vss datalen bfd
        = some (vss ++ (before.flatMap Stream.bytes ++ d.header), d.data.length, bfd')
  | _, _, 0, _, _, _, h, _ => by omega
  | [], _, fuel + 1, datalen, vss, bfd, _, hleft => by
      have hreads := ensureRead_reads bsidsize bfd
      unfold getVssLoop
      generalize ensureRead bsidsize bfd = r at hreads
      obtain ⟨header, bfd'⟩ := r
      have hgot : header = bfd.left.take bsidsize := hreads.got
      have hrest : bfd'.left = bfd.left.drop bsidsize := hreads.left
      rw [hleft, List.flatMap_nil, List.nil_append, List.take_left' d.length_header] at hgot
      rw [hleft, List.flatMap_nil, List.nil_append, List.drop_left' d.length_header] at hrest
      obtain ⟨hid, hsize, -⟩ := d.bsidOf_header
      simp only [hgot]
      rw [if_neg (by rw [d.length_header]; simp), if_pos (by rw [hid, hd]), hsize]
      exact ⟨bfd', hrest, by simp⟩
  | s :: before, hbefore, fuel + 1, datalen, vss, bfd, hfuel, hleft => by
      rw [List.flatMap_cons, List.append_assoc, Stream.bytes, List.append_assoc] at hleft
      have hreads := ensureRead_reads bsidsize bfd
      unfold getVssLoop
      generalize ensureRead bsidsize bfd = r at hreads
      obtain ⟨header, bfd'⟩ := r
      have hgot : header = bfd.left.take bsidsize := hreads.got
      have hrest : bfd'.left = bfd.left.drop bsidsize := hreads.left
      rw [hleft, List.take_left' s.length_header] at hgot
      rw [hleft, List.drop_left' s.length_header] at hrest
      obtain ⟨hid, hsize, hname⟩ := s.bsidOf_header
      have hs : s.id ≠ 1 := hbefore s List.mem_cons_self
      simp only [hgot]
      rw [if_neg (by rw [s.length_header]; simp), if_neg (by rw [hid]; exact hs), hsize, hname]
      -- the name and the data of this stream
      have hreads' := ensureRead_reads (s.data.length + s.name.length) bfd'
      generalize ensureRead (s.data.length + s.name.length) bfd' = r' at hreads'
      obtain ⟨got, bfd''⟩ := r'
      have hlen : (s.name ++ s.data).length = s.data.length + s.name.length := by
        rw [List.length_append, Nat.add_comm]
      have hgot' : got = bfd'.left.take (s.data.length + s.name.length) := hreads'.got
      have hrest' : bfd''.left = bfd'.left.drop (s.data.length + s.name.length) := hreads'.left
      rw [hrest, List.take_left' hlen] at hgot'
      rw [hrest, List.drop_left' hlen] at hrest'
      simp only [hgot']
      rw [if_neg (by rw [hlen]; simp)]
      obtain ⟨last, hlast, heq⟩ := getVssLoop_streams d hd rest before
        (fun t ht => hbefore t (List.mem_cons_of_mem _ ht)) fuel datalen
        (vss ++ s.header ++ (s.name ++ s.data)) bfd'' (by simpa using hfuel) hrest'
      refine ⟨last, hlast, ?_⟩
      rw [heq, List.flatMap_cons, Stream.bytes]
      simp only [List.append_assoc]

theorem length_le_streams : ∀ before : List Stream,
    before.length ≤ (before.flatMap Stream.bytes).length
  | [] => by simp
  | s :: before => by
      have := length_le_streams before
      have hheader := s.length_header
      rw [List.flatMap_cons, List.length_append, Stream.bytes, List.length_append, hheader,
        List.length_cons, bsidsize]
      omega

theorem getVss_streams (f : BackupFile) (datalen : Nat) {bfd : Bfd} (hleft : bfd.left = f.bytes) :
    ∃ bfd', bfd'.left = f.rest ∧ getVss datalen bfd = some (f.vss, f.data.data.length, bfd') := by
  have hsplit : bfd.left = f.before.flatMap Stream.bytes ++ (f.data.header ++ f.rest) := by
    rw [hleft, BackupFile.bytes, BackupFile.vss, List.append_assoc]
  have hfuel : f.before.length < bfd.left.length + 1 := by
    have := length_le_streams f.before
    rw [hsplit, List.length_append]
    omega
  exact getVssLoop_streams f.data f.data_id f.rest f.before f.before_id _ datalen [] bfd hfuel
    hsplit

/-! ## §6. The three entries. -/

section Entries

variable {conf : Conf} {files : Bytes → Bfd} {path : Bytes} {r : Reading}

/-- The first entry, of a file that is not open. -/
theorem sendEntry_vss (f : BackupFile) {cmd : Cmd} (hcmd : cmd = .vss ∨ cmd = .encVss)
    (hstrip : conf.stripVss = false) (hfile : (files path).left = f.bytes)
    (hclosed : r.path ≠ some path) :
    ∃ bfd, bfd.left = f.rest ∧ sendEntry conf files cmd path r
      = some (f.vss, { path := some path, bfd := bfd, datalen := f.data.data.length }) := by
  obtain ⟨bfd, hleft, heq⟩ := getVss_streams f 0 hfile
  refine ⟨bfd, hleft, ?_⟩
  unfold sendEntry openFileForSend
  simp only [if_neg hclosed, heq, hstrip]
  rcases hcmd with rfl | rfl
  · simp
  · simp

/-- The other entries, of the file that is open. -/
theorem sendEntry_data {cmd : Cmd}
    (hcmd : cmd = .file ∨ cmd = .encFile ∨ cmd = .vssT ∨ cmd = .encVssT)
    (hstrip : conf.stripVss = false) (hopen : r.path = some path) :
    sendEntry conf files cmd path r = some ((sendWholeFileW conf r.datalen r.bfd).1,
      { r with bfd := (sendWholeFileW conf r.datalen r.bfd).2 }) := by
  unfold sendEntry openFileForSend
  simp only [if_pos hopen, hstrip]
  rcases hcmd with rfl | rfl | rfl | rfl
  all_goals rfl

/-- **What the three entries have**: the headers, and twice the expected number of bytes. -/
theorem threeEntries_eq (f : BackupFile) (hstrip : conf.stripVss = false)
    (hfile : (files path).left = f.bytes) (hclosed : r.path ≠ some path) :
    threeEntries conf files path r = some (f.vss
      ++ if f.data.data = [] then f.rest else f.rest.take (2 * f.data.data.length)) := by
  have hcmd : (if conf.encryption then Cmd.encVss else .vss) = .vss
      ∨ (if conf.encryption then Cmd.encVss else .vss) = .encVss := by
    split_ifs
    · exact Or.inr rfl
    · exact Or.inl rfl
  obtain ⟨bfd, hleft, hvss⟩ := sendEntry_vss f hcmd hstrip hfile hclosed
  have hdata : ∀ b : Bfd, sendEntry conf files (if conf.encryption then .encFile else .file) path
      { path := some path, bfd := b, datalen := f.data.data.length } = some _ :=
    fun b => sendEntry_data (by split_ifs <;> simp) hstrip rfl
  have htrail : ∀ b : Bfd, sendEntry conf files (if conf.encryption then .encVssT else .vssT) path
      { path := some path, bfd := b, datalen := f.data.data.length } = some _ :=
    fun b => sendEntry_data (by split_ifs <;> simp) hstrip rfl
  unfold threeEntries
  rw [hvss]
  simp only [Option.bind_eq_bind, Option.bind_some, hdata, htrail, Option.some.injEq,
    List.append_assoc, List.append_cancel_left_eq]
  -- the data, and then what is left
  have hreads := reads_sendWholeFileW conf f.data.data.length bfd
  generalize sendWholeFileW conf f.data.data.length bfd = r at hreads
  obtain ⟨data, bfd'⟩ := r
  have hreads' := reads_sendWholeFileW conf f.data.data.length bfd'
  generalize sendWholeFileW conf f.data.data.length bfd' = r' at hreads'
  obtain ⟨trail, bfd''⟩ := r'
  have hgot : data = _ := hreads.got
  have hleft' : bfd'.left = _ := hreads.left
  have hgot' : trail = _ := hreads'.got
  show data ++ trail = _
  by_cases hnil : f.data.data = []
  · rw [if_pos hnil]
    rw [if_pos (by rw [hnil]; rfl)] at hgot hleft' hgot'
    rw [hgot', hleft', hgot, List.drop_length, List.take_nil, List.append_nil, List.take_length,
      hleft]
  · rw [if_neg hnil]
    have hne : f.data.data.length ≠ 0 := fun h => hnil (List.length_eq_zero_iff.mp h)
    rw [if_neg hne] at hgot hleft' hgot'
    rw [hgot', hleft', hgot, hleft, Nat.two_mul, List.take_add]

end Entries

/-- **The three entries are the whole file** if there are no data, or if what comes after the
data (with their name, if they have one) is no longer than the data. -/
theorem whole_stream_iff (conf : Conf) (files : Bytes → Bfd) (path : Bytes) (r : Reading)
    (f : BackupFile) (hstrip : conf.stripVss = false) (hfile : (files path).left = f.bytes)
    (hclosed : r.path ≠ some path) :
    threeEntries conf files path r = some f.bytes
      ↔ f.data.data = [] ∨ f.data.name.length + f.trailer.length ≤ f.data.data.length := by
  have hlength : f.rest.length
      = f.data.name.length + (f.data.data.length + f.trailer.length) := by
    rw [BackupFile.rest, List.length_append, List.length_append]
  rw [threeEntries_eq f hstrip hfile hclosed, Option.some.injEq, BackupFile.bytes,
    List.append_cancel_left_eq]
  by_cases hnil : f.data.data = []
  · rw [if_pos hnil]
    exact iff_of_true rfl (Or.inl hnil)
  · rw [if_neg hnil, List.take_eq_self_iff]
    constructor
    · intro h
      exact Or.inr (by omega)
    · rintro (h | h)
      · exact absurd h hnil
      · omega

/-- A file of one byte, with the header of an empty stream after it. -/
def smallFile : BackupFile where
  before := []
  data := { id := 1, attributes := 0, name := [], data := [65], id_lt := by decide,
            name_lt := by decide, data_lt := by decide }
  after := [{ id := 4, attributes := 0, name := [], data := [], id_lt := by decide,
              name_lt := by decide, data_lt := by decide }]
  before_id := by simp
  data_id := rfl

/-- A file of 20 bytes, with the same after it. -/
def longerFile : BackupFile where
  before := []
  data := { id := 1, attributes := 0, name := [], data := List.replicate 20 65,
            id_lt := by decide, name_lt := by decide, data_lt := by decide }
  after := smallFile.after
  before_id := by simp
  data_id := rfl

def plainConf : Conf := { compression := 0, encryption := false, stripVss := false }

theorem longerFile_whole :
    threeEntries plainConf (fun _ => { left := longerFile.bytes, splits := [7, 30, 1] }) [97] {}
      = some longerFile.bytes :=
  (whole_stream_iff plainConf _ [97] {} longerFile rfl rfl (by decide)).mpr
    (Or.inr (by decide))

/-- **The end is lost** where it is longer than the data: the last entry has one byte of it. -/
theorem smallFile_not_whole :
    ¬ ∀ (conf : Conf) (files : Bytes → Bfd) (path : Bytes) (r : Reading) (f : BackupFile),
        conf.stripVss = false → (files path).left = f.bytes → r.path ≠ some path →
        threeEntries conf files path r = some f.bytes := by
  intro hall
  have hwhole := hall plainConf (fun _ => { left := smallFile.bytes }) [97] {} smallFile rfl rfl
    (by decide)
  exact absurd hwhole (by decide)

end Burp.Client
