/-
  Burp.Status.Requests — the bytes that the status server reads.

  The status server reads the lines of its parent and the requests of its client into one
  buffer.  What comes from the parent is cut at the newlines of each read, and what comes from
  the client is gathered in a second piece of memory until nothing more arrives, and is then one
  request up to its last newline.

  Main results:
    * `run_asWhole` — in every run whose reads end where lines end, no store is outside, each
      line is one request, and each line of the parent is stored whole.
    * `full_read_outside` — a read that fills the buffer stores outside of it.
-/
import Burp.Text.Tokens
import Burp.Store.RoundTrip
import Burp.Backups.Delete

namespace Burp.Status

open FileSystem Burp.Store Burp.Text Burp.Backups

/-! ## §1. Memory. -/

/-- `realloc` to `n` cells; what is new holds anything. -/
def reallocCells (n : Nat) (garbage : Nat → UInt8) (mem : Bytes) : Bytes :=
  (List.range n).map fun p => (mem[p]?).getD (garbage p)

/-- `strcat(mem+r, buf)`: nothing if it stores outside of the memory, or runs out of it without a
NUL. -/
def strcatAt (r : Nat) (buf mem : Bytes) : Option Bytes :=
  let q := r + (cString (mem.drop r)).length
  if q + buf.length + 1 ≤ mem.length then
    some (mem.take q ++ buf ++ 0 :: mem.drop (q + buf.length + 1))
  else none

/-- `strrchr`. -/
def strrchr (c : UInt8) (b : Bytes) : Option Nat :=
  (b.reverse.findIdx? (· == c)).map fun i => b.length - 1 - i

/-- A NUL at the last place of a character, if there is one. -/
def cutLast (c : UInt8) (mem : Bytes) : Bytes :=
  match strrchr c (cString mem) with
  | some p => mem.set p 0
  | none => mem

/-! ## §2. Clients and requests. -/

/-- What a `struct cstat` has of this: the name, unless it has been blanked, and the detail from
the parent. -/
structure Cstat where
  name : Option Bytes
  runningDetail : Option Bytes
  deriving DecidableEq

/-- `parse_parent_data_entry`. -/
def parseParentDataEntry (clist : List Cstat) (tok : Bytes) : List Cstat :=
  if tok.contains 9 then
    clist.map fun c =>
      if c.name = some (tok.takeWhile (· ≠ 9)) then { c with runningDetail := some (tok ++ [10]) }
      else c
  else clist

/-- `parse_parent_data`. -/
def parseParentData (data : Bytes) (clist : List Cstat) : List Cstat :=
  (tokens (· == 10) (cString data)).foldl parseParentDataEntry clist

/-- `get_str` at a place in the memory: what it returns, and the place behind. -/
def getStr (mem : Bytes) (pos : Nat) (pre : Bytes) (last : Bool) : Option Bytes × Nat :=
  if (cString (mem.drop pos)).take pre.length = pre then
    let copy := cString (mem.drop (pos + pre.length))
    let copy := if last then copy else copy.takeWhile (· ≠ 58)
    (some copy, pos + pre.length + copy.length + 1)
  else (none, pos)

/-- What the status server does for a client. -/
inductive Request
  | nothing
  | summaries
  | detail (client : Bytes)
  | listDir (client : Bytes) (bno : Nat)
  | listFile (client : Bytes) (bno : Nat) (file browse : Option Bytes)
  deriving DecidableEq

/-- "manifest.gz", and the other files that can be asked for. -/
def manifestGz : Bytes := [109, 97, 110, 105, 102, 101, 115, 116, 46, 103, 122]

def logGz : Bytes := [108, 111, 103, 46, 103, 122]

def restorelogGz : Bytes := [114, 101, 115, 116, 111, 114, 101] ++ logGz

def verifylogGz : Bytes := [118, 101, 114, 105, 102, 121] ++ logGz

/-- A trailing slash is stripped. -/
def stripSlash (browse : Bytes) : Bytes :=
  if 1 < browse.length && browse.getLast? == some 47 then browse.dropLast else browse

/-- `parse_rbuf`, up to what is done for the request. -/
def parseRbuf (clist : List Cstat) (rbuf : Bytes) : Request :=
  let (client, pos) := getStr rbuf 0 [99, 58] false
  let (backup, pos) := getStr rbuf pos [98, 58] false
  let (file, pos) := getStr rbuf pos [102, 58] false
  let (browse, _) := getStr rbuf pos [112, 58] true
  let file := if browse.isSome then some manifestGz else file
  let browse := browse.map stripSlash
  let bno := (backup.map OnDisk.strtoul).getD 0
  if client.isSome && !(clist.any fun c => c.name == client) then .nothing
  else if backup.isSome && bno == 0 then .nothing
  else if file.isSome && !([manifestGz, logGz, restorelogGz, verifylogGz].contains (file.getD []))
    then .nothing
  else
    match client with
    | none => .summaries
    | some client =>
        if bno == 0 then .detail client
        else if file.isSome || browse.isSome then .listFile client bno file browse
        else .listDir client bno

/-! ## §3. `status_server`. -/

/-- The status server: what it has gathered, whether bytes have come since the client was last
done with, the clients, and the requests so far. -/
structure StatusServer where
  rbuf : Option Bytes
  total : Bool
  clist : List Cstat
  handled : List Request

/-- What `read` gives: bytes from the parent, bytes from the client, or nothing more from the
client for now. -/
inductive Read
  | parent (bytes : Bytes)
  | client (bytes : Bytes) (garbage : Nat → UInt8)
  | done

/-- The request in the memory, with what stands for the newline and for what telnet adds. -/
def request (clist : List Cstat) (mem : Bytes) : Request :=
  parseRbuf clist (cutLast 13 (cutLast 10 mem))

/-- One read, and what is done with it; nothing if a store is outside of a buffer.  If nothing
has come from the client before there is nothing more, the client has gone away, and the run ends
here. -/
def statusServer (s : StatusServer) : Read → Option StatusServer
  | .parent bytes => some { s with clist := parseParentData bytes s.clist }
  | .client bytes garbage =>
      -- `buf[l]='\0'`, in a buffer of 512 bytes
      if 512 ≤ bytes.length then none
      else
        let r := if s.rbuf.isSome then (cString bytes).length else 0
        let mem := reallocCells (r + bytes.length + 1) garbage (s.rbuf.getD [])
        let mem := if r = 0 then mem.set 0 0 else mem
        (strcatAt r (cString bytes) mem).map fun rbuf =>
          { s with rbuf := some rbuf, total := true }
  | .done =>
      if !s.total then some { s with rbuf := none }
      else
        match s.rbuf with
        | none => some { s with total := false }
        | some mem =>
            if (cString mem).contains 10 then
              some { s with
                rbuf := none, total := false, handled := s.handled ++ [request s.clist mem] }
            else some { s with total := false }

/-- The server over some reads. -/
def run (s : StatusServer) (reads : List Read) : Option StatusServer := reads.foldlM statusServer s

/-- The server that has loaded its clients. -/
def StatusServer.start (clist : List Cstat) : StatusServer := ⟨none, false, clist, []⟩

/-! ## §4. Runs. -/

/-- The lines of a stream that are complete. -/
def completeLines (b : Bytes) : List Bytes := (b.splitOn 10).dropLast

/-- What the client, and what the parent has sent. -/
def clientBytes (reads : List Read) : Bytes :=
  reads.flatMap fun
    | .client bytes _ => bytes
    | _ => []

def parentBytes (reads : List Read) : Bytes :=
  reads.flatMap fun
    | .parent bytes => bytes
    | _ => []

/-- The memory after a line that has come in one read. -/
def whole (line : Bytes) : Bytes := line ++ [10, 0]

/-- What `read` keeps to, for streams of text and a client that does not go away. -/
def Allowed (s : StatusServer) : Read → Prop
  | .parent bytes => bytes ≠ [] ∧ bytes.length ≤ 510 ∧ 0 ∉ bytes
  | .client bytes _ => bytes ≠ [] ∧ bytes.length ≤ 512 ∧ 0 ∉ bytes
  | .done => s.total = true

/-- All steps of a run meet a condition. -/
def AllSteps (ok : StatusServer → Read → Prop) : StatusServer → List Read → Prop
  | _, [] => True
  | s, e :: es => ok s e ∧ ∀ s', statusServer s e = some s' → AllSteps ok s' es

/-- What is meant to come of some reads: no store is outside, the details are those of the
parent's lines, and when the client has been done with, its requests are its lines, as if each
had come in one read. -/
def AsWhole (clist : List Cstat) (reads : List Read) (result : Option StatusServer) : Prop :=
  ∃ s, result = some s
    ∧ s.clist = (completeLines (parentBytes reads)).foldl parseParentDataEntry clist
    ∧ (s.total = false →
      s.handled = (completeLines (clientBytes reads)).map fun line => request clist (whole line))

/-- The condition on a read: what comes from the parent ends where a line ends; what comes from
the client does not fill the buffer, and is as long as what is already there; and when there is
nothing more, what is there has a newline at its end at most. -/
def Fits (s : StatusServer) : Read → Prop
  | .parent bytes => bytes.getLast? = some 10
  | .client bytes _ => bytes.length < 512
      ∧ ∀ mem, s.rbuf = some mem → (cString mem).length = bytes.length
  | .done => ∀ mem, s.rbuf = some mem → 10 ∉ (cString mem).dropLast

/-! ## §5. The parent. -/

section Parent

variable {clist : List Cstat} {bytes : Bytes}

theorem completeLines_join {ls : List Bytes} (hls : ∀ l ∈ ls, 10 ∉ l) {rest : Bytes}
    (hrest : 10 ∉ rest) : completeLines (join 10 ls ++ rest) = ls := by
  unfold completeLines
  rw [splitOn_join hls, List.splitOn_eq_singleton hrest, List.dropLast_concat]

/-- An empty line is passed over. -/
theorem foldl_entry_filter (ls : List Bytes) (clist : List Cstat) :
    (ls.filter fun l => !l.isEmpty).foldl parseParentDataEntry clist
      = ls.foldl parseParentDataEntry clist := by
  induction ls generalizing clist with
  | nil => rfl
  | cons l ls ih =>
      cases l with
      | nil => exact ih clist
      | cons c cs => exact ih (parseParentDataEntry clist (c :: cs))

/-- **Whole lines are stored whole.** -/
theorem parseParentData_join {ls : List Bytes} (hls : ∀ l ∈ ls, 10 ∉ l)
    (hzero : 0 ∉ join 10 ls) :
    parseParentData (join 10 ls) clist = ls.foldl parseParentDataEntry clist := by
  unfold parseParentData
  rw [cString_of_notMem hzero, ← List.append_nil (join 10 ls), tokens_join _ (by decide),
    tokens_nil, List.append_nil, foldl_entry_filter]
  intro w hw c hc
  rw [beq_eq_false_iff_ne]
  rintro rfl
  exact hls w hw hc

/-- The names stay. -/
theorem parseParentDataEntry_names (tok : Bytes) :
    (parseParentDataEntry clist tok).map Cstat.name = clist.map Cstat.name := by
  unfold parseParentDataEntry
  split_ifs
  · rw [List.map_map]
    apply List.map_congr_left
    intro c _
    show (if _ then _ else c : Cstat).name = c.name
    split_ifs <;> rfl
  · rfl

theorem foldl_entry_names (ls : List Bytes) (clist : List Cstat) :
    (ls.foldl parseParentDataEntry clist).map Cstat.name = clist.map Cstat.name := by
  induction ls generalizing clist with
  | nil => rfl
  | cons l ls ih =>
      show (ls.foldl parseParentDataEntry (parseParentDataEntry clist l)).map Cstat.name = _
      rw [ih, parseParentDataEntry_names]

/-- A request depends on the names only. -/
theorem request_names {clist' : List Cstat} (h : clist'.map Cstat.name = clist.map Cstat.name)
    (mem : Bytes) : request clist' mem = request clist mem := by
  have hany : ∀ x : Option Bytes,
      (clist'.any fun c => c.name == x) = clist.any fun c => c.name == x := by
    intro x
    have hmap : ∀ l : List Cstat, (l.any fun c => c.name == x) = (l.map Cstat.name).any (· == x) :=
      fun l => by rw [List.any_map]; rfl
    rw [hmap, hmap, h]
  unfold request parseRbuf
  simp only [hany]

end Parent

/-! ## §6. The client. -/

section Client

variable {s : StatusServer} {bytes pending : Bytes} {garbage : Nat → UInt8}

/-- What has been gathered: a text with its NUL, or nothing yet. -/
def Gathered (s : StatusServer) (pending : Bytes) : Prop :=
  (s.rbuf = none ∧ pending = []) ∨ (s.rbuf = some (pending ++ [0]) ∧ pending ≠ [])

theorem reallocCells_length (n : Nat) (mem : Bytes) :
    (reallocCells n garbage mem).length = n := by
  unfold reallocCells
  rw [List.length_map, List.length_range]

theorem reallocCells_getElem? {n p : Nat} {mem : Bytes} (hp : p < n) :
    (reallocCells n garbage mem)[p]? = some ((mem[p]?).getD (garbage p)) := by
  unfold reallocCells
  rw [List.getElem?_map, List.getElem?_range hp, Option.map_some]

/-- The cells that were there stay. -/
theorem reallocCells_eq {n : Nat} {mem : Bytes} (hn : mem.length ≤ n) :
    ∃ rest, reallocCells n garbage mem = mem ++ rest
      ∧ rest.length = n - mem.length := by
  refine ⟨(reallocCells n garbage mem).drop mem.length, ?_, ?_⟩
  · apply List.ext_getElem?
    intro p
    by_cases hp : p < mem.length
    · rw [List.getElem?_append_left hp, reallocCells_getElem? (by omega),
        List.getElem?_eq_getElem hp, Option.getD_some]
    · rw [List.getElem?_append_right (by omega), List.getElem?_drop]
      congr 1
      omega
  · rw [List.length_drop, reallocCells_length]

/-- `strcat` at the NUL of a text, with room for just that. -/
theorem strcatAt_end {rest : Bytes} (hrest : rest.length = bytes.length) :
    strcatAt pending.length bytes (pending ++ 0 :: rest) = some (pending ++ bytes ++ [0]) := by
  have hnil : cString ((pending ++ 0 :: rest).drop pending.length) = [] := by
    rw [List.drop_left]
    rfl
  unfold strcatAt
  simp only [hnil, List.length_nil, Nat.add_zero]
  rw [if_pos (by rw [List.length_append, List.length_cons]; omega), List.take_left,
    List.drop_eq_nil_of_le (by rw [List.length_append, List.length_cons]; omega)]

/-- **A read is appended** to what has been gathered if that is as long as it. -/
theorem statusServer_client (h : Gathered s pending) (hpending : 0 ∉ pending)
    (hzero : 0 ∉ bytes) (hne : bytes ≠ []) (hlen : bytes.length < 512)
    (hsame : ∀ mem, s.rbuf = some mem → (cString mem).length = bytes.length) :
    ∃ s', statusServer s (.client bytes garbage) = some s'
      ∧ Gathered s' (pending ++ bytes) ∧ s'.clist = s.clist ∧ s'.handled = s.handled
      ∧ s'.total = true := by
  have hpos : 0 < bytes.length := List.length_pos_iff.mpr hne
  have happend : pending ++ bytes ≠ [] := List.append_ne_nil_of_right_ne_nil _ hne
  unfold statusServer
  simp only
  rw [if_neg (by omega), cString_of_notMem hzero]
  rcases h with ⟨hrbuf, rfl⟩ | ⟨hrbuf, -⟩
  · -- the first read
    rw [hrbuf]
    simp only [Option.isSome_none, Bool.false_eq_true, if_false, if_true, Option.getD_none,
      Nat.zero_add]
    obtain ⟨c, rest, hcells⟩ : ∃ c rest,
        reallocCells (bytes.length + 1) garbage [] = c :: rest := by
      apply List.exists_cons_of_length_pos
      rw [reallocCells_length]
      omega
    have hrest : rest.length = bytes.length := by
      have hl := @reallocCells_length garbage (bytes.length + 1) []
      rw [hcells, List.length_cons] at hl
      omega
    rw [hcells, List.set_cons_zero]
    have hcat := @strcatAt_end bytes [] rest hrest
    rw [List.length_nil, List.nil_append] at hcat
    rw [hcat]
    exact ⟨_, rfl, Or.inr ⟨rfl, happend⟩, rfl, rfl, rfl⟩
  · -- a further one
    have hl : pending.length = bytes.length := by
      rw [← hsame _ hrbuf, cString_append_zero hpending]
    rw [hrbuf]
    simp only [Option.isSome_some, if_true, Option.getD_some]
    rw [if_neg (by omega)]
    obtain ⟨rest, hcells, hrest⟩ := @reallocCells_eq garbage (bytes.length + bytes.length + 1)
      (pending ++ [0]) (by rw [List.length_append, List.length_singleton]; omega)
    rw [List.length_append, List.length_singleton] at hrest
    rw [hcells, List.append_assoc, List.singleton_append, ← hl,
      strcatAt_end (by omega)]
    exact ⟨_, rfl, Or.inr ⟨rfl, happend⟩, rfl, rfl, rfl⟩

/-- **A line becomes a request** when nothing more arrives. -/
theorem statusServer_done (h : Gathered s pending) (hpending : 0 ∉ pending)
    (htotal : s.total = true) (hend : ∀ mem, s.rbuf = some mem → 10 ∉ (cString mem).dropLast) :
    ∃ s' ls rest, statusServer s .done = some s' ∧ pending = join 10 ls ++ rest
      ∧ (∀ l ∈ ls, 10 ∉ l) ∧ 10 ∉ rest ∧ Gathered s' rest ∧ s'.clist = s.clist
      ∧ s'.handled = s.handled ++ ls.map (fun l => request s.clist (whole l))
      ∧ s'.total = false := by
  unfold statusServer
  simp only
  rw [htotal, if_neg (by decide)]
  rcases h with ⟨hrbuf, rfl⟩ | ⟨hrbuf, hne⟩
  · rw [hrbuf]
    exact ⟨_, [], [], rfl, rfl, by simp, by simp, Or.inl ⟨rfl, rfl⟩, rfl, by simp, rfl⟩
  · rw [hrbuf]
    simp only
    rw [cString_append_zero hpending]
    by_cases hmem : 10 ∈ pending
    · -- the newline is at the end
      have hinit := hend _ hrbuf
      rw [cString_append_zero hpending] at hinit
      have hsplit := List.dropLast_append_getLast hne
      have hlast : pending.getLast hne = 10 := by
        rw [← hsplit] at hmem
        rcases List.mem_append.mp hmem with hmem | hmem
        · exact absurd hmem hinit
        · exact (List.mem_singleton.mp hmem).symm
      rw [hlast] at hsplit
      rw [if_pos (by simpa using hmem)]
      refine ⟨_, [pending.dropLast], [], rfl, ?_, ?_, by simp, Or.inl ⟨rfl, rfl⟩, rfl, ?_, rfl⟩
      · unfold join
        rw [List.append_nil, List.flatMap_singleton]
        exact hsplit.symm
      · intro l hl
        rw [List.mem_singleton.mp hl]
        exact hinit
      · show s.handled ++ [request s.clist (pending ++ [0])] = _
        rw [List.map_singleton, whole, ← hsplit, List.dropLast_concat, List.append_assoc]
        rfl
    · rw [if_neg (by simpa using hmem)]
      exact ⟨_, [], pending, rfl, rfl, by simp, hmem, Or.inr ⟨rfl, hne⟩, rfl, by simp, rfl⟩

end Client

/-! ## §7. Runs whose reads end where lines end. -/

section Runs

variable {clist : List Cstat} {s s' : StatusServer} {reads : List Read} {e : Read}

/-- What holds in such a run: `ls` are the lines of the parent, `rs` the requests, and `pending`
is what has been gathered after them. -/
structure InLines (clist : List Cstat) (reads : List Read) (s : StatusServer) : Prop where
  parent : ∃ ls, parentBytes reads = join 10 ls ∧ (∀ l ∈ ls, 10 ∉ l)
    ∧ s.clist = ls.foldl parseParentDataEntry clist
  client : ∃ rs pending, clientBytes reads = join 10 rs ++ pending ∧ (∀ r ∈ rs, 10 ∉ r)
    ∧ s.handled = rs.map (fun line => request clist (whole line))
    ∧ Gathered s pending ∧ 0 ∉ pending ∧ (s.total = false → 10 ∉ pending)

theorem inLines_start : InLines clist [] (StatusServer.start clist) := by
  constructor
  · exact ⟨[], rfl, by simp, rfl⟩
  · exact ⟨[], [], rfl, by simp, rfl, Or.inl ⟨rfl, rfl⟩, by simp, fun _ => by simp⟩

theorem join_append (ls ls' : List Bytes) : join 10 (ls ++ ls') = join 10 ls ++ join 10 ls' := by
  unfold join
  rw [List.flatMap_append]

theorem parentBytes_concat : parentBytes (reads ++ [e])
    = parentBytes reads ++ parentBytes [e] := by
  unfold parentBytes
  rw [List.flatMap_append]

theorem clientBytes_concat : clientBytes (reads ++ [e])
    = clientBytes reads ++ clientBytes [e] := by
  unfold clientBytes
  rw [List.flatMap_append]

theorem InLines.names (h : InLines clist reads s) :
    s.clist.map Cstat.name = clist.map Cstat.name := by
  obtain ⟨ls, -, -, hclist⟩ := h.parent
  rw [hclist, foldl_entry_names]

/-- **Each read keeps the lines whole.** -/
theorem InLines.step (h : InLines clist reads s) (hal : Allowed s e) (hfit : Fits s e) :
    ∃ s', statusServer s e = some s' ∧ InLines clist (reads ++ [e]) s' := by
  obtain ⟨ls, hparent, hls, hclist⟩ := h.parent
  obtain ⟨rs, pending, hclient, hrs, hhandled, hgathered, hzero, hbetween⟩ := h.client
  cases e with
  | parent bytes =>
      obtain ⟨ms, hms, hmem⟩ := exists_join_of_last hfit
      have hwhole : parseParentData bytes s.clist
          = (ls ++ ms).foldl parseParentDataEntry clist := by
        rw [hms, parseParentData_join hmem (hms ▸ hal.2.2), hclist, ← List.foldl_append]
      refine ⟨_, rfl, ⟨ls ++ ms, ?_, ?_, hwhole⟩, rs, pending, ?_, hrs, hhandled, hgathered, hzero,
        hbetween⟩
      · rw [parentBytes_concat, hparent, join_append, ← hms]
        simp [parentBytes]
      · intro l hl
        rcases List.mem_append.mp hl with hl | hl
        · exact hls l hl
        · exact hmem l hl
      · rw [clientBytes_concat, hclient]
        simp [clientBytes]
  | client bytes garbage =>
      obtain ⟨s', hs', hgathered', hclist', hhandled', htotal⟩ :=
        @statusServer_client s bytes pending garbage hgathered hzero hal.2.2 hal.1 hfit.1 hfit.2
      refine ⟨s', hs', ⟨ls, ?_, hls, hclist'.trans hclist⟩, rs, pending ++ bytes, ?_, hrs,
        hhandled'.trans hhandled, hgathered', ?_, ?_⟩
      · rw [parentBytes_concat, hparent]
        simp [parentBytes]
      · rw [clientBytes_concat, hclient, List.append_assoc]
        simp [clientBytes]
      · intro hmem
        rcases List.mem_append.mp hmem with hmem | hmem
        · exact hzero hmem
        · exact hal.2.2 hmem
      · rw [htotal]
        intro hfalse
        cases hfalse
  | done =>
      obtain ⟨s', ms, rest, hs', hpending, hms, hrest, hgathered', hclist', hhandled', htotal⟩ :=
        statusServer_done hgathered hzero hal hfit
      refine ⟨s', hs', ⟨ls, ?_, hls, hclist'.trans hclist⟩, rs ++ ms, rest, ?_, ?_, ?_, hgathered',
        ?_, fun _ => hrest⟩
      · rw [parentBytes_concat, hparent]
        simp [parentBytes]
      · rw [clientBytes_concat, hclient, hpending, join_append, List.append_assoc]
        simp [clientBytes]
      · intro r hr
        rcases List.mem_append.mp hr with hr | hr
        · exact hrs r hr
        · exact hms r hr
      · have hsame : ms.map (fun l => request s.clist (whole l))
            = ms.map fun l => request clist (whole l) :=
          List.map_congr_left fun l _ => request_names h.names (whole l)
        rw [hhandled', hhandled, List.map_append, hsame]
      · intro hmem
        rw [hpending] at hzero
        exact hzero (List.mem_append_right _ hmem)

theorem run_cons (s : StatusServer) (e : Read) (es : List Read) :
    run s (e :: es) = (statusServer s e).bind fun s' => run s' es := rfl

theorem InLines.run (h : InLines clist reads s) {es : List Read} (hal : AllSteps Allowed s es)
    (hfit : AllSteps Fits s es) :
    ∃ s', run s es = some s' ∧ InLines clist (reads ++ es) s' := by
  induction es generalizing reads s with
  | nil =>
      rw [List.append_nil]
      exact ⟨s, rfl, h⟩
  | cons e es ih =>
      obtain ⟨s', hs', hstep⟩ := h.step hal.1 hfit.1
      obtain ⟨s'', hs'', hrun⟩ := ih hstep (hal.2 s' hs') (hfit.2 s' hs')
      refine ⟨s'', ?_, ?_⟩
      · rw [run_cons, hs', Option.bind_some]
        exact hs''
      · rw [List.append_assoc, List.singleton_append] at hrun
        exact hrun

/-- **Requests and details do not depend on how bytes arrive**, in every run whose reads end
where lines end. -/
theorem run_asWhole (hal : AllSteps Allowed (StatusServer.start clist) reads)
    (hfit : AllSteps Fits (StatusServer.start clist) reads) :
    AsWhole clist reads (run (StatusServer.start clist) reads) := by
  obtain ⟨s, hs, h⟩ := inLines_start.run hal hfit
  rw [List.nil_append] at h
  obtain ⟨ls, hparent, hls, hclist⟩ := h.parent
  obtain ⟨rs, pending, hclient, hrs, hhandled, -, -, hbetween⟩ := h.client
  refine ⟨s, hs, ?_, fun htotal => ?_⟩
  · rw [hparent, ← List.append_nil (join 10 ls), completeLines_join hls (by simp), hclist]
  · rw [hclient, completeLines_join hrs (hbetween htotal), hhandled]

end Runs

/-- A request that fills the buffer. -/
def fullRead : Bytes := List.replicate 511 99 ++ [10]

theorem fullRead_length : fullRead.length = 512 := by
  unfold fullRead
  rw [List.length_append, List.length_replicate]
  rfl

/-- A request of 511 bytes and its newline arrive in one read, and the NUL behind them is stored
outside of the buffer. -/
theorem full_read_outside :
    ¬ ∀ (clist : List Cstat) (reads : List Read),
      AllSteps Allowed (StatusServer.start clist) reads →
      AsWhole clist reads (run (StatusServer.start clist) reads) := by
  intro h
  have hal : Allowed (StatusServer.start []) (.client fullRead fun _ => 0) := by
    refine ⟨?_, fullRead_length.le, ?_⟩
    · exact List.ne_nil_of_length_pos (by rw [fullRead_length]; decide)
    · intro hzero
      rcases List.mem_append.mp hzero with hzero | hzero
      · exact absurd (List.eq_of_mem_replicate hzero) (by decide)
      · exact absurd (List.mem_singleton.mp hzero) (by decide)
  obtain ⟨s, hs, -⟩ := h [] [.client fullRead fun _ => 0] ⟨hal, fun _ _ => trivial⟩
  have hnone : statusServer (StatusServer.start []) (.client fullRead fun _ => 0) = none := by
    unfold statusServer
    simp only
    rw [if_pos fullRead_length.ge]
  rw [run_cons, hnone] at hs
  cases hs

/-- A line of the parent, and one request. -/
def lineAndRequest : List Read :=
  [.parent [97, 9, 50, 10], .client [99, 58, 97, 10] fun _ => 0, .done]

theorem run_asWhole_lineAndRequest :
    AsWhole [⟨some [97], none⟩] lineAndRequest
      (run (StatusServer.start [⟨some [97], none⟩]) lineAndRequest) := by
  have hread : statusServer ⟨none, false, [⟨some [97], some [97, 9, 50, 10]⟩], []⟩
      (.client [99, 58, 97, 10] fun _ => 0)
      = some ⟨some [99, 58, 97, 10, 0], true, [⟨some [97], some [97, 9, 50, 10]⟩], []⟩ := rfl
  apply run_asWhole
  · refine ⟨⟨by decide, by decide, by decide⟩, fun s' hs' => ?_⟩
    cases hs'
    refine ⟨⟨by decide, by decide, by decide⟩, fun s' hs' => ?_⟩
    obtain rfl := Option.some.inj (hread.symm.trans hs')
    exact ⟨rfl, fun _ _ => trivial⟩
  · refine ⟨rfl, fun s' hs' => ?_⟩
    cases hs'
    refine ⟨⟨by decide, fun _ hmem => by cases hmem⟩, fun s' hs' => ?_⟩
    obtain rfl := Option.some.inj (hread.symm.trans hs')
    refine ⟨fun mem hmem => ?_, fun _ _ => trivial⟩
    cases hmem
    decide

end Burp.Status
