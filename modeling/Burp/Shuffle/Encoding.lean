/-
  Burp.Shuffle.Encoding — compressed or not, from phase 2 to a restore.

  Four files are involved in a backup by delta: the old file, the delta that the client
  sends, the new file that is patched together from them and the reverse delta.  Whether a
  file is compressed is never written down in one place.  The writers go by the server's
  setting, and the readers by the entry of a manifest: in phase 4 and when the new backup is
  restored it is the new entry, with the compression that the client has chosen.

  Main results:
    * `encodings_agree_iff` — when readers and writers agree.
    * `excluded_disagrees` — a client that excludes the file from compression.
-/
import Burp.Phase2.Decide
import Burp.Restore.RestoreFile
import Burp.Shuffle.Jiggle

namespace Burp.Shuffle

open FileSystem Burp.Store Burp.Phase2 Burp.Backups Burp.Restore

/-! ## §1. The client's choice. -/

/-- A character as `strcasecmp` compares it. -/
def toLower (c : UInt8) : UInt8 := if 65 ≤ c ∧ c ≤ 90 then c + 32 else c

/-- `in_exclude_comp`.  `flag` is the length of the longest extension of the list, which is
as far back as a dot is searched for. -/
def inExcludeComp (flag : Nat) (excom : List Bytes) (fname : Bytes) (compression : Int) : Int :=
  if compression = 0 ∨ excom = [] then compression
  else
    let tail := fname.reverse.take flag
    if 46 ∈ tail then
      let extension := (tail.takeWhile (· ≠ 46)).reverse
      if excom.any fun e => e.map toLower == extension.map toLower then 0 else compression
    else compression

/-- The client uses the server's level or none. -/
theorem inExcludeComp_cases (flag : Nat) (excom : List Bytes) (fname : Bytes) (compression : Int) :
    inExcludeComp flag excom fname compression = compression
      ∨ inExcludeComp flag excom fname compression = 0 := by
  unfold inExcludeComp
  simp only
  split_ifs <;> simp

/-! ## §2. Who writes and who reads. -/

/-- The files of a backup by delta. -/
inductive Role
  | oldFile | forwardDelta | newFile | reverseDelta
  deriving DecidableEq, Repr

/-- A backup by delta: the server's settings, the old entry `cb`, the entry `rb` that is
written for the new copy, with the data path of the old one, and the backups' directories. -/
structure DeltaBackup where
  conf : Conf
  cb : Sbuf
  rb : Sbuf
  datapth : Path
  fin : String
  current : Path
  block : Nat
  record : Bytes
  hardlinked : Bool
  oldBu : Bu
  newBu : Bu

namespace DeltaBackup

variable (d : DeltaBackup)

/-- What `atomic_data_jiggle` makes of the entry. -/
def job : Job := shuffleJob d.fin d.datapth d.block d.record d.hardlinked d.rb.compression

/-- How a file has been written. -/
def written : Role → Bool
  -- as the old manifest says
  | .oldFile => oldCompressed d.cb
  -- `start_to_receive_delta`
  | .forwardDelta => decide (d.conf.compression ≠ 0)
  -- `do_patch`, called by `jiggle` with `cconf->compression`
  | .newFile => decide (d.conf.compression ≠ 0)
  -- `make_rev_delta`
  | .reverseDelta => decide (d.conf.compression ≠ 0)

/-- The files that are opened for reading, in order, and how. -/
def opened : List (Role × Bool) :=
  [ -- `process_changed_file` makes a signature
   (.oldFile, dpthIsCompressed d.cb.compression (d.current ++ d.datapth)),
   -- `inflate_or_link_oldfile` and `do_patch` of phase 4
   (.oldFile, dpthIsCompressed d.job.compression d.job.oldpath),
   (.forwardDelta, dpthIsCompressed d.job.compression d.job.deltafpath),
   -- `make_rev_sig` and `make_rev_delta`
   (.newFile, dpthIsCompressed d.job.compression d.job.newpath),
   (.oldFile, dpthIsCompressed d.job.compression d.job.oldpath),
   -- the new backup is restored: `verify_file` or `inflate_or_link_oldfile`, and `send_file`
   (.newFile, dpthIsCompressed d.rb.compression (dataDir d.newBu ++ d.datapth)),
   (.newFile, dpthIsCompressed d.rb.compression d.datapth),
   -- the old one is restored: `do_patch`
   (.reverseDelta, dpthIsCompressed d.cb.compression (deltaDir d.oldBu ++ d.datapth))]

/-- Every file is opened in the encoding in which it was written. -/
def Agree : Prop := ∀ o ∈ d.opened, o.2 = d.written o.1

instance : Decidable d.Agree := inferInstanceAs (Decidable (∀ o ∈ d.opened, o.2 = d.written o.1))

end DeltaBackup

/-! ## §3. When they agree. -/

section Agree

variable (d : DeltaBackup) {p1b : Sbuf} {keep : Bool}

/-- Only two readings matter: that of the old entry and that of the new one. -/
theorem agree_iff {text : Bytes} (hpath : d.cb.datapth = some text)
    (hd : d.datapth = components text)
    (hne : d.datapth ≠ []) :
    d.Agree ↔ oldCompressed d.cb = decide (d.conf.compression ≠ 0)
      ∧ dpthIsCompressed d.rb.compression d.datapth = decide (d.conf.compression ≠ 0) := by
  have hold : ∀ dir : Path, dpthIsCompressed d.cb.compression (dir ++ d.datapth)
      = oldCompressed d.cb := by
    intro dir
    rw [dpthIsCompressed_append hne, oldCompressed, hpath, hd]
  have hnew : ∀ dir : Path, dpthIsCompressed d.rb.compression (dir ++ d.datapth)
      = dpthIsCompressed d.rb.compression d.datapth := fun _ => dpthIsCompressed_append hne
  have hjob : d.job.compression = d.rb.compression := rfl
  unfold DeltaBackup.Agree DeltaBackup.opened Job.oldpath Job.newpath Job.deltafpath
  have hdp : d.job.datapth = d.datapth := rfl
  simp only [hjob, hdp, hold, hnew, List.forall_mem_cons, DeltaBackup.written]
  constructor
  · rintro ⟨-, hso, hf, -, -, -, -, hr, -⟩
    exact ⟨hr, hf⟩
  · rintro ⟨ho, hn⟩
    simp [ho, hn]

/-- **Both ends agree on compression** after `maybe_process_file` has decided on a delta,
unless the server compresses and the client has excluded the new copy from compression. -/
theorem encodings_agree_iff {text : Bytes} (hpath : d.cb.datapth = some text)
    (hd : d.datapth = components text) (hne : d.datapth ≠ [])
    (hdelta : maybeProcessFile d.conf d.cb p1b = .done .delta keep)
    (flag : Nat) (excom : List Bytes) (fname : Bytes)
    (hclient : d.rb.compression = inExcludeComp flag excom fname d.conf.compression) :
    d.Agree ↔ ¬ (d.conf.compression ≠ 0 ∧ d.rb.compression = 0) := by
  obtain ⟨-, -, -, -, -, hold⟩ := delta_spec hdelta
  rw [agree_iff d hpath hd hne, hold]
  have hchoice := inExcludeComp_cases flag excom fname d.conf.compression
  rw [← hclient] at hchoice
  by_cases hconf : d.conf.compression = 0
  · have hrb : d.rb.compression = 0 := by
      rcases hchoice with h | h
      · rw [h, hconf]; rfl
      · exact h
    simp [hconf, hrb, dpthIsCompressed]
  · rcases hchoice with h | h
    · have hpos : 0 < d.conf.compression := Nat.pos_of_ne_zero hconf
      simp [hconf, h, dpthIsCompressed, hpos]
    · simp [hconf, h, dpthIsCompressed]

end Agree

/-! ## §4. A file that is excluded from compression. -/

/-- The file `/f.LOG`, which the first backup has compressed, and a server that compresses. -/
def sampleDelta (compression : Int) : DeltaBackup where
  conf := {}
  cb := { cmd := .file, path := some [47, 102, 46, 76, 79, 71], statp := { mtime := 1 },
          datapth := some [48, 46, 103, 122], compression := 9, endfile := some [49] }
  rb := { cmd := .file, path := some [47, 102, 46, 76, 79, 71], statp := { mtime := 2 },
          datapth := some [48, 46, 103, 122], compression := compression, endfile := some [49] }
  datapth := ["0.gz"]
  fin := "0000002"
  current := ["0000001", "data"]
  block := 64
  record := []
  hardlinked := false
  oldBu := { path := "0000001", hardlinked := false, index := 1 }
  newBu := { path := "0000002", hardlinked := false, index := 2 }

/-- The equivalence for a client without exclusions. -/
theorem encodings_agree_iff_sample :
    (sampleDelta 9).Agree ↔ ¬ ((sampleDelta 9).conf.compression ≠ 0
      ∧ (sampleDelta 9).rb.compression = 0) :=
  encodings_agree_iff (sampleDelta 9) rfl (by decide) (by decide)
    (show maybeProcessFile _ _ (sampleDelta 9).rb = .done .delta false by decide) 0 [] [47, 102] rfl

/-- The file has changed and a delta is chosen, but the client has put its extension on the
list of `exclude_comp` in the meantime. -/
theorem excluded_disagrees :
    maybeProcessFile (sampleDelta 0).conf (sampleDelta 0).cb (sampleDelta 0).rb
        = .done .delta false
      ∧ (sampleDelta 0).rb.compression
        = inExcludeComp 4 [[108, 111, 103]] [47, 102, 46, 76, 79, 71]
            (sampleDelta 0).conf.compression
      ∧ ¬ (sampleDelta 0).Agree := by
  refine ⟨by decide, by decide, by decide⟩

end Burp.Shuffle
