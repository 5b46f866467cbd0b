/-
  Burp.Shuffle.Jiggle — moving one file of a new backup into place.

  `jiggle` (backup_phase4_server.c) gets one data path of the new manifest and puts its
  file below `finishing/data`: by patching the old file with a forward delta, by moving a
  file that was received whole, or by linking the old file.  When the previous backup is
  not kept hardlinked, the old file is replaced there by a reverse delta.  The tests at
  its top are all a restart has to find out how far an earlier attempt came.

  Main results:
    * `makeRevSig_spec`, `makeRevDelta_spec` — each writes one scratch file, and a kill leaves
      at most a part of it.
-/
import Burp.Store.Files

namespace Burp.Shuffle

open Crash FileSystem Burp.Store

/-! ## §1. The code. -/

/-- `make_rev_sig`; `block` is `get_librsync_block_len(endfile)`. -/
def makeRevSig (c : Codec) (dst sig : Path) (block : Nat) (compression : Int) :
    Prog Node Bool := do
  match ← readFile dst with
  | none => pure false
  | some _ =>
      match ← openWrite sig with
      | none => pure false
      | some i =>
          let d ← contents dst
          match c.content (dpthIsCompressed compression dst) d with
          | none => pure false
          | some x =>
              appendAll i (c.pieces (c.sig block x))
              pure true

/-- `make_rev_delta`.  The signature is loaded before the other two files are opened. -/
def makeRevDelta (c : Codec) (conf : Conf) (src sig del : Path) (compression : Int) :
    Prog Node Bool := do
  match ← readFile sig with
  | none => pure false
  | some sumset =>
      match ← readFile src with
      | none => pure false
      | some _ =>
          match ← openWrite del with
          | none => pure false
          | some i =>
              let d ← contents src
              match c.content (dpthIsCompressed compression src) d with
              | none => pure false
              | some x =>
                  appendAll i (c.pieces (c.encode conf.compression (c.delta sumset x)))
                  pure true

/-- `gen_rev_delta`. -/
def genRevDelta (c : Codec) (conf : Conf) (sigpath deltadir oldpath finpath path : Path)
    (block : Nat) (compression : Int) : Prog Node Bool := do
  let delpath := deltadir ++ path
  if ← mkpath delpath deltadir then
    if ← makeRevSig c finpath sigpath block compression then
      if ← makeRevDelta c conf oldpath sigpath delpath compression then
        let _ ← unlink sigpath
        pure true
      else pure false
    else pure false
  else pure false

/-- `inflate_or_link_oldfile` of phase 4. -/
def inflateOrLinkOldfile (c : Codec) (conf : Conf) (oldpath infpath : Path) (compression : Int) :
    Prog Node Bool :=
  inflateOrLink c (doLink c conf oldpath infpath) oldpath infpath compression

/-- The manifest entry goes to the deletions file. -/
def noteDeletion (c : Codec) (deletionsfile : Path) (record : Bytes) : Prog Node Bool := do
  match ← openAppend deletionsfile with
  | none => pure false
  | some i =>
      appendAll i (c.pieces record)
      pure true

/-- One call of `jiggle`: the entry and the directories it works on.  `record` is the
entry as `sbuf_to_manifest` writes it. -/
structure Job where
  datapth : Path
  currentdata : Path
  datadirtmp : Path
  datadir : Path
  deltabdir : Path
  deltafdir : Path
  sigpath : Path
  block : Nat
  deletionsfile : Path
  record : Bytes
  hardlinked : Bool
  compression : Int

namespace Job

variable (j : Job)

def oldpath : Path := j.currentdata ++ j.datapth
def newpath : Path := j.datadirtmp ++ j.datapth
def finpath : Path := j.datadir ++ j.datapth
def deltafpath : Path := j.deltafdir ++ j.datapth
def infpath : Path := j.deltafdir ++ ["inflate"]
def delpath : Path := j.deltabdir ++ j.datapth

end Job

/-- The arguments that `atomic_data_jiggle` passes; `fin` is where `finishing` points. -/
def shuffleJob (fin : String) (datapth : Path) (block : Nat) (record : Bytes) (hardlinked : Bool)
    (compression : Int) : Job where
  datapth := datapth
  currentdata := [fin, "currentdup", "data"]
  datadirtmp := [fin, "data.tmp"]
  datadir := [fin, "data"]
  deltabdir := [fin, "currentdup", "deltas.reverse"]
  deltafdir := [fin, "deltas.forward"]
  sigpath := [fin, "currentdup", "sig.tmp"]
  block := block
  deletionsfile := [fin, "deletions"]
  record := record
  hardlinked := hardlinked
  compression := compression

/-- The branch of `jiggle` that patches. -/
def jigglePatch (c : Codec) (conf : Conf) (j : Job) : Prog Node Bool := do
  if ← inflateOrLinkOldfile c conf j.oldpath j.infpath j.compression then
    if ← doPatch c j.infpath j.deltafpath j.newpath conf.compression j.compression then
      let _ ← unlink j.infpath
      if ← (if j.hardlinked then pure true
          else genRevDelta c conf j.sigpath j.deltabdir j.oldpath j.newpath j.datapth j.block
            j.compression) then
        if ← rename j.newpath j.finpath then
          let _ ← unlink j.deltafpath
          if j.hardlinked then pure true
          else
            let _ ← unlink j.oldpath
            pure true
        else pure false
      else pure false
    else
      -- the delta does not apply: the entry is dropped from the manifest later
      let _ ← unlink j.newpath
      let _ ← unlink j.infpath
      noteDeletion c j.deletionsfile j.record
  else pure false

/-- The branch of `jiggle` for an unchanged file. -/
def jiggleLink (c : Codec) (conf : Conf) (j : Job) : Prog Node Bool := do
  if ← doLink c conf j.oldpath j.finpath then
    if j.hardlinked then pure true
    else
      let _ ← unlink j.oldpath
      pure true
  else pure false

/-- The branches of `jiggle` after the directories have been made. -/
def jiggleFile (c : Codec) (conf : Conf) (j : Job) : Prog Node Bool := do
  if ← isReg j.deltafpath then jigglePatch c conf j
  else
    if ← isReg j.newpath then rename j.newpath j.finpath
    else
      if ← isReg j.oldpath then jiggleLink c conf j
      else pure false

/-- `jiggle`; `true` is a return value of 0. -/
def jiggle (c : Codec) (conf : Conf) (j : Job) : Prog Node Bool := do
  if ← isReg j.finpath then
    -- an interrupted jiggle did this file already
    if ← isReg j.deltafpath then
      let _ ← unlink j.deltafpath
      pure true
    else pure true
  else
    if ← mkpath j.finpath j.datadir then
      if ← mkpath j.newpath j.datadirtmp then jiggleFile c conf j
      else pure false
    else pure false

/-! ## §2. What the steps need of each other. -/

/-- A file stored compressed or not: `b` is what is in the file, `x` its content.  An
empty file stands for empty content in both cases. -/
def Stores (c : Codec) (gz : Bool) (b x : Bytes) : Prop :=
  if gz then (b = [] ∧ x = [] ∧ c.gzread [] = some []) ∨ ∃ level, b = c.gzip level x else b = x

theorem Stores.content {c : Codec} (hc : c.Lawful) {gz : Bool} {b x : Bytes}
    (h : Stores c gz b x) : c.content gz b = some x := by
  unfold Stores at h
  unfold Codec.content
  cases gz with
  | false => simpa using h
  | true =>
      rcases h with ⟨rfl, rfl, h⟩ | ⟨level, rfl⟩
      · exact h
      · exact hc.gzread_gzip level x

theorem Stores.inflate {c : Codec} (hc : c.Lawful) {b x : Bytes} (h : Stores c true b x) :
    if b = [] then x = [] else c.inflate b = some x := by
  rcases h with ⟨rfl, rfl, -⟩ | ⟨level, rfl⟩
  · simp
  · rw [if_neg (hc.gzip_ne_nil level x)]
    exact hc.inflate_gzip level x

section Spec

variable {c : Codec} (hc : c.Lawful) {t : Node} {I : Node → Prop}

include hc

theorem makeRevSig_spec {dst sig : Path} {block : Nat} {compression : Int} {i : Nat} {b x : Bytes}
    (hdst : look t dst = some (.file i b))
    (hx : c.content (dpthIsCompressed compression dst) b = some x)
    (hsig : Scratch t sig) (hne : dst ≠ sig) (ht : I t)
    (hI : ∀ v k e, e <+: c.sig block x → Put t v sig k e → I v) :
    Spec (makeRevSig c dst sig block compression) t I fun ok v =>
      ok = true ∧ ∃ k, Put t v sig k (c.sig block x) := by
  obtain ⟨k, hres, hput⟩ := openWrite_scratch hsig
  have hres' : (openAt true sig t).2 = some k := hres
  have hdst' : look ((openAt true sig t).1) dst = some (.file i b) := (hput.look_ne hne).trans hdst
  unfold makeRevSig
  refine Spec.bind (Spec.read ht ?_)
  simp only [hdst]
  refine Spec.bind (Spec.op ht (hI _ k [] List.nil_prefix hput) ?_)
  rw [hres']
  refine Spec.bind (Spec.read (hI _ k [] List.nil_prefix hput) ?_)
  rw [hdst']
  simp only [hx]
  exact write_spec hc hput hI

theorem makeRevDelta_spec {conf : Conf} {src sig del : Path} {compression : Int} {i k : Nat}
    {b x s : Bytes} (hsrc : look t src = some (.file i b))
    (hx : c.content (dpthIsCompressed compression src) b = some x)
    (hsig : look t sig = some (.file k s)) (hdel : Scratch t del) (hne : src ≠ del)
    (ht : I t)
    (hI : ∀ v m e, e <+: c.encode conf.compression (c.delta s x) → Put t v del m e → I v) :
    Spec (makeRevDelta c conf src sig del compression) t I fun ok v =>
      ok = true ∧ ∃ m, Put t v del m (c.encode conf.compression (c.delta s x)) := by
  obtain ⟨m, hres, hput⟩ := openWrite_scratch hdel
  have hres' : (openAt true del t).2 = some m := hres
  have hsrc' : look ((openAt true del t).1) src = some (.file i b) := (hput.look_ne hne).trans hsrc
  unfold makeRevDelta
  refine Spec.bind (Spec.read ht ?_)
  simp only [hsig]
  refine Spec.bind (Spec.read ht ?_)
  simp only [hsrc]
  refine Spec.bind (Spec.op ht (hI _ m [] List.nil_prefix hput) ?_)
  rw [hres']
  refine Spec.bind (Spec.read (hI _ m [] List.nil_prefix hput) ?_)
  rw [hsrc']
  simp only [hx]
  exact write_spec hc hput hI

end Spec

end Burp.Shuffle
