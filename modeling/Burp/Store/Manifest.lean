/-
  Burp.Store.Manifest — lists of entries, and the merge loops over two of them.

  Every loop over a manifest calls `sbuf_fill` until it returns something else than 0.  The
  end of the file is no error, and an entry that it cuts off can have its path already.  A
  merge loop tests for the path only: `backup_phase3_server` writes such an entry like any
  other one, and `maybe_delete_files_from_manifest` too.

  Main results:
    * `fills_append` — a file of whole entries reads as these entries.
-/
import Burp.Store.Sbuf

namespace Burp.Store

open FileSystem

/-! ## §1. The entries of a file. -/

/-- Calls of `fill` until it does not return 0: the entries, the last return value, and
what the last call has left in its `sbuf`. -/
def fills (fill : Bytes → Ars × Sbuf × Bytes) : Nat → Bytes → List Sbuf × Ars × Sbuf
  | 0, _ => ([], .error, {})
  | fuel + 1, b =>
      match fill b with
      | (.ok, sb, b) =>
          let (sbs, last) := fills fill fuel b
          (sb :: sbs, last)
      | (ars, sb, _) => ([], ars, sb)

/-- **A file of whole entries reads as these entries**, and then as what comes after
them. -/
theorem fills_append (fill : Bytes → Ars × Sbuf × Bytes) (write : Sbuf → Bytes) (tail : Bytes)
    (hend : (fill tail).1 ≠ .ok) :
    ∀ (sbs : List Sbuf), (∀ sb ∈ sbs, ∀ rest, fill (write sb ++ rest) = (.ok, sb, rest)) →
      ∀ fuel, sbs.length < fuel →
        fills fill fuel (sbs.flatMap write ++ tail) = (sbs, (fill tail).1, (fill tail).2.1) := by
  intro sbs
  induction sbs with
  | nil =>
      intro _ fuel hfuel
      obtain ⟨n, rfl⟩ := Nat.exists_eq_add_of_lt hfuel
      rw [List.flatMap_nil, List.nil_append, List.length_nil, Nat.zero_add, fills]
      generalize fill tail = r at hend
      obtain ⟨ars, sb, b⟩ := r
      cases ars with
      | ok => exact absurd rfl hend
      | ended => rfl
      | error => rfl
  | cons sb sbs ih =>
      intro h fuel hfuel
      obtain ⟨n, rfl⟩ := Nat.exists_eq_add_of_lt hfuel
      have htail := ih (fun s hs => h s (List.mem_cons_of_mem _ hs)) (sbs.length + 1 + n)
        (by omega)
      rw [List.flatMap_cons, List.append_assoc, List.length_cons, fills,
        h sb List.mem_cons_self]
      simp only [htail]

/-- The entries of a file; each one takes at least a byte. -/
def entries (b : Bytes) : List Sbuf × Ars × Sbuf := fills sbufFill (b.length + 1) b

/-- What a merge loop gets from one of its files: the entries, with the one that the end of
the file has cut off if that has a path, and whether there is an error after them. -/
structure Source where
  held : List Sbuf
  broken : Bool
  deriving DecidableEq

/-- A file as a source. -/
def Source.ofFile (b : Bytes) : Source :=
  match entries b with
  | (sbs, .ended, last) => ⟨if last.path.isSome then sbs ++ [last] else sbs, false⟩
  | (sbs, _, _) => ⟨sbs, true⟩

/-- A file as the source that a loop ends with: what the end of the file cuts off is not
looked at any more. -/
def Source.whole (b : Bytes) : Source :=
  match entries b with
  | (sbs, .ended, _) => ⟨sbs, false⟩
  | (sbs, _, _) => ⟨sbs, true⟩

/-! ## §2. The merge loops. -/

/-- What a merge loop has written, and whether it has come to its end without an error. -/
abbrev Merged := List Sbuf × Bool

/-- Write an entry and go on. -/
def Merged.write (sb : Sbuf) (m : Merged) : Merged := (sb :: m.1, m.2)

/-- In what the merge loops differ. -/
structure MergeMode where
  /-- What only the second source has is written. -/
  lone : Bool
  /-- What both sources have is written, as the second one has it. -/
  same : Bool
  /-- `recovery`: the loop ends with the second source. -/
  recovery : Bool := false

/-- The turns of a merge loop in which the first source is at `u`; `rest` is what comes
after it. -/
def mergeAt (mode : MergeMode) (broken : Bool) (u : Sbuf) (rest : List Sbuf → Merged) :
    List Sbuf → Merged
  | [] =>
      if broken then ([], false)
      else if mode.recovery then ([], true)
      else (rest []).write u
  | p :: ps =>
      let pcmp := sbufPathcmp u p
      if pcmp = 0 then if mode.same then (rest ps).write p else rest ps
      else if pcmp < 0 then (rest (p :: ps)).write u
      else
        let m := mergeAt mode broken u rest ps
        if mode.lone then m.write p else m

/-- A merge loop over two sources. -/
def mergeLoop (mode : MergeMode) (ubroken pbroken : Bool) : List Sbuf → List Sbuf → Merged
  | [], ps =>
      if ubroken then ([], false)
      else (if mode.lone then ps else [], !pbroken)
  | u :: us, ps => mergeAt mode pbroken u (mergeLoop mode ubroken pbroken us) ps

/-- The loop of `maybe_delete_files_from_manifest`: what is in both is left out. -/
def deleteLoop (man del : Source) : Merged :=
  mergeLoop { lone := false, same := false } man.broken del.broken man.held del.held

/-- The entries as they are written to a manifest. -/
def manifestBytes (sbs : List Sbuf) : Bytes := sbs.flatMap fun sb => (toManifest true sb).getD []

end Burp.Store
