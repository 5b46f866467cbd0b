/-
  Burp.Restore.Session — the calls of one restore or verification.

  `restore_manifest` calls `restore_file` for one entry of the manifest after another, all
  of them with the same two scratch files, which are only removed when the session is over.
  A call leaves tmp1 behind exactly if the number of its patches is even and not zero.  A
  compressed file does not mind, since it is inflated over the old scratch file, but an
  uncompressed one is hard linked to it, and `link` does not replace anything.

  Main results:
    * `undisturbed_iff` — when the calls of a session do not disturb each other.
    * `sample_disturbed` — a session that stops with an error.
-/
import Burp.Restore.RestoreFile

namespace Burp.Restore

open Crash FileSystem Burp.Store Burp.Backups

/-! ## §1. Sessions. -/

/-- The store without the scratch files. -/
def withoutScratch (t : Node) : Node := (unlink tmp2).final ((unlink tmp1).final t)

/-- Every call of the session succeeds, with the result that it would have if the scratch
files did not exist when it started. -/
def Undisturbed (c : Codec) (md5 : Bytes → List Char) (arr : List Bu) (i : Nat) (act : Action) :
    List Request → Node → Prop
  | [], _ => True
  | req :: reqs, t =>
      (restoreFile c md5 arr i act req).result t ≠ none
        ∧ (restoreFile c md5 arr i act req).result t
          = (restoreFile c md5 arr i act req).result (withoutScratch t)
        ∧ Undisturbed c md5 arr i act reqs ((restoreFile c md5 arr i act req).final t)

/-- No uncompressed file that needs patches comes where tmp1 is there.  `left` says whether
it is at the start. -/
def Unblocked (view : Path → Option Entry) (arr : List Bu) (i : Nat) :
    Bool → List Request → Prop
  | _, [] => True
  | left, req :: reqs =>
      (deltasFor view arr i req.datapth = []
          ∨ dpthIsCompressed req.compression req.datapth = true ∨ left = false)
        ∧ Unblocked view arr i (leftAfter left (deltasFor view arr i req.datapth).length) reqs

/-! ## §2. Removing the scratch files. -/

section Scratch

variable {s t : Node} {p : Path} {left : Bool}

/-- `unlink` of a scratch file, which may be absent. -/
theorem unlink_own (hp : p ≠ []) (h : Own t p) (r : Path) :
    look ((unlink p).final t) r = if r = p then none else look t r := by
  rcases h.1 with hnone | ⟨i, d, hfile⟩
  · rw [(unlink_absent hnone).2]
    split_ifs with hr
    · rw [hr, hnone]
    · rfl
  · exact (unlink_file hp hfile).2.1 r

theorem Own.unlink {q : Path} (hp : p ≠ []) (hq : Own t q) (h : Own t p) :
    Own ((FileSystem.unlink p).final t) q := by
  have hlook := unlink_own hp h
  constructor
  · rw [hlook]
    split_ifs
    · exact Or.inl rfl
    · exact hq.1
  · intro i d hi r e hr
    rw [hlook] at hi hr
    split_ifs at hi hr
    exact hq.2 i d hi r e hr

theorem Idle.withoutScratch (h : Idle s t left) : Idle s (withoutScratch t) false := by
  have h1 : tmp1 ≠ [] := by decide
  have h2 : tmp2 ≠ [] := by decide
  have hown2 : Own ((unlink tmp1).final t) tmp2 := Own.unlink h1 h.own2 h.own1
  have hown1 : Own ((unlink tmp1).final t) tmp1 := Own.unlink h1 h.own1 h.own1
  have hlook : ∀ r, look (Restore.withoutScratch t) r
      = if r = tmp2 then none else if r = tmp1 then none else look t r := by
    intro r
    rw [Restore.withoutScratch, unlink_own h2 hown2, unlink_own h1 h.own1]
  refine ⟨?_, ?_, unlink_wf (unlink_wf h.wf), Own.unlink h2 hown1 hown2,
    Own.unlink h2 hown2 hown2, ?_⟩
  · intro q hq1 hq2
    rw [hlook, if_neg hq2, if_neg hq1]
    exact h.beside q hq1 hq2
  · unfold IsDir
    rw [hlook, if_neg (Ne.symm h2), if_neg (Ne.symm h1)]
    exact h.root
  · rw [hlook, if_neg (by decide), if_pos rfl]
    simp

end Scratch

/-! ## §3. When the calls do not disturb each other. -/

section Session

variable {c : Codec} (hc : c.Lawful) {md5 : Bytes → List Char} {arr : List Bu} {i : Nat}
  {act : Action} {s : Node}

include hc

/-- The session from any of its calls on. -/
theorem undisturbed_from :
    ∀ (reqs : List Request) {t : Node} {left : Bool}, Idle s t left →
      (∀ req ∈ reqs, req.datapth ≠ [] ∧ answer c md5 (look s) arr i act req ≠ none) →
      (Undisturbed c md5 arr i act reqs t ↔ Unblocked (look s) arr i left reqs)
  | [], _, _, _, _ => Iff.rfl
  | req :: reqs, t, left, h, hreqs => by
      obtain ⟨hd, hans⟩ := hreqs req List.mem_cons_self
      obtain ⟨r, hr⟩ := Option.ne_none_iff_exists'.mp hans
      unfold Undisturbed Unblocked
      by_cases hfree : deltasFor (look s) arr i req.datapth = []
          ∨ dpthIsCompressed req.compression req.datapth = true ∨ left = false
      · -- this call is undisturbed
        obtain ⟨hres, hidle⟩ := restoreFile_spec hc h hd hr hfree
        obtain ⟨halone, -⟩ := restoreFile_spec hc h.withoutScratch hd hr (Or.inr (Or.inr rfl))
        have ih := undisturbed_from reqs hidle fun q hq => hreqs q (List.mem_cons_of_mem _ hq)
        rw [ih, hres, halone]
        simp [hfree]
      · -- tmp1 is in the way of this one
        push Not at hfree
        obtain ⟨hds, hplain, hleft⟩ := hfree
        obtain rfl : left = true := by simpa using hleft
        have hblock : (restoreFile c md5 arr i act req).result t = none :=
          restoreFile_blocked h hd hds (by simpa using hplain)
        refine iff_of_false (fun hu => hu.1 hblock) fun hu => ?_
        rcases hu.1 with h' | h' | h'
        · exact hds h'
        · exact hplain h'
        · exact absurd h' (by simp)

/-- **The calls of a session do not disturb each other** exactly if no uncompressed file
that needs patches comes after one that needed an even number of patches, other than zero,
with only unpatched files in between. -/
theorem undisturbed_iff (md5 : Bytes → List Char) (arr : List Bu) (i : Nat) (act : Action)
    (s : Node) (hwf : s.WF) (hroot : IsDir s []) (htmp1 : Own s tmp1) (htmp2 : Own s tmp2)
    (reqs : List Request)
    (hstored : ∀ req ∈ reqs, req.datapth ≠ [] ∧ answer c md5 (look s) arr i act req ≠ none) :
    Undisturbed c md5 arr i act reqs s
      ↔ Unblocked (look s) arr i (decide (look s tmp1 ≠ none)) reqs :=
  undisturbed_from hc reqs ⟨fun _ _ _ => rfl, hroot, hwf, htmp1, htmp2, by simp⟩ hstored

end Session

/-! ## §4. Two uncompressed files. -/

/-- Three backups, the oldest first. -/
def sampleBackups : List Bu :=
  [{ path := "1", hardlinked := false, index := 1 },
   { path := "2", hardlinked := false, index := 2 },
   { path := "3", hardlinked := false, index := 3 }]

/-- Both files have changed in each backup, but `g` was gone by the last one. -/
def sampleStore : Node :=
  .dir [
    ("1", .dir [("deltas.reverse", .dir [("f", .file 1 [65, 1]), ("g", .file 2 [65, 11])])]),
    ("2", .dir [("deltas.reverse", .dir [("f", .file 3 [65, 2])]),
      ("data", .dir [("g", .file 4 [12])])]),
    ("3", .dir [("data", .dir [("f", .file 5 [3])])])]

/-- The manifest entry of a file that is stored uncompressed. -/
def plainFile (name : String) : Request :=
  { datapth := [name], endfile := "1:md5".toList, cmd := .file, compression := 0 }

/-- The equivalence for the first of the two files. -/
theorem undisturbed_iff_sample :
    Undisturbed sampleCodec (fun _ => []) sampleBackups 0 .restore [plainFile "f"] sampleStore
      ↔ Unblocked (look sampleStore) sampleBackups 0 (decide (look sampleStore tmp1 ≠ none))
          [plainFile "f"] :=
  undisturbed_iff sampleCodec_lawful (fun _ => []) sampleBackups 0 .restore sampleStore
    (by simp [sampleStore, Node.WF, WFEntries]) (by decide) (Own.of_absent (by decide))
    (Own.of_absent (by decide)) [plainFile "f"] (by
      intro req hreq
      rw [List.mem_singleton.mp hreq]
      exact ⟨by decide, by simp [answer]; decide⟩)

/-- Restoring both files of the oldest backup: nothing is damaged, but the two patches for
`f` leave tmp1 behind, and `g`, which needs one, is not restored. -/
theorem sample_disturbed :
    (∀ req ∈ [plainFile "f", plainFile "g"],
        answer sampleCodec (fun _ => []) (look sampleStore) sampleBackups 0 .restore req ≠ none)
      ∧ ¬ Undisturbed sampleCodec (fun _ => []) sampleBackups 0 .restore
          [plainFile "f", plainFile "g"] sampleStore := by
  refine ⟨?_, fun h => h.2.2.1 rfl⟩
  intro req hreq
  simp only [List.mem_cons, List.not_mem_nil, or_false] at hreq
  rcases hreq with rfl | rfl <;> exact fun h => by cases h

end Burp.Restore
