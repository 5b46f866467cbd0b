/-
  Burp.Store.Confined — the frame rule for the storage code.

  The programs of `Burp.Store.Files` and `Burp.Store.Recursive` only change what is below
  the paths they are given to write to, wherever they read from.  So they keep every
  invariant of `FileSystem.Local` whose region has these paths.

  Main results:
    * `keeps_mkpath`, `keeps_doPatch`, `keeps_inflateOrLink` — single files.
    * `keeps_recursiveHardlink`, `keeps_recursiveDelete` — whole directories.
-/
import Burp.FileSystem.Local
import Burp.Store.Recursive

namespace Burp.Store

open Crash FileSystem

section Confined

variable {inside : Path → Prop} {mine : Nat → Prop} {I : Node → Prop}
  (h : Local inside mine I) {c : Codec} {conf : Conf}

include h

theorem inside_extend {p q : Path} (hp : inside p) (hpq : p <+: q) : inside q := by
  obtain ⟨r, rfl⟩ := hpq
  exact h.below p r hp

/-! ## §1. Single files. -/

omit h in
/-- Above `limit` no directory is made. -/
theorem keeps_mkpathRev_above {limit : Path} :
    ∀ q : List String, q.length < limit.length → Keeps I (mkpathRev limit q)
  | [], _ => Keeps.pure _
  | x :: parent, hlen => by
      have hpar : parent.length < limit.length := by
        simp only [List.length_cons] at hlen
        omega
      unfold mkpathRev
      by_cases hp : parent = []
      · rw [if_pos hp]
        exact Keeps.pure _
      · rw [if_neg hp]
        refine Keeps.bind (Keeps.read _) fun e => ?_
        cases e with
        | some e => exact Keeps.pure _
        | none =>
            refine Keeps.bind (keeps_mkpathRev_above parent hpar) fun ok => ?_
            rw [if_pos hpar]
            split_ifs <;> exact Keeps.pure _

theorem keeps_mkpathRev {limit : Path} (hl : inside limit) :
    ∀ q : List String, limit <+: q.reverse → Keeps I (mkpathRev limit q)
  | [], _ => Keeps.pure _
  | x :: parent, hpre => by
      unfold mkpathRev
      by_cases hp : parent = []
      · rw [if_pos hp]
        exact Keeps.pure _
      · rw [if_neg hp]
        refine Keeps.bind (Keeps.read _) fun e => ?_
        cases e with
        | some e => exact Keeps.pure _
        | none =>
            by_cases hlen : parent.length < limit.length
            · refine Keeps.bind (keeps_mkpathRev_above parent hlen) fun ok => ?_
              rw [if_pos hlen]
              split_ifs <;> exact Keeps.pure _
            · have hpar : limit <+: parent.reverse := by
                rw [List.reverse_cons] at hpre
                refine List.prefix_of_prefix_length_le hpre (List.prefix_append _ _) ?_
                simpa using hlen
              refine Keeps.bind (keeps_mkpathRev hl parent hpar) fun ok => ?_
              rw [if_neg hlen]
              split_ifs
              · exact h.keeps_mkdir (inside_extend h hl hpar)
              · exact Keeps.pure _

theorem keeps_mkpath {p limit : Path} (hl : inside limit) (hpre : limit <+: p) :
    Keeps I (mkpath p limit) :=
  keeps_mkpathRev h hl p.reverse (by simpa using hpre)

theorem keeps_duplicateFile {o p : Path} (hp : inside p) : Keeps I (duplicateFile c o p) := by
  unfold duplicateFile
  refine Keeps.bind (Keeps.read _) fun b => ?_
  cases b with
  | none => exact Keeps.pure _
  | some b =>
      refine h.keeps_openWrite hp (Keeps.pure _) fun i hi => ?_
      exact Keeps.bind (Keeps.read _) fun d =>
        Keeps.bind (h.keeps_appendAll hi _) fun _ => Keeps.pure _

theorem keeps_doLink (hlink : Linkable inside I) {o p : Path} (hp : inside p) :
    Keeps I (doLink c conf o p) := by
  unfold doLink
  refine Keeps.bind (Keeps.read _) fun n => ?_
  split_ifs
  · exact keeps_duplicateFile h hp
  · exact hlink.link hp

theorem keeps_inflateOrLink {dup : Prog Node Bool} {o p : Path} {compression : Int}
    (hp : inside p) (hdup : Keeps I dup) : Keeps I (inflateOrLink c dup o p compression) := by
  unfold inflateOrLink
  refine Keeps.bind (Keeps.read _) fun e => ?_
  cases e with
  | none => exact Keeps.pure _
  | some e =>
      simp only
      split_ifs
      · refine Keeps.bind (Keeps.read _) fun size => ?_
        refine h.keeps_openWrite hp (Keeps.pure _) fun i hi => ?_
        simp only
        split_ifs
        · exact Keeps.pure _
        · refine Keeps.bind (Keeps.read _) fun d => ?_
          cases d with
          | none => exact Keeps.pure _
          | some d =>
              simp only
              cases c.inflate d with
              | none => exact Keeps.pure _
              | some x => exact Keeps.bind (h.keeps_appendAll hi _) fun _ => Keeps.pure _
      · exact hdup

theorem keeps_doPatch {dst del upd : Path} {gzupd : Nat} {compression : Int} (hp : inside upd) :
    Keeps I (doPatch c dst del upd gzupd compression) := by
  unfold doPatch
  refine Keeps.bind (Keeps.read _) fun b => ?_
  cases b with
  | none => exact Keeps.pure _
  | some b =>
      refine Keeps.bind (Keeps.read _) fun d => ?_
      cases d with
      | none => exact Keeps.pure _
      | some d =>
          refine h.keeps_openWrite hp (Keeps.pure _) fun i hi => ?_
          refine Keeps.bind (Keeps.read _) fun basis => Keeps.bind (Keeps.read _) fun delta => ?_
          split
          · exact Keeps.pure _
          · exact Keeps.bind (h.keeps_appendAll hi _) fun _ => Keeps.pure _

/-! ## §2. Whole directories. -/

mutual

theorem keeps_recursiveDelete (delfiles : Bool) :
    ∀ (n : Node) {d : Path}, inside d → Keeps I (recursiveDelete delfiles d n)
  | .file _ _, _, _ => Keeps.pure _
  | .symlink _, _, _ => Keeps.pure _
  | .dir es, d, hd => by
      unfold recursiveDelete
      refine Keeps.bind (keeps_deleteEntries delfiles es hd) fun r => ?_
      obtain ⟨walk, ret⟩ := r
      simp only
      split_ifs
      all_goals first | exact Keeps.pure _ | skip
      all_goals
        refine Keeps.bind (h.keeps_rmdir hd) fun ok => ?_
        split_ifs <;> exact Keeps.pure _

theorem keeps_deleteEntries (delfiles : Bool) :
    ∀ (es : List (String × Node)) {d : Path}, inside d → Keeps I (deleteEntries delfiles d es)
  | [], _, _ => Keeps.pure _
  | (x, n) :: es, d, hd => by
      unfold deleteEntries
      refine Keeps.bind (keeps_deleteEntries delfiles es hd) fun r => ?_
      obtain ⟨walk, ret⟩ := r
      cases walk with
      | some k => exact Keeps.pure _
      | none =>
          have hx : inside (d ++ [x]) := h.below d [x] hd
          have hleaf : Keeps I (if delfiles = true then unlink (d ++ [x]) >>= fun ok =>
              if ok then (pure (none, ret) : Prog Node (Walk × RecDel))
              else pure (none, .entriesRemaining)
            else pure (none, .entriesRemaining)) := by
            split_ifs
            · refine Keeps.bind (h.keeps_unlink hx) fun ok => ?_
              split_ifs <;> exact Keeps.pure _
            · exact Keeps.pure _
          cases n with
          | file i b => exact hleaf
          | symlink s => exact hleaf
          | dir fs =>
              refine Keeps.bind (keeps_recursiveDelete delfiles (.dir fs) hx) fun r => ?_
              cases r <;> exact Keeps.pure _

end

theorem keeps_recursiveDeleteAt {d : Path} (hd : inside d) (delfiles : Bool) :
    Keeps I (recursiveDeleteAt d delfiles) := by
  unfold recursiveDeleteAt
  refine Keeps.bind (Keeps.read _) fun n => ?_
  cases n with
  | none => exact Keeps.pure _
  | some n => exact keeps_recursiveDelete h delfiles n hd

mutual

theorem keeps_recursiveHardlink (hlink : Linkable inside I) :
    ∀ (n : Node) {src dst : Path}, inside dst → Keeps I (recursiveHardlink c conf src dst n)
  | .file _ _, _, _, hdst => by
      unfold recursiveHardlink
      exact Keeps.bind (keeps_mkpath h hdst (List.prefix_append _ _)) fun _ => Keeps.pure _
  | .symlink _, _, _, hdst => by
      unfold recursiveHardlink
      exact Keeps.bind (keeps_mkpath h hdst (List.prefix_append _ _)) fun _ => Keeps.pure _
  | .dir es, _, _, hdst => by
      unfold recursiveHardlink
      refine Keeps.bind (keeps_mkpath h hdst (List.prefix_append _ _)) fun ok => ?_
      split_ifs
      · exact Keeps.bind (keeps_linkEntries hlink es hdst) fun _ => Keeps.pure _
      · exact Keeps.pure _

theorem keeps_linkEntries (hlink : Linkable inside I) :
    ∀ (es : List (String × Node)) {src dst : Path}, inside dst →
      Keeps I (linkEntries c conf src dst es)
  | [], _, _, _ => Keeps.pure _
  | (x, n) :: es, src, dst, hdst => by
      unfold linkEntries
      refine Keeps.bind (keeps_linkEntries hlink es hdst) fun walk => ?_
      cases walk with
      | some k => exact Keeps.pure _
      | none =>
          have hx : inside (dst ++ [x]) := h.below dst [x] hdst
          have hleaf : Keeps I (doLink c conf (src ++ [x]) (dst ++ [x]) >>= fun ok =>
              if ok then (pure none : Prog Node Walk) else pure (some 0)) := by
            refine Keeps.bind (keeps_doLink h hlink hx) fun ok => ?_
            split_ifs <;> exact Keeps.pure _
          cases n with
          | file i b => exact hleaf
          | symlink s => exact hleaf
          | dir fs =>
              refine Keeps.bind (keeps_recursiveHardlink hlink (.dir fs) hx) fun ok => ?_
              split_ifs <;> exact Keeps.pure _

end

theorem keeps_recursiveHardlinkAt (hlink : Linkable inside I) {src dst : Path}
    (hdst : inside dst) : Keeps I (recursiveHardlinkAt c conf src dst) := by
  unfold recursiveHardlinkAt
  refine Keeps.bind (Keeps.read _) fun n => ?_
  cases n with
  | none => exact Keeps.bind (keeps_mkpath h hdst (List.prefix_append _ _)) fun _ => Keeps.pure _
  | some n => exact keeps_recursiveHardlink h hlink n hdst

end Confined

end Burp.Store
