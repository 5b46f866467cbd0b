/-
  Burp.FileSystem.Relink — a file atomically replaced by a link of another.

  The replacing link is made under a temporary name and renamed into place.  Where the two
  files already are links of one another, `rename` does nothing, and the temporary name
  stays: one more link.

  Main results:
    * `relink_other` — a link of another file: only the replaced path changes, and the link
      moves from one inode to the other.
    * `relink_same` — a link of the same file: the temporary name is left over.
    * `Sound.of_look` — after a new link an inode still has one content.
-/
import Burp.FileSystem.Ops

namespace FileSystem

open Crash

variable {t : Node} {p q tmp : Path}

/-! ## §1. Trees in which an inode has one content. -/

/-- A tree as a file system gives it: names are distinct, and so are inodes by content. -/
structure Sound (t : Node) : Prop where
  wf : t.WF
  oneData : ∀ p q i d e, look t p = some (.file i d) → look t q = some (.file i e) → d = e

/-- The tree after a path was made a link of a file that is there. -/
theorem Sound.of_look {u : Node} (h : Sound t) (hwf : u.WF) {i : Nat} {d : Bytes} {r : Path}
    (hp : look t p = some (.file i d))
    (hu : ∀ s, look u s = if s = r then some (.file i d) else look t s) : Sound u := by
  -- every file of the new tree is a file of the old one, at `p` when it is the new link
  have hold : ∀ s j e, look u s = some (.file j e) → ∃ s', look t s' = some (.file j e) := by
    intro s j e hs
    rw [hu] at hs
    split at hs
    · exact ⟨p, by rw [hp]; exact hs⟩
    · exact ⟨s, hs⟩
  constructor
  · exact hwf
  · intro s s' j a b hs hs'
    obtain ⟨x, hx⟩ := hold s j a hs
    obtain ⟨y, hy⟩ := hold s' j b hs'
    exact h.oneData x y j a b hx hy

/-- A tree whose files have the bytes that some function has for their inodes. -/
theorem Sound.of_mapData (g : Nat → Bytes) (hwf : t.WF) (h : t.mapData (fun i _ => g i) = t) :
    Sound t := by
  have hdata : ∀ p i d, look t p = some (.file i d) → d = g i := by
    intro p i d hp
    have := look_mapData (fun i _ => g i) t p
    rw [h, hp] at this
    simpa [Entry.mapData] using this
  constructor
  · exact hwf
  · intro p q i d e hp hq
    rw [hdata p i d hp, hdata q i e hq]

/-! ## §2. The link count of a replaced node. -/

theorem nlink_put_of_present {m n : Node} (i : Nat) :
    ∀ {p : Path} {t : Node}, p ≠ [] → t.get p = some m →
      nlink (t.put p (some n)) i + m.inodes.count i = nlink t i + n.inodes.count i
  | [], _, h, _ => absurd rfl h
  | x :: p, .file _ _, _, hget => by simp [Node.get] at hget
  | x :: p, .symlink _, _, hget => by simp [Node.get] at hget
  | [x], .dir es, _, hget => by
      rw [Node.get_dir_cons] at hget
      obtain ⟨m', hfind, hm⟩ := Option.bind_eq_some_iff.mp hget
      simp only [Node.get_nil, Option.some.injEq] at hm
      subst hm
      exact count_inodesEntries_set hfind i
  | x :: y :: p, .dir es, _, hget => by
      rw [Node.get_dir_cons] at hget
      obtain ⟨m', hfind, hm⟩ := Option.bind_eq_some_iff.mp hget
      have ih := nlink_put_of_present (n := n) i (p := y :: p) (by simp) hm
      have hset := count_inodesEntries_set (n := m'.put (y :: p) (some n)) hfind i
      simp only [nlink, Node.put, hfind, Node.inodes] at ih hset ⊢
      omega

/-- `rename` of a file onto another file: the links of both, counted. -/
theorem nlink_rename_over {i j : Nat} {d e : Bytes} (hwf : t.WF) (hp : p ≠ [])
    (ho : look t p = some (.file i d)) (hq : look t q = some (.file j e)) (hij : j ≠ i)
    (hnil : q ≠ []) (x : Nat) :
    nlink ((rename p q).final t) x + (if j = x then 1 else 0) = nlink t x := by
  have hdir : IsDir t q.dropLast := isDir_dropLast hnil (by rw [hq]; simp)
  obtain ⟨-, hlook⟩ := rename_over hp hnil ho (Or.inr ⟨j, e, hq, hij⟩) hdir
  have hpq : p ≠ q := by
    intro h
    rw [h, hq] at ho
    simp only [Option.some.injEq, Entry.file.injEq] at ho
    exact hij ho.1
  rcases renameAt_cases p q t with hsame | ⟨n, hn, hmove⟩
  · -- `rename` did something: the old name is gone
    have := hlook p
    rw [rename, Prog.final_op, hsame, if_neg hpq, if_pos rfl, ho] at this
    simp at this
  · rw [get_of_look_file ho, Option.some.injEq] at hn
    subst hn
    have hdirp : IsDir t p.dropLast := isDir_dropLast hp (by rw [ho]; simp)
    have hgetp := get_of_look_file ho
    have hq' : look (t.put p none) q = some (.file j e) := by
      rw [look_put hp hdirp (leaf_of_look (by rw [ho]; simp)) Leaf.none, if_neg (Ne.symm hpq), hq]
    have hremove := nlink_put_none x hwf hp hgetp
    have hreplace := nlink_put_of_present (n := .file i d) x hnil (get_of_look_file hq')
    simp only [rename, Prog.final_op, hmove]
    simp only [Node.inodes, List.count_singleton, beq_iff_eq] at hremove hreplace
    omega

/-! ## §3. Replacing a file by a link. -/

/-- Make `q` a link of the file at `p`, through the temporary name `tmp`. -/
def relink (p tmp q : Path) : Prog Node Bool := do
  if ← link p tmp then rename tmp q else pure false

theorem rename_wf (h : t.WF) : ((rename p q).final t).WF := by
  rcases renameAt_cases p q t with hsame | ⟨n, hn, hmove⟩
  · rw [rename, Prog.final_op, hsame]
    exact h
  · rw [rename, Prog.final_op, hmove]
    refine Node.WF.put (fun m hm => ?_) (Node.WF.put (fun m hm => by simp at hm) h)
    rw [← Option.some.inj hm]
    exact h.get hn

/-- A file whose parent is a directory is not the root. -/
theorem ne_nil_of_isDir_dropLast {i : Nat} {d : Bytes} (hp : look t p = some (.file i d))
    (hdir : IsDir t p.dropLast) : p ≠ [] := by
  intro hnil
  rw [hnil, List.dropLast_nil, IsDir, ← hnil, hp] at hdir
  simp at hdir

theorem relink_wf (h : t.WF) : ((relink p tmp q).final t).WF := by
  rw [relink, Prog.final_bind]
  cases (link p tmp).result t with
  | false => exact link_wf h
  | true => exact rename_wf (link_wf h)

/-- The temporary name is taken, or there is no directory for it: nothing happens. -/
theorem relink_not_ready (h : ¬ (look t tmp = none ∧ IsDir t tmp.dropLast)) :
    (relink p tmp q).result t = false ∧ (relink p tmp q).final t = t := by
  have hstill : linkAt p tmp t = (t, false) := by
    unfold linkAt
    rw [if_neg h]
  simp only [relink, link, Prog.result_bind, Prog.final_bind, Prog.result_op, Prog.final_op,
    hstill, Bool.false_eq_true, if_false]
  exact ⟨rfl, rfl⟩

/-- **A link of another file.**  Only the replaced path changes, and one link moves from the
inode it had to the one it has now. -/
theorem relink_other {i j : Nat} {d e : Bytes} (hwf : t.WF) (hp : look t p = some (.file i d))
    (hnil : q ≠ []) (hq : look t q = some (.file j e)) (hij : j ≠ i) (htmp : look t tmp = none)
    (hdir : IsDir t tmp.dropLast) :
    (relink p tmp q).result t = true
      ∧ (∀ r, look ((relink p tmp q).final t) r = if r = q then some (.file i d) else look t r)
      ∧ ∀ x, nlink ((relink p tmp q).final t) x + (if j = x then 1 else 0)
          = nlink t x + if i = x then 1 else 0 := by
  obtain ⟨hres, hlook, hnlink⟩ := link_file hp htmp hdir
  have htnil := ne_nil_of_look_none htmp
  have htq : q ≠ tmp := by
    intro h
    rw [h, htmp] at hq
    simp at hq
  -- the tree between the two calls
  have htmp' : look ((link p tmp).final t) tmp = some (.file i d) := by
    rw [hlook, if_pos rfl]
  have hq' : look ((link p tmp).final t) q = some (.file j e) := by
    rw [hlook, if_neg htq, hq]
  have hdir' : IsDir ((link p tmp).final t) q.dropLast := isDir_dropLast hnil (by rw [hq']; simp)
  obtain ⟨hres', hlook'⟩ := rename_over htnil hnil htmp' (Or.inr ⟨j, e, hq', hij⟩) hdir'
  have hnlink' := nlink_rename_over (link_wf (p := p) (q := tmp) hwf) htnil htmp' hq' hij hnil
  simp only [relink, Prog.result_bind, Prog.final_bind, hres, if_true]
  refine ⟨hres', fun r => ?_, fun x => ?_⟩
  · rw [hlook', hlook]
    by_cases hr : r = tmp
    · rw [hr, if_neg (Ne.symm htq), if_pos rfl, if_neg (Ne.symm htq), htmp]
    · rw [if_neg hr, if_neg hr]
  · rw [hnlink' x, hnlink x]

/-- **A link of the same file.**  `rename` keeps both names, so the temporary one stays. -/
theorem relink_same {i : Nat} {d e : Bytes} (hp : look t p = some (.file i d))
    (hnil : q ≠ []) (hq : look t q = some (.file i e)) (htmp : look t tmp = none)
    (hdir : IsDir t tmp.dropLast) :
    (relink p tmp q).result t = true
      ∧ (∀ r, look ((relink p tmp q).final t) r = if r = tmp then some (.file i d) else look t r)
      ∧ ∀ x, nlink ((relink p tmp q).final t) x = nlink t x + if i = x then 1 else 0 := by
  obtain ⟨hres, hlook, hnlink⟩ := link_file hp htmp hdir
  have htq : q ≠ tmp := by
    intro h
    rw [h, htmp] at hq
    simp at hq
  have htmp' : look ((link p tmp).final t) tmp = some (.file i d) := by
    rw [hlook, if_pos rfl]
  have hq' : look ((link p tmp).final t) q = some (.file i e) := by
    rw [hlook, if_neg htq, hq]
  have hdir' : IsDir ((link p tmp).final t) q.dropLast := isDir_dropLast hnil (by rw [hq']; simp)
  have hstay : renameAt tmp q ((link p tmp).final t) = ((link p tmp).final t, true) := by
    unfold renameAt
    simp only [get_of_look_file htmp', get_of_look_file hq', if_neg (Ne.symm htq), if_true,
      not_true, hdir', if_false]
  simp only [relink, Prog.result_bind, Prog.final_bind, hres, if_true, rename, Prog.result_op,
    Prog.final_op, hstay, true_and]
  exact ⟨hlook, hnlink⟩

end FileSystem
