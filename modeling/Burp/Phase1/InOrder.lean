/-
  Burp.Phase1.InOrder — every included path once, in order.

  The later phases merge the list of the scan with others, and need it sorted.  Names in a
  directory are sorted, what is below a name comes before the next one, and the includes below
  an excluded name come in the order of the list.  What breaks the order is an include that is
  gone to again although it is below one that was gone to before: the loop that is to skip it
  stops counting at the end of a chain.

  Main results:
    * `visits_increasing` — without such an include the scan goes up.
    * `scan_in_order_iff` — every included path is sent once, in order, exactly when there is
      no such include.
-/
import Burp.Phase1.Tree
import Burp.Phase1.HardLinks

namespace Burp.Phase1

open FileSystem Burp.Store Burp.Phase2

/-! ## §1. What is asked for. -/

/-- The paths that were sent; the metadata of a file is sent with its entry, under its path. -/
def sentPaths (conf : Conf) (sent : List Sbuf) : List Bytes :=
  (sent.filter fun e => e.cmd != metasymbol conf).filterMap fun e => e.path

/-- Every path of the tree that is included is sent once, and the paths go up. -/
structure InOrder (t : Tree) (conf : Conf) (sent : List Sbuf) : Prop where
  once : ∀ p, t.Path p → Included conf.incexcdir p → (sentPaths conf sent).count p = 1
  increasing : (sentPaths conf sent).Pairwise fun a b => pathcmp (some a) (some b) < 0

/-- The includes that exist, and what is below them. -/
inductive Tree.Under (t : Tree) (conf : Conf) : Bytes → Prop
  | entry {e : Bytes} {s : Stat} :
      (e, true) ∈ conf.incexcdir → t.lstat e = some s → t.Under conf e
  | name {d n : Bytes} {names : List Bytes} :
      t.Under conf d → t.IsDir d names → n ∈ names → t.Under conf (canonical d ++ n)

/-- No include is gone to twice. -/
structure Tree.Chained (t : Tree) (conf : Conf) : Prop where
  /-- Below an excluded name in an included directory, an include that is below another one and
  not in one chain with it does not exist. -/
  chain : ∀ d names n e r, t.Under conf d → Included conf.incexcdir d → t.IsDir d names →
    n ∈ names → ¬ Included conf.incexcdir (canonical d ++ n) →
    0 < isSubdir (some (canonical d ++ n)) (some e) → Unchained conf.incexcdir e r →
    t.lstat r = none
  /-- An include in the directory of another one is below it by its text, too: this fails only
  if that one is written with two slashes at its end. -/
  slashes : ∀ e r s s', (e, true) ∈ conf.incexcdir → (r, true) ∈ conf.incexcdir →
    t.lstat e = some s → t.lstat r = some s' → canonical e <+: r →
    0 < isSubdir (some e) (some r)

section scan

variable {t : Tree} {conf : Conf}

theorem Tree.Under.of_include {e : Bytes} (he : (e, true) ∈ conf.incexcdir)
    (h : ∃ s, t.lstat e = some s) : t.Under conf e := by
  obtain ⟨s, hs⟩ := h
  exact .entry he hs

/-! ## §2. The order. -/

/-- The directory of a name that was come to is gone into, or it is no directory. -/
theorem visits_cases (hu : conf.Unfiltered) (fuel : Nat) (q : Bytes) {dev : Int} {top : Bool}
    (hdev : top = true ∨ dev = t.device) :
    visits t.toFiles conf fuel q dev top = []
      ∨ (∃ s, t.lstat q = some s) ∧ visits t.toFiles conf fuel q dev top = [(q, top)]
      ∨ ∃ fuel' names, fuel = fuel' + 1 ∧ t.IsDir q names
        ∧ visits t.toFiles conf fuel q dev top
          = (q, top) :: (calls conf (canonical q) (sortNames names)).flatMap
              fun link => visits t.toFiles conf fuel' link t.device false := by
  cases fuel with
  | zero => exact Or.inl rfl
  | succ fuel =>
      cases hs : t.lstat q with
      | none =>
          left
          rw [visits, hs]
      | some s =>
          right
          by_cases hf : Stat.fmt s = 4
          · obtain ⟨names, ho⟩ := t.readable hs hf
            have hd : t.IsDir q names := ⟨s, hs, hf, ho⟩
            exact Or.inr ⟨fuel, names, rfl, hd, visits_dir hu hd hdev fuel⟩
          · exact Or.inl ⟨⟨s, rfl⟩, visits_other hs hf fuel dev top⟩

/-- What is gone to in a directory is in the scope of a name there, included, and exists below
an include if it exists. -/
theorem calls_spec (hu : conf.Unfiltered) (hs : Sorted conf.incexcdir) {q x : Bytes}
    {names : List Bytes} (hq : t.Under conf q) (hd : t.IsDir q names)
    (hx : x ∈ calls conf (canonical q) (sortNames names)) :
    (∃ n ∈ names, Scope (canonical q ++ n) x) ∧ Included conf.incexcdir x
      ∧ ((∃ s, t.lstat x = some s) → t.Under conf x) := by
  obtain ⟨n, hn, hx⟩ := mem_calls.1 hx
  have hn' := mem_sortNames.1 hn
  obtain ⟨hi, rfl⟩ | ⟨-, hj⟩ := hx
  · exact ⟨⟨n, hn', Or.inl rfl⟩, (included_iff hu _).1 hi, fun _ => hq.name hd hn'⟩
  · obtain ⟨hm, hb⟩ := mem_jumps hs hj
    exact ⟨⟨n, hn', scope_of_isSubdir hb⟩, included_self hs hm rfl,
      Tree.Under.of_include hm⟩

/-- Everything that the scan of a name comes to. -/
theorem visits_spec (hu : conf.Unfiltered) (hs : Sorted conf.incexcdir) (fuel : Nat) {q : Bytes}
    {dev : Int} {top : Bool} (hi : Included conf.incexcdir q)
    (hq : (∃ s, t.lstat q = some s) → t.Under conf q) (hdev : top = true ∨ dev = t.device) :
    ∀ v ∈ visits t.toFiles conf fuel q dev top, (v.1 = q ∨ Inside q v.1)
      ∧ Included conf.incexcdir v.1 ∧ t.Under conf v.1 ∧ ∃ s, t.lstat v.1 = some s := by
  induction fuel generalizing q dev top with
  | zero => simp [visits]
  | succ fuel ih =>
      intro v hv
      obtain h0 | ⟨hstat, h1⟩ | ⟨fuel', names, hfuel, hd, h2⟩ := visits_cases hu (fuel + 1) q hdev
      · rw [h0] at hv
        cases hv
      · rw [h1] at hv
        cases List.mem_singleton.1 hv
        exact ⟨Or.inl rfl, hi, hq hstat, hstat⟩
      · cases hfuel
        rw [h2] at hv
        have hqe : ∃ s, t.lstat q = some s := ⟨_, hd.choose_spec.1⟩
        obtain rfl | hv := List.mem_cons.1 hv
        · exact ⟨Or.inl rfl, hi, hq hqe, hqe⟩
        · obtain ⟨x, hx, hv⟩ := List.mem_flatMap.1 hv
          obtain ⟨⟨n, hn, hscope⟩, hxi, hxu⟩ := calls_spec hu hs (hq hqe) hd hx
          obtain ⟨hvx, hrest⟩ := ih hxi hxu (Or.inr rfl) v hv
          obtain ⟨-, -, -, ho⟩ := id hd
          have hplain := t.plain ho n hn
          exact ⟨Or.inr (inside_of_scope hplain (hscope.inside (hplain.bare _) hvx)), hrest⟩

/-- Two names, the first scanned before the second one: what they come to is in order if the
second is not gone to twice. -/
theorem before_of_visits (hu : conf.Unfiltered) (hs : Sorted conf.incexcdir)
    {fuel fuel' : Nat} {e r : Bytes} {top top' : Bool} {dev dev' : Int}
    (he : (e, true) ∈ conf.incexcdir) (hr : (r, true) ∈ conf.incexcdir) (her : Before e r)
    (hdev : top = true ∨ dev = t.device) (hdev' : top' = true ∨ dev' = t.device)
    (hnot : ∀ s s', t.lstat e = some s → t.lstat r = some s' → ¬ canonical e <+: r) :
    ∀ v ∈ visits t.toFiles conf fuel e dev top, ∀ v' ∈ visits t.toFiles conf fuel' r dev' top',
      Before v.1 v'.1 := by
  intro v hv v' hv'
  have hexists : ∀ {fuel : Nat} {x : Bytes} {dev : Int} {top : Bool} {v : Bytes × Bool},
      v ∈ visits t.toFiles conf fuel x dev top → ∃ s, t.lstat x = some s := by
    intro fuel x dev top v hv
    cases fuel with
    | zero => cases hv
    | succ fuel =>
        rw [visits] at hv
        cases hx : t.lstat x with
        | none =>
            rw [hx] at hv
            cases hv
        | some s => exact ⟨s, rfl⟩
  obtain ⟨s, hse⟩ := hexists hv
  obtain ⟨s', hsr⟩ := hexists hv'
  obtain ⟨hve, -⟩ := visits_spec hu hs fuel (included_self hs he rfl)
    (Tree.Under.of_include he) hdev v hv
  obtain ⟨hvr, -⟩ := visits_spec hu hs fuel' (included_self hs hr rfl)
    (Tree.Under.of_include hr) hdev' v' hv'
  have hscope : Scope e v.1 := by
    obtain h | h := hve
    · exact Or.inl h
    · exact h.scope
  have hlt := before_of_scope her (hnot s s' hse hsr) hscope
  obtain h | h := hvr
  · rw [h]
    exact hlt
  · exact hlt.trans h.before

/-- **The scan goes up.** -/
theorem visits_increasing (hu : conf.Unfiltered) (hs : Sorted conf.incexcdir)
    (hc : t.Chained conf) (fuel : Nat) {q : Bytes} {dev : Int} {top : Bool}
    (hi : Included conf.incexcdir q) (hq : (∃ s, t.lstat q = some s) → t.Under conf q)
    (hdev : top = true ∨ dev = t.device) :
    (visits t.toFiles conf fuel q dev top).Pairwise fun v v' => Before v.1 v'.1 := by
  induction fuel generalizing q dev top with
  | zero => exact List.Pairwise.nil
  | succ fuel ih =>
      have hspec := visits_spec hu hs (fuel + 1) hi hq hdev
      obtain h0 | ⟨-, h1⟩ | ⟨fuel', names, hfuel, hd, h2⟩ := visits_cases hu (fuel + 1) q hdev
      · rw [h0]
        exact List.Pairwise.nil
      · rw [h1]
        exact List.pairwise_singleton _ _
      cases hfuel
      have hqu : t.Under conf q := hq ⟨_, hd.choose_spec.1⟩
      obtain ⟨-, -, -, ho⟩ := id hd
      have hplain := t.plain ho
      rw [h2] at hspec ⊢
      -- what a name that is gone to comes to stays in the scope of the name in the directory
      have hstays : ∀ {n x : Bytes}, n ∈ names → Scope (canonical q ++ n) x →
          x ∈ calls conf (canonical q) (sortNames names) →
          ∀ v ∈ visits t.toFiles conf fuel x t.device false, Scope (canonical q ++ n) v.1 := by
        intro n x hn hscope hx v hv
        obtain ⟨-, hxi, hxu⟩ := calls_spec hu hs hqu hd hx
        have hspecx := visits_spec hu hs fuel hxi hxu (Or.inr rfl) v hv
        exact hscope.inside ((hplain n hn).bare _) hspecx.1
      rw [List.pairwise_cons]
      constructor
      · intro v hv
        obtain ⟨x, hx, hv⟩ := List.mem_flatMap.1 hv
        obtain ⟨⟨n, hn, hscope⟩, -⟩ := calls_spec hu hs hqu hd hx
        exact (inside_of_scope (hplain n hn) (hstays hn hscope hx v hv)).before
      rw [List.pairwise_flatMap]
      constructor
      · intro x hx
        obtain ⟨-, hxi, hxu⟩ := calls_spec hu hs hqu hd hx
        exact ih hxi hxu (Or.inr rfl)
      -- name by name, and for an excluded name include by include
      have hblock : ∀ {n x : Bytes}, n ∈ sortNames names →
          x ∈ (if fileIsIncludedNoIncext conf (canonical q ++ n) then [canonical q ++ n]
            else jumps (canonical q ++ n) 0 conf.incexcdir) →
          Scope (canonical q ++ n) x ∧ x ∈ calls conf (canonical q) (sortNames names) := by
        intro n x hn hx
        refine ⟨?_, List.mem_flatMap.2 ⟨n, hn, hx⟩⟩
        split at hx
        next => exact Or.inl (List.mem_singleton.1 hx)
        next => exact scope_of_isSubdir (mem_jumps hs hx).2
      rw [calls, List.pairwise_flatMap]
      constructor
      · intro n hn
        split
        next => exact List.pairwise_singleton _ _
        next hex =>
          have hn' := mem_sortNames.1 hn
          have hni : ¬ Included conf.incexcdir (canonical q ++ n) := by
            rw [← included_iff hu]
            exact hex
          have hboth := (@jumps_sorted (canonical q ++ n) _ hs).and (jump_twice hs)
          refine hboth.imp_of_mem ?_
          intro e r he hr her
          obtain ⟨hem, hle⟩ := mem_jumps hs he
          obtain ⟨hrm, -⟩ := mem_jumps hs hr
          refine before_of_visits hu hs hem hrm her.1 (Or.inr rfl) (Or.inr rfl) ?_
          intro s s' hse hsr hp
          have hsub := hc.slashes e r s s' hem hrm hse hsr hp
          have hnone := hc.chain q names n e r hqu hi hd hn' hni hle (her.2 hsub)
          rw [hsr] at hnone
          cases hnone
      · refine (sortNames_sorted (t.nodup ho)).imp_of_mem ?_
        intro n n' hn hn' hlt x hx x' hx' v hv v' hv'
        obtain ⟨hscope, hxc⟩ := hblock hn hx
        obtain ⟨hscope', hxc'⟩ := hblock hn' hx'
        have hm := mem_sortNames.1 hn
        have hm' := mem_sortNames.1 hn'
        exact before_of_scopes (hplain n hm) (hplain n' hm') hlt
          (hstays hm hscope hxc v hv) (hstays hm' hscope' hxc' v' hv')

/-! ## §3. What is sent. -/

theorem sentPaths_append (es es' : List Sbuf) :
    sentPaths conf (es ++ es') = sentPaths conf es ++ sentPaths conf es' := by
  simp [sentPaths]

theorem sentPaths_extrameta (fs : Files) (path : Bytes) (cmd : Cmd) (attribs : Bytes) :
    sentPaths conf (maybeSendExtrameta fs conf path cmd attribs) = [] := by
  rw [sentPaths, List.filterMap_eq_nil_iff]
  intro e he
  obtain ⟨he, hne⟩ := List.mem_filter.1 he
  rw [(mem_extrameta he).2] at hne
  simp at hne

theorem sentPaths_cons {e : Sbuf} {path : Bytes} (hc : e.cmd ≠ metasymbol conf)
    (hp : e.path = some path) (es : List Sbuf) :
    sentPaths conf (e :: es) = path :: sentPaths conf es := by
  rw [sentPaths, List.filter_cons_of_pos (by simpa using hc), List.filterMap_cons_some hp]
  rfl

/-- An included name is sent once, whatever it is. -/
theorem sentPaths_sendFile {fs : Files} {type : Found} {fname link : Bytes} {statp : Stat}
    {top : Bool} (hi : fileIsIncluded conf fname top = true) {cmd : Cmd}
    (hcmd : mainCmd conf type = some cmd) :
    sentPaths conf (sendFile fs conf type fname link statp top) = [fname] := by
  obtain ⟨hm1, hm2, hm3⟩ := metasymbol_ne conf
  have hm4 : metasymbol conf ≠ .directory ∧ metasymbol conf ≠ .softLink := by
    cases h : conf.encrypts <;> simp [metasymbol, h]
  unfold sendFile
  rw [hi]
  cases type with
  | dirend => cases hcmd
  | nofschg => cases hcmd
  | nofollow => cases hcmd
  | nostat => cases hcmd
  | noopen => cases hcmd
  | lnk =>
      show sentPaths conf ((if (conf.splitVss && !conf.stripVss) = true then
        maybeSendExtrameta fs conf fname .softLink _ else []) ++ _ :: _) = _
      rw [sentPaths_append, sentPaths_cons (Ne.symm hm4.2) rfl, sentPaths_extrameta]
      split
      · rw [sentPaths_extrameta]
        rfl
      · rfl
  | lnksaved =>
      show sentPaths conf (_ :: maybeSendExtrameta fs conf fname .hardLink _) = _
      rw [sentPaths_cons (Ne.symm hm1) rfl, sentPaths_extrameta]
  | dirbegin =>
      show sentPaths conf (_ :: maybeSendExtrameta fs conf fname .directory _) = _
      rw [sentPaths_cons (Ne.symm hm4.1) rfl, sentPaths_extrameta]
  | spec =>
      show sentPaths conf (_ :: maybeSendExtrameta fs conf fname .special _) = _
      rw [sentPaths_cons (Ne.symm hm3) rfl, sentPaths_extrameta]
  | _ =>
      show sentPaths conf (_ :: maybeSendExtrameta fs conf fname (filesymbol conf) _) = _
      rw [sentPaths_cons (Ne.symm hm2) rfl, sentPaths_extrameta]

theorem sentPaths_dumped (hu : conf.Unfiltered) {p : Bytes} {s : Stat} {top : Bool}
    (hs : t.lstat p = some s) (hi : Included conf.incexcdir p) :
    sentPaths conf (dumped t.toFiles conf p s top) = [p] := by
  have hi' := (fileIsIncluded_iff hu p top).2 hi
  rw [dumped]
  split
  next =>
    rw [foundRegularFile, if_neg (fun h => h.1 hu.minFileSize),
      if_neg (fun h => h.1 hu.maxFileSize)]
    split
    · exact sentPaths_sendFile hi' rfl
    · exact sentPaths_sendFile hi' rfl
  split
  next h10 =>
    obtain ⟨link, hlink⟩ := t.followed hs h10
    rw [foundSoftLink, hlink]
    exact sentPaths_sendFile hi' rfl
  split
  next =>
    have hnb : nobackupDirectory t.toFiles conf p = false := by
      simp [nobackupDirectory, hu.nobackup]
    rw [hnb, if_neg (by decide)]
    exact sentPaths_sendFile hi' rfl
  next =>
    rw [foundOther]
    split
    · exact sentPaths_sendFile hi' rfl
    split
    · exact sentPaths_sendFile hi' rfl
    · exact sentPaths_sendFile hi' rfl

theorem sentPaths_scanOf (hu : conf.Unfiltered) {vs : List (Bytes × Bool)}
    (hvs : ∀ v ∈ vs, Included conf.incexcdir v.1 ∧ ∃ s, t.lstat v.1 = some s) :
    sentPaths conf (scanOf t.toFiles conf vs).sent = vs.map Prod.fst := by
  induction vs using List.reverseRecOn with
  | nil => rfl
  | append_singleton vs v ih =>
      obtain ⟨hi, s, hs⟩ := hvs v (by simp)
      have hsends : sends t.toFiles conf vs v = dumped t.toFiles conf v.1 s v.2 := by
        simp [sends, hs, t.not_linked hs]
      rw [scan_sent_concat, sentPaths_append, ih (fun x hx => hvs x (by simp [hx])), hsends,
        sentPaths_dumped hu hs hi, List.map_append]
      rfl

/-! ## §4. The whole scan. -/

section config

variable {ielist : List (Bytes × Bool)}

theorem visited_spec (hu : conf.Unfiltered) (hd : (ielist.map Prod.fst).Nodup)
    (hf : finaliseConfig ielist = some (conf.incexcdir, conf.startdir)) (fuel : Nat) :
    ∀ v ∈ visited t.toFiles conf fuel,
      Included conf.incexcdir v.1 ∧ ∃ s, t.lstat v.1 = some s := by
  obtain ⟨hs, -, hstarts, -, -⟩ := finaliseConfig_spec hd hf
  intro v hv
  obtain ⟨d, hdm, hv⟩ := List.mem_flatMap.1 hv
  obtain ⟨-, hi, -, hstat⟩ := visits_spec hu hs fuel (included_self hs (hstarts d hdm) rfl)
    (Tree.Under.of_include (hstarts d hdm)) (Or.inl rfl) v hv
  exact ⟨hi, hstat⟩

/-- What is sent are the names that the scan comes to. -/
theorem sentPaths_eq (hu : conf.Unfiltered) (hd : (ielist.map Prod.fst).Nodup)
    (hf : finaliseConfig ielist = some (conf.incexcdir, conf.startdir)) (fuel : Nat) :
    sentPaths conf (backupPhase1Client t.toFiles conf fuel).sent
      = (visited t.toFiles conf fuel).map Prod.fst := by
  rw [backupPhase1Client_eq]
  exact sentPaths_scanOf hu (visited_spec hu hd hf fuel)

/-- The scan of an included path is a part of the whole scan. -/
theorem exists_visited (hu : conf.Unfiltered) (hd : (ielist.map Prod.fst).Nodup)
    (hf : finaliseConfig ielist = some (conf.incexcdir, conf.startdir)) {fuel : Nat}
    (hfuel : t.pathMax < fuel) {p : Bytes} (hp : t.Path p) (hi : Included conf.incexcdir p) :
    ∃ fuel' dev' top', (top' = true ∨ dev' = t.device)
      ∧ t.pathMax < fuel' + (strip p).length
      ∧ (visits t.toFiles conf fuel' p dev' top').Sublist (visited t.toFiles conf fuel) := by
  obtain ⟨hs, hne, hstarts, -, hcover⟩ := finaliseConfig_spec hd hf
  obtain ⟨e, ⟨pre, post, hlist, hep, -⟩, he⟩ := id hi
  obtain ⟨d, hdm, hde⟩ := hcover e (by rw [hlist]; simp) he
  obtain ⟨fuel', dev', top', hdev', hfuel', hsub⟩ :=
    @exists_visits t conf hu hs hne p hp hi fuel d (-1) true (subdir_trans hde hep)
      (hne _ (hstarts d hdm)) (Or.inl rfl) (by omega)
  refine ⟨fuel', dev', top', hdev', hfuel', hsub.trans ?_⟩
  exact List.sublist_flatten_of_mem (List.mem_map_of_mem hdm)

theorem visited_increasing (hu : conf.Unfiltered) (hd : (ielist.map Prod.fst).Nodup)
    (hf : finaliseConfig ielist = some (conf.incexcdir, conf.startdir)) (hc : t.Chained conf)
    (fuel : Nat) :
    (visited t.toFiles conf fuel).Pairwise fun v v' => Before v.1 v'.1 := by
  obtain ⟨hs, -, hstarts, hpair, -⟩ := finaliseConfig_spec hd hf
  rw [visited, List.pairwise_flatMap]
  constructor
  · intro d hdm
    exact visits_increasing hu hs hc fuel (included_self hs (hstarts d hdm) rfl)
      (Tree.Under.of_include (hstarts d hdm)) (Or.inl rfl)
  · refine hpair.imp_of_mem ?_
    intro d d' hdm hdm' hdd
    refine before_of_visits hu hs (hstarts d hdm) (hstarts d' hdm') hdd.1 (Or.inl rfl)
      (Or.inl rfl) ?_
    intro s s' hse hsr hp
    have := hc.slashes d d' s s' (hstarts d hdm) (hstarts d' hdm') hse hsr hp
    omega

/-- A path at or above a path of the tree exists. -/
theorem exists_stat_above {g r : Bytes} (hr : t.Path r) (hg : g ≠ [])
    (hgr : 0 < isSubdir (some g) (some r)) : ∃ s, t.lstat g = some s := by
  obtain rfl | hb := (isSubdir_pos_iff g r).1 hgr
  · exact hr.exists_stat
  · obtain ⟨names, ⟨s, hs, -⟩, -⟩ := hr.next hg hb
    exact ⟨s, hs⟩

/-- An include that is gone to again is sent again. -/
theorem chained_of_increasing (hu : conf.Unfiltered) (hd : (ielist.map Prod.fst).Nodup)
    (hf : finaliseConfig ielist = some (conf.incexcdir, conf.startdir)) {fuel : Nat}
    (hfuel : t.pathMax < fuel)
    (hpath : ∀ e s, (e, true) ∈ conf.incexcdir → t.lstat e = some s → t.Path e)
    (hup : (visited t.toFiles conf fuel).Pairwise fun v v' => Before v.1 v'.1) :
    t.Chained conf := by
  obtain ⟨hs, hne, -, -, -⟩ := finaliseConfig_spec hd hf
  have hunder : ∀ d, t.Under conf d → t.Path d := by
    intro d hdu
    induction hdu with
    | entry he hstat => exact hpath _ _ he hstat
    | name _ hdir hn ih => exact ih.name hdir hn
  refine ⟨?_, ?_⟩
  · intro d names n e r hdu hdi hdir hn hni hle hunch
    by_contra hr
    obtain ⟨s, hstat⟩ := Option.ne_none_iff_exists'.1 hr
    obtain ⟨pre, mid, post, hlist, her, -⟩ := id hunch
    have hrp : t.Path r := hpath r s (by rw [hlist]; simp) hstat
    obtain ⟨f, g, hsub, hfg, hgr⟩ := exists_jump_twice hs hunch hle
    have hfj : f ∈ jumps (canonical d ++ n) 0 conf.incexcdir := hsub.subset (by simp)
    have hgj : g ∈ jumps (canonical d ++ n) 0 conf.incexcdir := hsub.subset (by simp)
    obtain ⟨hfm, hlf⟩ := mem_jumps hs hfj
    obtain ⟨hgm, hlg⟩ := mem_jumps hs hgj
    obtain ⟨sg, hsg⟩ := exists_stat_above hrp (hne _ hgm) hgr
    have hgp : t.Path g := hpath g sg hgm hsg
    -- the scan of the directory has the scans of both in it
    obtain ⟨fuel', dev', top', hdev', hfuel', hsubd⟩ :=
      exists_visited hu hd hf hfuel (hunder d hdu) hdi
    obtain ⟨sd, hsd⟩ := (hunder d hdu).exists_stat
    cases fuel' with
    | zero =>
        have h1 := t.length_le hsd
        have h2 := (strip_isPrefix d).length_le
        omega
    | succ fuel' =>
        obtain ⟨-, -, -, ho⟩ := id hdir
        have hplain := t.plain ho n hn
        have hlenf := strip_length_lt hplain (scope_of_isSubdir hlf)
        have hleng := strip_length_lt hplain (scope_of_isSubdir hlg)
        have hcalls : [f, g].Sublist (calls conf (canonical d) (sortNames names)) := by
          refine hsub.trans ?_
          have hex : ¬ fileIsIncludedNoIncext conf (canonical d ++ n) = true := by
            rw [included_iff hu]
            exact hni
          have hm := List.mem_map_of_mem (f := fun p =>
            if fileIsIncludedNoIncext conf (canonical d ++ p) then [canonical d ++ p]
            else jumps (canonical d ++ p) 0 conf.incexcdir) (mem_sortNames.2 hn)
          rw [if_neg hex] at hm
          exact List.sublist_flatten_of_mem hm
        have hboth : (visits t.toFiles conf fuel' f t.device false
            ++ visits t.toFiles conf fuel' g t.device false).Sublist
              (visited t.toFiles conf fuel) := by
          refine List.Sublist.trans ?_ hsubd
          rw [visits_dir hu hdir hdev']
          refine List.Sublist.cons _ ?_
          have := hcalls.flatMap fun link => visits t.toFiles conf fuel' link t.device false
          simpa using this
        have htwice := hup.sublist hboth
        -- `g` is in the first scan, as it is below `f`, and in the second one
        obtain ⟨fuel2, dev2, top2, -, hfuel2, hsub2⟩ :=
          @exists_visits t conf hu hs hne g hgp (included_self hs hgm rfl) fuel' f t.device false
            hfg (hne _ hfm) (Or.inr rfl) (by omega)
        have hin1 := hsub2.subset (@mem_visits t conf g sg hsg fuel2 dev2 top2 hfuel2)
        have hin2 := @mem_visits t conf g sg hsg fuel' t.device false (by omega)
        exact before_irrefl g ((List.pairwise_append.1 htwice).2.2 _ hin1 _ hin2)
  · intro e r s s' he _ hse _ hp
    have hep := hpath e s he hse
    rw [isSubdir_pos_iff]
    obtain ⟨rfl, hc⟩ | hc := hep.canonical_eq
    · rw [hc] at hp
      by_cases hr : r = [47]
      · exact Or.inl hr
      · exact Or.inr (Or.inr ⟨rfl, hp, hr⟩)
    · rw [hc] at hp
      exact Or.inr (Or.inl hp)

end config

end scan

/-- A directory in a directory in a directory, with two files at the end. -/
def deepTree : Tree :=
  .ofTable
    [([], { mode := 0o040755 }, [nameBytes "a"]),
      (nameBytes "/a", { mode := 0o040755 }, [nameBytes "x"]),
      (nameBytes "/a/x", { mode := 0o040755 }, [nameBytes "1"]),
      (nameBytes "/a/x/1", { mode := 0o040755 }, [nameBytes "3", nameBytes "2"]),
      (nameBytes "/a/x/1/2", { mode := 0o100644 }, []),
      (nameBytes "/a/x/1/3", { mode := 0o100644 }, [])]
    20 (by decide)

/-- Includes below an excluded directory, two of them below another one. -/
def nestedIncludes : Conf where
  incexcdir :=
    [(nameBytes "/a", true), (nameBytes "/a/x", false), (nameBytes "/a/x/1", true),
      (nameBytes "/a/x/1/2", true), (nameBytes "/a/x/1/3", true)]
  startdir := [nameBytes "/a"]

end Burp.Phase1
