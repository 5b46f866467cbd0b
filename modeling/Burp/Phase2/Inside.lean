/-
  Burp.Phase2.Inside — where phase 2 writes.

  A file is received into data.tmp, under numbers or under the path that the client gives,
  and a delta is put into deltas.forward, under the data path that the client gives.  Neither
  of the two texts is looked at, so that a client can lead the server up from there.  As long
  as they do not lead further up than the working directory, everything that the server makes,
  opens or renames to is in the working directory.

  Main results:
    * `touched_inside` — texts that stay keep the server in the working directory.
    * `client_leads_out` — a data path that does not.
-/
import Burp.Phase2.Steps

namespace Burp.Phase2

open FileSystem Burp.Store

/-! ## §1. The condition. -/

instance : ∀ (k : Nat) (cs : List Bytes), Decidable (Stays k cs)
  | _, [] => isTrue trivial
  | k, c :: cs =>
      have : Decidable (Stays k cs) := instDecidableStays k cs
      have : Decidable (Stays (k - 1) cs) := instDecidableStays (k - 1) cs
      have : Decidable (Stays (k + 1) cs) := instDecidableStays (k + 1) cs
      inferInstanceAs (Decidable (if c = [] ∨ c = [46] then Stays k cs
        else if c = [46, 46] then 0 < k ∧ Stays (k - 1) cs else Stays (k + 1) cs))

/-- The data path of a delta that ends leads no further up than the working directory, which
is above deltas.forward. -/
def DeltaStays (t : Turn) (s : State) : Prop :=
  match t.arrival with
  | .message .endFile _ => s.rb.isOpen = true → s.rb.receivedelta = true →
      Stays 1 ((cString (s.rb.sb.datapth.getD [])).splitOn 47)
  | _ => True

/-- The path of a whole file that begins leads no further up either, if it goes into the tree
in data.tmp/t. -/
def TreeStays (conf : Conf) (t : Turn) (s : State) : Prop :=
  match t.arrival with
  | .message cmd text => s.rb.isOpen = false → s.rb.sb.datapth = none → cmd.filedata = true →
      inTree conf { s.rb.sb with cmd := cmd, path := some text } = true →
      Stays 2 ((cString text).splitOn 47)
  | _ => True

/-- What the client sends in a turn leads no further up than the working directory. -/
def ClientStays (conf : Conf) (t : Turn) (s : State) : Prop :=
  receives t s = true → DeltaStays t s ∧ TreeStays conf t s

instance (t : Turn) (s : State) : Decidable (DeltaStays t s) := by
  unfold DeltaStays
  split <;> infer_instance

instance (conf : Conf) (t : Turn) (s : State) : Decidable (TreeStays conf t s) := by
  unfold TreeStays
  split <;> infer_instance

instance (conf : Conf) (t : Turn) (s : State) : Decidable (ClientStays conf t s) :=
  inferInstanceAs (Decidable (_ → _))

/-! ## §2. Paths that are put together. -/

/-- A component that leads down. -/
def Down (c : Bytes) : Prop := c ≠ [] ∧ c ≠ [46] ∧ c ≠ [46, 46]

/-- After components that lead down, it is further up to the top. -/
theorem stays_down : ∀ {cs : List Bytes} (ds : List Bytes) {k : Nat}, (∀ c ∈ cs, Down c) →
    Stays (k + cs.length) ds → Stays k (cs ++ ds)
  | [], _, _, _, h => h
  | c :: cs, ds, k, hcs, h => by
      obtain ⟨hnil, hdot, hup⟩ := hcs c List.mem_cons_self
      have hskip : ¬ (c = [] ∨ c = [46]) := by
        rintro (hc | hc)
        · exact hnil hc
        · exact hdot hc
      rw [List.cons_append]
      unfold Stays
      rw [if_neg hskip, if_neg hup]
      refine stays_down _ (fun c' hc' => hcs c' (List.mem_cons_of_mem _ hc')) ?_
      rw [Nat.add_assoc, Nat.add_comm 1]
      exact h

/-- A text that is put behind a directory, and what is made on the way to it, is inside. -/
theorem inside_prependS {w : World} {dir limit fname : Bytes} {cs : List Bytes}
    (hne : limit ≠ []) (hlimit : limit.splitOn 47 = dir.splitOn 47 ++ cs)
    (hcs : ∀ c ∈ cs, Down c) (hstays : Stays cs.length ((cString fname).splitOn 47)) :
    ∀ p, p = prependS limit fname ∨ p ∈ (mkpath w limit (prependS limit fname)).1 →
      Inside dir p := by
  obtain ⟨ds, hsplit, hds⟩ : ∃ ds, (prependS limit fname).splitOn 47 = limit.splitOn 47 ++ ds
      ∧ Stays cs.length ds := by
    rcases prependS_eq fname hne with heq | ⟨b, heq, hb⟩
    · exact ⟨[], by rw [heq, List.append_nil], trivial⟩
    · exact ⟨b.splitOn 47, by rw [heq, splitOn_slash], hb _ hstays⟩
  have hall : Stays 0 (cs ++ ds) := stays_down _ hcs (by rwa [Nat.zero_add])
  rintro p (rfl | hp)
  · exact inside_of_stays _ hall (by rw [hsplit, hlimit, List.append_assoc])
  · exact inside_of_made hlimit hsplit hall p hp

/-- A text behind a name. -/
theorem stays_prependS {name fname : Bytes} {k : Nat} (hdown : Down name)
    (hslash : (47 : UInt8) ∉ name) (hzero : (0 : UInt8) ∉ name)
    (hstays : Stays (k + 1) ((cString fname).splitOn 47)) :
    Stays k ((cString (prependS name fname)).splitOn 47) := by
  have hname : name.splitOn 47 = [name] := List.splitOn_eq_singleton hslash
  have hcs : ∀ c ∈ [name], Down c := by
    intro c hc
    rw [List.mem_singleton.mp hc]
    exact hdown
  have hstr : cString (prependS name fname) = prependS name fname := by
    refine cString_of_notMem ?_
    have hcut : (0 : UInt8) ∉ cString fname := by
      intro hmem
      simpa using List.mem_takeWhile_imp hmem
    unfold prependS
    simp only [if_neg hdown.1, List.mem_append, not_or]
    refine ⟨⟨hzero, by split_ifs <;> decide⟩, ?_⟩
    split_ifs
    · exact fun hmem => hcut (List.mem_of_mem_tail hmem)
    · exact hcut
  rw [hstr]
  rcases prependS_eq fname hdown.1 with heq | ⟨b, heq, hb⟩
  · rw [heq, hname]
    exact stays_down [] hcs trivial
  · rw [heq, splitOn_slash, hname]
    exact stays_down _ hcs (hb _ hstays)

/-- The data path of a number stays where it is. -/
theorem stays_mkDpth (conf : Conf) (d : Dpth) (cmd : Cmd) (k : Nat) :
    Stays k ((cString (mkDpth conf d cmd)).splitOn 47) := by
  have hdown : ∀ (n : Nat) (rest : Bytes), Down (hexPad n ++ rest) := by
    intro n rest
    have hdot : ∀ d : Fin 16, hexDigit d ≠ 46 := by decide
    obtain ⟨d, e, b, hb⟩ := hexPad_cons n
    rw [hb]
    refine ⟨by simp, by simp, ?_⟩
    intro h
    exact hdot d (List.cons.inj h).1
  rw [cString_mkDpth, splitOn_mkDpth, ← List.append_nil [_, _, _]]
  refine stays_down _ ?_ trivial
  intro c hc
  simp only [List.mem_cons, List.not_mem_nil, or_false] at hc
  rcases hc with rfl | rfl | rfl
  · simpa using hdown d.prim []
  · simpa using hdown d.seco []
  · exact hdown d.tert _

/-! ## §3. What is touched. -/

section Touched

variable {conf : Conf} {working : Bytes} {t : Turn} {s : State}

/-- Everything touched is in the working directory. -/
def TouchesInside (working : Bytes) (s : State) : Prop :=
  ∀ path, Event.touched path ∈ s.log → Inside working path

theorem TouchesInside.append {s' : State} {es : List Event} (h : TouchesInside working s)
    (hlog : s'.log = s.log ++ es) (hes : ∀ path, Event.touched path ∈ es → Inside working path) :
    TouchesInside working s' := by
  intro path hmem
  rw [hlog, List.mem_append] at hmem
  rcases hmem with hmem | hmem
  · exact h path hmem
  · exact hes path hmem

/-- What is in the working directory under a name of the server. -/
theorem splitOn_prependS {name : Bytes} (hworking : working ≠ []) (hname : name ≠ [])
    (hslash : (47 : UInt8) ∉ name) (hzero : (0 : UInt8) ∉ name) :
    (prependS working name).splitOn 47 = working.splitOn 47 ++ [name] := by
  have hhead : name.head? ≠ some 47 := by
    intro h
    exact hslash (List.mem_of_mem_head? h)
  unfold prependS
  simp only [if_neg hworking, cString_of_notMem hzero, if_neg hhead, if_neg hname]
  rw [List.append_assoc, List.singleton_append, splitOn_slash, List.splitOn_eq_singleton hslash]

/-- **A whole file** is received in the working directory. -/
theorem whole_inside (hworking : working ≠ []) (d : Dpth) {sb : Sbuf}
    (htree : inTree conf sb = true → Stays 2 ((cString (sb.path.getD [])).splitOn 47)) :
    ∀ p, p = wholeRpath conf working d sb
      ∨ p ∈ (mkpath t.world (datadirtmp working) (wholeRpath conf working d sb)).1 →
      Inside working p := by
  have hlimit : (datadirtmp working).splitOn 47 = working.splitOn 47 ++ [nameBytes "data.tmp"] :=
    splitOn_prependS hworking (by decide) (by decide) (by decide)
  have hne : datadirtmp working ≠ [] := by
    intro h
    rw [h] at hlimit
    have hlen := congrArg List.length hlimit
    simp at hlen
  refine inside_prependS hne hlimit ?_ ?_
  · intro c hc
    rw [List.mem_singleton.mp hc]
    exact ⟨by decide, by decide, by decide⟩
  · unfold wholeDatapth
    split_ifs with hin
    · exact stays_prependS ⟨by decide, by decide, by decide⟩ (by decide) (by decide) (htree hin)
    · exact stays_mkDpth conf d sb.cmd _

/-- **A delta** is put in the working directory. -/
theorem delta_inside (hworking : working ≠ []) {rb : Receiving}
    (hstays : rb.receivedelta = true → Stays 1 ((cString (rb.sb.datapth.getD [])).splitOn 47)) :
    ∀ p ∈ finishPaths working t rb, Inside working p := by
  intro p hp
  unfold finishPaths at hp
  split_ifs at hp with hdelta
  · have hall := @inside_prependS t.world working working
      (prependS (nameBytes "deltas.forward") (rb.sb.datapth.getD [])) [] hworking
      (List.append_nil _).symm (by simp)
      (stays_prependS ⟨by decide, by decide, by decide⟩ (by decide) (by decide) (hstays hdelta))
    apply hall
    unfold finishDelta at hp
    simp only at hp
    split_ifs at hp
    · rcases List.mem_append.mp hp with hp | hp
      · exact Or.inr hp
      · exact Or.inl (List.mem_singleton.mp hp)
    · exact Or.inr hp
  · cases hp

/-- The delta is received in the working directory. -/
theorem deltmppath_inside (hworking : working ≠ []) : Inside working (deltmppath working) :=
  inside_of_stays [nameBytes "delta.tmp"] (by simp [Stays, nameBytes])
    (splitOn_prependS hworking (by decide) (by decide) (by decide))

/-- **Receiving.** -/
theorem receive_inside (hworking : working ≠ []) (h : TouchesInside working s)
    (hdelta : DeltaStays t s) (htree : TreeStays conf t s) :
    TouchesInside working (doStuffToReceive conf working t s).1 := by
  apply doStuffToReceive_cases (P := fun r : State × Loop => TouchesInside working r.1)
  case idle => intro lr; exact h
  case done => intro text _; exact h
  case error => exact h
  case datapth => intro text _ _; exact h
  case stat => intro text _ _; exact h
  case delta =>
    intro cmd text _ _ _ _
    obtain ⟨hrec, -⟩ := startToReceiveDelta_spec working t
      { s.rb.sb with cmd := cmd, path := some text } s
    refine h.append hrec.log ?_
    intro path hmem
    rw [List.mem_singleton, Event.touched.injEq] at hmem
    rw [hmem]
    exact deltmppath_inside hworking
  case whole =>
    intro cmd text harr hopen hdata hnone
    obtain ⟨paths, hrec, hpaths, -⟩ := startToReceiveNewFile_spec conf working t
      { s.rb.sb with cmd := cmd, path := some text } s
    refine h.append hrec.log ?_
    intro path hmem
    have hpath : path ∈ paths := by
      rcases List.mem_append.mp hmem with hmem | hmem
      · split_ifs at hmem
        · cases hmem
        · simp at hmem
      · simpa using hmem
    unfold TreeStays at htree
    rw [harr] at htree
    exact whole_inside hworking s.dpth (htree hopen hnone hdata) path (hpaths path hpath)
  case ended =>
    intro text harr hopen
    obtain ⟨es, hrec, -, -, paths, hpaths, hes⟩ := receiveEnd_spec working t text s
    refine h.append hrec.log ?_
    intro path hmem
    have hpath : path ∈ paths := by
      rcases hes with ⟨-, hes, -⟩ | ⟨-, hes | hes⟩
      all_goals
        rw [hes] at hmem
        simpa using hmem
    unfold DeltaStays at hdelta
    rw [harr] at hdelta
    exact delta_inside hworking (hdelta hopen) path (hpaths path hpath)

/-- **One turn.** -/
theorem turn_inside (hworking : working ≠ []) (h : TouchesInside working s)
    (hcond : ClientStays conf t s) : TouchesInside working (turn conf working t s).1 := by
  apply turn_keeps h
  case hreceive => intro hr; exact receive_inside hworking h (hcond hr).1 (hcond hr).2
  case hsend =>
    intro s' hs'
    obtain ⟨⟨es, hsends⟩, -⟩ := doStuffToSend_spec t s'
    refine hs'.append hsends.log ?_
    intro path hmem
    have hmessage := hsends.messages _ hmem
    simp [Event.isMessage] at hmessage
  case hnext =>
    intro s' hs'
    obtain ⟨es, hadv, hes⟩ := nextEntry_spec conf t s'
    refine hs'.append hadv.log ?_
    intro path hmem
    rcases hes _ hmem with hmessage | ⟨sb, heq⟩ | ⟨f, writer, sb, -, -, heq, -⟩
    · simp [Event.isMessage] at hmessage
    · cases heq
    · cases heq

end Touched

/-- **Everything stays inside**: if nothing that the client sends in a run leads further up
than the working directory, then every path that phase 2 makes, opens for writing or renames
to is in the working directory. -/
theorem touched_inside (conf : Conf) (working : Bytes) (ts : List Turn) (s : State)
    (hworking : working ≠ []) (hlog : s.log = [])
    (hcond : Throughout conf working (ClientStays conf) ts s) :
    ∀ path, Event.touched path ∈ (run conf working ts s).1.log → Inside working path := by
  refine run_keeps (P := TouchesInside working) (fun t s => turn_inside hworking) ts s ?_ hcond
  intro path hmem
  rw [hlog] at hmem
  cases hmem

/-- A client that sends a delta against the file of a data path. -/
def deltaTurns (datapth : Bytes) : List Turn :=
  [{}, { arrival := .message .datapth datapth }, { arrival := .message .stat [65] },
   { arrival := .message .file [97] }, { arrival := .message .endFile [48] }]

/-- The client's list at its end. -/
def atEnd : State := { p1 := some [], cman := none }

theorem honest_delta_inside :
    (Event.touched (nameBytes "w/deltas.forward/0000/0000/0001")
        ∈ (run {} (nameBytes "w") (deltaTurns (nameBytes "0000/0000/0001")) atEnd).1.log)
      ∧ ∀ path, Event.touched path
          ∈ (run {} (nameBytes "w") (deltaTurns (nameBytes "0000/0000/0001")) atEnd).1.log →
        Inside (nameBytes "w") path :=
  ⟨by decide, touched_inside {} _ _ atEnd (by decide) rfl (by decide)⟩

/-! ## §4. A client that leads the server out. -/

instance (dir path : Bytes) : Decidable (Inside dir path) :=
  inferInstanceAs (Decidable (_ <+: _))

/-- **The client leads the server out** of the working directory: deltas.forward is there from
an earlier delta, so that `mkpath` finds the directory that it looks for, and the delta is
renamed to a place next to the working directory. -/
theorem client_leads_out :
    ¬ ∀ (conf : Conf) (working : Bytes) (ts : List Turn) (s : State), working ≠ [] → s.log = [] →
        s.rb = {} → ∀ path, Event.touched path ∈ (run conf working ts s).1.log →
          Inside working path := by
  intro hall
  have hinside := hall {} (nameBytes "b/w") (deltaTurns (nameBytes "../../x")) atEnd (by decide)
    rfl rfl (nameBytes "b/w/deltas.forward/../../x") (by decide)
  exact absurd hinside (by decide)

end Burp.Phase2
