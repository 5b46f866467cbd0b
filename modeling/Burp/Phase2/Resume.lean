/-
  Burp.Phase2.Resume — where an interrupted phase 2 goes on.

  `do_resume` goes forward in the phase 2 file to its last whole entry, in the client's list
  behind that entry, and in the unchanged file to just before it.  Whatever data path it comes
  across is shown to the counter, which takes it over if it is a higher one.

  Main results:
    * `atMost_forward` — a counter that goes through a file never goes down.
    * `forwardSbuf_names` — it ends above every name of the file, if it skips none.
    * `doResume_spec` — and so does a resume.
-/
import Burp.Phase2.Dpth
import Burp.Store.Manifest

namespace Burp.Phase2

open FileSystem Burp.Store

/-! ## §1. The code. -/

/-- What `forward_sbuf` gives: the counter, the entry that it ends with, and what comes after
the position in the file. -/
structure Forward where
  dpth : Dpth
  sb : Sbuf
  rest : Bytes

/-- `forward_sbuf`; each turn takes a byte at least, so the length of the file bounds their
number.  `latest` is the entry before. -/
def forwardSbuf (fill : Bytes → Ars × Sbuf × Bytes) (target : Option Sbuf) (seekback : Bool) :
    Nat → Dpth → Sbuf → Bytes → Option Forward
  | 0, _, _, _ => none
  | fuel + 1, d, latest, b =>
      let r := fill b
      match setDpthFromString d r.2.1.datapth with
      | none => none
      | some d =>
          match r.1 with
          | .error => none
          | .ended => some { dpth := d, sb := latest, rest := r.2.2 }
          | .ok =>
              if target.any fun target => sbufPathcmp target r.2.1 ≤ 0 then
                some { dpth := d, sb := r.2.1, rest := if seekback then b else r.2.2 }
              else forwardSbuf fill target seekback fuel d r.2.1 r.2.2

/-- `forward_sbuf` from the start of a file. -/
def forwardFile (fill : Bytes → Ars × Sbuf × Bytes) (target : Option Sbuf) (seekback : Bool)
    (d : Dpth) (b : Bytes) : Option Forward :=
  forwardSbuf fill target seekback (b.length + 1) d {} b

/-- `read_phase1`. -/
def readPhase1 (b : Bytes) : Bool :=
  decide ((fills sbufFillPhase1 (b.length + 1) b).2.1 = .ended)

/-- The contents of the three files of an interrupted phase 2. -/
structure Interrupted where
  phase1 : Bytes
  phase2 : Bytes
  unchanged : Bytes

/-- Where phase 2 goes on: the counter, and what comes after the positions in the files. -/
structure Resumed where
  dpth : Dpth
  phase1 : Bytes
  phase2 : Bytes
  unchanged : Bytes

/-- `do_resume`. -/
def doResume (conf : Conf) (files : Interrupted) (d : Dpth) : Option Resumed :=
  if readPhase1 files.phase1 then do
    let p2btmp ← forwardFile sbufFill none false d files.phase2
    let p2b ← forwardFile sbufFill (some p2btmp.sb) false p2btmp.dpth files.phase2
    let p1b ← forwardFile sbufFillPhase1 (some p2b.sb) false p2b.dpth files.phase1
    let ucb ← forwardFile sbufFill (some p2b.sb) true p1b.dpth files.unchanged
    if (incrDpth conf ucb.dpth).2 then
      some { dpth := (incrDpth conf ucb.dpth).1
             phase1 := p1b.rest
             phase2 := p2b.rest
             unchanged := ucb.rest }
    else none
  else none

/-- The counter that phase 2 starts with. -/
def startDpth (conf : Conf) (t : Node) (currentdata : Path) (resume : Option Interrupted) :
    Option Dpth :=
  let d := (initDpth conf t currentdata).1
  if (initDpth conf t currentdata).2 then
    match resume with
    | none => some d
    | some files => (doResume conf files d).map Resumed.dpth
  else none

/-! ## §2. The counter on the way. -/

/-- Not after, in the order in which the numbers are counted. -/
def AtMost (x y : Nat × Nat × Nat) : Prop := ¬ Before y x

theorem AtMost.refl (x : Nat × Nat × Nat) : AtMost x x := Before.irrefl x

theorem AtMost.trans {x y z : Nat × Nat × Nat} (h : AtMost x y) (h' : AtMost y z) :
    AtMost x z := by
  unfold AtMost Before at *
  omega

theorem AtMost.before {x y z : Nat × Nat × Nat} (h : AtMost x y) (h' : Before y z) :
    Before x z := by
  unfold AtMost at h
  unfold Before at *
  omega

theorem Before.atMost {x y : Nat × Nat × Nat} (h : Before x y) : AtMost x y := by
  unfold AtMost Before at *
  omega

/-- The numbers of a data path; a tree path has none. -/
def numbersOf (datapth : Option Bytes) : Option (Nat × Nat × Nat) :=
  match datapth with
  | none => none
  | some p => if p.head? = some 116 then none else parseDpth p

/-- A higher data path that `set_dpth_from_string` does not take over, because one of its
three numbers is a lower one. -/
def Skips (d : Dpth) (datapth : Option Bytes) : Prop :=
  ∃ n, numbersOf datapth = some n ∧ Before d.nums n ∧ (n.1 < d.prim ∨ n.2.1 < d.seco ∨ n.2.2 < d.tert)

/-- **What a data path does to the counter.** -/
theorem setDpthFromString_atMost {d d' : Dpth} {datapth : Option Bytes}
    (h : setDpthFromString d datapth = some d') : AtMost d.nums d'.nums ∧ d'.looped = d.looped
      ∧ ∀ n, numbersOf datapth = some n → (AtMost n d'.nums ↔ ¬ Skips d datapth) := by
  cases datapth with
  | none =>
      simp only [setDpthFromString, Option.some.injEq] at h
      subst h
      exact ⟨.refl _, rfl, by simp [numbersOf]⟩
  | some p =>
      by_cases htree : p.head? = some 116
      · simp only [setDpthFromString, htree, if_true, Option.some.injEq] at h
        subst h
        exact ⟨.refl _, rfl, by simp [numbersOf, htree]⟩
      · have hnums : numbersOf (some p) = parseDpth p := by simp [numbersOf, htree]
        cases hparse : parseDpth p with
        | none => simp [setDpthFromString, htree, hparse] at h
        | some n =>
            obtain ⟨a, b, c⟩ := n
            have hskips : Skips d (some p) ↔ Before d.nums (a, b, c)
                ∧ (a < d.prim ∨ b < d.seco ∨ c < d.tert) := by
              unfold Skips
              rw [hnums, hparse]
              constructor
              · rintro ⟨n, heq, hn⟩
                cases heq
                exact hn
              · exact fun hn => ⟨_, rfl, hn⟩
            rw [hnums, hparse, hskips]
            rcases setDpthFromString_spec h htree hparse with ⟨rfl, hlow⟩ | ⟨heq, hloop, h1, h2, h3⟩
            · refine ⟨.refl _, rfl, ?_⟩
              rintro n ⟨⟩
              unfold AtMost
              tauto
            · rw [heq]
              refine ⟨?_, hloop, ?_⟩
              · unfold AtMost Before Dpth.nums
                simp only
                omega
              · rintro n ⟨⟩
                refine iff_of_true (.refl _) ?_
                rintro ⟨-, hlow⟩
                omega

/-- The counter skips none of some data paths. -/
def SkipsNone : Dpth → List (Option Bytes) → Prop
  | _, [] => True
  | d, p :: ps => ¬ Skips d p ∧ ∀ d', setDpthFromString d p = some d' → SkipsNone d' ps

/-- **One turn of `forward_sbuf`**: the counter looks at what has been read; then it is the end
of the file or the target, or there is another turn. -/
theorem forwardSbuf_step {fill : Bytes → Ars × Sbuf × Bytes} {target : Option Sbuf}
    {seekback : Bool} {fuel : Nat} {d : Dpth} {latest : Sbuf} {b : Bytes} {f : Forward}
    (h : forwardSbuf fill target seekback (fuel + 1) d latest b = some f) :
    ∃ d', setDpthFromString d (fill b).2.1.datapth = some d'
      ∧ ((fill b).1 = .ended ∧ f.dpth = d'
        ∨ (fill b).1 = .ok ∧ target ≠ none ∧ f.dpth = d'
        ∨ (fill b).1 = .ok
          ∧ forwardSbuf fill target seekback fuel d' (fill b).2.1 (fill b).2.2 = some f) := by
  unfold forwardSbuf at h
  simp only at h
  cases hset : setDpthFromString d (fill b).2.1.datapth with
  | none => simp [hset] at h
  | some d' =>
      refine ⟨d', rfl, ?_⟩
      simp only [hset] at h
      cases hars : (fill b).1 with
      | error => simp [hars] at h
      | ended =>
          simp only [hars, Option.some.injEq] at h
          exact Or.inl ⟨rfl, by rw [← h]⟩
      | ok =>
          simp only [hars] at h
          by_cases htarget : target.any (fun target => sbufPathcmp target (fill b).2.1 ≤ 0) = true
          · rw [if_pos htarget, Option.some.injEq] at h
            refine Or.inr (Or.inl ⟨rfl, ?_, by rw [← h]⟩)
            rintro rfl
            simp at htarget
          · rw [if_neg htarget] at h
            exact Or.inr (Or.inr ⟨rfl, h⟩)

/-- **A counter that goes through a file never goes down.** -/
theorem atMost_forward {fill : Bytes → Ars × Sbuf × Bytes} {target : Option Sbuf}
    {seekback : Bool} : ∀ {fuel : Nat} {d : Dpth} {latest : Sbuf} {b : Bytes} {f : Forward},
      forwardSbuf fill target seekback fuel d latest b = some f →
      AtMost d.nums f.dpth.nums ∧ f.dpth.looped = d.looped
  | 0, _, _, _, _, h => by cases h
  | fuel + 1, d, latest, b, f, h => by
      obtain ⟨d', hset, ⟨-, rfl⟩ | ⟨-, -, rfl⟩ | ⟨-, hrest⟩⟩ := forwardSbuf_step h
      · exact ⟨(setDpthFromString_atMost hset).1, (setDpthFromString_atMost hset).2.1⟩
      · exact ⟨(setDpthFromString_atMost hset).1, (setDpthFromString_atMost hset).2.1⟩
      · obtain ⟨hle, hloop⟩ := atMost_forward hrest
        exact ⟨(setDpthFromString_atMost hset).1.trans hle,
          hloop.trans (setDpthFromString_atMost hset).2.1⟩

/-- **It ends above every name of the file**, if it skips none. -/
theorem forwardSbuf_names {fill : Bytes → Ars × Sbuf × Bytes} {seekback : Bool} :
    ∀ {fuel : Nat} {d : Dpth} {latest : Sbuf} {b : Bytes} {f : Forward},
      forwardSbuf fill none seekback fuel d latest b = some f →
      SkipsNone d ((fills fill fuel b).1.map fun e => e.datapth) →
      ∀ e ∈ (fills fill fuel b).1, ∀ n, numbersOf e.datapth = some n → AtMost n f.dpth.nums
  | 0, _, _, _, _, h, _ => by cases h
  | fuel + 1, d, latest, b, f, h, hskip => by
      obtain ⟨d', hset, ⟨hended, -⟩ | ⟨-, hne, -⟩ | ⟨hok, hrest⟩⟩ := forwardSbuf_step h
      · have hnil : (fills fill (fuel + 1) b).1 = [] := by
          unfold fills
          generalize fill b = r at hended
          obtain ⟨ars, sb, b'⟩ := r
          rw [show ars = .ended from hended]
        rw [hnil]
        intro e he
        cases he
      · exact absurd rfl hne
      · have hcons : (fills fill (fuel + 1) b).1
          = (fill b).2.1 :: (fills fill fuel (fill b).2.2).1 := by
          rw [fills]
          generalize fill b = r at hok
          obtain ⟨ars, sb, b'⟩ := r
          rw [show ars = .ok from hok]
        rw [hcons, List.map_cons] at hskip
        rw [hcons]
        intro e he n hn
        rcases List.mem_cons.mp he with rfl | he
        · exact (((setDpthFromString_atMost hset).2.2 n hn).mpr hskip.1).trans
            (atMost_forward hrest).1
        · exact forwardSbuf_names hrest (hskip.2 d' hset) e he n hn

/-- **The parts of a resume**: the counter goes through the phase 2 file, goes on without
going down, and is counted up once. -/
theorem doResume_parts {conf : Conf} {files : Interrupted} {d : Dpth} {r : Resumed}
    (h : doResume conf files d = some r) :
    ∃ (p2btmp : Forward) (last : Dpth),
      forwardFile sbufFill none false d files.phase2 = some p2btmp
      ∧ AtMost p2btmp.dpth.nums last.nums ∧ last.looped = d.looped
      ∧ r.dpth = (incrDpth conf last).1 := by
  unfold doResume at h
  split_ifs at h
  cases h2tmp : forwardFile sbufFill none false d files.phase2 with
  | none => simp [h2tmp] at h
  | some p2btmp =>
  cases h2 : forwardFile sbufFill (some p2btmp.sb) false p2btmp.dpth files.phase2 with
  | none => simp [h2tmp, h2] at h
  | some p2b =>
  cases h1 : forwardFile sbufFillPhase1 (some p2b.sb) false p2b.dpth files.phase1 with
  | none => simp [h2tmp, h2, h1] at h
  | some p1b =>
  cases hu : forwardFile sbufFill (some p2b.sb) true p1b.dpth files.unchanged with
  | none => simp [h2tmp, h2, h1, hu] at h
  | some ucb =>
      simp only [h2tmp, h2, h1, hu, Option.bind_eq_bind, Option.bind_some] at h
      split_ifs at h
      rw [Option.some.injEq] at h
      subst h
      obtain ⟨-, hloop2tmp⟩ := atMost_forward h2tmp
      obtain ⟨hle2, hloop2⟩ := atMost_forward h2
      obtain ⟨hle1, hloop1⟩ := atMost_forward h1
      obtain ⟨hleu, hloopu⟩ := atMost_forward hu
      exact ⟨p2btmp, ucb.dpth, rfl, (hle2.trans hle1).trans hleu, by omega, rfl⟩

theorem doResume_tert {conf : Conf} {files : Interrupted} {d : Dpth} {r : Resumed}
    (h : doResume conf files d = some r) : r.dpth.tert ≤ 0xFFFF := by
  obtain ⟨p2btmp, last, -, -, -, heq⟩ := doResume_parts h
  rw [heq]
  exact incrDpth_tert conf last

/-- **What a resume does to the counter**: it ends above where it has been and above every name
of the phase 2 file, if it skips none of them and does not start again from zero. -/
theorem doResume_spec {conf : Conf} {files : Interrupted} {d : Dpth} {r : Resumed}
    (h : doResume conf files d = some r) (hloop : r.dpth.looped = 0)
    (hskip : SkipsNone d ((entries files.phase2).1.map fun e => e.datapth)) :
    d.looped = 0 ∧ Before d.nums r.dpth.nums
      ∧ ∀ e ∈ (entries files.phase2).1, ∀ n, numbersOf e.datapth = some n →
        Before n r.dpth.nums := by
  obtain ⟨p2btmp, last, hforward, hle, hlooped, heq⟩ := doResume_parts h
  rw [heq] at hloop ⊢
  have hwraps : ¬ Wraps conf last := by
    rintro ⟨hw1, hw2, hw3⟩
    unfold incrDpth at hloop
    rw [if_neg (by omega), if_neg (by omega), if_neg (by omega)] at hloop
    simp at hloop
  obtain ⟨hlt, hsame, -⟩ := incrDpth_lt hwraps
  refine ⟨by omega, ((atMost_forward hforward).1.trans hle).before hlt, ?_⟩
  intro e he n hn
  have hname : AtMost n p2btmp.dpth.nums := forwardSbuf_names hforward hskip e he n hn
  exact (hname.trans hle).before hlt

end Burp.Phase2
