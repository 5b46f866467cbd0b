/-
  Burp.Server.Interrupted — what is done about an interrupted backup.

  `check_for_rubble` looks for what an earlier backup of the client has left behind.  With the
  method "resume" the backup is resumed if the include/exclude text of the client is what it was
  then.  `incexc_matches` reads the old text in pieces and moves along the new one as long as
  they are the same, and goes by what is left of the new one: what is left of the old one is
  not looked at if the new one is used up.

  Main results:
    * `checkForRubble_resumes_iff` — when a backup is resumed.
    * `incexcMatches_iff` — the comparison is right unless the new text is the beginning of the
      old one, up to the end of a piece.
-/
import Burp.Phase2.Dpth

namespace Burp.Server

open FileSystem Burp.Store Burp.Phase2

/-! ## §1. The code. -/

/-- `sizeof(buf)`, which is how much `fread` reads at a time. -/
def pieceSize : Nat := 4096

/-- `strncmp(a, b, n)` finds no difference.  Behind the end of a string there is a NUL. -/
def strncmpSame : Nat → Bytes → Bytes → Bool
  | 0, _, _ => true
  | n + 1, a, b =>
      if a.headD 0 ≠ b.headD 0 then false
      else if a.headD 0 = 0 then true
      else strncmpSame n a.tail b.tail

/-- The loop of `incexc_matches`: what is left of `inc` when it ends.  Every turn but the last
one reads something of the file, so that its length is fuel enough. -/
def compareLoop : Nat → Bytes → Bytes → Bytes
  | 0, _, inc => inc
  | fuel + 1, file, inc =>
      let buf := file.take pieceSize
      -- `fread` gets nothing
      if buf = [] then inc
      -- the text is over, which is not looked at again where nothing is left of it
      else if inc.length < buf.length then inc
      else if strncmpSame buf.length buf inc = false then inc
      else compareLoop fuel (file.drop pieceSize) (inc.drop buf.length)

/-- `incexc_matches`, for the contents of the old file if it can be opened. -/
def incexcMatches (old : Option Bytes) (incexc : Bytes) : Nat :=
  match old with
  -- the client was on an old version
  | none => 1
  | some file => if compareLoop (file.length + 1) file (cString incexc) ≠ [] then 0 else 1

/-- What `check_for_rubble` finds. -/
structure Rubble where
  /-- There is something at `finishing`. -/
  finishing : Bool
  /-- What there is at `working`, if there is something: a symlink or not. -/
  working : Option Bool
  /-- The directory that `working` points to is there. -/
  realwork : Bool
  /-- The log in it can be opened. -/
  logOpens : Bool
  /-- There is something at the temporary name of `phase1data`. -/
  phase1datatmp : Bool
  /-- The file `incexc` in it. -/
  incexc : Option Bytes

/-- What `check_for_rubble` decides on. -/
inductive Decision
  | finishPrior | nothing | error | unlinkWorking | deleteWorking | resume | useAsItIs
  deriving DecidableEq, Repr

/-- `check_for_rubble`, up to what it decides on. -/
def checkForRubble (r : Rubble) (wdrm incexc : Bytes) : Decision :=
  if r.finishing then .finishPrior
  else
    match r.working with
    | none => .nothing
    | some false => .error
    | some true =>
        if !r.realwork then .unlinkWorking
        else if !r.logOpens then .error
        else
          -- phase 1 did not complete
          let wdrm := if r.phase1datatmp then nameBytes "delete" else wdrm
          if wdrm = nameBytes "delete" then .deleteWorking
          else if wdrm = nameBytes "resume" then
            if incexcMatches r.incexc incexc ≠ 0 then .resume else .useAsItIs
          else if wdrm = nameBytes "use" then .useAsItIs
          else .error

/-! ## §2. The comparison. -/

/-- A piece that is not longer than the string is compared as a whole: the string has no NUL. -/
theorem strncmpSame_iff {a b : Bytes} (hb : 0 ∉ b) (hlen : a.length ≤ b.length) :
    strncmpSame a.length a b = true ↔ a <+: b := by
  induction a generalizing b with
  | nil => simp [strncmpSame]
  | cons x a ih =>
      cases b with
      | nil => simp at hlen
      | cons y b =>
          have hy : y ≠ 0 := fun h => hb (by simp [h])
          have hrest := ih (fun h => hb (List.mem_cons_of_mem _ h)) (by simpa using hlen)
          by_cases hxy : x = y
          · subst hxy
            simp [strncmpSame, hy, hrest, List.cons_prefix_cons]
          · simp [strncmpSame, hxy, List.cons_prefix_cons]

/-- The loop uses the text up if it is the file, or the beginning of the file up to the end of
a piece. -/
theorem compareLoop_eq_nil {inc : Bytes} (hinc : 0 ∉ inc) {file : Bytes} {fuel : Nat}
    (hfuel : file.length < fuel) :
    compareLoop fuel file inc = [] ↔ inc <+: file ∧ (inc = file ∨ pieceSize ∣ inc.length) := by
  induction fuel generalizing file inc with
  | zero => omega
  | succ fuel ih =>
      have hsplit := List.take_append_drop pieceSize file
      have hbuf : (file.take pieceSize).length = min 4096 file.length := List.length_take
      unfold compareLoop
      simp only
      split_ifs with hend hshort hdiffers
      · -- the end of the file
        have hfile : file = [] := by
          rw [← List.length_eq_zero_iff] at hend ⊢
          omega
        subst hfile
        simp only [List.prefix_nil]
        constructor
        · rintro rfl
          exact ⟨rfl, Or.inl rfl⟩
        · exact fun h => h.1
      · constructor
        · rintro rfl
          exact ⟨List.nil_prefix, Or.inr (by simp)⟩
        · rintro ⟨hpre, rfl | hdvd⟩
          · omega
          · have : inc.length < 4096 := by omega
            exact List.length_eq_zero_iff.mp (Nat.eq_zero_of_dvd_of_lt hdvd this)
      · have hle : (file.take pieceSize).length ≤ inc.length := by omega
        have hnot : ¬ file.take pieceSize <+: inc := by
          intro h
          rw [(strncmpSame_iff hinc hle).mpr h] at hdiffers
          cases hdiffers
        constructor
        · rintro rfl
          exact absurd (List.length_eq_zero_iff.mp (by simpa using hle)) hend
        · rintro ⟨hpre, -⟩
          exact absurd (List.prefix_of_prefix_length_le (List.take_prefix _ _) hpre hle) hnot
      · have hle : (file.take pieceSize).length ≤ inc.length := by omega
        have hpre : file.take pieceSize <+: inc :=
          (strncmpSame_iff hinc hle).mp (by simpa using hdiffers)
        have hpiece : 0 < (file.take pieceSize).length := List.length_pos_iff.mpr hend
        have hrest : (file.drop pieceSize).length < fuel := by
          rw [List.length_drop, pieceSize]
          omega
        -- the last piece may be shorter than the others
        have hwhole : (file.take pieceSize).length = pieceSize ∨ file.drop pieceSize = [] := by
          by_cases hlast : file.length < 4096
          · exact Or.inr (List.drop_eq_nil_of_le (by rw [pieceSize]; omega))
          · exact Or.inl (by rw [hbuf, pieceSize]; omega)
        generalize file.take pieceSize = piece at hsplit hpre hwhole ⊢
        generalize file.drop pieceSize = rest at hsplit hrest hwhole ⊢
        obtain ⟨left, rfl⟩ := hpre
        subst hsplit
        rw [List.drop_left, ih (fun h => hinc (List.mem_append_right _ h)) hrest,
          List.prefix_append_right_inj, List.append_right_inj, List.length_append]
        rcases hwhole with hfull | rfl
        · rw [hfull, Nat.dvd_add_right (dvd_refl pieceSize)]
        · rw [List.prefix_nil]
          exact ⟨fun h => ⟨h.1, Or.inl h.1⟩, fun h => ⟨h.1, Or.inl h.1⟩⟩

theorem incexcMatches_some (file incexc : Bytes) :
    incexcMatches (some file) incexc = 1
      ↔ cString incexc <+: file
        ∧ (cString incexc = file ∨ pieceSize ∣ (cString incexc).length) := by
  rw [← compareLoop_eq_nil (zero_notMem_cString incexc) (Nat.lt_succ_self file.length),
    incexcMatches]
  split_ifs with h
  · simpa using h
  · simpa using h

/-- **The include/exclude text matches** exactly the file that cannot be opened or has it as
its contents, unless the text is the beginning of a longer file up to the end of a piece. -/
theorem incexcMatches_iff (old : Option Bytes) (incexc : Bytes) :
    (incexcMatches old incexc = 1 ↔ ∀ file, old = some file → file = cString incexc)
      ↔ ∀ file, old = some file → cString incexc <+: file →
        pieceSize ∣ (cString incexc).length → file = cString incexc := by
  cases old with
  | none => simp [incexcMatches]
  | some file =>
      simp only [incexcMatches_some, Option.some.injEq, forall_eq']
      constructor
      · intro h hpre hdvd
        exact h.mp ⟨hpre, Or.inr hdvd⟩
      · intro h
        constructor
        · rintro ⟨hpre, heq | hdvd⟩
          · exact heq.symm
          · exact h hpre hdvd
        · intro heq
          exact ⟨heq ▸ List.prefix_refl _, Or.inl heq.symm⟩

/-- An include line with a name of `n` characters. -/
def includeLine (n : Nat) : Bytes := nameBytes "include=/" ++ List.replicate n 97 ++ [10]

theorem cString_includeLine (n : Nat) : cString (includeLine n) = includeLine n := by
  have hstart : (0 : UInt8) ∉ nameBytes "include=/" := by decide
  refine cString_of_notMem ?_
  rw [includeLine, List.mem_append, List.mem_append, List.mem_replicate]
  rintro ((h | h) | h)
  · exact hstart h
  · simp at h
  · simp at h

theorem length_includeLine (n : Nat) : (includeLine n).length = n + 10 := by
  have hstart : (nameBytes "include=/").length = 9 := by decide
  rw [includeLine, List.length_append, List.length_append, List.length_replicate, hstart,
    List.length_singleton]
  omega

/-- A line that is as long as a piece; the client had an exclude as well when the backup was
interrupted. -/
theorem incexcMatches_includeLine :
    ¬ (incexcMatches (some (includeLine 4086 ++ nameBytes "exclude=/b\n")) (includeLine 4086) = 1
      ↔ ∀ file, some (includeLine 4086 ++ nameBytes "exclude=/b\n") = some file →
        file = cString (includeLine 4086)) := by
  have hexclude : nameBytes "exclude=/b\n" ≠ [] := by decide
  have hlen : pieceSize ∣ (includeLine 4086).length := by
    rw [length_includeLine]
    exact dvd_refl pieceSize
  rw [incexcMatches_some, cString_includeLine]
  intro h
  have hfile := h.mp ⟨List.prefix_append _ _, Or.inr hlen⟩ _ rfl
  exact hexclude (List.append_right_eq_self.mp hfile)

/-! ## §3. The decision. -/

/-- **A backup is resumed** if that is the method, phase 1 has completed and the texts match. -/
theorem checkForRubble_resumes_iff (r : Rubble) (wdrm incexc : Bytes) :
    checkForRubble r wdrm incexc = .resume
      ↔ (r.finishing = false ∧ r.working = some true ∧ r.realwork = true ∧ r.logOpens = true
          ∧ r.phase1datatmp = false)
        ∧ wdrm = nameBytes "resume" ∧ incexcMatches r.incexc incexc ≠ 0 := by
  unfold checkForRubble
  cases r.finishing with
  | true => simp
  | false =>
      rcases r.working with _ | _ | _
      · simp
      · simp
      · simp only [Bool.false_eq_true, if_false]
        cases r.realwork with
        | false => simp
        | true =>
            cases r.logOpens with
            | false => simp
            | true =>
                cases r.phase1datatmp with
                | true => simp
                | false =>
                    have hmethods : nameBytes "resume" ≠ nameBytes "delete" := by decide
                    simp only [Bool.not_true, Bool.false_eq_true, if_false]
                    split_ifs with hdelete hresume hmatch huse
                    · simp [hdelete, hmethods.symm]
                    · simp [hresume, hmatch]
                    · simp [hmatch]
                    · simp [hresume]
                    · simp [hresume]

end Burp.Server
