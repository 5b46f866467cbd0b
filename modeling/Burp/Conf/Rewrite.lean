/-
  Burp.Conf.Rewrite — changing one value in a configuration file (ca_client.c).

  When a client has its certificate it puts the name of the server into its configuration.  It
  copies the file in the pieces that `fgets` gives, and puts another line for those that set
  `ssl_peer_cn`.

  Main results:
    * `fgetsPieces_flatten` — pieces that were put together are read as themselves.
    * `rewriteClientConf_pairs` — the pairs of the new file are those of the old one, with the
      new value.
    * `loadConfigLines_rewriteClientConf` — what is loaded from it says the same about backups.
-/
import Burp.Conf.Load

namespace Burp.Conf

open FileSystem Burp.Store
open Burp.Backups.OnDisk (isSpace)
open Burp.Phase2 (nameBytes)

/-! ## §1. The code. -/

/-- The field that is changed. -/
def peerCnField : Bytes := nameBytes "ssl_peer_cn"

/-- The line that is put in its place. -/
def peerCnLine (cn : Bytes) : Bytes := peerCnField ++ ([32, 61, 32] ++ cn) ++ [10]

/-- What is written for a piece. -/
def rewrittenLine (cn piece : Bytes) : Bytes :=
  match configGetPair (cString piece) with
  | some (some (field, _)) => if field = peerCnField then peerCnLine cn else cString piece
  | _ => cString piece

/-- `rewrite_client_conf`, from the contents of the file to its new contents. -/
def rewriteClientConf (cn b : Bytes) : Bytes :=
  ((fgetsPieces b.length b).map (rewrittenLine cn)).flatten

/-! ## §2. The pieces of a file. -/

/-- Pieces as `fgets` gives them: lines, and what fills the buffer. -/
inductive Pieces : List Bytes → Prop
  | nil : Pieces []
  | line {l : Bytes} {ps : List Bytes} (hl : 10 ∉ l) (hlen : l.length < 4095) (h : Pieces ps) :
      Pieces ((l ++ [10]) :: ps)
  | full {p : Bytes} {ps : List Bytes} (hp : 10 ∉ p) (hlen : p.length = 4095) (h : Pieces ps) :
      Pieces (p :: ps)
  | last {p : Bytes} (hp : 10 ∉ p) (hne : p ≠ []) (hlen : p.length < 4095) : Pieces [p]

theorem takeWhile_line {l : Bytes} (hl : 10 ∉ l) (rest : Bytes) :
    (l ++ 10 :: rest).takeWhile (· ≠ 10) = l := by
  rw [List.takeWhile_append_of_pos, List.takeWhile_cons_of_neg (by decide), List.append_nil]
  intro _ hx
  exact decide_eq_true fun heq => hl (heq ▸ hx)

theorem takeWhile_noLine {l : Bytes} (hl : 10 ∉ l) : l.takeWhile (· ≠ 10) = l :=
  List.takeWhile_eq_self_iff.mpr fun _ hx => decide_eq_true fun heq => hl (heq ▸ hx)

/-- The first piece is taken off. -/
theorem fgetsPieces_cons {fuel : Nat} {b p r : Bytes} (hb : b ≠ [])
    (hp : ((if (b.takeWhile (· ≠ 10)).length < b.length then b.takeWhile (· ≠ 10) ++ [10]
      else b.takeWhile (· ≠ 10)).take 4095) = p) (hrest : b = p ++ r) :
    fgetsPieces (fuel + 1) b = p :: fgetsPieces fuel r := by
  rw [fgetsPieces, if_neg hb]
  dsimp only
  rw [hp, hrest, List.drop_left]

/-- **Pieces that were put together** are read one by one again. -/
theorem fgetsPieces_flatten {ps : List Bytes} (h : Pieces ps) {fuel : Nat}
    (hfuel : ps.flatten.length ≤ fuel) : fgetsPieces fuel ps.flatten = ps := by
  induction h generalizing fuel with
  | nil => cases fuel <;> rfl
  | @line l ps hl hlen _ ih =>
      rw [List.flatten_cons, List.length_append, List.length_append, List.length_singleton] at hfuel
      obtain ⟨fuel, rfl⟩ : ∃ n, fuel = n + 1 := ⟨fuel - 1, by omega⟩
      have hb : (l ++ [10]) ++ ps.flatten = l ++ 10 :: ps.flatten := by simp
      rw [List.flatten_cons, fgetsPieces_cons (by simp) ?_ rfl, ih (by omega)]
      rw [hb, takeWhile_line hl, if_pos (by simp), List.take_of_length_le]
      rw [List.length_append, List.length_singleton]
      omega
  | @full p ps hp hlen _ ih =>
      rw [List.flatten_cons, List.length_append] at hfuel
      obtain ⟨fuel, rfl⟩ : ∃ n, fuel = n + 1 := ⟨fuel - 1, by omega⟩
      have hne : p ++ ps.flatten ≠ [] := by
        intro hnil
        rw [(List.append_eq_nil_iff.mp hnil).1] at hlen
        exact absurd hlen (by decide)
      -- the line may go on after the piece
      have htake : (p ++ ps.flatten).takeWhile (· ≠ 10) = p ++ ps.flatten.takeWhile (· ≠ 10) :=
        List.takeWhile_append_of_pos fun x hx => decide_eq_true fun heq => hp (heq ▸ hx)
      rw [List.flatten_cons, fgetsPieces_cons hne ?_ rfl, ih (by omega)]
      rw [htake]
      split_ifs
      · rw [List.append_assoc, List.take_append_of_le_length (by omega), List.take_of_length_le
          (by omega)]
      · rw [List.take_append_of_le_length (by omega), List.take_of_length_le (by omega)]
  | @last p hp hne hlen =>
      rw [List.flatten_singleton] at hfuel ⊢
      have hpos : 0 < p.length := List.length_pos_iff.mpr hne
      obtain ⟨fuel, rfl⟩ : ∃ n, fuel = n + 1 := ⟨fuel - 1, by omega⟩
      rw [fgetsPieces_cons hne ?_ (List.append_nil p).symm]
      · cases fuel <;> rfl
      · rw [takeWhile_noLine hp, if_neg (by omega), List.take_of_length_le (by omega)]

/-- Whatever is read comes in pieces, and they are all of it. -/
theorem pieces_fgetsPieces {fuel : Nat} {b : Bytes} (hfuel : b.length ≤ fuel) :
    Pieces (fgetsPieces fuel b) ∧ (fgetsPieces fuel b).flatten = b := by
  induction fuel generalizing b with
  | zero =>
      obtain rfl := List.length_eq_zero_iff.mp (Nat.le_zero.mp hfuel)
      exact ⟨.nil, rfl⟩
  | succ fuel ih =>
      by_cases hb : b = []
      · subst hb
        exact ⟨.nil, rfl⟩
      have hpos : 0 < b.length := List.length_pos_iff.mpr hb
      by_cases hmem : 10 ∈ b
      · obtain ⟨l, rest, rfl, hl⟩ := List.eq_append_cons_of_mem hmem
        by_cases hlen : l.length < 4095
        · -- a line
          rw [fgetsPieces_cons (p := l ++ [10]) (r := rest) hb ?_ (by simp)]
          · rw [List.length_append, List.length_cons] at hfuel
            obtain ⟨hps, hflat⟩ := ih (b := rest) (by omega)
            exact ⟨.line hl hlen hps, by rw [List.flatten_cons, hflat]; simp⟩
          · rw [takeWhile_line hl, if_pos (by simp), List.take_of_length_le]
            rw [List.length_append, List.length_singleton]
            omega
        · -- a line that is longer than the buffer
          rw [fgetsPieces_cons (p := l.take 4095) (r := l.drop 4095 ++ 10 :: rest) hb ?_ ?_]
          · have hdrop : (l.drop 4095 ++ 10 :: rest).length ≤ fuel := by
              rw [List.length_append, List.length_cons] at hfuel ⊢
              rw [List.length_drop]
              omega
            obtain ⟨hps, hflat⟩ := ih hdrop
            refine ⟨.full (fun h => hl (List.mem_of_mem_take h)) (by rw [List.length_take]; omega)
              hps, ?_⟩
            rw [List.flatten_cons, hflat, ← List.append_assoc, List.take_append_drop]
          · rw [takeWhile_line hl, if_pos (by simp), List.take_append_of_le_length (by omega)]
          · rw [← List.append_assoc, List.take_append_drop]
      · by_cases hlen : b.length < 4095
        · rw [fgetsPieces_cons hb ?_ (List.append_nil b).symm]
          · have hnil : fgetsPieces fuel [] = [] := by cases fuel <;> rfl
            rw [hnil]
            exact ⟨.last hmem hb hlen, List.flatten_singleton⟩
          · rw [takeWhile_noLine hmem, if_neg (by omega), List.take_of_length_le (by omega)]
        · rw [fgetsPieces_cons (p := b.take 4095) (r := b.drop 4095) hb ?_
            (List.take_append_drop _ _).symm]
          · obtain ⟨hps, hflat⟩ := ih (b := b.drop 4095) (by rw [List.length_drop]; omega)
            refine ⟨.full (fun h => hmem (List.mem_of_mem_take h)) (by rw [List.length_take]; omega)
              hps, ?_⟩
            rw [List.flatten_cons, hflat, List.take_append_drop]
          · rw [takeWhile_noLine hmem, if_neg (by omega)]

/-! ## §3. What the new file says. -/

/-- A name that fits into one line of the file, and is read as something. -/
structure IsPeerCn (cn : Bytes) : Prop where
  value_ne : value cn ≠ []
  newline_notMem : 10 ∉ cn
  zero_notMem : 0 ∉ cn
  short : cn.length ≤ 4080

/-- A pair with the new value. -/
def setPeerCn (cn : Bytes) : Option (Option (Bytes × Bytes)) → Option (Option (Bytes × Bytes))
  | some (some (field, v)) => if field = peerCnField then some (some (field, cn))
      else some (some (field, v))
  | none => none
  | some none => some none

theorem isName_peerCnField : IsName peerCnField := by decide

theorem value_newline {cn : Bytes} (hne : value cn ≠ []) : value (cn ++ [10]) = value cn := by
  have hdrop : (cn.dropWhile isSpace) ≠ [] := by
    intro hnil
    rw [value, hnil] at hne
    exact hne rfl
  rw [value, List.dropWhile_append, if_neg (by simpa using hdrop),
    List.rdropWhile_concat_pos _ _ _ (by decide), ← value]

/-- The new line is read as the new value. -/
theorem configGetPair_peerCnLine {cn : Bytes} (h : value cn ≠ []) :
    configGetPair (peerCnLine cn) = some (some (peerCnField, value cn)) := by
  have hv := value_newline h
  rw [peerCnLine, List.append_assoc, List.append_assoc, configGetPair_line isName_peerCnField, hv,
    if_neg h]

theorem zero_notMem_peerCnLine {cn : Bytes} (h : 0 ∉ cn) : 0 ∉ peerCnLine cn := by
  rw [peerCnLine, List.mem_append, List.mem_append, List.mem_append, not_or, not_or, not_or]
  exact ⟨⟨by decide, by decide, h⟩, by decide⟩

/-- A piece is copied, or it is one of the field. -/
theorem rewrittenLine_cases (cn : Bytes) {p : Bytes} (hp : 0 ∉ p) :
    rewrittenLine cn p = p ∧ setPeerCn (value cn) (configGetPair p) = configGetPair p
      ∨ rewrittenLine cn p = peerCnLine cn ∧ ∃ v, configGetPair p = some (some (peerCnField, v)) := by
  unfold rewrittenLine
  rw [cString_of_notMem hp]
  rcases hpair : configGetPair p with _ | _ | ⟨field, v⟩
  · exact Or.inl ⟨rfl, rfl⟩
  · exact Or.inl ⟨rfl, rfl⟩
  · dsimp only [setPeerCn]
    split_ifs with hfield
    · subst hfield
      exact Or.inr ⟨rfl, v, rfl⟩
    · exact Or.inl ⟨rfl, rfl⟩

theorem peerCnLine_eq_line (cn : Bytes) :
    peerCnLine cn = (peerCnField ++ ([32, 61, 32] ++ cn)) ++ [10] := rfl

theorem pieces_peerCnLine {cn : Bytes} (h : IsPeerCn cn) {ps : List Bytes} (hps : Pieces ps) :
    Pieces (peerCnLine cn :: ps) := by
  rw [peerCnLine_eq_line]
  refine .line ?_ ?_ hps
  · rw [List.mem_append, List.mem_append, not_or, not_or]
    exact ⟨by decide, by decide, h.newline_notMem⟩
  · have hfield : peerCnField.length = 11 := by decide
    have := h.short
    rw [List.length_append, List.length_append, hfield]
    show 11 + (3 + cn.length) < 4095
    omega

/-- What is written is in pieces, too. -/
theorem pieces_rewritten {cn : Bytes} (h : IsPeerCn cn) {ps : List Bytes} (hps : Pieces ps)
    (hzero : ∀ p ∈ ps, 0 ∉ p) : Pieces (ps.map (rewrittenLine cn)) := by
  induction hps with
  | nil => exact .nil
  | @line l ps hl hlen _ ih =>
      have hrest := ih fun p hp => hzero p (List.mem_cons_of_mem _ hp)
      rw [List.map_cons]
      rcases rewrittenLine_cases cn (hzero _ List.mem_cons_self) with ⟨heq, -⟩ | ⟨heq, -⟩
      · rw [heq]
        exact .line hl hlen hrest
      · rw [heq]
        exact pieces_peerCnLine h hrest
  | @full p ps hp hlen _ ih =>
      have hrest := ih fun p hp => hzero p (List.mem_cons_of_mem _ hp)
      rw [List.map_cons]
      rcases rewrittenLine_cases cn (hzero _ List.mem_cons_self) with ⟨heq, -⟩ | ⟨heq, -⟩
      · rw [heq]
        exact .full hp hlen hrest
      · rw [heq]
        exact pieces_peerCnLine h hrest
  | @last p hp hne hlen =>
      rw [List.map_singleton]
      rcases rewrittenLine_cases cn (hzero _ List.mem_cons_self) with ⟨heq, -⟩ | ⟨heq, -⟩
      · rw [heq]
        exact .last hp hne hlen
      · rw [heq]
        exact pieces_peerCnLine h .nil

theorem zero_notMem_pieces {b p : Bytes} (h : 0 ∉ b) (hp : p ∈ fgetsPieces b.length b) : 0 ∉ p :=
  fun hmem => h (by
    rw [← (pieces_fgetsPieces (Nat.le_refl b.length)).2]
    exact List.mem_flatten_of_mem hp hmem)

/-- The pieces of the new file, one for each of the old one. -/
theorem fgetsPieces_rewriteClientConf {cn b : Bytes} (h : IsPeerCn cn) (hb : 0 ∉ b) :
    fgetsPieces (rewriteClientConf cn b).length (rewriteClientConf cn b)
      = (fgetsPieces b.length b).map (rewrittenLine cn) :=
  fgetsPieces_flatten
    (pieces_rewritten h (pieces_fgetsPieces (Nat.le_refl _)).1 fun _ hp => zero_notMem_pieces hb hp)
    (Nat.le_refl _)

theorem configGetPair_rewrittenLine {cn p : Bytes} (h : IsPeerCn cn) (hp : 0 ∉ p) :
    configGetPair (rewrittenLine cn p) = setPeerCn (value cn) (configGetPair p) := by
  rcases rewrittenLine_cases cn hp with ⟨heq, hset⟩ | ⟨heq, v, hpair⟩
  · rw [heq, hset]
  · rw [heq, hpair, configGetPair_peerCnLine h.value_ne, setPeerCn, if_pos rfl]

/-- **The new file says what the old one says**, with the new value wherever there was one. -/
theorem rewriteClientConf_pairs {cn b : Bytes} (h : IsPeerCn cn) (hb : 0 ∉ b) :
    (fgetsPieces (rewriteClientConf cn b).length (rewriteClientConf cn b)).map configGetPair
      = (fgetsPieces b.length b).map fun p => setPeerCn (value cn) (configGetPair p) := by
  rw [fgetsPieces_rewriteClientConf h hb, List.map_map]
  exact List.map_congr_left fun p hp => configGetPair_rewrittenLine h (zero_notMem_pieces hb hp)

/-- A file of two lines, with the name of another server. -/
def oldConf : Bytes := nameBytes "ssl_peer_cn=a" ++ [10] ++ nameBytes "include = /etc"

theorem isPeerCn_burpserver : IsPeerCn (nameBytes "burpserver") :=
  ⟨by decide, by decide, by decide, by decide⟩

theorem rewriteClientConf_pairs_oneLine :
    (fgetsPieces (rewriteClientConf (nameBytes "burpserver") oldConf).length
        (rewriteClientConf (nameBytes "burpserver") oldConf)).map configGetPair
      = (fgetsPieces oldConf.length oldConf).map
          fun p => setPeerCn (value (nameBytes "burpserver")) (configGetPair p) :=
  rewriteClientConf_pairs isPeerCn_burpserver (by decide)

/-! ## §4. What is loaded from it. -/

/-- A line that names another file does not set the field. -/
theorem not_include_of_pair {p v : Bytes}
    (h : configGetPair p = some (some (peerCnField, v))) : ¬ [46, 32] <+: p := by
  rintro ⟨t, rfl⟩
  unfold configGetPair at h
  simp only at h
  split_ifs at h with h₁ h₂ h₃
  · simp at h
  rw [Option.some.injEq, Option.some.injEq, Prod.mk.injEq] at h
  obtain ⟨hfield, -⟩ := h
  have hdrop : ([46, 32] ++ t : Bytes).dropWhile isSpace = 46 :: 32 :: t := rfl
  have htake : (46 :: 32 :: t : Bytes).takeWhile (· ≠ 61)
      = 46 :: (32 :: t).takeWhile (· ≠ 61) := rfl
  rw [hdrop, htake] at hfield
  -- the field would begin with the dot
  have hprefix := List.rdropWhile_prefix isSpace (46 :: (32 :: t).takeWhile (· ≠ 61))
  rw [hfield] at hprefix
  have hhead : peerCnField.head? = some 46 := by
    obtain ⟨r, hr⟩ := hprefix
    have := congrArg List.head? hr
    rwa [List.head?_append_of_ne_nil _ isName_peerCnField.ne_nil] at this
  exact absurd hhead (by decide)

/-- The field is passed over when it is about backups. -/
theorem loadFieldAndValue_peerCn (v : Bytes) (s : Loading) :
    loadFieldAndValue peerCnField v s = some s := by
  have hsize : sizeOptions.lookup peerCnField = none := by decide
  have hint : intOptions.lookup peerCnField = none := by decide
  have hlist : listOptions.lookup peerCnField = none := by decide
  rw [loadFieldAndValue, hsize, hint, hlist]

theorem parseConfigLine_peerCn {load : Bytes → Loading → Option Loading} {configPath p v : Bytes}
    {s : Loading} (h : configGetPair p = some (some (peerCnField, v))) :
    parseConfigLine load configPath s p = some s := by
  rw [parseConfigLine, if_neg (not_include_of_pair h), h]
  exact loadFieldAndValue_peerCn v s

theorem parseConfigLine_rewrittenLine {load : Bytes → Loading → Option Loading}
    {configPath cn p : Bytes} {s : Loading} (h : IsPeerCn cn) (hp : 0 ∉ p) :
    parseConfigLine load configPath s (cString (rewrittenLine cn p))
      = parseConfigLine load configPath s (cString p) := by
  rw [cString_of_notMem hp]
  rcases rewrittenLine_cases cn hp with ⟨heq, -⟩ | ⟨heq, v, hpair⟩
  · rw [heq, cString_of_notMem hp]
  · rw [heq, cString_of_notMem (zero_notMem_peerCnLine h.zero_notMem), parseConfigLine_peerCn hpair,
      parseConfigLine_peerCn (configGetPair_peerCnLine h.value_ne)]

theorem foldlM_map_congr {α σ : Type} {f g : α → α} {step : σ → α → Option σ} {as : List α}
    (h : ∀ a ∈ as, ∀ s, step s (f a) = step s (g a)) (s : σ) :
    (as.map f).foldlM step s = (as.map g).foldlM step s := by
  induction as generalizing s with
  | nil => rfl
  | cons a as ih =>
      rw [List.map_cons, List.map_cons, List.foldlM_cons, List.foldlM_cons,
        h a List.mem_cons_self]
      exact congrArg _ (funext fun s' => ih (fun b hb => h b (List.mem_cons_of_mem _ hb)) s')

/-- **Everything else is as it was.**  What is loaded about backups does not depend on whether
the file has been rewritten, wherever it is read. -/
theorem loadConfigLines_rewriteClientConf {files : Bytes → Option Bytes} {path b cn : Bytes}
    (hfile : files path = some b) (h : IsPeerCn cn) (hb : 0 ∉ b) (fuel : Nat) (configPath : Bytes)
    (s : Loading) :
    loadConfigLines (Function.update files path (some (rewriteClientConf cn b))) fuel configPath s
      = loadConfigLines files fuel configPath s := by
  induction fuel generalizing configPath s with
  | zero => rfl
  | succ fuel ih =>
      have hload : loadConfigLines (Function.update files path (some (rewriteClientConf cn b))) fuel
          = loadConfigLines files fuel := funext fun c => funext fun s' => ih c s'
      rw [loadConfigLines, loadConfigLines, hload]
      by_cases hpath : configPath = path
      · subst hpath
        rw [Function.update_self, hfile]
        dsimp only
        rw [fgetsPieces_rewriteClientConf h hb, List.map_map]
        exact foldlM_map_congr (fun p hp s' =>
          parseConfigLine_rewrittenLine h (zero_notMem_pieces hb hp)) s
      · rw [Function.update_of_ne hpath]

theorem loadConfigLines_rewriteClientConf_oneLine :
    loadConfigLines (Function.update (fun _ => some oldConf) (nameBytes "/b.conf")
        (some (rewriteClientConf (nameBytes "burpserver") oldConf))) 1 (nameBytes "/b.conf")
        (initConfig, fun _ => [])
      = loadConfigLines (fun _ => some oldConf) 1 (nameBytes "/b.conf") (initConfig, fun _ => []) := by
  let files : Bytes → Option Bytes := fun _ => some oldConf
  have hfile : files (nameBytes "/b.conf") = some oldConf := rfl
  exact loadConfigLines_rewriteClientConf hfile isPeerCn_burpserver (by decide) 1 _ _

end Burp.Conf
