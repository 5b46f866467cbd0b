/-
  Burp.Session.Lists — include lists on their way (incexc_send.c, incexc_recv.c).

  Client and server use the same functions to send their lists to each other.  A line begins with
  the name of an option, so the receiver does not take it for the end of the list, and nothing
  but the lists and numbers comes of the lines of `do_sends`.

  Main results:
    * `received_all` — the server has the text that `incexc_recv` makes of the lines.
    * `parseOverride_doSends` — lists from the server do not change the other settings.
-/
import Burp.Session.Client

namespace Burp.Session

open Dialogue FileSystem
open Burp.Phase2 (nameBytes)
open Burp.Conf (Config Loaded Loading configGetPair doSends endreqstr incexcRecv incexcSend
  parseIncexcsBuf prepend recvLoop sendIncexcStr sentInts sentLists sentSizes)
open Burp.Restore (Message)
open Burp.Server (ClientConf)
open Burp.Store (cString Cmd)
open Burp.Text (tokens)

/-! ## §1. Lines. -/

/-- The names that lines begin with. -/
def lineNames : List Bytes :=
  sentLists.map (·.2.1) ++ sentLists.map (·.2.2) ++ sentInts.map (·.2) ++ sentSizes.map (·.2)
    ++ [nameBytes "orig_client", nameBytes "backup", nameBytes "restoreprefix", nameBytes "regex",
        nameBytes "overwrite", nameBytes "strip"]

def IsSent (b : Bytes) : Prop := ∃ pre ∈ lineNames, pre <+: b

theorem lineNames_ok : ∀ pre ∈ lineNames,
    0 ∉ pre ∧ pre ≠ [] ∧ ¬ pre <+: nameBytes "incexc end" ∧ ¬ pre <+: nameBytes "sincexc end"
      ∧ ¬ pre <+: nameBytes "srestore end" := by
  decide

/-- A line is no message at the end of a list. -/
theorem IsSent.cString_ne {b : Bytes} (h : IsSent b) :
    cString b ≠ [] ∧ cString b ≠ nameBytes "incexc end" ∧ cString b ≠ nameBytes "sincexc end"
      ∧ cString b ≠ nameBytes "srestore end" := by
  obtain ⟨pre, hpre, t, rfl⟩ := h
  obtain ⟨hzero, hne, h₁, h₂, h₃⟩ := lineNames_ok pre hpre
  rw [Store.cString_append hzero]
  refine ⟨by simp [hne], ?_, ?_, ?_⟩
  · exact fun heq => h₁ ⟨_, heq⟩
  · exact fun heq => h₂ ⟨_, heq⟩
  · exact fun heq => h₃ ⟨_, heq⟩

theorem isSent_sendIncexcStr {pre : Bytes} (h : pre ∈ lineNames) (str : Bytes) :
    IsSent (sendIncexcStr pre str) :=
  ⟨pre, h, List.prefix_append _ _⟩

theorem mem_lineNames_list {t : Conf.ListOpt × Bytes × Bytes} (h : t ∈ sentLists) :
    t.2.1 ∈ lineNames ∧ t.2.2 ∈ lineNames := by
  unfold lineNames
  refine ⟨List.mem_append_left _ (List.mem_append_left _ (List.mem_append_left _
    (List.mem_append_left _ (List.mem_map_of_mem h)))), ?_⟩
  exact List.mem_append_left _ (List.mem_append_left _ (List.mem_append_left _
    (List.mem_append_right _ (List.mem_map_of_mem h))))

theorem isSent_doSends {c : Config} {b : Bytes} (h : b ∈ doSends c) : IsSent b := by
  unfold doSends at h
  rcases List.mem_append.mp h with h | h
  · obtain ⟨t, ht, hmem⟩ := List.mem_flatMap.mp h
    obtain ⟨e, -, rfl⟩ := List.mem_map.mp hmem
    refine isSent_sendIncexcStr ?_ _
    split_ifs
    · exact (mem_lineNames_list ht).1
    · exact (mem_lineNames_list ht).2
  · rcases List.mem_append.mp h with h | h
    · obtain ⟨t, ht, rfl⟩ := List.mem_map.mp h
      exact isSent_sendIncexcStr (List.mem_append_left _ (List.mem_append_left _
        (List.mem_append_right _ (List.mem_map_of_mem ht)))) _
    · obtain ⟨t, ht, rfl⟩ := List.mem_map.mp h
      exact isSent_sendIncexcStr (List.mem_append_left _ (List.mem_append_right _
        (List.mem_map_of_mem ht))) _

theorem isSent_sendSet {pre b : Bytes} (hpre : pre ∈ lineNames) {str : Option Bytes}
    (h : b ∈ sendSet pre str) : IsSent b := by
  cases str with
  | none => exact absurd h List.not_mem_nil
  | some v =>
      rw [List.mem_singleton.mp h]
      exact isSent_sendIncexcStr hpre v

theorem isSent_doSendsRestore {cconf : ClientConf} {o : RestoreOpts} {b : Bytes}
    (h : b ∈ doSendsRestore cconf o) : IsSent b := by
  have hlast : ∀ pre ∈ [nameBytes "orig_client", nameBytes "backup", nameBytes "restoreprefix",
      nameBytes "regex", nameBytes "overwrite", nameBytes "strip"], pre ∈ lineNames :=
    fun _ hpre => List.mem_append_right _ hpre
  unfold doSendsRestore at h
  rcases List.mem_append.mp h with h | h
  · obtain ⟨e, -, rfl⟩ := List.mem_map.mp h
    refine isSent_sendIncexcStr ?_ _
    split_ifs <;> decide
  rcases List.mem_append.mp h with h | h
  · exact isSent_sendSet (hlast _ (.head _)) h
  rcases List.mem_append.mp h with h | h
  · exact isSent_sendSet (hlast _ (.tail _ (.head _))) h
  rcases List.mem_append.mp h with h | h
  · exact isSent_sendSet (hlast _ (.tail _ (.tail _ (.head _)))) h
  rcases List.mem_append.mp h with h | h
  · exact isSent_sendSet (hlast _ (.tail _ (.tail _ (.tail _ (.head _))))) h
  rcases List.mem_cons.mp h with rfl | h
  · exact isSent_sendIncexcStr (hlast _ (.tail _ (.tail _ (.tail _ (.tail _ (.head _)))))) _
  · rw [List.mem_singleton.mp h]
    exact isSent_sendIncexcStr
      (hlast _ (.tail _ (.tail _ (.tail _ (.tail _ (.tail _ (.head _))))))) _

theorem doSendsRestore_ne_nil (cconf : ClientConf) (o : RestoreOpts) :
    doSendsRestore cconf o ≠ [] := by
  simp [doSendsRestore]

/-! ## §2. The server receives. -/

/-- A message that is not the last one. -/
theorem recvLoop_gen {side : Conf.Side} {b : Bytes} (hend : cString b ≠ endreqstr side)
    (got : Option Bytes) (rest : List Message) :
    recvLoop (endreqstr side) got (gen b :: rest)
      = recvLoop (endreqstr side)
        (some (prepend (got.getD []) (cString b) (if got.isSome then [10] else []))) rest := by
  have hcmd : ¬ Cmd.gen ≠ Cmd.gen := fun h => h rfl
  rw [gen, recvLoop, if_neg hcmd, if_neg hend]

/-- A line of the list of the client. -/
theorem recvLoop_line {side : Conf.Side} {b : Bytes} (hend : cString b ≠ endreqstr side)
    (hne : cString b ≠ []) (got : Option Bytes) (rest : List Message) :
    recvLoop (endreqstr side) got (gen b :: rest)
      = recvLoop (endreqstr side) (some (addLine got (cString b))) rest := by
  rw [recvLoop_gen hend]
  cases got with
  | none => simp [prepend, addLine]
  | some t => simp [prepend, addLine, hne]

theorem recvLoop_end {side : Conf.Side} (got : Option Bytes) (rest : List Message) :
    recvLoop (endreqstr side) got (gen (endreqstr side) :: rest) = (true, got) := by
  have htext : cString (endreqstr side) = endreqstr side := by cases side <;> decide
  rw [gen, recvLoop, if_neg (by simp), if_pos htext]

/-! ## §3. What the client makes of the lists of the server. -/

theorem lineNames_isName : ∀ pre ∈ lineNames, Conf.IsName pre := by
  decide

/-- The options of `do_sends` are no strings. -/
theorem sent_no_strings :
    (∀ t ∈ sentLists, (t.2.1 ∈ lineNames ∧ t.2.1 ∉ [nameBytes "orig_client", nameBytes "backup",
        nameBytes "regex"]) ∧ t.2.2 ∈ lineNames ∧ t.2.2 ∉ [nameBytes "orig_client",
        nameBytes "backup", nameBytes "regex"])
      ∧ (∀ t ∈ sentInts, t.2 ∈ lineNames ∧ t.2 ∉ [nameBytes "orig_client", nameBytes "backup",
        nameBytes "regex"])
      ∧ ∀ t ∈ sentSizes, t.2 ∈ lineNames ∧ t.2 ∉ [nameBytes "orig_client", nameBytes "backup",
        nameBytes "regex"] := by
  decide

theorem readString_sent {pre str : Bytes} (hpre : pre ∈ lineNames)
    (hnot : pre ∉ [nameBytes "orig_client", nameBytes "backup", nameBytes "regex"])
    (hstr : str ≠ []) (c : OwnConf) : readString c (sendIncexcStr pre str) = c := by
  rw [Conf.sendIncexcStr_eq hstr, readString, Conf.configGetPair_line (lineNames_isName pre hpre)]
  simp only [List.mem_cons, List.not_mem_nil, or_false, not_or] at hnot
  split_ifs
  · rfl
  · dsimp only
    rw [if_neg hnot.1, if_neg hnot.2.1, if_neg hnot.2.2]

theorem readString_doSends {cfg : Config} (hcfg : Loaded cfg) {b : Bytes} (h : b ∈ doSends cfg)
    (c : OwnConf) : readString c b = c := by
  unfold doSends at h
  rcases List.mem_append.mp h with h | h
  · obtain ⟨t, ht, hmem⟩ := List.mem_flatMap.mp h
    obtain ⟨e, he, rfl⟩ := List.mem_map.mp hmem
    obtain ⟨⟨hpre, hnot⟩, hpre', hnot'⟩ := sent_no_strings.1 t ht
    split_ifs
    · exact readString_sent hpre hnot (hcfg.isValue he).ne_nil c
    · exact readString_sent hpre' hnot' (hcfg.isValue he).ne_nil c
  · rcases List.mem_append.mp h with h | h
    · obtain ⟨t, ht, rfl⟩ := List.mem_map.mp h
      obtain ⟨hpre, hnot⟩ := sent_no_strings.2.1 t ht
      exact readString_sent hpre hnot (Conf.isValue_decimalInt _).1.ne_nil c
    · obtain ⟨t, ht, rfl⟩ := List.mem_map.mp h
      obtain ⟨hpre, hnot⟩ := sent_no_strings.2.2 t ht
      exact readString_sent hpre hnot (Conf.isValue_decimal _).1.ne_nil c

theorem foldl_readString {lines : List Bytes} {c : OwnConf}
    (h : ∀ b ∈ lines, readString c b = c) : lines.foldl readString c = c := by
  induction lines with
  | nil => rfl
  | cons b lines ih =>
      rw [List.foldl_cons, h b List.mem_cons_self]
      exact ih fun b' hb' => h b' (List.mem_cons_of_mem _ hb')

/-- **Lists from the server** replace the lists of the client and nothing else, the settings for
a restore excepted. -/
theorem parseOverride_doSends {load : Bytes → Loading → Option Loading} {cfg : Config}
    (hcfg : Loaded cfg) {c c' : OwnConf} {text : Bytes}
    (htext : incexcRecv .server (incexcSend .server cfg) = (true, some text))
    (h : parseOverride load c text = some c') :
    Conf.transfer load .server c.config cfg = some c'.config ∧ c'.origClient = c.origClient := by
  obtain ⟨config, hconfig, rfl⟩ := Option.map_eq_some_iff.mp h
  obtain ⟨text', hrecv, htokens⟩ := Conf.tokens_received
    (fun b hb => Conf.isLine_of_mem_doSends hcfg .server hb) (Conf.doSends_ne_nil cfg)
  have heq : incexcRecv .server (incexcSend .server cfg) = (true, some text') := hrecv
  obtain rfl : text = text' := Option.some.inj (congrArg Prod.snd (htext.symm.trans heq))
  refine ⟨?_, ?_⟩
  · unfold Conf.transfer
    rw [htext]
    exact hconfig
  · show ((tokens (· = 10) text).foldl readString { c with backup := none, regex := none }).origClient
      = _
    rw [htokens, foldl_readString fun b hb => readString_doSends hcfg hb _]

end Burp.Session
