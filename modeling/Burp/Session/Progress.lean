/-
  Burp.Session.Progress — the opening of a session comes to an end (client.c, server.c).

  A client waits for an answer only where the server gives one.  The exception is the question for
  an upgrade: the server does not answer it if it names no system, and the client would wait for
  ever.  A configuration file does not set an empty name.

  Main results:
    * `tires` — whatever happens, less is left to do for the client.
    * `session_ends` — each order of the steps comes to the same end, and when nobody waits there.
-/
import Burp.Session.Opening

namespace Burp.Session

open Dialogue FileSystem
open Burp.Phase2 (nameBytes)
open Burp.Conf (Loading)
open Burp.Restore (Message)
open Burp.Server (inBuffer)
open Burp.Store (cString)

/-! ## §1. What is left to do. -/

/-- So many points are still to come. -/
def ClientAt.toCome : ClientAt → Nat
  | .begins => 23
  | .hearsFeatures => 22
  | .upgrade => 21
  | .hearsUpgrade => 20
  | .restore => 19
  | .receives .srestore => 18
  | .endsList .srestore => 17
  | .parses .srestore => 16
  | .switch => 15
  | .hearsSwitch => 14
  | .includes => 13
  | .receives .sincexc => 12
  | .endsList .sincexc => 11
  | .parses .sincexc => 10
  | .counters => 9
  | .incexc => 8
  | .hearsIncexc => 7
  | .sendsIncexc _ => 6
  | .hearsIncexcEnd => 5
  | .ends => 4
  | .hearsEnd => 3
  | .asks => 2
  | .hearsAnswer => 1
  | .goes _ => 0
  | .upgrades => 0
  | .done _ => 0

/-- And so many lines, where there are lines to send. -/
def ClientAt.lines : ClientAt → Nat
  | .sendsIncexc todo => todo.length
  | _ => 0

def Client.rank (s : Client) : ℕ ×ₗ ℕ := toLex (s.point.toCome, s.point.lines)

section Tires

variable {load : Bytes → Loading → Option Loading} {s s' f : Client} {m : Message}
  {k : Option Message → Client}

attribute [local simp] ClientAt.toCome

theorem rank_lt (h : s'.point.toCome < s.point.toCome) : s'.rank < s.rank :=
  Prod.Lex.toLex_lt_toLex.mpr (Or.inl h)

theorem rank_le (h : s'.point.toCome < s.point.toCome ∨ s'.point = s.point) : s'.rank ≤ s.rank := by
  rcases h with h | h
  · exact (rank_lt h).le
  · unfold Client.rank
    rw [h]

theorem toCome_parsesList {which : ListKind} (h : s.point = .parses which) :
    (parsesList load which s).point.toCome < s.point.toCome := by
  have hafter : (Client.afterList which).toCome < (ClientAt.parses which).toCome := by
    cases which <;> decide
  have hfails : (ClientAt.done (-1)).toCome < (ClientAt.parses which).toCome := by
    cases which <;> decide
  rw [h]
  unfold parsesList
  split
  · exact hafter
  · split
    · exact hfails
    · exact hafter

theorem rank_act (h : doClient load s = .act s') : s'.rank < s.rank := by
  obtain ⟨point, act, conf, feat, incexc⟩ := s
  cases point with
  | parses which =>
      obtain rfl := Move.act.inj h
      exact rank_lt (toCome_parsesList rfl)
  | sendsIncexc todo =>
      cases todo with
      | nil =>
          obtain rfl := Move.act.inj h
          exact rank_lt (by show 5 < 6; decide)
      | cons m todo => exact absurd h nofun
  | hearsAnswer => cases act <;> exact absurd h nofun
  | upgrade | restore | switch | includes | counters | incexc | asks =>
      unfold doClient at h
      dsimp only at h
      repeat' split at h
      all_goals cases h
      all_goals exact rank_lt (by simp [Client.fails])
  | _ => exact absurd h nofun

theorem rank_say (h : doClient load s = .say m s' f) : s'.rank < s.rank := by
  obtain ⟨point, act, conf, feat, incexc⟩ := s
  cases point with
  | begins | ends =>
      obtain ⟨-, rfl, -⟩ := Move.say.inj h
      exact rank_lt (Nat.lt_succ_self _)
  | endsList which =>
      obtain ⟨-, rfl, -⟩ := Move.say.inj h
      exact rank_lt (by cases which <;> exact Nat.lt_succ_self _)
  | sendsIncexc todo =>
      cases todo with
      | nil => exact absurd h nofun
      | cons m todo =>
          obtain ⟨-, rfl, -⟩ := Move.say.inj h
          exact Prod.Lex.toLex_lt_toLex.mpr (Or.inr ⟨rfl, Nat.lt_succ_self _⟩)
  | hearsAnswer => cases act <;> exact absurd h nofun
  | upgrade | restore | switch | includes | counters | incexc | asks =>
      unfold doClient at h
      dsimp only at h
      repeat' split at h
      all_goals cases h
      all_goals exact rank_lt (by simp)
  | _ => exact absurd h nofun

theorem toCome_expects (text : Bytes) (next : ClientAt) (h : next.toCome < s.point.toCome)
    (m : Message) : (s.expects text next (some m)).point.toCome < s.point.toCome := by
  unfold Client.expects
  dsimp only
  split_ifs
  · exact h
  · exact (Nat.zero_le _).trans_lt h

theorem rank_hear (h : doClient load s = .hear k) (m : Message) : (k (some m)).rank ≤ s.rank := by
  obtain ⟨point, act, conf, feat, incexc⟩ := s
  obtain ⟨cmd, buf⟩ := m
  cases point with
  | hearsFeatures | hearsUpgrade =>
      obtain rfl := Move.hear.inj h
      dsimp only
      split_ifs
      all_goals exact rank_le (Or.inl (by simp [Client.fails]))
  | receives which =>
      obtain rfl := Move.hear.inj h
      unfold receivesLine
      dsimp only
      split_ifs
      · exact rank_le (Or.inl (by cases which <;> simp [Client.fails]))
      · exact rank_le (Or.inl (by cases which <;> simp))
      all_goals exact rank_le (Or.inr rfl)
  | hearsSwitch | hearsIncexc | hearsIncexcEnd | hearsEnd =>
      obtain rfl := Move.hear.inj h
      exact rank_le (Or.inl (toCome_expects _ _ (Nat.lt_succ_self _) _))
  | hearsAnswer =>
      have hstop : ∀ s' : Client, ((∃ op, s'.point = .goes op) ∨ ∃ ret, s'.point = .done ret) →
          s'.rank ≤ Client.rank ⟨.hearsAnswer, act, conf, feat, incexc⟩ := by
        intro s' hs'
        refine rank_le (Or.inl ?_)
        rcases hs' with ⟨_, hs'⟩ | ⟨_, hs'⟩ <;> rw [hs'] <;> exact Nat.zero_lt_one
      cases act with
      | backup | backupTimed =>
          obtain rfl := Move.hear.inj h
          exact hstop _ (checkTimer_cases _ _)
      | restore | verify | list =>
          obtain rfl := Move.hear.inj h
          exact hstop _ ((expects_cases _ _ _ _).imp_left fun h => ⟨_, h⟩)
  | sendsIncexc todo => cases todo <;> exact absurd h nofun
  | upgrade | restore | switch | includes | counters | incexc | asks =>
      unfold doClient at h
      dsimp only at h
      repeat' split at h
      all_goals cases h
  | _ => exact absurd h nofun

/-- **Whatever happens**, less is left to do. -/
theorem tires (load : Bytes → Loading → Option Loading) : Tires (doClient load) Client.rank :=
  ⟨fun _ _ => rank_act, fun _ _ _ _ => rank_say, fun _ _ m h => rank_hear h m⟩

end Tires

/-! ## §2. The end. -/

section Ends

variable {p : ServerSide} {load : Bytes → Loading → Option Loading} {act₀ : Action} {conf₀ : OwnConf}
  {v : Asked Client Serving Message} {k : Option Message → Client}

theorem Talks.coming {reading : Server.Reading} {coming : List Message} {K : Server.Session → Prop}
    (h : Talks reading coming K v) (hv : v.coming = []) : coming = [] :=
  h.1.symm.trans hv

/-- A client that waits for an answer has it, unless the server has come to its end. -/
theorem OnTrack.waits (h : OnTrack p load act₀ conf₀ v) (hconf : ¬ Unanswered conf₀)
    (ha : doClient load v.left = .hear k) (hv : v.coming = []) : p.answerer.ended v.state = true := by
  have hended : ∀ stage, v.state.stage = stage → ServerSide.ended ⟨v.state.turn, stage⟩ = true →
      p.answerer.ended v.state = true := by
    intro stage hstage hended
    rw [← hstage] at hended
    exact hended
  rcases h with h | h
  · exact hended _ h.1 rfl
  obtain ⟨⟨point, act, conf, feat, incexc⟩, state, coming⟩ := v
  dsimp only at hv
  cases point with
  | hearsFeatures =>
      obtain ⟨text, -, htalks, -⟩ := h
      exact absurd (htalks.coming hv) nofun
  | hearsUpgrade =>
      obtain ⟨-, ⟨out, ⟨-, hno⟩ | rfl, htalks⟩ | ⟨hstage, -⟩⟩ := h
      · exact absurd hno hconf
      · exact absurd (htalks.coming hv) nofun
      · exact hended _ hstage rfl
  | receives which =>
      obtain ⟨-, lines, -, htalks⟩ := h
      exact absurd (htalks.coming hv) (List.append_ne_nil_of_right_ne_nil _ nofun)
  | hearsSwitch =>
      obtain ⟨restored, -, htalks | ⟨hstage, -⟩⟩ := h
      · exact absurd (htalks.coming hv) nofun
      · exact hended _ hstage rfl
  | hearsIncexc =>
      obtain ⟨restored, htalks, -⟩ := h
      exact absurd (htalks.coming hv) nofun
  | hearsIncexcEnd =>
      obtain ⟨restored, htalks⟩ := h
      exact absurd (htalks.coming hv) nofun
  | hearsEnd => exact absurd (h.1.symm.trans hv) nofun
  | hearsAnswer =>
      obtain ⟨restored, n, s, hstage, -⟩ := h
      exact hended _ hstage rfl
  | sendsIncexc todo => cases todo <;> exact absurd ha nofun
  | upgrade | restore | switch | includes | counters | incexc | asks =>
      unfold doClient at ha
      dsimp only at ha
      repeat' split at ha
      all_goals cases ha
  | _ => exact absurd ha nofun

variable (load act₀) in
/-- Where the client waits for an answer that it will not be given. -/
theorem ask_unanswered (hp : p.Lists) (hconf : Unanswered conf₀) :
    ∃ feat n, Relation.ReflTransGen (Ask (doClient load) p.answerer)
      ⟨startClient act₀ conf₀, p.first, []⟩
      ⟨⟨.hearsUpgrade, act₀, conf₀, feat, none⟩, ⟨n, .talks p.start⟩, []⟩ := by
  obtain ⟨os, hos, hnil⟩ := hconf
  have hbegin : nameBytes "extra_comms_begin ok"
        <+: cString (featureText p.cliVer (p.turns 0) p.start.cconf)
      ∧ nameBytes ":autoupgrade:" <:+: cString (featureText p.cliVer (p.turns 0) p.start.cconf) := by
    unfold featureText
    rw [if_neg hp.features]
    split_ifs
    all_goals exact ⟨by decide, by decide⟩
  generalize hfeat : featureText p.cliVer (p.turns 0) p.start.cconf = feat at hbegin
  have hsay : Ask (doClient load) p.answerer ⟨startClient act₀ conf₀, p.first, []⟩
      ⟨⟨.hearsFeatures, act₀, conf₀, [], none⟩, ⟨1, .talks p.start⟩, [gen feat]⟩ := by
    have hone : p.answerer.answers p.first [gen (nameBytes "extra_comms_begin")]
        = (⟨1, .talks p.start⟩, [gen feat]) := by
      rw [first_begins hp, answers_one rfl, answer_begins, hfeat]
    have hs := Ask.say (a := doClient load) (b := p.answerer)
      (v := ⟨startClient act₀ conf₀, p.first, []⟩) rfl
    rw [hone] at hs
    exact hs
  have hhear : Ask (doClient load) p.answerer
      ⟨⟨.hearsFeatures, act₀, conf₀, [], none⟩, ⟨1, .talks p.start⟩, [gen feat]⟩
      ⟨⟨.upgrade, act₀, conf₀, cString feat, none⟩, ⟨1, .talks p.start⟩, []⟩ := by
    have hs := Ask.hear (a := doClient load) (b := p.answerer)
      (v := ⟨⟨.hearsFeatures, act₀, conf₀, [], none⟩, ⟨1, .talks p.start⟩, [gen feat]⟩) rfl rfl
    dsimp only [gen] at hs
    rw [if_pos ⟨rfl, hbegin.1⟩] at hs
    exact hs
  have hask : Ask (doClient load) p.answerer
      ⟨⟨.upgrade, act₀, conf₀, cString feat, none⟩, ⟨1, .talks p.start⟩, []⟩
      ⟨⟨.hearsUpgrade, act₀, conf₀, cString feat, none⟩, ⟨2, .talks p.start⟩, []⟩ := by
    have ha : doClient load ⟨.upgrade, act₀, conf₀, cString feat, none⟩
        = .say (gen (inBuffer (nameBytes "autoupgrade:" ++ os)))
          ⟨.hearsUpgrade, act₀, conf₀, cString feat, none⟩ ⟨.done (-1), act₀, conf₀, cString feat, none⟩ := by
      have hsupports : Client.supportsAutoupgrade ⟨.upgrade, act₀, conf₀, cString feat, none⟩ = true := by
        unfold Client.supportsAutoupgrade
        rw [supports_eq hbegin.2, Bool.or_true]
      unfold doClient
      dsimp only
      rw [hos]
      dsimp only
      rw [hsupports]
      rfl
    have hs := Ask.say (a := doClient load) (b := p.answerer)
      (v := ⟨⟨.upgrade, act₀, conf₀, cString feat, none⟩, ⟨1, .talks p.start⟩, []⟩) ha
    rw [answers_one rfl, answer_unnamed 1 rfl hnil] at hs
    exact hs
  exact ⟨cString feat, 2, ((Relation.ReflTransGen.single hsay).tail hhear).tail hask⟩

/-- **The opening of a session comes to an end**, unless the client asks for an upgrade without a
name: as long as nothing fails, each order of the steps of the two comes to the same end after so
many steps.  There both have stopped, or else each waits for the other one. -/
theorem session_ends (hp : p.Lists) :
    ∃ n c, (∀ m d, Steps (Calm (doClient load) p.answerer.party) m
          ⟨startClient act₀ conf₀, ⟨p.first, []⟩, [], [], false⟩ d →
        ∃ k, n = m + k ∧ Steps (Calm (doClient load) p.answerer.party) k d c)
      ∧ (∀ d, ¬ Calm (doClient load) p.answerer.party c d)
      ∧ ((doClient load c.left = .stop ∧ p.answerer.party c.right = .stop) ↔ ¬ Unanswered conf₀) := by
  by_cases hconf : Unanswered conf₀
  · obtain ⟨feat, n, hask⟩ := ask_unanswered load act₀ hp hconf
    obtain ⟨toRight, hgone, hrun⟩ := calm_of_ask hask
    have hnil : toRight = [] := hgone.resolve_right Bool.false_ne_true
    subst hnil
    obtain ⟨m, hm⟩ := exists_steps hrun
    have hend := Calm.waiting false (a := doClient load) (b := p.answerer.party)
      (s := ⟨.hearsUpgrade, act₀, conf₀, feat, none⟩) (t := ⟨⟨n, .talks p.start⟩, []⟩) rfl rfl
    refine ⟨m, _, fun _ _ hd => hm.ends (Calm.diamond _ _) hend hd, hend, fun h => ?_, fun h => ?_⟩
    · exact absurd h.1 nofun
    · exact absurd hconf h
  · have hwaits : ∀ w k, Relation.ReflTransGen (Ask (doClient load) p.answerer)
          ⟨startClient act₀ conf₀, p.first, []⟩ w →
        doClient load w.left = .hear k → w.coming = [] →
        p.answerer.ended w.state = true ∧ doClient load (k none) = .stop := by
      intro w k hw ha hcoming
      refine ⟨(onTrack_run hp hw).waits hconf ha hcoming, ?_⟩
      obtain ⟨ret, hret⟩ := gives_up (.hear ha)
      unfold doClient
      rw [hret]
    obtain ⟨n, c, hl, hr, hall⟩ := (tires load).ends (lastWord_serving p).lost hwaits rfl
    exact ⟨n, c, hall, Calm.ended hl hr, fun _ => hconf, fun _ => ⟨hl, hr⟩⟩

theorem session_ends_backup :
    ∃ n c, (∀ m d, Steps (Calm (doClient fun _ _ => none) sampleServer.answerer.party) m
          ⟨startClient .backup sampleConf, ⟨sampleServer.first, []⟩, [], [], false⟩ d →
        ∃ k, n = m + k ∧ Steps (Calm (doClient fun _ _ => none) sampleServer.answerer.party) k d c)
      ∧ (∀ d, ¬ Calm (doClient fun _ _ => none) sampleServer.answerer.party c d)
      ∧ ((doClient (fun _ _ => none) c.left = .stop ∧ sampleServer.answerer.party c.right = .stop)
        ↔ ¬ Unanswered sampleConf) :=
  session_ends lists_sampleServer

end Ends

end Burp.Session
