import PicoRuby.Psg.Engine
import PicoRuby.Shared.Runs
import Mathlib.Tactic.FinCases
import Mathlib.Data.Fintype.Basic

/-!
# The tracks

What gets to one track. The envelope of a track goes on its own unless `update_envelope` returns
from a track before it.
-/

namespace PicoRuby.Psg

open Shared PsgState

set_option autoImplicit false

/-! ## Registers -/

/-- What a write of a register does with one track. -/
def Track.writeReg (tr : Fin 3) (t : Track) (reg val : UInt8) : Track :=
  if reg.toNat = 2 * tr then t.writeToneLsb val
  else if reg.toNat = 2 * tr + 1 then t.writeToneMsb val
  else if reg.toNat = 8 + tr then t.writeVolume val
  else if reg.toNat = 13 then t.writeShape val
  else t

/-- What a write of a register does with the envelope period. -/
def periodAfter (period : UInt16) (reg val : UInt8) : UInt16 :=
  if reg.toNat = 11 then (period &&& (0xFF00 : UInt16)) ||| val.toUInt16
  else if reg.toNat = 12 then (period &&& (0x00FF : UInt16)) ||| (val.toUInt16 <<< 8)
  else period

@[simp] theorem setTrack_self (s : PsgState) (tr : Fin 3) (t : Track) : (s.setTrack tr t).track tr = t :=
  Function.update_self _ _ _

theorem setTrack_of_ne (s : PsgState) {tr k : Fin 3} (t : Track) (h : k ≠ tr) :
    (s.setTrack tr t).track k = s.track k := Function.update_of_ne h _ _

@[simp] theorem setTrack_period (s : PsgState) (tr : Fin 3) (t : Track) :
    (s.setTrack tr t).envelopePeriod = s.envelopePeriod := rfl

theorem writeReg_track (s : PsgState) (reg val : UInt8) (tr : Fin 3) :
    (s.writeReg reg val).track tr = (s.track tr).writeReg tr reg val := by
  unfold PsgState.writeReg Track.writeReg
  split
  -- a register of the chip, for each of the three tracks
  all_goals fin_cases tr
  all_goals simp_all [setTrack_of_ne]

theorem writeReg_period (s : PsgState) (reg val : UInt8) :
    (s.writeReg reg val).envelopePeriod = periodAfter s.envelopePeriod reg val := by
  unfold PsgState.writeReg periodAfter
  split
  all_goals simp_all

/-! ## What is heard of an envelope -/

/-- What the envelope of a track goes by. -/
structure Heard where
  env : Envelope
  volume : UInt8
  legato : Bool
  period : UInt16
deriving DecidableEq

def PsgState.heard (s : PsgState) (tr : Fin 3) : Heard :=
  ⟨(s.track tr).env, (s.track tr).volume, (s.track tr).legato, s.envelopePeriod⟩

namespace Heard

def usesEnvelope (v : Heard) : Bool := v.volume &&& 0x10 ≠ 0

def writeReg (tr : Fin 3) (v : Heard) (reg val : UInt8) : Heard :=
  if reg.toNat = 2 * tr + 1 then
    { v with env := if v.usesEnvelope && !v.legato then v.env.reset else v.env }
  else if reg.toNat = 8 + tr then { v with volume := val &&& 0x1F }
  else if reg.toNat = 13 then
    { v with env := { v.env with
        cont := (val >>> 3) &&& 1
        attack := (val >>> 2) &&& 1
        alternate := (val >>> 1) &&& 1
        hold := val &&& 1 }.reset }
  else { v with period := periodAfter v.period reg val }

/-- A track without the others. -/
def next (tr : Fin 3) (v : Heard) : EngineAction → Heard
  | .packet pkt =>
    if pkt.op = pktRegWrite then v.writeReg tr pkt.reg pkt.val
    else if pkt.op = pktLegatoSet then { v with legato := pkt.val ≠ 0 }
    else v
  | .sample => { v with env := (v.env.update v.usesEnvelope v.period).1 }
  | .tick => v

end Heard

/-- A packet addresses the track, or it sets the period or the shape of the envelopes. -/
def Packet.concerns (tr : Fin 3) (pkt : Packet) : Bool :=
  if pkt.op = pktRegWrite then
    pkt.reg.toNat = 2 * tr ∨ pkt.reg.toNat = 2 * tr + 1 ∨ pkt.reg.toNat = 8 + tr ∨
      pkt.reg.toNat = 11 ∨ pkt.reg.toNat = 12 ∨ pkt.reg.toNat = 13
  else (pkt.reg &&& 0x03).toNat = tr

def EngineAction.concerns (tr : Fin 3) : EngineAction → Bool
  | packet pkt => pkt.concerns tr
  | sample => true
  | tick => false

section Packets
variable {s s' : PsgState} {pkt : Packet} {tr : Fin 3}

theorem setOfTrack_some {f : Track → Track} (h : s.setOfTrack pkt f = some s') :
    ∃ k, (pkt.reg &&& 0x03).toNat = k.val ∧ s' = s.setTrack k (f (s.track k)) := by
  obtain ⟨k, hk, hret⟩ := Option.bind_eq_some_iff.mp h
  unfold index at hk
  split at hk
  · obtain rfl := Option.some.inj hk
    exact ⟨_, rfl, (Option.some.inj hret).symm⟩
  · cases hk

theorem setOfTrack_heard {f : Track → Track} (h : s.setOfTrack pkt f = some s')
    (hf : ∀ t, (f t).env = t.env ∧ (f t).volume = t.volume ∧ (f t).legato = t.legato) :
    s'.heard tr = s.heard tr := by
  obtain ⟨k, -, rfl⟩ := setOfTrack_some h
  by_cases htr : tr = k
  · subst htr
    simp [PsgState.heard, hf]
  · simp [PsgState.heard, setTrack_of_ne s _ htr]

theorem writeReg_heard (s : PsgState) (reg val : UInt8) (tr : Fin 3) :
    (s.writeReg reg val).heard tr = (s.heard tr).writeReg tr reg val := by
  have htr := tr.isLt
  have hkept (h : reg.toNat ≠ 11 ∧ reg.toNat ≠ 12) :
      periodAfter s.envelopePeriod reg val = s.envelopePeriod := by simp [periodAfter, h]
  unfold PsgState.heard
  rw [writeReg_track, writeReg_period]
  unfold Heard.writeReg Track.writeReg
  by_cases hmsb : reg.toNat = 2 * tr + 1
  · rw [if_pos hmsb, if_neg (by omega), if_pos hmsb, hkept (by omega)]
    rfl
  by_cases hvolume : reg.toNat = 8 + tr
  · rw [if_neg hmsb, if_pos hvolume, if_neg (by omega), if_neg hmsb, if_pos hvolume, hkept (by omega)]
    rfl
  by_cases hshape : reg.toNat = 13
  · rw [if_neg hmsb, if_neg hvolume, if_pos hshape, if_neg (by omega), if_neg hmsb, if_neg hvolume,
      if_pos hshape, hkept (by omega)]
    rfl
  · rw [if_neg hmsb, if_neg hvolume, if_neg hshape, if_neg hmsb, if_neg hvolume, if_neg hshape]
    split_ifs
    all_goals rfl

theorem writeReg_foreign {v : Heard} {reg val : UInt8} (h : ¬ (reg.toNat = 2 * tr ∨
    reg.toNat = 2 * tr + 1 ∨ reg.toNat = 8 + tr ∨ reg.toNat = 11 ∨ reg.toNat = 12 ∨ reg.toNat = 13)) :
    v.writeReg tr reg val = v := by
  simp only [not_or] at h
  obtain ⟨-, hmsb, hvolume, hlow, hhigh, hshape⟩ := h
  rw [Heard.writeReg, if_neg hmsb, if_neg hvolume, if_neg hshape, periodAfter, if_neg hlow, if_neg hhigh]

theorem heard_packet (h : s.processPacket pkt = some s') : s'.heard tr =
    if pkt.concerns tr then (s.heard tr).next tr (.packet pkt) else s.heard tr := by
  unfold PsgState.processPacket at h
  by_cases hreg : pkt.op = pktRegWrite
  · rw [if_pos hreg] at h
    obtain rfl := Option.some.inj h
    rw [writeReg_heard, Packet.concerns, if_pos hreg, Heard.next, if_pos hreg]
    split
    · rfl
    · rename_i hforeign
      exact writeReg_foreign fun hown => hforeign (decide_eq_true hown)
  rw [if_neg hreg] at h
  have hnext (hlegato : pkt.op ≠ pktLegatoSet) (hsame : s'.heard tr = s.heard tr) : s'.heard tr =
      if pkt.concerns tr then (s.heard tr).next tr (.packet pkt) else s.heard tr := by
    rw [hsame, Heard.next, if_neg hreg, if_neg hlegato, ite_self]
  by_cases hlfo : pkt.op = pktLfoSet
  · rw [if_pos hlfo] at h
    apply hnext (by rw [hlfo]; decide)
    split at h
    · rw [Option.some.inj h]
    · exact setOfTrack_heard h fun t => ⟨rfl, rfl, rfl⟩
  rw [if_neg hlfo] at h
  by_cases hmute : pkt.op = pktChMute
  · rw [if_pos hmute] at h
    apply hnext (by rw [hmute]; decide)
    rw [← Option.some.inj h]
    rfl
  rw [if_neg hmute] at h
  by_cases hpan : pkt.op = pktPanSet
  · rw [if_pos hpan] at h
    apply hnext (by rw [hpan]; decide)
    exact setOfTrack_heard h fun t => ⟨rfl, rfl, rfl⟩
  rw [if_neg hpan] at h
  by_cases htimbre : pkt.op = pktTimbreSet
  · rw [if_pos htimbre] at h
    apply hnext (by rw [htimbre]; decide)
    exact setOfTrack_heard h fun t => ⟨rfl, rfl, rfl⟩
  rw [if_neg htimbre] at h
  by_cases hlegato : pkt.op = pktLegatoSet
  · rw [if_pos hlegato] at h
    obtain ⟨k, hk, rfl⟩ := setOfTrack_some h
    rw [Packet.concerns, if_neg hreg, hk, Heard.next, if_neg hreg, if_pos hlegato]
    by_cases htr : tr = k
    · subst htr
      simp [PsgState.heard]
    · have hne : ¬ k.val = tr.val := fun heq => htr (Fin.ext heq.symm)
      simp [PsgState.heard, setTrack_of_ne s _ htr, hne]
  · rw [if_neg hlegato] at h
    apply hnext hlegato
    rw [Option.some.inj h]

end Packets

/-! ## Samples -/

/-- `update_envelope` comes to a step of the envelope and returns from it. -/
def Envelope.Due (e : Envelope) (used : Bool) (period : UInt16) : Prop :=
  used = true ∧ e.running = true ∧ period ≠ 0 ∧ period ≤ e.cnt + 1 ∧
    (e.atEnd = false ∨ e.cont = 0 ∨ e.hold ≠ 0)

instance (e : Envelope) (used : Bool) (period : UInt16) : Decidable (e.Due used period) :=
  inferInstanceAs (Decidable (_ ∧ _))

theorem advance_returns {e : Envelope} :
    e.advance.2 = true ↔ e.atEnd = false ∨ e.cont = 0 ∨ e.hold ≠ 0 := by
  unfold Envelope.advance
  split_ifs <;> simp_all

theorem update_returns {e : Envelope} {used : Bool} {period : UInt16} :
    (e.update used period).2 = true ↔ e.Due used period := by
  unfold Envelope.update Envelope.Due
  by_cases hused : used = true
  · by_cases hrunning : e.running = true
    · by_cases hperiod : period = 0
      · simp [hperiod]
      · by_cases hcnt : e.cnt + 1 < period
        · simp [hused, hrunning, hperiod, hcnt]
        · have hle : period ≤ e.cnt + 1 := UInt16.not_lt.mp hcnt
          simpa [hused, hrunning, hperiod, hcnt, hle, Envelope.atEnd] using
            @advance_returns { e with cnt := 0 }
    · simp [hrunning]
  · simp [hused]

/-- No track before this one makes `update_envelope` return. -/
def PsgState.Clear (s : PsgState) (tr : Fin 3) : Prop :=
  ∀ k < tr, ¬ (s.track k).env.Due (s.track k).usesEnvelope s.envelopePeriod

instance (s : PsgState) (tr : Fin 3) : Decidable (s.Clear tr) :=
  inferInstanceAs (Decidable (∀ k < tr, _))

section Samples
variable {s s' : PsgState} {tr : Fin 3} {trs : List (Fin 3)}

theorem updateEnvelopes_of_not_mem (h : tr ∉ trs) : (s.updateEnvelopes trs).heard tr = s.heard tr := by
  induction trs generalizing s with
  | nil => rfl
  | cons k trs ih =>
    simp only [List.mem_cons, not_or] at h
    obtain ⟨hne, hrest⟩ := h
    have hset (t : Track) : (s.setTrack k t).heard tr = s.heard tr := by
      simp [PsgState.heard, setTrack_of_ne s t hne]
    unfold updateEnvelopes
    dsimp only
    split
    · exact hset _
    · rw [ih hrest, hset]

/-- The loop comes to a track if no track before it returns. -/
theorem updateEnvelopes_heard {before after : List (Fin 3)} (hbefore : tr ∉ before)
    (hafter : tr ∉ after) (hnodup : before.Nodup)
    (hclear : ∀ k ∈ before, ¬ (s.track k).env.Due (s.track k).usesEnvelope s.envelopePeriod) :
    (s.updateEnvelopes (before ++ tr :: after)).heard tr = (s.heard tr).next tr .sample := by
  induction before generalizing s with
  | nil =>
    rw [List.nil_append, updateEnvelopes]
    dsimp only
    split
    · simp only [PsgState.heard, setTrack_self, setTrack_period]
      rfl
    · rw [updateEnvelopes_of_not_mem hafter]
      simp only [PsgState.heard, setTrack_self, setTrack_period]
      rfl
  | cons k before ih =>
    simp only [List.mem_cons, not_or] at hbefore
    obtain ⟨hne, hbefore⟩ := hbefore
    obtain ⟨hk, hnodup⟩ := List.nodup_cons.mp hnodup
    have hstays := hclear k List.mem_cons_self
    rw [← update_returns] at hstays
    rw [List.cons_append, updateEnvelopes]
    dsimp only
    rw [if_neg hstays, ih hbefore hnodup]
    · simp [PsgState.heard, setTrack_of_ne s _ hne]
    · intro j hj
      have hjk : j ≠ k := fun heq => hk (heq ▸ hj)
      rw [setTrack_of_ne s _ hjk]
      exact hclear j (List.mem_cons_of_mem k hj)

/-- The tracks that the loop comes to before this one. -/
theorem loop_split (tr : Fin 3) : ∃ before after, [0, 1, 2] = before ++ tr :: after ∧ tr ∉ after ∧
    before.Nodup ∧ ∀ k, k ∈ before ↔ k < tr := by
  fin_cases tr
  · exact ⟨[], [1, 2], rfl, by decide⟩
  · exact ⟨[0], [2], rfl, by decide⟩
  · exact ⟨[0, 1], [], rfl, by decide⟩

theorem updateEnvelope_heard (h : s.Clear tr) :
    s.updateEnvelope.heard tr = (s.heard tr).next tr .sample := by
  obtain ⟨before, after, hlist, hafter, hnodup, hbefore⟩ := loop_split tr
  rw [updateEnvelope, hlist]
  have hnot : tr ∉ before := fun hmem => lt_irrefl tr ((hbefore tr).mp hmem)
  exact updateEnvelopes_heard hnot hafter hnodup fun k hk => h k ((hbefore k).mp hk)

/-- A step before the track takes the loop out. -/
theorem updateEnvelopes_hindered {before after : List (Fin 3)} (hbefore : tr ∉ before)
    (hnodup : before.Nodup)
    (hdue : ∃ k ∈ before, (s.track k).env.Due (s.track k).usesEnvelope s.envelopePeriod) :
    (s.updateEnvelopes (before ++ tr :: after)).heard tr = s.heard tr := by
  induction before generalizing s with
  | nil => simp at hdue
  | cons k before ih =>
    simp only [List.mem_cons, not_or] at hbefore
    obtain ⟨hne, hbefore⟩ := hbefore
    obtain ⟨hk, hnodup⟩ := List.nodup_cons.mp hnodup
    have hset (t : Track) : (s.setTrack k t).heard tr = s.heard tr := by
      simp [PsgState.heard, setTrack_of_ne s t hne]
    rw [List.cons_append, updateEnvelopes]
    dsimp only
    split
    · exact hset _
    · rename_i hstays
      rw [ih hbefore hnodup, hset]
      obtain ⟨j, hj, hjdue⟩ := hdue
      rcases List.mem_cons.mp hj with rfl | hj
      · exact absurd (update_returns.mpr hjdue) hstays
      · have hjk : j ≠ k := fun heq => hk (heq ▸ hj)
        refine ⟨j, hj, ?_⟩
        rw [setTrack_of_ne s _ hjk]
        exact hjdue

theorem updateEnvelope_hindered (h : ¬ s.Clear tr) : s.updateEnvelope.heard tr = s.heard tr := by
  obtain ⟨before, after, hlist, -, hnodup, hbefore⟩ := loop_split tr
  rw [updateEnvelope, hlist]
  have hnot : tr ∉ before := fun hmem => lt_irrefl tr ((hbefore tr).mp hmem)
  refine updateEnvelopes_hindered hnot hnodup ?_
  unfold PsgState.Clear at h
  push Not at h
  obtain ⟨k, hk, hdue⟩ := h
  exact ⟨k, (hbefore k).mpr hk, hdue⟩

theorem updateNoise_heard : s.updateNoise.heard tr = s.heard tr := by
  unfold updateNoise
  dsimp only
  split <;> rfl

theorem mixTracks_heard {l r l' r' : UInt32} (h : s.mixTracks l r trs = some (l', r', s')) :
    s'.heard tr = s.heard tr := by
  induction trs generalizing s l r with
  | nil =>
    cases h
    rfl
  | cons k trs ih =>
    obtain ⟨mixed, -, hrest⟩ := Option.bind_eq_some_iff.mp h
    rw [ih hrest]
    have hphase (t : Track) : t.updatePhase.env = t.env ∧ t.updatePhase.volume = t.volume ∧
        t.updatePhase.legato = t.legato := by
      unfold Track.updatePhase
      split <;> simp
    by_cases htr : tr = k
    · subst htr
      simp [PsgState.heard, hphase]
    · simp [PsgState.heard, setTrack_of_ne s _ htr]

theorem calcSample_heard {out : UInt16 × UInt16} (h : s.calcSample = some (out, s')) :
    s'.heard tr = s.updateEnvelope.heard tr := by
  obtain ⟨⟨l, r, mixed⟩, hmixed, hret⟩ := Option.bind_eq_some_iff.mp h
  cases hret
  rw [mixTracks_heard hmixed, updateNoise_heard]

theorem heard_sample (h : s.next .sample = some s') :
    s'.heard tr = if s.Clear tr then (s.heard tr).next tr .sample else s.heard tr := by
  obtain ⟨⟨out, t⟩, ht, rfl⟩ := Option.map_eq_some_iff.mp h
  rw [calcSample_heard ht]
  split_ifs with hclear
  · exact updateEnvelope_heard hclear
  · exact updateEnvelope_hindered hclear

/-- One action, for a track that is not held up by the tracks before it. -/
theorem heard_next {a : EngineAction} (h : s.next a = some s') (hclear : a = .sample → s.Clear tr) :
    s'.heard tr = if a.concerns tr then (s.heard tr).next tr a else s.heard tr := by
  cases a with
  | packet pkt => exact heard_packet h
  | sample =>
    rw [heard_sample h, if_pos (hclear rfl)]
    rfl
  | tick =>
    cases h
    rfl

end Samples

/-! ## Tracks on their own -/

/-- No track is held up in this action. -/
def Unhindered (tr : Fin 3) (s : PsgState) (a : EngineAction) : Prop := a = .sample → s.Clear tr

instance (tr : Fin 3) (s : PsgState) (a : EngineAction) : Decidable (Unhindered tr s a) :=
  inferInstanceAs (Decidable (_ → _))

/-- Then a track goes through a run as if there were nothing but what concerns it. -/
theorem run_heard {tr : Fin 3} {s s' : PsgState} {actions : List EngineAction}
    (h : Run (fun s a t => s.next a = some t) (Unhindered tr) s actions s') :
    s'.heard tr = (actions.filter (EngineAction.concerns tr)).foldl (Heard.next tr) (s.heard tr) := by
  induction h with
  | refl => rfl
  | @snoc t u actions a _ hclear hstep ih =>
    rw [heard_next hstep hclear, List.filter_append, List.foldl_append, ← ih]
    cases hconcerns : a.concerns tr <;> simp [hconcerns]

/-- The engine up to the first sample that holds the track up. -/
def unhinderedNext (tr : Fin 3) (s : PsgState) (a : EngineAction) : Option PsgState :=
  if Unhindered tr s a then s.next a else none

theorem run_of_unhinderedNext {tr : Fin 3} {s s' : PsgState} {actions : List EngineAction}
    (h : actions.foldlM (unhinderedNext tr) s = some s') :
    Run (fun s a t => s.next a = some t) (Unhindered tr) s actions s' := by
  apply Run.of_foldlM_ok _ h
  intro s a t hst
  unfold unhinderedNext at hst
  split at hst
  · rename_i hok
    exact ⟨hok, hst⟩
  · cases hst

/-- The level, the direction and the running state of an envelope are the same after two runs with the
same samples and the same packets for the track and for the envelopes, when no track before it returns
from a step of its envelope. -/
theorem envelope_independent (tr : Fin 3) (actions actions' : List EngineAction) (s s' : PsgState)
    (h : Run (fun s a t => s.next a = some t) (Unhindered tr) resetPsg actions s)
    (h' : Run (fun s a t => s.next a = some t) (Unhindered tr) resetPsg actions' s')
    (hsame : actions.filter (EngineAction.concerns tr) = actions'.filter (EngineAction.concerns tr)) :
    (s.track tr).env.level = (s'.track tr).env.level ∧ (s.track tr).env.dir = (s'.track tr).env.dir ∧
      (s.track tr).env.running = (s'.track tr).env.running := by
  have hheard : s.heard tr = s'.heard tr := by rw [run_heard h, run_heard h', hsame]
  have henv : (s.track tr).env = (s'.track tr).env := congrArg Heard.env hheard
  rw [henv]
  exact ⟨rfl, rfl, rfl⟩

/-- Track A is detuned and has a fixed volume in one of the runs. -/
theorem envelope_independent_detuned : ∃ s s' : PsgState,
    (s.track 1).env.level = (s'.track 1).env.level ∧ (s.track 1).env.dir = (s'.track 1).env.dir ∧
      (s.track 1).env.running = (s'.track 1).env.running := by
  let shared : List EngineAction :=
    [.packet ⟨0, 0, 13, 14, 0⟩, .packet ⟨0, 0, 11, 1, 0⟩, .packet ⟨0, 0, 9, 16, 0⟩, .sample]
  let detuned : List EngineAction := [.packet ⟨0, 0, 0, 7, 0⟩, .packet ⟨0, 0, 8, 3, 0⟩] ++ shared
  obtain ⟨s, hs⟩ := Option.isSome_iff_exists.mp
    (by decide +kernel : (shared.foldlM (unhinderedNext 1) resetPsg).isSome)
  obtain ⟨s', hs'⟩ := Option.isSome_iff_exists.mp
    (by decide +kernel : (detuned.foldlM (unhinderedNext 1) resetPsg).isSome)
  exact ⟨s, s', envelope_independent 1 shared detuned s s' (run_of_unhinderedNext hs)
    (run_of_unhinderedNext hs') (by decide)⟩

/-- Only the volume of track A differs, by the bit for the envelope, and track B has another level. -/
theorem envelope_held_up :
    [EngineAction.packet ⟨0, 0, 8, 16, 0⟩].filter (EngineAction.concerns 1) = [] ∧
    (resetPsg.run [.packet ⟨0, 0, 13, 14, 0⟩, .packet ⟨0, 0, 11, 1, 0⟩, .packet ⟨0, 0, 9, 16, 0⟩,
      .sample]).map (fun s => (s.track 1).env.level) = some 1 ∧
    (resetPsg.run [.packet ⟨0, 0, 8, 16, 0⟩, .packet ⟨0, 0, 13, 14, 0⟩, .packet ⟨0, 0, 11, 1, 0⟩,
      .packet ⟨0, 0, 9, 16, 0⟩, .sample]).map (fun s => (s.track 1).env.level) = some 0 := by
  decide +kernel

end PicoRuby.Psg
