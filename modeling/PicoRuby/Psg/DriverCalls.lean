import PicoRuby.Psg.Tracks

/-!
# What the driver can push

The methods of `PSG::Driver` in psg.c, and which of their packets lead `PSG_process_packet` or
`PSG_calc_sample` out of an array.
-/

namespace PicoRuby.Psg

open Shared PsgState

set_option autoImplicit false

/-- The methods with any integers, the last one of them the delay. -/
inductive DriverCall where
  | sendReg (reg val tickDelay : Int)
  | setLfo (tr depth rate tickDelay : Int)
  | setPan (tr pan tickDelay : Int)
  | setTimbre (tr timbre tickDelay : Int)
  | setLegato (tr legato tickDelay : Int)
  | mute (tr flag tickDelay : Int)
deriving DecidableEq, Repr

namespace DriverCall

def packetOf (op : UInt8) (reg val arg tickDelay : Int) : Packet :=
  ⟨BitVec.ofInt 32 tickDelay, op, UInt8.ofInt reg, UInt8.ofInt val, UInt8.ofInt arg⟩

/-- The packet for a call that raises no ArgumentError. -/
def packet : DriverCall → Option Packet
  | sendReg reg val tickDelay => some (packetOf pktRegWrite reg val 0 tickDelay)
  | setLfo tr depth rate tickDelay => some (packetOf pktLfoSet tr depth rate tickDelay)
  | setPan tr pan tickDelay =>
    if tr < 0 ∨ 2 < tr ∨ pan < 0 ∨ 15 < pan then none
    else some (packetOf pktPanSet tr pan 0 tickDelay)
  | setTimbre tr timbre tickDelay =>
    if tr < 0 ∨ 2 < tr then none else some (packetOf pktTimbreSet tr timbre 0 tickDelay)
  | setLegato tr legato tickDelay =>
    if tr < 0 ∨ 2 < tr then none else some (packetOf pktLegatoSet tr legato 0 tickDelay)
  | mute tr flag tickDelay => some (packetOf pktChMute tr flag 0 tickDelay)

end DriverCall

inductive DriverAction where
  | call (c : DriverCall)
  | sample
  | tick
deriving DecidableEq, Repr

/-- What of an action gets to the engine. -/
def DriverAction.engine : DriverAction → Option EngineAction
  | call c => c.packet.map EngineAction.packet
  | sample => some .sample
  | tick => some .tick

/-! ## Indices -/

theorem toNat_ofInt (x : Int) : (UInt8.ofInt x).toNat = (x % 256).toNat := by
  unfold UInt8.ofInt
  rw [UInt8.toNat_ofNat']
  omega

theorem toNat_and_low (x : UInt8) (k : Nat) (hk : k < 8) :
    (x &&& UInt8.ofNat (2 ^ k - 1)).toNat = x.toNat % 2 ^ k := by
  have hle : 2 ^ k ≤ 2 ^ 7 := Nat.pow_le_pow_right (by omega) (by omega)
  have hlt : 2 ^ k - 1 < UInt8.size := Nat.lt_of_le_of_lt (Nat.sub_le _ _) (Nat.lt_of_le_of_lt hle (by decide))
  have hmask : (UInt8.ofNat (2 ^ k - 1)).toNat = 2 ^ k - 1 := UInt8.toNat_ofNat_of_lt' hlt
  rw [UInt8.toNat_and, hmask, Nat.and_two_pow_sub_one_eq_mod]

theorem ofInt_and_three (x : Int) : (UInt8.ofInt x &&& 0x03).toNat = (x % 4).toNat := by
  have hlow := toNat_and_low (UInt8.ofInt x) 2 (by omega)
  rw [toNat_ofInt] at hlow
  refine hlow.trans ?_
  omega

theorem and_nibble_lt (x : UInt8) : (x &&& 0x0F).toNat < 16 := by
  have hlow := toNat_and_low x 4 (by omega)
  exact hlow ▸ Nat.mod_lt _ (by omega)

theorem index_isSome {tr : UInt8} : (index tr).isSome ↔ tr.toNat < 3 := by
  unfold index
  split <;> simp_all

/-- The `pan` of each track is an index of the pan tables. -/
def PanInRange (s : PsgState) : Prop := ∀ tr, (s.track tr).pan.toNat < 16

/-- The packet sets something of the track `pkt->reg & 0x03`. -/
def Packet.SetsTrack (pkt : Packet) : Prop :=
  pkt.op = pktLfoSet ∧ pkt.val.toNat ≤ maxLfoDepth ∨ pkt.op = pktPanSet ∨ pkt.op = pktTimbreSet ∨
    pkt.op = pktLegatoSet

/-- An action that stays within the arrays of `psg_t`. -/
def EngineAction.InTracks (a : EngineAction) : Prop :=
  ∀ pkt, a = .packet pkt → pkt.SetsTrack → (pkt.reg &&& 0x03).toNat < 3

section Packets
variable {s s' : PsgState} {pkt : Packet}

theorem setOfTrack_isSome {f : Track → Track} :
    (s.setOfTrack pkt f).isSome ↔ (pkt.reg &&& 0x03).toNat < 3 := by
  rw [← index_isSome, PsgState.setOfTrack]
  cases index (pkt.reg &&& 0x03) <;> simp

theorem processPacket_isSome :
    (s.processPacket pkt).isSome ↔ (pkt.SetsTrack → (pkt.reg &&& 0x03).toNat < 3) := by
  have hrate : ¬ maxLfoRate < pkt.arg.toNat := by
    have := pkt.arg.toNat_lt
    unfold maxLfoRate
    omega
  have hops : pktRegWrite ≠ pktLfoSet ∧ pktRegWrite ≠ pktPanSet ∧ pktRegWrite ≠ pktTimbreSet ∧
      pktRegWrite ≠ pktLegatoSet ∧ pktChMute ≠ pktLfoSet ∧ pktChMute ≠ pktPanSet ∧
      pktChMute ≠ pktTimbreSet ∧ pktChMute ≠ pktLegatoSet ∧ pktLfoSet ≠ pktPanSet ∧
      pktLfoSet ≠ pktTimbreSet ∧ pktLfoSet ≠ pktLegatoSet := by decide
  unfold processPacket Packet.SetsTrack
  by_cases hreg : pkt.op = pktRegWrite
  · simp [hreg, hops]
  by_cases hlfo : pkt.op = pktLfoSet
  · by_cases hdepth : maxLfoDepth < pkt.val.toNat
    · simp [hlfo, hdepth, hops, hops.1.symm, Nat.not_le.mpr hdepth]
    · simp [hlfo, hdepth, hrate, hops.1.symm, setOfTrack_isSome, Nat.not_lt.mp hdepth]
  by_cases hmute : pkt.op = pktChMute
  · simp [hmute, hops, (by decide : pktChMute ≠ pktRegWrite)]
  rw [if_neg hreg, if_neg hlfo, if_neg hmute]
  split_ifs with hpan htimbre hlegato
  · simp [hpan, setOfTrack_isSome]
  · simp [htimbre, setOfTrack_isSome]
  · simp [hlegato, setOfTrack_isSome]
  · simp [hlfo, hpan, htimbre, hlegato]

theorem writeReg_pan (tr : Fin 3) (t : Track) (reg val : UInt8) :
    (t.writeReg tr reg val).pan = t.pan := by
  unfold Track.writeReg
  split_ifs
  all_goals rfl

theorem setTrack_panInRange {tr : Fin 3} {t : Track} (hs : PanInRange s) (ht : t.pan.toNat < 16) :
    PanInRange (s.setTrack tr t) := by
  intro k
  by_cases hk : k = tr
  · subst hk
    simpa using ht
  · rw [setTrack_of_ne s t hk]
    exact hs k

theorem setOfTrack_panInRange {f : Track → Track} (hs : PanInRange s)
    (h : s.setOfTrack pkt f = some s') (hf : ∀ t : Track, t.pan.toNat < 16 → (f t).pan.toNat < 16) :
    PanInRange s' := by
  obtain ⟨tr, -, rfl⟩ := setOfTrack_some h
  exact setTrack_panInRange hs (hf _ (hs tr))

theorem processPacket_panInRange (hs : PanInRange s) (h : s.processPacket pkt = some s') :
    PanInRange s' := by
  unfold processPacket at h
  split_ifs at h
  · obtain rfl := Option.some.inj h
    intro tr
    rw [writeReg_track, writeReg_pan]
    exact hs tr
  · exact Option.some.inj h ▸ hs
  · exact setOfTrack_panInRange hs h fun t ht => ht
  · exact Option.some.inj h ▸ hs
  · exact setOfTrack_panInRange hs h fun t _ => and_nibble_lt pkt.val
  · exact setOfTrack_panInRange hs h fun t ht => ht
  · exact setOfTrack_panInRange hs h fun t ht => ht
  · exact Option.some.inj h ▸ hs

end Packets

section Samples
variable {s s' : PsgState}

theorem updateEnvelopes_panInRange {trs : List (Fin 3)} (hs : PanInRange s) :
    PanInRange (s.updateEnvelopes trs) := by
  induction trs generalizing s with
  | nil => exact hs
  | cons tr trs ih =>
    unfold updateEnvelopes
    dsimp only
    split
    · exact setTrack_panInRange hs (hs tr)
    · exact ih (setTrack_panInRange hs (hs tr))

theorem updateNoise_track (s : PsgState) : s.updateNoise.track = s.track := by
  unfold updateNoise
  dsimp only
  split <;> rfl

theorem trackMix_isSome (hs : PanInRange s) (tr : Fin 3) : (s.trackMix tr).isSome := by
  have hpan := hs tr
  have hvol : (s.track tr).volIndex.toNat < volTab.length := and_nibble_lt _
  have hleft : (s.track tr).pan.toNat < panTabL.length := hpan
  have hright : (s.track tr).pan.toNat < panTabR.length := hpan
  unfold trackMix
  dsimp only
  split_ifs
  · rfl
  · rfl
  · simp [List.getElem?_eq_getElem hvol, List.getElem?_eq_getElem hleft,
      List.getElem?_eq_getElem hright]

theorem updatePhase_pan (t : Track) : t.updatePhase.pan = t.pan := by
  unfold Track.updatePhase
  split <;> rfl

theorem mixTracks_panInRange {trs : List (Fin 3)} {l r : UInt32} (hs : PanInRange s) :
    ∃ l' r' s', s.mixTracks l r trs = some (l', r', s') ∧ PanInRange s' := by
  induction trs generalizing s l r with
  | nil => exact ⟨l, r, s, rfl, hs⟩
  | cons tr trs ih =>
    have hphase : PanInRange (s.setTrack tr (s.track tr).updatePhase) := by
      apply setTrack_panInRange hs
      rw [updatePhase_pan]
      exact hs tr
    obtain ⟨mixed, hmixed⟩ := Option.isSome_iff_exists.mp (trackMix_isSome hphase tr)
    obtain ⟨l', r', s', hrest, hs'⟩ := ih hphase
    refine ⟨l', r', s', ?_, hs'⟩
    rw [mixTracks, hmixed]
    exact hrest

theorem calcSample_panInRange (hs : PanInRange s) : ∃ out s', s.calcSample = some (out, s') ∧
    PanInRange s' := by
  have hready : PanInRange s.updateEnvelope.updateNoise := by
    intro tr
    rw [updateNoise_track]
    exact updateEnvelopes_panInRange hs tr
  obtain ⟨l, r, s', hmix, hs'⟩ := mixTracks_panInRange hready
  refine ⟨((softClip l).toUInt16, (softClip r).toUInt16), s', ?_, hs'⟩
  rw [calcSample, hmix]
  rfl

theorem next_isSome {a : EngineAction} (hs : PanInRange s) : (s.next a).isSome ↔ a.InTracks := by
  cases a with
  | packet pkt =>
    rw [PsgState.next, processPacket_isSome]
    constructor
    · rintro h _ ⟨⟩ hsets
      exact h hsets
    · intro h hsets
      exact h pkt rfl hsets
  | sample =>
    obtain ⟨out, s', hout, -⟩ := calcSample_panInRange hs
    simp [PsgState.next, hout, EngineAction.InTracks]
  | tick => simp [PsgState.next, EngineAction.InTracks]

theorem next_panInRange {a : EngineAction} (hs : PanInRange s) (h : s.next a = some s') :
    PanInRange s' := by
  cases a with
  | packet pkt => exact processPacket_panInRange hs h
  | sample =>
    obtain ⟨out, t, hout, ht⟩ := calcSample_panInRange hs
    rw [PsgState.next, hout] at h
    exact Option.some.inj h ▸ ht
  | tick =>
    cases h
    exact hs

/-- A run leaves the arrays exactly at an action that does. -/
theorem run_isSome {actions : List EngineAction} (hs : PanInRange s) :
    (s.run actions).isSome ↔ ∀ a ∈ actions, a.InTracks := by
  induction actions generalizing s with
  | nil => simp [PsgState.run]
  | cons a actions ih =>
    rw [List.forall_mem_cons, ← next_isSome hs]
    have hrun : s.run (a :: actions) = (s.next a).bind fun t => t.run actions := List.foldlM_cons ..
    rw [hrun]
    cases hstep : s.next a with
    | none => simp
    | some t => simpa using ih (next_panInRange hs hstep)

end Samples

/-! ## The calls -/

theorem packet_of_call {c : DriverCall} {pkt : Packet} (h : c.packet = some pkt) :
    (pkt.SetsTrack → (pkt.reg &&& 0x03).toNat < 3) ↔
      ∀ tr depth rate tickDelay, c = .setLfo tr depth rate tickDelay →
        tr % 4 ≠ 3 ∨ maxLfoDepth < depth % 256 := by
  cases c with
  | sendReg reg val tickDelay =>
    cases h
    simp [Packet.SetsTrack, DriverCall.packetOf, (by decide : pktRegWrite ≠ pktLfoSet ∧
      pktRegWrite ≠ pktPanSet ∧ pktRegWrite ≠ pktTimbreSet ∧ pktRegWrite ≠ pktLegatoSet)]
  | mute tr flag tickDelay =>
    cases h
    simp [Packet.SetsTrack, DriverCall.packetOf, (by decide : pktChMute ≠ pktLfoSet ∧
      pktChMute ≠ pktPanSet ∧ pktChMute ≠ pktTimbreSet ∧ pktChMute ≠ pktLegatoSet)]
  | setLfo tr depth rate tickDelay =>
    cases h
    have hsets : (DriverCall.packetOf pktLfoSet tr depth rate tickDelay).SetsTrack ↔
        (depth % 256).toNat ≤ maxLfoDepth := by
      simp [Packet.SetsTrack, DriverCall.packetOf, toNat_ofInt, (by decide : pktLfoSet ≠ pktPanSet ∧
        pktLfoSet ≠ pktTimbreSet ∧ pktLfoSet ≠ pktLegatoSet)]
    rw [hsets]
    simp only [DriverCall.packetOf, ofInt_and_three, DriverCall.setLfo.injEq]
    constructor
    · rintro himp _ _ _ _ ⟨rfl, rfl, rfl, rfl⟩
      by_cases hdepth : (depth % 256).toNat ≤ maxLfoDepth
      · have := himp hdepth
        left
        omega
      · right
        omega
    · intro himp hdepth
      rcases himp tr depth rate tickDelay ⟨rfl, rfl, rfl, rfl⟩ with htr | hrejected
      · omega
      · omega
  | setPan tr pan tickDelay =>
    simp only [DriverCall.packet, Option.ite_none_left_eq_some, not_or] at h
    obtain ⟨hrange, ⟨⟩⟩ := h
    simp only [DriverCall.packetOf, ofInt_and_three, reduceCtorEq, false_implies, implies_true, iff_true]
    intro _
    omega
  | setTimbre tr timbre tickDelay =>
    simp only [DriverCall.packet, Option.ite_none_left_eq_some, not_or] at h
    obtain ⟨hrange, ⟨⟩⟩ := h
    simp only [DriverCall.packetOf, ofInt_and_three, reduceCtorEq, false_implies, implies_true, iff_true]
    intro _
    omega
  | setLegato tr legato tickDelay =>
    simp only [DriverCall.packet, Option.ite_none_left_eq_some, not_or] at h
    obtain ⟨hrange, ⟨⟩⟩ := h
    simp only [DriverCall.packetOf, ofInt_and_three, reduceCtorEq, false_implies, implies_true, iff_true]
    intro _
    omega

/-- No array is left, whatever the driver has pushed, exactly when `set_lfo` has not been called for the
fourth track that `0x03` lets through, with a depth that `PSG_process_packet` takes. -/
theorem calls_in_bounds (actions : List DriverAction) :
    (resetPsg.run (actions.filterMap DriverAction.engine)).isSome ↔
      ∀ tr depth rate tickDelay : Int, .call (.setLfo tr depth rate tickDelay) ∈ actions →
        tr % 4 ≠ 3 ∨ maxLfoDepth < depth % 256 := by
  have hreset : PanInRange resetPsg := fun _ => (by decide : 8 < 16)
  rw [run_isSome hreset]
  constructor
  · intro hin tr depth rate tickDelay hmem
    have hpacket : (DriverCall.setLfo tr depth rate tickDelay).packet =
      some (DriverCall.packetOf pktLfoSet tr depth rate tickDelay) := rfl
    have hengine := hin _ (List.mem_filterMap.mpr ⟨_, hmem, congrArg (Option.map _) hpacket⟩)
    exact (packet_of_call hpacket).mp (hengine _ rfl) _ _ _ _ rfl
  · rintro hcalls a hmem pkt rfl
    obtain ⟨action, haction, hengine⟩ := List.mem_filterMap.mp hmem
    cases action with
    | call c =>
      obtain ⟨pkt', hpacket, hpkt⟩ := Option.map_eq_some_iff.mp hengine
      cases hpkt
      refine (packet_of_call hpacket).mpr ?_
      rintro tr depth rate tickDelay rfl
      exact hcalls tr depth rate tickDelay haction
    | sample => cases hengine
    | tick => cases hengine

/-- `set_lfo(3, 0, 0)`. -/
theorem fourth_track_out_of_bounds :
    ¬ (resetPsg.run ([DriverAction.call (.setLfo 3 0 0 0)].filterMap DriverAction.engine)).isSome := by
  decide +kernel

end PicoRuby.Psg
