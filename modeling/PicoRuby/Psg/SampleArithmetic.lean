import PicoRuby.Psg.Tracks

/-!
# The arithmetic of a sample

What is calculated for a sample in registers of 32 bits, and the same over the integers.
-/

namespace PicoRuby.Psg

open Shared PsgState

set_option autoImplicit false

/-! ## Over the integers -/

namespace Track

/-- `frac` in `PSG_calc_sample`. -/
def frac (t : Track) : Int := (((t.lfoDepth.toInt8.toInt * t.lfoTriangle) >>> (15 : Nat)) * 38) >>> (8 : Nat)

/-- The increment with the vibrato, without a bound. -/
def exactInc (t : Track) : Int := t.toneInc.toNat + t.toneInc.toNat * t.frac / 65536

/-- What is kept of the packets. -/
structure InRange (t : Track) : Prop where
  lfoDepth : t.lfoDepth.toNat ≤ 127
  pan : t.pan.toNat ≤ 15

end Track

namespace PsgState

/-- The products of a track in the mix. -/
def ProductsFit (s : PsgState) (tr : Fin 3) : Prop :=
  ∀ gain ∈ volTab[(s.track tr).volIndex.toNat]?, ∀ left ∈ panTabL[(s.track tr).pan.toNat]?,
    ∀ right ∈ panTabR[(s.track tr).pan.toNat]?,
      let active := (s.activeAmp tr (s.track tr).toneAmp).toNat
      let amp := active * gain.toNat / 4096
      active * gain.toNat < 2 ^ 32 ∧ amp * left.toNat < 2 ^ 32 ∧ amp * right.toNat < 2 ^ 32

/-- The products and the sums of the loop in `PSG_calc_sample`. -/
def MixFits (s : PsgState) (mixL mixR : UInt32) : List (Fin 3) → Prop
  | [] => True
  | tr :: trs =>
    let s := s.setTrack tr (s.track tr).updatePhase
    s.ProductsFit tr ∧ ∀ l r, s.trackMix tr = some (l, r) →
      mixL.toNat + l.toNat < 2 ^ 32 ∧ mixR.toNat + r.toNat < 2 ^ 32 ∧ s.MixFits (mixL + l) (mixR + r) trs

/-- The next sample is what it is over the integers. -/
structure SampleExact (s : PsgState) : Prop where
  phase (tr : Fin 3) : (s.track tr).exactInc < 2 ^ 32 → ∀ out s', s.calcSample = some (out, s') →
    ((s'.track tr).tonePhase.toNat : Int) = ((s.track tr).tonePhase.toNat + (s.track tr).exactInc) % 2 ^ 32
  mixing : s.updateEnvelope.updateNoise.MixFits 0 0 [0, 1, 2]
  samples : ∃ out s', s.calcSample = some (out, s') ∧ out.1.toNat ≤ 4095 ∧ out.2.toNat ≤ 4095

/-- The states after packets, samples and milliseconds. -/
def Reachable (s : PsgState) : Prop := ∃ actions, resetPsg.run actions = some s

end PsgState

/-! ## The increment -/

section Increment
variable {t : Track}

theorem lfoTriangle_bounds (t : Track) : 0 ≤ t.lfoTriangle ∧ t.lfoTriangle ≤ 32767 := by
  have hlt : t.lfoPhase.toNat < 65536 := t.lfoPhase.toNat_lt
  unfold Track.lfoTriangle
  split
  · omega
  · omega

theorem frac_bounds (h : t.InRange) : 0 ≤ t.frac ∧ t.frac ≤ 18 := by
  have hdepth : t.lfoDepth.toInt8.toInt = t.lfoDepth.toNat := by
    have hbits : 2 * t.lfoDepth.toBitVec.toNat < 2 ^ 8 := by
      have hle : t.lfoDepth.toBitVec.toNat ≤ 127 := h.lfoDepth
      omega
    exact BitVec.toInt_eq_toNat_of_lt hbits
  obtain ⟨hpos, hle⟩ := lfoTriangle_bounds t
  have hdepth' : (t.lfoDepth.toNat : Int) ≤ 127 := by exact_mod_cast h.lfoDepth
  have hprod : 0 ≤ (t.lfoDepth.toNat : Int) * t.lfoTriangle := Int.mul_nonneg (Int.natCast_nonneg _) hpos
  have hprod' : (t.lfoDepth.toNat : Int) * t.lfoTriangle ≤ 127 * 32767 :=
    Int.mul_le_mul hdepth' hle hpos (by decide)
  unfold Track.frac
  rw [hdepth, Int.shiftRight_eq_div_pow, Int.shiftRight_eq_div_pow]
  generalize (t.lfoDepth.toNat : Int) * t.lfoTriangle = p at hprod hprod'
  omega

theorem exactInc_nonneg (h : t.InRange) : 0 ≤ t.exactInc := by
  obtain ⟨hpos, -⟩ := frac_bounds h
  have hprod : 0 ≤ (t.toneInc.toNat : Int) * t.frac := Int.mul_nonneg (Int.natCast_nonneg _) hpos
  unfold Track.exactInc
  omega

theorem phaseInc_toNat (h : t.InRange) : t.phaseInc.toNat =
    (t.toneInc.toNat + t.toneInc.toNat * t.frac.toNat % 2 ^ 32 / 65536) % 2 ^ 32 := by
  obtain ⟨hpos, hle⟩ := frac_bounds h
  have hfrac : (UInt32.ofInt t.frac).toNat = t.frac.toNat := by
    have hmod : t.frac % 2 ^ 32 = t.frac := Int.emod_eq_of_lt hpos (by omega)
    unfold UInt32.ofInt
    rw [hmod]
    exact UInt32.toNat_ofNat_of_lt' (by simp only [UInt32.size]; omega)
  have hunfold : t.phaseInc = t.toneInc + ((t.toneInc * UInt32.ofInt t.frac) >>> 16) := rfl
  rw [hunfold, UInt32.toNat_add, UInt32.toNat_shiftRight, UInt32.toNat_mul, hfrac, Nat.shiftRight_eq_div_pow]
  rfl

/-- The increment is exact as long as its product fits. -/
theorem phaseInc_exact_iff (h : t.InRange) :
    (t.exactInc < 2 ^ 32 → (t.phaseInc.toNat : Int) = t.exactInc) ↔
      t.toneInc.toNat * t.frac < 2 ^ 32 ∨ 2 ^ 32 ≤ t.exactInc := by
  obtain ⟨hpos, -⟩ := frac_bounds h
  have hprod : (t.toneInc.toNat * t.frac : Int) = (t.toneInc.toNat * t.frac.toNat : Nat) := by
    rw [Nat.cast_mul, Int.toNat_of_nonneg hpos]
  have hinc : t.toneInc.toNat < 2 ^ 32 := t.toneInc.toNat_lt
  rw [phaseInc_toNat h]
  unfold Track.exactInc
  rw [hprod]
  generalize t.toneInc.toNat * t.frac.toNat = p
  omega

theorem updatePhase_tonePhase (t : Track) : t.updatePhase.tonePhase = t.tonePhase + t.phaseInc := by
  unfold Track.updatePhase
  split
  · rfl
  · rename_i hzero
    have hinc : t.phaseInc = 0 := by
      unfold Track.phaseInc
      rw [not_not.mp hzero]
      simp
    rw [hinc, UInt32.add_zero]

end Increment

/-! ## Amplitudes -/

section Amplitudes
variable {s : PsgState} {t : Track} {tr : Fin 3}

theorem toneAmp_le (t : Track) : t.toneAmp.toNat ≤ 4095 := by
  have hphase : (t.tonePhase >>> 20).toNat ≤ 4095 := by
    have hlt : t.tonePhase.toNat < 2 ^ 32 := t.tonePhase.toNat_lt
    have hshift : (t.tonePhase >>> 20).toNat = t.tonePhase.toNat / 2 ^ 20 := by
      rw [UInt32.toNat_shiftRight, Nat.shiftRight_eq_div_pow]
      rfl
    omega
  unfold Track.toneAmp
  split
  · dsimp only
    generalize t.tonePhase >>> 19 = idx
    have hmask : ((idx ^^^ (idx >>> 12)) &&& 0x1FFF).toNat ≤ 0x1FFF := by
      rw [UInt32.toNat_and]
      exact Nat.and_le_right
    rw [UInt32.toNat_shiftRight, Nat.shiftRight_eq_div_pow]
    have hone : (1 : UInt32).toNat % 32 = 1 := rfl
    rw [hone]
    omega
  · exact hphase
  · have hle : t.tonePhase >>> 20 ≤ 4095 := hphase
    rw [UInt32.toNat_sub_of_le _ _ hle]
    exact Nat.sub_le _ _
  · split
    · decide
    · decide

theorem activeAmp_le {amp : UInt32} (h : amp.toNat ≤ 4095) : (s.activeAmp tr amp).toNat ≤ 4095 := by
  unfold activeAmp
  dsimp only
  split
  · decide
  · split
    · exact h
    · decide

theorem volTab_le {i : Nat} {gain : UInt32} (h : volTab[i]? = some gain) : gain.toNat ≤ 2899 := by
  have hall : volTab.all (fun gain => gain.toNat ≤ 2899) = true := by decide
  exact of_decide_eq_true (List.all_eq_true.mp hall gain (List.mem_of_getElem? h))

theorem panTab_le {i : Nat} {left right : UInt32} (hl : panTabL[i]? = some left) (hr : panTabR[i]? = some right) :
    left.toNat ≤ 4095 ∧ right.toNat ≤ 4095 := by
  have hleft : panTabL.all (fun left => left.toNat ≤ 4095) = true := by decide
  have hright : panTabR.all (fun right => right.toNat ≤ 4095) = true := by decide
  exact ⟨of_decide_eq_true (List.all_eq_true.mp hleft left (List.mem_of_getElem? hl)),
    of_decide_eq_true (List.all_eq_true.mp hright right (List.mem_of_getElem? hr))⟩

theorem softClip_le (x : UInt32) : (softClip x).toNat ≤ 4095 := by
  unfold softClip
  dsimp only
  split
  · rename_i hle
    have hle : x.toNat ≤ 3600 := hle
    omega
  · split
    · decide
    · rename_i hnot
      exact UInt32.not_lt.mp hnot

theorem scaled_le {a b : UInt32} {m n : Nat} (ha : a.toNat ≤ m) (hb : b.toNat ≤ n) :
    ((a * b) >>> 12).toNat ≤ m * n / 4096 := by
  have hmod : (a * b).toNat ≤ m * n := by
    rw [UInt32.toNat_mul]
    exact (Nat.mod_le _ _).trans (Nat.mul_le_mul ha hb)
  rw [UInt32.toNat_shiftRight, Nat.shiftRight_eq_div_pow]
  exact Nat.div_le_div_right hmod

/-- The products of a track stay within 24 bits. -/
theorem productsFit (s : PsgState) (tr : Fin 3) : s.ProductsFit tr := by
  intro gain hgain left hleft right hright
  have hactive : (s.activeAmp tr (s.track tr).toneAmp).toNat ≤ 4095 := activeAmp_le (toneAmp_le _)
  obtain ⟨hleft, hright⟩ := panTab_le hleft hright
  have hproduct : (s.activeAmp tr (s.track tr).toneAmp).toNat * gain.toNat ≤ 4095 * 2899 :=
    Nat.mul_le_mul hactive (volTab_le hgain)
  have hamp : (s.activeAmp tr (s.track tr).toneAmp).toNat * gain.toNat / 4096 ≤ 2898 :=
    Nat.div_le_div_right hproduct
  have hl := Nat.mul_le_mul hamp hleft
  have hr := Nat.mul_le_mul hamp hright
  exact ⟨by omega, by omega, by omega⟩

theorem volIndex_lt (t : Track) : t.volIndex.toNat < 16 := by
  unfold Track.volIndex
  rw [UInt8.toNat_and]
  exact Nat.lt_succ_of_le Nat.and_le_right

theorem trackMix_le (h : (s.track tr).InRange) :
    ∃ l r, s.trackMix tr = some (l, r) ∧ l.toNat ≤ 2897 ∧ r.toNat ≤ 2897 := by
  have hzero : (0 : UInt32).toNat ≤ 2897 := by decide
  have hactive : (s.activeAmp tr (s.track tr).toneAmp).toNat ≤ 4095 := activeAmp_le (toneAmp_le _)
  have hpan : (s.track tr).pan.toNat < 16 := Nat.lt_succ_of_le h.pan
  obtain ⟨gain, hgain⟩ : ∃ gain, volTab[(s.track tr).volIndex.toNat]? = some gain :=
    ⟨_, List.getElem?_eq_getElem (volIndex_lt (s.track tr))⟩
  obtain ⟨left, hleft⟩ : ∃ left, panTabL[(s.track tr).pan.toNat]? = some left :=
    ⟨_, List.getElem?_eq_getElem hpan⟩
  obtain ⟨right, hright⟩ : ∃ right, panTabR[(s.track tr).pan.toNat]? = some right :=
    ⟨_, List.getElem?_eq_getElem hpan⟩
  obtain ⟨hl, hr⟩ := panTab_le hleft hright
  have hamp := scaled_le hactive (volTab_le hgain)
  unfold PsgState.trackMix
  dsimp only
  rw [hgain, hleft, hright]
  split
  · exact ⟨0, 0, rfl, hzero, hzero⟩
  · split
    · exact ⟨0, 0, rfl, hzero, hzero⟩
    · exact ⟨_, _, rfl, scaled_le hamp hl, scaled_le hamp hr⟩

end Amplitudes

/-! ## The mix -/

section Mix
variable {s s' : PsgState} {tr : Fin 3} {trs : List (Fin 3)}

theorem updatePhase_inRange {t : Track} (h : t.InRange) : t.updatePhase.InRange := by
  unfold Track.updatePhase
  split
  · exact ⟨h.lfoDepth, h.pan⟩
  · exact h

theorem setTrack_inRange {t : Track} (h : ∀ k, (s.track k).InRange) (ht : t.InRange) (k : Fin 3) :
    ((s.setTrack tr t).track k).InRange := by
  by_cases hk : k = tr
  · subst hk
    rw [setTrack_self]
    exact ht
  · rw [setTrack_of_ne s t hk]
    exact h k

/-- Each track adds a part of what fits. -/
theorem mixFits {mixL mixR : UInt32} {n : Nat} (h : ∀ k, (s.track k).InRange) (hl : mixL.toNat ≤ 2897 * n)
    (hr : mixR.toNat ≤ 2897 * n) (hn : n + trs.length ≤ 3) :
    s.MixFits mixL mixR trs ∧ ∃ l r s', s.mixTracks mixL mixR trs = some (l, r, s') := by
  induction trs generalizing s mixL mixR n with
  | nil => exact ⟨trivial, mixL, mixR, s, rfl⟩
  | cons tr trs ih =>
    rw [List.length_cons] at hn
    have hset : ∀ k, ((s.setTrack tr (s.track tr).updatePhase).track k).InRange :=
      setTrack_inRange h (updatePhase_inRange (h tr))
    obtain ⟨l, r, hmix, hl', hr'⟩ := trackMix_le (hset tr)
    have hsum : (mixL + l).toNat = mixL.toNat + l.toNat := by
      rw [UInt32.toNat_add]
      exact Nat.mod_eq_of_lt (by omega)
    have hsum' : (mixR + r).toNat = mixR.toNat + r.toNat := by
      rw [UInt32.toNat_add]
      exact Nat.mod_eq_of_lt (by omega)
    obtain ⟨hfits, hmixed⟩ := @ih _ (mixL + l) (mixR + r) (n + 1) hset (by omega) (by omega) (by omega)
    refine ⟨⟨productsFit _ tr, ?_⟩, ?_⟩
    · intro l' r' hmix'
      rw [hmix] at hmix'
      cases hmix'
      exact ⟨by omega, by omega, hfits⟩
    · unfold mixTracks
      dsimp only
      rw [hmix]
      exact hmixed

/-- The tracks that are mixed have their phase moved. -/
theorem mixTracks_track {l r l' r' : UInt32} (hnodup : trs.Nodup) (h : s.mixTracks l r trs = some (l', r', s')) :
    s'.track tr = if tr ∈ trs then (s.track tr).updatePhase else s.track tr := by
  induction trs generalizing s l r with
  | nil =>
    cases h
    rfl
  | cons k trs ih =>
    obtain ⟨hk, hnodup⟩ := List.nodup_cons.mp hnodup
    obtain ⟨mixed, -, hrest⟩ := Option.bind_eq_some_iff.mp h
    rw [ih hnodup hrest]
    by_cases htr : tr = k
    · subst htr
      rw [if_neg hk, if_pos List.mem_cons_self, setTrack_self]
    · rw [setTrack_of_ne s _ htr]
      simp only [List.mem_cons, htr, false_or]

end Mix

/-! ## Steps -/

section Steps
variable {s s' : PsgState} {tr : Fin 3}

theorem updateEnvelopes_track (trs : List (Fin 3)) (tr : Fin 3) :
    ∃ env, (s.updateEnvelopes trs).track tr = { s.track tr with env } := by
  induction trs generalizing s with
  | nil => exact ⟨_, rfl⟩
  | cons k trs ih =>
    have hset (e : Envelope) :
        ∃ env, (s.setTrack k { s.track k with env := e }).track tr = { s.track tr with env } := by
      by_cases htr : tr = k
      · subst htr
        exact ⟨e, setTrack_self _ _ _⟩
      · exact ⟨(s.track tr).env, setTrack_of_ne s _ htr⟩
    unfold updateEnvelopes
    dsimp only
    split
    · exact hset _
    · obtain ⟨env, henv⟩ := hset ((s.track k).env.update (s.track k).usesEnvelope s.envelopePeriod).1
      obtain ⟨env', henv'⟩ := ih (s := s.setTrack k
        { s.track k with env := ((s.track k).env.update (s.track k).usesEnvelope s.envelopePeriod).1 })
      rw [henv] at henv'
      exact ⟨env', henv'⟩

/-- The track that is mixed has another envelope. -/
theorem mixed_track (s : PsgState) (tr : Fin 3) :
    ∃ env, s.updateEnvelope.updateNoise.track tr = { s.track tr with env } := by
  have hnoise (s : PsgState) : s.updateNoise.track = s.track := by
    unfold updateNoise
    dsimp only
    split
    · rfl
    · rfl
  rw [hnoise]
  exact updateEnvelopes_track _ tr

theorem calcSample_track {out : UInt16 × UInt16} (h : s.calcSample = some (out, s')) (tr : Fin 3) :
    ∃ env, s'.track tr = Track.updatePhase { s.track tr with env } := by
  obtain ⟨⟨l, r, mixed⟩, hmixed, hret⟩ := Option.bind_eq_some_iff.mp h
  cases hret
  obtain ⟨env, henv⟩ := mixed_track s tr
  have htrack : s'.track tr = _ := mixTracks_track (by decide) hmixed
  have hmem : tr ∈ ([0, 1, 2] : List (Fin 3)) := by
    fin_cases tr <;> decide
  rw [if_pos hmem, henv] at htrack
  exact ⟨env, htrack⟩

theorem calcSample_tonePhase {out : UInt16 × UInt16} (h : s.calcSample = some (out, s')) (tr : Fin 3) :
    (s'.track tr).tonePhase = (s.track tr).tonePhase + (s.track tr).phaseInc := by
  obtain ⟨env, htrack⟩ := calcSample_track h tr
  rw [htrack, updatePhase_tonePhase]
  rfl

theorem setOfTrack_inRange {pkt : Packet} {f : Track → Track} (h : ∀ k, (s.track k).InRange)
    (hset : s.setOfTrack pkt f = some s') (hf : ∀ t : Track, t.InRange → (f t).InRange) (tr : Fin 3) :
    (s'.track tr).InRange := by
  obtain ⟨k, -, rfl⟩ := setOfTrack_some hset
  exact setTrack_inRange h (hf _ (h k)) tr

theorem writeReg_inRange {t : Track} (h : t.InRange) (reg val : UInt8) : (t.writeReg tr reg val).InRange := by
  unfold Track.writeReg
  split_ifs
  all_goals exact ⟨h.lfoDepth, h.pan⟩

theorem processPacket_inRange {pkt : Packet} (h : ∀ k, (s.track k).InRange) (hpkt : s.processPacket pkt = some s')
    (tr : Fin 3) : (s'.track tr).InRange := by
  unfold processPacket at hpkt
  split at hpkt
  · cases hpkt
    rw [writeReg_track]
    exact writeReg_inRange (h tr) _ _
  · split at hpkt
    · split at hpkt
      · cases hpkt
        exact h tr
      · rename_i hbound
        have hdepth : pkt.val.toNat ≤ 127 := Nat.le_of_not_lt fun hlt => hbound (Or.inl hlt)
        exact setOfTrack_inRange h hpkt (fun t ht => ⟨hdepth, ht.pan⟩) tr
    · split at hpkt
      · cases hpkt
        exact h tr
      · split at hpkt
        · have hpan : (pkt.val &&& 0x0F).toNat ≤ 15 := by
            rw [UInt8.toNat_and]
            exact Nat.and_le_right
          exact setOfTrack_inRange h hpkt (fun t ht => ⟨ht.lfoDepth, hpan⟩) tr
        · split at hpkt
          · exact setOfTrack_inRange h hpkt (fun t ht => ⟨ht.lfoDepth, ht.pan⟩) tr
          · split at hpkt
            · exact setOfTrack_inRange h hpkt (fun t ht => ⟨ht.lfoDepth, ht.pan⟩) tr
            · cases hpkt
              exact h tr

/-- An action keeps the depths and the pans in their ranges. -/
theorem next_inRange {a : EngineAction} (h : ∀ k, (s.track k).InRange) (hnext : s.next a = some s') (tr : Fin 3) :
    (s'.track tr).InRange := by
  cases a with
  | packet pkt => exact processPacket_inRange h hnext tr
  | sample =>
    obtain ⟨⟨out, t⟩, hsample, rfl⟩ := Option.map_eq_some_iff.mp hnext
    obtain ⟨env, htrack⟩ := calcSample_track hsample tr
    rw [htrack]
    exact updatePhase_inRange ⟨(h tr).lfoDepth, (h tr).pan⟩
  | tick =>
    cases hnext
    exact ⟨(h tr).lfoDepth, (h tr).pan⟩

end Steps

/-! ## Reachable states -/

section Reachable
variable {s : PsgState}

theorem PsgState.Reachable.inRange (h : s.Reachable) : ∀ tr, (s.track tr).InRange := by
  obtain ⟨actions, hrun⟩ := h
  have hsteps := Run.of_foldlM (fun s a t (hst : s.next a = some t) => hst) hrun
  apply hsteps.invariant (I := fun s => ∀ tr, (s.track tr).InRange)
  · intro s a t hs _ hst
    exact next_inRange hs hst
  · exact fun tr => ⟨Nat.zero_le 127, Nat.le_add_right 8 7⟩

theorem mix_of_inRange (h : ∀ tr, (s.track tr).InRange) : s.updateEnvelope.updateNoise.MixFits 0 0 [0, 1, 2] ∧
    ∃ l r s', s.updateEnvelope.updateNoise.mixTracks 0 0 [0, 1, 2] = some (l, r, s') := by
  apply mixFits (n := 0)
  · intro tr
    obtain ⟨env, htrack⟩ := mixed_track s tr
    rw [htrack]
    exact ⟨(h tr).lfoDepth, (h tr).pan⟩
  · exact Nat.zero_le _
  · exact Nat.zero_le _
  · decide

/-- A sample is there, and it is no more than 12 bits. -/
theorem calcSample_bounded (h : ∀ tr, (s.track tr).InRange) :
    ∃ out s', s.calcSample = some (out, s') ∧ out.1.toNat ≤ 4095 ∧ out.2.toNat ≤ 4095 := by
  obtain ⟨-, l, r, s', hmixed⟩ := mix_of_inRange h
  have hword (x : UInt32) : (softClip x).toUInt16.toNat ≤ 4095 := by
    have hle := softClip_le x
    rw [UInt32.toNat_toUInt16]
    exact (Nat.mod_le _ _).trans hle
  exact ⟨_, s', Option.bind_eq_some_iff.mpr ⟨_, hmixed, rfl⟩, hword l, hword r⟩

theorem phase_exact_iff {tr : Fin 3} (h : ∀ tr, (s.track tr).InRange) :
    ((s.track tr).exactInc < 2 ^ 32 → ∀ out s', s.calcSample = some (out, s') →
      ((s'.track tr).tonePhase.toNat : Int) = ((s.track tr).tonePhase.toNat + (s.track tr).exactInc) % 2 ^ 32) ↔
      (s.track tr).toneInc.toNat * (s.track tr).frac < 2 ^ 32 ∨ 2 ^ 32 ≤ (s.track tr).exactInc := by
  rw [← phaseInc_exact_iff (h tr)]
  have hsum : (s.track tr).phaseInc.toNat < 2 ^ 32 := (s.track tr).phaseInc.toNat_lt
  have hstart : (s.track tr).tonePhase.toNat < 2 ^ 32 := (s.track tr).tonePhase.toNat_lt
  have hnonneg := exactInc_nonneg (h tr)
  have hphase (out : UInt16 × UInt16) (s' : PsgState) (hsample : s.calcSample = some (out, s')) :
      ((s'.track tr).tonePhase.toNat : Int) =
        ((s.track tr).tonePhase.toNat + (s.track tr).phaseInc.toNat) % 2 ^ 32 := by
    rw [calcSample_tonePhase hsample, UInt32.toNat_add]
    rfl
  constructor
  · intro hexact hlt
    obtain ⟨out, s', hsample, -⟩ := calcSample_bounded h
    have heq := hexact hlt out s' hsample
    rw [hphase out s' hsample] at heq
    omega
  · intro hexact hlt out s' hsample
    rw [hphase out s' hsample, hexact hlt]

end Reachable

/-- The samples are exact where the product of no increment wraps. -/
theorem sampleExact_iff {s : PsgState} (h : s.Reachable) : s.SampleExact ↔
    ∀ tr, (s.track tr).toneInc.toNat * (s.track tr).frac < 2 ^ 32 ∨ 2 ^ 32 ≤ (s.track tr).exactInc := by
  have hrange := h.inRange
  constructor
  · intro hexact tr
    exact (phase_exact_iff hrange).mp (hexact.phase tr)
  · intro hfits
    refine ⟨fun tr => (phase_exact_iff hrange).mpr (hfits tr), (mix_of_inRange hrange).1, calcSample_bounded hrange⟩

/-- A note of 125 Hz with the deepest vibrato. -/
theorem sampleExact_low : ∃ s, resetPsg.run [.packet ⟨0, 0, 0, 0xF4, 0⟩, .packet ⟨0, 0, 1, 1, 0⟩,
    .packet ⟨0, 1, 0, 127, 255⟩, .tick, .tick] = some s ∧ s.SampleExact := by
  obtain ⟨s, hs⟩ := Option.isSome_iff_exists.mp (by decide +kernel : (resetPsg.run [.packet ⟨0, 0, 0, 0xF4, 0⟩,
    .packet ⟨0, 0, 1, 1, 0⟩, .packet ⟨0, 1, 0, 127, 255⟩, .tick, .tick]).isSome)
  have hfits : ∀ s ∈ resetPsg.run [.packet ⟨0, 0, 0, 0xF4, 0⟩, .packet ⟨0, 0, 1, 1, 0⟩,
      .packet ⟨0, 1, 0, 127, 255⟩, .tick, .tick], ∀ tr,
      ((s.track tr).toneInc.toNat * (s.track tr).frac : Int) < 2 ^ 32 ∨ 2 ^ 32 ≤ (s.track tr).exactInc := by
    decide +kernel
  exact ⟨s, hs, (sampleExact_iff ⟨_, hs⟩).mpr (hfits s hs)⟩

/-- At 3125 Hz with the deepest vibrato, the product of the increment wraps. -/
theorem vibrato_wraps : ∃ s, resetPsg.run [.packet ⟨0, 0, 0, 20, 0⟩, .packet ⟨0, 0, 1, 0, 0⟩,
    .packet ⟨0, 1, 0, 127, 255⟩, .tick, .tick] = some s ∧ ¬ s.SampleExact := by
  obtain ⟨s, hs⟩ := Option.isSome_iff_exists.mp (by decide +kernel : (resetPsg.run [.packet ⟨0, 0, 0, 20, 0⟩,
    .packet ⟨0, 0, 1, 0, 0⟩, .packet ⟨0, 1, 0, 127, 255⟩, .tick, .tick]).isSome)
  have hwraps : ∀ s ∈ resetPsg.run [.packet ⟨0, 0, 0, 20, 0⟩, .packet ⟨0, 0, 1, 0, 0⟩,
      .packet ⟨0, 1, 0, 127, 255⟩, .tick, .tick],
      ¬ (((s.track 0).toneInc.toNat * (s.track 0).frac : Int) < 2 ^ 32 ∨ 2 ^ 32 ≤ (s.track 0).exactInc) := by
    decide +kernel
  refine ⟨s, hs, fun hexact => hwraps s hs ?_⟩
  exact (phase_exact_iff (PsgState.Reachable.inRange ⟨_, hs⟩)).mp (hexact.phase 0)

end PicoRuby.Psg
