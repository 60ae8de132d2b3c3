import PicoRuby.Shared.Runs
import PicoRuby.PrkRgb.Keys

/-!
# The two halves stay in sync

A key changes the anchor, and its message the partner. What the message can carry is the effect, the speed, a
multiple of 12 as the hue and one of 5 as the saturation; the brightness in it is that from before the key.
-/

namespace PicoRuby.PrkRgb

open Shared

set_option autoImplicit false

/-! ## The property -/

/-- The animation apart, the halves are the same. -/
def InSync (h : Halves) : Prop := h.anchor.toSettings = h.partner.toSettings

/-- The steps of 12 of the hue and of 5 of the saturation end on a multiple, and a brightness key is pressed at the
end of the range. -/
def Settings.Carried (s : Settings) : Key → Prop
  | .hui => 12 ∣ s.hue ∨ s.hue + 12 < 0 ∨ 348 < s.hue + 12
  | .hud => 12 ∣ s.hue ∨ s.hue - 12 < 0 ∨ 348 < s.hue - 12
  | .sai => 5 ∣ s.saturation ∨ s.saturation + 5 < 0 ∨ 100 < s.saturation + 5
  | .sad => 5 ∣ s.saturation ∨ s.saturation - 5 < 0 ∨ 100 < s.saturation - 5
  | .vai => s.maxValue = 31
  | .vad => s.maxValue = 0
  | _ => True

/-- The condition on the halves and a key. -/
def Carries (h : Halves) (key : Key) : Prop := h.anchor.lastKey = some key ∨ h.anchor.Carried key

/-! ## Messages -/

theorem message_or {method val : Nat} (h : val < 32) :
    (method * 32 ||| val) >>> 5 = method ∧ (method * 32 ||| val) &&& 0b00011111 = val := by
  have hsum : method * 32 ||| val = method * 32 + val := by
    have hor := Nat.two_pow_add_eq_or_of_lt (i := 5) (b := val) h method
    rw [Nat.mul_comm, ← hor]
  rw [hsum, Nat.shiftRight_eq_div_pow]
  have hand : (method * 32 + val) &&& 0b00011111 = (method * 32 + val) % 2 ^ 5 := Nat.and_two_pow_sub_one_eq_mod _ 5
  rw [hand]
  omega

theorem message_add {method val : Nat} (h : val < 32) :
    (method * 32 + val) >>> 5 = method ∧ (method * 32 + val) &&& 0b00011111 = val := by
  have hand : (method * 32 + val) &&& 0b00011111 = (method * 32 + val) % 2 ^ 5 := Nat.and_two_pow_sub_one_eq_mod _ 5
  rw [Nat.shiftRight_eq_div_pow, hand]
  omega

/-- What the partner does with a message, for the same settings. -/
def follow (s : Settings) (message : Nat) : Settings := s.obey (message >>> 5) (message &&& 0b00011111)

theorem follow_or (s : Settings) (method : Nat) {message val : Nat} (hmessage : message = method * 32 ||| val) (h : val < 32) :
    follow s message = s.obey method val := by
  unfold follow
  rw [hmessage, (message_or h).1, (message_or h).2]

theorem follow_add (s : Settings) (method : Nat) {message val : Nat} (hmessage : message = method * 32 + val) (h : val < 32) :
    follow s message = s.obey method val := by
  unfold follow
  rw [hmessage, (message_add h).1, (message_add h).2]

/-! ## Keys -/

variable (s : Settings)

theorem toggle_follows : follow s (s.press .tog).1 = (s.press .tog).2 := by
  have hlt : (if s.toggle.offed then 0 else 1) < 32 := by
    split
    · decide
    · decide
  refine (follow_add s 1 rfl hlt).trans ?_
  unfold Settings.obey Settings.press Settings.toggle
  cases s.offed
  · rfl
  · rfl

theorem effect_follows (name : Effect) : follow s (s.changeEffect name).1 = (s.changeEffect name).2 := by
  have heffect : (s.setEffect name).effect = name := rfl
  have hindex : effects.idxOf name + 2 < 32 ∧ 1 < effects.idxOf name + 2 ∧ effects[effects.idxOf name]? = some name := by
    cases name <;> decide
  obtain ⟨hlt, hval, hget⟩ := hindex
  unfold Settings.changeEffect
  rw [heffect]
  refine (follow_add s 1 rfl hlt).trans ?_
  unfold Settings.obey
  dsimp only
  rw [if_neg (by omega), Nat.add_sub_cancel, hget]
  rfl

theorem hue_follows_iff (val : Int) :
    follow s (s.changeHue val).1 = (s.changeHue val).2 ↔ 12 ∣ val ∨ val < 0 ∨ 348 < val := by
  have hnew : (s.setHue val).hue = if val < 0 then 348 else if 348 < val then 0 else val := rfl
  generalize hgen : (s.setHue val).hue = new at hnew
  have hlt : (new / 12).toNat < 32 := by omega
  have hmessage : (s.changeHue val).1 = 2 * 32 ||| (new / 12).toNat := by
    rw [← hgen]
    rfl
  have hback : (s.setHue ((new / 12).toNat * 12)).hue = new ↔ 12 ∣ val ∨ val < 0 ∨ 348 < val := by
    unfold Settings.setHue
    dsimp only
    omega
  rw [follow_or s 2 hmessage hlt, ← hback, ← hgen]
  exact ⟨congrArg Settings.hue, fun heq => Settings.ext rfl rfl heq rfl rfl rfl⟩

theorem saturation_follows_iff (val : Int) :
    follow s (s.changeSaturation val).1 = (s.changeSaturation val).2 ↔ 5 ∣ val ∨ val < 0 ∨ 100 < val := by
  have hnew : (s.setSaturation val).saturation = if val < 0 then 0 else if 100 < val then 100 else val := rfl
  generalize hgen : (s.setSaturation val).saturation = new at hnew
  have hlt : (new / 5).toNat < 32 := by omega
  have hmessage : (s.changeSaturation val).1 = 3 * 32 ||| (new / 5).toNat := by
    rw [← hgen]
    rfl
  have hback : (s.setSaturation ((new / 5).toNat * 5)).saturation = new ↔ 5 ∣ val ∨ val < 0 ∨ 100 < val := by
    unfold Settings.setSaturation
    dsimp only
    omega
  rw [follow_or s 3 hmessage hlt, ← hback, ← hgen]
  exact ⟨congrArg Settings.saturation, fun heq => Settings.ext rfl rfl rfl heq rfl rfl⟩

theorem clampValue_self {n : Nat} (h : n ≤ 31) : Settings.clampValue n = n := by
  unfold Settings.clampValue
  rw [if_neg (by omega), if_neg (by omega)]
  exact Int.toNat_natCast n

theorem value_follows_iff (val : Int) :
    follow s (s.changeValue val).1 = (s.changeValue val).2 ↔ s.maxValue = Settings.clampValue val := by
  have hself : (s.setValue s.maxValue).maxValue = s.maxValue := clampValue_self s.maxValue_le
  have hmessage : (s.changeValue val).1 = 4 * 32 ||| s.maxValue := rfl
  rw [follow_or s 4 hmessage (Nat.lt_succ_of_le s.maxValue_le)]
  constructor
  · exact fun heq => hself.symm.trans (congrArg Settings.maxValue heq)
  · exact fun heq => Settings.ext rfl rfl rfl rfl (hself.trans heq) rfl

theorem speed_follows (val : Int) : follow s (s.changeSpeed val).1 = (s.changeSpeed val).2 := by
  have hnew : (s.setSpeed val).speed = if val < 0 then 0 else if 31 < val then 31 else val := rfl
  generalize hgen : (s.setSpeed val).speed = new at hnew
  have hlt : new.toNat < 32 := by omega
  have hmessage : (s.changeSpeed val).1 = 5 * 32 ||| new.toNat := by
    rw [← hgen]
    rfl
  have hback : (s.setSpeed new.toNat).speed = new := by
    unfold Settings.setSpeed
    dsimp only
    omega
  rw [follow_or s 5 hmessage hlt]
  exact Settings.ext rfl rfl rfl rfl rfl (hback.trans hgen.symm)

/-- A brightness key changes nothing only at the end of the range. -/
theorem clampValue_step_iff {n : Nat} (h : n ≤ 31) :
    (n = Settings.clampValue (n + 1) ↔ n = 31) ∧ (n = Settings.clampValue (n - 1) ↔ n = 0) := by
  unfold Settings.clampValue
  constructor
  · split
    · omega
    · split
      · omega
      · omega
  · split
    · omega
    · split
      · omega
      · omega

/-- The partner ends with the settings of the anchor exactly when the message carries the change. -/
theorem press_follows_iff (key : Key) : follow s (s.press key).1 = (s.press key).2 ↔ s.Carried key := by
  cases key with
  | tog => exact ⟨fun _ => trivial, fun _ => toggle_follows s⟩
  | modeForward => exact ⟨fun _ => trivial, fun _ => effect_follows s _⟩
  | mod => exact ⟨fun _ => trivial, fun _ => effect_follows s _⟩
  | modeReverse => exact ⟨fun _ => trivial, fun _ => effect_follows s _⟩
  | rmod => exact ⟨fun _ => trivial, fun _ => effect_follows s _⟩
  | hui =>
    refine (hue_follows_iff s _).trans ?_
    unfold Settings.Carried
    omega
  | hud =>
    refine (hue_follows_iff s _).trans ?_
    unfold Settings.Carried
    omega
  | sai =>
    refine (saturation_follows_iff s _).trans ?_
    unfold Settings.Carried
    omega
  | sad =>
    refine (saturation_follows_iff s _).trans ?_
    unfold Settings.Carried
    omega
  | vai => exact (value_follows_iff s _).trans (clampValue_step_iff s.maxValue_le).1
  | vad => exact (value_follows_iff s _).trans (clampValue_step_iff s.maxValue_le).2
  | spi => exact ⟨fun _ => trivial, fun _ => speed_follows s _⟩
  | spd => exact ⟨fun _ => trivial, fun _ => speed_follows s _⟩

/-! ## Runs -/

theorem press_inSync_iff {h : Halves} (hsync : InSync h) (key : Key) : InSync (h.press key) ↔ Carries h key := by
  unfold InSync at hsync
  unfold Carries InSync Halves.press Rgb.invokeAnchor Rgb.invokePartner
  dsimp only
  by_cases hlast : h.anchor.lastKey = some key
  · have hstill : h.partner.obey (0 >>> 5) (0 &&& 0b00011111) = h.partner.toSettings := rfl
    rw [if_pos hlast]
    dsimp only
    rw [hstill]
    exact ⟨fun _ => Or.inl hlast, fun _ => hsync⟩
  · rw [if_neg hlast, ← hsync]
    refine (eq_comm.trans (press_follows_iff h.anchor.toSettings key)).trans ?_
    exact ⟨Or.inr, fun hcarries => hcarries.resolve_left hlast⟩

/-- **The halves stay in sync over a sequence of keys** exactly when each message carries the change of its key. -/
theorem halves_in_sync_iff (h : Halves) (hsync : InSync h) (keys : List Key) :
    (∀ pre, pre <+: keys → InSync (pre.foldl Halves.press h)) ↔
      ∀ pre key, pre ++ [key] <+: keys → Carries (pre.foldl Halves.press h) key :=
  @foldl_prefixes_iff _ _ Halves.press (fun _ => True) InSync Carries
    (fun _ key _ hP => ⟨fun _ => trivial, press_inSync_iff hP key⟩) h keys trivial hsync

/-- As `RGB#initialize` and `effect = :swirl` leave the two. -/
def started : Rgb := ⟨⟨false, .swirl, 0, 100, 13, by decide, 25⟩, none⟩

/-- One brightness key, and one hue key with the hue 5. -/
theorem brightness_behind :
    ((Halves.press ⟨started, started⟩ .vai).anchor.maxValue = 14 ∧
      (Halves.press ⟨started, started⟩ .vai).partner.maxValue = 13) ∧
    (Halves.press ⟨{ started with hue := 5 }, { started with hue := 5 }⟩ .hui).anchor.hue = 17 ∧
    (Halves.press ⟨{ started with hue := 5 }, { started with hue := 5 }⟩ .hui).partner.hue = 12 := by
  decide

theorem started_in_sync :
    InSync ([Key.tog, .hud, .hui, .sad, .spi, .spi, .modeReverse].foldl Halves.press ⟨started, started⟩) := by
  refine (halves_in_sync_iff ⟨started, started⟩ rfl _).mpr ?_ _ List.prefix_rfl
  simp only [forall_steps_cons]
  refine ⟨Or.inr trivial, Or.inr (Or.inl ?_), Or.inr (Or.inl ?_), Or.inr (Or.inl ?_), Or.inr trivial, Or.inr trivial,
    Or.inr trivial, forall_steps_nil⟩
  · decide
  · decide
  · decide

end PicoRuby.PrkRgb
