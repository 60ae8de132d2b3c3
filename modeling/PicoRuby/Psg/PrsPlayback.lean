import PicoRuby.Psg.Prs

/-!
# PRS playback

What `play_prs` issues for the file of a song is put beside what `play_mml` issues for it.
-/

namespace PicoRuby.Psg

open Shared

set_option autoImplicit false

/-! ## Codes -/

section Codes
variable {op reg tr : Nat} {value : Int} {rest : Bytes}

/-- The opcodes of the commands and the wait. -/
def opcodes : List Nat := [opMute, opSendReg, opSetLegato, opSetPan, opSetTimbre, opSetLfo, opWait]

theorem opcode_bits : ∀ op ∈ opcodes, ∀ reg < 16,
    (chr (op ||| (reg &&& 0xF) : Nat)).toNat &&& 0xF0 = op ∧
      (chr (op ||| (reg &&& 0xF) : Nat)).toNat &&& 0x0F = reg := by decide

theorem chr_toNat (value : Int) : ((chr value).toNat : Int) = value % 256 := by
  have hnonneg := Int.emod_nonneg value (by decide : (256 : Int) ≠ 0)
  have hlt := Int.emod_lt_of_pos value (by decide : (0 : Int) < 256)
  rw [chr, UInt8.toNat_ofNat_of_lt' (by show (value % 256).toNat < 256; omega),
    Int.toNat_of_nonneg hnonneg]

theorem waitValue_eq (val val2 val3 : UInt8) :
    waitValue val val2 val3 = val.toNat + 256 * val2.toNat + 65536 * val3.toNat := by
  have hlow : val.toNat + 256 * val2.toNat < 2 ^ 16 := by
    have h1 := val.toNat_lt
    have h2 := val2.toNat_lt
    omega
  rw [waitValue, or_shiftLeft_eight, Nat.lor_comm, ← Nat.shiftLeft_add_eq_or_of_lt hlow,
    Nat.shiftLeft_eq]
  omega

/-- A delta comes back with its lowest 24 bits. -/
theorem waitValue_delta (delta : Int) :
    waitValue (chr (delta % 256)) (chr (delta / 256 % 256)) (chr (delta / 65536 % 256)) =
      (delta % 16777216).toNat := by
  have h1 := chr_toNat (delta % 256)
  have h2 := chr_toNat (delta / 256 % 256)
  have h3 := chr_toNat (delta / 65536 % 256)
  rw [waitValue_eq]
  omega

theorem readStep_wait (val val2 val3 : UInt8) :
    readStep (chr (opWait ||| (0 &&& 0xF) : Nat)) val (val2 :: val3 :: rest) =
      some (.wait (waitValue val val2 val3), rest) := rfl

/-- The command that an opcode of two bytes is for. -/
def invokeOf (op reg : Nat) (val : Int) : Invoke :=
  if op = opMute then .mute reg val
  else if op = opSendReg then .sendReg reg val
  else if op = opSetPan then .setPan reg val
  else .setTimbre reg val

theorem readStep_gen2 (hop : op ∈ [opMute, opSendReg, opSetPan, opSetTimbre]) (hreg : reg < 16) :
    readStep (chr (op ||| (reg &&& 0xF) : Nat)) (chr value) rest =
      some (.issue (invokeOf op reg (value % 256)), rest) := by
  have hmem : op ∈ opcodes := by
    revert op
    decide
  obtain ⟨hcode, htrack⟩ := opcode_bits op hmem reg hreg
  unfold readStep
  dsimp only
  rw [hcode, htrack, chr_toNat]
  rcases List.mem_cons.mp hop with rfl | hop
  · rfl
  · rcases List.mem_cons.mp hop with rfl | hop
    · rfl
    · rcases List.mem_pair.mp hop with rfl | rfl
      · rfl
      · rfl

end Codes

/-! ## Playing -/

/-- The bytes are played to the end, in a file without a loop. -/
def Plays (rest : Bytes) (delta : Nat) (commands : List Delayed) : Prop :=
  ∃ n, ∀ file fuel, n ≤ fuel → playSteps file 0 fuel rest delta = (commands, .finished)

/-- The delay that is left to the next command behind a wait. -/
def waitFor (pending : Nat) (delta : Int) : Nat :=
  if 0 < delta then (delta % 16777216).toNat else pending

section Playing
variable {op val : UInt8} {rest rest' : Bytes} {delta later : Nat} {commands : List Delayed} {c : Invoke}

theorem Plays.done : Plays [] delta [] := by
  refine ⟨1, ?_⟩
  intro file fuel hfuel
  obtain ⟨fuel, rfl⟩ : ∃ k, fuel = k + 1 := ⟨fuel - 1, by omega⟩
  rfl

theorem Plays.wait (hstep : readStep op val rest = some (.wait later, rest'))
    (h : Plays rest' later commands) : Plays (op :: val :: rest) delta commands := by
  obtain ⟨n, hn⟩ := h
  refine ⟨n + 1, ?_⟩
  intro file fuel hfuel
  obtain ⟨fuel, rfl⟩ : ∃ k, fuel = k + 1 := ⟨fuel - 1, by omega⟩
  rw [playSteps, hstep]
  exact hn file fuel (Nat.le_of_succ_le_succ hfuel)

theorem Plays.issue (hstep : readStep op val rest = some (.issue c, rest'))
    (hc : c.rejected = false) (h : Plays rest' 0 commands) :
    Plays (op :: val :: rest) delta ((delta, c) :: commands) := by
  obtain ⟨n, hn⟩ := h
  refine ⟨n + 1, ?_⟩
  intro file fuel hfuel
  obtain ⟨fuel, rfl⟩ : ∃ k, fuel = k + 1 := ⟨fuel - 1, by omega⟩
  rw [playSteps, hstep]
  dsimp only
  rw [if_neg (Bool.eq_false_iff.mp hc), hn file fuel (Nat.le_of_succ_le_succ hfuel)]

theorem Plays.unique {commands' : List Delayed} (h : Plays rest delta commands)
    (h' : Plays rest delta commands') : commands = commands' := by
  obtain ⟨n, hn⟩ := h
  obtain ⟨k, hk⟩ := h'
  have hsame := (hn [] (n + k) (Nat.le_add_right n k)).symm.trans (hk [] (n + k) (Nat.le_add_left k n))
  exact congrArg Prod.fst hsame

/-- The wait before a command. -/
theorem plays_waitCode {y : Int} (hrest : Plays rest (waitFor delta y) commands) :
    Plays (waitCode y ++ rest) delta commands := by
  unfold waitFor at hrest
  unfold waitCode
  split
  · rename_i hpos
    rw [if_pos hpos, ← waitValue_delta y] at hrest
    exact Plays.wait (readStep_wait _ _ _) hrest
  · rename_i hzero
    rw [if_neg hzero] at hrest
    exact hrest

theorem Plays.gen2 {op reg : Nat} {value : Int} (hop : op ∈ [opMute, opSendReg, opSetPan, opSetTimbre])
    (hreg : reg < 16) (hc : (invokeOf op reg (value % 256)).rejected = false)
    (h : Plays rest 0 commands) :
    Plays (gen2 op reg value ++ rest) delta ((delta, invokeOf op reg (value % 256)) :: commands) :=
  Plays.issue (readStep_gen2 hop hreg) hc h

end Playing

/-! ## What the code of a yield plays -/

/-- The commands one after the other, the first of them with the delay. -/
def delayed (delta : Int) : List Invoke → List Delayed
  | [] => []
  | c :: commands => (delta, c) :: commands.map fun c => (0, c)

/-- The commands that are read from the code of a yield. -/
def prsCommands (mixer : Nat) (y : Yield) : List Invoke :=
  match y.command with
  | .mute => [.mute y.track (y.arg0 % 256)]
  | .play =>
    let value := Int.fdiv chipClock (32 * y.arg0)
    [.sendReg (y.track * 2) (value % 256), .sendReg (y.track * 2 + 1) (value / 256 % 16)]
  | .volume => [.sendReg (y.track + 8) (y.arg0 % 256)]
  | .envPeriod => [.sendReg 11 (y.arg0 % 256), .sendReg 12 (y.arg0 / 256 % 256)]
  | .envShape => [.sendReg 13 (y.arg0 % 256)]
  | .timbre => [.setTimbre y.track (y.arg0 % 256)]
  | .pan => [.setPan y.track (y.arg0 % 256)]
  | .mixer => [.sendReg 7 ((mixerAfter mixer y.track y.arg0 : Nat) % 256)]
  | .noise => [.sendReg 6 (y.arg0 % 256)]
  | _ => []

section Code
variable {mixer mixer' delta : Nat} {y : Yield} {code rest : Bytes} {commands : List Delayed}

theorem commandCode_mixer (h : commandCode mixer y = .ok (mixer', code)) :
    mixer' = (playYield mixer y).1 := by
  obtain ⟨d, track, command, arg0⟩ := y
  cases command with
  | lfo => cases h
  | play =>
    obtain ⟨value, -, hret⟩ := bind_eq_ok.mp h
    cases hret
    rfl
  | _ =>
    cases h
    rfl

theorem commandCode_plays (hy : y.Playable) (h : commandCode mixer y = .ok (mixer', code))
    (hcommands : prsCommands mixer y ≠ []) (hrest : Plays rest 0 commands) :
    Plays (code ++ rest) delta (delayed delta (prsCommands mixer y) ++ commands) := by
  obtain ⟨htrack, arg1, hrange⟩ := hy
  obtain ⟨d, track, command, arg0⟩ := y
  replace htrack : track < 3 := htrack
  have hsend {reg : Nat} {value : Int} {more : Bytes} {others : List Delayed} {wait : Nat}
      (hreg : reg < 16) (hmore : Plays more 0 others) :
      Plays (gen2 opSendReg reg value ++ more) wait ((wait, .sendReg reg (value % 256)) :: others) :=
    Plays.gen2 (by decide) hreg rfl hmore
  cases command with
  | segno => exact absurd rfl hcommands
  | legato => exact absurd rfl hcommands
  | lfo => cases h
  | play =>
    obtain ⟨value, hvalue, hret⟩ := bind_eq_ok.mp h
    cases hret
    unfold pitchValue at hvalue
    split at hvalue
    · cases hvalue
    · cases hvalue
      have hlow : Int.fdiv chipClock (32 * arg0) % 256 % 256 = Int.fdiv chipClock (32 * arg0) % 256 :=
        Int.emod_emod _ _
      have hhigh : Int.fdiv chipClock (32 * arg0) / 256 % 16 % 256 =
          Int.fdiv chipClock (32 * arg0) / 256 % 16 := by omega
      have hsecond := @hsend (track * 2 + 1) (Int.fdiv chipClock (32 * arg0) / 256 % 16) _ _ 0
        (by omega) hrest
      have hboth := @hsend (track * 2) (Int.fdiv chipClock (32 * arg0) % 256) _ _ delta
        (by omega) hsecond
      rw [hlow, hhigh] at hboth
      rw [List.append_assoc]
      exact hboth
  | envPeriod =>
    cases h
    have hlow : arg0 % 256 % 256 = arg0 % 256 := Int.emod_emod _ _
    have hhigh : arg0 / 256 % 256 % 256 = arg0 / 256 % 256 := Int.emod_emod _ _
    have hsecond := @hsend 12 (arg0 / 256 % 256) _ _ 0 (by decide) hrest
    have hboth := @hsend 11 (arg0 % 256) _ _ delta (by decide) hsecond
    rw [hlow, hhigh] at hboth
    rw [List.append_assoc]
    exact hboth
  | mute =>
    cases h
    exact Plays.gen2 (by decide) (show track < 16 by omega) rfl hrest
  | timbre =>
    cases h
    exact Plays.gen2 (by decide) (show track < 16 by omega)
      (decide_eq_false (show ¬ 2 < track by omega)) hrest
  | pan =>
    cases h
    obtain ⟨⟨hlow, hhigh⟩, -⟩ := hrange
    replace hlow : 0 ≤ arg0 := hlow
    replace hhigh : arg0 ≤ 15 := hhigh
    refine Plays.gen2 (by decide) (show track < 16 by omega) ?_ hrest
    change (decide (2 < track) || decide (arg0 % 256 < 0) || decide (15 < arg0 % 256)) = false
    rw [decide_eq_false (by omega : ¬ 2 < track), decide_eq_false (by omega : ¬ arg0 % 256 < 0),
      decide_eq_false (by omega : ¬ 15 < arg0 % 256)]
    rfl
  | volume =>
    cases h
    exact hsend (show track + 8 < 16 by omega) hrest
  | envShape =>
    cases h
    exact hsend (by decide) hrest
  | mixer =>
    cases h
    exact hsend (by decide) hrest
  | noise =>
    cases h
    exact hsend (by decide) hrest

/-- A yield of no command has no code either. -/
theorem commandCode_nil (h : commandCode mixer y = .ok (mixer', code))
    (hcommands : prsCommands mixer y = []) : code = [] := by
  obtain ⟨d, track, command, arg0⟩ := y
  cases command with
  | segno =>
    cases h
    rfl
  | legato =>
    cases h
    rfl
  | lfo => cases h
  | _ => cases hcommands

end Code

/-! ## The file -/

/-- What is played of the codes of the yields. -/
def savedCommands (mixer pending : Nat) : List Yield → List Delayed
  | [] => []
  | y :: yields =>
    if prsCommands mixer y = [] then
      savedCommands (playYield mixer y).1 (waitFor pending y.delta) yields
    else delayed (waitFor pending y.delta) (prsCommands mixer y) ++
      savedCommands (playYield mixer y).1 0 yields

section File
variable {c c' : Compiler} {y : Yield} {yields : List Yield}

theorem saveYield_ok (h : saveYield c y = .ok c') : ∃ code,
    commandCode c.mixer y = .ok (c'.mixer, code) ∧ c'.body = c.body ++ (waitCode y.delta ++ code) ∧
      (y.command ≠ .segno → c'.loopStartPos = c.loopStartPos) := by
  unfold saveYield at h
  dsimp only at h
  obtain ⟨⟨mixer, code⟩, hcode, hret⟩ := bind_eq_ok.mp h
  cases hret
  by_cases hsegno : y.command = .segno
  · rw [if_pos hsegno] at hcode
    refine ⟨code, hcode, ?_, fun hne => absurd hsegno hne⟩
    rw [if_pos hsegno, ← List.append_assoc]
    rfl
  · rw [if_neg hsegno] at hcode
    refine ⟨code, hcode, ?_, fun _ => ?_⟩
    · rw [if_neg hsegno, ← List.append_assoc]
      rfl
    · rw [if_neg hsegno]
      rfl

/-- The codes of all yields are played to the end. -/
theorem saveYields_plays (hplayable : ∀ y ∈ yields, y.Playable)
    (hsegno : ∀ y ∈ yields, y.command ≠ .segno) (h : yields.foldlM saveYield c = .ok c') :
    c'.loopStartPos = c.loopStartPos ∧ ∃ codes, c'.body = c.body ++ codes ∧
      ∀ pending, Plays codes pending (savedCommands c.mixer pending yields) := by
  induction yields generalizing c with
  | nil =>
    cases h
    exact ⟨rfl, [], (List.append_nil _).symm, fun _ => Plays.done⟩
  | cons y yields ih =>
    rw [List.foldlM_cons] at h
    obtain ⟨next, hnext, h⟩ := bind_eq_ok.mp h
    obtain ⟨code, hcode, hbody, hloop⟩ := saveYield_ok hnext
    have hmixer := commandCode_mixer hcode
    obtain ⟨hloop', codes, hbody', hplays⟩ := ih (fun z hz => hplayable z (List.mem_cons_of_mem y hz))
      (fun z hz => hsegno z (List.mem_cons_of_mem y hz)) h
    refine ⟨hloop'.trans (hloop (hsegno y List.mem_cons_self)), waitCode y.delta ++ code ++ codes, ?_,
      ?_⟩
    · rw [hbody', hbody, List.append_assoc, List.append_assoc]
    · intro pending
      rw [List.append_assoc]
      refine plays_waitCode ?_
      unfold savedCommands
      by_cases hcommands : prsCommands c.mixer y = []
      · rw [if_pos hcommands, commandCode_nil hcode hcommands, ← hmixer]
        exact hplays _
      · rw [if_neg hcommands, ← hmixer]
        exact commandCode_plays (hplayable y List.mem_cons_self) hcode hcommands (hplays 0)

theorem Compiler.file_eq (c : Compiler) (size : Nat) (songname : Bytes) :
    c.file size songname = signature ++ prsVersion ++ [UInt8.ofNat size] ++ [0] ++
      toLittleEndian 4 c.length ++ toLittleEndian 4 c.loopStartPos ++
        ((songname.take 16 ++ List.replicate (16 - (songname.take 16).length) 0) ++ c.body) := rfl

/-- A file without a loop is played as its body is. -/
theorem playPrs_file {size : Nat} {songname : Bytes} {commands : List Delayed}
    (hloop : c.loopStartPos = 0) (h : Plays c.body 0 commands) :
    ∃ n, ∀ fuel, n ≤ fuel → playPrs fuel (c.file size songname) = (commands, .finished) := by
  obtain ⟨n, hn⟩ := h
  have hname : (songname.take 16 ++ List.replicate (16 - (songname.take 16).length) 0).length = 16 := by
    have hle : (songname.take 16).length ≤ 16 := List.length_take_le 16 songname
    rw [List.length_append, List.length_replicate]
    omega
  generalize hpadded : songname.take 16 ++ List.replicate (16 - (songname.take 16).length) 0 = padded
    at hname
  have hfile := c.file_eq size songname
  rw [hpadded, hloop, ← List.append_assoc] at hfile
  have hheader : (signature ++ prsVersion ++ [UInt8.ofNat size] ++ [0] ++ toLittleEndian 4 c.length ++
      toLittleEndian 4 0 ++ padded).length = headerSize := by
    rw [List.length_append, hname]
    rfl
  refine ⟨n, ?_⟩
  intro fuel hfuel
  have htake : (c.file size songname).take headerSize = signature ++ prsVersion ++
      [UInt8.ofNat size] ++ [0] ++ toLittleEndian 4 c.length ++ toLittleEndian 4 0 ++ padded := by
    rw [hfile, ← hheader, List.take_left]
  have hdrop : (c.file size songname).drop headerSize = c.body := by
    rw [hfile, ← hheader, List.drop_left]
  have hcheck : checkHeader ((c.file size songname).take headerSize) =
      .ok (ofLittleEndian (toLittleEndian 4 c.length), 0) := by
    unfold checkHeader
    rw [htake, if_neg (Nat.not_lt.mpr (Nat.le_of_eq hheader.symm))]
    rfl
  unfold playPrs
  rw [hcheck, hdrop]
  exact hn _ fuel hfuel

end File

/-! ## The same commands -/

/-- What the compiler raises nothing for. -/
def Yield.Savable (y : Yield) : Prop := y.command ≠ .lfo ∧ (y.command = .play → y.arg0 ≠ 0)

/-- What comes back from the file as `play_mml` has it: there is code for the command, the registers of
the pitch are those of the period, and nothing is cut off. -/
structure Yield.Encodable (y : Yield) : Prop where
  command : y.command ≠ .lfo ∧ y.command ≠ .legato
  period : y.command = .play →
    y.arg0 ≠ 0 ∧ Int.fdiv chipClock (32 * y.arg0) % 4096 = y.arg0 % 4096
  timbre : y.command = .timbre → 0 ≤ y.arg0
  delta : y.delta < 16777216

section Same
variable {c c' : Compiler} {mixer : Nat} {y : Yield} {yields : List Yield}

theorem commandCode_savable : (∃ result, commandCode mixer y = .ok result) ↔ y.Savable := by
  obtain ⟨d, track, command, arg0⟩ := y
  cases command with
  | lfo =>
    constructor
    · rintro ⟨result, h⟩
      cases h
    · intro h
      exact absurd rfl h.1
  | play =>
    constructor
    · rintro ⟨result, h⟩
      obtain ⟨value, hvalue, -⟩ := bind_eq_ok.mp h
      refine ⟨fun heq => Command.noConfusion heq, fun _ hzero => ?_⟩
      unfold pitchValue at hvalue
      rw [if_pos hzero] at hvalue
      cases hvalue
    · intro h
      have hvalue : pitchValue arg0 = .ok (Int.fdiv chipClock (32 * arg0)) := if_neg (h.2 rfl)
      exact ⟨_, bind_eq_ok.mpr ⟨_, hvalue, rfl⟩⟩
  | _ =>
    exact ⟨fun _ => ⟨fun heq => Command.noConfusion heq, fun heq => Command.noConfusion heq⟩,
      fun _ => ⟨_, rfl⟩⟩

theorem saveYield_savable : (∃ c', saveYield c y = .ok c') ↔ y.Savable := by
  constructor
  · rintro ⟨c', h⟩
    obtain ⟨code, hcode, -, -⟩ := saveYield_ok h
    exact commandCode_savable.mp ⟨_, hcode⟩
  · intro h
    unfold saveYield
    dsimp only
    obtain ⟨result, hresult⟩ := commandCode_savable.mpr h
    exact ⟨_, bind_eq_ok.mpr ⟨result, hresult, rfl⟩⟩

theorem saveYields_savable : (∃ c', yields.foldlM saveYield c = .ok c') ↔ ∀ y ∈ yields, y.Savable := by
  induction yields generalizing c with
  | nil => exact ⟨fun _ y hy => absurd hy List.not_mem_nil, fun _ => ⟨c, rfl⟩⟩
  | cons y yields ih =>
    constructor
    · rintro ⟨c', h⟩
      rw [List.foldlM_cons] at h
      obtain ⟨next, hnext, h⟩ := bind_eq_ok.mp h
      intro z hz
      rcases List.mem_cons.mp hz with rfl | hz
      · exact saveYield_savable.mp ⟨next, hnext⟩
      · exact ih.mp ⟨c', h⟩ z hz
    · intro h
      obtain ⟨next, hnext⟩ := (@saveYield_savable c y).mpr (h y List.mem_cons_self)
      obtain ⟨c', hrest⟩ := (@ih next).mpr fun z hz => h z (List.mem_cons_of_mem y hz)
      refine ⟨c', ?_⟩
      rw [List.foldlM_cons]
      exact bind_eq_ok.mpr ⟨next, hnext, hrest⟩

/-- The delta is on the first of the commands. -/
theorem playYield_delayed :
    (playYield mixer y).2 = delayed y.delta ((playYield mixer y).2.map Prod.snd) := by
  obtain ⟨d, track, command, arg0⟩ := y
  cases command with
  | _ => rfl

theorem delayed_inj {a b : Int} {commands others : List Invoke} (h : commands ≠ []) :
    delayed a commands = delayed b others ↔ a = b ∧ commands = others := by
  constructor
  · intro heq
    cases commands with
    | nil => exact absurd rfl h
    | cons c commands =>
      cases others with
      | nil => cases heq
      | cons d others =>
        obtain ⟨hhead, htail⟩ := List.cons.inj heq
        have hrest := congrArg (List.map Prod.snd) htail
        rw [List.map_map, List.map_map] at hrest
        replace hrest : commands.map id = others.map id := hrest
        rw [List.map_id, List.map_id] at hrest
        exact ⟨congrArg Prod.fst hhead, congrArg₂ List.cons (congrArg Prod.snd hhead) hrest⟩
  · rintro ⟨rfl, rfl⟩
    rfl

theorem delayed_length (delta : Int) (commands : List Invoke) :
    (delayed delta commands).length = commands.length := by
  cases commands with
  | nil => rfl
  | cons c commands =>
    change (commands.map _).length + 1 = commands.length + 1
    rw [List.length_map]

theorem waitFor_eq {delta : Int} (h : 0 ≤ delta) :
    (waitFor 0 delta : Int) = delta ↔ delta < 16777216 := by
  unfold waitFor
  split
  · omega
  · omega

/-- The registers of a pitch are those of a period when their 12 bits are the same. -/
theorem registers_eq {value period : Int} :
    (value % 256 = period % 256 ∧ value / 256 % 16 = period / 256 % 16) ↔
      value % 4096 = period % 4096 := by
  constructor
  · rintro ⟨hlow, hhigh⟩
    omega
  · intro h
    omega

theorem ldiff_lt {m n width : Nat} (h : m < 2 ^ width) : Nat.ldiff m n < 2 ^ width := by
  apply Nat.lt_pow_two_of_testBit
  intro i hi
  have hbit : m.testBit i = false :=
    Nat.testBit_lt_two_pow (Nat.lt_of_lt_of_le h (Nat.pow_le_pow_right (by decide) hi))
  rw [Nat.testBit_ldiff, hbit, Bool.false_and]

/-- The mixer has six bits. -/
theorem mixerAfter_lt {tr : Nat} {arg0 : Int} (hmixer : mixer < 2 ^ 6) (htr : tr < 3) :
    mixerAfter mixer tr arg0 < 2 ^ 6 := by
  have htone : 1 <<< tr < 2 ^ 6 := by
    rw [Nat.one_shiftLeft]
    exact Nat.pow_lt_pow_right (by decide) (by omega)
  have hnoise : 1 <<< (tr + 3) < 2 ^ 6 := by
    rw [Nat.one_shiftLeft]
    exact Nat.pow_lt_pow_right (by decide) (by omega)
  unfold mixerAfter
  split
  · exact ldiff_lt (Nat.or_lt_two_pow hmixer hnoise)
  · split
    · exact Nat.or_lt_two_pow (ldiff_lt hmixer) htone
    · split
      · exact ldiff_lt (ldiff_lt hmixer)
      · exact hmixer

theorem playYield_mixer_lt (hy : y.Playable) (hmixer : mixer < 2 ^ 6) :
    (playYield mixer y).1 < 2 ^ 6 := by
  obtain ⟨htrack, -⟩ := hy
  obtain ⟨d, track, command, arg0⟩ := y
  cases command with
  | mixer => exact mixerAfter_lt hmixer htrack
  | _ => exact hmixer

/-- Where there is code for a command it plays the same when no bits are cut off. -/
theorem commands_eq_iff (hy : y.Playable) (hmixer : mixer < 2 ^ 6) (hlfo : y.command ≠ .lfo)
    (hlegato : y.command ≠ .legato) :
    prsCommands mixer y = (playYield mixer y).2.map Prod.snd ↔
      (y.command = .play → Int.fdiv chipClock (32 * y.arg0) % 4096 = y.arg0 % 4096) ∧
        (y.command = .timbre → 0 ≤ y.arg0) := by
  obtain ⟨htrack, arg1, hrange⟩ := hy
  obtain ⟨d, track, command, arg0⟩ := y
  have hsame {value : Int} (hvalue : 0 ≤ value ∧ value < 256) : value % 256 = value :=
    Int.emod_eq_of_lt hvalue.1 hvalue.2
  have hbyte {make : Int → Invoke} (hvalue : 0 ≤ arg0 ∧ arg0 < 256) :
      [make (arg0 % 256)] = [make arg0] := by
    rw [hsame hvalue]
  have hfree (other : Command) {same : Prop} (hplay : other ≠ .play) (htimbre : other ≠ .timbre)
      (h : same) : same ↔ (other = .play → Int.fdiv chipClock (32 * arg0) % 4096 = arg0 % 4096) ∧
        (other = .timbre → 0 ≤ arg0) :=
    ⟨fun _ => ⟨fun heq => absurd heq hplay, fun heq => absurd heq htimbre⟩, fun _ => h⟩
  cases command with
  | lfo => exact absurd rfl hlfo
  | legato => exact absurd rfl hlegato
  | segno => exact hfree .segno (by decide) (by decide) rfl
  | play =>
    constructor
    · intro h
      refine ⟨fun _ => registers_eq.mp ?_, fun h => Command.noConfusion h⟩
      obtain ⟨hlow, hrest⟩ := List.cons.inj h
      exact ⟨(Invoke.sendReg.inj hlow).2, (Invoke.sendReg.inj (List.cons.inj hrest).1).2⟩
    · rintro ⟨h, -⟩
      obtain ⟨hlow, hhigh⟩ := registers_eq.mpr (h rfl)
      change [Invoke.sendReg (track * 2) (Int.fdiv chipClock (32 * arg0) % 256),
        Invoke.sendReg (track * 2 + 1) (Int.fdiv chipClock (32 * arg0) / 256 % 16)] = _
      rw [hlow, hhigh]
      rfl
  | timbre =>
    replace hrange : arg0 < 256 := hrange.1
    constructor
    · intro h
      refine ⟨fun h => Command.noConfusion h, fun _ => ?_⟩
      have hvalue : arg0 % 256 = arg0 := (Invoke.setTimbre.inj (List.cons.inj h).1).2
      change 0 ≤ arg0
      omega
    · rintro ⟨-, h⟩
      change [Invoke.setTimbre track (arg0 % 256)] = _
      rw [hsame ⟨h rfl, hrange⟩]
      rfl
  | mixer =>
    have hlt := @mixerAfter_lt mixer track arg0 hmixer htrack
    refine hfree .mixer (by decide) (by decide) ?_
    change [Invoke.sendReg 7 ((mixerAfter mixer track arg0 : Nat) % 256)] = _
    rw [hsame (by omega)]
    rfl
  | envPeriod =>
    replace hrange : 0 ≤ arg0 ∧ arg0 < 65536 := hrange.1
    refine hfree .envPeriod (by decide) (by decide) ?_
    change [Invoke.sendReg 11 (arg0 % 256), Invoke.sendReg 12 (arg0 / 256 % 256)] = _
    rw [hsame (by omega : 0 ≤ arg0 / 256 ∧ arg0 / 256 < 256)]
    rfl
  | mute =>
    replace hrange : 0 ≤ arg0 ∧ arg0 ≤ 1 := hrange.1
    exact hfree .mute (by decide) (by decide) (hbyte (by omega))
  | pan =>
    replace hrange : 0 ≤ arg0 ∧ arg0 ≤ 15 := hrange.1
    exact hfree .pan (by decide) (by decide) (hbyte (by omega))
  | volume =>
    replace hrange : 0 ≤ arg0 ∧ arg0 ≤ 16 := hrange.1
    exact hfree .volume (by decide) (by decide) (hbyte (by omega))
  | envShape =>
    replace hrange : 0 ≤ arg0 ∧ arg0 ≤ 15 := hrange.1
    exact hfree .envShape (by decide) (by decide) (hbyte (by omega))
  | noise => exact hfree .noise (by decide) (by decide) (hbyte hrange.1)

theorem commands_length (hlfo : y.command ≠ .lfo) (hlegato : y.command ≠ .legato) :
    (prsCommands mixer y).length = (playYield mixer y).2.length := by
  obtain ⟨d, track, command, arg0⟩ := y
  cases command with
  | lfo => exact absurd rfl hlfo
  | legato => exact absurd rfl hlegato
  | _ => rfl

theorem prsCommands_ne_nil (hsegno : y.command ≠ .segno) (hlfo : y.command ≠ .lfo)
    (hlegato : y.command ≠ .legato) : prsCommands mixer y ≠ [] := by
  obtain ⟨d, track, command, arg0⟩ := y
  cases command with
  | segno => exact absurd rfl hsegno
  | lfo => exact absurd rfl hlfo
  | legato => exact absurd rfl hlegato
  | _ => exact List.cons_ne_nil _ _

def Invoke.isLegato : Invoke → Bool
  | .setLegato _ _ => true
  | _ => false

theorem prsCommands_legato : ∀ c ∈ prsCommands mixer y, c.isLegato = false := by
  obtain ⟨d, track, command, arg0⟩ := y
  intro c hc
  cases command with
  | play =>
    rcases List.mem_pair.mp hc with rfl | rfl
    · rfl
    · rfl
  | envPeriod =>
    rcases List.mem_pair.mp hc with rfl | rfl
    · rfl
    · rfl
  | segno => exact absurd hc List.not_mem_nil
  | lfo => exact absurd hc List.not_mem_nil
  | legato => exact absurd hc List.not_mem_nil
  | _ =>
    rw [List.mem_singleton.mp hc]
    rfl

theorem mem_delayed {delta : Int} {commands : List Invoke} {p : Delayed}
    (h : p ∈ delayed delta commands) : p.2 ∈ commands := by
  cases commands with
  | nil => exact absurd h List.not_mem_nil
  | cons c commands =>
    rcases List.mem_cons.mp h with rfl | h
    · exact List.mem_cons_self
    · obtain ⟨d, hd, rfl⟩ := List.mem_map.mp h
      exact List.mem_cons_of_mem c hd

/-- Nothing in a file sets the legato. -/
theorem savedCommands_legato {pending : Nat} :
    ∀ p ∈ savedCommands mixer pending yields, p.2.isLegato = false := by
  induction yields generalizing mixer pending with
  | nil => exact fun p hp => absurd hp List.not_mem_nil
  | cons y yields ih =>
    intro p hp
    unfold savedCommands at hp
    split at hp
    · exact ih p hp
    · rcases List.mem_append.mp hp with hp | hp
      · exact prsCommands_legato p.2 (mem_delayed hp)
      · exact ih p hp

/-- From one yield on: the file plays the same when all that is yielded can be encoded. -/
theorem savedCommands_eq_iff (hmixer : mixer < 2 ^ 6) (hplayable : ∀ y ∈ yields, y.Playable)
    (hsegno : ∀ y ∈ yields, y.command ≠ .segno) (hdeltas : ∀ y ∈ yields, 0 ≤ y.delta)
    (hsavable : ∀ y ∈ yields, y.Savable) :
    savedCommands mixer 0 yields = (playYields mixer yields).1.flatten ↔
      ∀ y ∈ yields, y.Encodable := by
  induction yields generalizing mixer with
  | nil => exact ⟨fun _ y hy => absurd hy List.not_mem_nil, fun _ => rfl⟩
  | cons y yields ih =>
    have hy := hplayable y List.mem_cons_self
    have hrest := @ih (playYield mixer y).1 (playYield_mixer_lt hy hmixer)
      (fun z hz => hplayable z (List.mem_cons_of_mem y hz))
      (fun z hz => hsegno z (List.mem_cons_of_mem y hz))
      (fun z hz => hdeltas z (List.mem_cons_of_mem y hz))
      (fun z hz => hsavable z (List.mem_cons_of_mem y hz))
    rw [playYields_cons hy, List.flatten_cons]
    by_cases hlegato : y.command = .legato
    · -- there is no code for a legato, and nothing of what follows is one
      constructor
      · intro heq
        have hmem : (y.delta, Invoke.setLegato y.track y.arg0) ∈ savedCommands mixer 0 (y :: yields) := by
          rw [heq, playYield, hlegato]
          exact List.mem_cons_self
        exact absurd (savedCommands_legato _ hmem) (fun h => Bool.noConfusion h)
      · intro h
        exact absurd hlegato (h y List.mem_cons_self).command.2
    · obtain ⟨hlfo, hperiod⟩ := hsavable y List.mem_cons_self
      have hne := @prsCommands_ne_nil mixer y (hsegno y List.mem_cons_self) hlfo hlegato
      have hlength : (delayed (waitFor 0 y.delta) (prsCommands mixer y)).length =
          (playYield mixer y).2.length := by
        rw [delayed_length]
        exact commands_length hlfo hlegato
      have hown : delayed (waitFor 0 y.delta) (prsCommands mixer y) = (playYield mixer y).2 ↔
          y.Encodable := by
        rw [playYield_delayed, delayed_inj hne, waitFor_eq (hdeltas y List.mem_cons_self),
          commands_eq_iff hy hmixer hlfo hlegato]
        constructor
        · rintro ⟨hdelta, hregisters, htimbre⟩
          exact ⟨⟨hlfo, hlegato⟩, fun hplay => ⟨hperiod hplay, hregisters hplay⟩, htimbre, hdelta⟩
        · intro h
          exact ⟨h.delta, fun hplay => (h.period hplay).2, h.timbre⟩
      rw [savedCommands, if_neg hne]
      constructor
      · intro heq
        obtain ⟨hhead, htail⟩ := List.append_inj heq hlength
        intro z hz
        rcases List.mem_cons.mp hz with rfl | hz
        · exact hown.mp hhead
        · exact hrest.mp htail z hz
      · intro h
        rw [hown.mpr (h y List.mem_cons_self),
          hrest.mpr fun z hz => h z (List.mem_cons_of_mem y hz)]

end Same

/-- `play_prs` issues for the saved file what `play_mml` issues for the tracks, but for what fills the
buffer. -/
def SamePlayback (F : Type) [MmlFloat F] (fuel steps : Nat) (tracks : List Bytes) (songname : Bytes) :
    Prop :=
  ∃ file commands, save F fuel steps tracks songname = .ok file ∧
    (∃ enough, ∀ more, enough ≤ more → playPrs more file = (commands, .finished)) ∧
    atTimes 0 commands = atTimes 0 ((playMml F fuel steps tracks).blocks.flatten ++
      (playMml F fuel steps tracks).rescue)

section Songs
variable {F : Type} [MmlFloat F] {fuel steps : Nat} {tracks : List Bytes} {yields : List Yield}
variable {time : Int} {songname : Bytes}

/-- In a song that `compile_multi` gets through, all that `play_mml` issues is in its blocks. -/
theorem playMml_commands (hsegno : ∀ track ∈ tracks, 36 ∉ track)
    (h : compileMulti F true false fuel steps tracks = (yields, .returned time)) :
    (playMml F fuel steps tracks).blocks.flatten ++ (playMml F fuel steps tracks).rescue =
      (playYields mixerAtFirst yields).1.flatten := by
  have hplayable := @compileMulti_playable F _ true false fuel steps tracks
  rw [h] at hplayable
  have hrejected := (@playYields_accepted mixerAtFirst yields hplayable).1
  unfold playMml
  rw [compileMulti_loop hsegno, h]
  dsimp only
  rw [hrejected, Bool.false_or, if_neg Bool.false_ne_true, List.append_nil]

theorem samePlayback_iff_saved (hsegno : ∀ track ∈ tracks, 36 ∉ track)
    (h : compileMulti F true false fuel steps tracks = (yields, .returned time)) :
    SamePlayback F fuel steps tracks songname ↔ (∀ y ∈ yields, y.Savable) ∧
      savedCommands mixerAtFirst 0 yields = (playYields mixerAtFirst yields).1.flatten := by
  have hplayable := @compileMulti_playable F _ true false fuel steps tracks
  have hplain := @compileMulti_plain F _ true fuel steps tracks hsegno
  rw [h] at hplayable hplain
  have hsave (file : Bytes) : save F fuel steps tracks songname = .ok file ↔
      ∃ c, yields.foldlM saveYield ⟨[], 0, mixerAtFirst, 0⟩ = .ok c ∧
        c.file tracks.length songname = file := by
    unfold save
    rw [h]
    constructor
    · intro hfile
      obtain ⟨c, hc, hret⟩ := bind_eq_ok.mp hfile
      exact ⟨c, hc, Except.ok.inj hret⟩
    · rintro ⟨c, hc, rfl⟩
      exact bind_eq_ok.mpr ⟨c, hc, rfl⟩
  have hplays {c : Compiler} (hc : yields.foldlM saveYield ⟨[], 0, mixerAtFirst, 0⟩ = .ok c) :
      ∃ enough, ∀ more, enough ≤ more → playPrs more (c.file tracks.length songname) =
        (savedCommands mixerAtFirst 0 yields, .finished) := by
    obtain ⟨hloop, codes, hbody, hcodes⟩ := saveYields_plays hplayable hplain hc
    replace hbody : c.body = codes := hbody
    refine playPrs_file hloop ?_
    rw [hbody]
    exact hcodes 0
  unfold SamePlayback
  rw [playMml_commands hsegno h]
  constructor
  · rintro ⟨file, commands, hfile, ⟨enough, henough⟩, hsame⟩
    obtain ⟨c, hc, rfl⟩ := (hsave file).mp hfile
    refine ⟨saveYields_savable.mp ⟨c, hc⟩, ?_⟩
    obtain ⟨enough', henough'⟩ := hplays hc
    have hboth := (henough' (enough + enough') (Nat.le_add_left _ _)).symm.trans
      (henough (enough + enough') (Nat.le_add_right _ _))
    obtain ⟨hcommands, -⟩ := Prod.mk.inj hboth
    rw [hcommands]
    exact atTimes_inj.mp hsame
  · rintro ⟨hsavable, hsame⟩
    obtain ⟨c, hc⟩ := saveYields_savable.mpr hsavable
    exact ⟨_, _, (hsave _).mpr ⟨c, hc, rfl⟩, hplays hc, atTimes_inj.mpr hsame⟩

end Songs

/-- A song without a loop is played from its file as it is played from its tracks when all that
`compile_multi` yields for it can be encoded. -/
theorem samePlayback_iff_encodable (F : Type) [MmlFloat F] (fuel steps : Nat) (tracks : List Bytes)
    (songname : Bytes) (yields : List Yield) (time : Int) (hsegno : ∀ track ∈ tracks, 36 ∉ track)
    (h : compileMulti F true false fuel steps tracks = (yields, .returned time)) :
    SamePlayback F fuel steps tracks songname ↔ ∀ y ∈ yields, y.Encodable := by
  have hplayable := @compileMulti_playable F _ true false fuel steps tracks
  have hplain := @compileMulti_plain F _ true fuel steps tracks hsegno
  have hdeltas := @compileMulti_deltas F _ true false fuel steps tracks
  rw [h] at hplayable hplain hdeltas
  have hsaved := @savedCommands_eq_iff mixerAtFirst yields (by decide) hplayable hplain hdeltas
  rw [samePlayback_iff_saved hsegno h]
  constructor
  · rintro ⟨hsavable, hsame⟩
    exact (hsaved hsavable).mp hsame
  · intro hall
    have hsavable : ∀ y ∈ yields, y.Savable := fun y hy =>
      ⟨(hall y hy).command.1, fun hplay => ((hall y hy).period hplay).1⟩
    exact ⟨hsavable, (hsaved hsavable).mpr hall⟩

theorem samePlayback_rest : SamePlayback Rat 10 10 [[114]] [] ↔
    ∀ y ∈ [(⟨0, 0, .mute, 1⟩ : Yield), ⟨500, 0, .mute, 0⟩, ⟨0, 0, .mute, 1⟩], y.Encodable :=
  samePlayback_iff_encodable Rat 10 10 [[114]] [] _ 500 (by decide) (by decide +kernel)

/-- The track `a`: the file has another pitch. -/
theorem other_pitch : ¬ SamePlayback Rat 10 10 [[97]] [] := by
  have hyields : compileMulti Rat true false 10 10 [[97]] =
      ([⟨0, 0, .play, 142⟩, ⟨500, 0, .mute, 1⟩], .returned 500) := by decide +kernel
  rw [samePlayback_iff_saved (by decide) hyields]
  rintro ⟨-, hsame⟩
  revert hsame
  decide +kernel

end PicoRuby.Psg
