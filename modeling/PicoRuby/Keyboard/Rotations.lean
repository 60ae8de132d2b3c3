import Mathlib.Algebra.BigOperators.Fin
import PicoRuby.Keyboard.Split

/-!
# What the partner sends

Both halves run the same keymap, so both append the same encoders. Only the anchor counts the encoders of its
partner: there the codes differ, and on the partner they are all those of the first.
-/

namespace PicoRuby.Keyboard

open Shared RotaryEncoder

set_option autoImplicit false

/-! ## Encoders of both halves -/

namespace Half

/-- A half before its keymap is run. -/
def fresh (anchor anchorLeft : Bool) : Half := ⟨anchor, anchorLeft, Encoders.reset, [], []⟩

/-- A half that is no anchor has its encoders with the codes of a first one. -/
structure Partner (h : Half) : Prop where
  anchor : h.anchor = false
  none : h.partnerEncoders = []
  codes : ∀ e ∈ h.encoders, e.partnerKeycodeCw = 254 ∧ e.partnerKeycodeCcw = 253

/-- An anchor numbers the encoders of its partner. -/
structure Anchor (h : Half) : Prop where
  anchor : h.anchor = true
  codes : ∀ (j : Nat) (e : Knob), h.partnerEncoders[j]? = some e →
    e.partnerKeycodeCw = 254 - 2 * j ∧ e.partnerKeycodeCcw = 253 - 2 * j

variable {h h' : Half} {e : Knob} {pinA pinB : UInt8}

end Half

/-! ## Rotations -/

/-- What is run for a code of the first encoder. -/
def Turn.ofCode (data : Int) : Turn := if data = 254 then .cw else .ccw

def Turn.value : Turn → Int
  | .cw => 1
  | .ccw => -1

/-- What has been consumed of all encoders. -/
def total (s : Session) : Int := ∑ i, s.consumed i

theorem total_consume (s : Session) (number : Fin maxEncoderCount) :
    total (s.step (.consume number)) = total s + (s.encoders.consumeEncoder number).1 := by
  have hstep : ∀ i, (s.step (.consume number)).consumed i =
      s.consumed i + if i = number then (s.encoders.consumeEncoder number).1 else 0 := by
    intro i
    change (if i = number then _ else _) = _
    split
    · rfl
    · exact (Int.add_zero _).symm
  unfold total
  rw [Finset.sum_congr rfl fun i _ => hstep i, Finset.sum_add_distrib, Finset.sum_ite_eq' Finset.univ number]
  rw [if_pos (Finset.mem_univ number)]

theorem consumeEncoder_value (arrays : Encoders) (number : Fin maxEncoderCount) :
    (arrays.consumeEncoder number).1 = 1 ∨ (arrays.consumeEncoder number).1 = -1 ∨
      (arrays.consumeEncoder number).1 = 0 := by
  unfold Encoders.consumeEncoder
  dsimp only
  split_ifs
  · exact Or.inl rfl
  · exact Or.inr (Or.inl rfl)
  · exact Or.inr (Or.inr rfl)

/-- The reads of the encoders in a round of the partner. -/
def consumes (encoders : List Knob) : List RotaryEncoder.Event := encoders.filterMap fun e => e.number.map .consume

/-- A round of the partner pushes the code of the first encoder for each turn that it consumes. -/
theorem consumeAll_eq {encoders : List Knob}
    (hcodes : ∀ e ∈ encoders, e.partnerKeycodeCw = 254 ∧ e.partnerKeycodeCcw = 253) (s : Session) :
    (s.run (consumes encoders)).encoders = (consumeAll encoders s.encoders).2 ∧
      total (s.run (consumes encoders)) = total s +
        ((consumeAll encoders s.encoders).1.map fun data => (Turn.ofCode data).value).sum ∧
      (∀ data ∈ (consumeAll encoders s.encoders).1, data = 254 ∨ data = 253) ∧
      (consumeAll encoders s.encoders).1.length ≤ encoders.length := by
  induction encoders generalizing s with
  | nil =>
    refine ⟨rfl, (Int.add_zero _).symm, ?_, Nat.le_refl _⟩
    intro data hmem
    cases hmem
  | cons e encoders ih =>
    have hrest := fun e' hmem => hcodes e' (List.mem_cons_of_mem e hmem)
    obtain ⟨hcw, hccw⟩ := hcodes e List.mem_cons_self
    cases hnumber : e.number with
    | none =>
      have hconsumes : consumes (e :: encoders) = consumes encoders := List.filterMap_cons_none (by rw [hnumber]; rfl)
      have hall : consumeAll (e :: encoders) s.encoders = consumeAll encoders s.encoders := by
        rw [consumeAll, Knob.consumeRotationPartner, hnumber]
        rfl
      obtain ⟨harrays, htotal, hdata, hlen⟩ := ih hrest s
      rw [hconsumes, hall]
      exact ⟨harrays, htotal, hdata, Nat.le_succ_of_le hlen⟩
    | some number =>
      have hconsumes : consumes (e :: encoders) = .consume number :: consumes encoders :=
        List.filterMap_cons_some (by rw [hnumber]; rfl)
      have hrun : s.run (consumes (e :: encoders)) = (s.step (.consume number)).run (consumes encoders) := by
        rw [hconsumes]
        rfl
      have hnext : (s.step (.consume number)).encoders = (s.encoders.consumeEncoder number).2 := rfl
      obtain ⟨harrays, htotal, hdata, hlen⟩ := ih hrest (s.step (.consume number))
      rw [hnext] at harrays htotal hdata hlen
      rw [total_consume] at htotal
      rw [hrun, consumeAll, Knob.consumeRotationPartner, hnumber, hcw, hccw]
      dsimp only
      rcases consumeEncoder_value s.encoders number with hvalue | hvalue | hvalue
      · rw [hvalue] at htotal ⊢
        refine ⟨harrays, ?_, ?_, Nat.succ_le_succ hlen⟩
        · rw [htotal, Int.add_assoc]
          rfl
        · intro data hmem
          rcases List.mem_cons.mp hmem with rfl | hmem
          · exact Or.inl rfl
          · exact hdata data hmem
      · rw [hvalue] at htotal ⊢
        refine ⟨harrays, ?_, ?_, Nat.succ_le_succ hlen⟩
        · rw [htotal, Int.add_assoc]
          rfl
        · intro data hmem
          rcases List.mem_cons.mp hmem with rfl | hmem
          · exact Or.inr rfl
          · exact hdata data hmem
      · rw [hvalue] at htotal ⊢
        rw [Int.add_zero] at htotal
        exact ⟨harrays, htotal, hdata, Nat.le_succ_of_le hlen⟩

/-! ## Exchanges -/

/-- The byte of a code that is pushed. -/
def byteOf (data : Int) : UInt8 := UInt8.ofNat data.toNat

theorem byteOf_natCast (b : UInt8) : byteOf b.toNat = b := by
  rw [byteOf, Int.toNat_natCast, UInt8.ofNat_toNat]

theorem byteOf_turned {data : Int} (h : data = 254 ∨ data = 253) : ((byteOf data).toNat : Int) = data := by
  rcases h with rfl | rfl
  · rfl
  · rfl

theorem byteOf_switchCode {switch : Switch} (h : InRange switch) :
    ((byteOf (switchCode switch)).toNat : Int) = switchCode switch ∧
      switchOf (byteOf (switchCode switch)).toNat = switch := by
  obtain ⟨b, hcode, hswitch⟩ := h.code
  rw [hcode, byteOf_natCast]
  exact ⟨rfl, hswitch⟩

theorem pushes_bytes {turned : List Int} {switches : List Switch} (hturned : ∀ data ∈ turned, data = 254 ∨ data = 253)
    (hswitches : ∀ switch ∈ switches, InRange switch) :
    ((pushes turned switches).map byteOf).map (fun b => (b.toNat : Int)) = pushes turned switches := by
  rw [List.map_map]
  conv => rhs; rw [← List.map_id (pushes turned switches)]
  apply List.map_congr_left
  intro data hmem
  rcases List.mem_append.mp hmem with hmem | hmem
  · exact byteOf_turned (hturned data hmem)
  · obtain ⟨switch, hswitch, rfl⟩ := List.mem_map.mp hmem
    exact (byteOf_switchCode (hswitches switch hswitch)).1

/-- The codes that go through. -/
def sent (turned : List Int) (switches : List Switch) : List Int :=
  turned.take 3 ++ (switches.take (3 - turned.length)).map switchCode

section Exchange
variable {turned : List Int} {switches own : List Switch} {partnerEncoders : List Knob}

theorem sent_eq : sent turned switches = (pushes turned switches).take 3 := by
  rw [pushes, List.take_append, ← List.map_take]
  rfl

theorem byteOf_sent (hturned : ∀ data ∈ turned, data = 254 ∨ data = 253)
    (hswitches : ∀ switch ∈ switches, InRange switch) {data : Int} (hmem : data ∈ sent turned switches) :
    ((byteOf data).toNat : Int) = data := by
  rcases List.mem_append.mp hmem with hmem | hmem
  · exact byteOf_turned (hturned data (List.mem_of_mem_take hmem))
  · obtain ⟨switch, hswitch, rfl⟩ := List.mem_map.mp hmem
    exact (byteOf_switchCode (hswitches switch (List.mem_of_mem_take hswitch))).1

/-- What the anchor is given of a round of the partner. -/
theorem received_bytes (hturned : ∀ data ∈ turned, data = 254 ∨ data = 253)
    (hswitches : ∀ switch ∈ switches, InRange switch) :
    ∃ missing, bytesOf (partnerWord turned switches) =
      (sent turned switches).map (fun data => (byteOf data).toNat) ++ List.replicate missing 0xFF := by
  have hword := bytesOf_word ((pushes turned switches).map byteOf)
  rw [pushes_bytes hturned hswitches, List.map_map, List.take_append, List.take_replicate, ← List.map_take,
    ← sent_eq] at hword
  exact ⟨_, hword⟩

/-- A call for each code above 246 that comes through. -/
theorem receive_calls (hturned : ∀ data ∈ turned, data = 254 ∨ data = 253)
    (hswitches : ∀ switch ∈ switches, InRange switch) :
    (receive partnerEncoders own (partnerWord turned switches)).calls =
      ((sent turned switches).filter fun data => 246 < data ∧ data ≠ 0xFF).flatMap
        fun data => partnerEncoders.filterMap fun e => e.callProcIf data := by
  obtain ⟨missing, hbytes⟩ := received_bytes hturned hswitches
  have hmissing : (List.replicate missing 0xFF).filter (fun d => 246 < d ∧ d ≠ 0xFF) = [] := by
    rw [List.filter_eq_nil_iff]
    intro d hmem
    rw [List.eq_of_mem_replicate hmem]
    decide
  rw [receive, hbytes, Received.foldl_calls, List.nil_append, List.filter_append, hmissing, List.append_nil,
    List.filter_map, List.flatMap_map]
  have hsame : (sent turned switches).filter ((fun d => 246 < d ∧ d ≠ 0xFF) ∘ fun data => (byteOf data).toNat) =
      (sent turned switches).filter fun data => 246 < data ∧ data ≠ 0xFF := by
    apply List.filter_congr
    intro data hmem
    have hdata := byteOf_sent hturned hswitches hmem
    exact decide_eq_decide.mpr (by dsimp only; omega)
  rw [hsame]
  apply List.flatMap_congr
  intro data hmem
  rw [byteOf_sent hturned hswitches (List.mem_of_mem_filter hmem)]

end Exchange

theorem partnerWord_lt {turned : List Int} {switches : List Switch}
    (hturned : ∀ data ∈ turned, data = 254 ∨ data = 253) (hswitches : ∀ switch ∈ switches, InRange switch) :
    partnerWord turned switches < 2 ^ 24 := by
  obtain ⟨missing, hbytes⟩ := received_bytes hturned hswitches
  have hhigh : partnerWord turned switches / 65536 ∈ bytesOf (partnerWord turned switches) := by
    rw [bytesOf_eq]
    exact List.mem_cons_of_mem _ (List.mem_cons_of_mem _ List.mem_cons_self)
  rw [hbytes] at hhigh
  have hlt : partnerWord turned switches / 65536 < 256 := by
    rcases List.mem_append.mp hhigh with hmem | hmem
    · obtain ⟨data, -, hdata⟩ := List.mem_map.mp hmem
      rw [← hdata]
      exact byte_lt _
    · rw [List.eq_of_mem_replicate hmem]
      decide
  omega

/-! ## Runs of both halves -/

/-- The encoders of the partner, and the Procs that the anchor has run. -/
structure SplitState where
  arrays : Encoders
  calls : List (Nat × Turn)

/-- An interrupt on the partner, or a round of both loops with the switches that are scanned. -/
inductive SplitEvent where
  | interrupt (gpio : UInt32) (gpioGet : Fin maxEncoderCount → Level)
  | round (switches own : List Switch)

def SplitState.step (link : Nat → Nat) (anchor partner : Half) (s : SplitState) : SplitEvent → SplitState
  | .interrupt gpio gpioGet => { s with arrays := s.arrays.callback gpio gpioGet }
  | .round switches own =>
    let (turned, arrays) := consumeAll partner.encoders s.arrays
    ⟨arrays, s.calls ++ (receive anchor.partnerEncoders own (link (partnerWord turned switches))).calls⟩

def SplitState.run (link : Nat → Nat) (anchor partner : Half) (s : SplitState) (events : List SplitEvent) : SplitState :=
  events.foldl (SplitState.step link anchor partner) s

/-- What happens to the encoders of the partner. -/
def SplitEvent.onPartner (encoders : List Knob) : SplitEvent → List RotaryEncoder.Event
  | .interrupt gpio gpioGet => [.callback gpio gpioGet]
  | .round _ _ => consumes encoders

/-- The switches of a round have codes of their own. -/
def SplitEvent.Plain : SplitEvent → Prop
  | .interrupt _ _ => True
  | .round switches _ => ∀ switch ∈ switches, InRange switch ∧ switchCode switch ≤ 246

section Run
variable {link : Nat → Nat} {anchor partner : Half}

/-- A code of the first encoder runs the Procs of the first encoder alone. -/
theorem first_call {e : Knob} {rest : List Knob} (hanchor : anchor.Anchor) (hencoders : anchor.partnerEncoders = e :: rest)
    {data : Int} (hdata : data = 254 ∨ data = 253) :
    (anchor.partnerEncoders.filterMap fun e => e.callProcIf data) = [(e.id, Turn.ofCode data)] := by
  have hfirst : e.callProcIf data = some (e.id, Turn.ofCode data) := by
    obtain ⟨hcw, hccw⟩ := hanchor.codes 0 e (by rw [hencoders]; rfl)
    unfold Knob.callProcIf
    rcases hdata with rfl | rfl
    · rw [if_pos (by omega)]
      rfl
    · rw [if_neg (by omega), if_pos (by omega)]
      rfl
  have hrest : rest.filterMap (fun e => e.callProcIf data) = [] := by
    rw [List.filterMap_eq_nil_iff]
    intro e' hmem
    obtain ⟨j, hj⟩ := List.mem_iff_getElem?.mp hmem
    obtain ⟨hcw, hccw⟩ := hanchor.codes (j + 1) e' (by rw [hencoders, List.getElem?_cons_succ, hj])
    unfold Knob.callProcIf
    rw [if_neg (by omega), if_neg (by omega)]
  rw [hencoders, @List.filterMap_cons_some _ _ (fun e : Knob => e.callProcIf data) e rest _ hfirst, hrest]

/-- With plain switches, what the anchor runs are the turns of the partner, all with the first encoder. -/
theorem round_calls (hanchor : anchor.Anchor) (hids : partner.encoders.map Knob.id = anchor.partnerEncoders.map Knob.id)
    {turned : List Int} (hturned : ∀ data ∈ turned, data = 254 ∨ data = 253) (hlen : turned.length ≤ 3)
    (hsome : turned.length ≤ partner.encoders.length) {switches : List Switch}
    (hswitches : ∀ switch ∈ switches, InRange switch ∧ switchCode switch ≤ 246) (own : List Switch) :
    (∀ call ∈ (receive anchor.partnerEncoders own (partnerWord turned switches)).calls,
        (partner.encoders.map Knob.id).head? = some call.1) ∧
      (receive anchor.partnerEncoders own (partnerWord turned switches)).calls.map Prod.snd =
        turned.map Turn.ofCode := by
  have hfilter : ((sent turned switches).filter fun data => 246 < data ∧ data ≠ 0xFF) = turned := by
    have hturns : (turned.filter fun data => 246 < data ∧ data ≠ 0xFF) = turned := by
      rw [List.filter_eq_self]
      intro data hmem
      have hdata := hturned data hmem
      exact decide_eq_true (by omega)
    have hcodes : (((switches.take (3 - turned.length)).map switchCode).filter
        fun data => 246 < data ∧ data ≠ 0xFF) = [] := by
      rw [List.filter_eq_nil_iff]
      intro data hmem
      obtain ⟨switch, hswitch, rfl⟩ := List.mem_map.mp hmem
      have hle := (hswitches switch (List.mem_of_mem_take hswitch)).2
      rw [decide_eq_true_eq]
      omega
    rw [sent, List.filter_append, List.take_of_length_le hlen, hturns, hcodes, List.append_nil]
  rw [receive_calls hturned fun switch hmem => (hswitches switch hmem).1, hfilter, hids]
  cases hencoders : anchor.partnerEncoders with
  | nil =>
    have hnone : turned = [] := by
      have hcount := congrArg List.length hids
      rw [hencoders, List.length_map] at hcount
      apply List.eq_nil_of_length_eq_zero
      change partner.encoders.length = 0 at hcount
      omega
    rw [hnone]
    refine ⟨?_, rfl⟩
    intro call hmem
    cases hmem
  | cons e rest =>
    have hcalls : (turned.flatMap fun data => (e :: rest).filterMap fun e => e.callProcIf data) =
        turned.map fun data => (e.id, Turn.ofCode data) := by
      rw [← hencoders, List.map_eq_flatMap]
      apply List.flatMap_congr
      intro data hmem
      exact first_call hanchor hencoders (hturned data hmem)
    rw [hcalls, List.map_map]
    refine ⟨?_, rfl⟩
    intro call hmem
    obtain ⟨data, -, rfl⟩ := List.mem_map.mp hmem
    rfl

/-- The calls of the anchor, beside what is consumed on the partner. -/
structure Delivered (partner : Half) (s : SplitState) (t : Session) : Prop where
  arrays : t.encoders = s.arrays
  first : ∀ call ∈ s.calls, (partner.encoders.map Knob.id).head? = some call.1
  turns : (s.calls.map fun call => call.2.value).sum = total t

theorem Delivered.step (hlink : ∀ word < 2 ^ 24, link word = word) (hanchor : anchor.Anchor) (hpartner : partner.Partner)
    (hids : partner.encoders.map Knob.id = anchor.partnerEncoders.map Knob.id) (hfew : partner.encoders.length ≤ 3)
    {s : SplitState} {t : Session} (h : Delivered partner s t) {event : SplitEvent} (hplain : event.Plain) :
    Delivered partner (s.step link anchor partner event) (t.run (event.onPartner partner.encoders)) := by
  cases event with
  | interrupt gpio gpioGet =>
    refine ⟨?_, h.first, h.turns⟩
    change t.encoders.callback gpio gpioGet = s.arrays.callback gpio gpioGet
    rw [h.arrays]
  | round switches own =>
    obtain ⟨harrays, htotal, hturned, hlen⟩ := consumeAll_eq hpartner.codes t
    rw [h.arrays] at harrays htotal hturned hlen
    have hword := hlink _ (partnerWord_lt hturned fun switch hmem => (hplain switch hmem).1)
    obtain ⟨hfirst, hcalls⟩ := round_calls hanchor hids hturned (hlen.trans hfew) hlen hplain own
    have hstep : s.step link anchor partner (.round switches own) =
        ⟨(consumeAll partner.encoders s.arrays).2, s.calls ++ (receive anchor.partnerEncoders own
          (link (partnerWord (consumeAll partner.encoders s.arrays).1 switches))).calls⟩ := rfl
    rw [hstep, hword]
    refine ⟨harrays, ?_, ?_⟩
    · intro call hmem
      rcases List.mem_append.mp hmem with hold | hnew
      · exact h.first call hold
      · exact hfirst call hnew
    · have hvalues : ((receive anchor.partnerEncoders own
          (partnerWord (consumeAll partner.encoders s.arrays).1 switches)).calls.map fun call => call.2.value) =
          (consumeAll partner.encoders s.arrays).1.map fun data => (Turn.ofCode data).value := by
        have hturns := congrArg (List.map Turn.value) hcalls
        rwa [List.map_map, List.map_map] at hturns
      change ((s.calls ++ _).map fun call => call.2.value).sum = total (t.run (consumes partner.encoders))
      rw [List.map_append, List.sum_append, hvalues, h.turns, htotal]

theorem Delivered.run (hlink : ∀ word < 2 ^ 24, link word = word) (hanchor : anchor.Anchor) (hpartner : partner.Partner)
    (hids : partner.encoders.map Knob.id = anchor.partnerEncoders.map Knob.id) (hfew : partner.encoders.length ≤ 3)
    {s : SplitState} {t : Session} (h : Delivered partner s t) {events : List SplitEvent}
    (hplain : ∀ event ∈ events, event.Plain) : Delivered partner (s.run link anchor partner events)
      (t.run (events.flatMap (SplitEvent.onPartner partner.encoders))) := by
  induction events generalizing s t with
  | nil => exact h
  | cons event events ih =>
    have hnext := h.step hlink hanchor hpartner hids hfew (hplain event List.mem_cons_self)
    have hrun := ih hnext fun event' hmem => hplain event' (List.mem_cons_of_mem event hmem)
    have hsplit : t.run ((event :: events).flatMap (SplitEvent.onPartner partner.encoders)) =
        (t.run (event.onPartner partner.encoders)).run (events.flatMap (SplitEvent.onPartner partner.encoders)) := by
      rw [List.flatMap_cons, Session.run, List.foldl_append]
      rfl
    rw [hsplit]
    exact hrun

end Run

end PicoRuby.Keyboard
