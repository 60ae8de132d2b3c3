import PicoRuby.Ble.GattClient
import PicoRuby.Shared.Results
import Mathlib.Data.List.Infix

/-!
# What is discovered

The events of a client, one query after the other, and what the central has recorded after each.
-/

namespace PicoRuby.Ble

open Shared

set_option autoImplicit false

/-! ## The events -/

section Packets
variable {conn : Nat}

/-- What is recorded of a service, with the low bytes of its handles. -/
def ServerService.recorded (s : ServerService) : Service :=
  ⟨s.startHandle % 256, s.endHandle % 256, s.uuid128, uuid128ToUuid32 s.uuid128, []⟩

/-- What is recorded of a characteristic at first. -/
def ServerCharacteristic.recorded (c : ServerCharacteristic) : Characteristic :=
  ⟨c.startHandle % 256, c.valueHandle % 256, c.endHandle % 256, c.properties.toNat, c.uuid128,
    uuid128ToUuid32 c.uuid128, none, []⟩

/-- What is recorded of a descriptor at first. -/
def ServerDescriptor.recorded (d : ServerDescriptor) : Descriptor :=
  ⟨d.handle % 256, d.uuid128, uuid128ToUuid32 d.uuid128, none⟩

end Packets

/-! ## Callbacks -/

section Callbacks
variable {server : Server} {conn : Nat}

/-- A discovery is going on. -/
def State.discovering : State → Bool
  | .tcW4ServiceResult => true
  | .tcW4CharacteristicResult => true
  | .tcW4CharacteristicValueResult => true
  | .tcW4AllCharacteristicDescriptorsResult => true
  | .tcW4CharacteristicDescriptorValueResult => true
  | _ => false

theorem packetCallback_gatt {c : Central} {accepts : Query → Bool} {packet : Bytes} {eventType : Nat}
    (htype : ordAt packet 0 = some eventType)
    (hlow : GATT_EVENT_QUERY_COMPLETE ≤ eventType)
    (hhigh : eventType ≤ GATT_EVENT_LONG_CHARACTERISTIC_VALUE_QUERY_RESULT) :
    c.packetCallback accepts packet = c.gattEvent eventType packet := by
  unfold GATT_EVENT_QUERY_COMPLETE at hlow
  unfold Central.packetCallback
  rw [htype]
  dsimp only
  rw [if_neg (by unfold BTSTACK_EVENT_STATE; omega), if_neg (by unfold HCI_EVENT_LE_META; omega),
    if_pos ⟨hlow, hhigh⟩]

/-- An event that is no answer changes nothing while a discovery goes on. -/
theorem next_other {s : System} (hstate : s.central.state.discovering = true) {packet : Bytes}
    (hforeign : (Action.other packet).foreign) : s.next server conn (.other packet) = s := by
  have hcallback (accepts : Query → Bool) :
      s.central.packetCallback accepts packet = .ok (s.central, none) := by
    unfold Central.packetCallback
    cases htype : ordAt packet 0 with
    | none => rfl
    | some eventType =>
      have hrange := hforeign eventType (htype ▸ Option.mem_some_self _)
      dsimp only
      split
      · have hbusy : s.central.state ≠ .tcOff ∧ s.central.state ≠ .tcIdle := by
          constructor
          · intro heq
            rw [heq] at hstate
            exact absurd hstate Bool.false_ne_true
          · intro heq
            rw [heq] at hstate
            exact absurd hstate Bool.false_ne_true
        rw [if_pos hbusy]
        rfl
      · split
        · unfold Central.leMeta
          have hbusy : s.central.state ≠ .tcW4Connect := by
            intro heq
            rw [heq] at hstate
            exact absurd hstate Bool.false_ne_true
          rw [if_pos hbusy]
          rfl
        · rw [if_neg (by omega)]
          rfl
  unfold System.next System.callback
  dsimp only
  rw [hcallback]

/-- `n` events lead from one state to another, with the discovery going on in between. -/
structure Leads (server : Server) (conn : Nat) (s : System) (n : Nat) (t : System) : Prop where
  ends : (System.deliver server conn)^[n] s = t
  busy : ∀ j < n, ((System.deliver server conn)^[j] s).central.state.discovering = true

theorem Leads.refl (s : System) : Leads server conn s 0 s :=
  ⟨rfl, fun _ h => absurd h (Nat.not_lt_zero _)⟩

theorem Leads.trans {s t u : System} {m n : Nat} (hst : Leads server conn s m t)
    (htu : Leads server conn t n u) : Leads server conn s (n + m) u := by
  constructor
  · rw [Function.iterate_add_apply, hst.ends, htu.ends]
  · intro j hj
    by_cases hlt : j < m
    · exact hst.busy j hlt
    · have hsplit : j = (j - m) + m := by omega
      rw [hsplit, Function.iterate_add_apply, hst.ends]
      exact htu.busy (j - m) (by omega)

theorem Leads.single {s t : System} (hstate : s.central.state.discovering = true)
    (hstep : s.deliver server conn = t) : Leads server conn s 1 t := by
  refine ⟨hstep, ?_⟩
  intro j hj
  have hzero : j = 0 := by omega
  rw [hzero]
  exact hstate

theorem Leads.head {s t u : System} {n : Nat} (hstate : s.central.state.discovering = true)
    (hstep : s.deliver server conn = t) (htu : Leads server conn t n u) :
    Leads server conn s (n + 1) u := (Leads.single hstate hstep).trans htu

/-- A result changes the central only: the client refuses what is asked for in the callback. -/
theorem deliver_result (eventType : Nat) (query : Option Query) {c d : Central} {packet : Bytes}
    {rest : List Bytes} (hrest : rest ≠ []) (htype : ordAt packet 0 = some eventType)
    (hlow : GATT_EVENT_QUERY_COMPLETE ≤ eventType)
    (hhigh : eventType ≤ GATT_EVENT_LONG_CHARACTERISTIC_VALUE_QUERY_RESULT)
    (hevent : c.gattEvent eventType packet = .ok (d, query)) :
    (⟨c, packet :: rest⟩ : System).deliver server conn = ⟨d, rest⟩ := by
  have hbusy : rest.isEmpty = false := List.isEmpty_eq_false_iff.mpr hrest
  unfold System.deliver System.callback
  dsimp only
  rw [packetCallback_gatt htype hlow hhigh, hevent]
  cases query with
  | none => rfl
  | some query =>
    have hrefused : ¬ (rest.isEmpty && query.connHandle == conn) = true := by
      rw [hbusy]
      exact Bool.false_ne_true
    dsimp only
    rw [if_neg hrefused]

theorem Leads.results (server : Server) (conn : Nat) {α : Type} (event : α → Bytes) (eventType : Nat)
    (f : Central → α → Central) {state : State} {xs : List α} (hstate : state.discovering = true)
    (hlow : GATT_EVENT_QUERY_COMPLETE ≤ eventType)
    (hhigh : eventType ≤ GATT_EVENT_LONG_CHARACTERISTIC_VALUE_QUERY_RESULT)
    (hevent : ∀ x ∈ xs, ordAt (event x) 0 = some eventType)
    (hstep : ∀ c : Central, c.state = state → ∀ x ∈ xs,
      (f c x).state = state ∧ ∃ query, c.gattEvent eventType (event x) = .ok (f c x, query))
    {rest : List Bytes} (hrest : rest ≠ []) {c : Central} (hc : c.state = state) :
    Leads server conn ⟨c, xs.map event ++ rest⟩ xs.length ⟨xs.foldl f c, rest⟩ := by
  induction xs generalizing c with
  | nil => exact Leads.refl _
  | cons x xs ih =>
    obtain ⟨hnext, query, hquery⟩ := hstep c hc x List.mem_cons_self
    have htail := ih (fun y hy => hevent y (List.mem_cons_of_mem _ hy))
      (fun d hd y hy => hstep d hd y (List.mem_cons_of_mem _ hy)) hnext
    refine Leads.head (by rw [hc]; exact hstate) ?_ htail
    refine deliver_result eventType query ?_ (hevent x List.mem_cons_self) hlow hhigh hquery
    exact List.append_ne_nil_of_right_ne_nil _ hrest

/-! ## The services -/

/-- The handles that the characteristics of a service are asked for with. -/
def ServerService.range (s : ServerService) : Nat × Nat := (s.startHandle % 256, s.endHandle % 256)

/-- What a result of the first query does. -/
def Central.addService (c : Central) (s : ServerService) : Central :=
  { c with
    services := c.services ++ [s.recorded]
    characteristicHandleRanges := c.characteristicHandleRanges ++ [s.range] }

end Callbacks

/-! ## What a callback can do -/

/-- The services have been told of. -/
def State.pastServices : State → Bool
  | .tcW4ServiceResult => false
  | .tcW4Connect => false
  | _ => true

/-- No characteristic is told of any more, and no value of one. -/
def State.settled : State → Bool
  | .tcW4AllCharacteristicDescriptorsResult => true
  | .tcW4CharacteristicDescriptorValueResult => true
  | .tcIdle => true
  | .tcW4ScanResult => true
  | .tcOff => true
  | _ => false

/-- What happens to the services in a callback, after they have been told of. -/
inductive Changes (packet : Bytes) (state : State) (before after : List Service) : Prop where
  | same (h : after = before)
  | characteristic (chara : Characteristic) (hstate : state = .tcW4CharacteristicResult)
      (h : after = addCharacteristic chara before)
  | value (hstate : state = .tcW4CharacteristicValueResult)
      (h : setCharacteristicValues packet before = .ok after)
  | descriptor (descriptor : Descriptor) (h : after = addDescriptor descriptor before)
  | descriptorValue (h : setDescriptorValues packet before = .ok after)

/-- What is kept between two states of the central. -/
structure Onward (packet : Bytes) (c d : Central) : Prop where
  changes : Changes packet c.state c.services d.services
  pastServices : d.state.pastServices = true
  settled : c.state.settled = true → d.state.settled = true

section Steps
variable {c d : Central} {query : Option Query} {eventType : Nat} {packet : Bytes}

end Steps

/-! ## What stays -/

section Frames

theorem mapM_map_eq {α β γ : Type} {f : α → Except Error β} {key : α → γ} {key' : β → γ}
    (hkey : ∀ x y, f x = .ok y → key' y = key x) {xs : List α} {ys : List β}
    (h : xs.mapM f = .ok ys) : ys.map key' = xs.map key := by
  induction xs generalizing ys with
  | nil =>
    cases h
    rfl
  | cons x xs ih =>
    rw [List.mapM_cons] at h
    obtain ⟨y, hy, h⟩ := bind_eq_ok.mp h
    obtain ⟨zs, hzs, hret⟩ := bind_eq_ok.mp h
    cases hret
    rw [List.map_cons, List.map_cons, hkey x y hy, ih hzs]

/-- The handles that a service is recorded with. -/
def Service.range (service : Service) : Nat × Nat := (service.startHandle, service.endHandle)

/-- The values of the characteristics of a service. -/
def Service.values (service : Service) : List (Option Bytes) :=
  service.characteristics.map Characteristic.value

variable {packet : Bytes} {state : State} {before after : List Service}

theorem addCharacteristic_range (chara : Characteristic) (services : List Service) :
    (addCharacteristic chara services).map Service.range = services.map Service.range := by
  induction services with
  | nil => rfl
  | cons service services ih =>
    unfold addCharacteristic
    split
    · rfl
    · rw [List.map_cons, List.map_cons, ih]

/-- The handles of a service never change. -/
theorem Changes.range (h : Changes packet state before after) :
    after.map Service.range = before.map Service.range := by
  cases h with
  | same h => rw [h]
  | characteristic chara _ h => rw [h, addCharacteristic_range]
  | value _ h =>
    refine mapM_map_eq ?_ h
    intro service changed hchanged
    obtain ⟨charas, -, hret⟩ := bind_eq_ok.mp hchanged
    cases hret
    rfl
  | descriptor descriptor h =>
    rw [h, addDescriptor, List.map_map]
    rfl
  | descriptorValue h =>
    refine mapM_map_eq ?_ h
    intro service changed hchanged
    obtain ⟨charas, -, hret⟩ := bind_eq_ok.mp hchanged
    cases hret
    rfl

/-- The values of the characteristics are not touched for the descriptors. -/
theorem Changes.values (h : Changes packet state before after) (hsettled : state.settled = true) :
    after.map Service.values = before.map Service.values := by
  cases h with
  | same h => rw [h]
  | characteristic chara hstate _ =>
    rw [hstate] at hsettled
    exact absurd hsettled Bool.false_ne_true
  | value hstate _ =>
    rw [hstate] at hsettled
    exact absurd hsettled Bool.false_ne_true
  | descriptor descriptor h =>
    rw [h, addDescriptor, List.map_map]
    apply List.map_congr_left
    intro service _
    change (service.characteristics.map _).map Characteristic.value = _
    rw [List.map_map]
    apply List.map_congr_left
    intro chara _
    dsimp only [Function.comp]
    split
    · rfl
    · rfl
  | descriptorValue h =>
    refine mapM_map_eq ?_ h
    intro service changed hchanged
    obtain ⟨charas, hcharas, hret⟩ := bind_eq_ok.mp hchanged
    cases hret
    refine mapM_map_eq ?_ hcharas
    intro chara changed hchara
    obtain ⟨descriptors, -, hret⟩ := bind_eq_ok.mp hchara
    cases hret
    rfl

end Frames

/-! ## What the runs come to -/

section Runs
variable {server : Server}

theorem Leads.run {conn n : Nat} {s t : System} (h : Leads server conn s n t)
    {actions : List Action} (hforeign : ∀ a ∈ actions, a.foreign) :
    (actions.countP Action.isDeliver < n ∧ s.run server conn actions =
        (System.deliver server conn)^[actions.countP Action.isDeliver] s) ∨
      ∃ as bs, actions = as ++ bs ∧ s.run server conn as = t := by
  induction actions using List.reverseRecOn with
  | nil =>
    by_cases hn : 0 < n
    · exact Or.inl ⟨hn, rfl⟩
    · have hzero : n = 0 := by omega
      subst hzero
      exact Or.inr ⟨[], [], rfl, h.ends⟩
  | append_singleton actions a ih =>
    rcases ih fun b hb => hforeign b (List.mem_append_left _ hb) with
      ⟨hlt, hrun⟩ | ⟨as, bs, hsplit, hrun⟩
    · have hsnoc : s.run server conn (actions ++ [a]) =
          (s.run server conn actions).next server conn a := by
        rw [System.run, List.foldl_append]
        rfl
      rw [hsnoc, List.countP_append, List.countP_singleton]
      cases a with
      | deliver =>
        have hnext : (s.run server conn actions).next server conn .deliver =
            (System.deliver server conn)^[actions.countP Action.isDeliver + 1] s := by
          rw [Function.iterate_succ_apply', ← hrun]
          rfl
        by_cases hlast : actions.countP Action.isDeliver + 1 < n
        · exact Or.inl ⟨hlast, hnext⟩
        · have hn : actions.countP Action.isDeliver + 1 = n := by omega
          refine Or.inr ⟨actions ++ [.deliver], [], (List.append_nil _).symm, ?_⟩
          rw [hsnoc, hnext, hn, h.ends]
      | other packet =>
        have hbusy := h.busy _ hlt
        rw [← hrun] at hbusy
        rw [next_other hbusy (hforeign (.other packet) (List.mem_append_right _ List.mem_cons_self))]
        exact Or.inl ⟨hlt, hrun⟩
    · exact Or.inr ⟨as, bs ++ [a], by rw [hsplit, List.append_assoc], hrun⟩

end Runs

end PicoRuby.Ble
