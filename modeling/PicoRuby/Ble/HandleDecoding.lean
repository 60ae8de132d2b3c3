import PicoRuby.Ble.Central

/-!
# The numbers in a query result

`packet_callback` reads every 16 bit number of a query result from one byte.
-/

namespace PicoRuby.Ble

open Shared

set_option autoImplicit false

/-- The 16 bit number at an offset of a packet. -/
def field16 (packet : Bytes) (i : Nat) : Nat := ofLittleEndian ((packet.drop i).take 2)

/-- The query results that `packet_callback` reads. -/
inductive ResultKind where
  | service
  | characteristic
  | descriptor
  | value
deriving DecidableEq, Repr

namespace ResultKind

def eventType : ResultKind → Nat
  | service => GATT_EVENT_SERVICE_QUERY_RESULT
  | characteristic => GATT_EVENT_CHARACTERISTIC_QUERY_RESULT
  | descriptor => GATT_EVENT_ALL_CHARACTERISTIC_DESCRIPTORS_QUERY_RESULT
  | value => GATT_EVENT_CHARACTERISTIC_VALUE_QUERY_RESULT

/-- The offsets of the handles, the properties and the value length. -/
def offsets : ResultKind → List Nat
  | service => [4, 6]
  | characteristic => [4, 6, 8, 10]
  | descriptor => [4]
  | value => [4, 6]

/-- The bytes of a packet up to the end of its UUID or value. -/
def size (packet : Bytes) : ResultKind → Nat
  | service => 24
  | characteristic => 28
  | descriptor => 22
  | value => 8 + field16 packet 6

end ResultKind

/-- A query result with all of its bytes. -/
structure ResultPacket where
  kind : ResultKind
  bytes : Bytes
  event : ordAt bytes 0 = some kind.eventType
  header : 8 ≤ bytes.length
  complete : kind.size bytes ≤ bytes.length

/-! ## What is promised -/

/-- What is recorded or compared are the 16 bit numbers of the packet. -/
def ResultPacket.FieldsRead (p : ResultPacket) : Prop :=
  match p.kind with
  | .service => ∃ service, serviceOf p.bytes = .ok service ∧
      service.startHandle = field16 p.bytes 4 ∧ service.endHandle = field16 p.bytes 6
  | .characteristic => ∃ chara, characteristicOf p.bytes = .ok chara ∧
      chara.startHandle = field16 p.bytes 4 ∧ chara.valueHandle = field16 p.bytes 6 ∧
      chara.endHandle = field16 p.bytes 8 ∧ chara.properties = field16 p.bytes 10
  | .descriptor => ∃ descriptor, descriptorOf p.bytes = .ok descriptor ∧
      descriptor.handle = field16 p.bytes 4
  | .value => valueHandleOf p.bytes = .ok (field16 p.bytes 4) ∧
      valueLengthOf p.bytes = .ok (field16 p.bytes 6)

/-- The characteristic was recorded from the packet; its value and descriptors may have come since. -/
def RecordedFrom (chara : Characteristic) (packet : Bytes) : Prop :=
  ∃ recorded, characteristicOf packet = .ok recorded ∧
    chara = { recorded with value := chara.value, descriptors := chara.descriptors }

/-- The characteristics of the services were recorded from the packets of each. -/
def RecordedServices (services : List Service) (packets : List (List Bytes)) : Prop :=
  List.Forall₂ (fun service packets => List.Forall₂ RecordedFrom service.characteristics packets)
    services packets

/-- The characteristics with the value of a packet at the ones with its handle. -/
def withCharacteristicValue (packet : Bytes) (charas : List Characteristic) (qs : List Bytes) :
    List Characteristic :=
  List.zipWith (fun chara q =>
    if field16 q 6 = field16 packet 4 then
      { chara with value := slice packet 8 (field16 packet 6) }
    else chara) charas qs

def withValue (packet : Bytes) (services : List Service) (packets : List (List Bytes)) :
    List Service :=
  List.zipWith (fun service qs => { service with
    characteristics := withCharacteristicValue packet service.characteristics qs }) services packets

/-- The numbers of every packet are read. So, where the characteristics of a service have different
handles, a value goes to the characteristics that it was read from, and to no others. -/
structure Decodes (ps : List ResultPacket) : Prop where
  fields : ∀ p ∈ ps, p.FieldsRead
  attached : ∀ p ∈ ps, p.kind = .value → ∀ services packets, RecordedServices services packets →
    (∀ qs ∈ packets, (∀ q ∈ qs, ∃ p ∈ ps, p.kind = .characteristic ∧ p.bytes = q) ∧
      (qs.map fun q => field16 q 6).Nodup) →
    setCharacteristicValues p.bytes services = .ok (withValue p.bytes services packets)

/-- The numbers of the packet are below 256. -/
def ResultPacket.Narrow (p : ResultPacket) : Prop := ∀ i ∈ p.kind.offsets, field16 p.bytes i < 256

/-! ## What is read -/

section Read
variable {packet : Bytes} {i : Nat}

theorem field16_eq (h : i + 1 < packet.length) :
    field16 packet i = packet[i].toNat + 256 * packet[i + 1].toNat := by
  unfold field16
  rw [List.drop_eq_getElem_cons (by omega), List.drop_eq_getElem_cons h]
  rfl

theorem int16At_eq (h : i + 1 < packet.length) : int16At packet i = .ok (field16 packet i % 256) := by
  have hb : packet[i].toNat < 256 := packet[i].toNat_lt
  unfold int16At
  rw [littleEndianToInt16_charAt (List.getElem?_eq_getElem (by omega)), field16_eq h,
    Nat.add_mul_mod_self_left, Nat.mod_eq_of_lt hb]

theorem mod_eq_iff (n : Nat) : n % 256 = n ↔ n < 256 := by
  constructor
  · intro h
    rw [← h]
    exact Nat.mod_lt _ (by decide)
  · exact Nat.mod_eq_of_lt

theorem reverse128_slice (h : i + 16 ≤ packet.length) :
    reverse128 (slice packet i 16) = .ok ((packet.drop i).take 16).reverse := by
  have hlength : ((packet.drop i).take 16).length = 16 := by
    rw [List.length_take, List.length_drop]
    omega
  unfold slice
  rw [if_neg (by omega)]
  unfold reverse128
  dsimp only
  rw [if_pos hlength]

/-- Of each number the low byte is read. -/
theorem serviceOf_eq (h : 24 ≤ packet.length) :
    ∃ uuid128, serviceOf packet = .ok ⟨field16 packet 4 % 256, field16 packet 6 % 256, uuid128,
      uuid128ToUuid32 uuid128, []⟩ := by
  unfold serviceOf
  rw [int16At_eq (by omega), int16At_eq (by omega), reverse128_slice (by omega)]
  exact ⟨_, rfl⟩

theorem characteristicOf_eq (h : 28 ≤ packet.length) :
    ∃ uuid128, characteristicOf packet = .ok ⟨field16 packet 4 % 256, field16 packet 6 % 256,
      field16 packet 8 % 256, field16 packet 10 % 256, uuid128, uuid128ToUuid32 uuid128, none, []⟩ := by
  unfold characteristicOf
  rw [int16At_eq (by omega), int16At_eq (by omega), int16At_eq (by omega),
    reverse128_slice (by omega), int16At_eq (by omega)]
  exact ⟨_, rfl⟩

theorem descriptorOf_eq (h : 22 ≤ packet.length) :
    ∃ uuid128, descriptorOf packet =
      .ok ⟨field16 packet 4 % 256, uuid128, uuid128ToUuid32 uuid128, none⟩ := by
  unfold descriptorOf
  rw [int16At_eq (by omega), reverse128_slice (by omega)]
  exact ⟨_, rfl⟩

theorem ResultPacket.fieldsRead_iff (p : ResultPacket) : p.FieldsRead ↔ p.Narrow := by
  obtain ⟨kind, bytes, event, header, complete⟩ := p
  unfold FieldsRead Narrow
  cases kind with
  | service =>
    obtain ⟨uuid128, heq⟩ := serviceOf_eq complete
    simp only [ResultKind.offsets, List.forall_mem_cons, List.not_mem_nil, IsEmpty.forall_iff,
      implies_true, heq, Except.ok.injEq, exists_eq_left', mod_eq_iff, and_true]
  | characteristic =>
    obtain ⟨uuid128, heq⟩ := characteristicOf_eq complete
    simp only [ResultKind.offsets, List.forall_mem_cons, List.not_mem_nil, IsEmpty.forall_iff,
      implies_true, heq, Except.ok.injEq, exists_eq_left', mod_eq_iff, and_true]
  | descriptor =>
    obtain ⟨uuid128, heq⟩ := descriptorOf_eq complete
    simp only [ResultKind.offsets, List.forall_mem_cons, List.not_mem_nil, IsEmpty.forall_iff,
      implies_true, heq, Except.ok.injEq, exists_eq_left', mod_eq_iff, and_true]
  | value =>
    simp only [ResultKind.offsets, List.forall_mem_cons, List.not_mem_nil, IsEmpty.forall_iff,
      implies_true, valueHandleOf, valueLengthOf, int16At_eq (show 4 + 1 < bytes.length by omega),
      int16At_eq (show 6 + 1 < bytes.length by omega), Except.ok.injEq, mod_eq_iff, and_true]

end Read

/-! ## Where a value goes -/

section Attach
variable {packet : Bytes} {charas : List Characteristic} {qs : List Bytes}

theorem RecordedFrom.valueHandle {chara : Characteristic} {q : Bytes} (h : RecordedFrom chara q)
    (hread : ∀ recorded, characteristicOf q = .ok recorded → recorded.valueHandle = field16 q 6) :
    chara.valueHandle = field16 q 6 := by
  obtain ⟨recorded, hof, hsame⟩ := h
  rw [hsame]
  exact hread recorded hof

theorem map_valueHandle (packet : Bytes) (h : List.Forall₂ RecordedFrom charas qs)
    (hread : ∀ q ∈ qs, ∀ chara, characteristicOf q = .ok chara → chara.valueHandle = field16 q 6) :
    charas.map Characteristic.valueHandle = qs.map (fun q => field16 q 6) ∧
      withCharacteristicValue packet charas qs = charas.map fun chara =>
        if chara.valueHandle = field16 packet 4 then
          { chara with value := slice packet 8 (field16 packet 6) }
        else chara := by
  induction h with
  | nil => exact ⟨rfl, rfl⟩
  | @cons chara q charas qs hrecorded hrest ih =>
    obtain ⟨hhandles, hvalues⟩ := ih fun r hr => hread r (List.mem_cons_of_mem _ hr)
    have hvalue := hrecorded.valueHandle (hread q List.mem_cons_self)
    unfold withCharacteristicValue at hvalues ⊢
    constructor
    · rw [List.map_cons, List.map_cons, hhandles, hvalue]
    · rw [List.zipWith_cons_cons, List.map_cons, hvalues, hvalue]

theorem setCharacteristicValues_eq {services : List Service} {packets : List (List Bytes)}
    (hhandle : valueHandleOf packet = .ok (field16 packet 4))
    (hlength : valueLengthOf packet = .ok (field16 packet 6))
    (h : RecordedServices services packets)
    (hread : ∀ qs ∈ packets, (∀ q ∈ qs, ∀ chara, characteristicOf q = .ok chara →
      chara.valueHandle = field16 q 6) ∧ (qs.map fun q => field16 q 6).Nodup) :
    setCharacteristicValues packet services = .ok (withValue packet services packets) := by
  have hvalue : valueOf packet = .ok (slice packet 8 (field16 packet 6)) := by
    unfold valueOf
    rw [hlength]
    rfl
  unfold RecordedServices at h
  unfold setCharacteristicValues withValue
  induction h with
  | nil => rfl
  | @cons service qs services packets hservice hrest ih =>
    obtain ⟨hqs, hnodup⟩ := hread qs List.mem_cons_self
    obtain ⟨hhandles, hvalues⟩ := map_valueHandle packet hservice hqs
    rw [← hhandles] at hnodup
    rw [List.mapM_cons, setCharacteristicValue_eq_map hhandle hvalue hnodup, ← hvalues,
      ih fun rs hrs => hread rs (List.mem_cons_of_mem _ hrs)]
    rfl

end Attach

/-- The numbers are read, and the values attached, exactly where the numbers are all below 256. -/
theorem decodes_iff (ps : List ResultPacket) : Decodes ps ↔ ∀ p ∈ ps, p.Narrow := by
  constructor
  · intro h p hp
    exact p.fieldsRead_iff.mp (h.fields p hp)
  · intro h
    have hfields : ∀ p ∈ ps, p.FieldsRead := fun p hp => p.fieldsRead_iff.mpr (h p hp)
    refine ⟨hfields, ?_⟩
    intro p hp hkind services packets hrecorded hpackets
    have hvalue := hfields p hp
    unfold ResultPacket.FieldsRead at hvalue
    rw [hkind] at hvalue
    refine setCharacteristicValues_eq hvalue.1 hvalue.2 hrecorded ?_
    intro qs hqs
    refine ⟨?_, (hpackets qs hqs).2⟩
    intro q hq chara hchara
    obtain ⟨r, hr, hrkind, rfl⟩ := (hpackets qs hqs).1 q hq
    have hrfields := hfields r hr
    unfold ResultPacket.FieldsRead at hrfields
    rw [hrkind] at hrfields
    obtain ⟨recorded, hof, -, hhandle, -⟩ := hrfields
    rw [hof, Except.ok.injEq] at hchara
    rw [← hchara]
    exact hhandle

/-- A characteristic with the value handle 0x0105. -/
def wideHandle : ResultPacket where
  kind := .characteristic
  bytes := [0xA2, 26, 0x40, 0, 0x04, 0x01, 0x05, 0x01, 0x05, 0x01, 2, 0] ++ List.replicate 16 0
  event := rfl
  header := by decide
  complete := by decide

theorem wide_handle_misread : ¬ Decodes [wideHandle] := by
  intro h
  have hnarrow := wideHandle.fieldsRead_iff.mp (h.fields wideHandle List.mem_cons_self)
  exact absurd (hnarrow 6 (by decide)) (by decide)

/-- The value read from 0x0105 goes to a characteristic of the same service with the handle 0x0005. -/
example : (setCharacteristicValues [0xA5, 7, 0x40, 0, 0x05, 0x01, 1, 0, 42]
    [⟨1, 300, [], none, [⟨4, 5, 5, 2, [], none, none, []⟩, ⟨4, 5, 5, 2, [], none, none, []⟩]⟩]) =
    .ok [⟨1, 300, [], none, [⟨4, 5, 5, 2, [], none, some [42], []⟩,
      ⟨4, 5, 5, 2, [], none, none, []⟩]⟩] := rfl

end PicoRuby.Ble
