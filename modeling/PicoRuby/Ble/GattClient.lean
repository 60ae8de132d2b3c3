import PicoRuby.Ble.Central
import Mathlib.Logic.Function.Iterate

/-!
# Discovering a server

A central connected to a server, with a GATT client between them that answers one query at a time.
What the client is told of are the services, characteristics and descriptors of the server; the
answer to a query ends with one `GATT_EVENT_QUERY_COMPLETE`.
-/

namespace PicoRuby.Ble

set_option autoImplicit false

/-! ## Servers -/

structure ServerDescriptor where
  handle : Nat
  uuid128 : Bytes
  value : Bytes

structure ServerCharacteristic where
  startHandle : Nat
  valueHandle : Nat
  endHandle : Nat
  properties : UInt8
  uuid128 : Bytes
  value : Bytes
  descriptors : List ServerDescriptor

structure ServerService where
  startHandle : Nat
  endHandle : Nat
  uuid128 : Bytes
  characteristics : List ServerCharacteristic

/-- The UUID has its 16 bytes, and the value fits a packet. -/
def FitsPacket (uuid128 value : Bytes) : Prop := uuid128.length = 16 ∧ value.length < 65536

/-- The descriptors follow the value, by their handles. -/
structure ServerCharacteristic.WellFormed (c : ServerCharacteristic) : Prop where
  fits : FitsPacket c.uuid128 c.value
  declared : c.startHandle < c.valueHandle
  ends : c.valueHandle ≤ c.endHandle
  within : ∀ d ∈ c.descriptors, FitsPacket d.uuid128 d.value ∧
    c.valueHandle < d.handle ∧ d.handle ≤ c.endHandle
  sorted : c.descriptors.Pairwise fun d e => d.handle < e.handle

/-- The characteristics follow the declaration of the service. -/
structure ServerService.WellFormed (s : ServerService) : Prop where
  fits : FitsPacket s.uuid128 []
  ends : s.startHandle ≤ s.endHandle
  within : ∀ c ∈ s.characteristics, c.WellFormed ∧
    s.startHandle < c.startHandle ∧ c.endHandle ≤ s.endHandle
  sorted : s.characteristics.Pairwise fun c d => c.endHandle < d.startHandle

/-- The services come one after the other, in the order of their handles. -/
structure Server where
  services : List ServerService
  wellFormed : ∀ s ∈ services, s.WellFormed ∧ s.endHandle < 65536
  sorted : services.Pairwise fun s t => s.endHandle < t.startHandle

def Server.characteristics (server : Server) : List ServerCharacteristic :=
  server.services.flatMap ServerService.characteristics

def Server.descriptors (server : Server) : List ServerDescriptor :=
  server.characteristics.flatMap ServerCharacteristic.descriptors

/-! ## The events of the client -/

/-- A number of 16 bits in front of a packet's rest. -/
def int16Before (n : Nat) (rest : Bytes) : Bytes := UInt8.ofNat n :: UInt8.ofNat (n / 256) :: rest

def servicePacket (conn : Nat) (s : ServerService) : Bytes :=
  0xA1 :: 22 :: int16Before conn (int16Before s.startHandle (int16Before s.endHandle
    s.uuid128.reverse))

def characteristicPacket (conn : Nat) (c : ServerCharacteristic) : Bytes :=
  0xA2 :: 26 :: int16Before conn (int16Before c.startHandle (int16Before c.valueHandle
    (int16Before c.endHandle (int16Before c.properties.toNat c.uuid128.reverse))))

def descriptorPacket (conn : Nat) (d : ServerDescriptor) : Bytes :=
  0xA4 :: 20 :: int16Before conn (int16Before d.handle d.uuid128.reverse)

def valuePacket (conn handle : Nat) (value : Bytes) : Bytes :=
  0xA5 :: UInt8.ofNat (6 + value.length) :: int16Before conn (int16Before handle
    (int16Before value.length value))

def queryCompletePacket (conn : Nat) : Bytes := 0xA0 :: 3 :: int16Before conn [0]

/-- The event of a connection, up to what is read of it. -/
def connectionPacket (conn : Nat) : Bytes := 0x3E :: 19 :: 0x01 :: 0 :: int16Before conn []

/-- The results of a query. -/
def Server.results (server : Server) (conn : Nat) : Request → List Bytes
  | .discoverPrimaryServices => server.services.map (servicePacket conn)
  | .discoverCharacteristicsForService startHandle endHandle =>
    (server.characteristics.filter fun c =>
      startHandle ≤ c.startHandle ∧ c.startHandle ≤ endHandle).map (characteristicPacket conn)
  | .readValueOfCharacteristicUsingValueHandle handle =>
    ((server.characteristics.filter fun c => c.valueHandle = handle).map fun c =>
      valuePacket conn handle c.value) ++
    ((server.descriptors.filter fun d => d.handle = handle).map fun d =>
      valuePacket conn handle d.value)
  | .discoverCharacteristicDescriptors valueHandle endHandle =>
    (server.descriptors.filter fun d =>
      valueHandle < d.handle ∧ d.handle ≤ endHandle).map (descriptorPacket conn)

/-- The events that answer a query. -/
def Server.answer (server : Server) (conn : Nat) (request : Request) : List Bytes :=
  server.results conn request ++ [queryCompletePacket conn]

/-! ## Runs -/

/-- `pending` are the events that the client has still to send for the query it has taken. -/
structure System where
  central : Central
  pending : List Bytes

/-- `deliver` is the next event of the client, and `other` an event that is no answer of it. -/
inductive Action where
  | deliver
  | other (packet : Bytes)

def Action.isDeliver : Action → Bool
  | .deliver => true
  | .other _ => false

/-- The event is none that the client answers with. -/
def Action.foreign : Action → Prop
  | .deliver => True
  | .other packet => ∀ eventType ∈ ordAt packet 0, eventType < GATT_EVENT_QUERY_COMPLETE ∨
      GATT_EVENT_LONG_CHARACTERISTIC_VALUE_QUERY_RESULT < eventType

section Run
variable (server : Server) (conn : Nat)

/-- A callback, while the client has still to send `rest` for its last query. It takes a query on
the connection if there is nothing left of the last one. -/
def System.callback (s : System) (packet : Bytes) (rest : List Bytes) : System :=
  let accepts (query : Query) : Bool := rest.isEmpty && query.connHandle == conn
  match s.central.packetCallback accepts packet with
  | .error _ => { s with pending := rest }
  | .ok (central, none) => ⟨central, rest⟩
  | .ok (central, some query) =>
    ⟨central, if accepts query then server.answer conn query.request else rest⟩

def System.deliver (s : System) : System :=
  match s.pending with
  | [] => s
  | packet :: rest => s.callback server conn packet rest

def System.next (s : System) : Action → System
  | .deliver => s.deliver server conn
  | .other packet => s.callback server conn packet s.pending

def System.run (s : System) (actions : List Action) : System :=
  actions.foldl (System.next server conn) s

/-- The central has asked for a connection, and is told of it. -/
def System.connected (services : List Service) : System :=
  (⟨{ initCentral with state := .tcW4Connect, services }, []⟩ : System).callback server conn
    (connectionPacket conn) []

end Run

/-! ## What is promised -/

def ServerDescriptor.found (d : ServerDescriptor) : Descriptor :=
  ⟨d.handle, d.uuid128, uuid128ToUuid32 d.uuid128, some d.value⟩

def ServerCharacteristic.found (c : ServerCharacteristic) : Characteristic :=
  ⟨c.startHandle, c.valueHandle, c.endHandle, c.properties.toNat, c.uuid128,
    uuid128ToUuid32 c.uuid128, some c.value, c.descriptors.map ServerDescriptor.found⟩

def ServerService.found (s : ServerService) : Service :=
  ⟨s.startHandle, s.endHandle, s.uuid128, uuid128ToUuid32 s.uuid128,
    s.characteristics.map ServerCharacteristic.found⟩

end PicoRuby.Ble
