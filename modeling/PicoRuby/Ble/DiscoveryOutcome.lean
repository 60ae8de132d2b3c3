import PicoRuby.Ble.Discovery

/-!
# What a discovery comes to

The services, characteristics and descriptors that the central has in the end.
-/

namespace PicoRuby.Ble

open Shared

set_option autoImplicit false

section Runs
variable {server : Server}

end Runs

/-! ## The characteristics -/

section Characteristics
variable {server : Server} {conn : Nat}

/-- The handles of the services are below 256. -/
def Server.Narrow (server : Server) : Prop := ∀ s ∈ server.services, s.endHandle < 256

/-- What a result of a query for characteristics does. -/
def Central.addCharacteristic (c : Central) (x : ServerCharacteristic) : Central :=
  { c with
    services := Ble.addCharacteristic x.recorded c.services
    valueHandles := c.valueHandles ++ [x.recorded.valueHandle]
    descriptorHandleRanges :=
      if x.recorded.valueHandle < x.recorded.endHandle then
        c.descriptorHandleRanges ++ [(x.recorded.valueHandle, x.recorded.endHandle)]
      else c.descriptorHandleRanges }

/-- What is recorded of a characteristic after the value of `c` has come. -/
def valued (c x : ServerCharacteristic) : Characteristic :=
  if x.recorded.valueHandle = c.valueHandle then
    { x.recorded with value := some (c.value.take (c.value.length % 256)) }
  else x.recorded

/-- What a result of a query for descriptors does. -/
def Central.addDescriptor (c : Central) (d : ServerDescriptor) : Central :=
  { c with
    services := Ble.addDescriptor d.recorded c.services
    descriptorHandles := c.descriptorHandles ++ [d.recorded.handle] }

end Characteristics

/-! ## Which servers are discovered -/

section Outcome
variable {server : Server}

end Outcome

end PicoRuby.Ble
