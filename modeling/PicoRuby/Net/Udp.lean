import PicoRuby.Net.Tcp

/-!
# UDPClient

The client of udp.c as steps, from `Net_get_ip` on. Datagrams come in between, while the callback is registered; no
step of the main program ends inside a section of lwIP. `astray`, `received` and `heard` only watch.
-/

namespace PicoRuby.Net.Udp

open Shared

set_option autoImplicit false

/-- The states of a connection, `NET_UDP_STATE_*`. -/
inductive UdpState where
  | none
  | waiting
  | received
  | finished
  | error
deriving DecidableEq, Repr

def UdpState.value : UdpState → Nat
  | .none => 0
  | .waiting => 2
  | .received => 3
  | .finished => 4
  | .error => 99

/-! ## dns_gethostbyname -/

/-- The address at once, an answer while `Net_get_ip` sleeps, or an error code. -/
inductive Dns where
  | found (ip : UInt32)
  | pending (sleeps : Nat) (answer : Option UInt32)
  | error
deriving DecidableEq, Repr

def loopback : UInt32 := 0x7F000001

/-- `ip4_addr_isloopback`. -/
def isLoopback (ip : UInt32) : Bool := ip >>> 24 = 127

/-- `dns_found`. -/
def dnsFound (answer : Option UInt32) : UInt32 := answer.getD loopback

/-- The address that `Net_get_ip` waits for. -/
def Dns.address : Dns → UInt32
  | found ip => ip
  | pending _ answer => dnsFound answer
  | error => 0

/-! ## The state -/

/-- The fields of `udp_connection_state` that change. -/
structure Connection where
  state : UdpState
  recvData : Nat
  recvDataLen : Nat

/-- Where the main program is: before which access to what it shares. -/
inductive Point where
  | resolve
  | lookup
  | connection
  | fields
  | sendto
  | sent (ok : Bool)
  | poll
  | finish
  | pollReturn
  | wait
  | exit
  | takeData
  | takeLen
  | result
  | close
  | done
deriving DecidableEq, Repr

structure World where
  point : Point
  dns : Dns
  ip : UInt32
  cs : Connection
  res : Response
  heap : Heap Bytes
  maxWait : Int
  ret : Bool
  astray : Bool
  received : List Bytes
  heard : Bool

/-- The world in which `UDPClient_send` is called. The fields of the connection are read only once they are set. -/
def World.call (dns : Dns) (initial : Bytes) : World :=
  { point := .resolve
    dns
    ip := 0
    cs := ⟨.none, 0, initial.length⟩
    res := ⟨0, initial.length⟩
    heap := .single initial
    maxWait := 50
    ret := false
    astray := false
    received := []
    heard := false }

namespace World

def goto (w : World) (point : Point) : World := { w with point }

def setState (w : World) (state : UdpState) : World := { w with cs := { w.cs with state } }

/-! ## The callback -/

/-- `UDPClient_recv_cb`. -/
def recvCb (w : World) (p : Pbuf) : World :=
  let tmpbuf := p.copyPartial p.totLen
  let contents := ((w.heap.read w.cs.recvData).getD []).take w.cs.recvDataLen ++ tmpbuf
  let (block, heap) := w.heap.realloc w.cs.recvData contents
  { w with heap, cs := ⟨.received, block, w.cs.recvDataLen + p.totLen⟩, received := w.received ++ [p.bytes] }

/-- A datagram. Before the fields are set, nothing is known of the callback. -/
def datagram (w : World) (p : Pbuf) : World :=
  if w.point = .fields then { w with astray := true } else w.recvCb p

/-! ## The main program -/

/-- `Net_get_ip` sleeps. -/
def sleep (w : World) : World :=
  match w.dns with
  | .pending 0 answer => { w with dns := .error, ip := dnsFound answer }
  | .pending (sleeps + 1) answer => { w with dns := .pending sleeps answer }
  | _ => w

/-- `UDPClient_poll_impl` looks at the state. -/
def pollState (w : World) : World :=
  let w := { w with heard := !w.received.isEmpty }
  match w.cs.state with
  | .received => w.goto .finish
  | .error => w.goto .exit
  | _ => w.goto .pollReturn

/-- One step of the main program. `ok` is whether `udp_new`, or `pbuf_alloc` and `udp_sendto`, succeed. -/
def main (w : World) (ok : Bool) : World :=
  match w.point with
  | .resolve =>
    match w.dns with
    | .found ip => { w with ip }.goto .lookup
    | _ => w.goto .lookup
  | .lookup => if w.ip = 0 then w.sleep else w.goto .connection
  | .connection => if isLoopback w.ip = false ∧ ok = true then w.goto .fields else w.goto .done
  | .fields => { w with cs := ⟨.none, w.res.recvData, w.res.recvDataLen⟩ }.goto .sendto
  | .sendto => w.goto (.sent ok)
  | .sent ok => (w.setState (if ok then .waiting else .error)).goto .poll
  | .poll => w.pollState
  | .finish => (w.setState .finished).goto .exit
  | .pollReturn => if w.cs.state.value ≠ 0 then w.goto .wait else w.goto .exit
  | .wait =>
    let left := { w with maxWait := w.maxWait - 1 }
    if 0 < w.maxWait then left.goto .poll else left.goto .exit
  | .exit => if w.maxWait ≤ 0 then w.goto .result else w.goto .takeData
  | .takeData => { w with res := { w.res with recvData := w.cs.recvData } }.goto .takeLen
  | .takeLen => { w with res := { w.res with recvDataLen := w.cs.recvDataLen } }.goto .result
  | .result => { w with ret := decide (w.cs.state = UdpState.finished) }.goto .close
  | .close => w.goto .done
  | .done => w

end World

/-! ## Steps -/

/-- Where the callback is registered: from `udp_recv` to `udp_remove`. -/
def Point.registered (p : Point) : Prop := p ≠ .resolve ∧ p ≠ .lookup ∧ p ≠ .connection ∧ p ≠ .done

instance (p : Point) : Decidable p.registered := inferInstanceAs (Decidable (_ ∧ _))

inductive Action where
  | main (ok : Bool)
  | datagram (p : Pbuf)

inductive Step (w : World) : Action → World → Prop where
  | main (ok : Bool) (h : w.point ≠ .done) : Step w (.main ok) (w.main ok)
  | datagram (p : Pbuf) (h : w.point.registered) : Step w (.datagram p) (w.datagram p)

/-- The step of an action, where there is one. -/
def World.next (w : World) : Action → Option World
  | .main ok => if w.point = .done then none else some (w.main ok)
  | .datagram p => if w.point.registered then some (w.datagram p) else none

theorem step_of_next {w w' : World} {a : Action} (h : w.next a = some w') : Step w a w' := by
  unfold World.next at h
  cases a with
  | main ok =>
    dsimp only at h
    by_cases hdone : w.point = .done
    · rw [if_pos hdone] at h
      cases h
    · rw [if_neg hdone] at h
      cases h
      exact .main ok hdone
  | datagram p =>
    dsimp only at h
    by_cases hregistered : w.point.registered
    · rw [if_pos hregistered] at h
      cases h
      exact .datagram p hregistered
    · rw [if_neg hregistered] at h
      cases h

def Action.isMain : Action → Bool
  | main _ => true
  | datagram _ => false

end PicoRuby.Net.Udp
