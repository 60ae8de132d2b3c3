import PicoRuby.Shared.Runs
import PicoRuby.Shared.Linked

/-!
# TCPClient

The client of tcp.c as steps: the main program goes from one access of the connection to the next, and
callbacks of lwIP come in between, where the lock of lwIP is not held. `freed`, `touched`, `received` and
`reached` only watch.
-/

namespace PicoRuby.Net

open Shared

set_option autoImplicit false

abbrev Bytes := List UInt8

/-- The states of a connection, `NET_TCP_STATE_*`. -/
inductive TcpState where
  | none
  | connectionStarted
  | connected
  | waitingPacket
  | packetRecved
  | finished
  | error
  | timeout
deriving DecidableEq, Repr

def TcpState.value : TcpState → Nat
  | .none => 0
  | .connectionStarted => 1
  | .connected => 2
  | .waitingPacket => 3
  | .packetRecved => 4
  | .finished => 6
  | .error => 99
  | .timeout => 100

/-! ## Packets -/

/-- A pbuf with those that are chained to it. -/
inductive Pbuf where
  | last (payload : Bytes)
  | chained (payload : Bytes) (next : Pbuf)

namespace Pbuf

/-- All that is in the chain. -/
def bytes : Pbuf → Bytes
  | last payload => payload
  | chained payload next => payload ++ next.bytes

def totLen (p : Pbuf) : Nat := p.bytes.length

/-- `pbuf_copy_partial(p, .., len, 0)`. -/
def copyPartial (p : Pbuf) (len : Nat) : Bytes := p.bytes.take len

/-- `tmpbuf` when the loop in `TCPClient_recv_cb` goes on from a pbuf. -/
def copyFrom (tmpbuf : Bytes) : Pbuf → Bytes
  | last payload => tmpbuf ++ (last payload).copyPartial payload.length
  | chained payload next =>
    copyFrom (tmpbuf ++ (chained payload next).copyPartial payload.length) next

end Pbuf

/-! ## The state -/

/-- The fields of `tcp_connection_state` that change. -/
structure Connection where
  state : TcpState
  recvData : Nat
  recvDataLen : Nat

/-- `net_response_t`. -/
structure Response where
  recvData : Nat
  recvDataLen : Nat
deriving DecidableEq

/-- Where the main program is: before which access to the connection. -/
inductive Point where
  | start
  | connect
  | started
  | poll
  | connected
  | write
  | packet
  | pollReturn
  | wait
  | exit
  | takeData
  | takeLen
  | result
  | close
  | closing
  | done
deriving DecidableEq, Repr

structure World where
  point : Point
  cs : Connection
  res : Response
  heap : Heap Bytes
  depth : Nat
  maxWait : Int
  ret : Bool
  freed : Bool
  touched : Bool
  received : List Bytes
  reached : Bool

/-- The world in which `TCPClient_send` is called. -/
def World.call (initial : Bytes) : World :=
  { point := .start
    cs := ⟨.none, 0, initial.length⟩
    res := ⟨0, initial.length⟩
    heap := .single initial
    depth := 0
    maxWait := 200
    ret := false
    freed := false
    touched := false
    received := []
    reached := false }

namespace World

/-- The connection is read or written. -/
def use (w : World) : World := { w with touched := w.touched || w.freed }

def setState (w : World) (state : TcpState) : World :=
  { w.use with cs := { w.cs with state }, reached := w.reached || decide (state = .finished) }

def lwipBegin (w : World) : World := { w with depth := w.depth + 1 }

def lwipEnd (w : World) : World := { w with depth := w.depth - 1 }

def goto (w : World) (point : Point) : World := { w with point }

/-- `TCPClient_close` from its `lwip_begin` on. -/
def close (w : World) : World := { w.use.lwipBegin.lwipEnd with freed := true }

/-! ## The callbacks -/

inductive Callback where
  | connected (ok : Bool)
  | recv (pbuf : Option Pbuf) (ok : Bool)
  | sent
  | poll
  | err

/-- `TCPClient_recv_cb` for a pbuf. -/
def recvPbuf (w : World) (pbuf : Pbuf) : World :=
  let tmpbuf := pbuf.copyFrom []
  let contents := ((w.heap.read w.cs.recvData).getD []).take w.cs.recvDataLen ++ tmpbuf.take pbuf.totLen
  let (block, heap) := w.heap.realloc w.cs.recvData contents
  { w.use with
    heap
    cs := ⟨.packetRecved, block, w.cs.recvDataLen + pbuf.totLen⟩
    received := w.received ++ [pbuf.bytes] }

/-- What a callback does. -/
def callback (w : World) : Callback → World
  | .connected true => w.setState .connected
  | .connected false => w.close
  | .recv _ false => (w.setState .error).close
  | .recv (some pbuf) true => w.recvPbuf pbuf
  | .recv none true => w.setState .finished
  | .sent => w
  | .poll => w.setState .timeout
  | .err => w.setState .error

/-! ## The main program -/

/-- `TCPClient_poll_impl` looks at the state. -/
def pollState (w : World) : World :=
  match w.cs.state with
  | .connected => w.use.goto .connected
  | .packetRecved => w.use.goto .packet
  | .finished => w.use.goto .exit
  | .error => w.use.goto .exit
  | .timeout => w.use.goto .exit
  | _ => w.use.goto .pollReturn

/-- One step of the main program. `ok` is how the call to lwIP in it ends, and at the start whether
there is a connection at all. -/
def main (w : World) (ok : Bool) : World :=
  match w.point with
  | .start => if ok then w.goto .connect else w.goto .done
  | .connect =>
    if ok then w.use.lwipBegin.lwipEnd.goto .started
    else (w.use.lwipBegin.setState .error).lwipEnd.goto .poll
  | .started => (w.setState .connectionStarted).goto .poll
  | .poll => w.pollState
  | .connected => (w.setState .waitingPacket).goto .write
  | .write =>
    if ok then w.use.lwipBegin.lwipEnd.goto .pollReturn
    else (w.use.lwipBegin.setState .error).goto .wait
  | .packet => (w.setState .waitingPacket).goto .pollReturn
  | .pollReturn => if w.cs.state.value ≠ 0 then w.use.goto .wait else w.use.goto .exit
  | .wait =>
    let left := { w with maxWait := w.maxWait - 1 }
    if 0 < w.maxWait then left.goto .poll else left.goto .exit
  | .exit => if w.maxWait ≤ 0 then w.goto .result else w.goto .takeData
  | .takeData => { w.use with res := { w.res with recvData := w.cs.recvData } }.goto .takeLen
  | .takeLen => { w.use with res := { w.res with recvDataLen := w.cs.recvDataLen } }.goto .result
  | .result => { w.use with ret := decide (w.cs.state = TcpState.finished) }.goto .close
  | .close => w.use.goto .closing
  | .closing => w.close.goto .done
  | .done => w

end World

/-! ## Steps -/

inductive Action where
  | main (ok : Bool)
  | callback (c : World.Callback)

/-- The main program steps until it is done. A callback comes where there is a connection that is not
closed and the lock is free. -/
inductive Step (w : World) : Action → World → Prop where
  | main (ok : Bool) (h : w.point ≠ .done) : Step w (.main ok) (w.main ok)
  | callback (c : World.Callback) (hstart : w.point ≠ .start) (hclosed : w.freed = false)
      (hlock : w.depth = 0) (hdone : w.point ≠ .done) : Step w (.callback c) (w.callback c)

/-- The step of an action, where there is one. -/
def World.next (w : World) : Action → Option World
  | .main ok => if w.point = .done then none else some (w.main ok)
  | .callback c =>
    if w.point = .start ∨ w.freed = true ∨ w.depth ≠ 0 ∨ w.point = .done then none
    else some (w.callback c)

theorem step_of_next {w w' : World} {a : Action} (h : w.next a = some w') : Step w a w' := by
  unfold World.next at h
  cases a with
  | main ok =>
    dsimp only at h
    by_cases hdone : w.point = .done
    · rw [if_pos hdone] at h
      cases h
    · rw [if_neg hdone] at h
      cases h
      exact .main ok hdone
  | callback c =>
    dsimp only at h
    by_cases hoff : w.point = .start ∨ w.freed = true ∨ w.depth ≠ 0 ∨ w.point = .done
    · rw [if_pos hoff] at h
      cases h
    · rw [if_neg hoff] at h
      cases h
      rw [not_or, not_or, not_or, not_not] at hoff
      exact .callback c hoff.1 (Bool.eq_false_iff.mpr hoff.2.1) hoff.2.2.1 hoff.2.2.2

end PicoRuby.Net
