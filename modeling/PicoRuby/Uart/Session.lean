import PicoRuby.Uart.RingBuffer

/-!
# Sessions with the receive buffer

A session is any sequence of pushes from the interrupt handler and of calls from the program. It
keeps the bytes accepted and the bytes returned since the last clear.
-/

namespace PicoRuby.Uart

open Shared

set_option autoImplicit false

structure Session where
  ring : RingBuffer
  accepted : Bytes
  returned : Bytes

/-- The bytes an operation has accepted. -/
def accepts : Op → Reply → Bytes
  | .push ch, .accepted true => [ch]
  | _, _ => []

/-- The bytes an operation has returned. -/
def Reply.returns : Reply → Bytes
  | .bytes s => s.getD []
  | _ => []

/-- The session behind an operation. -/
def Session.next (w : Nat) (s : Session) : Op → Session
  | .clearRxBuffer => ⟨(perform w s.ring .clearRxBuffer).2, [], []⟩
  | op =>
    let (reply, ring) := perform w s.ring op
    ⟨ring, s.accepted ++ accepts op reply, s.returned ++ reply.returns⟩

def Session.run (w : Nat) (rx : RingBuffer) (ops : List Op) : Session :=
  ops.foldl (Session.next w) ⟨rx, [], []⟩

/-! ## What a queue promises -/

/-- The bytes returned are the first ones accepted, and the others are available. -/
structure Lossless (s : Session) : Prop where
  inOrder : s.returned <+: s.accepted
  counted : s.accepted.length = s.returned.length + bufferDataSize s.ring

/-- A push that returns false, a read that returns nil. -/
def Reply.Refused : Reply → Prop
  | .accepted ok => ok = false
  | .bytes s => s = none
  | _ => False

/-- A push while more than one cell is left. -/
def HasRoom (s : Session) (op : Op) : Prop :=
  ∀ ch, op = .push ch → bufferDataSize s.ring + 1 < s.ring.size

/-- Every push of the session comes while more than one cell is left. -/
def NeverFills (w : Nat) (rx : RingBuffer) (ops : List Op) : Prop :=
  ∀ as op bs, ops = as ++ op :: bs → HasRoom (Session.run w rx as) op

/-! ## Steps -/

/-- The bytes accepted and not returned are the ones in the buffer. -/
structure Faithful (s : Session) : Prop where
  sized : Sized s.ring
  queue : s.accepted = s.returned ++ stored s.ring

section Steps
variable {w : Nat} {s : Session} {op : Op}

theorem Faithful.takes {out : Option Bytes × RingBuffer} (h : Faithful s) (hout : Takes s.ring out) :
    Faithful ⟨out.2, s.accepted ++ [], s.returned ++ out.1.getD []⟩ := by
  rw [List.append_nil]
  rcases hout with rfl | ⟨n, hn, rfl⟩
  · exact ⟨h.sized, by simpa using h.queue⟩
  · refine ⟨h.sized.popped n, ?_⟩
    change s.accepted = (s.returned ++ (stored s.ring).take n) ++ stored (popped s.ring n)
    rw [h.sized.stored_popped hn, List.append_assoc, List.take_append_drop]
    exact h.queue

theorem Faithful.next_push {ch : UInt8} (h : Faithful s) :
    s.next w (.push ch) = ⟨pushed s.ring ch, s.accepted ++ [ch], s.returned ++ []⟩ := by
  simp only [Session.next, perform, h.sized.pushBuffer_eq]
  rfl

theorem Faithful.push {ch : UInt8} (h : Faithful s) (hroom : bufferDataSize s.ring + 1 < s.ring.size) :
    Faithful (s.next w (.push ch)) := by
  rw [h.next_push]
  refine ⟨h.sized.pushed ch, ?_⟩
  rw [h.sized.stored_pushed ch hroom, List.append_nil, ← List.append_assoc, ← h.queue]

theorem Faithful.next (h : Faithful s) (hroom : HasRoom s op) : Faithful (s.next w op) := by
  cases op with
  | push ch => exact h.push (hroom ch rfl)
  | read len => exact h.takes (h.sized.read_takes w len)
  | readPartial maxlen => exact h.takes (h.sized.readPartial_takes w maxlen)
  | gets => exact h.takes h.sized.gets_takes
  | bytesAvailable =>
    refine ⟨h.sized, ?_⟩
    change s.accepted ++ [] = s.returned ++ [] ++ stored s.ring
    rw [List.append_nil, List.append_nil]
    exact h.queue
  | clearRxBuffer => exact ⟨h.sized.cleared, h.sized.stored_cleared.symm⟩

end Steps

/-! ## Runs -/

section Runs
variable {w : Nat} {rx : RingBuffer} {ops : List Op}

theorem Faithful.start {data : Nat → UInt8} {bufferSize : Option Int}
    (hopen : openRxBuffer data bufferSize = .ok rx) : Faithful ⟨rx, [], []⟩ := by
  have hsized := openRxBuffer_sized hopen
  exact ⟨hsized, (stored_eq_nil_iff.mpr (hsized.empty_iff.mpr (openRxBuffer_empty hopen))).symm⟩

theorem NeverFills.initial {as bs : List Op} (h : NeverFills w rx (as ++ bs)) : NeverFills w rx as := by
  intro cs op ds heq
  refine h cs op (ds ++ bs) ?_
  rw [heq, List.append_assoc, List.cons_append]

end Runs

/-! ## A buffer of four cells -/

end PicoRuby.Uart
