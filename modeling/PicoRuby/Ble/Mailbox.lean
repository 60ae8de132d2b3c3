/-!
# The packet of the BLE stack

ble.c keeps one packet between an interrupt, `BLE_push_event`, and `pop_packet`. The interrupt may come between any
two statements of `pop_packet`, also while the bytes are copied, and runs to its end. `none` is an access to a block
that is not allocated.
-/

namespace PicoRuby.Ble.Mailbox

set_option autoImplicit false

/-- The blocks that are allocated. -/
structure Heap where
  blocks : List (Nat × List UInt8)
  next : Nat
deriving DecidableEq, Repr

namespace Heap

def alloc (h : Heap) (data : List UInt8) : Nat × Heap := (h.next, ⟨(h.next, data) :: h.blocks, h.next + 1⟩)

/-- Freeing NULL does nothing. -/
def free (h : Heap) : Option Nat → Option Heap
  | none => some h
  | some p =>
    if (h.blocks.lookup p).isSome then some { h with blocks := h.blocks.filter fun block => block.1 ≠ p } else none

/-- A byte of a block. -/
def byte (h : Heap) (p : Option Nat) (i : Nat) : Option UInt8 := do
  let block ← h.blocks.lookup (← p)
  block[i]?

end Heap

/-- Where `pop_packet` is. -/
inductive Pc where
  | outside
  | mutexRead
  | flagRead
  | locked
  | cleared
  | copying (source : Option Nat) (size : Nat) (copied : List UInt8)
  | copied (value : List UInt8)
  | freed (value : List UInt8)
  | emptied (value : List UInt8)
deriving DecidableEq, Repr

/-- The static variables of ble.c. `accepted` has the packets that were taken over, `popped` those returned. -/
structure Mailbox where
  packetMutex : Bool
  packetFlag : Bool
  heartbeatFlag : Bool
  packet : Option Nat
  packetSize : Nat
  heap : Heap
  pc : Pc
  accepted : List (List UInt8)
  popped : List (List UInt8)
deriving DecidableEq, Repr

inductive Event where
  | push (data : List UInt8)
  | heartbeat
  | statement
deriving DecidableEq, Repr

def start : Mailbox := ⟨false, false, false, none, 0, ⟨[], 0⟩, .outside, [], []⟩

/-- `BLE_push_event`. -/
def pushEvent (m : Mailbox) (data : List UInt8) : Option Mailbox :=
  if m.packetMutex then some m
  else do
    let heap ← m.heap.free m.packet
    let (packet, heap) := heap.alloc data
    return { m with
      packetFlag := true
      packetSize := data.length
      packet := some packet
      heap
      accepted := m.accepted ++ [data] }

/-- `BLE_heartbeat`. -/
def pushHeartbeat (m : Mailbox) : Mailbox := if m.packetMutex then m else { m with heartbeatFlag := true }

/-- A statement of `pop_packet`; it is called again and again. -/
def statement (m : Mailbox) : Option Mailbox :=
  match m.pc with
  | .outside => some (if m.packetMutex then m else { m with pc := .mutexRead })
  | .mutexRead => some (if m.packetFlag then { m with pc := .flagRead } else { m with pc := .outside })
  | .flagRead => some { m with packetMutex := true, pc := .locked }
  | .locked => some { m with packetFlag := false, pc := .cleared }
  | .cleared => some { m with pc := .copying m.packet m.packetSize [] }
  | .copying source size copied =>
    if copied.length < size then do
      let b ← m.heap.byte source copied.length
      return { m with pc := .copying source size (copied ++ [b]) }
    else some { m with pc := .copied copied }
  | .copied value => do
    let heap ← m.heap.free m.packet
    return { m with heap, pc := .freed value }
  | .freed value => some { m with packet := none, pc := .emptied value }
  | .emptied value => some { m with packetMutex := false, pc := .outside, popped := m.popped ++ [value] }

def step (m : Mailbox) : Event → Option Mailbox
  | .push data => pushEvent m data
  | .heartbeat => some (pushHeartbeat m)
  | .statement => statement m

def run (m : Mailbox) : List Event → Option Mailbox
  | [] => some m
  | event :: events => do run (← step m event) events

/-! ## What holds at each statement -/

/-- Nothing waits. -/
def Vacant (m : Mailbox) : Prop := m.packet = none ∧ m.heap.blocks = [] ∧ m.popped.Sublist m.accepted

/-- The packet that was accepted last waits; it has not been returned yet. -/
def Waiting (m : Mailbox) (data : List UInt8) : Prop :=
  ∃ p front, m.packet = some p ∧ m.heap.blocks = [(p, data)] ∧ m.packetSize = data.length ∧
    m.accepted = front ++ [data] ∧ m.popped.Sublist front

/-- The packet has been copied and its block is free. -/
def Taken (m : Mailbox) (value : List UInt8) : Prop :=
  m.heap.blocks = [] ∧ ∃ front, m.accepted = front ++ [value] ∧ m.popped.Sublist front

def Ready (m : Mailbox) : Prop := m.packetFlag = false ∧ Vacant m ∨ m.packetFlag = true ∧ ∃ data, Waiting m data

/-- What holds where `pop_packet` is. -/
def Holds (m : Mailbox) : Prop :=
  match m.pc with
  | .outside | .mutexRead => m.packetMutex = false ∧ Ready m
  | .flagRead => m.packetMutex = false ∧ m.packetFlag = true ∧ ∃ data, Waiting m data
  | .locked => m.packetMutex = true ∧ ∃ data, Waiting m data
  | .cleared => m.packetMutex = true ∧ m.packetFlag = false ∧ ∃ data, Waiting m data
  | .copying source size copied => m.packetMutex = true ∧ m.packetFlag = false ∧
      ∃ data, Waiting m data ∧ source = m.packet ∧ size = m.packetSize ∧ copied <+: data
  | .copied value => m.packetMutex = true ∧ m.packetFlag = false ∧ Waiting m value
  | .freed value => m.packetMutex = true ∧ m.packetFlag = false ∧ Taken m value
  | .emptied value => m.packetMutex = true ∧ m.packetFlag = false ∧ m.packet = none ∧ Taken m value

variable {m : Mailbox} {data value : List UInt8}

theorem Ready.pushed (h : Ready m) (hmutex : m.packetMutex = false) (data : List UInt8) :
    ∃ m', pushEvent m data = some m' ∧ m'.pc = m.pc ∧ m'.packetMutex = false ∧ m'.packetFlag = true ∧
      Waiting m' data := by
  rcases h with ⟨-, hpacket, hblocks, hpopped⟩ | ⟨-, old, p, front, hpacket, hblocks, -, haccepted, hpopped⟩
  · have hfree : m.heap.free m.packet = some m.heap := by rw [hpacket]; rfl
    unfold pushEvent
    rw [hmutex, hfree]
    refine ⟨_, rfl, rfl, rfl, rfl, m.heap.next, m.accepted, rfl, ?_, rfl, rfl, hpopped⟩
    change (m.heap.next, data) :: m.heap.blocks = _
    rw [hblocks]
  · have hfree : m.heap.free m.packet = some { m.heap with blocks := [] } := by
      rw [hpacket, Heap.free, hblocks]
      simp
    unfold pushEvent
    rw [hmutex, hfree]
    refine ⟨_, rfl, rfl, rfl, rfl, m.heap.next, m.accepted, rfl, rfl, rfl, rfl, ?_⟩
    change m.popped.Sublist m.accepted
    rw [haccepted]
    exact hpopped.trans (List.sublist_append_left front [old])

/-- Where the mutex is free, `pop_packet` has not begun to take the packet. -/
theorem Holds.ready (h : Holds m) (hmutex : m.packetMutex = false) :
    Ready m ∧ (m.pc = .outside ∨ m.pc = .mutexRead ∨ m.pc = .flagRead) := by
  unfold Holds at h
  cases hpc : m.pc with
  | outside =>
    rw [hpc] at h
    exact ⟨h.2, Or.inl rfl⟩
  | mutexRead =>
    rw [hpc] at h
    exact ⟨h.2, Or.inr (Or.inl rfl)⟩
  | flagRead =>
    rw [hpc] at h
    exact ⟨Or.inr h.2, Or.inr (Or.inr rfl)⟩
  | locked | cleared | copying | copied | freed | emptied =>
    rw [hpc] at h
    have hlocked := hmutex.symm.trans h.1
    cases hlocked

/-- A push keeps what holds; while the mutex is held nothing happens. -/
theorem Holds.push (h : Holds m) (data : List UInt8) : ∃ m', pushEvent m data = some m' ∧ Holds m' := by
  by_cases hmutex : m.packetMutex = true
  · refine ⟨m, ?_, h⟩
    rw [pushEvent, if_pos hmutex]
  rw [Bool.not_eq_true] at hmutex
  obtain ⟨hready, hpc⟩ := h.ready hmutex
  obtain ⟨m', hpush, hpc', hmutex', hflag, hwaiting⟩ := hready.pushed hmutex data
  refine ⟨m', hpush, ?_⟩
  unfold Holds
  rw [hpc']
  rcases hpc with hpc | hpc | hpc
  · rw [hpc]
    exact ⟨hmutex', Or.inr ⟨hflag, data, hwaiting⟩⟩
  · rw [hpc]
    exact ⟨hmutex', Or.inr ⟨hflag, data, hwaiting⟩⟩
  · rw [hpc]
    exact ⟨hmutex', hflag, data, hwaiting⟩

theorem Holds.heartbeat (h : Holds m) : Holds (pushHeartbeat m) := by
  unfold pushHeartbeat
  split
  · exact h
  · unfold Holds at *
    cases hpc : m.pc <;> rw [hpc] at h <;> exact h

/-- A byte of the packet that waits. -/
theorem Waiting.byte (h : Waiting m data) (i : Nat) : m.heap.byte m.packet i = data[i]? := by
  obtain ⟨p, front, hpacket, hblocks, -⟩ := h
  rw [Heap.byte, hpacket, hblocks]
  simp

theorem Waiting.free (h : Waiting m data) : m.heap.free m.packet = some { m.heap with blocks := [] } := by
  obtain ⟨p, front, hpacket, hblocks, -⟩ := h
  rw [hpacket, Heap.free, hblocks]
  simp

/-- A statement of `pop_packet` keeps what holds. -/
theorem Holds.statement (h : Holds m) : ∃ m', Mailbox.statement m = some m' ∧ Holds m' := by
  unfold Holds at h
  unfold Mailbox.statement
  cases hpc : m.pc with
  | outside =>
    rw [hpc] at h
    obtain ⟨hmutex, hready⟩ := h
    dsimp only
    rw [if_neg (ne_true_of_eq_false hmutex)]
    exact ⟨_, rfl, hmutex, hready⟩
  | mutexRead =>
    rw [hpc] at h
    obtain ⟨hmutex, hready⟩ := h
    dsimp only
    rcases hready with ⟨hflag, hvacant⟩ | ⟨hflag, hwaiting⟩
    · rw [if_neg (ne_true_of_eq_false hflag)]
      exact ⟨_, rfl, hmutex, Or.inl ⟨hflag, hvacant⟩⟩
    · rw [if_pos hflag]
      exact ⟨_, rfl, hmutex, hflag, hwaiting⟩
  | flagRead =>
    rw [hpc] at h
    exact ⟨_, rfl, rfl, h.2.2⟩
  | locked =>
    rw [hpc] at h
    exact ⟨_, rfl, h.1, rfl, h.2⟩
  | cleared =>
    rw [hpc] at h
    obtain ⟨hmutex, hflag, data, hwaiting⟩ := h
    exact ⟨_, rfl, hmutex, hflag, data, hwaiting, rfl, rfl, List.nil_prefix⟩
  | copying source size copied =>
    rw [hpc] at h
    obtain ⟨hmutex, hflag, data, hwaiting, rfl, rfl, hcopied⟩ := h
    have hsize : m.packetSize = data.length := by
      obtain ⟨-, -, -, -, hsize, -⟩ := hwaiting
      exact hsize
    have htake := List.prefix_iff_eq_take.mp hcopied
    dsimp only
    by_cases hlt : copied.length < m.packetSize
    · have hin : copied.length < data.length := by omega
      have hnext : copied ++ [data.get ⟨copied.length, hin⟩] = data.take (copied.length + 1) := by
        rw [List.take_succ_eq_append_getElem hin, ← htake]
        rfl
      rw [if_pos hlt, hwaiting.byte copied.length, List.getElem?_eq_getElem hin]
      refine ⟨_, rfl, hmutex, hflag, data, hwaiting, rfl, rfl, ?_⟩
      change copied ++ [data.get ⟨copied.length, hin⟩] <+: data
      rw [hnext]
      exact List.take_prefix _ _
    · have hall : copied = data := by
        rw [htake]
        exact List.take_of_length_le (by omega)
      rw [if_neg hlt]
      refine ⟨_, rfl, hmutex, hflag, ?_⟩
      rw [hall]
      exact hwaiting
  | copied value =>
    rw [hpc] at h
    obtain ⟨hmutex, hflag, hwaiting⟩ := h
    dsimp only
    rw [hwaiting.free]
    obtain ⟨p, front, -, -, -, haccepted, hpopped⟩ := hwaiting
    exact ⟨_, rfl, hmutex, hflag, rfl, front, haccepted, hpopped⟩
  | freed value =>
    rw [hpc] at h
    obtain ⟨hmutex, hflag, htaken⟩ := h
    exact ⟨_, rfl, hmutex, hflag, rfl, htaken⟩
  | emptied value =>
    rw [hpc] at h
    obtain ⟨hmutex, hflag, hpacket, hblocks, front, haccepted, hpopped⟩ := h
    refine ⟨_, rfl, rfl, Or.inl ⟨hflag, hpacket, hblocks, ?_⟩⟩
    change (m.popped ++ [value]).Sublist m.accepted
    rw [haccepted]
    exact List.Sublist.append hpopped (List.Sublist.refl _)

theorem Holds.step (h : Holds m) (event : Event) : ∃ m', Mailbox.step m event = some m' ∧ Holds m' := by
  cases event with
  | push data => exact h.push data
  | heartbeat => exact ⟨_, rfl, h.heartbeat⟩
  | statement => exact h.statement

theorem Holds.run (h : Holds m) (events : List Event) : ∃ m', Mailbox.run m events = some m' ∧ Holds m' := by
  induction events generalizing m with
  | nil => exact ⟨m, rfl, h⟩
  | cons event events ih =>
    obtain ⟨m₁, hstep, h₁⟩ := h.step event
    obtain ⟨m₂, hrun, h₂⟩ := ih h₁
    refine ⟨m₂, ?_, h₂⟩
    rw [Mailbox.run, hstep]
    exact hrun

theorem Holds.cases (h : Holds m) : Vacant m ∨ (∃ data, Waiting m data) ∨ ∃ value, Taken m value := by
  unfold Holds at h
  cases hpc : m.pc with
  | outside | mutexRead =>
    rw [hpc] at h
    rcases h.2 with ⟨-, hvacant⟩ | ⟨-, hwaiting⟩
    · exact Or.inl hvacant
    · exact Or.inr (Or.inl hwaiting)
  | flagRead | cleared =>
    rw [hpc] at h
    exact Or.inr (Or.inl h.2.2)
  | locked =>
    rw [hpc] at h
    exact Or.inr (Or.inl h.2)
  | copying source size copied =>
    rw [hpc] at h
    obtain ⟨-, -, data, hwaiting, -⟩ := h
    exact Or.inr (Or.inl ⟨data, hwaiting⟩)
  | copied value =>
    rw [hpc] at h
    exact Or.inr (Or.inl ⟨value, h.2.2⟩)
  | freed value =>
    rw [hpc] at h
    exact Or.inr (Or.inr ⟨value, h.2.2⟩)
  | emptied value =>
    rw [hpc] at h
    exact Or.inr (Or.inr ⟨value, h.2.2.2⟩)

theorem Holds.popped (h : Holds m) : m.popped.Sublist m.accepted ∧ m.heap.blocks.length ≤ 1 := by
  rcases h.cases with ⟨-, hblocks, hpopped⟩ | ⟨data, p, front, -, hblocks, -, haccepted, hpopped⟩ |
    ⟨value, hblocks, front, haccepted, hpopped⟩
  · rw [hblocks]
    exact ⟨hpopped, Nat.zero_le _⟩
  · rw [hblocks, haccepted]
    exact ⟨hpopped.trans (List.sublist_append_left front _), Nat.le_refl _⟩
  · rw [hblocks, haccepted]
    exact ⟨hpopped.trans (List.sublist_append_left front _), Nat.zero_le _⟩

/-- Wherever the interrupts come, no block is used that is not allocated and at most one is. What is returned has been
accepted, in this order and once; a call returns the packet that was accepted last, and one that waits is the last. -/
theorem mailbox_safe (events : List Event) : ∃ m, run start events = some m ∧ m.popped.Sublist m.accepted ∧
    m.heap.blocks.length ≤ 1 ∧ (∀ value, m.pc = .emptied value → m.accepted.getLast? = some value) ∧
    (m.pc = .outside → m.packetFlag = true → ∃ p data, m.packet = some p ∧ m.heap.blocks = [(p, data)] ∧
      m.accepted.getLast? = some data ∧ m.popped.Sublist m.accepted.dropLast) := by
  have hstart : Holds start := ⟨rfl, Or.inl ⟨rfl, rfl, rfl, List.Sublist.refl _⟩⟩
  obtain ⟨m, hrun, h⟩ := hstart.run events
  refine ⟨m, hrun, h.popped.1, h.popped.2, ?_, ?_⟩
  · intro value hpc
    unfold Holds at h
    rw [hpc] at h
    obtain ⟨-, -, -, -, front, haccepted, -⟩ := h
    rw [haccepted, List.getLast?_concat]
  · intro hpc hflag
    unfold Holds at h
    rw [hpc] at h
    rcases h.2 with ⟨hvacant, -⟩ | ⟨-, data, p, front, hpacket, hblocks, -, haccepted, hpopped⟩
    · rw [hflag] at hvacant
      cases hvacant
    · refine ⟨p, data, hpacket, hblocks, ?_, ?_⟩
      · rw [haccepted, List.getLast?_concat]
      · rw [haccepted, List.dropLast_concat]
        exact hpopped

end PicoRuby.Ble.Mailbox
