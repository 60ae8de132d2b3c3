import PicoRuby.Shared.Ring

/-!
# The event queue of picoruby-irq

The handler slots and the queue of irq.c. An `unsigned int` is a `UInt32`; what is told to the
hardware is left out.
-/

namespace PicoRuby.Irq

open Shared

set_option autoImplicit false

/-- `mrb_irq_handler_t`. -/
structure HandlerSlot where
  pin : UInt32
  eventMask : UInt32
  enabled : Bool
  debounceMs : UInt32
  lastEventTime : UInt32
  lastEventType : UInt32
deriving DecidableEq, Repr

/-- `irq_event_t`. -/
structure Event where
  irqId : Nat
  eventType : UInt32
deriving DecidableEq, Repr

def irqEventQueueSize : Nat := 1 <<< 5

/-- The static variables of irq.c. -/
structure Port where
  irqHandlers : Fin 16 → HandlerSlot
  eventQueue : Nat → Event
  queueHead : Nat
  queueTail : Nat

/-- `IRQ_init`. -/
def init : Port := ⟨fun _ => ⟨0, 0, false, 0, 0, 0⟩, fun _ => ⟨0, 0⟩, 0, 0⟩

/-! ## irq.c -/

/-- The slot is for the pin and one of the events. -/
def HandlerSlot.isFor (slot : HandlerSlot) (gpio events : UInt32) : Bool :=
  slot.enabled && slot.pin == gpio && events &&& slot.eventMask != 0

/-- The slot skips the events, as it has had the same ones just before. -/
def HandlerSlot.skips (slot : HandlerSlot) (currentTime events : UInt32) : Bool :=
  slot.debounceMs > 0 &&
    (currentTime - slot.lastEventTime < slot.debounceMs && events == slot.lastEventType)

/-- The slot at which the loop of `gpio_irq_callback` ends. -/
def findSlot (s : Port) (currentTime gpio events : UInt32) : Option (Fin 16) :=
  (List.finRange 16).find? fun i =>
    (s.irqHandlers i).isFor gpio events && !(s.irqHandlers i).skips currentTime events

def nextIndex (i : Nat) : Nat := (i + 1) &&& (irqEventQueueSize - 1)

/-- `time_us_32() / 1000`. -/
def currentTime (timeUs : UInt32) : UInt32 := timeUs / 1000

def gpioIrqCallback (timeUs gpio events : UInt32) (s : Port) : Port :=
  match findSlot s (currentTime timeUs) gpio events with
  | none => s
  | some i =>
    let s := { s with
      irqHandlers := Function.update s.irqHandlers i { s.irqHandlers i with
        lastEventTime := currentTime timeUs
        lastEventType := events } }
    let nextTail := nextIndex s.queueTail
    if nextTail ≠ s.queueHead then
      { s with
        eventQueue := Function.update s.eventQueue s.queueTail ⟨i + 1, events⟩
        queueTail := nextTail }
    else s

/-- `event_mask` of an event type. -/
def eventMask (eventType : UInt32) : UInt32 :=
  (if eventType &&& 1 ≠ 0 then 1 else 0) ||| (if eventType &&& 2 ≠ 0 then 2 else 0) |||
    (if eventType &&& 4 ≠ 0 then 4 else 0) ||| (if eventType &&& 8 ≠ 0 then 8 else 0)

/-- `IRQ_register_gpio`; `none` is -1. -/
def registerGpio (pin eventType debounceMs : UInt32) (s : Port) : Option Nat × Port :=
  match (List.finRange 16).find? fun i => !(s.irqHandlers i).enabled with
  | none => (none, s)
  | some slot =>
    (some (slot + 1), { s with
      irqHandlers :=
        Function.update s.irqHandlers slot ⟨pin, eventMask eventType, true, debounceMs, 0, 0⟩ })

/-- `IRQ_unregister_gpio`. -/
def unregisterGpio (irqId : Nat) (s : Port) : Bool × Port :=
  match (List.finRange 16).find? fun i => i.val + 1 = irqId with
  | none => (false, s)
  | some slot =>
    if (s.irqHandlers slot).enabled then
      (true, { s with irqHandlers := Function.update s.irqHandlers slot ⟨0, 0, false, 0, 0, 0⟩ })
    else (false, s)

/-- `IRQ_peek_event`, which takes the event from the queue. -/
def peekEvent (s : Port) : Option Event × Port :=
  if s.queueHead = s.queueTail then (none, s)
  else (some (s.eventQueue s.queueHead), { s with queueHead := nextIndex s.queueHead })

/-! ## What is queued -/

/-- The indices are in the queue. -/
structure Sized (s : Port) : Prop where
  head : s.queueHead < irqEventQueueSize
  tail : s.queueTail < irqEventQueueSize

/-- The events in the queue, the oldest first. -/
def queued (s : Port) : List Event :=
  window s.eventQueue irqEventQueueSize s.queueHead
    (ringDist irqEventQueueSize s.queueHead s.queueTail)

theorem nextIndex_eq (i : Nat) : nextIndex i = (i + 1) % irqEventQueueSize :=
  Nat.and_two_pow_sub_one_eq_mod (i + 1) 5

theorem nextIndex_lt (i : Nat) : nextIndex i < irqEventQueueSize := by
  rw [nextIndex_eq]
  exact Nat.mod_lt _ (by decide)

theorem init_sized : Sized init := ⟨by decide, by decide⟩

theorem queued_init : queued init = [] := rfl

section Queue
variable {s : Port}

/-- The event that the interrupt puts into the queue. -/
def acceptedEvent (timeUs gpio events : UInt32) (s : Port) : List Event :=
  match findSlot s (currentTime timeUs) gpio events with
  | none => []
  | some i => if nextIndex s.queueTail ≠ s.queueHead then [⟨i + 1, events⟩] else []

theorem Sized.queued_eq_nil_iff (h : Sized s) : queued s = [] ↔ s.queueHead = s.queueTail := by
  rw [← List.length_eq_zero_iff, queued, window_length, ringDist_eq_zero_iff h.head h.tail]
  exact eq_comm

theorem Sized.gpioIrqCallback (h : Sized s) (timeUs gpio events : UInt32) :
    Sized (gpioIrqCallback timeUs gpio events s) ∧
      queued (gpioIrqCallback timeUs gpio events s) =
        queued s ++ acceptedEvent timeUs gpio events s := by
  unfold Irq.gpioIrqCallback acceptedEvent
  cases findSlot s (currentTime timeUs) gpio events with
  | none => exact ⟨h, (List.append_nil _).symm⟩
  | some i =>
    dsimp only
    by_cases hroom : nextIndex s.queueTail ≠ s.queueHead
    · rw [if_pos hroom, if_pos hroom]
      refine ⟨⟨h.head, nextIndex_lt _⟩, ?_⟩
      rw [nextIndex_eq] at hroom
      have hpush (e : Event) := @ring_push _ s.eventQueue _ _ _ e h.head h.tail hroom
      rw [← nextIndex_eq] at hpush
      exact hpush ⟨i + 1, events⟩
    · rw [if_neg hroom, if_neg hroom]
      exact ⟨⟨h.head, h.tail⟩, (List.append_nil _).symm⟩

theorem Sized.peekEvent (h : Sized s) :
    Sized (peekEvent s).2 ∧ queued s = (peekEvent s).1.toList ++ queued (peekEvent s).2 := by
  unfold Irq.peekEvent
  by_cases hempty : s.queueHead = s.queueTail
  · rw [if_pos hempty]
    exact ⟨h, rfl⟩
  · rw [if_neg hempty]
    refine ⟨⟨nextIndex_lt _, h.tail⟩, ?_⟩
    change queued s = s.eventQueue s.queueHead :: window s.eventQueue irqEventQueueSize
      (nextIndex s.queueHead) (ringDist irqEventQueueSize (nextIndex s.queueHead) s.queueTail)
    rw [nextIndex_eq]
    exact ring_pop h.head h.tail hempty

theorem Sized.peekEvent_none (h : Sized s) (hnone : (Irq.peekEvent s).1 = none) : queued s = [] := by
  rw [h.queued_eq_nil_iff]
  unfold Irq.peekEvent at hnone
  split at hnone
  · assumption
  · cases hnone

end Queue

end PicoRuby.Irq
