import PicoRuby.Irq.Process

/-!
# Debouncing

A slot remembers the time and the type of the last event it took, in milliseconds made from a counter of microseconds
that wraps. Here the steps of the system carry the time that the counter is a part of.
-/

namespace PicoRuby.Irq

open Shared

set_option autoImplicit false

/-- A step and the time at which it is taken, in microseconds. -/
structure Timed where
  time : Nat
  action : Action

/-- The system, the time of its last step, the time at which the slot took its last event, and the events that were
queued for the slot, each with its time. -/
structure Watch where
  system : System
  now : Nat
  recorded : Nat
  enqueued : List (Nat × UInt32)

/-- The loop of `gpio_irq_callback` comes to the slot, which is for the events. -/
def reaches (i : Fin 16) (timeUs gpio events : UInt32) (p : Port) : Bool :=
  (p.irqHandlers i).isFor gpio events &&
    (List.finRange 16).all fun j =>
      !(decide (j < i) && (p.irqHandlers j).isFor gpio events && !(p.irqHandlers j).skips (currentTime timeUs) events)

/-- The time and the type of an event that comes to the slot while the queue is not full. -/
def arrival (i : Fin 16) (p : Port) (a : Timed) : Option (UInt32 × UInt32) :=
  match a.action with
  | .interrupt timeUs gpio events =>
    if reaches i timeUs gpio events p ∧ nextIndex p.queueTail ≠ p.queueHead then some (timeUs, events) else none
  | _ => none

/-- What the step puts into the queue for the slot. -/
def enqueuedBy (i : Fin 16) (p : Port) (a : Timed) : List (Nat × UInt32) :=
  match a.action with
  | .interrupt timeUs gpio events =>
    (forHandler (i + 1) (acceptedEvent timeUs gpio events p)).map fun e => (a.time, e.eventType)
  | _ => []

def records (i : Fin 16) (p : Port) (a : Timed) : Bool :=
  match a.action with
  | .interrupt timeUs gpio events => decide (findSlot p (currentTime timeUs) gpio events = some i)
  | _ => false

def Watch.next (i : Fin 16) (w : Watch) (a : Timed) : Watch where
  system := w.system.next a.action
  now := a.time
  recorded := if records i w.system.port a then a.time else w.recorded
  enqueued := w.enqueued ++ enqueuedBy i w.system.port a

def Watch.run (i : Fin 16) (w : Watch) (actions : List Timed) : Watch := actions.foldl (Watch.next i) w

/-- The slot has just been registered. -/
structure Fresh (i : Fin 16) (d : UInt32) (w : Watch) : Prop where
  slot : ∃ pin mask, w.system.port.irqHandlers i = ⟨pin, mask, true, d, 0, 0⟩
  enqueued : w.enqueued = []

/-- Time does not go back, an interrupt reads its counter, and the handler stays registered. -/
def Proceeds (i : Fin 16) (w : Watch) (a : Timed) : Prop :=
  w.now ≤ a.time ∧
    match a.action with
    | .interrupt timeUs _ _ => timeUs = UInt32.ofNat a.time
    | .unregister id => id ≠ i + 1
    | _ => True

/-! ## What is promised -/

def Spaced (d : UInt32) (enqueued : List (Nat × UInt32)) : Prop :=
  enqueued.Pairwise fun a b => a.2 = b.2 → a.1 + 1000 * d.toNat ≤ b.1

/-- An event that comes late enough is queued. -/
def Answers (i : Fin 16) (d : UInt32) (w : Watch) (a : Timed) : Prop :=
  ∀ x ∈ arrival i w.system.port a, (∀ e ∈ w.enqueued.getLast?, e.1 + 1000 * d.toNat ≤ a.time) →
    enqueuedBy i w.system.port a = [(a.time, x.2)]

structure Debounced (i : Fin 16) (d : UInt32) (w : Watch) (actions : List Timed) : Prop where
  spaced : ∀ pre, pre <+: actions → Spaced d (w.run i pre).enqueued
  answered : ∀ pre a, pre ++ [a] <+: actions → Answers i d (w.run i pre) a

/-- For an event of the type that was recorded last, the difference of the counters tells whether the delay is over, and
what comes before it is over comes within the delay of an event that was queued, not of one that the full queue
dropped. For an event of another type, none of its type was queued within the delay. -/
def Trusted (i : Fin 16) (d : UInt32) (w : Watch) (a : Timed) : Prop :=
  ∀ x ∈ arrival i w.system.port a,
    if x.2 = (w.system.port.irqHandlers i).lastEventType then
      (currentTime x.1 - (w.system.port.irqHandlers i).lastEventTime < d ↔ a.time < w.recorded + 1000 * d.toNat) ∧
        (a.time < w.recorded + 1000 * d.toNat → ∃ e ∈ w.enqueued.getLast?, a.time < e.1 + 1000 * d.toNat)
    else ∀ e ∈ w.enqueued, e.2 = x.2 → e.1 + 1000 * d.toNat ≤ a.time

/-! ## One interrupt -/

section Steps
variable {i : Fin 16} {d : UInt32} {w : Watch} {a : Timed} {p : Port} {timeUs gpio events : UInt32}

theorem findSlot_eq_some_iff : findSlot p (currentTime timeUs) gpio events = some i ↔
    reaches i timeUs gpio events p ∧ (p.irqHandlers i).skips (currentTime timeUs) events = false := by
  have hall : ((List.finRange 16).all fun j => !(decide (j < i) && (p.irqHandlers j).isFor gpio events &&
      !(p.irqHandlers j).skips (currentTime timeUs) events)) = true ↔
      ∀ j < i, ((p.irqHandlers j).isFor gpio events && !(p.irqHandlers j).skips (currentTime timeUs) events) = false := by
    rw [List.all_eq_true]
    constructor
    · intro h j hj
      have hj' := h j (List.mem_finRange j)
      rw [decide_eq_true hj, Bool.true_and, Bool.not_eq_true'] at hj'
      exact hj'
    · intro h j _
      by_cases hj : j < i
      · rw [decide_eq_true hj, Bool.true_and, h j hj]
        rfl
      · rw [decide_eq_false hj]
        rfl
  rw [findSlot, List.find?_eq_some_iff_getElem, Bool.and_eq_true, Bool.not_eq_true', reaches, Bool.and_eq_true, hall,
    and_assoc, and_assoc]
  apply and_congr_right
  intro _
  rw [and_comm]
  apply and_congr_left
  intro _
  constructor
  · rintro ⟨n, hn, heq, hbefore⟩ j hj
    rw [List.getElem_finRange] at heq
    have hjn : j.val < n := by
      rw [← heq] at hj
      exact hj
    have hj' := hbefore j.val hjn
    rw [List.getElem_finRange, Bool.not_eq_true'] at hj'
    exact hj'
  · intro h
    refine ⟨i.val, by simp, by simp, fun n hn => ?_⟩
    rw [List.getElem_finRange, Bool.not_eq_true']
    exact h _ hn

/-- The slot takes the event unless it skips it. -/
theorem enqueuedBy_arrival {x : UInt32 × UInt32} (hx : x ∈ arrival i p a) :
    enqueuedBy i p a =
      if (p.irqHandlers i).skips (currentTime x.1) x.2 then [] else [(a.time, x.2)] := by
  unfold arrival at hx
  unfold enqueuedBy
  split at hx
  · rename_i timeUs gpio events haction
    split at hx
    · rename_i h
      obtain ⟨hreaches, hroom⟩ := h
      cases hx
      dsimp only
      unfold acceptedEvent
      by_cases hskips : (p.irqHandlers i).skips (currentTime timeUs) events = true
      · rw [if_pos hskips]
        have hnot : findSlot p (currentTime timeUs) gpio events ≠ some i := by
          intro hfound
          rw [(findSlot_eq_some_iff.mp hfound).2] at hskips
          cases hskips
        cases hfound : findSlot p (currentTime timeUs) gpio events with
        | none => rfl
        | some j =>
          dsimp only
          rw [if_pos hroom]
          have hne : ¬ j.val = i.val := by
            intro heq
            apply hnot
            rw [hfound, Fin.ext heq]
          simp [forHandler, hne]
      · rw [if_neg hskips, findSlot_eq_some_iff.mpr ⟨hreaches, eq_false_of_ne_true hskips⟩]
        dsimp only
        rw [if_pos hroom]
        simp [forHandler]
    · cases hx
  · cases hx

/-- What is queued for the slot has come to it, and is recorded. -/
theorem mem_enqueuedBy {e : Nat × UInt32} (he : e ∈ enqueuedBy i p a) :
    (∃ x ∈ arrival i p a, e = (a.time, x.2)) ∧ records i p a = true := by
  unfold enqueuedBy at he
  unfold arrival records
  split at he
  · rename_i timeUs gpio events haction
    unfold acceptedEvent at he
    cases hfound : findSlot p (currentTime timeUs) gpio events with
    | none =>
      rw [hfound] at he
      cases he
    | some j =>
      rw [hfound] at he
      dsimp only at he
      split at he
      · rename_i hroom
        by_cases hj : j = i
        · subst hj
          have hreaches := (findSlot_eq_some_iff.mp hfound).1
          rw [if_pos ⟨hreaches, hroom⟩]
          refine ⟨⟨_, rfl, ?_⟩, decide_eq_true rfl⟩
          simpa [forHandler] using he
        · have hne : ¬ j.val = i.val := fun heq => hj (Fin.ext heq)
          simp [forHandler, hne] at he
      · cases he
  · cases he

/-! ## The slot -/

theorem gpioIrqCallback_slot (h : findSlot p (currentTime timeUs) gpio events ≠ some i) :
    (gpioIrqCallback timeUs gpio events p).irqHandlers i = p.irqHandlers i := by
  unfold gpioIrqCallback
  cases hfound : findSlot p (currentTime timeUs) gpio events with
  | none => rfl
  | some j =>
    have hne : i ≠ j := by
      rintro rfl
      exact h hfound
    dsimp only
    split
    · exact Function.update_of_ne hne _ _
    · exact Function.update_of_ne hne _ _

theorem gpioIrqCallback_taken (h : findSlot p (currentTime timeUs) gpio events = some i) :
    (gpioIrqCallback timeUs gpio events p).irqHandlers i = { p.irqHandlers i with
      lastEventTime := currentTime timeUs
      lastEventType := events } := by
  unfold gpioIrqCallback
  rw [h]
  dsimp only
  split
  · exact Function.update_self _ _ _
  · exact Function.update_self _ _ _

theorem registerGpio_slot {pin eventType debounceMs : UInt32} (h : (p.irqHandlers i).enabled = true) :
    (registerGpio pin eventType debounceMs p).2.irqHandlers i = p.irqHandlers i := by
  unfold registerGpio
  split
  · rfl
  · rename_i slot hslot
    have hfree := List.find?_some hslot
    apply Function.update_of_ne
    rintro rfl
    rw [h] at hfree
    cases hfree

theorem unregisterGpio_other {id : Nat} (h : id ≠ i + 1) :
    (unregisterGpio id p).2.irqHandlers i = p.irqHandlers i := by
  unfold unregisterGpio
  split
  · rfl
  · rename_i slot hslot
    have hid := List.find?_some hslot
    split
    · apply Function.update_of_ne
      rintro rfl
      exact h (of_decide_eq_true hid).symm
    · rfl

theorem peekEvent_slot : (peekEvent p).2.irqHandlers = p.irqHandlers := by
  unfold peekEvent
  split
  · rfl
  · rfl

theorem iterate_slot (s : System) : (iterate s).port.irqHandlers = s.port.irqHandlers := by
  have hpasses := iterate_passes s
  generalize iterate s = t at hpasses
  cases hpasses with
  | idle => rfl
  | empty => exact peekEvent_slot
  | limit => exact peekEvent_slot
  | unregistered => exact peekEvent_slot
  | dispatched => exact peekEvent_slot

/-- While the handler stays registered, its slot stays enabled with its delay. -/
theorem next_slot (hslot : (w.system.port.irqHandlers i).enabled = true) (ha : Proceeds i w a) :
    ((w.next i a).system.port.irqHandlers i).enabled = true ∧
      ((w.next i a).system.port.irqHandlers i).debounceMs = (w.system.port.irqHandlers i).debounceMs := by
  have hsame : ∀ slot : HandlerSlot, slot = w.system.port.irqHandlers i →
      slot.enabled = true ∧ slot.debounceMs = (w.system.port.irqHandlers i).debounceMs := by
    rintro slot rfl
    exact ⟨hslot, rfl⟩
  obtain ⟨time, action⟩ := a
  cases action with
  | interrupt timeUs gpio events =>
    by_cases htaken : findSlot w.system.port (currentTime timeUs) gpio events = some i
    · have htake := gpioIrqCallback_taken htaken
      unfold Watch.next System.next
      dsimp only
      rw [htake]
      exact ⟨hslot, rfl⟩
    · exact hsame _ (gpioIrqCallback_slot htaken)
  | process maxCount => exact hsame _ rfl
  | iterate => exact hsame _ (congrFun (iterate_slot w.system) i)
  | register pin eventType debounceMs =>
    apply hsame
    have hkeep : (registerGpio pin eventType debounceMs w.system.port).2.irqHandlers i = w.system.port.irqHandlers i :=
      registerGpio_slot hslot
    unfold Watch.next System.next register
    dsimp only
    generalize registerGpio pin eventType debounceMs w.system.port = result at hkeep ⊢
    obtain ⟨id?, port⟩ := result
    cases id? with
    | none => exact hkeep
    | some id => exact hkeep
  | unregister id =>
    apply hsame
    unfold Watch.next System.next unregister
    dsimp only
    cases w.system.handler id with
    | none => rfl
    | some irq => exact unregisterGpio_other ha.2
  | enable id => exact hsame _ rfl
  | disable id => exact hsame _ rfl

/-! ## Runs -/

/-- What holds all along: the queued events were recorded, the last of all not before them, and they are spaced. -/
structure Filtering (i : Fin 16) (d : UInt32) (w : Watch) : Prop where
  enabled : (w.system.port.irqHandlers i).enabled = true
  delay : (w.system.port.irqHandlers i).debounceMs = d
  recorded : ∀ e ∈ w.enqueued, e.1 ≤ w.recorded
  now : ∀ e ∈ w.enqueued, e.1 ≤ w.now
  spaced : Spaced d w.enqueued

theorem skips_iff (hdelay : (p.irqHandlers i).debounceMs = d) {t : UInt32} :
    (p.irqHandlers i).skips t events = true ↔
      0 < d ∧ t - (p.irqHandlers i).lastEventTime < d ∧ events = (p.irqHandlers i).lastEventType := by
  unfold HandlerSlot.skips
  rw [hdelay, Bool.and_eq_true, Bool.and_eq_true, decide_eq_true_iff, decide_eq_true_iff, beq_iff_eq]

/-- An event that is queued is late enough for all of its type. -/
theorem Filtering.late (h : Filtering i d w) (hd : 0 < d) (htrusted : Trusted i d w a) {x : UInt32 × UInt32}
    (hx : x ∈ arrival i w.system.port a)
    (hskips : (w.system.port.irqHandlers i).skips (currentTime x.1) x.2 = false) :
    ∀ e ∈ w.enqueued, e.2 = x.2 → e.1 + 1000 * d.toNat ≤ a.time := by
  have hx' := htrusted x hx
  split at hx'
  · rename_i htype
    intro e he _
    by_contra hearly
    have hrecorded := h.recorded e he
    have hdiff := hx'.1.mpr (by omega)
    rw [(skips_iff h.delay).mpr ⟨hd, hdiff, htype⟩] at hskips
    cases hskips
  · exact hx'

theorem Filtering.next (h : Filtering i d w) (hd : 0 < d) (ha : Proceeds i w a) (htrusted : Trusted i d w a) :
    Filtering i d (w.next i a) := by
  obtain ⟨henabled, hdelay⟩ := next_slot h.enabled ha
  refine ⟨henabled, hdelay.trans h.delay, ?_, ?_, ?_⟩
  · intro e he
    unfold Watch.next
    dsimp only
    rcases List.mem_append.mp he with he | he
    · split
      · exact (h.now e he).trans ha.1
      · exact h.recorded e he
    · obtain ⟨⟨x, -, rfl⟩, hrecords⟩ := mem_enqueuedBy he
      rw [if_pos hrecords]
  · intro e he
    rcases List.mem_append.mp he with he | he
    · exact (h.now e he).trans ha.1
    · obtain ⟨⟨x, -, rfl⟩, -⟩ := mem_enqueuedBy he
      exact le_refl a.time
  · unfold Spaced Watch.next
    dsimp only
    refine List.pairwise_append.mpr ⟨h.spaced, ?_, ?_⟩
    · cases harrival : arrival i w.system.port a with
      | none =>
        have hnone : enqueuedBy i w.system.port a = [] := by
          apply List.eq_nil_iff_forall_not_mem.mpr
          intro e he
          obtain ⟨⟨x, hx, -⟩, -⟩ := mem_enqueuedBy he
          rw [harrival] at hx
          cases hx
        rw [hnone]
        exact List.Pairwise.nil
      | some x =>
        rw [enqueuedBy_arrival harrival]
        split
        · exact List.Pairwise.nil
        · exact List.pairwise_singleton _ _
    · intro e he f hf htype
      obtain ⟨⟨x, hx, rfl⟩, -⟩ := mem_enqueuedBy hf
      rw [enqueuedBy_arrival hx] at hf
      split at hf
      · cases hf
      · rename_i hskips
        exact h.late hd htrusted hx (eq_false_of_ne_true hskips) e he htype

/-- An event that is skipped comes too early. -/
theorem Filtering.answers (h : Filtering i d w) (htrusted : Trusted i d w a) : Answers i d w a := by
  intro x hx hlate
  rw [enqueuedBy_arrival hx, if_neg]
  intro hskips
  obtain ⟨-, hdiff, htype⟩ := (skips_iff h.delay).mp hskips
  have hx' := htrusted x hx
  rw [if_pos htype] at hx'
  obtain ⟨e, he, hearly⟩ := hx'.2 (hx'.1.mp hdiff)
  have hlate' := hlate e he
  omega

end Steps

/-- A run keeps what the delay promises as long as each event finds the slot's record to be what it is taken for. -/
theorem debounced_of_trusted {i : Fin 16} {d : UInt32} (hd : 0 < d) {w : Watch} (hw : Fresh i d w)
    {actions : List Timed} (hactions : ∀ pre a, pre ++ [a] <+: actions →
      Proceeds i (w.run i pre) a ∧ Trusted i d (w.run i pre) a) : Debounced i d w actions := by
  have hstart : Filtering i d w := by
    obtain ⟨⟨pin, mask, hslot⟩, hnone⟩ := hw
    refine ⟨?_, ?_, ?_, ?_, ?_⟩
    · rw [hslot]
    · rw [hslot]
    · rw [hnone]
      exact fun e he => absurd he List.not_mem_nil
    · rw [hnone]
      exact fun e he => absurd he List.not_mem_nil
    · rw [hnone]
      exact List.Pairwise.nil
  have hstep : ∀ w a, Filtering i d w → Proceeds i w a ∧ Trusted i d w a → Filtering i d (w.next i a) :=
    fun w a h hok => Filtering.next h hd hok.1 hok.2
  have hall := foldl_prefixes hstep hstart hactions
  refine ⟨fun pre hpre => (hall pre hpre).spaced, fun pre a hpre => ?_⟩
  exact (hall pre ((List.prefix_append pre [a]).trans hpre)).answers (hactions pre a hpre).2

instance (i : Fin 16) (d : UInt32) (w : Watch) (a : Timed) : Decidable (Trusted i d w a) :=
  Option.decidableForallMem (arrival i w.system.port a)

/-- A button on pin 4 with a delay of 50 ms. -/
def button : Watch := ⟨System.initial.next (.register 4 4 50), 0, 0, []⟩

def press (time : Nat) : Timed := ⟨time, .interrupt (UInt32.ofNat time) 4 4⟩

theorem button_fresh : Fresh 0 50 button := ⟨⟨4, 4, rfl⟩, rfl⟩

theorem debounced_presses : Debounced 0 50 button [press 100000, press 110000, press 200000] := by
  apply debounced_of_trusted (by decide) button_fresh
  refine forall_steps_cons.mpr ⟨⟨⟨by decide, rfl⟩, by decide +kernel⟩, ?_⟩
  refine forall_steps_cons.mpr ⟨⟨⟨by decide, rfl⟩, by decide +kernel⟩, ?_⟩
  refine forall_steps_cons.mpr ⟨⟨⟨by decide, rfl⟩, by decide +kernel⟩, ?_⟩
  exact forall_steps_nil

/-- The counter wraps between two presses that are a microsecond apart, and both are queued. -/
theorem wrap_not_debounced : (∀ pre a, pre ++ [a] <+: [press 4294967295, press 4294967296] →
    Proceeds 0 (button.run 0 pre) a) ∧ ¬ Debounced 0 50 button [press 4294967295, press 4294967296] := by
  constructor
  · refine forall_steps_cons.mpr ⟨⟨by decide, rfl⟩, ?_⟩
    refine forall_steps_cons.mpr ⟨⟨by decide, rfl⟩, ?_⟩
    exact forall_steps_nil
  · intro h
    have hspaced := h.spaced _ (List.prefix_refl _)
    have hboth : (button.run 0 [press 4294967295, press 4294967296]).enqueued =
        [(4294967295, 4), (4294967296, 4)] := by decide +kernel
    rw [hboth] at hspaced
    exact absurd (List.rel_of_pairwise_cons hspaced List.mem_cons_self rfl) (by decide)

end PicoRuby.Irq
