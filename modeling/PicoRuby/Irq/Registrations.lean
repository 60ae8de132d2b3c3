import PicoRuby.Irq.Process

/-!
# Whose event it is

The calls of irq.rb with their history: every registration is told from the ones that had its id
before, and every queued event keeps the pin it was raised on and the registration it was raised
for. Nothing of this is in the program, which knows an event by its id only.
-/

namespace PicoRuby.Irq

open Shared

set_option autoImplicit false

/-- A call of `IRQ.register` that has taken a slot; `serial` counts them. -/
structure Registration where
  serial : Nat
  pin : UInt32
  eventType : UInt32
deriving DecidableEq, Repr

/-- An event with the pin of its interrupt, and the registration that had its id then. -/
structure Raised where
  event : Event
  gpio : UInt32
  owner : Option Registration
deriving DecidableEq, Repr

/-- The interrupt was on the registration's pin, with one of its events, while it was active. -/
def Raised.BelongsTo (e : Raised) (r : Registration) : Prop :=
  e.owner = some r ∧ e.gpio = r.pin ∧ e.event.eventType &&& eventMask r.eventType ≠ 0

instance (e : Raised) (r : Registration) : Decidable (e.BelongsTo r) := instDecidableAnd

/-- `current` are the registrations of the handlers in `HANDLER`, and `pending` what is queued.
`dispatched` are the events that `call` was called for, with the registration of the handler. -/
structure History where
  system : System
  current : Nat → Option Registration
  count : Nat
  pending : List Raised
  dispatched : List (Raised × Registration)

namespace History

def initial : History := ⟨System.initial, fun _ => none, 0, [], []⟩

/-- The event that the next pass of the loop takes from the queue. -/
def takes (s : System) : Option Event :=
  match s.calls with
  | [] => none
  | _ :: _ => (peekEvent s.port).1

/-- The next pass of the loop has come to its limit. -/
def atLimit (s : System) : Bool := s.calls.head?.any fun c => c.maxCount ≤ c.count

/-- The handler that an event is dispatched to. -/
def receivers (h : History) (e : Raised) : List (Raised × Registration) :=
  if atLimit h.system then [] else (h.current e.event.irqId).toList.map fun r => (e, r)

def next (h : History) : Action → History
  | .interrupt timeUs gpio events => { h with
      system := h.system.next (.interrupt timeUs gpio events)
      pending := h.pending ++ (acceptedEvent timeUs gpio events h.system.port).map fun e =>
        ⟨e, gpio, h.current e.irqId⟩ }
  | .process maxCount => { h with system := h.system.next (.process maxCount) }
  | .iterate =>
    match takes h.system, h.pending with
    | some _, e :: pending => { h with
        system := h.system.next .iterate
        pending
        dispatched := h.dispatched ++ h.receivers e }
    | _, _ => { h with system := h.system.next .iterate }
  | .register pin eventType debounceMs =>
    match (registerGpio pin eventType debounceMs h.system.port).1 with
    | none => { h with system := h.system.next (.register pin eventType debounceMs) }
    | some id => { h with
        system := h.system.next (.register pin eventType debounceMs)
        current := Function.update h.current id (some ⟨h.count, pin, eventType⟩)
        count := h.count + 1 }
  | .unregister id => { h with
      system := h.system.next (.unregister id)
      current := Function.update h.current id none }
  | .enable id => { h with system := h.system.next (.enable id) }
  | .disable id => { h with system := h.system.next (.disable id) }

def run (h : History) (actions : List Action) : History := actions.foldl next h

end History

/-! ## What is promised -/

/-- Every event has been dispatched to the registration that it was raised for. -/
def OwnHandlers (h : History) : Prop := ∀ d ∈ h.dispatched, d.1.BelongsTo d.2

/-- No event in the queue has the id that a registration takes. -/
def takesCleanSlot (s : System) : Action → Bool
  | .register pin eventType debounceMs =>
    (queued s.port).all fun e =>
      (registerGpio pin eventType debounceMs s.port).1 != some e.irqId
  | _ => true

instance (h : History) : Decidable (OwnHandlers h) :=
  inferInstanceAs (Decidable (∀ d ∈ h.dispatched, d.1.BelongsTo d.2))

/-- Every registration takes an id of which no event is left. -/
def takesCleanSlots (s : System) : List Action → Bool
  | [] => true
  | a :: actions => takesCleanSlot s a && takesCleanSlots (s.next a) actions

/-! ## The slots -/

/-- The slot is the one of the registration, or free. -/
def HandlerSlot.holds (slot : HandlerSlot) : Option Registration → Prop
  | none => slot.enabled = false
  | some r => slot.enabled = true ∧ slot.pin = r.pin ∧ slot.eventMask = Irq.eventMask r.eventType

section Slots
variable {s : Port}

theorem mem_acceptedEvent {timeUs gpio events : UInt32} {e : Event}
    (h : e ∈ acceptedEvent timeUs gpio events s) :
    ∃ i : Fin 16, e = ⟨i + 1, events⟩ ∧ (s.irqHandlers i).isFor gpio events = true := by
  unfold acceptedEvent at h
  split at h
  · exact absurd h List.not_mem_nil
  · rename_i i hfind
    have hfor := List.find?_some hfind
    rw [Bool.and_eq_true] at hfor
    split at h
    · exact ⟨i, List.mem_singleton.mp h, hfor.1⟩
    · exact absurd h List.not_mem_nil

/-- An interrupt leaves what a slot is for as it is. -/
theorem gpioIrqCallback_holds (timeUs gpio events : UInt32) (i : Fin 16) (r? : Option Registration)
    (h : (s.irqHandlers i).holds r?) :
    ((gpioIrqCallback timeUs gpio events s).irqHandlers i).holds r? := by
  have hupdate (j : Fin 16) (slot : HandlerSlot) (hslot : slot.enabled = (s.irqHandlers j).enabled ∧
      slot.pin = (s.irqHandlers j).pin ∧ slot.eventMask = (s.irqHandlers j).eventMask) :
      (Function.update s.irqHandlers j slot i).holds r? := by
    by_cases hij : i = j
    · subst hij
      rw [Function.update_self]
      cases r? with
      | none => exact hslot.1.trans h
      | some r => exact ⟨hslot.1.trans h.1, hslot.2.1.trans h.2.1, hslot.2.2.trans h.2.2⟩
    · rw [Function.update_of_ne hij]
      exact h
  unfold gpioIrqCallback
  split
  · exact h
  · rename_i j _
    dsimp only
    split
    · exact hupdate j _ ⟨rfl, rfl, rfl⟩
    · exact hupdate j _ ⟨rfl, rfl, rfl⟩

theorem registerGpio_cases (pin eventType debounceMs : UInt32) (s : Port) :
    (registerGpio pin eventType debounceMs s = (none, s)) ∨
      ∃ i : Fin 16, (s.irqHandlers i).enabled = false ∧
        registerGpio pin eventType debounceMs s = (some (i.val + 1), { s with
          irqHandlers :=
            Function.update s.irqHandlers i ⟨pin, eventMask eventType, true, debounceMs, 0, 0⟩ }) := by
  unfold registerGpio
  split
  · exact Or.inl rfl
  · rename_i i hfind
    have hfree := List.find?_some hfind
    rw [Bool.not_eq_true'] at hfree
    exact Or.inr ⟨i, hfree, rfl⟩

theorem unregisterGpio_slot (i : Fin 16) (h : (s.irqHandlers i).enabled = true) :
    (unregisterGpio (i.val + 1) s).2 =
      { s with irqHandlers := Function.update s.irqHandlers i ⟨0, 0, false, 0, 0, 0⟩ } := by
  have hfind : ((List.finRange 16).find? fun j => j.val + 1 = i.val + 1) = some i := by
    cases hfind : (List.finRange 16).find? fun j => j.val + 1 = i.val + 1 with
    | none => exact absurd (List.find?_eq_none.mp hfind i (List.mem_finRange i)) (by simp)
    | some j =>
      have hj := List.find?_some hfind
      rw [decide_eq_true_eq] at hj
      exact congrArg some (Fin.ext (Nat.succ.inj hj))
  unfold unregisterGpio
  rw [hfind]
  dsimp only
  rw [if_pos h]

end Slots

/-- A pass of the loop takes one event, or leaves the queue as it is, and keeps the handlers. -/
theorem iterate_frame (s : System) : (iterate s).handler = s.handler ∧
    (iterate s).port = if s.calls = [] then s.port else (peekEvent s.port).2 := by
  have hpasses := iterate_passes s
  generalize iterate s = t at hpasses
  cases hpasses with
  | idle h => exact ⟨rfl, (if_pos h).symm⟩
  | empty h _ => exact ⟨rfl, (if_neg (h ▸ List.cons_ne_nil _ _)).symm⟩
  | limit h _ _ => exact ⟨rfl, (if_neg (h ▸ List.cons_ne_nil _ _)).symm⟩
  | unregistered h _ _ _ => exact ⟨rfl, (if_neg (h ▸ List.cons_ne_nil _ _)).symm⟩
  | dispatched h _ _ _ => exact ⟨rfl, (if_neg (h ▸ List.cons_ne_nil _ _)).symm⟩

theorem peekEvent_irqHandlers (s : Port) : (peekEvent s).2.irqHandlers = s.irqHandlers := by
  unfold peekEvent
  split
  · rfl
  · rfl

/-! ## The history follows the program -/

/-- The history and the program's own tables tell the same. -/
structure Tracked (h : History) : Prop where
  sized : Sized h.system.port
  queue : h.pending.map Raised.event = queued h.system.port
  slots : ∀ i : Fin 16, (h.system.port.irqHandlers i).holds (h.current (i.val + 1))
  handlers : ∀ id, (h.system.handler id).isSome = (h.current id).isSome
  ids : ∀ id r, h.current id = some r → ∃ i : Fin 16, id = i.val + 1
  serials : ∀ id r, h.current id = some r → r.serial < h.count
  owners : ∀ e ∈ h.pending, ∃ r, e.BelongsTo r ∧ r.serial < h.count

namespace History
variable {h : History}

theorem next_system (h : History) (a : Action) : (h.next a).system = h.system.next a := by
  cases a with
  | interrupt timeUs gpio events => rfl
  | process maxCount => rfl
  | iterate =>
    unfold next
    dsimp only
    split
    · rfl
    · rfl
  | register pin eventType debounceMs =>
    unfold next
    dsimp only
    split
    · rfl
    · rfl
  | unregister id => rfl
  | enable id => rfl
  | disable id => rfl

theorem run_system (h : History) (actions : List Action) :
    (h.run actions).system = h.system.run actions := by
  induction actions generalizing h with
  | nil => rfl
  | cons a actions ih =>
    change ((h.next a).run actions).system = (h.system.next a).run actions
    rw [ih, next_system]

end History

theorem Tracked.initial : Tracked History.initial where
  sized := init_sized
  queue := by rw [History.initial, System.initial, queued_init]; rfl
  slots _ := rfl
  handlers _ := rfl
  ids _ _ h := absurd h (Option.some_ne_none _).symm
  serials _ _ h := absurd h (Option.some_ne_none _).symm
  owners _ h := absurd h List.not_mem_nil

section Tracking
variable {h : History}

/-- Where only the handlers' state changes, the history goes on to be right. -/
theorem Tracked.system (ht : Tracked h) {system : System} (hport : system.port = h.system.port)
    (hhandler : ∀ id, (system.handler id).isSome = (h.system.handler id).isSome) :
    Tracked { h with system } where
  sized := hport ▸ ht.sized
  queue := by
    rw [hport]
    exact ht.queue
  slots i := by
    rw [hport]
    exact ht.slots i
  handlers id := (hhandler id).trans (ht.handlers id)
  ids := ht.ids
  serials := ht.serials
  owners := ht.owners

theorem updateInstance_isSome (s : System) (id other : Nat) (method : IRQInstance → IRQInstance) :
    ((updateInstance id method s).handler other).isSome = (s.handler other).isSome := by
  unfold updateInstance
  dsimp only
  by_cases heq : other = id
  · subst heq
    rw [Function.update_self, Option.isSome_map]
  · rw [Function.update_of_ne heq]

theorem Tracked.interrupt (ht : Tracked h) (timeUs gpio events : UInt32) :
    Tracked (h.next (.interrupt timeUs gpio events)) := by
  obtain ⟨hsized, hqueued⟩ := ht.sized.gpioIrqCallback timeUs gpio events
  refine ⟨hsized, ?_, ?_, ht.handlers, ht.ids, ht.serials, ?_⟩
  · change (h.pending ++ (acceptedEvent timeUs gpio events h.system.port).map _).map Raised.event =
      queued (gpioIrqCallback timeUs gpio events h.system.port)
    rw [hqueued, List.map_append, ht.queue, List.map_map]
    exact congrArg _ (List.map_id _)
  · intro i
    exact gpioIrqCallback_holds timeUs gpio events i _ (ht.slots i)
  · intro e he
    rcases List.mem_append.mp he with he | he
    · exact ht.owners e he
    · obtain ⟨event, hevent, heq⟩ := List.mem_map.mp he
      subst heq
      obtain ⟨i, rfl, hfor⟩ := mem_acceptedEvent hevent
      unfold HandlerSlot.isFor at hfor
      rw [Bool.and_eq_true, Bool.and_eq_true, beq_iff_eq, bne_iff_ne] at hfor
      obtain ⟨⟨henabled, hpin⟩, hevents⟩ := hfor
      have hslot := ht.slots i
      cases hcurrent : h.current (i.val + 1) with
      | none =>
        rw [hcurrent] at hslot
        exact absurd (hslot.symm.trans henabled) Bool.false_ne_true
      | some r =>
        rw [hcurrent] at hslot
        refine ⟨r, ⟨rfl, hpin.symm.trans hslot.2.1, ?_⟩, ht.serials _ r hcurrent⟩
        rw [← hslot.2.2]
        exact hevents

theorem Tracked.peekEvent (ht : Tracked h) :
    (peekEvent h.system.port).1 = h.pending.head?.map Raised.event ∧
      queued (peekEvent h.system.port).2 = h.pending.tail.map Raised.event := by
  have hqueue := ht.queue.trans ht.sized.peekEvent.2
  cases hpending : h.pending with
  | nil =>
    rw [hpending] at hqueue
    obtain ⟨hnone, hrest⟩ := List.append_eq_nil_iff.mp hqueue.symm
    exact ⟨Option.toList_eq_nil_iff.mp hnone, hrest⟩
  | cons e pending =>
    rw [hpending, List.map_cons] at hqueue
    cases hpeek : (Irq.peekEvent h.system.port).1 with
    | none =>
      have hempty := ht.sized.peekEvent_none hpeek
      rw [← ht.queue, hpending] at hempty
      exact absurd hempty (List.cons_ne_nil _ _)
    | some event =>
      rw [hpeek] at hqueue
      obtain ⟨hevent, hrest⟩ := List.cons.inj hqueue
      exact ⟨congrArg some hevent.symm, hrest.symm⟩

theorem Tracked.next_iterate (ht : Tracked h) {e : Raised} {pending : List Raised}
    (hcalls : h.system.calls ≠ []) (hpending : h.pending = e :: pending) :
    h.next .iterate = { h with
        system := h.system.next .iterate
        pending
        dispatched := h.dispatched ++ h.receivers e } ∧
      queued (h.system.next .iterate).port = pending.map Raised.event := by
  obtain ⟨hpeek, hrest⟩ := ht.peekEvent
  rw [hpending] at hpeek hrest
  constructor
  · have htakes : History.takes h.system = some e.event := by
      obtain ⟨c, below, hcons⟩ := List.exists_cons_of_ne_nil hcalls
      rw [History.takes, hcons]
      exact hpeek
    unfold History.next
    dsimp only
    rw [htakes, hpending]
  · change queued (Irq.iterate h.system).port = _
    rw [(iterate_frame h.system).2, if_neg hcalls, hrest]
    rfl

/-- A pass of the loop takes the first of the pending events, or there is none to take. -/
theorem Tracked.iterate_cases (ht : Tracked h) :
    (h.next .iterate = { h with system := h.system.next .iterate } ∧
        queued (h.system.next .iterate).port = queued h.system.port) ∨
      ∃ e pending, h.pending = e :: pending ∧
        h.next .iterate = { h with
          system := h.system.next .iterate
          pending
          dispatched := h.dispatched ++ h.receivers e } ∧
        queued (h.system.next .iterate).port = pending.map Raised.event := by
  by_cases hcalls : h.system.calls = []
  · refine Or.inl ⟨?_, ?_⟩
    · unfold History.next History.takes
      dsimp only
      rw [hcalls]
    · change queued (Irq.iterate h.system).port = _
      rw [(iterate_frame h.system).2, if_pos hcalls]
  · cases hpending : h.pending with
    | nil =>
      obtain ⟨hpeek, hrest⟩ := ht.peekEvent
      rw [hpending] at hrest
      refine Or.inl ⟨?_, ?_⟩
      · unfold History.next
        dsimp only
        rw [hpending]
        split
        · rename_i heq
          cases heq
        · rfl
      · change queued (Irq.iterate h.system).port = _
        rw [(iterate_frame h.system).2, if_neg hcalls, hrest, ← ht.queue, hpending]
        rfl
    | cons e pending =>
      exact Or.inr ⟨e, pending, rfl, ht.next_iterate hcalls hpending⟩

theorem Tracked.iterate (ht : Tracked h) : Tracked (h.next .iterate) := by
  have hframe := iterate_frame h.system
  have hsized : Sized (h.system.next .iterate).port := by
    change Sized (Irq.iterate h.system).port
    rw [hframe.2]
    split
    · exact ht.sized
    · exact ht.sized.peekEvent.1
  have hslots (i : Fin 16) :
      ((h.system.next .iterate).port.irqHandlers i).holds (h.current (i.val + 1)) := by
    change ((Irq.iterate h.system).port.irqHandlers i).holds _
    rw [hframe.2]
    split
    · exact ht.slots i
    · rw [peekEvent_irqHandlers]
      exact ht.slots i
  have hhandlers (id : Nat) :
      ((h.system.next .iterate).handler id).isSome = (h.current id).isSome := by
    change ((Irq.iterate h.system).handler id).isSome = _
    rw [hframe.1]
    exact ht.handlers id
  rcases ht.iterate_cases with ⟨hnext, hqueue⟩ | ⟨e, pending, hpending, hnext, hqueue⟩
  · rw [hnext]
    exact ⟨hsized, ht.queue.trans hqueue.symm, hslots, hhandlers, ht.ids, ht.serials, ht.owners⟩
  · rw [hnext]
    refine ⟨hsized, hqueue.symm, hslots, hhandlers, ht.ids, ht.serials, ?_⟩
    intro d hd
    apply ht.owners
    rw [hpending]
    exact List.mem_cons_of_mem _ hd

theorem next_register (h : History) (pin eventType debounceMs : UInt32) :
    ((registerGpio pin eventType debounceMs h.system.port).1 = none ∧
        h.next (.register pin eventType debounceMs) =
          { h with system := h.system.next (.register pin eventType debounceMs) } ∧
        h.system.next (.register pin eventType debounceMs) = h.system) ∨
      ∃ i : Fin 16, (registerGpio pin eventType debounceMs h.system.port).1 = some (i.val + 1) ∧
        h.next (.register pin eventType debounceMs) = { h with
          system := h.system.next (.register pin eventType debounceMs)
          current := Function.update h.current (i.val + 1) (some ⟨h.count, pin, eventType⟩)
          count := h.count + 1 } ∧
        h.system.next (.register pin eventType debounceMs) = { h.system with
          port := { h.system.port with
            irqHandlers := Function.update h.system.port.irqHandlers i
              ⟨pin, eventMask eventType, true, debounceMs, 0, 0⟩ }
          handler := Function.update h.system.handler (i.val + 1) (some ⟨true⟩) } := by
  unfold History.next System.next Irq.register
  dsimp only
  rcases registerGpio_cases pin eventType debounceMs h.system.port with heq | ⟨i, -, heq⟩
  · rw [heq]
    exact Or.inl ⟨rfl, rfl, rfl⟩
  · rw [heq]
    exact Or.inr ⟨i, rfl, rfl, rfl⟩

/-- Slot `i`, the handler of its id and the registration that holds it change together. -/
theorem Tracked.replace (ht : Tracked h) {i : Fin 16} {slot : HandlerSlot} {irq : Option IRQInstance}
    {current : Option Registration} {count : Nat} (hslot : slot.holds current) (hirq : irq.isSome = current.isSome)
    (hcount : h.count ≤ count) (hserial : ∀ r, current = some r → r.serial < count) :
    Tracked { h with
      system := { h.system with
        port := { h.system.port with irqHandlers := Function.update h.system.port.irqHandlers i slot }
        handler := Function.update h.system.handler (i.val + 1) irq }
      current := Function.update h.current (i.val + 1) current
      count } where
  sized := ⟨ht.sized.head, ht.sized.tail⟩
  queue := ht.queue
  slots j := by
    dsimp only
    by_cases hij : j = i
    · rw [hij, Function.update_self, Function.update_self]
      exact hslot
    · have hne : j.val + 1 ≠ i.val + 1 := fun heq => hij (Fin.ext (by omega))
      rw [Function.update_of_ne hij, Function.update_of_ne hne]
      exact ht.slots j
  handlers id := by
    dsimp only
    by_cases hid : id = i.val + 1
    · rw [hid, Function.update_self, Function.update_self]
      exact hirq
    · rw [Function.update_of_ne hid, Function.update_of_ne hid]
      exact ht.handlers id
  ids id r hcurrent := by
    dsimp only at hcurrent
    by_cases hid : id = i.val + 1
    · exact ⟨i, hid⟩
    · rw [Function.update_of_ne hid] at hcurrent
      exact ht.ids id r hcurrent
  serials id r hcurrent := by
    dsimp only at hcurrent
    by_cases hid : id = i.val + 1
    · rw [hid, Function.update_self] at hcurrent
      exact hserial r hcurrent
    · rw [Function.update_of_ne hid] at hcurrent
      exact (ht.serials id r hcurrent).trans_le hcount
  owners e he := by
    obtain ⟨r, hbelongs, hlt⟩ := ht.owners e he
    exact ⟨r, hbelongs, hlt.trans_le hcount⟩

theorem Tracked.register (ht : Tracked h) (pin eventType debounceMs : UInt32) :
    Tracked (h.next (.register pin eventType debounceMs)) := by
  rcases next_register h pin eventType debounceMs with ⟨-, hnext, hsystem⟩ | ⟨i, -, hnext, hsystem⟩
  · rw [hnext, hsystem]
    exact ht
  · rw [hnext, hsystem]
    refine ht.replace ?_ rfl (Nat.le_succ _) ?_
    · exact ⟨rfl, rfl, rfl⟩
    · rintro r ⟨⟩
      exact Nat.lt_succ_self _

theorem Tracked.unregister (ht : Tracked h) (id : Nat) : Tracked (h.next (.unregister id)) := by
  unfold History.next System.next Irq.unregister
  dsimp only
  have hsome := ht.handlers id
  cases hhandler : h.system.handler id with
  | none =>
    rw [hhandler] at hsome
    have hnone : h.current id = none := Option.isNone_iff_eq_none.mp (by
      rw [← Option.not_isSome, ← hsome]; rfl)
    have hsame : Function.update h.current id none = h.current := by
      rw [← hnone, Function.update_eq_self]
    dsimp only
    rw [hsame]
    exact ht.system rfl fun _ => rfl
  | some irq =>
    rw [hhandler] at hsome
    obtain ⟨r, hr⟩ := Option.isSome_iff_exists.mp hsome.symm
    obtain ⟨i, rfl⟩ := ht.ids id r hr
    have hslot := ht.slots i
    rw [hr] at hslot
    dsimp only
    rw [unregisterGpio_slot i hslot.1]
    exact ht.replace rfl rfl le_rfl fun r hr => by cases hr

theorem Tracked.next (ht : Tracked h) (a : Action) : Tracked (h.next a) := by
  cases a with
  | interrupt timeUs gpio events => exact ht.interrupt timeUs gpio events
  | process maxCount => exact ht.system rfl fun _ => rfl
  | iterate => exact ht.iterate
  | register pin eventType debounceMs => exact ht.register pin eventType debounceMs
  | unregister id => exact ht.unregister id
  | enable id => exact ht.system rfl fun other => updateInstance_isSome _ id other _
  | disable id => exact ht.system rfl fun other => updateInstance_isSome _ id other _

/-! ## Clean slots -/

/-- The events that are queued for the handlers in `HANDLER` were raised for their registrations. -/
def Unmixed (h : History) : Prop :=
  ∀ e ∈ h.pending, ∀ r, h.current e.event.irqId = some r → e.owner = some r

theorem Unmixed.next (ht : Tracked h) (hu : Unmixed h) {a : Action}
    (hclean : takesCleanSlot h.system a = true) : Unmixed (h.next a) := by
  cases a with
  | interrupt timeUs gpio events =>
    intro e he r hr
    rcases List.mem_append.mp he with he | he
    · exact hu e he r hr
    · obtain ⟨event, -, heq⟩ := List.mem_map.mp he
      subst heq
      exact hr
  | process maxCount => exact hu
  | iterate =>
    rcases ht.iterate_cases with ⟨hnext, -⟩ | ⟨e, pending, hpending, hnext, -⟩
    · rw [hnext]
      exact hu
    · rw [hnext]
      intro d hd
      apply hu d
      rw [hpending]
      exact List.mem_cons_of_mem _ hd
  | register pin eventType debounceMs =>
    unfold takesCleanSlot at hclean
    rcases next_register h pin eventType debounceMs with ⟨-, hnext, -⟩ | ⟨i, hid, hnext, -⟩
    · rw [hnext]
      exact hu
    · dsimp only at hclean
      rw [hid, List.all_eq_true, ← ht.queue] at hclean
      rw [hnext]
      intro e he r hr
      have hid := hclean e.event (List.mem_map_of_mem he)
      rw [bne_iff_ne, Ne, Option.some.injEq] at hid
      have hr : Function.update h.current (i.val + 1) _ e.event.irqId = some r := hr
      rw [Function.update_of_ne fun heq => hid heq.symm] at hr
      exact hu e he r hr
  | unregister id =>
    intro e he r hr
    have hr : Function.update h.current id none e.event.irqId = some r := hr
    by_cases hid : e.event.irqId = id
    · rw [hid, Function.update_self] at hr
      cases hr
    · rw [Function.update_of_ne hid] at hr
      exact hu e he r hr
  | enable id => exact hu
  | disable id => exact hu

theorem OwnHandlers.next (ht : Tracked h) (hu : Unmixed h) (ho : OwnHandlers h) (a : Action) :
    OwnHandlers (h.next a) := by
  cases a with
  | interrupt timeUs gpio events => exact ho
  | process maxCount => exact ho
  | iterate =>
    rcases ht.iterate_cases with ⟨hnext, -⟩ | ⟨e, pending, hpending, hnext, -⟩
    · rw [hnext]
      exact ho
    · rw [hnext]
      intro d hd
      rcases List.mem_append.mp hd with hd | hd
      · exact ho d hd
      · unfold History.receivers at hd
        split at hd
        · exact absurd hd List.not_mem_nil
        · obtain ⟨r, hr, rfl⟩ := List.mem_map.mp hd
          have he : e ∈ h.pending := by
            rw [hpending]
            exact List.mem_cons_self
          obtain ⟨r', hbelongs, -⟩ := ht.owners e he
          have howner := hu e he r (Option.mem_toList.mp hr)
          rw [hbelongs.1, Option.some.injEq] at howner
          exact howner ▸ hbelongs
  | register pin eventType debounceMs =>
    rcases next_register h pin eventType debounceMs with ⟨-, hnext, -⟩ | ⟨i, -, hnext, -⟩
    · rw [hnext]
      exact ho
    · rw [hnext]
      exact ho
  | unregister id => exact ho
  | enable id => exact ho
  | disable id => exact ho

theorem OwnHandlers.run (ht : Tracked h) (hu : Unmixed h) (ho : OwnHandlers h)
    {actions : List Action} (hclean : takesCleanSlots h.system actions = true) :
    OwnHandlers (h.run actions) := by
  induction actions generalizing h with
  | nil => exact ho
  | cons a actions ih =>
    unfold takesCleanSlots at hclean
    rw [Bool.and_eq_true, ← History.next_system] at hclean
    exact ih (ht.next a) (hu.next ht hclean.1) (ho.next ht hu a) hclean.2

/-- A pass of the loop that is not at its limit leaves its call in the loop. -/
theorem iterate_calls {s : System} {c : ProcessCall} {below : List ProcessCall}
    (hcalls : s.calls = c :: below) (hpeek : (peekEvent s.port).1 ≠ none)
    (hlimit : ¬ c.maxCount ≤ c.count) :
    ∃ count, (iterate s).calls = ⟨c.maxCount, count⟩ :: below ∧ count ≤ c.count + 1 := by
  have hpasses := iterate_passes s
  generalize iterate s = t at hpasses
  cases hpasses with
  | idle h => rw [hcalls] at h; cases h
  | empty _ h => exact absurd h hpeek
  | limit h _ hle =>
    rw [hcalls] at h
    cases h
    exact absurd hle hlimit
  | unregistered _ _ _ _ => exact ⟨c.count, hcalls, Nat.le_succ _⟩
  | dispatched h _ _ _ =>
    rw [hcalls] at h
    cases h
    exact ⟨c.count + 1, rfl, Nat.le_refl _⟩

/-- A call of `process` with a limit that is high enough comes to every pending event. -/
theorem Tracked.iterates (ht : Tracked h) {c : ProcessCall} {below : List ProcessCall}
    {before rest : List Raised} (hcalls : h.system.calls = c :: below)
    (hpending : h.pending = before ++ rest) (hroom : (c.count + before.length : Int) < c.maxCount) :
    ∃ count, (h.run (List.replicate before.length .iterate)).system.calls =
        ⟨c.maxCount, count⟩ :: below ∧ (count : Int) < c.maxCount ∧
      Tracked (h.run (List.replicate before.length .iterate)) ∧
      (h.run (List.replicate before.length .iterate)).pending = rest ∧
      (h.run (List.replicate before.length .iterate)).current = h.current := by
  induction before generalizing h c with
  | nil => exact ⟨c.count, hcalls, by simpa using hroom, ht, hpending, rfl⟩
  | cons e before ih =>
    rw [List.length_cons] at hroom
    have hpeek : (Irq.peekEvent h.system.port).1 ≠ none := by
      rw [ht.peekEvent.1, hpending]
      exact Option.some_ne_none _
    obtain ⟨count, hcalls', hle⟩ := iterate_calls hcalls hpeek (by omega)
    have hne : h.system.calls ≠ [] := hcalls ▸ List.cons_ne_nil _ _
    obtain ⟨hnext, -⟩ := ht.next_iterate hne hpending
    have hstep : (h.next .iterate).pending = before ++ rest := by rw [hnext]; rfl
    have hcurrent : (h.next .iterate).current = h.current := by rw [hnext]
    have hsystem : (h.next .iterate).system.calls = ⟨c.maxCount, count⟩ :: below := by
      rw [History.next_system]
      exact hcalls'
    have hrest := ih (ht.next .iterate) hsystem hstep (by simp only; omega)
    rw [hcurrent] at hrest
    exact hrest

/-- Where a registration takes an id of which an event is left, `process` can go on to hand it that
event. -/
theorem Tracked.misdelivers (ht : Tracked h) {a : Action}
    (hmixed : takesCleanSlot h.system a = false) :
    ∃ actions, ¬ OwnHandlers ((h.next a).run actions) := by
  cases a with
  | register pin eventType debounceMs =>
    unfold takesCleanSlot at hmixed
    dsimp only at hmixed
    rcases next_register h pin eventType debounceMs with ⟨hid, -, -⟩ | ⟨i, hid, hnext, -⟩
    · rw [hid] at hmixed
      simp at hmixed
    · rw [hid, List.all_eq_false, ← ht.queue] at hmixed
      obtain ⟨event, hevent, heq⟩ := hmixed
      obtain ⟨e, he, rfl⟩ := List.mem_map.mp hevent
      rw [bne_iff_ne, Ne, not_not, Option.some.injEq] at heq
      obtain ⟨before, after, hsplit⟩ := List.append_of_mem he
      obtain ⟨r, hbelongs, hserial⟩ := ht.owners e he
      have htracked := ht.next (.register pin eventType debounceMs)
      have hpending : (h.next (.register pin eventType debounceMs)).pending = h.pending := by
        rw [hnext]
      have hcurrent : (h.next (.register pin eventType debounceMs)).current e.event.irqId =
          some ⟨h.count, pin, eventType⟩ := by
        rw [hnext, ← heq]
        exact Function.update_self ..
      generalize h.next (.register pin eventType debounceMs) = g at htracked hpending hcurrent
      -- a call whose limit is over the number of the events before it
      let process : Action := .process (before.length + 1)
      obtain ⟨count, hcalls, hroom, hpassed, hrest, hkept⟩ :=
        (htracked.next process).iterates (c := ⟨before.length + 1, 0⟩) rfl
          (hpending.trans hsplit) (by simp only; omega)
      refine ⟨process :: (List.replicate before.length .iterate ++ [.iterate]), ?_⟩
      intro ho
      have hrun : g.run (process :: (List.replicate before.length .iterate ++ [.iterate])) =
          ((g.next process).run (List.replicate before.length .iterate)).next .iterate := by
        rw [History.run, List.foldl_cons, List.foldl_append]
        rfl
      rw [hrun] at ho
      generalize (g.next process).run (List.replicate before.length .iterate) = k at *
      rw [(hpassed.next_iterate (hcalls ▸ List.cons_ne_nil _ _) hrest).1] at ho
      have hdispatched : (e, (⟨h.count, pin, eventType⟩ : Registration)) ∈ k.receivers e := by
        unfold History.receivers History.atLimit
        rw [hcalls, List.head?_cons, Option.any_some, if_neg (by simpa using hroom), hkept]
        exact List.mem_map_of_mem (Option.mem_toList.mpr hcurrent)
      have hown := (ho _ (List.mem_append_right _ hdispatched)).1
      rw [hbelongs.1, Option.some.injEq] at hown
      rw [hown] at hserial
      exact absurd hserial (Nat.lt_irrefl _)
  | interrupt _ _ _ => exact absurd hmixed Bool.false_ne_true.symm
  | process _ => exact absurd hmixed Bool.false_ne_true.symm
  | iterate => exact absurd hmixed Bool.false_ne_true.symm
  | unregister _ => exact absurd hmixed Bool.false_ne_true.symm
  | enable _ => exact absurd hmixed Bool.false_ne_true.symm
  | disable _ => exact absurd hmixed Bool.false_ne_true.symm

/-- What a pass of the loop adds to the log is dispatched, if the callback is called. -/
theorem Tracked.iterate_passed (ht : Tracked h)
    (hs : (passed h.system.log).Sublist (h.dispatched.map fun d => d.1.event)) :
    (passed (h.next .iterate).system.log).Sublist
      ((h.next .iterate).dispatched.map fun d => d.1.event) := by
  rw [History.next_system]
  change (passed (Irq.iterate h.system).log).Sublist _
  have hpasses := iterate_passes h.system
  have hmore : (passed h.system.log).Sublist
      ((h.next .iterate).dispatched.map fun d => d.1.event) := by
    rcases ht.iterate_cases with ⟨hnext, -⟩ | ⟨e, pending, -, hnext, -⟩
    · rw [hnext]
      exact hs
    · rw [hnext, List.map_append]
      exact hs.trans (List.sublist_append_left ..)
  generalize Irq.iterate h.system = t at hpasses
  cases hpasses with
  | idle _ => exact hmore
  | empty _ _ => exact hmore
  | limit _ _ _ => exact hmore
  | @unregistered c below event _ _ _ _ =>
    rw [passed, List.filter_append, List.map_append]
    exact (List.append_nil _).symm ▸ hmore
  | @dispatched c below event irq hcalls hpeek hlimit hirq =>
    have hhead := ht.peekEvent.1
    rw [hpeek] at hhead
    cases hpending : h.pending with
    | nil =>
      rw [hpending] at hhead
      cases hhead
    | cons e pending =>
      rw [hpending] at hhead
      have hevent : event = e.event := Option.some.inj hhead
      have hsome := ht.handlers event.irqId
      rw [hirq] at hsome
      obtain ⟨r, hr⟩ := Option.isSome_iff_exists.mp hsome.symm
      have hreceivers : h.receivers e = [(e, r)] := by
        unfold History.receivers History.atLimit
        rw [hcalls, List.head?_cons, Option.any_some, if_neg (by simpa using hlimit), ← hevent, hr]
        rfl
      rw [(ht.next_iterate (hcalls ▸ List.cons_ne_nil _ _) hpending).1, hreceivers, List.map_append,
        passed, List.filter_append, List.map_append]
      refine hs.append ?_
      rw [hevent]
      cases irq.enabled with
      | true => exact List.Sublist.refl _
      | false => exact List.nil_sublist _

theorem Tracked.run (ht : Tracked h) (actions : List Action) : Tracked (h.run actions) := by
  induction actions generalizing h with
  | nil => exact ht
  | cons a actions ih => exact ih (ht.next a)

/-- Every event that a callback is called for is among the dispatched ones. -/
theorem Tracked.run_passed (ht : Tracked h)
    (hs : (passed h.system.log).Sublist (h.dispatched.map fun d => d.1.event))
    (actions : List Action) : (passed (h.run actions).system.log).Sublist
      ((h.run actions).dispatched.map fun d => d.1.event) := by
  induction actions generalizing h with
  | nil => exact hs
  | cons a actions ih =>
    refine ih (ht.next a) ?_
    cases a with
    | interrupt timeUs gpio events => exact hs
    | process maxCount => exact hs
    | iterate => exact ht.iterate_passed hs
    | register pin eventType debounceMs =>
      rcases next_register h pin eventType debounceMs with ⟨-, hnext, hsame⟩ | ⟨i, -, hnext, hsame⟩
      · rw [hnext, hsame]
        exact hs
      · rw [hnext, hsame]
        exact hs
    | unregister id =>
      rw [History.next_system]
      have hlog : (h.system.next (.unregister id)).log = h.system.log :=
        (unregister_apart (s := h.system) id).log
      rw [hlog]
      exact hs
    | enable id => exact hs
    | disable id => exact hs

end Tracking

theorem passed_dispatched (actions : List Action) :
    (passed (System.initial.run actions).log).Sublist
      ((History.initial.run actions).dispatched.map fun d => d.1.event) := by
  have hpassed := Tracked.initial.run_passed (List.Sublist.refl _) actions
  rw [History.run_system] at hpassed
  exact hpassed

/-- In every run in which no registration takes an id of which an event is left, events reach only
the handlers they were raised for. -/
theorem own_handlers (actions : List Action)
    (hclean : takesCleanSlots System.initial actions = true) :
    OwnHandlers (History.initial.run actions) :=
  OwnHandlers.run Tracked.initial (fun _ he => absurd he List.not_mem_nil)
    (fun _ hd => absurd hd List.not_mem_nil) hclean

/-- Where events reach only their own handlers whatever comes next, no event of the id is left. -/
theorem takesCleanSlot_of_own_handlers (actions : List Action) (a : Action)
    (h : ∀ more, OwnHandlers (History.initial.run (actions ++ a :: more))) :
    takesCleanSlot (System.initial.run actions) a = true := by
  by_contra hmixed
  rw [Bool.not_eq_true] at hmixed
  have hsystem : (History.initial.run actions).system = System.initial.run actions :=
    History.run_system _ _
  rw [← hsystem] at hmixed
  obtain ⟨more, hmore⟩ := (Tracked.initial.run actions).misdelivers hmixed
  apply hmore
  have hrun := h more
  rw [History.run, List.foldl_append, List.foldl_cons] at hrun
  exact hrun

/-- The event is dispatched before its id is taken again. -/
theorem own_handlers_clean :
    OwnHandlers (History.initial.run [.register 15 4 0, .interrupt 1000 15 4, .process 5, .iterate,
      .unregister 1, .register 16 4 0, .interrupt 2000 16 4, .iterate]) :=
  own_handlers _ (by decide)

/-- The event of pin 15 is still queued when pin 16 gets its id. -/
def reusesSlot : List Action :=
  [.register 15 4 0, .interrupt 1000 15 4, .unregister 1, .register 16 4 0, .process 5, .iterate]

theorem stale_event_dispatched : ¬ OwnHandlers (History.initial.run reusesSlot) := by decide

end PicoRuby.Irq
