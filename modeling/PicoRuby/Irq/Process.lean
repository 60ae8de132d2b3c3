import PicoRuby.Irq.EventQueue
import PicoRuby.Shared.Runs
import Mathlib.Data.List.Basic

/-!
# IRQ.process

The methods of irq.rb over the event queue. The loop of `process` takes an event from the queue
before it looks at its limit, and an event that it takes at the limit is gone.
-/

namespace PicoRuby.Irq

open Shared

set_option autoImplicit false

/-- What is read of an `IRQInstance`, its callback and the callback's other arguments apart. -/
structure IRQInstance where
  enabled : Bool
deriving DecidableEq, Repr

/-- `IRQInstance#enable`, as it stands. -/
def IRQInstance.enable (irq : IRQInstance) : IRQInstance := { irq with enabled := false }

/-- `IRQInstance#disable`, as it stands. -/
def IRQInstance.disable (irq : IRQInstance) : IRQInstance := { irq with enabled := true }

/-- A call of `process` that is in its loop. -/
structure ProcessCall where
  maxCount : Int
  count : Nat
deriving DecidableEq, Repr

/-- `handler` is `HANDLER`. The calls of `process` are nested where a callback makes one; `ended` are
the ones that have returned. `accepted` are the events that were put into the queue, and `log` the
ones that were looked up in `HANDLER`, each with whether its callback was called. -/
structure System where
  port : Port
  handler : Nat → Option IRQInstance
  calls : List ProcessCall
  ended : List ProcessCall
  accepted : List Event
  log : List (Event × Bool)

def System.initial : System := ⟨init, fun _ => none, [], [], [], []⟩

/-! ## irq.rb -/

/-- `IRQ.register`; the class method raises where no slot is free. -/
def register (pin eventType debounceMs : UInt32) (s : System) : System :=
  match registerGpio pin eventType debounceMs s.port with
  | (none, port) => { s with port }
  | (some id, port) => { s with port, handler := Function.update s.handler id (some ⟨true⟩) }

/-- `IRQ.unregister`; it raises where the id is not registered. -/
def unregister (id : Nat) (s : System) : System :=
  match s.handler id with
  | none => s
  | some _ => { s with
      port := (unregisterGpio id s.port).2
      handler := Function.update s.handler id none }

/-- A method of the instance with an id. -/
def updateInstance (id : Nat) (method : IRQInstance → IRQInstance) (s : System) : System :=
  { s with handler := Function.update s.handler id ((s.handler id).map method) }

/-- The innermost call of `process` returns. -/
def endCall (s : System) : System :=
  match s.calls with
  | [] => s
  | c :: below => { s with calls := below, ended := s.ended ++ [c] }

/-- One pass of the loop of `IRQ.process`. -/
def iterate (s : System) : System :=
  match s.calls with
  | [] => s
  | c :: below =>
    match peekEvent s.port with
    | (none, port) => endCall { s with port }
    | (some event, port) =>
      if c.maxCount ≤ c.count then endCall { s with port }
      else
        match s.handler event.irqId with
        | none => { s with port, log := s.log ++ [(event, false)] }
        | some irq => { s with
            port
            calls := { c with count := c.count + 1 } :: below
            log := s.log ++ [(event, irq.enabled)] }

/-- `process` is the start of a call, and `iterate` a pass of the loop of the innermost one. -/
inductive Action where
  | interrupt (timeUs gpio events : UInt32)
  | process (maxCount : Int)
  | iterate
  | register (pin eventType debounceMs : UInt32)
  | unregister (id : Nat)
  | enable (id : Nat)
  | disable (id : Nat)

def System.next (s : System) : Action → System
  | .interrupt timeUs gpio events => { s with
      port := gpioIrqCallback timeUs gpio events s.port
      accepted := s.accepted ++ acceptedEvent timeUs gpio events s.port }
  | .process maxCount => { s with calls := ⟨maxCount, 0⟩ :: s.calls }
  | .iterate => Irq.iterate s
  | .register pin eventType debounceMs => Irq.register pin eventType debounceMs s
  | .unregister id => Irq.unregister id s
  | .enable id => updateInstance id IRQInstance.enable s
  | .disable id => updateInstance id IRQInstance.disable s

def System.run (s : System) (actions : List Action) : System := actions.foldl System.next s

/-! ## What is promised -/

/-- An event for this handler would be passed to its callback. -/
def System.Listens (s : System) (id : Nat) : Prop := ∃ irq, s.handler id = some irq ∧ irq.enabled

/-- The handler stays registered and enabled. -/
def StaysListening (s : System) (actions : List Action) (id : Nat) : Prop :=
  ∀ as bs, actions = as ++ bs → (s.run as).Listens id

def forHandler (id : Nat) (events : List Event) : List Event := events.filter fun e => e.irqId = id

/-- The events that were passed to callbacks. -/
def passed (log : List (Event × Bool)) : List Event := (log.filter Prod.snd).map Prod.fst

/-- At every point of the run, the events accepted so far have been dealt with once and in order, or
are queued. While a handler stays registered and enabled, the events for it that are queued at
first or accepted meanwhile are passed to it, once and in order, or still queued. And no call of
`process` dispatches more events than it may. -/
structure DeliversOnce (actions : List Action) : Prop where
  conserved : ∀ as bs, actions = as ++ bs →
    (System.initial.run as).log.map Prod.fst ++ queued (System.initial.run as).port =
      (System.initial.run as).accepted
  handed : ∀ as bs cs id, actions = as ++ bs ++ cs →
    StaysListening (System.initial.run as) bs id →
    ∃ log new, (System.initial.run (as ++ bs)).log = (System.initial.run as).log ++ log ∧
      (System.initial.run (as ++ bs)).accepted = (System.initial.run as).accepted ++ new ∧
      forHandler id (queued (System.initial.run as).port) ++ forHandler id new =
        forHandler id (passed log) ++ forHandler id (queued (System.initial.run (as ++ bs)).port)
  bounded : ∀ as bs, actions = as ++ bs →
    ∀ c ∈ (System.initial.run as).calls ++ (System.initial.run as).ended,
      (c.count : Int) ≤ max c.maxCount 0

/-- The pass of a loop that has come to its limit finds nothing queued. -/
def EndsEmpty (s : System) (a : Action) : Prop :=
  a = .iterate → ∀ c ∈ s.calls.head?, c.maxCount ≤ c.count → queued s.port = []

/-- No call of `process` comes to its limit while events are queued. -/
def NeverCutsOff (actions : List Action) : Prop :=
  ∀ as a bs, actions = as ++ a :: bs → EndsEmpty (System.initial.run as) a

/-! ## Steps -/

section Steps
variable {s : System} {a : Action}

/-- The events accepted are the ones dealt with and the ones queued. -/
structure Conserving (s : System) : Prop where
  sized : Sized s.port
  queue : s.log.map Prod.fst ++ queued s.port = s.accepted

/-- What a step adds to the events dealt with and to the accepted ones. An event that is dealt with
goes to its callback if its handler listens. -/
structure Extends (s t : System) : Prop where
  exists_log : ∃ log, t.log = s.log ++ log ∧ ∀ e ∈ log, s.Listens e.1.irqId → e.2 = true
  exists_new : ∃ new, t.accepted = s.accepted ++ new

theorem Extends.same {t : System} (hlog : t.log = s.log) (haccepted : t.accepted = s.accepted) :
    Extends s t :=
  ⟨⟨[], by rw [hlog, List.append_nil], fun _ h => absurd h List.not_mem_nil⟩,
    ⟨[], by rw [haccepted, List.append_nil]⟩⟩

theorem Conserving.initial : Conserving System.initial := by
  refine ⟨init_sized, ?_⟩
  rw [System.initial, queued_init]
  rfl

/-- The queue of the port is the same one. -/
def SameQueue (p q : Port) : Prop :=
  q.eventQueue = p.eventQueue ∧ q.queueHead = p.queueHead ∧ q.queueTail = p.queueTail

theorem SameQueue.sized {p q : Port} (h : SameQueue p q) (hp : Sized p) : Sized q :=
  ⟨h.2.1 ▸ hp.head, h.2.2 ▸ hp.tail⟩

theorem SameQueue.queued {p q : Port} (h : SameQueue p q) : queued q = queued p := by
  unfold Irq.queued
  rw [h.1, h.2.1, h.2.2]

theorem registerGpio_queue (pin eventType debounceMs : UInt32) (p : Port) :
    SameQueue p (registerGpio pin eventType debounceMs p).2 := by
  unfold registerGpio
  split
  · exact ⟨rfl, rfl, rfl⟩
  · exact ⟨rfl, rfl, rfl⟩

theorem unregisterGpio_queue (id : Nat) (p : Port) : SameQueue p (unregisterGpio id p).2 := by
  unfold unregisterGpio
  split
  · exact ⟨rfl, rfl, rfl⟩
  · split
    · exact ⟨rfl, rfl, rfl⟩
    · exact ⟨rfl, rfl, rfl⟩

/-- What does not concern the queue. -/
structure Apart (s t : System) : Prop where
  port : SameQueue s.port t.port
  calls : t.calls = s.calls
  ended : t.ended = s.ended
  accepted : t.accepted = s.accepted
  log : t.log = s.log

theorem Apart.conserving {t : System} (h : Apart s t) (hs : Conserving s) : Conserving t :=
  ⟨h.port.sized hs.sized, by rw [h.log, h.port.queued, h.accepted]; exact hs.queue⟩

theorem register_apart (pin eventType debounceMs : UInt32) :
    Apart s (register pin eventType debounceMs s) := by
  have hport := registerGpio_queue pin eventType debounceMs s.port
  unfold register
  generalize registerGpio pin eventType debounceMs s.port = result at hport
  obtain ⟨id?, port⟩ := result
  cases id? with
  | none => exact ⟨hport, rfl, rfl, rfl, rfl⟩
  | some id => exact ⟨hport, rfl, rfl, rfl, rfl⟩

theorem unregister_apart (id : Nat) : Apart s (unregister id s) := by
  unfold unregister
  cases s.handler id with
  | none => exact ⟨⟨rfl, rfl, rfl⟩, rfl, rfl, rfl, rfl⟩
  | some irq => exact ⟨unregisterGpio_queue id s.port, rfl, rfl, rfl, rfl⟩

theorem updateInstance_apart (id : Nat) (method : IRQInstance → IRQInstance) :
    Apart s (updateInstance id method s) := ⟨⟨rfl, rfl, rfl⟩, rfl, rfl, rfl, rfl⟩

/-- What a pass of the loop comes to: it ends its call, with nothing queued or at its limit, or it
deals with the first event. -/
inductive Passes (s : System) : System → Prop where
  | idle (h : s.calls = []) : Passes s s
  | empty {c : ProcessCall} {below : List ProcessCall} (h : s.calls = c :: below)
      (hpeek : (peekEvent s.port).1 = none) :
      Passes s { s with port := (peekEvent s.port).2, calls := below, ended := s.ended ++ [c] }
  | limit {c : ProcessCall} {below : List ProcessCall} {event : Event} (h : s.calls = c :: below)
      (hpeek : (peekEvent s.port).1 = some event) (hlimit : c.maxCount ≤ c.count) :
      Passes s { s with port := (peekEvent s.port).2, calls := below, ended := s.ended ++ [c] }
  | unregistered {c : ProcessCall} {below : List ProcessCall} {event : Event}
      (h : s.calls = c :: below) (hpeek : (peekEvent s.port).1 = some event)
      (hlimit : ¬ c.maxCount ≤ c.count) (hnone : s.handler event.irqId = none) :
      Passes s { s with port := (peekEvent s.port).2, log := s.log ++ [(event, false)] }
  | dispatched {c : ProcessCall} {below : List ProcessCall} {event : Event} {irq : IRQInstance}
      (h : s.calls = c :: below) (hpeek : (peekEvent s.port).1 = some event)
      (hlimit : ¬ c.maxCount ≤ c.count) (hirq : s.handler event.irqId = some irq) :
      Passes s { s with
        port := (peekEvent s.port).2
        calls := { c with count := c.count + 1 } :: below
        log := s.log ++ [(event, irq.enabled)] }

theorem iterate_passes (s : System) : Passes s (iterate s) := by
  unfold iterate
  split
  · rename_i h
    exact .idle h
  · rename_i c below h
    split
    · rename_i port heq
      have hport : port = (peekEvent s.port).2 := by rw [heq]
      unfold endCall
      dsimp only
      rw [h, hport]
      exact .empty h (by rw [heq])
    · rename_i event port heq
      have hport : port = (peekEvent s.port).2 := by rw [heq]
      rw [hport]
      split
      · rename_i hlimit
        unfold endCall
        dsimp only
        rw [h]
        exact .limit h (by rw [heq]) hlimit
      · rename_i hlimit
        split
        · rename_i hnone
          exact .unregistered h (by rw [heq]) hlimit hnone
        · rename_i irq hirq
          exact .dispatched h (by rw [heq]) hlimit hirq

theorem Conserving.deals (h : Conserving s) {event : Event} {b : Bool}
    (hpeek : (peekEvent s.port).1 = some event) :
    (s.log ++ [(event, b)]).map Prod.fst ++ queued (peekEvent s.port).2 = s.accepted := by
  have htake := h.sized.peekEvent.2
  rw [hpeek] at htake
  rw [List.map_append, List.append_assoc, ← h.queue, htake]
  rfl

/-- A step that does not end a call with events queued conserves them. -/
theorem Conserving.next (h : Conserving s) (hends : EndsEmpty s a) : Conserving (s.next a) := by
  cases a with
  | interrupt timeUs gpio events =>
    obtain ⟨hsized, hqueued⟩ := h.sized.gpioIrqCallback timeUs gpio events
    refine ⟨hsized, ?_⟩
    change s.log.map Prod.fst ++ queued (gpioIrqCallback timeUs gpio events s.port) = _
    rw [hqueued, ← List.append_assoc, h.queue]
    rfl
  | process maxCount => exact ⟨h.sized, h.queue⟩
  | iterate =>
    change Conserving (Irq.iterate s)
    have hpasses := iterate_passes s
    generalize Irq.iterate s = t at hpasses
    cases hpasses with
    | idle _ => exact h
    | @empty c below _ hpeek =>
      have htake := h.sized.peekEvent.2
      rw [hpeek] at htake
      refine ⟨h.sized.peekEvent.1, ?_⟩
      rw [← h.queue, htake]
      rfl
    | @limit c below event hcalls hpeek hlimit =>
      have hempty := hends rfl c (by rw [hcalls]; rfl) hlimit
      have htake := h.sized.peekEvent.2
      rw [hempty, hpeek] at htake
      exact absurd htake nofun
    | unregistered _ hpeek _ _ => exact ⟨h.sized.peekEvent.1, h.deals hpeek⟩
    | dispatched _ hpeek _ _ => exact ⟨h.sized.peekEvent.1, h.deals hpeek⟩
  | register pin eventType debounceMs => exact (register_apart pin eventType debounceMs).conserving h
  | unregister id => exact (unregister_apart id).conserving h
  | enable id => exact (updateInstance_apart id _).conserving h
  | disable id => exact (updateInstance_apart id _).conserving h

theorem Conserving.endsEmpty (h : Conserving s)
    (hnext : (s.next a).log.map Prod.fst ++ queued (s.next a).port = (s.next a).accepted) :
    EndsEmpty s a := by
  rintro rfl c hc hlimit
  have hpasses := iterate_passes s
  have hnext : (Irq.iterate s).log.map Prod.fst ++ queued (Irq.iterate s).port =
    (Irq.iterate s).accepted := hnext
  generalize Irq.iterate s = t at hpasses hnext
  have htake := h.sized.peekEvent.2
  cases hpasses with
  | idle hcalls =>
    rw [hcalls] at hc
    cases hc
  | empty _ hpeek => exact h.sized.peekEvent_none hpeek
  | limit _ hpeek _ =>
    have hlost : s.log.map Prod.fst ++ queued (peekEvent s.port).2 = s.accepted := hnext
    rw [← h.queue, htake, hpeek] at hlost
    have hlength := congrArg List.length (List.append_cancel_left hlost)
    rw [List.length_append] at hlength
    exact absurd hlength (by simp)
  | unregistered hcalls _ hnot _ =>
    rw [hcalls] at hc
    cases hc
    exact absurd hlimit hnot
  | dispatched hcalls _ hnot _ =>
    rw [hcalls] at hc
    cases hc
    exact absurd hlimit hnot

/-- The calls have not dispatched more events than they may. -/
def Bounded (s : System) : Prop :=
  ∀ c ∈ s.calls ++ s.ended, (c.count : Int) ≤ max c.maxCount 0

theorem Bounded.ended {c : ProcessCall} {below done : List ProcessCall}
    (h : ∀ d ∈ (c :: below) ++ done, (d.count : Int) ≤ max d.maxCount 0) :
    ∀ d ∈ below ++ (done ++ [c]), (d.count : Int) ≤ max d.maxCount 0 := by
  intro d hd
  apply h d
  rw [← List.append_assoc] at hd
  rcases List.mem_append.mp hd with hd | hd
  · exact List.mem_cons_of_mem _ hd
  · rw [List.mem_singleton.mp hd]
    exact List.mem_cons_self

theorem Apart.bounded {t : System} (h : Apart s t) (hs : Bounded s) : Bounded t := by
  unfold Bounded
  rw [h.calls, h.ended]
  exact hs

theorem Bounded.next (h : Bounded s) (a : Action) : Bounded (s.next a) := by
  cases a with
  | interrupt timeUs gpio events => exact h
  | process maxCount =>
    intro c hc
    have hc : c ∈ ⟨maxCount, 0⟩ :: (s.calls ++ s.ended) := hc
    rcases List.mem_cons.mp hc with rfl | hc
    · exact le_max_right _ _
    · exact h c hc
  | iterate =>
    change Bounded (Irq.iterate s)
    have hpasses := iterate_passes s
    generalize Irq.iterate s = t at hpasses
    unfold Bounded at h
    cases hpasses with
    | idle _ => exact h
    | empty hcalls _ =>
      rw [hcalls] at h
      exact Bounded.ended h
    | limit hcalls _ _ =>
      rw [hcalls] at h
      exact Bounded.ended h
    | unregistered _ _ _ _ => exact h
    | @dispatched c below event irq hcalls _ hlimit _ =>
      rw [hcalls] at h
      intro d hd
      have hd : d ∈ ⟨c.maxCount, c.count + 1⟩ :: (below ++ s.ended) := hd
      rcases List.mem_cons.mp hd with rfl | hd
      · refine le_trans ?_ (le_max_left _ _)
        change ((c.count + 1 : Nat) : Int) ≤ c.maxCount
        omega
      · exact h d (List.mem_cons_of_mem _ hd)
  | register pin eventType debounceMs => exact (register_apart pin eventType debounceMs).bounded h
  | unregister id => exact (unregister_apart id).bounded h
  | enable id => exact h
  | disable id => exact h

theorem next_extends (s : System) (a : Action) : Extends s (s.next a) := by
  cases a with
  | interrupt timeUs gpio events =>
    exact ⟨(Extends.same rfl rfl).exists_log, acceptedEvent timeUs gpio events s.port, rfl⟩
  | process maxCount => exact .same rfl rfl
  | iterate =>
    change Extends s (Irq.iterate s)
    have hpasses := iterate_passes s
    generalize Irq.iterate s = t at hpasses
    cases hpasses with
    | idle _ => exact .same rfl rfl
    | empty _ _ => exact .same rfl rfl
    | limit _ _ _ => exact .same rfl rfl
    | @unregistered c below event _ _ _ hnone =>
      refine ⟨⟨[(event, false)], rfl, ?_⟩, (Extends.same rfl rfl).exists_new⟩
      intro e he hlistens
      rw [List.mem_singleton.mp he] at hlistens
      obtain ⟨irq, hirq, -⟩ := hlistens
      rw [hnone] at hirq
      cases hirq
    | @dispatched c below event irq _ _ _ hirq =>
      refine ⟨⟨[(event, irq.enabled)], rfl, ?_⟩, (Extends.same rfl rfl).exists_new⟩
      intro e he hlistens
      rw [List.mem_singleton.mp he] at hlistens ⊢
      obtain ⟨irq', hirq', henabled⟩ := hlistens
      rw [hirq, Option.some.injEq] at hirq'
      rw [hirq']
      exact henabled
  | register pin eventType debounceMs =>
    have hsame := register_apart (s := s) pin eventType debounceMs
    exact .same hsame.log hsame.accepted
  | unregister id =>
    have hsame := unregister_apart (s := s) id
    exact .same hsame.log hsame.accepted
  | enable id => exact .same rfl rfl
  | disable id => exact .same rfl rfl

end Steps

/-! ## Runs -/

section Runs
variable {actions : List Action}

/-- While a handler listens, what is dealt with for it goes to its callback. -/
theorem run_extends (s : System) (as : List Action) (id : Nat) (h : StaysListening s as id) :
    (∃ log, (s.run as).log = s.log ++ log ∧ ∀ e ∈ log, e.1.irqId = id → e.2 = true) ∧
      ∃ new, (s.run as).accepted = s.accepted ++ new := by
  induction as using List.reverseRecOn with
  | nil =>
    exact ⟨⟨[], (List.append_nil _).symm, fun _ he => absurd he List.not_mem_nil⟩,
      [], (List.append_nil _).symm⟩
  | append_singleton as a ih =>
    have hinitial : StaysListening s as id := by
      intro bs cs heq
      refine h bs (cs ++ [a]) ?_
      rw [heq, List.append_assoc]
    have hrun : s.run (as ++ [a]) = (s.run as).next a := by
      rw [System.run, List.foldl_append]
      rfl
    obtain ⟨⟨log, hlog, hpass⟩, new, hnew⟩ := ih hinitial
    obtain ⟨⟨log', hlog', hpass'⟩, new', hnew'⟩ := next_extends (s.run as) a
    rw [hrun]
    refine ⟨⟨log ++ log', by rw [hlog', hlog, List.append_assoc], ?_⟩,
      new ++ new', by rw [hnew', hnew, List.append_assoc]⟩
    intro e he hid
    rcases List.mem_append.mp he with he | he
    · exact hpass e he hid
    · exact hpass' e he (hid ▸ h as [a] rfl)

/-- Of the events dealt with for a handler that listens, all are passed on. -/
theorem forHandler_passed {log : List (Event × Bool)} {id : Nat}
    (h : ∀ e ∈ log, e.1.irqId = id → e.2 = true) :
    forHandler id (passed log) = forHandler id (log.map Prod.fst) := by
  induction log with
  | nil => rfl
  | cons e log ih =>
    have hrest := ih fun f hf => h f (List.mem_cons_of_mem _ hf)
    obtain ⟨event, b⟩ := e
    unfold passed forHandler at hrest ⊢
    by_cases hid : event.irqId = id
    · have hb : b = true := h (event, b) List.mem_cons_self hid
      rw [List.filter_cons_of_pos hb, List.map_cons, List.map_cons,
        List.filter_cons_of_pos (by simpa using hid), List.filter_cons_of_pos (by simpa using hid),
        hrest]
    · cases b with
      | true =>
        rw [List.filter_cons_of_pos rfl, List.map_cons, List.map_cons,
          List.filter_cons_of_neg (by simpa using hid), List.filter_cons_of_neg (by simpa using hid),
          hrest]
      | false =>
        rw [List.filter_cons_of_neg Bool.false_ne_true, List.map_cons,
          List.filter_cons_of_neg (by simpa using hid), hrest]

theorem run_bounded (as : List Action) : Bounded (System.initial.run as) := by
  have hrun : Run (fun s a t => t = System.next s a) (fun _ _ => True) System.initial as
      (System.initial.run as) := Run.foldl fun _ _ _ _ => trivial
  refine hrun.invariant ?_ ?_
  · rintro s a t hs - rfl
    exact hs.next a
  · intro c hc
    exact absurd hc List.not_mem_nil

/-- Every step of a run that never cuts a call off conserves the events. -/
theorem run_conserving (h : NeverCutsOff actions) : Conserving (System.initial.run actions) := by
  have hrun : Run (fun s a t => t = System.next s a) EndsEmpty System.initial actions
      (System.initial.run actions) := Run.foldl h
  refine hrun.invariant ?_ Conserving.initial
  rintro s a t hs hends rfl
  exact hs.next hends

theorem NeverCutsOff.initial {as bs : List Action} (h : NeverCutsOff (as ++ bs)) :
    NeverCutsOff as := by
  intro cs a ds heq
  refine h cs a (ds ++ bs) ?_
  rw [heq, List.append_assoc, List.cons_append]

theorem run_append (s : System) (as bs : List Action) : s.run (as ++ bs) = (s.run as).run bs :=
  List.foldl_append

/-- As long as the events are conserved, no call has been cut off. -/
theorem DeliversOnce.conserving {as bs : List Action} (h : DeliversOnce (as ++ bs)) :
    Conserving (System.initial.run as) := by
  induction as using List.reverseRecOn generalizing bs with
  | nil => exact Conserving.initial
  | append_singleton as a ih =>
    have hs : Conserving (System.initial.run as) := ih (List.append_assoc .. ▸ h)
    have hnext := h.conserved (as ++ [a]) bs rfl
    rw [run_append] at hnext ⊢
    exact hs.next (hs.endsEmpty hnext)

/-- Every event is delivered once, in order, or is left in the queue, in exactly the runs in which
no call of `process` comes to its limit while events are queued. -/
theorem deliversOnce_iff : DeliversOnce actions ↔ NeverCutsOff actions := by
  constructor
  · intro h as a bs heq
    have hs : Conserving (System.initial.run as) := DeliversOnce.conserving (heq ▸ h)
    have hnext := h.conserved (as ++ [a]) bs (by rw [heq, List.append_assoc]; rfl)
    rw [run_append] at hnext
    exact hs.endsEmpty hnext
  · intro h
    refine ⟨?_, ?_, fun as bs _ => run_bounded as⟩
    · intro as bs heq
      exact (run_conserving (NeverCutsOff.initial (heq ▸ h))).queue
    · intro as bs cs id heq hstays
      have hall : NeverCutsOff (as ++ (bs ++ cs)) := by
        rw [← List.append_assoc, ← heq]
        exact h
      have hstart := run_conserving hall.initial
      have hend := run_conserving (NeverCutsOff.initial (heq ▸ h))
      obtain ⟨⟨log, hlog, hpass⟩, new, hnew⟩ := run_extends (System.initial.run as) bs id hstays
      rw [← run_append] at hlog hnew
      refine ⟨log, new, hlog, hnew, ?_⟩
      have hqueue := hend.queue
      rw [hlog, hnew, ← hstart.queue, List.map_append, List.append_assoc, List.append_assoc] at hqueue
      have hcancel := List.append_cancel_left hqueue
      rw [forHandler_passed hpass]
      unfold forHandler
      rw [← List.filter_append, ← List.filter_append, hcancel]

end Runs

/-! ## Two events and a limit of one -/

/-- The pin falls twice before `process(1)`. -/
def fallsTwice : List Action :=
  [.register 15 4 0, .interrupt 1000 15 4, .interrupt 2000 15 4, .process 1, .iterate, .iterate]

/-- The second event is taken from the queue at the limit, and is gone. -/
theorem second_event_lost : ¬ DeliversOnce fallsTwice := by
  intro h
  have hlength := congrArg List.length (h.conserved fallsTwice [] (List.append_nil _).symm)
  exact absurd hlength (by decide)

end PicoRuby.Irq
