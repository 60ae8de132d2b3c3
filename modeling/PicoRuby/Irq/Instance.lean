import PicoRuby.Irq.Process

/-!
# Enabling and disabling

The methods of one `IRQInstance` with a callback, called in any order.
-/

namespace PicoRuby.Irq

set_option autoImplicit false

universe u v

/-- What the methods read of an instance. -/
structure Instance (Peripheral : Type u) (Capture : Type v) extends IRQInstance where
  peripheral : Peripheral
  capture : Capture

/-- A call of `enable` or `disable`, or an event that is dispatched. -/
inductive Operation where
  | enable
  | disable
  | dispatch (eventType : UInt32)
deriving DecidableEq, Repr

namespace Instance
variable {Peripheral : Type u} {Capture : Type v}

/-- The state that `initialize` sets. -/
def new (peripheral : Peripheral) (capture : Capture) : Instance Peripheral Capture :=
  ⟨⟨true⟩, peripheral, capture⟩

/-- `IRQInstance#call`: what is passed to the callback, if it is called. -/
def call (irq : Instance Peripheral Capture) (eventType : UInt32) :
    Option (Peripheral × UInt32 × Capture) :=
  if irq.enabled then some (irq.peripheral, eventType, irq.capture) else none

/-- `IRQInstance#enable` with the value it returns. -/
def enableCall (irq : Instance Peripheral Capture) : Bool × Instance Peripheral Capture :=
  (irq.enabled, { irq with toIRQInstance := irq.toIRQInstance.enable })

/-- `IRQInstance#disable` with the value it returns. -/
def disableCall (irq : Instance Peripheral Capture) : Bool × Instance Peripheral Capture :=
  (irq.enabled, { irq with toIRQInstance := irq.toIRQInstance.disable })

def next (irq : Instance Peripheral Capture) : Operation → Instance Peripheral Capture
  | .enable => irq.enableCall.2
  | .disable => irq.disableCall.2
  | .dispatch _ => irq

def run (irq : Instance Peripheral Capture) (ops : List Operation) : Instance Peripheral Capture :=
  ops.foldl next irq

theorem run_snoc (irq : Instance Peripheral Capture) (ops : List Operation) (op : Operation) :
    irq.run (ops ++ [op]) = (irq.run ops).next op := by
  rw [run, List.foldl_append]
  rfl

end Instance

/-! ## What is promised -/

/-- The operation is a call of `enable` or `disable`. -/
def Operation.switches : Operation → Bool
  | .dispatch _ => false
  | _ => true

/-- The last call of `enable` or `disable`. -/
def lastSwitch (ops : List Operation) : Option Operation := ops.reverse.find? Operation.switches

/-- The state after the operations: on at first, and then as the last call asked for. -/
def askedFor (ops : List Operation) : Bool := lastSwitch ops ≠ some .disable

section Controls
variable {Peripheral : Type u} {Capture : Type v}

/-- After any operations, `enabled?` is what was asked for, a call of `enable` or `disable` returns
that, and the callback is called for an event exactly when it is on. -/
structure Controls (peripheral : Peripheral) (capture : Capture) (ops : List Operation) : Prop where
  reports : ∀ as bs, ops = as ++ bs →
    ((Instance.new peripheral capture).run as).enabled = askedFor as
  enables : ∀ as bs, ops = as ++ .enable :: bs →
    ((Instance.new peripheral capture).run as).enableCall.1 = askedFor as
  disables : ∀ as bs, ops = as ++ .disable :: bs →
    ((Instance.new peripheral capture).run as).disableCall.1 = askedFor as
  calls : ∀ as eventType bs, ops = as ++ .dispatch eventType :: bs →
    ((Instance.new peripheral capture).run as).call eventType =
      if askedFor as then some (peripheral, eventType, capture) else none

/-! ## What the methods do -/

theorem lastSwitch_snoc (ops : List Operation) (op : Operation) :
    lastSwitch (ops ++ [op]) = if op.switches then some op else lastSwitch ops := by
  unfold lastSwitch
  rw [List.reverse_append, List.reverse_singleton, List.singleton_append, List.find?_cons]
  cases op.switches with
  | true => rfl
  | false => rfl

/-- The instance is on unless the last call was `enable`. -/
theorem run_enabled (irq : Instance Peripheral Capture) (hon : irq.enabled = true)
    (ops : List Operation) : (irq.run ops).enabled = decide (lastSwitch ops ≠ some .enable) := by
  induction ops using List.reverseRecOn with
  | nil => exact hon
  | append_singleton ops op ih =>
    rw [Instance.run_snoc, lastSwitch_snoc]
    cases op with
    | enable => rfl
    | disable => rfl
    | dispatch eventType => exact ih

theorem run_peripheral (irq : Instance Peripheral Capture) (ops : List Operation) :
    (irq.run ops).peripheral = irq.peripheral ∧ (irq.run ops).capture = irq.capture := by
  induction ops using List.reverseRecOn with
  | nil => exact ⟨rfl, rfl⟩
  | append_singleton ops op ih =>
    rw [Instance.run_snoc]
    cases op with
    | enable => exact ih
    | disable => exact ih
    | dispatch eventType => exact ih

/-- Once there has been a call, the instance is in the other state than was asked for. -/
theorem reports_iff (irq : Instance Peripheral Capture) (hon : irq.enabled = true)
    (ops : List Operation) : (irq.run ops).enabled = askedFor ops ↔ lastSwitch ops = none := by
  rw [run_enabled irq hon, askedFor]
  cases hlast : lastSwitch ops with
  | none => simp
  | some op =>
    cases op with
    | enable => simp
    | disable => simp
    | dispatch eventType =>
      have hswitches := List.find?_some hlast
      exact absurd hswitches Bool.false_ne_true

theorem lastSwitch_eq_none_iff (ops : List Operation) :
    lastSwitch ops = none ↔ ∀ op ∈ ops, op.switches = false := by
  unfold lastSwitch
  rw [List.find?_eq_none]
  simp only [List.mem_reverse, Bool.not_eq_true]

/-- An instance does what it is told in exactly the sequences without a call of `enable` or
`disable`: the first one of them turns it over. -/
theorem controls_iff (peripheral : Peripheral) (capture : Capture) (ops : List Operation) :
    Controls peripheral capture ops ↔ ∀ op ∈ ops, op.switches = false := by
  have hreports := reports_iff (Instance.new peripheral capture) rfl
  constructor
  · intro h
    rw [← lastSwitch_eq_none_iff, ← hreports]
    exact h.reports ops [] (List.append_nil _).symm
  · intro h
    have hstates (as bs : List Operation) (heq : ops = as ++ bs) :
        ((Instance.new peripheral capture).run as).enabled = askedFor as := by
      rw [hreports, lastSwitch_eq_none_iff]
      intro op hop
      apply h
      rw [heq]
      exact List.mem_append_left bs hop
    refine ⟨hstates, fun as bs => hstates as _, fun as bs => hstates as _, ?_⟩
    intro as eventType bs heq
    obtain ⟨hperipheral, hcapture⟩ :=
      run_peripheral (Instance.new peripheral capture) as
    unfold Instance.call
    rw [hstates as _ heq, hperipheral, hcapture]
    rfl

end Controls

/-- After `enable`, an event is dropped. -/
theorem enable_mutes : ¬ Controls () () [.enable, .dispatch 4] := by
  intro h
  exact absurd (h.calls [.enable] 4 [] rfl) (by decide)

end PicoRuby.Irq
