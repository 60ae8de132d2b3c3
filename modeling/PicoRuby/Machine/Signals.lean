import PicoRuby.Shared.Hash

/-!
# Signal

`Signal.trap` and `Signal.raise`. The module has a method `raise` of its own, and that is the one that its error exits
call: what they raise is an argument to `Signal.raise`.
-/

namespace PicoRuby.Machine

open Shared

set_option autoImplicit false

/-! ## Arguments -/

inductive ErrorClass where
  | argumentError
  | runtimeError
  | other (name : String)
deriving DecidableEq, Repr

structure Error where
  cls : ErrorClass
  message : String
deriving DecidableEq, Repr

/-- What is given for a signal. `toS` is what another object is in a message. -/
inductive Argument where
  | integer (n : Int)
  | string (s : String)
  | symbol (name : String)
  | exception (e : Error)
  | other (toS : String)
deriving DecidableEq, Repr

def Argument.toS : Argument → String
  | integer n => toString n
  | string s => s
  | symbol name => name
  | exception e => e.message
  | other toS => toS

/-- A value of `HANDLERS`, or a command; the command `nil` is also `false`. -/
inductive Handler (P : Type) where
  | nil
  | string (s : String)
  | proc (p : P)
  | other (toS : String)
deriving DecidableEq, Repr

structure Trap (P : Type) where
  signal : Argument
  command : Handler P
  block : Option P

/-- `command || block`. -/
def Trap.stored {P : Type} (t : Trap P) : Handler P :=
  match t.command with
  | .nil => t.block.elim .nil .proc
  | command => command

/-- `LIST`. -/
def list : List (String × Int) := [("EXIT", 0), ("INT", 2), ("CONT", 18), ("TSTP", 20)]

/-- `HANDLERS`, as it is at first. -/
def initialHandlers (P : Type) : List (Option Int × Handler P) :=
  [(some 0, .string "DEFAULT"), (some 2, .string "DEFAULT"), (some 18, .string "DEFAULT"), (some 20, .string "DEFAULT")]

/-- The `num` of `signum`; `none` is `nil`. -/
def number : Argument → Option Int
  | .integer n => if list.any fun kv => kv.2 = n then some n else none
  | .string s => hashGet list s
  | .symbol name => hashGet list name
  | _ => none

/-- The words for which nothing is done. -/
def isWord (s : String) : Bool := s = "" || s = "SIG_IGN" || s = "DEFAULT"

/-! ## The methods -/

structure World (P : Type) where
  handlers : List (Option Int × Handler P)
  called : List P

def World.initial (P : Type) : World P := ⟨initialHandlers P, []⟩

/-- How a method ends. -/
abbrev Outcome (P α : Type) := Except Error α × World P

/-- What the handlers do: they return or raise, and may trap signals themselves. -/
abbrev Body (P V : Type) := P → List (Option Int × Handler P) → Except Error V × List (Option Int × Handler P)

section Methods
variable {P V : Type} (body : Body P V)

/-- `handler.call`. -/
def call (p : P) (w : World P) : Outcome P (Option V) :=
  ((body p w.handlers).1.map some, ⟨(body p w.handlers).2, w.called ++ [p]⟩)

mutual

/-- `Signal.signum`, with fuel for the calls; `none` is a call that has not come to its end. -/
def signum (fuel : Nat) (signal : Argument) (w : World P) : Option (Outcome P (Option Int)) :=
  match fuel with
  | 0 => none
  | fuel + 1 =>
    match number signal with
    | some num => some (.ok (some num), w)
    | none =>
      match raise fuel (.exception ⟨.argumentError, "Unknown signal: " ++ signal.toS⟩) w with
      | some (.ok _, w) => some (.ok none, w)
      | some (.error e, w) => some (.error e, w)
      | none => none

/-- `Signal.raise`. -/
def raise (fuel : Nat) (signal : Argument) (w : World P) : Option (Outcome P (Option V)) :=
  match fuel with
  | 0 => none
  | fuel + 1 =>
    match signum fuel signal w with
    | some (.ok num, w) =>
      match hashGet w.handlers num with
      | some (.proc p) => some (call body p w)
      | none | some .nil => some (.ok none, w)
      | some (.string s) =>
        if isWord s then some (.ok none, w)
        else raise fuel (.exception ⟨.runtimeError, "Unknown signal handler: " ++ s⟩) w
      | some (.other toS) => raise fuel (.exception ⟨.runtimeError, "Unknown signal handler: " ++ toS⟩) w
    | some (.error e, w) => some (.error e, w)
    | none => none

end

/-- `Signal.trap`. -/
def trap (fuel : Nat) (t : Trap P) (w : World P) : Option (Outcome P (Handler P)) :=
  match signum body fuel t.signal w with
  | some (.ok num, w) =>
    let oldHandler := (hashGet w.handlers num).getD .nil
    match signum body fuel t.signal w with
    | some (.ok num, w) => some (.ok oldHandler, { w with handlers := hashSet w.handlers num t.stored })
    | some (.error e, w) => some (.error e, w)
    | none => none
  | some (.error e, w) => some (.error e, w)
  | none => none

end Methods

/-! ## What is promised -/

/-- A word that is known, a block, or nothing. -/
def Handler.isKnown {P : Type} : Handler P → Bool
  | nil => true
  | string s => isWord s
  | proc _ => true
  | other _ => false

section Promise
variable {P V : Type}

/-- What the calls of `Signal.trap` have stored, with the numbers of the signals. -/
def stored (history : List (Trap P)) : List (Int × Handler P) :=
  history.filterMap fun t => (number t.signal).map fun num => (num, t.stored)

/-- The handler that was trapped last for the signal. -/
def latest (history : List (Trap P)) (num : Int) : Handler P :=
  (lastValue (stored history) num).getD (.string "DEFAULT")

/-- `Signal.trap` answers with the handler before, or with an ArgumentError that leaves all as it was. -/
def TrapPromise (past : List (Trap P)) (t : Trap P) (w : World P) (outcome : Outcome P (Handler P)) : Prop :=
  match number t.signal with
  | none => (∃ message, outcome.1 = .error ⟨.argumentError, message⟩) ∧ outcome.2 = w
  | some num => outcome.1 = .ok (latest past num) ∧ outcome.2.called = w.called

/-- A block is called once; for a word there is nothing to do. -/
def performed (body : Body P V) (w : World P) : Handler P → Outcome P (Option V)
  | .proc p => call body p w
  | _ => (.ok none, w)

/-- `Signal.raise` does what the handler that was trapped last is for. -/
def RaisePromise (body : Body P V) (past : List (Trap P)) (signal : Argument) (w : World P)
    (outcome : Outcome P (Option V)) : Prop :=
  match number signal with
  | none => (∃ message, outcome.1 = .error ⟨.argumentError, message⟩) ∧ outcome.2 = w
  | some num =>
    if (latest past num).isKnown then outcome = performed body w (latest past num)
    else (∃ message, outcome.1 = .error ⟨.runtimeError, message⟩) ∧ outcome.2 = w

/-- Each of the calls of `Signal.trap` ends and keeps the promise, and so does `Signal.raise` after them. -/
def Kept (body : Body P V) (signal : Argument) : List (Trap P) → List (Trap P) → World P → Prop
  | past, [], w => ∃ fuel outcome, raise body fuel signal w = some outcome ∧ RaisePromise body past signal w outcome
  | past, t :: ts, w => ∃ fuel outcome, trap body fuel t w = some outcome ∧ TrapPromise past t w outcome ∧
      Kept body signal (past ++ [t]) ts outcome.2

end Promise

/-! ## Signals that are not listed -/

section Calls
variable {P V : Type} (body : Body P V) {w : World P}

/-- An exception is no signal, so raising it raises the next one. -/
theorem exception_endless (fuel : Nat) (e : Error) (w : World P) :
    raise body fuel (.exception e) w = none ∧ signum body fuel (.exception e) w = none := by
  induction fuel generalizing e w with
  | zero => exact ⟨by rw [raise], by rw [signum]⟩
  | succ fuel ih =>
    constructor
    · rw [raise, (ih e w).2]
    · rw [signum]
      dsimp only [number]
      rw [(ih _ w).1]

theorem signum_endless {signal : Argument} (h : number signal = none) (fuel : Nat) (w : World P) :
    signum body fuel signal w = none := by
  cases fuel with
  | zero => rw [signum]
  | succ fuel => rw [signum, h, (exception_endless body fuel _ w).1]

theorem signum_listed {signal : Argument} {num : Int} (h : number signal = some num) (fuel : Nat) (w : World P) :
    signum body (fuel + 1) signal w = some (.ok (some num), w) := by
  rw [signum, h]

theorem trap_endless {t : Trap P} (h : number t.signal = none) (fuel : Nat) (w : World P) :
    trap body fuel t w = none := by
  rw [trap, signum_endless body h]

theorem trap_listed {t : Trap P} {num : Int} (h : number t.signal = some num) (fuel : Nat) (w : World P) :
    trap body (fuel + 1) t w = some (.ok ((hashGet w.handlers (some num)).getD .nil),
      { w with handlers := hashSet w.handlers (some num) t.stored }) := by
  rw [trap, signum_listed body h]
  dsimp only
  rw [signum_listed body h]

theorem raise_endless {signal : Argument} (h : number signal = none) (fuel : Nat) (w : World P) :
    raise body fuel signal w = none := by
  cases fuel with
  | zero => rw [raise]
  | succ fuel => rw [raise, signum_endless body h]

section Found
variable {signal : Argument} {num : Int} {handler : Handler P}

theorem raise_known (h : number signal = some num) (hget : hashGet w.handlers (some num) = some handler)
    (hknown : handler.isKnown = true) (fuel : Nat) :
    raise body (fuel + 2) signal w = some (performed body w handler) := by
  rw [raise, signum_listed body h]
  dsimp only
  rw [hget]
  cases handler with
  | nil => rfl
  | string s =>
    have hword : isWord s = true := hknown
    dsimp only
    rw [if_pos hword]
    rfl
  | proc p => rfl
  | other toS => cases hknown

/-- The RuntimeError is raised like a signal as well. -/
theorem raise_unknown (h : number signal = some num) (hget : hashGet w.handlers (some num) = some handler)
    (hunknown : handler.isKnown = false) (fuel : Nat) : raise body fuel signal w = none := by
  match fuel with
  | 0 => rw [raise]
  | 1 => rw [raise, signum]
  | fuel + 2 =>
    rw [raise, signum_listed body h]
    dsimp only
    rw [hget]
    cases handler with
    | nil => cases hunknown
    | string s =>
      have hword : ¬ isWord s = true := Bool.not_eq_true _ ▸ hunknown
      dsimp only
      rw [if_neg hword]
      exact (exception_endless body _ _ w).1
    | proc p => cases hunknown
    | other toS => exact (exception_endless body _ _ w).1

end Found

end Calls

/-! ## The handler that was trapped last -/

section Latest
variable {P : Type} {past : List (Trap P)} {t : Trap P} {num num' : Int}

theorem number_mem {signal : Argument} (h : number signal = some num) : num ∈ list.map Prod.snd := by
  have hget {name : String} (h : hashGet list name = some num) : num ∈ list.map Prod.snd :=
    List.mem_map.mpr ⟨(name, num), hashGet_mem h, rfl⟩
  cases signal with
  | integer n =>
    unfold number at h
    dsimp only at h
    split at h
    · rename_i hany
      obtain ⟨kv, hkv, heq⟩ := List.any_eq_true.mp hany
      rw [← Option.some.inj h]
      exact List.mem_map.mpr ⟨kv, hkv, of_decide_eq_true heq⟩
    · cases h
  | string s => exact hget h
  | symbol name => exact hget h
  | exception e => cases h
  | other toS => cases h

/-- A number, a String and a Symbol are alike. -/
theorem number_alike {name : String} (h : (name, num) ∈ list) :
    number (.integer num) = some num ∧ number (.string name) = some num ∧ number (.symbol name) = some num := by
  simp only [list, List.mem_cons, Prod.mk.injEq, List.not_mem_nil, or_false] at h
  rcases h with ⟨rfl, rfl⟩ | ⟨rfl, rfl⟩ | ⟨rfl, rfl⟩ | ⟨rfl, rfl⟩ <;> exact ⟨rfl, rfl, rfl⟩

theorem latest_nil : latest ([] : List (Trap P)) num = .string "DEFAULT" := rfl

theorem latest_snoc (h : number t.signal = some num) :
    latest (past ++ [t]) num' = if num = num' then t.stored else latest past num' := by
  have hstored : stored (past ++ [t]) = stored past ++ [(num, t.stored)] := by
    unfold stored
    rw [List.filterMap_append]
    congr 1
    simp [h]
  unfold latest
  rw [hstored, lastValue_snoc]
  split
  · rfl
  · rfl

/-- `HANDLERS` has the handlers that were trapped last. -/
def Agrees (past : List (Trap P)) (w : World P) : Prop :=
  ∀ num ∈ list.map Prod.snd, hashGet w.handlers (some num) = some (latest past num)

theorem agrees_initial : Agrees [] (World.initial P) := by
  intro num hnum
  rw [latest_nil]
  have hcases : num = 0 ∨ num = 2 ∨ num = 18 ∨ num = 20 := by simpa [list] using hnum
  rcases hcases with rfl | rfl | rfl | rfl
  · rfl
  · rfl
  · rfl
  · rfl

theorem Agrees.snoc {w : World P} (h : Agrees past w) (hnumber : number t.signal = some num) :
    Agrees (past ++ [t]) { w with handlers := hashSet w.handlers (some num) t.stored } := by
  intro num' hnum'
  rw [latest_snoc hnumber]
  by_cases heq : num = num'
  · subst heq
    rw [if_pos rfl, hashGet_hashSet_self]
  · rw [if_neg heq, hashGet_hashSet_of_ne fun hkey => heq (Option.some.inj hkey).symm]
    exact h num' hnum'

end Latest

/-! ## Histories -/

section Histories
variable {P V : Type} (body : Body P V) (signal : Argument) {past : List (Trap P)} {w : World P}

theorem raise_kept_iff (h : Agrees past w) :
    (∃ fuel outcome, raise body fuel signal w = some outcome ∧ RaisePromise body past signal w outcome) ↔
      ∃ num, number signal = some num ∧ (latest past num).isKnown = true := by
  cases hnumber : number signal with
  | none =>
    apply iff_of_false
    · rintro ⟨fuel, outcome, hraise, -⟩
      rw [raise_endless body hnumber] at hraise
      cases hraise
    · rintro ⟨num, hnum, -⟩
      cases hnum
  | some num =>
    have hget := h num (number_mem hnumber)
    unfold RaisePromise
    rw [hnumber]
    dsimp only
    cases hknown : (latest past num).isKnown with
    | true =>
      apply iff_of_true
      · exact ⟨2, _, raise_known body hnumber hget hknown 0, rfl⟩
      · exact ⟨num, rfl, hknown⟩
    | false =>
      apply iff_of_false
      · rintro ⟨fuel, outcome, hraise, -⟩
        rw [raise_unknown body hnumber hget hknown] at hraise
        cases hraise
      · rintro ⟨num', heq, hknown'⟩
        cases heq
        rw [hknown] at hknown'
        cases hknown'

/-- A call of `Signal.trap` that ends answers with the handler before, and stores its own. -/
theorem trap_kept_iff (h : Agrees past w) (t : Trap P) (Q : World P → Prop) :
    (∃ fuel outcome, trap body fuel t w = some outcome ∧ TrapPromise past t w outcome ∧ Q outcome.2) ↔
      ∃ num, number t.signal = some num ∧ Q { w with handlers := hashSet w.handlers (some num) t.stored } := by
  cases hnumber : number t.signal with
  | none =>
    apply iff_of_false
    · rintro ⟨fuel, outcome, htrap, -⟩
      rw [trap_endless body hnumber] at htrap
      cases htrap
    · rintro ⟨num, hnum, -⟩
      cases hnum
  | some num =>
    have hget := h num (number_mem hnumber)
    have htrap (fuel : Nat) := trap_listed body hnumber fuel w
    constructor
    · rintro ⟨fuel, outcome, hsome, -, hQ⟩
      cases fuel with
      | zero =>
        rw [trap, signum] at hsome
        cases hsome
      | succ fuel =>
        obtain rfl := Option.some.inj ((htrap fuel).symm.trans hsome)
        exact ⟨num, rfl, hQ⟩
    · rintro ⟨num', heq, hQ⟩
      cases heq
      refine ⟨1, _, htrap 0, ?_, hQ⟩
      unfold TrapPromise
      rw [hnumber]
      dsimp only
      rw [hget]
      exact ⟨rfl, rfl⟩

theorem kept_iff (history : List (Trap P)) (h : Agrees past w) :
    Kept body signal past history w ↔ (∀ t ∈ history, (number t.signal).isSome) ∧
      ∃ num, number signal = some num ∧ (latest (past ++ history) num).isKnown = true := by
  induction history generalizing past w with
  | nil =>
    rw [List.append_nil, Kept, raise_kept_iff body signal h]
    exact ⟨fun hknown => ⟨nofun, hknown⟩, And.right⟩
  | cons t ts ih =>
    rw [Kept, trap_kept_iff body h t]
    constructor
    · rintro ⟨num, hnumber, hkept⟩
      obtain ⟨hlisted, hknown⟩ := (ih (h.snoc hnumber)).mp hkept
      rw [List.append_assoc] at hknown
      refine ⟨fun t' ht' => ?_, hknown⟩
      rcases List.mem_cons.mp ht' with rfl | hmem
      · exact Option.isSome_of_eq_some hnumber
      · exact hlisted t' hmem
    · rintro ⟨hlisted, hknown⟩
      obtain ⟨num, hnumber⟩ := Option.isSome_iff_exists.mp (hlisted t List.mem_cons_self)
      refine ⟨num, hnumber, (ih (h.snoc hnumber)).mpr ⟨fun t' ht' => hlisted t' (List.mem_cons_of_mem t ht'), ?_⟩⟩
      rw [List.append_assoc]
      exact hknown

end Histories

/-- **Signals are handled** in a history, exactly when its signals are listed and the last handler is known. -/
theorem handled_iff {P V : Type} (body : Body P V) (history : List (Trap P)) (signal : Argument) :
    Kept body signal [] history (World.initial P) ↔ (∀ t ∈ history, (number t.signal).isSome) ∧
      ∃ num, number signal = some num ∧ (latest history num).isKnown = true :=
  kept_iff body signal history agrees_initial

/-- A signal that is not listed, and a word that is not known, make `Signal.raise` call itself without end. -/
theorem raised_without_end :
    (∀ fuel, raise (P := Unit) (V := Unit) (fun _ handlers => (.ok (), handlers)) fuel (.string "HUP")
      (World.initial Unit) = none) ∧
    (¬ Kept (P := Unit) (V := Unit) (fun _ handlers => (.ok (), handlers)) (.string "HUP") [] [] (World.initial Unit)) ∧
    ¬ Kept (P := Unit) (V := Unit) (fun _ handlers => (.ok (), handlers)) (.symbol "INT") []
      [⟨.symbol "INT", .string "EXIT", none⟩] (World.initial Unit) := by
  refine ⟨fun fuel => raise_endless _ rfl fuel _, ?_, ?_⟩
  · rw [kept_iff _ _ _ agrees_initial]
    rintro ⟨-, num, hnumber, -⟩
    cases hnumber
  · rw [kept_iff _ _ _ agrees_initial]
    rintro ⟨-, num, hnumber, hknown⟩
    cases hnumber
    exact absurd hknown (by decide)

end PicoRuby.Machine
