import PicoRuby.Shared.Cursor
import PicoRuby.Shared.Hash

/-!
# Values and errors of json.rb

A String is the list of its characters. Floats enter through the arithmetic that `parse_float` uses.
-/

namespace PicoRuby.Json

open Shared

set_option autoImplicit false

/-- The characters of a Ruby String. -/
abbrev Text := List Char

/-- The operations of Float that `JSON::Parser#parse_float` calls. -/
class FloatArith (F : Type) where
  ofNat : Nat → F
  add : F → F → F
  mul : F → F → F
  div : F → F → F
  neg : F → F
  tenPow : Int → F
  isOne : F → Bool

/-- Exact arithmetic, to run the definitions. -/
instance : FloatArith Rat where
  ofNat n := n
  add := (· + ·)
  mul := (· * ·)
  div := (· / ·)
  neg := (- ·)
  tenPow e := if 0 ≤ e then 10 ^ e.toNat else 1 / 10 ^ (-e).toNat
  isOne x := x == 1

/-- What `JSON.parse` builds and `JSON.generate` reads. -/
inductive Value (F : Type) where
  | null
  | bool (b : Bool)
  | int (i : Int)
  | float (x : F)
  | string (s : Text)
  | array (l : List (Value F))
  | object (l : List (Text × Value F))
deriving Repr

/-! ## Trees -/

section Trees
variable {F : Type}

mutual

/-- Every value in the tree has `p`. -/
def Value.Every (p : Value F → Prop) : Value F → Prop
  | .array l => p (.array l) ∧ EveryElement p l
  | .object l => p (.object l) ∧ EveryMember p l
  | v => p v

def EveryElement (p : Value F → Prop) : List (Value F) → Prop
  | [] => True
  | v :: l => v.Every p ∧ EveryElement p l

def EveryMember (p : Value F → Prop) : List (Text × Value F) → Prop
  | [] => True
  | (_, v) :: l => v.Every p ∧ EveryMember p l

end

mutual

/-- Ruby's `==`: the order of the pairs of a Hash does not count. -/
def Value.Equal : Value F → Value F → Prop
  | .null, w => w = .null
  | .bool b, w => w = .bool b
  | .int i, w => w = .int i
  | .float x, w => w = .float x
  | .string s, w => w = .string s
  | .array l, w => ∃ l', w = .array l' ∧ EqualElements l l'
  | .object l, w => ∃ l', w = .object l' ∧ l.length = l'.length ∧ EqualMembers l l'

def EqualElements : List (Value F) → List (Value F) → Prop
  | [], l' => l' = []
  | v :: l, l' => ∃ v' l₁, l' = v' :: l₁ ∧ v.Equal v' ∧ EqualElements l l₁

def EqualMembers : List (Text × Value F) → List (Text × Value F) → Prop
  | [], _ => True
  | (k, v) :: l, l' => (∃ v' ∈ hashGet l' k, v.Equal v') ∧ EqualMembers l l'

end

theorem EveryElement.iff {p : Value F → Prop} {l : List (Value F)} :
    EveryElement p l ↔ ∀ v ∈ l, v.Every p := by
  induction l with
  | nil => simp [EveryElement]
  | cons v l ih => simp [EveryElement, ih]

theorem EveryMember.iff {p : Value F → Prop} {l : List (Text × Value F)} :
    EveryMember p l ↔ ∀ kv ∈ l, kv.2.Every p := by
  induction l with
  | nil => simp [EveryMember]
  | cons kv l ih =>
    obtain ⟨k, v⟩ := kv
    simp [EveryMember, ih]

theorem Value.Every.node {p : Value F → Prop} {v : Value F} (h : v.Every p) : p v := by
  cases v with
  | array l => exact h.1
  | object l => exact h.1
  | _ => exact h

mutual

theorem Value.Every.imp₃ {p q r s : Value F → Prop} (himp : ∀ v, p v → q v → r v → s v) :
    (v : Value F) → v.Every p → v.Every q → v.Every r → v.Every s
  | .null, hp, hq, hr => himp _ hp hq hr
  | .bool _, hp, hq, hr => himp _ hp hq hr
  | .int _, hp, hq, hr => himp _ hp hq hr
  | .float _, hp, hq, hr => himp _ hp hq hr
  | .string _, hp, hq, hr => himp _ hp hq hr
  | .array l, hp, hq, hr => ⟨himp _ hp.1 hq.1 hr.1, EveryElement.imp₃ himp l hp.2 hq.2 hr.2⟩
  | .object l, hp, hq, hr => ⟨himp _ hp.1 hq.1 hr.1, EveryMember.imp₃ himp l hp.2 hq.2 hr.2⟩

theorem EveryElement.imp₃ {p q r s : Value F → Prop} (himp : ∀ v, p v → q v → r v → s v) :
    (l : List (Value F)) → EveryElement p l → EveryElement q l → EveryElement r l →
      EveryElement s l
  | [], _, _, _ => trivial
  | v :: l, hp, hq, hr =>
    ⟨Value.Every.imp₃ himp v hp.1 hq.1 hr.1, EveryElement.imp₃ himp l hp.2 hq.2 hr.2⟩

theorem EveryMember.imp₃ {p q r s : Value F → Prop} (himp : ∀ v, p v → q v → r v → s v) :
    (l : List (Text × Value F)) → EveryMember p l → EveryMember q l → EveryMember r l →
      EveryMember s l
  | [], _, _, _ => trivial
  | (_, v) :: l, hp, hq, hr =>
    ⟨Value.Every.imp₃ himp v hp.1 hq.1 hr.1, EveryMember.imp₃ himp l hp.2 hq.2 hr.2⟩

end

/-- The keys of a Hash are different. -/
def Value.distinctKeys : Value F → Prop
  | .object l => (l.map Prod.fst).Nodup
  | _ => True

mutual

theorem Value.Equal.refl : (v : Value F) → v.Every Value.distinctKeys → v.Equal v
  | .null, _ => rfl
  | .bool _, _ => rfl
  | .int _, _ => rfl
  | .float _, _ => rfl
  | .string _, _ => rfl
  | .array l, h => ⟨l, rfl, EqualElements.refl l h.2⟩
  | .object l, h => ⟨l, rfl, rfl, EqualMembers.of_mem l l h.2 h.1 fun _ hkv => hkv⟩

theorem EqualElements.refl : (l : List (Value F)) → EveryElement Value.distinctKeys l →
    EqualElements l l
  | [], _ => rfl
  | v :: l, h => ⟨v, l, rfl, Value.Equal.refl v h.1, EqualElements.refl l h.2⟩

theorem EqualMembers.of_mem : (l l' : List (Text × Value F)) → EveryMember Value.distinctKeys l →
    (l'.map Prod.fst).Nodup → (∀ kv ∈ l, kv ∈ l') → EqualMembers l l'
  | [], _, _, _, _ => trivial
  | (_, v) :: l, l', h, hnodup, hmem =>
    ⟨⟨v, hashGet_of_mem hnodup (hmem _ List.mem_cons_self), Value.Equal.refl v h.1⟩,
      EqualMembers.of_mem l l' h.2 hnodup fun kv hkv => hmem kv (List.mem_cons_of_mem _ hkv)⟩

end

end Trees

/-- The exception classes of json.rb and of Ruby that its code raises. -/
inductive ErrorClass where
  | jsonError | parserError | diggerError | argumentError
deriving DecidableEq, Repr

/-- `JSON::JSONError` and its subclasses. -/
def ErrorClass.isJson : ErrorClass → Bool
  | .argumentError => false
  | _ => true

/-- An exception with its message; `outOfFuel` is not one, it ends the recursion of the model. -/
inductive Failure where
  | raised (cls : ErrorClass) (message : String)
  | outOfFuel
deriving DecidableEq, Repr

/-- The failure is a `JSON::JSONError`. -/
def Failure.isJson : Failure → Bool
  | raised cls _ => cls.isJson
  | outOfFuel => false

end PicoRuby.Json

/-!
# JSON::Generator

`generate` returns a String for every value but `true` and `false`, which it returns as
they are; `to_s` is taken of them where they are elements or members.
-/

namespace PicoRuby.Json

set_option autoImplicit false

/-! ## String#tr -/

/-- The characters of a pattern of `String#tr` with neither `^` nor a range: a backslash
quotes the next character, and stands for itself at the end. -/
def trCharacters : Text → Text
  | [] => []
  | ['\\'] => ['\\']
  | '\\' :: c :: pattern => c :: trCharacters pattern
  | c :: pattern => c :: trCharacters pattern

/-- The character that replaces `c`; the last one of `replacement` stands for all after it. -/
def trChar : Text → Text → Char → Char
  | c' :: source, r :: replacement, c =>
    if c = c' then r
    else trChar source (if replacement.isEmpty then [r] else replacement) c
  | _, _, c => c

def tr (source replacement s : Text) : Text :=
  s.map (trChar (trCharacters source) (trCharacters replacement))

/-! ## Generator -/

/-- `Float#to_s`. -/
class FloatText (F : Type) where
  toS : F → Text

/-- What `generate` returns. -/
inductive Output where
  | text (t : Text)
  | bool (b : Bool)
deriving DecidableEq, Repr

/-- `to_s`, as interpolation and `Array#join` apply it. -/
def Output.toS : Output → Text
  | text t => t
  | bool b => (if b then "true" else "false").toList

/-- `Array#join(',')`. -/
def join : List Text → Text
  | [] => []
  | [t] => t
  | t :: l => t ++ ',' :: join l

def generateString (s : Text) : Text := '"' :: (tr "\"\\".toList "\"\"\\\\".toList s ++ ['"'])

/-- `Integer#to_s`. -/
def integerToS (i : Int) : Text :=
  if i < 0 then '-' :: Nat.toDigits 10 i.natAbs else Nat.toDigits 10 i.natAbs

section Generate
variable {F : Type} [FloatText F]

mutual

def generate : Value F → Output
  | .object l => .text ('{' :: (join (generateMembers l) ++ ['}']))
  | .array l => .text ('[' :: (join (generateElements l) ++ [']']))
  | .string s => .text (generateString s)
  | .int i => .text (integerToS i)
  | .float x => .text (FloatText.toS x)
  | .bool b => .bool b
  | .null => .text "null".toList

def generateElements : List (Value F) → List Text
  | [] => []
  | v :: l => (generate v).toS :: generateElements l

def generateMembers : List (Text × Value F) → List Text
  | [] => []
  | (k, v) :: l => (generateString k ++ ':' :: (generate v).toS) :: generateMembers l

end

end Generate

end PicoRuby.Json
