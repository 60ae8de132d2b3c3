import PicoRuby.Json.Digger
import PicoRuby.Json.Soundness

/-!
# Every text ends the scans

Both parsers end on every text, the Digger with each list of keys: every loop goes on behind where it was. What the
Digger raises is a `JSON::JSONError`, but for a key that it refuses, and the text that it cuts out is never nil.
-/

namespace PicoRuby.Json

open Shared

set_option autoImplicit false

section Scans
variable {json : Text} {s s' : Scan} {i j : Nat} {c : Char}

/-! ## Indices that go on -/

/-- The scan has moved on, and the text to cut out starts where it did. -/
structure Scan.Forward (s s' : Scan) : Prop where
  index : s.index < s'.index
  start : s'.startIndex = s.startIndex

theorem Scan.Forward.trans {s'' : Scan} (h : s.Forward s') (h' : s'.Forward s'') : s.Forward s'' :=
  ⟨Nat.lt_trans h.index h'.index, h'.start.trans h.start⟩

@[simp] theorem Scan.goTo_index (s : Scan) (i : Nat) : (s.goTo i).index = i := rfl

@[simp] theorem Scan.pushStack_index (s : Scan) (type : Container) : (s.pushStack type).index = s.index := rfl

theorem Scan.forward_goTo (h : s.index < i) : s.Forward (s.goTo i) := ⟨h, rfl⟩

theorem le_skipWhitespace (json : Text) (i : Nat) : i ≤ skipWhitespace json i := le_skipWhile isWhitespace json i

theorem skipWhitespace_le (h : i ≤ json.length) : skipWhitespace json i ≤ json.length := by
  have hrun := (List.takeWhile_prefix isWhitespace (l := json.drop i)).length_le
  rw [List.length_drop] at hrun
  unfold skipWhitespace skipWhile
  omega

theorem expect_forward (h : expect json c i = .ok j) : j = i + 1 ∧ i < json.length := by
  obtain ⟨t, hat, rfl⟩ := expect_sound h
  have hend := hat.end_le (t := [c]) (List.cons_ne_nil _ _)
  exact ⟨rfl, hend⟩

theorem expectSequence_forward {l : Text} (h : expectSequence json l i = .ok j) : j = i + l.length := by
  obtain ⟨t, -, rfl⟩ := expectSequence_sound h
  rfl

theorem digString_forward {needReturn : Bool} {key : Option Text}
    (h : digString needReturn json s = .ok (key, s')) : s.Forward s' := by
  unfold digString at h
  obtain ⟨k, hk, h⟩ := bind_eq_ok.mp h
  have hskip := le_skipWhitespace json s.index
  obtain ⟨rfl, -⟩ := expect_forward hk
  split at h
  · cases h
    apply Scan.forward_goTo
    omega
  · cases h

theorem digNumber_forward (hc : json[s.index]? = some c) (hpart : isNumberPart c = true) :
    s.Forward (digNumber json s) := by
  apply Scan.forward_goTo
  obtain ⟨t, ht⟩ := At.of_get hc
  have hdrop : json.drop s.index = c :: t := ht
  unfold skipWhile
  rw [hdrop, List.takeWhile_cons_of_pos hpart, List.length_cons]
  omega

theorem isNumberPart_of (h : (decide (c = '-') || isDigit c) = true) : isNumberPart c = true := by
  rw [Bool.or_eq_true, decide_eq_true_eq] at h
  rcases h with rfl | hdigit
  · rfl
  · simp [isNumberPart, hdigit]

theorem keyword_forward {word : Text} (hword : word ≠ [])
    (h : (expectSequence json word (skipWhitespace json s.index)).map s.goTo = .ok s') : s.Forward s' := by
  obtain ⟨k, hk, rfl⟩ := map_eq_ok.mp h
  have hskip := le_skipWhitespace json s.index
  have hpos := List.length_pos_iff.mpr hword
  apply Scan.forward_goTo
  rw [expectSequence_forward hk]
  omega

/-- A scan whose loop has read `s` ends at `s` or behind it. -/
structure Scan.Reaches (s s' : Scan) : Prop where
  index : s.index ≤ s'.index
  start : s'.startIndex = s.startIndex

theorem Scan.Reaches.refl (s : Scan) : s.Reaches s := ⟨Nat.le_refl _, rfl⟩

theorem Scan.Forward.reaches (h : s.Forward s') : s.Reaches s' := ⟨Nat.le_of_lt h.index, h.start⟩

theorem Scan.Forward.then {s'' : Scan} (h : s.Forward s') (h' : s'.Reaches s'') : s.Forward s'' :=
  ⟨Nat.lt_of_lt_of_le h.index h'.index, h'.start.trans h.start⟩

theorem Scan.Reaches.then {s'' : Scan} (h : s.Reaches s') (h' : s'.Forward s'') : s.Forward s'' :=
  ⟨Nat.lt_of_le_of_lt h.index h'.index, h'.start.trans h.start⟩

theorem Scan.reaches_goTo (h : s.index ≤ i) : s.Reaches (s.goTo i) := ⟨h, rfl⟩

theorem Scan.Reaches.trans {s'' : Scan} (h : s.Reaches s') (h' : s'.Reaches s'') : s.Reaches s'' :=
  ⟨Nat.le_trans h.index h'.index, h'.start.trans h.start⟩

/-- Past a member name and its colon. -/
theorem name_forward {needReturn : Bool} {foundKey : Option Text}
    (hkey : digString needReturn json s = .ok (foundKey, s'))
    (hcolon : expect json ':' (skipWhitespace json s'.index) = .ok i) :
    s.Forward (s'.goTo i) ∧ i ≤ json.length := by
  have hname := digString_forward hkey
  have hskip := le_skipWhitespace json s'.index
  obtain ⟨rfl, hlt⟩ := expect_forward hcolon
  refine ⟨?_, hlt⟩
  exact hname.then (Scan.reaches_goTo (Nat.le_succ_of_le hskip))

/-- Past a comma, to the next member. -/
theorem comma_forward (hcomma : expect json ',' (skipWhitespace json s.index) = .ok i) :
    s.Forward (s.goTo (skipWhitespace json i)) := by
  have hskip := le_skipWhitespace json s.index
  obtain ⟨rfl, -⟩ := expect_forward hcomma
  have hskip' := le_skipWhitespace json (skipWhitespace json s.index + 1)
  apply Scan.forward_goTo
  omega

mutual

theorem digValue_forward : (fuel : Nat) → (s s' : Scan) → digValue fuel json s = .ok s' → s.Forward s'
  | 0, _, _, h => nomatch h
  | fuel + 1, s, s', h => by
    have hskip : s.Reaches (s.goTo (skipWhitespace json s.index)) :=
      Scan.reaches_goTo (le_skipWhitespace json s.index)
    apply hskip.then
    rw [digValue] at h
    split at h
    · exact digObject_forward fuel _ _ h
    · exact digArray_forward fuel _ _ h
    · obtain ⟨⟨key, k⟩, hk, rfl⟩ := map_eq_ok.mp h
      exact digString_forward hk
    · exact keyword_forward (List.cons_ne_nil _ _) h
    · exact keyword_forward (List.cons_ne_nil _ _) h
    · exact keyword_forward (List.cons_ne_nil _ _) h
    · rename_i hget
      split at h
      · rename_i hpart
        cases h
        exact digNumber_forward hget (isNumberPart_of hpart)
      · cases h
        exact Scan.forward_goTo (Nat.lt_succ_self _)
    · cases h
      exact Scan.forward_goTo (Nat.lt_succ_self _)

theorem digObject_forward : (fuel : Nat) → (s s' : Scan) → digObject fuel json none s = .ok s' → s.Forward s'
  | 0, _, _, h => nomatch h
  | fuel + 1, s, s', h => by
    rw [digObject] at h
    obtain ⟨k, hk, h⟩ := bind_eq_ok.mp h
    obtain ⟨rfl, -⟩ := expect_forward hk
    have hskip := le_skipWhitespace json s.index
    have hopen : s.Forward ((s.pushStack .object).goTo (skipWhitespace json s.index + 1)) :=
      ⟨Nat.lt_succ_of_le hskip, rfl⟩
    exact hopen.then (objectScan_forward fuel _ _ h)

theorem objectScan_forward : (fuel : Nat) → (s s' : Scan) → objectScan fuel json none s = .ok s' → s.Reaches s'
  | 0, _, _, h => nomatch h
  | fuel + 1, s, s', h => by
    rw [objectScan] at h
    split at h
    · cases h
      exact Scan.Reaches.refl _
    · rename_i char hchar
      have hclose : s.Reaches (if char = '}' then s.goTo (s.index + 1) else s) := by
        split
        · exact Scan.reaches_goTo (Nat.le_succ _)
        · exact Scan.Reaches.refl _
      dsimp only at h
      generalize (if char = '}' then s.goTo (s.index + 1) else s) = s₁ at h hclose
      split at h
      · cases h
        exact ⟨hclose.index, hclose.start⟩
      · obtain ⟨⟨foundKey, s₂⟩, hkey, h⟩ := bind_eq_ok.mp h
        obtain ⟨k, hcolon, h⟩ := bind_eq_ok.mp h
        simp only [Option.isSome_none, Bool.false_and, Bool.false_eq_true, if_false] at h
        obtain ⟨s₃, hvalue, h⟩ := bind_eq_ok.mp h
        have hmember := (name_forward hkey hcolon).1.trans (digValue_forward fuel _ _ hvalue)
        have hskip := le_skipWhitespace json s₃.index
        apply (hclose.then hmember).reaches.trans
        split at h
        · cases h
          exact ⟨Nat.le_succ_of_le hskip, rfl⟩
        · obtain ⟨m, hcomma, h⟩ := bind_eq_ok.mp h
          have hnext := comma_forward hcomma
          exact (hnext.then (objectScan_forward fuel _ _ h)).reaches

theorem digArray_forward : (fuel : Nat) → (s s' : Scan) → digArray fuel json none s = .ok s' → s.Forward s'
  | 0, _, _, h => nomatch h
  | fuel + 1, s, s', h => by
    rw [digArray] at h
    obtain ⟨k, hk, h⟩ := bind_eq_ok.mp h
    obtain ⟨rfl, -⟩ := expect_forward hk
    have hskip := le_skipWhitespace json s.index
    have hskip' := le_skipWhitespace json (skipWhitespace json s.index + 1)
    have hopen : s.Forward ((s.pushStack .array).goTo (skipWhitespace json (skipWhitespace json s.index + 1))) := by
      refine ⟨?_, rfl⟩
      have hindex : ((s.pushStack .array).goTo (skipWhitespace json (skipWhitespace json s.index + 1))).index =
          skipWhitespace json (skipWhitespace json s.index + 1) := rfl
      omega
    exact hopen.then (arrayScan_forward fuel _ _ _ h)

theorem arrayScan_forward : (fuel current : Nat) → (s s' : Scan) → arrayScan fuel json none current s = .ok s' →
    s.Reaches s'
  | 0, _, _, _, h => nomatch h
  | fuel + 1, current, s, s', h => by
    rw [arrayScan] at h
    split at h
    · cases h
      exact Scan.Reaches.refl _
    · cases h
      exact Scan.reaches_goTo (Nat.le_succ _)
    · have hcomma : s.Forward (s.goTo (s.index + 1)) := Scan.forward_goTo (Nat.lt_succ_self _)
      simp only [Option.isSome_none, Bool.and_false, Bool.false_eq_true, if_false] at h
      exact (hcomma.then (arrayScan_forward fuel _ _ _ h)).reaches
    · obtain ⟨s₁, hvalue, h⟩ := bind_eq_ok.mp h
      exact ((digValue_forward fuel _ _ hvalue).then (arrayScan_forward fuel _ _ _ h)).reaches

end

/-! ## Errors -/

theorem digString_errors {needReturn : Bool} : RaisesJson (digString needReturn json s) := by
  unfold digString
  refine expect_errors.bind ?_
  intro k _
  split
  · exact ErrorsIn.ok
  · exact ErrorsIn.error rfl

theorem keyNotFound_errors {key : Option Text} : RaisesJson (keyNotFound key s) := by
  unfold keyNotFound
  split
  · exact ErrorsIn.error rfl
  · exact ErrorsIn.ok

mutual

theorem digValue_errors : (fuel : Nat) → (s : Scan) → 3 * (json.length - s.index) + 1 ≤ fuel →
    RaisesJson (digValue fuel json s)
  | 0, _, h => by omega
  | fuel + 1, s, h => by
    have hskip := le_skipWhitespace json s.index
    rw [digValue]
    split
    · rename_i hget
      have hlt := (List.getElem?_eq_some_iff.mp hget).1
      apply digObject_errors fuel none
      · rw [Scan.goTo_index]
        omega
      · omega
    · rename_i hget
      have hlt := (List.getElem?_eq_some_iff.mp hget).1
      apply digArray_errors fuel none
      · rw [Scan.goTo_index]
        omega
      · omega
    · exact digString_errors.map
    · exact expectSequence_errors.map
    · exact expectSequence_errors.map
    · exact expectSequence_errors.map
    · split
      · exact ErrorsIn.ok
      · exact ErrorsIn.ok
    · exact ErrorsIn.ok

theorem digObject_errors : (fuel : Nat) → (key : Option Text) → (s : Scan) →
    3 * (json.length - s.index) ≤ fuel → 0 < fuel → RaisesJson (digObject fuel json key s)
  | 0, _, _, _, h => by omega
  | fuel + 1, key, s, h, _ => by
    have hskip := le_skipWhitespace json s.index
    rw [digObject]
    refine expect_errors.bind ?_
    intro k hk
    obtain ⟨rfl, hlt⟩ := expect_forward hk
    apply objectScan_errors fuel key
    rw [Scan.pushStack_index] at hlt ⊢
    rw [Scan.goTo_index]
    omega

theorem objectScan_errors : (fuel : Nat) → (key : Option Text) → (s : Scan) →
    3 * (json.length - s.index) + 2 ≤ fuel → RaisesJson (objectScan fuel json key s)
  | 0, _, _, h => by omega
  | fuel + 1, key, s, h => by
    rw [objectScan]
    split
    · exact keyNotFound_errors
    · rename_i char hchar
      have hlt := (List.getElem?_eq_some_iff.mp hchar).1
      have hclose : s.Reaches (if char = '}' then s.goTo (s.index + 1) else s) := by
        split
        · exact Scan.reaches_goTo (Nat.le_succ _)
        · exact Scan.Reaches.refl _
      dsimp only
      generalize (if char = '}' then s.goTo (s.index + 1) else s) = s₁ at hclose ⊢
      split
      · exact keyNotFound_errors
      · refine digString_errors.bind ?_
        rintro ⟨foundKey, s₂⟩ hkey
        refine expect_errors.bind ?_
        intro k hcolon
        have hname := hclose.then (name_forward hkey hcolon).1
        have hk : s.index < k := hname.index
        split
        · apply digValue_errors fuel
          dsimp only
          omega
        · refine (digValue_errors fuel _ ?_).bind ?_
          · rw [Scan.goTo_index]
            omega
          · intro s₃ hvalue
            have hmember := hname.trans (digValue_forward fuel _ _ hvalue)
            split
            · exact keyNotFound_errors
            · refine expect_errors.bind ?_
              intro m hcomma
              have hnext := hmember.trans (comma_forward hcomma)
              apply objectScan_errors fuel key
              have hindex := hnext.index
              omega

theorem digArray_errors : (fuel : Nat) → (arrayPos : Option Nat) → (s : Scan) →
    3 * (json.length - s.index) ≤ fuel → 0 < fuel → RaisesJson (digArray fuel json arrayPos s)
  | 0, _, _, _, h => by omega
  | fuel + 1, arrayPos, s, h, _ => by
    have hskip := le_skipWhitespace json s.index
    rw [digArray]
    refine expect_errors.bind ?_
    intro k hk
    obtain ⟨rfl, hlt⟩ := expect_forward hk
    have hskip' := le_skipWhitespace json (skipWhitespace json s.index + 1)
    rw [Scan.pushStack_index] at hlt ⊢
    apply arrayScan_errors fuel arrayPos 0
    split
    · dsimp only
      rw [Scan.goTo_index]
      omega
    · rw [Scan.goTo_index]
      omega

theorem arrayScan_errors : (fuel : Nat) → (arrayPos : Option Nat) → (current : Nat) → (s : Scan) →
    3 * (json.length - s.index) + 2 ≤ fuel → RaisesJson (arrayScan fuel json arrayPos current s)
  | 0, _, _, _, h => by omega
  | fuel + 1, arrayPos, current, s, h => by
    rw [arrayScan]
    split
    · exact ErrorsIn.ok
    · exact ErrorsIn.ok
    · rename_i hget
      have hlt := (List.getElem?_eq_some_iff.mp hget).1
      dsimp only
      split
      · split
        · exact ErrorsIn.ok
        · apply arrayScan_errors fuel arrayPos
          rw [Scan.goTo_index]
          omega
      · apply arrayScan_errors fuel arrayPos
        rw [Scan.goTo_index]
        omega
    · rename_i hget
      have hlt := (List.getElem?_eq_some_iff.mp hget).1
      refine (digValue_errors fuel s (by omega)).bind ?_
      intro s₁ hvalue
      have hindex := (digValue_forward fuel _ _ hvalue).index
      exact arrayScan_errors fuel arrayPos _ _ (by omega)

end

/-! ## The text that is cut out -/

/-- The text between the two indices is there. -/
structure Scan.Cuts (json : Text) (s : Scan) : Prop where
  start : s.startIndex ≤ s.index
  length : s.startIndex ≤ json.length

theorem Scan.Cuts.reaches (h : s.Cuts json) (hs : s.Reaches s') : s'.Cuts json := by
  have hindex := hs.index
  have hstart := h.start
  refine ⟨?_, ?_⟩
  · rw [hs.start]
    omega
  · rw [hs.start]
    exact h.length

theorem objectScan_cuts {key : Text} (fuel : Nat) (h : objectScan fuel json (some key) s = .ok s') : s'.Cuts json := by
  induction fuel generalizing s with
  | zero => nomatch h
  | succ fuel ih =>
    rw [objectScan] at h
    split at h
    · cases h
    · rename_i char _
      dsimp only at h
      generalize (if char = '}' then s.goTo (s.index + 1) else s) = s₁ at h
      split at h
      · cases h
      · obtain ⟨⟨foundKey, s₂⟩, hkey, h⟩ := bind_eq_ok.mp h
        obtain ⟨k, hcolon, h⟩ := bind_eq_ok.mp h
        split at h
        · -- the value of the key: the text starts behind the colon
          have hcuts : Scan.Cuts json { s₂ with index := k, startIndex := k } :=
            ⟨Nat.le_refl _, (name_forward hkey hcolon).2⟩
          exact hcuts.reaches (digValue_forward fuel _ _ h).reaches
        · obtain ⟨s₃, -, h⟩ := bind_eq_ok.mp h
          split at h
          · cases h
          · obtain ⟨m, -, h⟩ := bind_eq_ok.mp h
            exact ih h

theorem digObject_cuts {key : Text} (fuel : Nat) (h : digObject fuel json (some key) s = .ok s') : s'.Cuts json := by
  cases fuel with
  | zero => nomatch h
  | succ fuel =>
    rw [digObject] at h
    obtain ⟨k, -, h⟩ := bind_eq_ok.mp h
    exact objectScan_cuts fuel h

theorem arrayScan_cuts {pos : Nat} (fuel current : Nat) (hs : s.Cuts json)
    (h : arrayScan fuel json (some pos) current s = .ok s') : s'.Cuts json := by
  induction fuel generalizing current s with
  | zero => nomatch h
  | succ fuel ih =>
    have hcomma : (s.goTo (s.index + 1)).Cuts json := hs.reaches (Scan.reaches_goTo (Nat.le_succ _))
    rw [arrayScan] at h
    split at h
    · cases h
      exact hs
    · cases h
      exact hcomma
    · rename_i hget
      have hlt := (List.getElem?_eq_some_iff.mp hget).1
      dsimp only at h
      split at h
      · split at h
        · cases h
          exact ⟨hcomma.start, hcomma.length⟩
        · have hnext : Scan.Cuts json { s.goTo (s.index + 1) with startIndex := (s.goTo (s.index + 1)).index } :=
            ⟨Nat.le_refl _, hlt⟩
          exact ih _ hnext h
      · exact ih _ hcomma h
    · obtain ⟨s₁, hvalue, h⟩ := bind_eq_ok.mp h
      exact ih _ (hs.reaches (digValue_forward fuel _ _ hvalue).reaches) h

theorem digArray_cuts {pos : Nat} (fuel : Nat) (h : digArray fuel json (some pos) s = .ok s') : s'.Cuts json := by
  cases fuel with
  | zero => nomatch h
  | succ fuel =>
    rw [digArray] at h
    obtain ⟨k, hk, h⟩ := bind_eq_ok.mp h
    obtain ⟨rfl, hlt⟩ := expect_forward hk
    exact arrayScan_cuts fuel 0 ⟨Nat.le_refl _, skipWhitespace_le hlt⟩ h

end Scans

/-! ## dig -/

/-- `json[start, length]`. -/
def substring (json : Text) (start : Nat) (length : Int) : Option Text :=
  if start ≤ json.length ∧ 0 ≤ length then some ((json.drop start).take length.toNat) else none

/-- What `dig` raises, a NoMethodError for `strip!` of nil among it. -/
inductive Raised where
  | failure (e : Failure)
  | noMethodError
deriving DecidableEq, Repr

/-- The scan of a round of `dig`. -/
def scanKey (json : Text) : DigKey → Except Failure Scan
  | .index i =>
    if i < 0 then .error (.raised .argumentError "Negative index is not supported")
    else digArray (3 * json.length + 3) json (some i.toNat) Scan.reset
  | .name k => digObject (3 * json.length + 3) json (some k) Scan.reset
  | .other className => .error (.raised .argumentError s!"Unsupported type: {className}")

/-- A round of `dig` in which the text that is cut out may be nil. -/
def digKeyChecked (json : Text) (key : DigKey) : Except Raised Text :=
  match scanKey json key with
  | .error e => .error (.failure e)
  | .ok s =>
    match substring json s.startIndex (s.index - s.startIndex) with
    | some t => .ok (strip t)
    | none => .error .noMethodError

def digChecked : Text → List DigKey → Except Raised Text
  | json, [] => .ok json
  | json, key :: keys =>
    match digKeyChecked json key with
    | .error e => .error e
    | .ok json => digChecked json keys

theorem digKey_eq (json : Text) (key : DigKey) : digKey json key = (scanKey json key).map (cut json) := by
  cases key with
  | index i =>
    rw [digKey, scanKey]
    split
    · rfl
    · rfl
  | name k => rfl
  | other className => rfl

/-- The key is negative or neither an Integer nor a String. -/
def DigKey.Refused : DigKey → Prop
  | .index i => i < 0
  | .name _ => False
  | .other _ => True

theorem scanKey_cuts {json : Text} {key : DigKey} {s : Scan} (h : scanKey json key = .ok s) : s.Cuts json := by
  cases key with
  | index i =>
    rw [scanKey] at h
    split at h
    · cases h
    · exact digArray_cuts _ h
  | name k => exact digObject_cuts _ h
  | other className => cases h

theorem digKeyChecked_eq (json : Text) (key : DigKey) :
    digKeyChecked json key = (digKey json key).mapError .failure := by
  rw [digKey_eq]
  unfold digKeyChecked
  cases hscan : scanKey json key with
  | error e => rfl
  | ok s =>
    have hcuts := scanKey_cuts hscan
    have hstart := hcuts.start
    have hnonneg : (0 : Int) ≤ (s.index : Int) - s.startIndex := by omega
    have hlength : ((s.index : Int) - s.startIndex).toNat = s.index - s.startIndex := by omega
    simp only [substring, if_pos (And.intro hcuts.length hnonneg), hlength]
    rfl

theorem digChecked_eq (json : Text) (keys : List DigKey) :
    digChecked json keys = (dig json keys).mapError .failure := by
  induction keys generalizing json with
  | nil => rfl
  | cons key keys ih =>
    rw [digChecked, digKeyChecked_eq, dig]
    cases hkey : digKey json key with
    | error e => rfl
    | ok json' => exact ih json'

theorem scanKey_errors (json : Text) (key : DigKey) :
    ErrorsIn (fun e => e.isJson = true ∨ key.Refused ∧ ∃ m, e = .raised .argumentError m) (scanKey json key) := by
  cases key with
  | index i =>
    rw [scanKey]
    split
    · exact ErrorsIn.error (.inr ⟨by assumption, _, rfl⟩)
    · intro e he
      exact .inl (digArray_errors _ _ _ (by rw [Scan.reset]; omega) (by omega) e he)
  | name k =>
    intro e he
    exact .inl (digObject_errors _ _ _ (by rw [Scan.reset]; omega) (by omega) e he)
  | other className => exact ErrorsIn.error (.inr ⟨trivial, _, rfl⟩)

/-- What `dig` may raise. -/
def Expected (keys : List DigKey) (e : Failure) : Prop :=
  ∃ cls m, e = .raised cls m ∧ (cls.isJson = true ∨ cls = .argumentError ∧ ∃ key ∈ keys, key.Refused)

theorem dig_errors (json : Text) (keys : List DigKey) : ErrorsIn (Expected keys) (dig json keys) := by
  induction keys generalizing json with
  | nil => exact ErrorsIn.ok
  | cons key keys ih =>
    rw [dig]
    refine ErrorsIn.bind ?_ ?_
    · rw [digKey_eq]
      apply ErrorsIn.map
      intro e he
      rcases scanKey_errors json key e he with hjson | ⟨hrefused, m, rfl⟩
      · cases e with
        | raised cls m => exact ⟨cls, m, rfl, .inl hjson⟩
        | outOfFuel => cases hjson
      · exact ⟨_, m, rfl, .inr ⟨rfl, key, List.mem_cons_self, hrefused⟩⟩
    · intro json' _ e he
      obtain ⟨cls, m, rfl, hcls⟩ := ih json' e he
      refine ⟨cls, m, rfl, hcls.imp_right ?_⟩
      rintro ⟨hargument, key', hmem, hrefused⟩
      exact ⟨hargument, key', List.mem_cons_of_mem _ hmem, hrefused⟩

/-- **Both parsers are total:** `JSON.parse` returns a value or raises a `JSON::JSONError`; `dig` returns or raises
one, or an ArgumentError where a key is refused. -/
theorem json_total (F : Type) [FloatArith F] (s : Text) (keys : List DigKey) :
    ((∃ v : Value F, parseText s = .ok v) ∨
      ∃ cls m, parseText (F := F) s = .error (.raised cls m) ∧ cls.isJson = true) ∧
    ((∃ t, digChecked s keys = .ok t) ∨
      ∃ e, digChecked s keys = .error (.failure e) ∧ Expected keys e) := by
  refine ⟨?_, ?_⟩
  · cases hparse : parseText (F := F) s with
    | ok v => exact .inl ⟨v, rfl⟩
    | error e =>
      have hjson := parseText_errors e hparse
      cases e with
      | raised cls m => exact .inr ⟨cls, m, rfl, hjson⟩
      | outOfFuel => cases hjson
  · rw [digChecked_eq]
    cases hdig : dig s keys with
    | ok t => exact .inl ⟨t, rfl⟩
    | error e => exact .inr ⟨e, rfl, dig_errors s keys e hdig⟩

end PicoRuby.Json
