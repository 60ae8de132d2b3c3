import Mathlib.Data.List.Basic

/-!
# String and Array objects

Strings, and Arrays of Strings, by reference. What is changed in place changes for everyone who refers to
it; a new object is at a new place.
-/

namespace PicoRuby.Shared

set_option autoImplicit false

structure Objects where
  strings : List (List Char)
  arrays : List (List Nat)
deriving DecidableEq, Repr

namespace Objects

def string (o : Objects) (ref : Nat) : List Char := o.strings.getD ref []

def array (o : Objects) (ref : Nat) : List Nat := o.arrays.getD ref []

def newString (o : Objects) (s : List Char) : Nat × Objects :=
  (o.strings.length, { o with strings := o.strings ++ [s] })

def newArray (o : Objects) (l : List Nat) : Nat × Objects :=
  (o.arrays.length, { o with arrays := o.arrays ++ [l] })

/-- A String is changed in place. -/
def setString (o : Objects) (ref : Nat) (s : List Char) : Objects := { o with strings := o.strings.set ref s }

/-- An Array is changed in place. -/
def setArray (o : Objects) (ref : Nat) (l : List Nat) : Objects := { o with arrays := o.arrays.set ref l }

/-- A new String is put into an Array, which is then `l` of it. -/
def storeNew (o : Objects) (ref : Nat) (s : List Char) (l : Nat → List Nat) : Objects :=
  (o.newString s).2.setArray ref (l (o.newString s).1)

/-- `[""]`. -/
def newBlank (o : Objects) : Nat × Objects := (o.newString []).2.newArray [(o.newString []).1]

/-- The Strings of an Array. -/
def texts (o : Objects) (ref : Nat) : List (List Char) := (o.array ref).map o.string

/-- An Array that is there, with Strings that are there. -/
structure Live (o : Objects) (ref : Nat) : Prop where
  array : ref < o.arrays.length
  strings : ∀ s ∈ o.array ref, s < o.strings.length

variable {o o' o'' : Objects} {ref other : Nat} {s : List Char} {l : List Nat}

/-! ## Reading back -/

theorem newString_string : (o.newString s).2.string o.strings.length = s := by
  simp [newString, string]

theorem newString_string_of_lt (h : ref < o.strings.length) :
    (o.newString s).2.string ref = o.string ref := by
  simp [newString, string, List.getElem?_append_left h]

@[simp] theorem newString_array : (o.newString s).2.array = o.array := rfl

@[simp] theorem newString_arrays : (o.newString s).2.arrays = o.arrays := rfl

@[simp] theorem newString_length : (o.newString s).2.strings.length = o.strings.length + 1 := by
  simp [newString]

theorem setString_string (h : ref < o.strings.length) : (o.setString ref s).string ref = s := by
  simp [setString, string, h]

theorem setString_string_of_ne (h : other ≠ ref) : (o.setString ref s).string other = o.string other := by
  simp [setString, string, List.getElem?_set_ne h.symm]

theorem setString_self : o.setString ref (o.string ref) = o := by
  unfold setString string
  by_cases hlt : ref < o.strings.length
  · simp [hlt]
  · rw [List.set_eq_of_length_le (Nat.le_of_not_lt hlt)]

@[simp] theorem setString_array : (o.setString ref s).array = o.array := rfl

@[simp] theorem setString_arrays : (o.setString ref s).arrays = o.arrays := rfl

@[simp] theorem setString_length : (o.setString ref s).strings.length = o.strings.length := by
  simp [setString]

theorem setArray_array (h : ref < o.arrays.length) : (o.setArray ref l).array ref = l := by
  simp [setArray, array, h]

theorem setArray_array_of_ne (h : other ≠ ref) : (o.setArray ref l).array other = o.array other := by
  simp [setArray, array, List.getElem?_set_ne h.symm]

@[simp] theorem setArray_string : (o.setArray ref l).string = o.string := rfl

@[simp] theorem setArray_strings : (o.setArray ref l).strings = o.strings := rfl

@[simp] theorem setArray_length : (o.setArray ref l).arrays.length = o.arrays.length := by
  simp [setArray]

theorem newArray_array : (o.newArray l).2.array o.arrays.length = l := by
  simp [newArray, array]

theorem newArray_array_of_lt (h : ref < o.arrays.length) : (o.newArray l).2.array ref = o.array ref := by
  simp [newArray, array, List.getElem?_append_left h]

@[simp] theorem newArray_string : (o.newArray l).2.string = o.string := rfl

@[simp] theorem newArray_strings : (o.newArray l).2.strings = o.strings := rfl

@[simp] theorem newArray_length : (o.newArray l).2.arrays.length = o.arrays.length + 1 := by
  simp [newArray]

/-! ## What changes with an Array -/

/-- Only the Array and the Strings that were in it have changed; what is in it now was in it or is new. -/
structure Within (o o' : Objects) (ref : Nat) : Prop where
  arrays : o'.arrays.length = o.arrays.length
  strings : o.strings.length ≤ o'.strings.length
  array : ∀ other, other ≠ ref → o'.array other = o.array other
  string : ∀ s < o.strings.length, s ∉ o.array ref → o'.string s = o.string s
  refs : ∀ s ∈ o'.array ref, s ∈ o.array ref ∨ o.strings.length ≤ s ∧ s < o'.strings.length

theorem Within.refl : Within o o ref :=
  ⟨rfl, Nat.le_refl _, fun _ _ => rfl, fun _ _ _ => rfl, fun _ h => Or.inl h⟩

theorem Within.trans (h : Within o o' ref) (h' : Within o' o'' ref) : Within o o'' ref := by
  refine ⟨h'.arrays.trans h.arrays, Nat.le_trans h.strings h'.strings, ?_, ?_, ?_⟩
  · intro other hne
    rw [h'.array other hne, h.array other hne]
  · intro s hlt hmem
    have hmem' : s ∉ o'.array ref := by
      intro hin
      rcases h.refs s hin with hin | hin
      · exact hmem hin
      · omega
    rw [h'.string s (Nat.lt_of_lt_of_le hlt h.strings) hmem', h.string s hlt hmem]
  · intro s hin
    rcases h'.refs s hin with hin | hin
    · rcases h.refs s hin with hin | hin
      · exact Or.inl hin
      · exact Or.inr ⟨hin.1, Nat.lt_of_lt_of_le hin.2 h'.strings⟩
    · exact Or.inr ⟨Nat.le_trans h.strings hin.1, hin.2⟩

theorem Within.live (h : Within o o' ref) (hlive : o.Live ref) : o'.Live ref := by
  constructor
  · rw [h.arrays]
    exact hlive.array
  · intro s hin
    rcases h.refs s hin with hin | hin
    · exact Nat.lt_of_lt_of_le (hlive.strings s hin) h.strings
    · exact hin.2

theorem within_setString {str : Nat} (h : str ∈ o.array ref) : Within o (o.setString str s) ref := by
  refine ⟨rfl, ?_, fun _ _ => rfl, ?_, fun _ h => Or.inl h⟩
  · simp
  · intro s' _ hnot
    apply setString_string_of_ne
    rintro rfl
    exact hnot h

theorem within_setArray (hlive : ref < o.arrays.length) (h : ∀ s ∈ l, s ∈ o.array ref) :
    Within o (o.setArray ref l) ref := by
  refine ⟨setArray_length, Nat.le_refl _, fun _ hne => setArray_array_of_ne hne, fun _ _ _ => rfl, ?_⟩
  intro s hin
  rw [setArray_array hlive] at hin
  exact Or.inl (h s hin)

theorem within_storeNew {place : Nat → List Nat} (hlive : ref < o.arrays.length)
    (h : ∀ str ∈ place o.strings.length, str ∈ o.array ref ∨ str = o.strings.length) :
    Within o (o.storeNew ref s place) ref := by
  unfold storeNew
  refine ⟨setArray_length, ?_, fun _ hne => setArray_array_of_ne hne, ?_, ?_⟩
  · simp
  · intro str hlt _
    exact newString_string_of_lt hlt
  · intro str hin
    rw [setArray_array (by exact hlive)] at hin
    rcases h str hin with hin | rfl
    · exact Or.inl hin
    · right
      simp

theorem Within.live_other (h : Within o o' ref) (hlive : o.Live other) (hne : other ≠ ref) : o'.Live other := by
  constructor
  · rw [h.arrays]
    exact hlive.array
  · intro str hin
    rw [h.array other hne] at hin
    exact Nat.lt_of_lt_of_le (hlive.strings str hin) h.strings

/-- An Array that shares no String with it reads as before. -/
theorem Within.texts (h : Within o o' ref) (hlive : o.Live other) (hne : other ≠ ref)
    (hapart : ∀ str ∈ o.array ref, str ∉ o.array other) : o'.texts other = o.texts other := by
  unfold Objects.texts
  rw [h.array other hne]
  apply List.map_congr_left
  intro str hin
  exact h.string str (hlive.strings str hin) fun hmem => hapart str hmem hin

/-! ## A new Array with an empty String -/

theorem newBlank_array : o.newBlank.2.array o.arrays.length = [o.strings.length] := newArray_array

theorem newBlank_array_of_live (h : o.Live ref) : o.newBlank.2.array ref = o.array ref :=
  newArray_array_of_lt h.array

theorem newBlank_texts : o.newBlank.2.texts o.arrays.length = [[]] := by
  unfold texts
  rw [newBlank_array]
  exact congrArg (· :: []) newString_string

theorem newBlank_live : o.newBlank.2.Live o.arrays.length := by
  constructor
  · apply Nat.lt_of_lt_of_eq (Nat.lt_succ_self _)
    exact newArray_length.symm
  · intro str hin
    rw [newBlank_array, List.mem_singleton] at hin
    rw [hin]
    apply Nat.lt_of_lt_of_eq (Nat.lt_succ_self _)
    exact newString_length.symm

theorem newBlank_live_of_live (h : o.Live ref) : o.newBlank.2.Live ref := by
  constructor
  · apply Nat.lt_of_lt_of_eq (Nat.lt_succ_of_lt h.array)
    exact newArray_length.symm
  · intro str hin
    rw [newBlank_array_of_live h] at hin
    apply Nat.lt_of_lt_of_eq (Nat.lt_succ_of_lt (h.strings str hin))
    exact newString_length.symm

theorem newBlank_texts_of_live (h : o.Live ref) : o.newBlank.2.texts ref = o.texts ref := by
  unfold texts
  rw [newBlank_array_of_live h]
  apply List.map_congr_left
  intro str hin
  exact newString_string_of_lt (h.strings str hin)

/-! ## The Strings of the Array -/

theorem texts_setArray (hlive : ref < o.arrays.length) : (o.setArray ref l).texts ref = l.map o.string := by
  unfold texts
  rw [setArray_array hlive]
  rfl

theorem texts_storeNew {place : Nat → List Nat} (hlive : ref < o.arrays.length) :
    (o.storeNew ref s place).texts ref = (place o.strings.length).map (o.newString s).2.string :=
  texts_setArray (by exact hlive)

theorem map_newString (h : ∀ str ∈ l, str < o.strings.length) :
    l.map (o.newString s).2.string = l.map o.string :=
  List.map_congr_left fun str hin => newString_string_of_lt (h str hin)

/-- The Strings with a new one among those that were there. -/
theorem texts_storeNew_eq {place : Nat → List Nat} {before after : List Nat} (hlive : o.Live ref)
    (hplace : place o.strings.length = before ++ o.strings.length :: after)
    (hmem : ∀ str ∈ before ++ after, str ∈ o.array ref) :
    (o.storeNew ref s place).texts ref = before.map o.string ++ s :: after.map o.string := by
  have hlt (str : Nat) (hin : str ∈ before ++ after) : str < o.strings.length :=
    hlive.strings str (hmem str hin)
  rw [texts_storeNew hlive.array, hplace, List.map_append, List.map_cons, newString_string,
    map_newString fun str hin => hlt str (List.mem_append_left after hin),
    map_newString fun str hin => hlt str (List.mem_append_right before hin)]

/-- A String that is at one place of the Array only. -/
theorem texts_setString {i : Nat} (hlive : o.Live ref) (hi : (o.array ref)[i]? = some other)
    (hone : ∀ j, (o.array ref)[j]? = some other → j = i) :
    (o.setString other s).texts ref = (o.texts ref).set i s := by
  apply List.ext_getElem?
  intro j
  unfold texts
  rw [setString_array, List.getElem?_map, List.getElem?_set, List.getElem?_map, List.length_map]
  obtain ⟨hlt, -⟩ := List.getElem?_eq_some_iff.mp hi
  by_cases hj : i = j
  · subst hj
    rw [if_pos rfl, if_pos hlt, hi, Option.map_some,
      setString_string (hlive.strings other (List.mem_of_getElem? hi))]
  · rw [if_neg hj]
    cases hget : (o.array ref)[j]? with
    | none => rfl
    | some str =>
      have hne : str ≠ other := by
        rintro rfl
        exact hj (hone j hget).symm
      rw [Option.map_some, Option.map_some, setString_string_of_ne hne]

/-! ## Strings at one place only -/

/-- No two places of the Array have the same String, unless it is empty. -/
def Unshared (o : Objects) (ref : Nat) : Prop :=
  (o.array ref).Pairwise fun s s' => s = s' → o.string s = []

theorem Unshared.eq (h : o.Unshared ref) {i j : Nat} (hi : (o.array ref)[i]? = some other)
    (hj : (o.array ref)[j]? = some other) (hs : o.string other ≠ []) : i = j := by
  obtain ⟨hilt, hi⟩ := List.getElem?_eq_some_iff.mp hi
  obtain ⟨hjlt, hj⟩ := List.getElem?_eq_some_iff.mp hj
  have hpair := List.pairwise_iff_getElem.mp h
  rcases Nat.lt_trichotomy i j with hlt | heq | hlt
  · have hnil := hpair i j hilt hjlt hlt (hi.trans hj.symm)
    rw [hi] at hnil
    exact absurd hnil hs
  · exact heq
  · have hnil := hpair j i hjlt hilt hlt (hj.trans hi.symm)
    rw [hj] at hnil
    exact absurd hnil hs

theorem Unshared.setArray (h : o.Unshared ref) (hlive : ref < o.arrays.length)
    (hl : l.Sublist (o.array ref)) : (o.setArray ref l).Unshared ref := by
  unfold Unshared
  rw [setArray_array hlive]
  exact List.Pairwise.sublist hl h

/-- A new String is not shared. -/
theorem Unshared.storeNew {place : Nat → List Nat} {before after rest : List Nat} (h : o.Unshared ref)
    (hlive : o.Live ref) (hrest : (before ++ rest).Sublist (o.array ref)) (hafter : after.Sublist rest)
    (hplace : place o.strings.length = before ++ o.strings.length :: after) :
    (o.storeNew ref s place).Unshared ref := by
  have hsub : (before ++ after).Sublist (o.array ref) :=
    (List.Sublist.append_left hafter before).trans hrest
  have hlt (str : Nat) (hin : str ∈ before ++ after) : str < o.strings.length :=
    hlive.strings str (hsub.subset hin)
  have hold : (before ++ after).Pairwise fun str str' => str = str' → (o.newString s).2.string str = [] := by
    apply List.Pairwise.imp_of_mem _ (List.Pairwise.sublist hsub h)
    intro str str' hin _ hnil heq
    rw [newString_string_of_lt (hlt str hin)]
    exact hnil heq
  unfold Unshared Objects.storeNew
  rw [setArray_array (by exact hlive.array)]
  change (place o.strings.length).Pairwise _
  rw [hplace]
  rw [List.pairwise_append] at hold ⊢
  refine ⟨hold.1, List.pairwise_cons.mpr ⟨?_, hold.2.1⟩, ?_⟩
  · rintro str hin rfl
    exact absurd (hlt _ (List.mem_append_right before hin)) (Nat.lt_irrefl _)
  · intro str hin str' hin' heq
    rcases List.mem_cons.mp hin' with rfl | hin'
    · rw [heq] at hin
      exact absurd (hlt _ (List.mem_append_left after hin)) (Nat.lt_irrefl _)
    · exact hold.2.2 str hin str' hin' heq

theorem Unshared.setString (h : o.Unshared ref) (hs : o.string other ≠ []) :
    (o.setString other s).Unshared ref := by
  unfold Unshared
  apply List.Pairwise.imp _ h
  rintro str str' hnil rfl
  have hne : str ≠ other := by
    rintro rfl
    exact hs (hnil rfl)
  rw [setString_string_of_ne hne]
  exact hnil rfl

end Objects

end PicoRuby.Shared
