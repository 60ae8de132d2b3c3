import Mathlib.Data.List.Basic

/-!
# Hashes in insertion order

A Ruby Hash as the list of its pairs in insertion order, each key once. Storing a list of
pairs one by one leaves, for every key, the last value stored under it.
-/

namespace PicoRuby.Shared

set_option autoImplicit false

universe u v
variable {K : Type u} {V : Type v} [DecidableEq K]

/-- `Hash#[]=`: the value of an existing key is replaced where it stands. -/
def hashSet : List (K × V) → K → V → List (K × V)
  | [], k, v => [(k, v)]
  | (k', v') :: l, k, v => if k' = k then (k, v) :: l else (k', v') :: hashSet l k v

/-- `Hash#[]`. -/
def hashGet (l : List (K × V)) (k : K) : Option V :=
  (l.find? fun kv => kv.1 = k).map Prod.snd

section Lookup
variable {l : List (K × V)} {k k' : K} {v : V}

theorem hashGet_hashSet_self : hashGet (hashSet l k v) k = some v := by
  induction l with
  | nil => simp [hashSet, hashGet]
  | cons kv l ih =>
    obtain ⟨k', v'⟩ := kv
    unfold hashSet
    split
    · simp [hashGet]
    · rename_i hne
      simpa [hashGet, hne] using ih

theorem hashGet_hashSet_of_ne (h : k' ≠ k) : hashGet (hashSet l k v) k' = hashGet l k' := by
  induction l with
  | nil => simp [hashSet, hashGet, Ne.symm h]
  | cons kv l ih =>
    obtain ⟨k₁, v₁⟩ := kv
    unfold hashSet
    split
    · rename_i heq
      subst heq
      simp [hashGet, Ne.symm h]
    · by_cases hk : k₁ = k'
      · simp [hashGet, hk]
      · simpa [hashGet, hk] using ih

theorem hashSet_of_not_mem (h : k ∉ l.map Prod.fst) : hashSet l k v = l ++ [(k, v)] := by
  induction l with
  | nil => rfl
  | cons kv l ih =>
    obtain ⟨k', v'⟩ := kv
    rw [List.map_cons, List.mem_cons, not_or] at h
    rw [hashSet, if_neg (Ne.symm h.1), ih h.2]
    rfl

theorem hashSet_concat {v' : V} (h : k ∉ l.map Prod.fst) : hashSet (l ++ [(k, v)]) k v' = l ++ [(k, v')] := by
  induction l with
  | nil => simp [hashSet]
  | cons kv l ih =>
    rw [List.map_cons, List.mem_cons, not_or] at h
    rw [List.cons_append, hashSet, if_neg (Ne.symm h.1), ih h.2]
    rfl

theorem hashGet_mem (h : hashGet l k = some v) : (k, v) ∈ l := by
  obtain ⟨kv, hkv, rfl⟩ := Option.map_eq_some_iff.mp h
  have hk : kv.1 = k := by simpa using List.find?_some hkv
  rw [← hk]
  exact List.mem_of_find?_eq_some hkv

/-- In a Hash, which has each key once, the pair with the key is the one that is found. -/
theorem hashGet_of_mem (hnodup : (l.map Prod.fst).Nodup) (h : (k, v) ∈ l) : hashGet l k = some v := by
  induction l with
  | nil => cases h
  | cons kv l ih =>
    obtain ⟨k', v'⟩ := kv
    rw [List.map_cons, List.nodup_cons] at hnodup
    rcases List.mem_cons.mp h with heq | hmem
    · cases heq
      simp [hashGet]
    · have hne : k' ≠ k := by
        rintro rfl
        exact hnodup.1 (List.mem_map.mpr ⟨_, hmem, rfl⟩)
      have hget := ih hnodup.2 hmem
      unfold hashGet at hget ⊢
      rw [List.find?_cons_of_neg (by simpa using hne), hget]

/-- What only one key gives something to. -/
theorem flatMap_of_hashGet {γ : Type*} {f : K × V → List γ} (hnodup : (l.map Prod.fst).Nodup)
    (h : hashGet l k = some v) (hf : ∀ kv ∈ l, kv.1 ≠ k → f kv = []) : l.flatMap f = f (k, v) := by
  induction l with
  | nil => cases h
  | cons kv l ih =>
    rw [List.map_cons, List.nodup_cons] at hnodup
    rw [List.flatMap_cons]
    by_cases hk : kv.1 = k
    · have hv : kv.2 = v := by simpa [hashGet, hk] using h
      have hrest : l.flatMap f = [] := by
        rw [List.flatMap_eq_nil_iff]
        intro kv' hkv'
        apply hf kv' (List.mem_cons_of_mem _ hkv')
        intro hk'
        apply hnodup.1
        rw [hk, ← hk']
        exact List.mem_map_of_mem hkv'
      rw [hrest, List.append_nil, ← hk, ← hv]
    · have hget : hashGet l k = some v := by simpa [hashGet, hk] using h
      rw [hf kv List.mem_cons_self hk, List.nil_append]
      exact ih hnodup.2 hget fun kv' hkv' => hf kv' (List.mem_cons_of_mem _ hkv')

theorem filter_of_hashGet (hnodup : (l.map Prod.fst).Nodup) (h : hashGet l k = some v) :
    l.filter (fun kv => kv.1 = k) = [(k, v)] := by
  have hflat := flatMap_of_hashGet (f := fun kv => if kv.1 = k then [kv] else []) hnodup h
    (fun kv _ hk => if_neg hk)
  rw [if_pos rfl] at hflat
  rw [← hflat, ← List.filterMap_eq_filter, List.filterMap_eq_flatMap_toList]
  congr 1
  funext kv
  by_cases hk : kv.1 = k
  · simp [hk]
  · simp [hk]

theorem hashSet_keys : (hashSet l k v).map Prod.fst =
    if k ∈ l.map Prod.fst then l.map Prod.fst else l.map Prod.fst ++ [k] := by
  induction l with
  | nil => simp [hashSet]
  | cons kv l ih =>
    obtain ⟨k', v'⟩ := kv
    unfold hashSet
    split
    · rename_i heq
      simp [heq]
    · rename_i hne
      rw [List.map_cons, ih]
      split
      · rename_i hmem
        simp [hmem]
      · rename_i hmem
        simp [hmem, Ne.symm hne]

theorem hashSet_nodup (h : (l.map Prod.fst).Nodup) : ((hashSet l k v).map Prod.fst).Nodup := by
  rw [hashSet_keys]
  split
  · exact h
  · rename_i hmem
    rw [List.nodup_append]
    refine ⟨h, by simp, ?_⟩
    intro a ha b hb
    rw [List.mem_singleton] at hb
    rintro rfl
    exact hmem (hb ▸ ha)

theorem mem_hashSet {kv : K × V} (h : kv ∈ hashSet l k v) : kv = (k, v) ∨ kv ∈ l := by
  induction l with
  | nil => exact Or.inl (List.mem_singleton.mp h)
  | cons kv' l ih =>
    obtain ⟨k', v'⟩ := kv'
    unfold hashSet at h
    split at h
    · rcases List.mem_cons.mp h with heq | hmem
      · exact Or.inl heq
      · exact Or.inr (List.mem_cons_of_mem _ hmem)
    · rcases List.mem_cons.mp h with heq | hmem
      · exact Or.inr (heq ▸ List.mem_cons_self)
      · rcases ih hmem with heq | hmem
        · exact Or.inl heq
        · exact Or.inr (List.mem_cons_of_mem _ hmem)

/-- Storing looks at keys only to find the place. -/
theorem hashSet_keys_congr {l' : List (K × V)} {v' : V} (h : l.map Prod.fst = l'.map Prod.fst) :
    (hashSet l k v).map Prod.fst = (hashSet l' k v').map Prod.fst := by
  rw [hashSet_keys, hashSet_keys, h]

end Lookup

/-- Two Hashes with the same keys in the same order are equal if they agree on every key. -/
theorem hash_ext {l l' : List (K × V)} (hkeys : l.map Prod.fst = l'.map Prod.fst)
    (hnodup : (l.map Prod.fst).Nodup) (hget : ∀ k, hashGet l k = hashGet l' k) : l = l' := by
  induction l generalizing l' with
  | nil =>
    cases l' with
    | nil => rfl
    | cons => cases hkeys
  | cons kv l ih =>
    cases l' with
    | nil => cases hkeys
    | cons kv' l' =>
      obtain ⟨k, v⟩ := kv
      obtain ⟨k', v'⟩ := kv'
      rw [List.map_cons, List.map_cons, List.cons.injEq] at hkeys
      rw [List.map_cons, List.nodup_cons] at hnodup
      obtain ⟨rfl, htail⟩ := hkeys
      have hhead : v = v' := by simpa [hashGet] using hget k
      refine congrArg₂ List.cons (by rw [hhead]) (ih htail hnodup.2 fun a => ?_)
      by_cases ha : k = a
      · subst ha
        have hnone : ∀ m : List (K × V), k ∉ m.map Prod.fst → hashGet m k = none := by
          intro m hm
          rw [hashGet, Option.map_eq_none_iff, List.find?_eq_none]
          intro kv hkv heq
          exact hm (List.mem_map.mpr ⟨kv, hkv, by simpa using heq⟩)
        rw [hnone l hnodup.1, hnone l' (htail ▸ hnodup.1)]
      · simpa [hashGet, ha] using hget a

/-! ## Storing a list of pairs -/

/-- The Hash `h` after the pairs have been stored in order. -/
def storeInto (h : List (K × V)) (l : List (K × V)) : List (K × V) :=
  l.foldl (fun h kv => hashSet h kv.1 kv.2) h

/-- The last value that the pairs give the key. -/
def lastValue : List (K × V) → K → Option V
  | [], _ => none
  | (k', v) :: l, k => (lastValue l k).or (if k' = k then some v else none)

section Store
variable {h l l' : List (K × V)} {k : K}

theorem lastValue_snoc {k' : K} {v : V} : lastValue (l ++ [(k', v)]) k = if k' = k then some v else lastValue l k := by
  induction l with
  | nil =>
    rw [List.nil_append, lastValue, lastValue]
    rfl
  | cons kv l ih =>
    rw [List.cons_append, lastValue, lastValue, ih]
    split
    · rfl
    · rfl

/-- The last one wins. -/
theorem hashGet_storeInto : hashGet (storeInto h l) k = (lastValue l k).or (hashGet h k) := by
  induction l generalizing h with
  | nil => rfl
  | cons kv l ih =>
    obtain ⟨k', v⟩ := kv
    change hashGet (storeInto (hashSet h k' v) l) k = _
    rw [ih, lastValue, Option.or_assoc]
    congr 1
    by_cases hk : k' = k
    · subst hk
      rw [hashGet_hashSet_self, if_pos rfl]
      rfl
    · rw [hashGet_hashSet_of_ne (Ne.symm hk), if_neg hk]
      rfl

theorem storeInto_nodup (hn : (h.map Prod.fst).Nodup) : ((storeInto h l).map Prod.fst).Nodup := by
  induction l generalizing h with
  | nil => exact hn
  | cons kv l ih => exact ih (hashSet_nodup hn)

theorem storeInto_keys_congr {h' : List (K × V)} (hh : h.map Prod.fst = h'.map Prod.fst)
    (hl : l.map Prod.fst = l'.map Prod.fst) :
    (storeInto h l).map Prod.fst = (storeInto h' l').map Prod.fst := by
  induction l generalizing h h' l' with
  | nil =>
    cases l' with
    | nil => exact hh
    | cons => cases hl
  | cons kv l ih =>
    cases l' with
    | nil => cases hl
    | cons kv' l' =>
      rw [List.map_cons, List.map_cons, List.cons.injEq] at hl
      obtain ⟨k, v⟩ := kv
      obtain ⟨k', v'⟩ := kv'
      obtain ⟨rfl, htail⟩ := hl
      change (storeInto (hashSet h k v) l).map Prod.fst = (storeInto (hashSet h' k v') l').map Prod.fst
      exact ih (hashSet_keys_congr hh) htail

/-- Pairs with the same keys build the same Hash when their last values agree. -/
theorem storeInto_eq_iff (hl : l.map Prod.fst = l'.map Prod.fst) :
    storeInto [] l = storeInto [] l' ↔ ∀ k, lastValue l k = lastValue l' k := by
  have hlast : ∀ (m : List (K × V)) (k : K), hashGet (storeInto [] m) k = lastValue m k := by
    intro m k
    rw [hashGet_storeInto]
    exact Option.or_none
  constructor
  · intro heq k
    rw [← hlast, heq, hlast]
  · intro hval
    refine hash_ext (storeInto_keys_congr rfl hl) (storeInto_nodup List.nodup_nil) fun k => ?_
    rw [hlast, hlast, hval]

theorem lastValue_isSome : (lastValue l k).isSome = true ↔ k ∈ l.map Prod.fst := by
  induction l with
  | nil => simp [lastValue]
  | cons kv l ih =>
    obtain ⟨k', v⟩ := kv
    rw [lastValue, Option.isSome_or, Bool.or_eq_true, ih, List.map_cons, List.mem_cons, or_comm]
    by_cases hk : k' = k
    · simp [hk]
    · simp [hk, Ne.symm hk]

theorem lastValue_eq_none (hk : k ∉ l.map Prod.fst) : lastValue l k = none := by
  rw [← Option.not_isSome_iff_eq_none, lastValue_isSome]
  exact hk

end Store

end PicoRuby.Shared
