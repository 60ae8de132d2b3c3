import PicoRuby.Via.BufferLoops
import PicoRuby.Via.Saving

/-!
# Round trips of a buffer

What the host has written comes back, and nothing else has changed, if every key code has a name: on a
split keyboard, on a square one, and on the others as far as a layer's first keys, which both ways of
dividing put in the first row.
-/

namespace PicoRuby.Via

open Shared Keyboard
open Board (noGems)

set_option autoImplicit false

namespace ViaState

/-! ## Commands -/

section Receive
variable {gems : Gems} {required : Required} {v v' : ViaState} {kbd kbd' : Kbd} {data data' : Data}

theorem rawHidReceive_viaSetBuffer :
    rawHidReceive gems required .viaSetBuffer data (v, kbd) =
      (v.dynamicKeymapSetBuffer kbd.layout data).map fun v => (data, v, kbd) := by
  unfold rawHidReceive
  dsimp only
  cases v.dynamicKeymapSetBuffer kbd.layout data with
  | none => rfl
  | some v => rfl

theorem rawHidReceive_viaGetBuffer_eq_some
    (h : rawHidReceive gems required .viaGetBuffer data (v, kbd) = some (data', v', kbd')) :
    v.dynamicKeymapGetBuffer kbd.layout data = some data' ∧ v'.keymaps = v.keymaps ∧
      (v.keymapSaved = false → (v.saveOnKeyboard gems required kbd).isSome = true) := by
  obtain ⟨data₁, hdata, h⟩ := Option.bind_eq_some_iff.mp h
  cases hsaved : v.keymapSaved with
  | true =>
    rw [hsaved, if_pos rfl] at h
    cases h
    exact ⟨hdata, rfl, nofun⟩
  | false =>
    rw [hsaved, if_neg Bool.false_ne_true] at h
    obtain ⟨⟨v₁, kbd₁⟩, hsave, h⟩ := Option.bind_eq_some_iff.mp h
    cases h
    refine ⟨hdata, (saveLayers_eq_some hsave).1.keymaps, fun _ => ?_⟩
    rw [hsave]
    rfl

theorem rawHidReceive_viaGetBuffer_isSome (gems : Gems) (required : Required)
    (hdata : v.dynamicKeymapGetBuffer kbd.layout data = some data')
    (hsave : v.keymapSaved = false → (v.saveOnKeyboard gems required kbd).isSome = true) :
    ∃ v' kbd', rawHidReceive gems required .viaGetBuffer data (v, kbd) = some (data', v', kbd') := by
  unfold rawHidReceive
  cases hsaved : v.keymapSaved with
  | true => exact ⟨v, kbd, by simp [hdata, hsaved]⟩
  | false =>
    obtain ⟨⟨v₁, kbd₁⟩, hsome⟩ := Option.isSome_iff_exists.mp (hsave hsaved)
    exact ⟨{ v₁ with keymapSaved := true }, kbd₁, by simp [hdata, hsaved, hsome]⟩

end Receive

end ViaState

/-! ## Requests -/

/-- A part of the keymaps that a request can address. -/
structure BufferRange (layers : Nat) (k : Layout) where
  offset : Nat
  size : Nat
  offset_even : offset % 2 = 0
  size_even : size % 2 = 0
  offset_lt : offset < 0x10000
  size_lt : size < 0x100
  inside : offset / 2 + size / 2 ≤ layers * (colsSize k * rowsSize k)

namespace BufferRange
variable {layers : Nat} {k : Layout} (r : BufferRange layers k)

/-- A request; the index of the command in `VIA_IDs` is not looked at any more. -/
def request (id : Nat) (bytes : List Nat) : Data :=
  [some id, some (r.offset >>> 8), some (r.offset &&& 0xFF), some r.size] ++ bytes.map some

/-- A cell that a request is about. -/
def Addresses (cell : Nat × Nat × Nat) : Prop :=
  ∃ j < r.size / 2, cell = address k (getWidth k) (r.offset / 2 + j)

/-- The keys whose numbers both ways of dividing take apart alike. -/
def Convertible : Prop :=
  0 < rowsSize k ∧ 0 < colsSize k ∧ (k.split = true ∨ rowsSize k = colsSize k ∨
    ∀ j < r.size / 2, (r.offset / 2 + j) % (colsSize k * rowsSize k) < min (rowsSize k) (colsSize k))

variable {r} {v : ViaState} {id : Nat} {bytes : List Nat}

theorem arrayGet_request {j : Nat} : arrayGet (r.request id bytes) (j + 4) = bytes[j]? := by
  unfold request arrayGet
  rw [List.getElem?_append_right (by simp)]
  simp only [List.length_cons, List.length_nil, Nat.zero_add, Nat.add_sub_cancel, List.getElem?_map]
  cases bytes[j]? with
  | none => rfl
  | some byte => rfl

theorem wordAt_request {j : Nat} : ViaState.wordAt (r.request id bytes) j = do
    return (← bytes[j * 2]?) <<< 8 ||| (← bytes[j * 2 + 1]?) := by
  unfold ViaState.wordAt
  rw [arrayGet_request, show j * 2 + 5 = j * 2 + 1 + 4 from rfl, arrayGet_request]

theorem word_eq {hi lo : Nat} (hlo : lo < 0x100) : hi <<< 8 ||| lo = hi * 256 + lo := by
  rw [← Nat.shiftLeft_add_eq_or_of_lt hlo, Nat.shiftLeft_eq]

theorem low_eq (n : Nat) : n &&& 0xFF = n % 256 := Nat.and_two_pow_sub_one_eq_mod n 8

theorem offset_eq : r.offset >>> 8 <<< 8 ||| r.offset &&& 0xFF = r.offset := by
  rw [low_eq, word_eq (Nat.mod_lt _ (by omega)), Nat.shiftRight_eq_div_pow]
  omega

theorem dynamicKeymapGetBuffer_request (hcells : 0 < colsSize k * rowsSize k) :
    v.dynamicKeymapGetBuffer k (r.request id bytes) =
      ViaState.getLoop k v (r.size / 2) 0 (r.offset / 2 / (colsSize k * rowsSize k))
        (r.offset / 2 % (colsSize k * rowsSize k)) (r.request id bytes) := by
  have hkey : r.offset / 2 - r.offset / 2 / (colsSize k * rowsSize k) * (colsSize k * rowsSize k) =
      r.offset / 2 % (colsSize k * rowsSize k) := by
    rw [Nat.mod_eq_sub_div_mul]
  unfold ViaState.dynamicKeymapGetBuffer
  simp only [request, arrayGet, List.cons_append, List.getElem?_cons_succ, List.getElem?_cons_zero,
    Option.join_some, Option.bind_eq_bind, Option.bind_some, offset_eq]
  rw [if_neg (by omega), hkey]

theorem dynamicKeymapSetBuffer_request (hcells : 0 < colsSize k * rowsSize k) :
    v.dynamicKeymapSetBuffer k (r.request id bytes) =
      ViaState.setLoop k (r.request id bytes) (r.size / 2) 0 (r.offset / 2 / (colsSize k * rowsSize k))
        (r.offset / 2 % (colsSize k * rowsSize k)) v := by
  have hkey : r.offset / 2 - r.offset / 2 / (colsSize k * rowsSize k) * (colsSize k * rowsSize k) =
      r.offset / 2 % (colsSize k * rowsSize k) := by
    rw [Nat.mod_eq_sub_div_mul]
  unfold ViaState.dynamicKeymapSetBuffer
  simp only [request, arrayGet, List.cons_append, List.getElem?_cons_succ, List.getElem?_cons_zero,
    Option.join_some, Option.bind_eq_bind, Option.bind_some, offset_eq]
  rw [if_neg (by omega), hkey]

theorem dynamicKeymapSetBuffer_none (h : colsSize k * rowsSize k = 0) :
    v.dynamicKeymapSetBuffer k (r.request id bytes) = none := by
  unfold ViaState.dynamicKeymapSetBuffer
  simp only [request, arrayGet, List.cons_append, List.getElem?_cons_succ, List.getElem?_cons_zero,
    Option.join_some, Option.bind_eq_bind, Option.bind_some, h, if_true]

/-! ## Round trips -/

variable (r) (gems : Gems) (required : Required)

/-- Writing and reading back returns the bytes, and keeps all other key codes. -/
def RoundTrips (bytes rest : List Nat) (v : ViaState) (kbd : Kbd) : Prop :=
  ∃ sent v₁ kbd₁ resp v₂ kbd₂,
    ViaState.rawHidReceive gems required .viaSetBuffer (r.request 0x13 bytes) (v, kbd) =
      some (sent, v₁, kbd₁) ∧
    ViaState.rawHidReceive gems required .viaGetBuffer (r.request 0x12 rest) (v₁, kbd₁) =
      some (resp, v₂, kbd₂) ∧
    (∀ j < r.size, arrayGet resp (j + 4) = bytes[j]?) ∧
    ∀ cell, ¬ r.Addresses cell → v₂.keycodeIn cell = v.keycodeIn cell

/-- All key codes that are kept or sent have names. -/
structure Nameable (bytes : List Nat) (v : ViaState) : Prop where
  kept (layer row col keycode : Nat) (hlayer : layer < layers) (hrow : row < rowsSize k)
    (hcol : col < colsSize k) (hother : ¬ r.Addresses (layer, row, col))
    (hkeycode : v.keycodeAt layer row col = some keycode) : ¬ Unnamed keycode
  sent (j hi lo : Nat) (hj : j < r.size / 2) (hhi : bytes[j * 2]? = some hi)
    (hlo : bytes[j * 2 + 1]? = some lo) : ¬ Unnamed (hi * 256 + lo)

variable {r} {gems} {required} {rest : List Nat} {kbd : Kbd}

/-- The setter finds the cell that the getter finds. -/
theorem address_setWidth (h : r.Convertible) {j : Nat} (hj : j < r.size / 2) :
    address k (setWidth k) (r.offset / 2 + j) = address k (getWidth k) (r.offset / 2 + j) := by
  obtain ⟨-, -, hsplit | hsquare | hfirst⟩ := h
  · rw [setWidth, getWidth, if_pos hsplit, if_pos hsplit]
  · rw [setWidth, getWidth, hsquare]
  · have hlt := hfirst j hj
    have hrows := Nat.lt_of_lt_of_le hlt (Nat.min_le_left _ _)
    have hcols := Nat.lt_of_lt_of_le hlt (Nat.min_le_right _ _)
    unfold address setWidth getWidth
    split
    · rfl
    · dsimp only
      rw [Nat.div_eq_of_lt hrows, Nat.div_eq_of_lt hcols, Nat.mod_eq_of_lt hrows, Nat.mod_eq_of_lt hcols]

/-- Otherwise it finds another one for a key in a later row. -/
theorem address_setWidth_ne {n : Nat} (hsplit : k.split = false) (hrows : 0 < rowsSize k)
    (hcols : 0 < colsSize k) (hne : rowsSize k ≠ colsSize k)
    (hlater : min (rowsSize k) (colsSize k) ≤ n % (colsSize k * rowsSize k)) :
    address k (setWidth k) n ≠ address k (getWidth k) n := by
  intro heq
  unfold address setWidth getWidth place at heq
  simp only [hsplit, Bool.false_eq_true, false_and, if_false, Prod.mk.injEq, true_and] at heq
  obtain ⟨hdiv, hmod⟩ := heq
  have hbyRows := Nat.div_add_mod (n % (colsSize k * rowsSize k)) (rowsSize k)
  have hbyCols := Nat.div_add_mod (n % (colsSize k * rowsSize k)) (colsSize k)
  rw [← hdiv, ← hmod] at hbyCols
  have hmul : rowsSize k * (n % (colsSize k * rowsSize k) / rowsSize k) =
      colsSize k * (n % (colsSize k * rowsSize k) / rowsSize k) := by omega
  rcases Nat.eq_zero_or_pos (n % (colsSize k * rowsSize k) / rowsSize k) with hzero | hpos
  · rw [hzero] at hdiv
    have hltRows : n % (colsSize k * rowsSize k) < rowsSize k := by
      rcases (Nat.div_eq_zero_iff).mp hzero with h | h
      · omega
      · exact h
    have hltCols : n % (colsSize k * rowsSize k) < colsSize k := by
      rcases (Nat.div_eq_zero_iff).mp hdiv.symm with h | h
      · omega
      · exact h
    omega
  · exact hne (Nat.eq_of_mul_eq_mul_right hpos hmul)

theorem layer_lt (hcells : 0 < colsSize k * rowsSize k) {j : Nat} (hj : j < r.size / 2) :
    (address k (getWidth k) (r.offset / 2 + j)).1 < layers := by
  have hinside := r.inside
  unfold address
  rw [Nat.div_lt_iff_lt_mul hcells]
  omega

theorem start_eq : r.offset / 2 / (colsSize k * rowsSize k) * (colsSize k * rowsSize k) +
    r.offset / 2 % (colsSize k * rowsSize k) = r.offset / 2 := by
  rw [Nat.mul_comm, Nat.div_add_mod]

section Written
variable {v₁ : ViaState}

theorem set_request (id : Nat) (hcells : 0 < colsSize k * rowsSize k) (hconv : r.Convertible)
    (hwf : v.WellFormed layers k) (hlen : r.size ≤ bytes.length) (hbytes : ∀ byte ∈ bytes, byte < 0x100) :
    ∃ v₁, v.dynamicKeymapSetBuffer k (r.request id bytes) = some v₁ ∧ v₁.layerCount = layers ∧
      v₁.keymapSaved = (v.keymapSaved && decide (r.size / 2 = 0)) ∧
      (∀ cell, ¬ r.Addresses cell → v₁.keycodeIn cell = v.keycodeIn cell) ∧
      ∀ j < r.size / 2, ∃ hi lo, bytes[j * 2]? = some hi ∧ bytes[j * 2 + 1]? = some lo ∧ hi < 0x100 ∧
        lo < 0x100 ∧ v₁.keycodeIn (address k (getWidth k) (r.offset / 2 + j)) = some (hi * 256 + lo) := by
  have hbyte (j : Nat) (hj : j < r.size) : ∃ byte, bytes[j]? = some byte ∧ byte < 0x100 := by
    have hget := List.getElem?_eq_getElem (Nat.lt_of_lt_of_le hj hlen)
    exact ⟨_, hget, hbytes _ (List.mem_of_getElem? hget)⟩
  have hwords : ∀ j < r.size / 2, (ViaState.wordAt (r.request id bytes) (0 + j)).isSome = true := by
    intro j hj
    obtain ⟨hi, hhi, -⟩ := hbyte (j * 2) (by omega)
    obtain ⟨lo, hlo, -⟩ := hbyte (j * 2 + 1) (by omega)
    simp [wordAt_request, hhi, hlo]
  have hgrid : ∀ j < r.size / 2,
      (v.keycodeIn (address k (setWidth k) (r.offset / 2 + j))).isSome = true := by
    intro j hj
    rw [address_setWidth hconv hj]
    obtain ⟨hrow, hcol⟩ := address_getWidth (n := r.offset / 2 + j) hcells
    exact hwf.cells _ _ _ (layer_lt hcells hj) hrow hcol
  obtain ⟨v₁, hset⟩ := Option.isSome_iff_exists.mp
    (ViaState.setLoop_isSome hcells (Nat.mod_lt _ hcells).le start_eq hwords hgrid)
  obtain ⟨hcount, hsaved, hother, hstored⟩ :=
    ViaState.setLoop_eq_some hcells (Nat.mod_lt _ hcells).le start_eq hset
  refine ⟨v₁, by rw [dynamicKeymapSetBuffer_request hcells, hset], hcount.trans hwf.layerCount, hsaved, ?_, ?_⟩
  · intro cell hcell
    apply hother
    rintro j hj rfl
    exact hcell ⟨j, hj, address_setWidth hconv hj⟩
  · intro j hj
    obtain ⟨hi, hhi, hhiLt⟩ := hbyte (j * 2) (by omega)
    obtain ⟨lo, hlo, hloLt⟩ := hbyte (j * 2 + 1) (by omega)
    obtain ⟨keycode, hword, hkeycode⟩ := hstored j hj
    refine ⟨hi, lo, hhi, hlo, hhiLt, hloLt, ?_⟩
    rw [Nat.zero_add, wordAt_request, hhi, hlo] at hword
    rw [← address_setWidth hconv hj, hkeycode, ← word_eq hloLt]
    exact hword.symm

theorem get_request (id : Nat) (rest : List Nat) (hcells : 0 < colsSize k * rowsSize k)
    (h : ∀ j < r.size / 2, ∃ hi lo, bytes[j * 2]? = some hi ∧ bytes[j * 2 + 1]? = some lo ∧ hi < 0x100 ∧
      lo < 0x100 ∧ v₁.keycodeIn (address k (getWidth k) (r.offset / 2 + j)) = some (hi * 256 + lo)) :
    ∃ resp, v₁.dynamicKeymapGetBuffer k (r.request id rest) = some resp ∧
      ∀ j < r.size, arrayGet resp (j + 4) = bytes[j]? := by
  have hread : ∀ j < r.size / 2,
      (v₁.keycodeIn (address k (getWidth k) (r.offset / 2 + j))).isSome = true := by
    intro j hj
    obtain ⟨hi, lo, -, -, -, -, hkeycode⟩ := h j hj
    rw [hkeycode]
    rfl
  have hsome : (ViaState.getLoop k v₁ (r.size / 2) 0 (r.offset / 2 / (colsSize k * rowsSize k))
      (r.offset / 2 % (colsSize k * rowsSize k)) (r.request id rest)).isSome = true :=
    ViaState.getLoop_isSome hcells (Nat.mod_lt _ hcells).le start_eq hread
  obtain ⟨resp, hget⟩ := Option.isSome_iff_exists.mp hsome
  obtain ⟨-, hresp⟩ := ViaState.getLoop_eq_some hcells (Nat.mod_lt _ hcells).le start_eq hget
  refine ⟨resp, by rw [dynamicKeymapGetBuffer_request hcells, hget], ?_⟩
  intro j hj
  have heven := r.size_even
  obtain ⟨keycode, hkeycode, hhigh, hlow⟩ := hresp (j / 2) (by omega)
  obtain ⟨hi, lo, hhi, hlo, hhiLt, hloLt, hword⟩ := h (j / 2) (by omega)
  rw [hword, Option.some.injEq] at hkeycode
  subst hkeycode
  rw [low_eq, Nat.shiftRight_eq_div_pow, Nat.zero_add] at hhigh
  rw [low_eq, Nat.zero_add] at hlow
  rcases Nat.mod_two_eq_zero_or_one j with hzero | hone
  · have hj2 : j / 2 * 2 = j := by omega
    rw [hj2] at hhigh hhi
    rw [hhigh, hhi]
    congr 1
    omega
  · have hj2 : j / 2 * 2 + 1 = j := by omega
    rw [show j / 2 * 2 + 5 = j / 2 * 2 + 1 + 4 from rfl, hj2] at hlow
    rw [hj2] at hlo
    rw [hlow, hlo]
    congr 1
    omega

/-- Of a keymap after the setter, every key has a name if what was kept and sent has. -/
theorem named_iff (required : Required) (hwf : v.WellFormed layers k) (hcells : 0 < colsSize k * rowsSize k)
    (hcount : v₁.layerCount = layers)
    (hother : ∀ cell, ¬ r.Addresses cell → v₁.keycodeIn cell = v.keycodeIn cell)
    (hstored : ∀ j < r.size / 2, ∃ hi lo, bytes[j * 2]? = some hi ∧ bytes[j * 2 + 1]? = some lo ∧
      hi < 0x100 ∧ lo < 0x100 ∧
      v₁.keycodeIn (address k (getWidth k) (r.offset / 2 + j)) = some (hi * 256 + lo)) :
    (∀ layer < v₁.layerCount, ∀ row < rowsSize k, ∀ col < colsSize k,
        (v₁.keysymbolAt required layer row col).isSome = true) ↔ r.Nameable bytes v := by
  have hnamed {layer row col keycode : Nat} (h : v₁.keycodeIn (layer, row, col) = some keycode) :
      (v₁.keysymbolAt required layer row col).isSome = true ↔ ¬ Unnamed keycode := by
    change v₁.keycodeAt layer row col = some keycode at h
    unfold ViaState.keysymbolAt
    rw [h]
    exact viaKeycodeIntoKeysymbol_isSome
  constructor
  · intro h
    constructor
    · intro layer row col keycode hlayer hrow hcol hunaddressed hkeycode
      apply (hnamed ?_).mp (h layer (hcount ▸ hlayer) row hrow col hcol)
      rw [hother _ hunaddressed]
      exact hkeycode
    · intro j hi lo hj hhi hlo
      obtain ⟨hi', lo', hhi', hlo', -, -, hword⟩ := hstored j hj
      rw [hhi, Option.some.injEq] at hhi'
      rw [hlo, Option.some.injEq] at hlo'
      subst hhi' hlo'
      obtain ⟨hrow, hcol⟩ := address_getWidth (n := r.offset / 2 + j) hcells
      exact (hnamed hword).mp (h _ (hcount ▸ layer_lt hcells hj) _ hrow _ hcol)
  · intro h layer hlayer row hrow col hcol
    rw [hcount] at hlayer
    by_cases haddressed : r.Addresses (layer, row, col)
    · obtain ⟨j, hj, heq⟩ := haddressed
      obtain ⟨hi, lo, hhi, hlo, -, -, hword⟩ := hstored j hj
      rw [← heq] at hword
      exact (hnamed hword).mpr (h.sent j hi lo hj hhi hlo)
    · obtain ⟨keycode, hkeycode⟩ := Option.isSome_iff_exists.mp (hwf.cells layer row col hlayer hrow hcol)
      have hkept : v₁.keycodeIn (layer, row, col) = some keycode := by
        rw [hother _ haddressed]
        exact hkeycode
      exact (hnamed hkept).mpr (h.kept layer row col keycode hlayer hrow hcol haddressed hkeycode)

end Written

theorem roundTrips_iff_nameable (hadd : AddsLayers gems k)
    (hcells : 0 < colsSize k * rowsSize k) (hconv : r.Convertible) (hwf : v.WellFormed layers k)
    (hlayout : kbd.layout = k) (hlen : r.size ≤ bytes.length) (hbytes : ∀ byte ∈ bytes, byte < 0x100) :
    r.RoundTrips gems required bytes rest v kbd ↔
      (v.keymapSaved = false ∨ 0 < r.size → r.Nameable bytes v) := by
  subst hlayout
  obtain ⟨v₁, hset, hcount, hsaved, hother, hstored⟩ := set_request 0x13 hcells hconv hwf hlen hbytes
  obtain ⟨resp, hget, hresp⟩ := get_request 0x12 rest hcells hstored
  have hnamed := named_iff required hwf hcells hcount hother hstored
  have hunsaved : v₁.keymapSaved = false ↔ v.keymapSaved = false ∨ 0 < r.size := by
    have heven := r.size_even
    rw [hsaved, Bool.and_eq_false_iff, decide_eq_false_iff_not]
    refine or_congr_right ?_
    omega
  have hsaves : (v₁.saveOnKeyboard gems required kbd).isSome = true ↔ r.Nameable bytes v := by
    rw [ViaState.saveOnKeyboard_isSome hadd, hnamed]
  have hset' : ViaState.rawHidReceive gems required .viaSetBuffer (r.request 0x13 bytes) (v, kbd) =
      some (r.request 0x13 bytes, v₁, kbd) := by
    rw [ViaState.rawHidReceive_viaSetBuffer, hset]
    rfl
  constructor
  · rintro ⟨sent, v₁', kbd₁, resp', v₂, kbd₂, hset₁, hget₁, -, -⟩ hsave
    rw [hset', Option.some.injEq, Prod.mk.injEq, Prod.mk.injEq] at hset₁
    obtain ⟨-, rfl, rfl⟩ := hset₁
    obtain ⟨-, -, hsome⟩ := ViaState.rawHidReceive_viaGetBuffer_eq_some hget₁
    exact hsaves.mp (hsome (hunsaved.mpr hsave))
  · intro h
    obtain ⟨v₂, kbd₂, hget'⟩ := ViaState.rawHidReceive_viaGetBuffer_isSome gems required
      hget fun hfalse => hsaves.mpr (h (hunsaved.mp hfalse))
    refine ⟨_, v₁, kbd, resp, v₂, kbd₂, hset', hget', hresp, ?_⟩
    intro cell hcell
    obtain ⟨-, hkeymaps, -⟩ := ViaState.rawHidReceive_viaGetBuffer_eq_some hget'
    have hcongr : v₂.keycodeIn cell = v₁.keycodeIn cell := ViaState.keycodeAt_congr hkeymaps _ _ _
    rw [hcongr, hother cell hcell]

/-! ### Where the setter misses a key -/

/-- Keymaps in which no key has been set. -/
def emptyKeymaps (layers rows : Nat) : ViaState :=
  ⟨layers, List.replicate layers (List.replicate rows []), true, []⟩

theorem emptyKeymaps_keycodeIn {cell : Nat × Nat × Nat} {keycode rows : Nat}
    (h : (emptyKeymaps layers rows).keycodeIn cell = some keycode) : keycode = 0 := by
  obtain ⟨cells, hcells, h⟩ := Option.bind_eq_some_iff.mp h
  obtain ⟨row, hrow, h⟩ := Option.bind_eq_some_iff.mp h
  have hmem := List.mem_of_getElem? hcells
  rw [List.eq_of_mem_replicate hmem] at hrow
  rw [List.eq_of_mem_replicate (List.mem_of_getElem? hrow)] at h
  cases h
  rfl

theorem emptyKeymaps_wellFormed : (emptyKeymaps layers (rowsSize k)).WellFormed layers k := by
  refine ⟨rfl, ?_⟩
  intro layer row col hlayer hrow hcol
  simp [ViaState.keycodeAt, emptyKeymaps, hlayer, hrow]

/-- A key `KC_A` and else nothing. -/
def oneKey (size j : Nat) : List Nat := (List.range size).map fun m => if m = j * 2 + 1 then 4 else 0

theorem oneKey_getElem? {size j m : Nat} (h : m < size) :
    (oneKey size j)[m]? = some (if m = j * 2 + 1 then 4 else 0) := by
  simp [oneKey, List.getElem?_map, List.getElem?_range h]

theorem oneKey_nameable {j : Nat} : r.Nameable (oneKey r.size j) (emptyKeymaps layers (rowsSize k)) := by
  constructor
  · intro layer row col keycode _ _ _ _ hkeycode
    change (emptyKeymaps layers (rowsSize k)).keycodeIn (layer, row, col) = some keycode at hkeycode
    rw [emptyKeymaps_keycodeIn hkeycode]
    decide
  · intro j' hi lo hj' hhi hlo
    rw [oneKey_getElem? (by omega), Option.some.injEq] at hhi hlo
    subst hhi hlo
    rw [if_neg (by omega)]
    split <;> decide

/-- The getter does not find the key again. -/
theorem oneKey_not_roundTrips {j : Nat} (hcells : 0 < colsSize k * rowsSize k) (hj : j < r.size / 2)
    (hne : address k (setWidth k) (r.offset / 2 + j) ≠ address k (getWidth k) (r.offset / 2 + j))
    (hlayout : kbd.layout = k) :
    ¬ r.RoundTrips gems required (oneKey r.size j) rest (emptyKeymaps layers (rowsSize k)) kbd := by
  subst hlayout
  rintro ⟨sent, v₁, kbd₁, resp, v₂, kbd₂, hset, hget, hresp, -⟩
  rw [ViaState.rawHidReceive_viaSetBuffer, Option.map_eq_some_iff] at hset
  obtain ⟨v₁', hset, heq⟩ := hset
  cases heq
  rw [dynamicKeymapSetBuffer_request hcells] at hset
  obtain ⟨-, -, hother, hstored⟩ :=
    ViaState.setLoop_eq_some hcells (Nat.mod_lt _ hcells).le start_eq hset
  obtain ⟨hget, -, -⟩ := ViaState.rawHidReceive_viaGetBuffer_eq_some hget
  rw [dynamicKeymapGetBuffer_request hcells] at hget
  obtain ⟨-, hread⟩ := ViaState.getLoop_eq_some hcells (Nat.mod_lt _ hcells).le start_eq hget
  obtain ⟨keycode, hkeycode, -, hlow⟩ := hread j hj
  have hsent := hresp (j * 2 + 1) (by omega)
  rw [oneKey_getElem? (by omega), if_pos rfl, show j * 2 + 1 + 4 = j * 2 + 5 from rfl] at hsent
  rw [Nat.zero_add, hsent, Option.some.injEq, low_eq] at hlow
  by_cases hwritten : ∃ i < r.size / 2,
      address kbd.layout (getWidth kbd.layout) (r.offset / 2 + j) =
        address kbd.layout (setWidth kbd.layout) (r.offset / 2 + i)
  · obtain ⟨i, hi, heq⟩ := hwritten
    obtain ⟨word, hword, hstored⟩ := hstored i hi
    have hij : i ≠ j := by
      rintro rfl
      exact hne heq.symm
    rw [← heq, hkeycode, Option.some.injEq] at hstored
    rw [Nat.zero_add, wordAt_request, oneKey_getElem? (by omega), oneKey_getElem? (by omega),
      if_neg (by omega), if_neg (by omega)] at hword
    cases hword
    subst hstored
    simp at hlow
  · rw [hother _ fun i hi heq => hwritten ⟨i, hi, heq⟩] at hkeycode
    rw [emptyKeymaps_keycodeIn hkeycode] at hlow
    simp at hlow

end BufferRange

/-! ## Boards -/

/-- Buffers make the round trip exactly with the key codes that have names, if and only if the
setter finds the keys of the range. -/
theorem buffer_roundTrips_iff {b : Board} {layers : Nat} {r : BufferRange layers b.anchorHalf} {gems : Gems}
    {required : Required} :
    (∀ (bytes rest : List Nat) (v : ViaState) (kbd : Kbd), ViaState.WellFormed layers b.anchorHalf v →
      kbd.layout = b.anchorHalf → r.size ≤ bytes.length → (∀ byte ∈ bytes, byte < 0x100) →
        (r.RoundTrips gems required bytes rest v kbd ↔
          (v.keymapSaved = false ∨ 0 < r.size → r.Nameable bytes v))) ↔ r.Convertible := by
  constructor
  · intro h
    have hcells : 0 < colsSize b.anchorHalf * rowsSize b.anchorHalf := by
      by_contra hnone
      have hzero : colsSize b.anchorHalf * rowsSize b.anchorHalf = 0 := by omega
      have hsize : r.size = 0 := by
        have hinside := r.inside
        have heven := r.size_even
        rw [hzero] at hinside
        omega
      have hround := (h [] [] (BufferRange.emptyKeymaps layers (rowsSize b.anchorHalf))
        (newKbd b.anchorHalf) BufferRange.emptyKeymaps_wellFormed rfl (by simp [hsize]) (by simp)).mpr (by
          rintro (hunsaved | hpos)
          · cases hunsaved
          · omega)
      obtain ⟨sent, v₁, kbd₁, -, -, -, hset, -⟩ := hround
      rw [ViaState.rawHidReceive_viaSetBuffer, newKbd_layout,
        BufferRange.dynamicKeymapSetBuffer_none hzero] at hset
      cases hset
    have hrows : 0 < rowsSize b.anchorHalf := Nat.pos_of_mul_pos_left hcells
    have hcols : 0 < colsSize b.anchorHalf := Nat.pos_of_mul_pos_right hcells
    refine ⟨hrows, hcols, ?_⟩
    by_contra hnot
    simp only [not_or, not_forall, Nat.not_lt, Bool.not_eq_true] at hnot
    obtain ⟨hsplit, hne, j, hj, hlater⟩ := hnot
    have haddress := BufferRange.address_setWidth_ne hsplit hrows hcols hne hlater
    have hround := (h (BufferRange.oneKey r.size j) [] (BufferRange.emptyKeymaps layers (rowsSize b.anchorHalf))
      (newKbd b.anchorHalf) BufferRange.emptyKeymaps_wellFormed rfl (by simp [BufferRange.oneKey]) (by
        intro byte hbyte
        obtain ⟨m, -, rfl⟩ := List.mem_map.mp hbyte
        split <;> omega)).mpr fun _ => BufferRange.oneKey_nameable
    exact BufferRange.oneKey_not_roundTrips hcells hj haddress rfl hround
  · intro hconv bytes rest v kbd hwf hlayout hlen hbytes
    have hcells := Nat.mul_pos hconv.2.1 hconv.1
    exact BufferRange.roundTrips_iff_nameable addsLayers hcells hconv hwf hlayout hlen hbytes

/-- Two rows and three columns. -/
def wideBoard : Board :=
  ⟨false, .standardSplit, true, [[some (0, 2), some (0, 3), some (0, 4)],
    [some (1, 2), some (1, 3), some (1, 4)]]⟩

/-- The fourth key. -/
def fourthKey : BufferRange 1 wideBoard.anchorHalf where
  offset := 6
  size := 2
  offset_even := rfl
  size_even := rfl
  offset_lt := by omega
  size_lt := by omega
  inside := by decide

/-- The setter puts `KC_A` in the second place of the second row, and the getter reads the first. -/
theorem wide_board_loses_key :
    ViaState.WellFormed 1 wideBoard.anchorHalf (BufferRange.emptyKeymaps 1 2) ∧
      fourthKey.Nameable [0, 4] (BufferRange.emptyKeymaps 1 2) ∧
      ¬ fourthKey.RoundTrips noGems ⟨false, false⟩ [0, 4] [] (BufferRange.emptyKeymaps 1 2)
        (newKbd wideBoard.anchorHalf) := by
  refine ⟨BufferRange.emptyKeymaps_wellFormed, BufferRange.oneKey_nameable (j := 0), ?_⟩
  apply BufferRange.oneKey_not_roundTrips (r := fourthKey) (j := 0)
  · decide
  · decide
  · decide
  · rfl

end PicoRuby.Via
