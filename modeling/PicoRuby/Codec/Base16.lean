import PicoRuby.Codec.Base64
import PicoRuby.Shared.Output

/-!
# picoruby-base16

The functions of the mruby build append a C string in each round, of which a zero byte is the end. Those of the mruby/c
build write into what `mrbc_alloc` returns, at the index of the round.
-/

namespace PicoRuby.Codec

open Shared

set_option autoImplicit false

def base16chars : Bytes := ascii "0123456789abcdef"

def base16Convert (n : UInt8) : UInt8 :=
  if 0x30 ≤ n ∧ n ≤ 0x39 then n - 0x30
  else if 0x41 ≤ n ∧ n ≤ 0x46 then n - 55
  else if 0x61 ≤ n ∧ n ≤ 0x66 then n - 87
  else 0

/-- The characters `n0` and `n1` of a byte. -/
def hexPair (n : UInt8) : Bytes :=
  [base16chars.getD ((n >>> 4) &&& 15).toNat 0, base16chars.getD (n &&& 15).toNat 0]

/-- The digits `n0` and `n1` of a round; a text of odd length is read as if a `0` stood behind it. -/
def hexDigits (data : Bytes) (index : Nat) : UInt8 × UInt8 :=
  (base16Convert (data.getD (index * 2) 0),
    if index * 2 + 1 < data.length then base16Convert (data.getD (index * 2 + 1) 0) else 0)

def decodedSize (inSize : Nat) : Nat := if inSize % 2 = 1 then inSize / 2 + 1 else inSize / 2

/-! ## mruby -/

/-- `mrb_str_cat_cstr` of a `char[]`. -/
def catCstr (output cstr : Bytes) : Bytes := output ++ cstr.takeWhile (· ≠ 0)

def encode16 (data : Bytes) : Bytes := data.foldl (fun output n => catCstr output (hexPair n ++ [0])) []

def decode16 (data : Bytes) : Bytes :=
  (List.range (decodedSize data.length)).foldl (fun output index =>
    let n := hexDigits data index
    catCstr output [n.1 <<< 4 ||| n.2, 0]) []

/-! ## mruby/c -/

def cEncode16 (garbage : Nat → UInt8) (data : Bytes) : Bytes :=
  let outSize := data.length * 2
  let output := (List.range data.length).foldl (fun output index =>
    let n := data.getD index 0
    (output.set (index * 2) (base16chars.getD ((n >>> 4) &&& 15).toNat 0)).set (index * 2 + 1)
      (base16chars.getD (n &&& 15).toNat 0)) (Output.alloc garbage outSize).memory
  output.take outSize

def cDecode16 (garbage : Nat → UInt8) (data : Bytes) : Bytes :=
  let outSize := decodedSize data.length
  let output := (List.range outSize).foldl (fun output index =>
    let n := hexDigits data index
    output.set index (n.1 <<< 4 + n.2)) (Output.alloc garbage outSize).memory
  output.take outSize

/-! ## What is written -/

/-- The byte of a round. -/
def hexByte (data : Bytes) (index : Nat) : UInt8 := (hexDigits data index).1 <<< 4 + (hexDigits data index).2

theorem base16Convert_lt (n : UInt8) : (base16Convert n).toNat < 16 := by
  have hall : ∀ n : Fin 256, (base16Convert (UInt8.ofNat n)).toNat < 16 := by decide +kernel
  have hn := hall ⟨n.toNat, n.toNat_lt⟩
  rwa [UInt8.ofNat_toNat] at hn

theorem hexDigits_lt (data : Bytes) (index : Nat) :
    (hexDigits data index).1.toNat < 16 ∧ (hexDigits data index).2.toNat < 16 := by
  refine ⟨base16Convert_lt _, ?_⟩
  unfold hexDigits
  dsimp only
  split
  · exact base16Convert_lt _
  · decide

theorem shiftLeft_toNat {n : UInt8} (h : n.toNat < 16) : (n <<< 4).toNat = n.toNat * 16 := by
  have h4 : (4 : UInt8).toNat % 8 = 4 := rfl
  rw [UInt8.toNat_shiftLeft, h4, Nat.shiftLeft_eq]
  omega

theorem hexByte_toNat (data : Bytes) (index : Nat) :
    (hexByte data index).toNat = (hexDigits data index).1.toNat * 16 + (hexDigits data index).2.toNat := by
  have hlt := hexDigits_lt data index
  rw [hexByte, UInt8.toNat_add, shiftLeft_toNat hlt.1]
  omega

/-- The digits have no bit in common. -/
theorem hexByte_eq_or (data : Bytes) (index : Nat) :
    (hexDigits data index).1 <<< 4 ||| (hexDigits data index).2 = hexByte data index := by
  have hlt := hexDigits_lt data index
  apply UInt8.toNat_inj.mp
  rw [UInt8.toNat_or, shiftLeft_toNat hlt.1, hexByte_toNat, Nat.mul_comm]
  exact (Nat.two_pow_add_eq_or_of_lt (i := 4) hlt.2 _).symm

theorem hexChar_ne {i : Nat} (h : i < 16) : base16chars.getD i 0 ≠ 0 := by
  have hall : ∀ i : Fin 16, base16chars.getD i 0 ≠ 0 := by decide +kernel
  exact hall ⟨i, h⟩

theorem hexPair_index (n : UInt8) : ((n >>> 4) &&& 15).toNat = n.toNat / 16 ∧ (n &&& 15).toNat = n.toNat % 16 := by
  have hall : ∀ n : Fin 256, ((UInt8.ofNat n >>> 4) &&& 15).toNat = n / 16 ∧ (UInt8.ofNat n &&& 15).toNat = n % 16 := by
    decide +kernel
  have hn := hall ⟨n.toNat, n.toNat_lt⟩
  rwa [UInt8.ofNat_toNat] at hn

theorem hexPair_ne (n : UInt8) : ∀ b ∈ hexPair n, b ≠ 0 := by
  have hlt := n.toNat_lt
  have hindex := hexPair_index n
  have hhigh : base16chars.getD ((n >>> 4) &&& 15).toNat 0 ≠ 0 := hexChar_ne (by omega)
  have hlow : base16chars.getD (n &&& 15).toNat 0 ≠ 0 := hexChar_ne (by omega)
  simp only [hexPair, List.mem_cons, List.not_mem_nil, or_false, forall_eq_or_imp, forall_eq]
  exact ⟨hhigh, hlow⟩

theorem encode16_eq (data : Bytes) : encode16 data = data.flatMap hexPair := by
  have hloop : ∀ (data output : Bytes), data.foldl (fun output n => catCstr output (hexPair n ++ [0])) output =
      output ++ data.flatMap hexPair := by
    intro data
    induction data with
    | nil => exact fun output => (List.append_nil output).symm
    | cons n data ih =>
      intro output
      have hcat : catCstr output (hexPair n ++ [0]) = output ++ hexPair n := by
        unfold catCstr
        rw [List.takeWhile_append_of_pos (by simpa using hexPair_ne n)]
        simp
      rw [List.foldl_cons, hcat, ih, List.append_assoc, List.flatMap_cons]
  exact hloop data []

/-- The zero bytes are lost. -/
theorem decode16_eq (data : Bytes) :
    decode16 data = ((List.range (decodedSize data.length)).map (hexByte data)).filter (· ≠ 0) := by
  have hloop : ∀ (rounds : List Nat) (output : Bytes), rounds.foldl (fun output index =>
      let n := hexDigits data index
      catCstr output [n.1 <<< 4 ||| n.2, 0]) output = output ++ (rounds.map (hexByte data)).filter (· ≠ 0) := by
    intro rounds
    induction rounds with
    | nil => exact fun output => (List.append_nil output).symm
    | cons index rounds ih =>
      intro output
      rw [List.foldl_cons, ih, List.map_cons]
      dsimp only
      rw [hexByte_eq_or, catCstr, List.append_assoc]
      by_cases hzero : hexByte data index = 0
      · simp [hzero]
      · simp [hzero]
  exact hloop _ []

theorem map_getD_range (data : Bytes) : (List.range data.length).map (fun i => data.getD i 0) = data := by
  apply List.ext_getElem
  · simp
  · intro i hi hi'
    simp [hi']

theorem cEncode16_eq (garbage : Nat → UInt8) (data : Bytes) : cEncode16 garbage data = data.flatMap hexPair := by
  have hloop := @Output.foldl_range_holds _ 0 _ (fun i => hexPair (data.getD i 0)) 2
    (fun i => rfl) (fun memory i => rfl) data.length _ (Output.alloc_holds garbage (data.length * 2))
  have htake := hloop.take_eq
  rw [← List.flatMap_map, map_getD_range] at htake
  have hlength : (data.flatMap hexPair).length = data.length * 2 := by
    rw [List.length_flatMap]
    simp [hexPair]
  rw [hlength] at htake
  exact htake

theorem cDecode16_eq (garbage : Nat → UInt8) (data : Bytes) :
    cDecode16 garbage data = (List.range (decodedSize data.length)).map (hexByte data) := by
  have hstart := Output.alloc_holds garbage (decodedSize data.length)
  rw [← Nat.mul_one (decodedSize data.length)] at hstart
  have hstep : ∀ (memory : Bytes) (i : Nat), memory.set i (hexByte data i) =
      (Output.puts ⟨memory, i * 1⟩ [hexByte data i]).memory := by
    intro memory i
    rw [Nat.mul_one]
    rfl
  have hloop := @Output.foldl_range_holds _ 0 _ (fun i => [hexByte data i]) 1
    (fun i => rfl) hstep _ _ hstart
  have htake := hloop.take_eq
  rw [← List.map_eq_flatMap, List.length_map, List.length_range, Nat.mul_one] at htake
  exact htake

/-! ## The round trip -/

/-- The digits that do not stand for 0. -/
def nonzeroDigits : Bytes := ascii "123456789ABCDEFabcdef"

/-- What both builds are expected to do with a text. -/
structure Base16Agrees (garbage garbage' : Nat → UInt8) (s : Bytes) : Prop where
  round_trip : decode16 (encode16 s) = s
  c_round_trip : cDecode16 garbage' (cEncode16 garbage s) = s
  encode_eq : encode16 s = cEncode16 garbage s
  decode_eq : decode16 s = cDecode16 garbage s

theorem decodedBytes_cons (a b : UInt8) (data : Bytes) :
    (List.range (decodedSize (a :: b :: data).length)).map (hexByte (a :: b :: data)) =
      (base16Convert a <<< 4 + base16Convert b) ::
        (List.range (decodedSize data.length)).map (hexByte data) := by
  have hsize : decodedSize (a :: b :: data).length = decodedSize data.length + 1 := by
    unfold decodedSize
    rw [List.length_cons, List.length_cons]
    split <;> split <;> omega
  rw [hsize, List.range_succ_eq_map, List.map_cons, List.map_map]
  have hhead : hexByte (a :: b :: data) 0 = base16Convert a <<< 4 + base16Convert b := by
    simp [hexByte, hexDigits]
  rw [hhead]
  congr 1
  apply List.map_congr_left
  intro i _
  have hindex : (i + 1) * 2 = i * 2 + 1 + 1 := by omega
  rw [Function.comp_apply, Nat.succ_eq_add_one, hexByte, hexByte, hexDigits, hexDigits, hindex]
  simp

theorem hexPair_spec (n : UInt8) : ∃ a b, hexPair n = [a, b] ∧ base16Convert a <<< 4 + base16Convert b = n := by
  refine ⟨_, _, rfl, ?_⟩
  have hall : ∀ n : Fin 256, base16Convert (base16chars.getD ((UInt8.ofNat n >>> 4) &&& 15).toNat 0) <<< 4 +
      base16Convert (base16chars.getD (UInt8.ofNat n &&& 15).toNat 0) = UInt8.ofNat n := by decide +kernel
  have hn := hall ⟨n.toNat, n.toNat_lt⟩
  rwa [UInt8.ofNat_toNat] at hn

theorem decodedBytes_flatMap (s : Bytes) :
    (List.range (decodedSize (s.flatMap hexPair).length)).map (hexByte (s.flatMap hexPair)) = s := by
  induction s with
  | nil => rfl
  | cons n s ih =>
    obtain ⟨a, b, hpair, hbyte⟩ := hexPair_spec n
    rw [List.flatMap_cons, hpair, List.cons_append, List.cons_append, List.nil_append, decodedBytes_cons, ih, hbyte]

theorem decode16_encode16 (s : Bytes) : decode16 (encode16 s) = s.filter (· ≠ 0) := by
  rw [encode16_eq, decode16_eq, decodedBytes_flatMap]

theorem base16Convert_ne_iff (n : UInt8) : base16Convert n ≠ 0 ↔ n ∈ nonzeroDigits := by
  have hall : ∀ n : Fin 256, base16Convert (UInt8.ofNat n) ≠ 0 ↔ UInt8.ofNat n ∈ nonzeroDigits := by decide +kernel
  have hn := hall ⟨n.toNat, n.toNat_lt⟩
  rwa [UInt8.ofNat_toNat] at hn

theorem hexByte_ne_iff (data : Bytes) (i : Nat) : hexByte data i ≠ 0 ↔
    data.getD (i * 2) 0 ∈ nonzeroDigits ∨ data.getD (i * 2 + 1) 0 ∈ nonzeroDigits := by
  have hlow : (hexDigits data i).2 = base16Convert (data.getD (i * 2 + 1) 0) := by
    unfold hexDigits
    dsimp only
    split
    · rfl
    · rename_i hend
      rw [List.getD_eq_default _ _ (Nat.le_of_not_lt hend)]
      rfl
  have hzero : ∀ n : UInt8, n = 0 ↔ n.toNat = 0 := fun n => UInt8.toNat_inj.symm
  rw [← base16Convert_ne_iff, ← base16Convert_ne_iff, ← hlow]
  have hhigh : (hexDigits data i).1 = base16Convert (data.getD (i * 2) 0) := rfl
  rw [← hhigh, Ne, Ne, Ne, hzero, hzero, hzero, hexByte_toNat]
  omega

/-- Decoded texts agree when no byte is zero, that is, when each pair of characters has a digit that is not 0. -/
theorem decode16_eq_iff (garbage : Nat → UInt8) (data : Bytes) : decode16 data = cDecode16 garbage data ↔
    ∀ i, i * 2 < data.length →
      data.getD (i * 2) 0 ∈ nonzeroDigits ∨ data.getD (i * 2 + 1) 0 ∈ nonzeroDigits := by
  have hsize : ∀ i, i < decodedSize data.length ↔ i * 2 < data.length := by
    intro i
    unfold decodedSize
    split <;> omega
  rw [decode16_eq, cDecode16_eq, List.filter_eq_self, List.forall_mem_map]
  constructor
  · intro h i hi
    apply (hexByte_ne_iff data i).mp
    exact of_decide_eq_true (h i (List.mem_range.mpr ((hsize i).mpr hi)))
  · intro h i hi
    apply decide_eq_true
    apply (hexByte_ne_iff data i).mpr
    exact h i ((hsize i).mp (List.mem_range.mp hi))

/-- A zero byte is lost by the mruby build, and by no other function. -/
theorem base16Agrees_iff (garbage garbage' : Nat → UInt8) (s : Bytes) : Base16Agrees garbage garbage' s ↔
    0 ∉ s ∧ ∀ i, i * 2 < s.length →
      s.getD (i * 2) 0 ∈ nonzeroDigits ∨ s.getD (i * 2 + 1) 0 ∈ nonzeroDigits := by
  have hround : decode16 (encode16 s) = s ↔ 0 ∉ s := by
    rw [decode16_encode16, List.filter_eq_self]
    constructor
    · intro h hmem
      exact absurd rfl (of_decide_eq_true (h 0 hmem))
    · intro h b hb
      apply decide_eq_true
      rintro rfl
      exact h hb
  rw [← hround, ← decode16_eq_iff garbage]
  constructor
  · intro h
    exact ⟨h.round_trip, h.decode_eq⟩
  · rintro ⟨htrip, hdecode⟩
    refine ⟨htrip, ?_, ?_, hdecode⟩
    · rw [cEncode16_eq, cDecode16_eq, decodedBytes_flatMap]
    · rw [encode16_eq, cEncode16_eq]

/-- The byte zero is not given back, and the text `00` is not decoded alike. -/
theorem zero_byte_lost : decode16 (encode16 [0]) ≠ [0] ∧
    decode16 (ascii "00") ≠ cDecode16 (fun _ => 0) (ascii "00") := by
  decide +kernel

end PicoRuby.Codec
