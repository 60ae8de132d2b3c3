import Mathlib.Logic.Function.Basic
import PicoRuby.Shared.Ring
import PicoRuby.Shared.Runs

/-!
# The receive buffer of picoruby-uart

The ring buffer of uart.c and the methods of the mruby class that read it. An `int` that is
masked is a 32-bit word; `w` is the width of `size_t`, to which the length arguments are converted.
-/

namespace PicoRuby.Uart

set_option autoImplicit false

abbrev Bytes := List UInt8

structure RingBuffer where
  head : Nat
  tail : Nat
  size : Nat
  mask : Nat
  data : Nat → UInt8

/-- `x & mask` on `int`. -/
def andMask (x : Int) (mask : Nat) : Nat := (BitVec.ofInt 32 x &&& BitVec.ofNat 32 mask).toNat

/-! ## Opening -/

/-- The loop of `isPowerOfTwo`; an `int` is halved less than 32 times. -/
def halveToOne : Nat → Int → Bool
  | 0, _ => false
  | rounds + 1, n =>
    if n = 1 then true
    else if n.tmod 2 ≠ 0 then false
    else halveToOne rounds (n.tdiv 2)

def isPowerOfTwo (n : Int) : Bool := if n = 0 then false else halveToOne 32 n

/-- The cells of `data` are those of the memory it was allocated in. -/
def initializeBuffer (data : Nat → UInt8) (size : Int) : Option RingBuffer :=
  if isPowerOfTwo size then some ⟨0, 0, size.toNat, (size - 1).toNat, data⟩ else none

/-- `PICORUBY_UART_RX_BUFFER_SIZE`. -/
def rxBufferSize : Int := 1024

/-- `UART#open_rx_buffer`: an Integer is cut to an `int`; the error is the message of the `IOError`. -/
def openRxBuffer (data : Nat → UInt8) (bufferSize : Option Int) : Except String RingBuffer :=
  let size := match bufferSize with
    | none => rxBufferSize
    | some n => (BitVec.ofInt 32 n).toInt
  match initializeBuffer data size with
  | some rx => .ok rx
  | none => .error "UART: rx_buffer_size is not power of two"

/-! ## uart.c -/

def bufferDataSize (rx : RingBuffer) : Nat := andMask (rx.tail - rx.head) rx.mask

def clearBuffer (rx : RingBuffer) : RingBuffer := { rx with head := 0, tail := 0 }

def bufferFreeSize (rx : RingBuffer) : Nat := rx.size - bufferDataSize rx

/-- The loop of `popBuffer`: the bytes it writes to `popData`. -/
def popLoop : Nat → RingBuffer → Bytes × RingBuffer
  | 0, rx => ([], rx)
  | len + 1, rx =>
    let (popData, rx') := popLoop len { rx with head := andMask (rx.head + 1) rx.mask }
    (rx.data rx.head :: popData, rx')

/-- `none` is the result false. -/
def popBuffer (rx : RingBuffer) (len : Nat) : Option (Bytes × RingBuffer) :=
  if len > rx.size then none
  else if rx.tail = rx.head then none
  else some (popLoop (if bufferDataSize rx < len then bufferDataSize rx else len) rx)

/-- The index from `head` on, or `none` for -1. -/
def searchCharBuffer (rx : RingBuffer) (c : UInt8) : Option Nat :=
  (List.range (bufferDataSize rx)).find? fun i => rx.data (andMask (rx.head + i) rx.mask) = c

/-- `UART_pushBuffer`. -/
def pushBuffer (rx : RingBuffer) (ch : UInt8) : Bool × RingBuffer :=
  if bufferFreeSize rx < 1 then (false, rx)
  else (true, { rx with
    data := Function.update rx.data rx.tail ch, tail := andMask (rx.tail + 1) rx.mask })

/-! ## Methods -/

/-- A length as `size_t`. -/
def sizeT (w : Nat) (len : Int) : Nat := (BitVec.ofInt w len).toNat

/-- The String of `len` popped bytes. None of the callers lets `popBuffer` fail, which would
leave the array as it is on the stack. -/
def popString (rx : RingBuffer) (len : Nat) : Option Bytes × RingBuffer :=
  match popBuffer rx len with
  | some (buf, rx') => (some buf, rx')
  | none => (some (List.replicate len 0), rx)

/-- `UART#read`; the argument is `none` where `mrb_fixnum_p` does not find an Integer. -/
def read (w : Nat) (len : Option Int) (rx : RingBuffer) : Option Bytes × RingBuffer :=
  if bufferDataSize rx = 0 then (none, rx)
  else
    match len with
    | some len => if bufferDataSize rx < sizeT w len then (none, rx) else popString rx (sizeT w len)
    | none => popString rx (bufferDataSize rx)

/-- `UART#readpartial`. -/
def readPartial (w : Nat) (maxlen : Int) (rx : RingBuffer) : Option Bytes × RingBuffer :=
  if bufferDataSize rx = 0 then (none, rx)
  else popString rx (if bufferDataSize rx < sizeT w maxlen then bufferDataSize rx else sizeT w maxlen)

/-- `UART#gets`. -/
def gets (rx : RingBuffer) : Option Bytes × RingBuffer :=
  match searchCharBuffer rx 0x0a with
  | none => (none, rx)
  | some pos => popString rx (pos + 1)

/-! ## Sessions -/

/-- What the interrupt handler and the program do with the buffer, each as one atomic step. -/
inductive Op where
  | push (ch : UInt8)
  | read (len : Option Int)
  | readPartial (maxlen : Int)
  | gets
  | bytesAvailable
  | clearRxBuffer

/-- What an operation answers. -/
inductive Reply where
  | accepted (ok : Bool)
  | bytes (s : Option Bytes)
  | available (n : Nat)
  | self

def perform (w : Nat) (rx : RingBuffer) : Op → Reply × RingBuffer
  | .push ch => (pushBuffer rx ch).map .accepted id
  | .read len => (read w len rx).map .bytes id
  | .readPartial maxlen => (readPartial w maxlen rx).map .bytes id
  | .gets => (gets rx).map .bytes id
  | .bytesAvailable => (.available (bufferDataSize rx), rx)
  | .clearRxBuffer => (.self, clearBuffer rx)

end PicoRuby.Uart

/-!
# The receive buffer as a queue

`stored` are the bytes between the two indices. As long as no byte is pushed where
one cell is left, every operation does to `stored` what it should do to a queue. The push
that fills the last cell makes the indices equal, and the buffer empty.
-/

namespace PicoRuby.Uart

open Shared

set_option autoImplicit false

/-! ## Masked indices -/

theorem andMask_eq {k : Nat} (hk : k ≤ 32) (x : Int) :
    andMask x (2 ^ k - 1) = (x % ((2 ^ k : Nat) : Int)).toNat := by
  have hpow : (2 : Nat) ^ k ≤ 2 ^ 32 := Nat.pow_le_pow_right (by omega) hk
  have hpos : 0 < (2 : Nat) ^ k := Nat.pow_pos (by omega)
  have hdvd : ((2 ^ k : Nat) : Int) ∣ ((2 ^ 32 : Nat) : Int) :=
    Int.natCast_dvd_natCast.mpr (Nat.pow_dvd_pow 2 hk)
  have hword : 0 ≤ x % ((2 ^ 32 : Nat) : Int) := Int.emod_nonneg _ (by omega)
  have hcell : 0 ≤ x % ((2 ^ k : Nat) : Int) := Int.emod_nonneg _ (by omega)
  rw [andMask, BitVec.toNat_and, BitVec.toNat_ofInt, BitVec.toNat_ofNat,
    Nat.mod_eq_of_lt (show 2 ^ k - 1 < 2 ^ 32 by omega), Nat.and_two_pow_sub_one_eq_mod]
  apply Int.ofNat.inj
  change (((x % ((2 ^ 32 : Nat) : Int)).toNat % 2 ^ k : Nat) : Int) = _
  rw [Int.natCast_mod, Int.toNat_of_nonneg hword, Int.emod_emod_of_dvd _ hdvd]
  exact (Int.toNat_of_nonneg hcell).symm

/-- The buffer has a power of two of cells, and its indices point into it. -/
structure Sized (rx : RingBuffer) : Prop where
  power : ∃ k ≤ 30, rx.size = 2 ^ k
  mask : rx.mask + 1 = rx.size
  head : rx.head < rx.size
  tail : rx.tail < rx.size

section Indices
variable {rx : RingBuffer}

theorem Sized.andMask_int (h : Sized rx) (x : Int) : andMask x rx.mask = (x % rx.size).toNat := by
  obtain ⟨k, hk, hsize⟩ := h.power
  have hmask : rx.mask = 2 ^ k - 1 := by
    have heq := h.mask
    omega
  rw [hmask, andMask_eq (by omega), hsize]

theorem Sized.andMask_nat (h : Sized rx) (n : Nat) : andMask n rx.mask = n % rx.size := by
  rw [h.andMask_int, ← Int.natCast_mod, Int.toNat_natCast]

theorem Sized.andMask_succ (h : Sized rx) (n : Nat) :
    andMask ((n : Int) + 1) rx.mask = (n + 1) % rx.size :=
  h.andMask_nat (n + 1)

theorem Sized.dataSize (h : Sized rx) : bufferDataSize rx = ringDist rx.size rx.head rx.tail := by
  have hhead := h.head
  rw [bufferDataSize, h.andMask_int, ringDist]
  have hcast : ((rx.tail + rx.size - rx.head : Nat) : Int) = (rx.tail : Int) - rx.head + rx.size := by
    omega
  have hshift : ((rx.tail : Int) - rx.head) % rx.size =
      ((rx.tail + rx.size - rx.head : Nat) : Int) % rx.size := by
    rw [hcast, Int.add_emod_right]
  rw [hshift, ← Int.natCast_mod, Int.toNat_natCast]

theorem Sized.dataSize_lt (h : Sized rx) : bufferDataSize rx < rx.size := by
  rw [h.dataSize]
  exact ringDist_lt h.tail

/-- The bytes in the buffer. -/
def stored (rx : RingBuffer) : Bytes := window rx.data rx.size rx.head (bufferDataSize rx)

theorem stored_length : (stored rx).length = bufferDataSize rx := window_length

theorem stored_eq_nil_iff : stored rx = [] ↔ bufferDataSize rx = 0 := by
  rw [← stored_length, List.length_eq_zero_iff]

theorem Sized.empty_iff (h : Sized rx) : bufferDataSize rx = 0 ↔ rx.tail = rx.head := by
  rw [h.dataSize]
  exact ringDist_eq_zero_iff h.head h.tail

end Indices

/-! ## Opening -/

theorem halveToOne_power {rounds : Nat} {n : Int} (h : halveToOne rounds n = true) :
    ∃ k : Nat, n = 2 ^ k := by
  induction rounds generalizing n with
  | zero => cases h
  | succ rounds ih =>
    unfold halveToOne at h
    split at h
    · rename_i hone
      exact ⟨0, hone⟩
    · split at h
      · cases h
      · rename_i heven
        obtain ⟨k, hk⟩ := ih h
        refine ⟨k + 1, ?_⟩
        have hdiv := Int.tmod_add_mul_tdiv n 2
        rw [not_not.mp heven, hk] at hdiv
        rw [← hdiv, Int.pow_succ]
        omega

theorem initializeBuffer_sized {data : Nat → UInt8} {size : Int} {rx : RingBuffer}
    (h : initializeBuffer data size = some rx) (hint : size < 2 ^ 31) : Sized rx := by
  unfold initializeBuffer at h
  split at h
  · rename_i hpower
    cases h
    unfold isPowerOfTwo at hpower
    split at hpower
    · cases hpower
    · obtain ⟨k, rfl⟩ := halveToOne_power hpower
      have hcast : ((2 ^ k : Nat) : Int) = 2 ^ k := by rw [Int.natCast_pow]; rfl
      have hpos : 0 < (2 : Nat) ^ k := Nat.pow_pos (by omega)
      have hk : k < 31 := by
        apply Nat.lt_of_not_le
        intro hle
        have hpow : (2 : Nat) ^ 31 ≤ 2 ^ k := Nat.pow_le_pow_right (by omega) hle
        omega
      rw [← hcast]
      refine ⟨⟨k, by omega, Int.toNat_natCast _⟩, ?_, hpos, hpos⟩
      change (((2 ^ k : Nat) : Int) - 1).toNat + 1 = ((2 ^ k : Nat) : Int).toNat
      omega
  · cases h

/-- A buffer that was opened has between one and 2^30 cells. -/
theorem openRxBuffer_sized {data : Nat → UInt8} {bufferSize : Option Int} {rx : RingBuffer}
    (h : openRxBuffer data bufferSize = .ok rx) : Sized rx := by
  unfold openRxBuffer at h
  dsimp only at h
  split at h
  · rename_i hinit
    cases h
    refine initializeBuffer_sized hinit ?_
    cases bufferSize with
    | none => decide
    | some n => exact BitVec.toInt_lt
  · cases h

theorem initializeBuffer_empty {data : Nat → UInt8} {size : Int} {rx : RingBuffer}
    (h : initializeBuffer data size = some rx) : rx.tail = rx.head := by
  unfold initializeBuffer at h
  split at h
  · cases h
    rfl
  · cases h

theorem openRxBuffer_empty {data : Nat → UInt8} {bufferSize : Option Int} {rx : RingBuffer}
    (h : openRxBuffer data bufferSize = .ok rx) : rx.tail = rx.head := by
  unfold openRxBuffer at h
  dsimp only at h
  split at h
  · rename_i hinit
    cases h
    exact initializeBuffer_empty hinit
  · cases h

/-! ## Operations -/

section Operations
variable {rx : RingBuffer} {n : Nat}

/-- There always seems to be a free cell. -/
theorem Sized.freeSize (h : Sized rx) : ¬ bufferFreeSize rx < 1 := by
  have hlt := h.dataSize_lt
  rw [bufferFreeSize]
  omega

/-- The buffer behind a push. -/
def pushed (rx : RingBuffer) (ch : UInt8) : RingBuffer :=
  { rx with data := Function.update rx.data rx.tail ch, tail := (rx.tail + 1) % rx.size }

theorem Sized.pushBuffer_eq (h : Sized rx) (ch : UInt8) : pushBuffer rx ch = (true, pushed rx ch) := by
  rw [pushBuffer, if_neg h.freeSize, pushed, h.andMask_succ]

theorem Sized.pushed (h : Sized rx) (ch : UInt8) : Sized (pushed rx ch) :=
  ⟨h.power, h.mask, h.head, Nat.mod_lt _ (Nat.zero_lt_of_lt h.tail)⟩

theorem Sized.stored_pushed (h : Sized rx) (ch : UInt8) (hroom : bufferDataSize rx + 1 < rx.size) :
    stored (Uart.pushed rx ch) = stored rx ++ [ch] := by
  have hdist : ringDist rx.size rx.head rx.tail + 1 < rx.size := by
    rw [← h.dataSize]
    exact hroom
  rw [stored, (h.pushed ch).dataSize, stored, h.dataSize]
  change window _ rx.size rx.head (ringDist rx.size rx.head ((rx.tail + 1) % rx.size)) = _
  rw [ringDist_succ_tail h.head h.tail hdist]
  have hpush := @window_push _ rx.data _ rx.head _ ch (Nat.lt_of_succ_lt hdist)
  rw [add_ringDist h.head h.tail] at hpush
  exact hpush

/-- The buffer behind a pop of `n` bytes. -/
def popped (rx : RingBuffer) (n : Nat) : RingBuffer := { rx with head := (rx.head + n) % rx.size }

theorem Sized.popped (h : Sized rx) (n : Nat) : Sized (popped rx n) :=
  ⟨h.power, h.mask, Nat.mod_lt _ (Nat.zero_lt_of_lt h.head), h.tail⟩

theorem popped_popped (m : Nat) : Uart.popped (Uart.popped rx m) n = Uart.popped rx (m + n) := by
  simp only [Uart.popped, Nat.mod_add_mod, Nat.add_assoc]

theorem Sized.popLoop_eq (h : Sized rx) :
    popLoop n rx = (window rx.data rx.size rx.head n, Uart.popped rx n) := by
  induction n generalizing rx with
  | zero => simp [popLoop, window, Uart.popped, Nat.mod_eq_of_lt h.head]
  | succ n ih =>
    have hnext : { rx with head := andMask (rx.head + 1) rx.mask } = Uart.popped rx 1 := by
      rw [h.andMask_succ, Uart.popped]
    have hrest := ih (h.popped 1)
    rw [popLoop, hnext, hrest, popped_popped, Nat.add_comm 1 n, window_cons, Nat.mod_eq_of_lt h.head]
    rfl

theorem Sized.popString_eq (h : Sized rx) (hdata : bufferDataSize rx ≠ 0) (hn : n ≤ bufferDataSize rx) :
    popString rx n = (some ((stored rx).take n), Uart.popped rx n) := by
  have hlt := h.dataSize_lt
  have hne : rx.tail ≠ rx.head := fun heq => hdata (h.empty_iff.mpr heq)
  rw [popString, popBuffer, if_neg (by omega), if_neg hne, if_neg (by omega), h.popLoop_eq, stored,
    window_take hn]

theorem Sized.stored_popped (h : Sized rx) (hn : n ≤ bufferDataSize rx) :
    stored (Uart.popped rx n) = (stored rx).drop n := by
  rw [h.dataSize] at hn
  rw [stored, (h.popped n).dataSize, stored, h.dataSize, window_drop]
  change window _ rx.size _ (ringDist rx.size ((rx.head + n) % rx.size) rx.tail) = _
  rw [ringDist_add_head h.head h.tail hn]
  rfl

theorem Sized.cleared (h : Sized rx) : Sized (clearBuffer rx) :=
  ⟨h.power, h.mask, Nat.zero_lt_of_lt h.head, Nat.zero_lt_of_lt h.head⟩

theorem Sized.stored_cleared (h : Sized rx) : stored (clearBuffer rx) = [] :=
  stored_eq_nil_iff.mpr (h.cleared.empty_iff.mpr rfl)

/-- The reading methods answer nil and leave the buffer, or take bytes from its front. -/
def Takes (rx : RingBuffer) (out : Option Bytes × RingBuffer) : Prop :=
  out = (none, rx) ∨ ∃ n ≤ bufferDataSize rx, out = (some ((stored rx).take n), Uart.popped rx n)

theorem Sized.popString_takes (h : Sized rx) (hdata : bufferDataSize rx ≠ 0)
    (hn : n ≤ bufferDataSize rx) : Takes rx (popString rx n) :=
  Or.inr ⟨n, hn, h.popString_eq hdata hn⟩

theorem Sized.read_takes (h : Sized rx) (w : Nat) (len : Option Int) : Takes rx (read w len rx) := by
  unfold read
  split
  · exact Or.inl rfl
  · rename_i hdata
    cases len with
    | none => exact h.popString_takes hdata (Nat.le_refl _)
    | some len =>
      dsimp only
      split
      · exact Or.inl rfl
      · rename_i hlen
        exact h.popString_takes hdata (Nat.le_of_not_lt hlen)

theorem Sized.readPartial_takes (h : Sized rx) (w : Nat) (maxlen : Int) :
    Takes rx (readPartial w maxlen rx) := by
  unfold readPartial
  split
  · exact Or.inl rfl
  · rename_i hdata
    apply h.popString_takes hdata
    split
    · exact Nat.le_refl _
    · rename_i hlen
      exact Nat.le_of_not_lt hlen

theorem Sized.gets_takes (h : Sized rx) : Takes rx (gets rx) := by
  unfold gets
  cases hsearch : searchCharBuffer rx 0x0a with
  | none => exact Or.inl rfl
  | some pos =>
    have hpos : pos < bufferDataSize rx := List.mem_range.mp (List.mem_of_find?_eq_some hsearch)
    exact h.popString_takes (by omega) hpos

end Operations

end PicoRuby.Uart
