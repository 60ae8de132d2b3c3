import Mathlib.Algebra.Group.Int.Defs
import Mathlib.Algebra.GroupWithZero.Nat
import PicoRuby.Vfs.Fat

/-!
# Sector counts

`FAT#sector_count` over `getfree`, which puts two counts of sectors into one number of 32 bits. The Integer that it
becomes has 64 bits on mruby, and 32 or 64 bits on mruby/c.
-/

namespace PicoRuby.Vfs

set_option autoImplicit false

/-! ## The methods -/

abbrev Dword := BitVec 32

/-- What `getfree` reads of a `FATFS`. -/
structure FatFsObject where
  nFatent : Dword
  csize : BitVec 16
deriving DecidableEq, Repr

/-- The size of an Integer. -/
inductive IntSize where
  | int32
  | int64
deriving DecidableEq, Repr

def IntSize.bits : IntSize → Nat
  | int32 => 32
  | int64 => 64

structure SectorCount where
  total : Int
  free : Int
deriving DecidableEq, Repr

section Methods
variable (size : IntSize) (path : Text) (fGetfree : Except FResult (Dword × FatFsObject))

/-- `FAT#getfree`; `f_getfree` gives the free clusters and the object. -/
def getfree : Except Failure (BitVec size.bits) := do
  cString path
  let (freClust, fs) ← raiseIffError "f_getfree" fGetfree
  let totSect := (fs.nFatent - 2) * fs.csize.setWidth 32
  let freSect := freClust * fs.csize.setWidth 32
  return ((totSect <<< 16) ||| freSect).setWidth size.bits

/-- `FAT#sector_count`. -/
def Fat.sectorCount (driver : Fat) : Except Failure SectorCount := do
  let res ← getfree size driver.drive fGetfree
  return ⟨(res.sshiftRight 16).toInt, (res &&& 0b1111111111111111).toInt⟩

end Methods

/-! ## Volumes -/

/-- A volume that is mounted. Its sectors can be counted in 32 bits. -/
structure FatVolume where
  driver : Fat
  fs : FatFsObject
  free : Dword
  named : Char.ofNat 0 ∉ driver.drive
  two_le : 2 ≤ fs.nFatent.toNat
  free_le : free.toNat ≤ fs.nFatent.toNat - 2
  sectors_lt : (fs.nFatent.toNat - 2) * fs.csize.toNat < 2 ^ 32

namespace FatVolume

def totalSectors (v : FatVolume) : Nat := (v.fs.nFatent.toNat - 2) * v.fs.csize.toNat

def freeSectors (v : FatVolume) : Nat := v.free.toNat * v.fs.csize.toNat

/-- What the C side puts into one number. -/
def packed (v : FatVolume) : Nat := (v.totalSectors <<< 16 % 2 ^ 32) ||| v.freeSectors

/-- `FAT#sector_count`, where `f_getfree` reports what is free. -/
def sectorCount (v : FatVolume) (size : IntSize) : Except Failure SectorCount :=
  v.driver.sectorCount size (.ok (v.free, v.fs))

/-- Below this number, the sectors are counted right. -/
def limit : IntSize → Nat
  | .int32 => 2 ^ 15
  | .int64 => 2 ^ 16

variable (v : FatVolume)

theorem freeSectors_le : v.freeSectors ≤ v.totalSectors := Nat.mul_le_mul_right _ v.free_le

theorem packed_lt : v.packed < 2 ^ 32 := by
  have hfree := v.freeSectors_le
  have htotal : v.totalSectors < 2 ^ 32 := v.sectors_lt
  exact Nat.or_lt_two_pow (Nat.mod_lt _ (by decide)) (by omega)

theorem totSect_toNat : ((v.fs.nFatent - 2) * v.fs.csize.setWidth 32).toNat = v.totalSectors := by
  have hclusters : (v.fs.nFatent - 2).toNat = v.fs.nFatent.toNat - 2 := BitVec.toNat_sub_of_le v.two_le
  have hcsize : (v.fs.csize.setWidth 32).toNat = v.fs.csize.toNat := BitVec.toNat_setWidth_of_le (by decide)
  rw [BitVec.toNat_mul, hclusters, hcsize]
  exact Nat.mod_eq_of_lt v.sectors_lt

theorem freSect_toNat : (v.free * v.fs.csize.setWidth 32).toNat = v.freeSectors := by
  have hcsize : (v.fs.csize.setWidth 32).toNat = v.fs.csize.toNat := BitVec.toNat_setWidth_of_le (by decide)
  rw [BitVec.toNat_mul, hcsize]
  exact Nat.mod_eq_of_lt (Nat.lt_of_le_of_lt v.freeSectors_le v.sectors_lt)

theorem getfree_ok (size : IntSize) :
    getfree size v.driver.drive (.ok (v.free, v.fs)) = .ok (BitVec.ofNat size.bits v.packed) := by
  have hpacked : ((((v.fs.nFatent - 2) * v.fs.csize.setWidth 32) <<< 16) |||
      (v.free * v.fs.csize.setWidth 32)).toNat = v.packed := by
    rw [BitVec.toNat_or, BitVec.toNat_shiftLeft, v.totSect_toNat, v.freSect_toNat]
    rfl
  unfold getfree cString
  rw [if_neg v.named, ← hpacked, BitVec.ofNat_toNat]
  rfl

theorem packed_small (h : v.totalSectors < 2 ^ 16) :
    v.packed = v.totalSectors * 2 ^ 16 + v.freeSectors := by
  have hfree := v.freeSectors_le
  unfold packed
  rw [Nat.mod_eq_of_lt (by rw [Nat.shiftLeft_eq]; omega), ← Nat.shiftLeft_add_eq_or_of_lt (by omega), Nat.shiftLeft_eq]

theorem packed_total (h : v.totalSectors < 2 ^ 16) : v.packed / 2 ^ 16 = v.totalSectors := by
  have hfree := v.freeSectors_le
  rw [v.packed_small h]
  omega

theorem packed_free (h : v.totalSectors < 2 ^ 16) : v.packed % 2 ^ 16 = v.freeSectors := by
  have hfree := v.freeSectors_le
  rw [v.packed_small h]
  omega

end FatVolume

section Number
variable (size : IntSize) {n : Nat}

/-- The number as an Integer: with 32 bits, it is negative from 2^31 on. -/
def IntSize.integer (n : Nat) : Int :=
  match size with
  | .int32 => if n < 2 ^ 31 then n else n - 2 ^ 32
  | .int64 => n

theorem toNat_ofNat_small {w : Nat} (h : n < 2 ^ w) : (BitVec.ofNat w n).toNat = n := by
  rw [BitVec.toNat_ofNat, Nat.mod_eq_of_lt h]

theorem toInt_ofNat (h : n < 2 ^ 32) : (BitVec.ofNat size.bits n).toInt = size.integer n := by
  cases size with
  | int32 =>
    have htoNat : (BitVec.ofNat 32 n).toNat = n := toNat_ofNat_small h
    have htoInt : (BitVec.ofNat 32 n).toInt = if n < 2 ^ 31 then (n : Int) else n - 2 ^ 32 := by
      rw [BitVec.toInt_eq_toNat_cond, htoNat]
      split <;> split <;> omega
    exact htoInt
  | int64 =>
    have htoNat : (BitVec.ofNat 64 n).toNat = n := toNat_ofNat_small (by omega)
    have htoInt : (BitVec.ofNat 64 n).toInt = n := by
      rw [BitVec.toInt_eq_toNat_of_lt (by rw [htoNat]; omega), htoNat]
    exact htoInt

theorem mask_ofNat (h : n < 2 ^ 32) :
    (BitVec.ofNat size.bits n &&& 0b1111111111111111).toInt = (n % 2 ^ 16 : Nat) := by
  have hbits : 2 ^ 32 ≤ 2 ^ size.bits := by
    cases size <;> decide
  have hmask : (0b1111111111111111 : BitVec size.bits).toNat = 2 ^ 16 - 1 := by
    cases size <;> rfl
  have htoNat : (BitVec.ofNat size.bits n &&& 0b1111111111111111).toNat = n % 2 ^ 16 := by
    rw [BitVec.toNat_and, toNat_ofNat_small (Nat.lt_of_lt_of_le h hbits), hmask,
      Nat.and_two_pow_sub_one_eq_mod]
  rw [BitVec.toInt_eq_toNat_of_lt (by rw [htoNat]; omega), htoNat]

end Number

namespace FatVolume
variable (v : FatVolume) (size : IntSize)

theorem sectorCount_eq : v.sectorCount size = .ok ⟨size.integer v.packed / 2 ^ 16, (v.packed % 2 ^ 16 : Nat)⟩ := by
  have hlt := v.packed_lt
  unfold sectorCount Fat.sectorCount
  rw [v.getfree_ok]
  have hshift : ((BitVec.ofNat size.bits v.packed).sshiftRight 16).toInt = size.integer v.packed / 2 ^ 16 := by
    rw [BitVec.toInt_sshiftRight, toInt_ofNat size hlt, Int.shiftRight_eq_div_pow]
    rfl
  rw [← hshift, ← mask_ofNat size hlt]
  rfl

/-- **The counts are right** on the volumes with few enough sectors. -/
theorem sectorCount_iff : v.sectorCount size = .ok ⟨v.totalSectors, v.freeSectors⟩ ↔ v.totalSectors < limit size := by
  have hlt := v.packed_lt
  rw [v.sectorCount_eq]
  constructor
  · intro h
    have htotal : size.integer v.packed / 2 ^ 16 = v.totalSectors := congrArg SectorCount.total (Except.ok.inj h)
    cases size with
    | int32 =>
      unfold IntSize.integer at htotal
      dsimp only [limit] at htotal ⊢
      split at htotal <;> omega
    | int64 =>
      unfold IntSize.integer at htotal
      dsimp only [limit] at htotal ⊢
      omega
  · intro h
    have hsmall : v.totalSectors < 2 ^ 16 := by
      cases size <;> (dsimp only [limit] at h; omega)
    have htotal : size.integer v.packed / 2 ^ 16 = v.totalSectors := by
      have hquotient := v.packed_total hsmall
      cases size with
      | int32 =>
        dsimp only [limit, IntSize.integer] at h ⊢
        rw [if_pos (by omega)]
        omega
      | int64 =>
        dsimp only [IntSize.integer]
        omega
    rw [htotal, v.packed_free hsmall]

end FatVolume

/-- A volume of 65536 clusters with one sector each, one of them free. -/
def largeCard : FatVolume where
  driver := ⟨"sd:".toList⟩
  fs := ⟨65538, 1⟩
  free := 1
  named := by decide
  two_le := by decide
  free_le := by decide
  sectors_lt := by decide

/-- The total is shifted out. -/
theorem sectorCount_lost :
    largeCard.totalSectors = 65536 ∧ largeCard.freeSectors = 1 ∧ largeCard.sectorCount .int64 = .ok ⟨0, 1⟩ ∧
      ¬ ∀ (v : FatVolume) (size : IntSize), v.sectorCount size = .ok ⟨v.totalSectors, v.freeSectors⟩ := by
  have hcount : largeCard.sectorCount .int64 = .ok ⟨0, 1⟩ := by decide
  refine ⟨rfl, rfl, hcount, fun h => ?_⟩
  have hright := hcount.symm.trans (h largeCard .int64)
  cases hright

end PicoRuby.Vfs
