import Mathlib.Data.Nat.Bitwise
import PicoRuby.Fat.Window
import PicoRuby.Shared.Bits

/-!
# Entries of the FAT

`get_fat` and `put_fat` over the window: entries of 12 bits, two in three bytes and some of them across two sectors,
of 16 bits, and of 28 bits in four bytes.
-/

namespace PicoRuby.Fat

set_option autoImplicit false

open Vfs (FResult)

/-! ## The functions -/

section Functions
variable {ss : Nat} [NeZero ss] {D : Type}

/-- The place of an offset in the window. -/
def idx (ss : Nat) [NeZero ss] (ofs : Nat) : Fin ss := Fin.ofNat ss ofs

def ldWord (win : Sector ss) (ofs : Nat) : Nat :=
  (win (idx ss (ofs + 1))).toNat <<< 8 ||| (win (idx ss ofs)).toNat

def ldDword (win : Sector ss) (ofs : Nat) : Nat :=
  (((win (idx ss (ofs + 3))).toNat <<< 8 ||| (win (idx ss (ofs + 2))).toNat) <<< 8 |||
    (win (idx ss (ofs + 1))).toNat) <<< 8 ||| (win (idx ss ofs)).toNat

def Fatfs.stWord (fs : Fatfs ss D) (ofs val : Nat) : Fatfs ss D :=
  (fs.setWin (idx ss ofs) (.ofNat val)).setWin (idx ss (ofs + 1)) (.ofNat (val >>> 8))

def Fatfs.stDword (fs : Fatfs ss D) (ofs val : Nat) : Fatfs ss D :=
  (fs.stWord ofs val).stWord (ofs + 2) (val >>> 16)

variable (io : DiskIo ss D)

def getFat (fs : Fatfs ss D) (clst : Nat) : Nat × Fatfs ss D :=
  if clst < 2 ∨ clst ≥ fs.nFatent then (1, fs)
  else match fs.fsType with
    | .fat12 =>
      let bc := clst + clst / 2
      match moveWindow io fs (fs.fatbase + bc / ss) with
      | (.ok, fs) =>
        let wc := (fs.win (idx ss bc)).toNat
        match moveWindow io fs (fs.fatbase + (bc + 1) / ss) with
        | (.ok, fs) =>
          let wc := wc ||| (fs.win (idx ss (bc + 1))).toNat <<< 8
          (if clst % 2 = 1 then wc >>> 4 else wc &&& 0xFFF, fs)
        | (_, fs) => (0xFFFFFFFF, fs)
      | (_, fs) => (0xFFFFFFFF, fs)
    | .fat16 =>
      match moveWindow io fs (fs.fatbase + clst / (ss / 2)) with
      | (.ok, fs) => (ldWord fs.win (clst * 2 % ss), fs)
      | (_, fs) => (0xFFFFFFFF, fs)
    | .fat32 =>
      match moveWindow io fs (fs.fatbase + clst / (ss / 4)) with
      | (.ok, fs) => (ldDword fs.win (clst * 4 % ss) &&& 0x0FFFFFFF, fs)
      | (_, fs) => (0xFFFFFFFF, fs)

/-- The first byte of an entry of 12 bits, over what is there. -/
def low12 (clst val : Nat) (old : UInt8) : UInt8 :=
  if clst % 2 = 1 then (old &&& (0x0F : UInt8)) ||| (UInt8.ofNat val <<< 4) else UInt8.ofNat val

/-- The second byte of an entry of 12 bits, over what is there. -/
def high12 (clst val : Nat) (old : UInt8) : UInt8 :=
  if clst % 2 = 1 then UInt8.ofNat (val >>> 4) else (old &&& (0xF0 : UInt8)) ||| (UInt8.ofNat (val >>> 8) &&& 0x0F)

def putFat (fs : Fatfs ss D) (clst val : Nat) : FResult × Fatfs ss D :=
  if clst ≥ 2 ∧ clst < fs.nFatent then
    match fs.fsType with
    | .fat12 =>
      let bc := clst + clst / 2
      match moveWindow io fs (fs.fatbase + bc / ss) with
      | (.ok, fs) =>
        let fs := fs.setWin (idx ss bc) (low12 clst val (fs.win (idx ss bc)))
        match moveWindow io fs (fs.fatbase + (bc + 1) / ss) with
        | (.ok, fs) => (.ok, fs.setWin (idx ss (bc + 1)) (high12 clst val (fs.win (idx ss (bc + 1)))))
        | (res, fs) => (res, fs)
      | (res, fs) => (res, fs)
    | .fat16 =>
      match moveWindow io fs (fs.fatbase + clst / (ss / 2)) with
      | (.ok, fs) => (.ok, fs.stWord (clst * 2 % ss) (val % 2 ^ 16))
      | (res, fs) => (res, fs)
    | .fat32 =>
      match moveWindow io fs (fs.fatbase + clst / (ss / 4)) with
      | (.ok, fs) =>
        let val := (val &&& 0x0FFFFFFF) ||| (ldDword fs.win (clst * 4 % ss) &&& 0xF0000000)
        (.ok, fs.stDword (clst * 4 % ss) val)
      | (res, fs) => (res, fs)
  else (.intErr, fs)

end Functions

/-! ## Entries in bytes -/

/-- What a FAT takes. -/
def FsType.bytes : FsType → Nat → Nat
  | .fat12, n => n * 3 / 2 + n % 2
  | .fat16, n => n * 2
  | .fat32, n => n * 4

/-- An entry is a number below this one. -/
def FsType.size : FsType → Nat
  | .fat12 => 2 ^ 12
  | .fat16 => 2 ^ 16
  | .fat32 => 2 ^ 28

def word (b : Nat → UInt8) (i : Nat) : Nat := (b i).toNat + 256 * (b (i + 1)).toNat

def dword (b : Nat → UInt8) (i : Nat) : Nat := word b i + 2 ^ 16 * word b (i + 2)

def storeWord (b : Nat → UInt8) (i val : Nat) : Nat → UInt8 :=
  Function.update (Function.update b i (.ofNat val)) (i + 1) (.ofNat (val >>> 8))

def storeDword (b : Nat → UInt8) (i val : Nat) : Nat → UInt8 := storeWord (storeWord b i val) (i + 2) (val >>> 16)

/-- The entry of a cluster. -/
def FsType.entry : FsType → (Nat → UInt8) → Nat → Nat
  | .fat12, b, c => if c % 2 = 1 then word b (c + c / 2) / 16 else word b (c + c / 2) % 2 ^ 12
  | .fat16, b, c => word b (c * 2)
  | .fat32, b, c => dword b (c * 4) % 2 ^ 28

/-- The bytes with another value in an entry. -/
def FsType.put : FsType → (Nat → UInt8) → Nat → Nat → Nat → UInt8
  | .fat12, b, c, val =>
    let i := c + c / 2
    Function.update (Function.update b i (low12 c val (b i))) (i + 1) (high12 c val (b (i + 1)))
  | .fat16, b, c, val => storeWord b (c * 2) (val % 2 ^ 16)
  | .fat32, b, c, val => storeDword b (c * 4) ((val &&& 0x0FFFFFFF) ||| (dword b (c * 4) &&& 0xF0000000))

section Bytes
variable {b : Nat → UInt8} {i j val : Nat}

theorem storeWord_of_ne (h : j ≠ i) (h' : j ≠ i + 1) : storeWord b i val j = b j := by
  rw [storeWord, Function.update_of_ne h', Function.update_of_ne h]

theorem word_storeWord : word (storeWord b i val) i = val % 2 ^ 16 := by
  have hlow : storeWord b i val i = .ofNat val := by
    rw [storeWord, Function.update_of_ne (Nat.ne_of_lt (Nat.lt_succ_self i)), Function.update_self]
  have hhigh : storeWord b i val (i + 1) = .ofNat (val >>> 8) := Function.update_self ..
  rw [word, hlow, hhigh, UInt8.toNat_ofNat', UInt8.toNat_ofNat', Nat.shiftRight_eq_div_pow]
  omega

theorem word_storeWord_of_ne (h : i + 2 ≤ j ∨ j + 2 ≤ i) : word (storeWord b i val) j = word b j := by
  rw [word, storeWord_of_ne (by omega) (by omega), storeWord_of_ne (by omega) (by omega), word]

theorem dword_storeDword : dword (storeDword b i val) i = val % 2 ^ 32 := by
  have hlow : word (storeDword b i val) i = val % 2 ^ 16 :=
    (word_storeWord_of_ne (.inr (Nat.le_refl _))).trans word_storeWord
  have hhigh : word (storeDword b i val) (i + 2) = (val >>> 16) % 2 ^ 16 := word_storeWord
  rw [dword, hlow, hhigh, Nat.shiftRight_eq_div_pow]
  omega

theorem dword_storeDword_of_ne (h : i + 4 ≤ j ∨ j + 4 ≤ i) : dword (storeDword b i val) j = dword b j := by
  unfold dword storeDword
  rw [word_storeWord_of_ne (by omega), word_storeWord_of_ne (by omega), word_storeWord_of_ne (by omega),
    word_storeWord_of_ne (by omega)]

/-! ### Half bytes -/

theorem toNat_or_shiftLeft (x y : UInt8) : ((x &&& (0x0F : UInt8)) ||| (y <<< 4)).toNat = x.toNat % 16 + 16 * (y.toNat % 16) := by
  have hx : (x &&& 0x0F).toNat = x.toNat % 2 ^ 4 := by
    rw [UInt8.toNat_and]
    exact Nat.and_two_pow_sub_one_eq_mod x.toNat 4
  have hy : (y <<< 4).toNat = (y.toNat % 16) <<< 4 := by
    rw [UInt8.toNat_shiftLeft, Nat.shiftLeft_eq, Nat.shiftLeft_eq]
    change y.toNat * 16 % 256 = y.toNat % 16 * 16
    omega
  have hlt : x.toNat % 2 ^ 4 < 2 ^ 4 := Nat.mod_lt _ (by decide)
  rw [UInt8.toNat_or, hx, hy, Nat.lor_comm, ← Nat.shiftLeft_add_eq_or_of_lt hlt, Nat.shiftLeft_eq]
  omega

theorem toNat_and_high (x : UInt8) : (x &&& 0xF0).toNat = 16 * (x.toNat / 16) := by
  have h : ∀ x : BitVec 8, (x &&& 0xF0#8).toNat = 16 * (x.toNat / 16) := by decide
  exact h x.toBitVec

theorem toNat_or_and (x y : UInt8) :
    ((x &&& (0xF0 : UInt8)) ||| (y &&& 0x0F)).toNat = 16 * (x.toNat / 16) + y.toNat % 16 := by
  have hy : (y &&& 0x0F).toNat = y.toNat % 2 ^ 4 := by
    rw [UInt8.toNat_and]
    exact Nat.and_two_pow_sub_one_eq_mod y.toNat 4
  have hx : (x &&& 0xF0).toNat = (x.toNat / 16) <<< 4 := by
    rw [toNat_and_high, Nat.shiftLeft_eq, Nat.mul_comm]
  have hlt : y.toNat % 2 ^ 4 < 2 ^ 4 := Nat.mod_lt _ (by decide)
  rw [UInt8.toNat_or, hx, hy, ← Nat.shiftLeft_add_eq_or_of_lt hlt, Nat.shiftLeft_eq]
  omega

theorem toNat_low12 (c val : Nat) (old : UInt8) : (low12 c val old).toNat =
    if c % 2 = 1 then old.toNat % 16 + 16 * (val % 16) else val % 256 := by
  have hval : (UInt8.ofNat val).toNat = val % 256 := UInt8.toNat_ofNat'
  unfold low12
  split
  · rw [toNat_or_shiftLeft, hval]
    omega
  · exact hval

theorem toNat_high12 (c val : Nat) (old : UInt8) : (high12 c val old).toNat =
    if c % 2 = 1 then val / 16 % 256 else 16 * (old.toNat / 16) + val / 256 % 16 := by
  unfold high12
  split
  · rw [UInt8.toNat_ofNat', Nat.shiftRight_eq_div_pow]
  · have hval : (UInt8.ofNat (val >>> 8)).toNat = val / 256 % 256 := by
      rw [UInt8.toNat_ofNat', Nat.shiftRight_eq_div_pow]
    rw [toNat_or_and, hval]
    omega

/-- The bytes after an entry of 12 bits has been written. -/
theorem put12_apply (b : Nat → UInt8) (c val j : Nat) : FsType.fat12.put b c val j =
    if j = c + c / 2 then low12 c val (b (c + c / 2))
    else if j = c + c / 2 + 1 then high12 c val (b (c + c / 2 + 1)) else b j := by
  change Function.update (Function.update b (c + c / 2) _) (c + c / 2 + 1) _ j = _
  by_cases hj : j = c + c / 2 + 1
  · rw [hj, Function.update_self, if_neg (by omega), if_pos rfl]
  · rw [Function.update_of_ne hj, if_neg hj]
    by_cases hj' : j = c + c / 2
    · rw [hj', Function.update_self, if_pos rfl]
    · rw [Function.update_of_ne hj', if_neg hj']

theorem entry12_put_self (b : Nat → UInt8) (c val : Nat) :
    FsType.fat12.entry (FsType.fat12.put b c val) c = val % 2 ^ 12 := by
  have hlow := toNat_low12 c val (b (c + c / 2))
  have hhigh := toNat_high12 c val (b (c + c / 2 + 1))
  simp only [FsType.entry, word, put12_apply, Nat.succ_ne_self, if_true, if_false]
  rw [hlow, hhigh]
  split
  · omega
  · omega

theorem entry12_put_of_ne (b : Nat → UInt8) {c c' : Nat} (val : Nat) (h : c' ≠ c) :
    FsType.fat12.entry (FsType.fat12.put b c val) c' = FsType.fat12.entry b c' := by
  have hlow := toNat_low12 c val (b (c + c / 2))
  have hhigh := toNat_high12 c val (b (c + c / 2 + 1))
  simp only [FsType.entry, word, put12_apply]
  by_cases hpair : c' / 2 = c / 2
  · -- the other entry of the same three bytes shares the middle one
    by_cases hodd : c % 2 = 1
    · have hplace : c' + c' / 2 + 1 = c + c / 2 := by omega
      rw [if_neg (by omega : ¬ c' % 2 = 1), if_neg (by omega : ¬ c' % 2 = 1), if_neg (by omega),
        if_neg (by omega), if_pos hplace, hplace, hlow, if_pos hodd]
      omega
    · have hplace : c' + c' / 2 = c + c / 2 + 1 := by omega
      rw [if_pos (by omega : c' % 2 = 1), if_pos (by omega : c' % 2 = 1), if_neg (by omega), if_pos hplace,
        if_neg (by omega), if_neg (by omega), hplace, hhigh, if_neg hodd]
      omega
  · rw [if_neg (by omega : c' + c' / 2 ≠ c + c / 2), if_neg (by omega : c' + c' / 2 ≠ c + c / 2 + 1),
      if_neg (by omega : c' + c' / 2 + 1 ≠ c + c / 2), if_neg (by omega : c' + c' / 2 + 1 ≠ c + c / 2 + 1)]

/-- A written entry reads as the value, and no other entry changes. -/
theorem entry_put (t : FsType) (b : Nat → UInt8) (c c' val : Nat) :
    t.entry (t.put b c val) c' = if c' = c then val % t.size else t.entry b c' := by
  by_cases hc : c' = c
  · subst hc
    rw [if_pos rfl]
    cases t with
    | fat12 => exact entry12_put_self b c' val
    | fat16 =>
      refine word_storeWord.trans ?_
      exact Nat.mod_mod _ _
    | fat32 =>
      change dword (storeDword b (c' * 4) _) (c' * 4) % 2 ^ 28 = val % 2 ^ 28
      have hlow : val &&& 0x0FFFFFFF = val % 2 ^ 28 := Nat.and_two_pow_sub_one_eq_mod val 28
      have hhigh : (dword b (c' * 4) &&& 0xF0000000) % 2 ^ 28 = 0 := by
        rw [Nat.and_mod_two_pow]
        exact Nat.and_zero _
      rw [dword_storeDword, Nat.mod_mod_of_dvd _ (pow_dvd_pow 2 (by decide)), Nat.or_mod_two_pow, hhigh, hlow,
        Nat.or_zero, Nat.mod_mod]
  · rw [if_neg hc]
    cases t with
    | fat12 => exact entry12_put_of_ne b val hc
    | fat16 => exact word_storeWord_of_ne (by omega)
    | fat32 => exact congrArg (· % 2 ^ 28) (dword_storeDword_of_ne (by omega))

end Bytes

/-! ## The FAT on the disk -/

/-- The most clusters that a FAT of the type has. -/
def FsType.maxClusters : FsType → Nat
  | .fat12 => 0xFF5
  | .fat16 => 0xFFF5
  | .fat32 => 0x0FFFFFF5

/-- There are clusters, their entries fit in the FAT, and the boot sector and the one of FSInfo are in front of it. -/
structure Volume.Wf (ss : Nat) (v : Volume) : Prop where
  some_clusters : 2 < v.nFatent
  limit : v.nFatent ≤ v.fsType.maxClusters + 2
  covers : v.fsType.bytes v.nFatent ≤ v.fsize * ss
  words : 4 ∣ ss
  sector : 512 ≤ ss
  boot : v.volbase < v.fatbase
  reserved : v.fsType = .fat32 → v.volbase + 1 < v.fatbase

section Table
variable {ss : Nat} [NeZero ss] {D : Type} (sector : D → Nat → Sector ss)

/-- The bytes of the FAT. -/
def Fatfs.fatByte (fs : Fatfs ss D) (i : Nat) : UInt8 :=
  if i < fs.fsize * ss then fs.view sector (fs.fatbase + i / ss) (idx ss i) else 0

/-- The FAT, with what stands for an entry that is not there. -/
def Fatfs.table (fs : Fatfs ss D) (c : Nat) : Nat :=
  if c < 2 ∨ c ≥ fs.nFatent then 1 else fs.fsType.entry (fs.fatByte sector) c

variable (count : Nat)

/-- The window has been put over a byte of the FAT. -/
structure Over (fs fs' : Fatfs ss D) (i : Nat) : Prop where
  winsect : fs'.winsect = fs.fatbase + i / ss
  coherent : Coherent sector count fs'
  keeps : Keeps sector count fs fs'

/-- Only the FAT has changed, to these bytes. -/
structure Written (fs fs' : Fatfs ss D) (bytes : Nat → UInt8) : Prop where
  coherent : Coherent sector count fs'
  volume : fs'.toVolume = fs.toVolume
  lastClst : fs'.lastClst = fs.lastClst
  freeClst : fs'.freeClst = fs.freeClst
  fsiFlag : fs'.fsiFlag = fs.fsiFlag
  fatByte : fs'.fatByte sector = bytes
  others : ∀ lba < count, ¬ fs.InFat lba → ¬ fs.InCopy lba → fs'.view sector lba = fs.view sector lba

variable {sector count} {io : DiskIo ss D} {fs fs' fs'' : Fatfs ss D} {i j c : Nat} {b b' : Nat → UInt8}

theorem idx_mod (ofs k : Nat) : idx ss (ofs % ss + k) = idx ss (ofs + k) := by
  apply Fin.ext
  change (ofs % ss + k) % ss = (ofs + k) % ss
  rw [Nat.mod_add_mod]

theorem idx_eq_iff {i j : Nat} (h : i / ss = j / ss) : idx ss i = idx ss j ↔ i = j := by
  constructor
  · intro heq
    have hmod : i % ss = j % ss := congrArg Fin.val heq
    rw [← Nat.div_add_mod i ss, ← Nat.div_add_mod j ss, h, hmod]
  · exact congrArg (idx ss)

omit [NeZero ss] in
theorem inFat_of_lt (hi : i < fs.fsize * ss) : fs.InFat (fs.fatbase + i / ss) := by
  have hdiv : i / ss < fs.fsize := Nat.div_lt_of_lt_mul (Nat.mul_comm fs.fsize ss ▸ hi)
  exact ⟨Nat.le_add_right _ _, Nat.add_lt_add_left hdiv _⟩

theorem not_inCopy_of_inFat {v : Volume} {lba : Nat} (h : v.InFat lba) : ¬ v.InCopy lba := by
  intro hcopy
  have h₁ := h.2
  have h₂ := hcopy.2.1
  omega

theorem fatByte_congr (hvol : fs'.toVolume = fs.toVolume)
    (hview : ∀ lba, fs.InFat lba → fs'.view sector lba = fs.view sector lba) :
    fs'.fatByte sector = fs.fatByte sector := by
  funext i
  unfold Fatfs.fatByte
  rw [hvol]
  split
  · rename_i hi
    rw [hview _ (inFat_of_lt hi)]
  · rfl

theorem table_congr (hvol : fs'.toVolume = fs.toVolume)
    (hview : ∀ lba, fs.InFat lba → fs'.view sector lba = fs.view sector lba) : fs'.table sector = fs.table sector := by
  funext c
  unfold Fatfs.table
  rw [hvol, fatByte_congr hvol hview]

omit [NeZero ss] in
theorem Keeps.fat_view (h : Keeps sector count fs fs') (hfits : fs.fatbase + fs.fsize ≤ count) (lba : Nat)
    (hin : fs.InFat lba) : fs'.view sector lba = fs.view sector lba :=
  h.view lba (Nat.lt_of_lt_of_le hin.2 hfits) (not_inCopy_of_inFat hin)

theorem Keeps.fatByte (h : Keeps sector count fs fs') (hfits : fs.fatbase + fs.fsize ≤ count) :
    fs'.fatByte sector = fs.fatByte sector := fatByte_congr h.volume (h.fat_view hfits)

theorem Keeps.table (h : Keeps sector count fs fs') (hfits : fs.fatbase + fs.fsize ≤ count) :
    fs'.table sector = fs.table sector := table_congr h.volume (h.fat_view hfits)

theorem win_eq_fatByte (hi : i < fs.fsize * ss) (hwin : fs.winsect = fs.fatbase + i / ss) :
    fs.win (idx ss i) = fs.fatByte sector i := by
  rw [Fatfs.fatByte, if_pos hi, Fatfs.view, if_pos hwin.symm]

theorem setWin_fatByte (hi : i < fs.fsize * ss) (hwin : fs.winsect = fs.fatbase + i / ss) (b : UInt8) :
    (fs.setWin (idx ss i) b).fatByte sector = Function.update (fs.fatByte sector) i b := by
  funext j
  change (if j < fs.fsize * ss then (fs.setWin (idx ss i) b).view sector (fs.fatbase + j / ss) (idx ss j) else 0) = _
  rw [setWin_view, hwin]
  by_cases hj : j < fs.fsize * ss
  · rw [if_pos hj]
    by_cases hsect : j / ss = i / ss
    · rw [if_pos (congrArg _ hsect)]
      by_cases heq : j = i
      · rw [heq, Function.update_self, Function.update_self]
      · have hne : idx ss j ≠ idx ss i := fun he => heq ((idx_eq_iff hsect).mp he)
        rw [Function.update_of_ne hne, Function.update_of_ne heq]
        exact win_eq_fatByte hj (hsect ▸ hwin)
    · have hne : j ≠ i := fun he => hsect (he ▸ rfl)
      rw [if_neg (fun he => hsect (Nat.add_left_cancel he)), Function.update_of_ne hne, Fatfs.fatByte, if_pos hj]
  · have hne : j ≠ i := fun he => hj (he ▸ hi)
    rw [if_neg hj, Function.update_of_ne hne, Fatfs.fatByte, if_neg hj]

theorem lt_bytes12 {n : Nat} (h : c < n) : c + c / 2 + 1 < FsType.fat12.bytes n := by
  have hthree : n * 3 / 2 = n + n / 2 := by omega
  change c + c / 2 + 1 < n * 3 / 2 + n % 2
  rw [hthree]
  obtain hn | hn := Nat.mod_two_eq_zero_or_one n
  · omega
  · omega

theorem shiftLeft_or (x : Nat) (a : UInt8) : x <<< 8 ||| a.toNat = a.toNat + 256 * x := by
  rw [← Nat.shiftLeft_add_eq_or_of_lt a.toNat_lt, Nat.shiftLeft_eq, Nat.add_comm, Nat.mul_comm]

omit [NeZero ss] in
/-- The bytes of an entry of `m` bytes are in the same sector. -/
theorem entry_div {m k : Nat} (hm : m ∣ ss) (hk : k < m) : (c * m + k) / ss = c / (ss / m) := by
  obtain ⟨q, hq⟩ := hm
  have hpos : 0 < m := Nat.lt_of_le_of_lt (Nat.zero_le k) hk
  have hdiv : (c * m + k) / m = c := by
    rw [Nat.mul_comm, Nat.mul_add_div hpos, Nat.div_eq_of_lt hk, Nat.add_zero]
  rw [hq, Nat.mul_div_cancel_left q hpos, ← Nat.div_div_eq_div_mul, hdiv]

omit [NeZero ss] in
theorem moveWindow_over (h : Works io count sector) (hfs : Coherent sector count fs) (hi : i < fs.fsize * ss) :
    ∃ fs', moveWindow io fs (fs.fatbase + i / ss) = (.ok, fs') ∧ Over sector count fs fs' i := by
  have hin := inFat_of_lt hi
  obtain ⟨fs', hmove, hwin, hfs', hk⟩ := moveWindow_spec h hfs (Nat.lt_of_lt_of_le hin.2 hfs.fits)
  exact ⟨fs', hmove, hwin, hfs', hk⟩

theorem Over.win (hover : Over sector count fs fs' i) (hj : j < fs.fsize * ss) (hdiv : j / ss = i / ss) :
    fs'.win (idx ss j) = fs.fatByte sector j := by
  have hvol := hover.keeps.volume
  have hfits := hover.coherent.fits
  rw [hvol] at hfits
  rw [← hover.keeps.fatByte hfits]
  apply win_eq_fatByte
  · rwa [hvol]
  · rw [hvol, hover.winsect, hdiv]

theorem Over.ldWord {k : Nat} (hover : Over sector count fs fs' i) (hend : j + k + 1 < fs.fsize * ss)
    (hlow : (j + k) / ss = i / ss) (hhigh : (j + k + 1) / ss = i / ss) :
    ldWord fs'.win (j % ss + k) = word (fs.fatByte sector) (j + k) := by
  rw [Fat.ldWord, shiftLeft_or, Nat.add_assoc, idx_mod, idx_mod, ← Nat.add_assoc, hover.win (by omega) hlow,
    hover.win hend hhigh, word]

theorem ldDword_eq_words (win : Sector ss) (ofs : Nat) :
    ldDword win ofs = ldWord win ofs + 2 ^ 16 * ldWord win (ofs + 2) := by
  unfold ldDword ldWord
  rw [shiftLeft_or, shiftLeft_or, shiftLeft_or, shiftLeft_or]
  omega

theorem Over.ldDword (hover : Over sector count fs fs' i) (hend : j + 3 < fs.fsize * ss)
    (hdiv : ∀ k < 4, (j + k) / ss = i / ss) : ldDword fs'.win (j % ss) = dword (fs.fatByte sector) j := by
  have hlow := hover.ldWord (j := j) (k := 0) (by omega) (hdiv 0 (by decide)) (hdiv 1 (by decide))
  have hhigh := hover.ldWord (j := j) (k := 2) hend (hdiv 2 (by decide)) (hdiv 3 (by decide))
  rw [ldDword_eq_words, hhigh]
  exact congrArg (· + 2 ^ 16 * word (fs.fatByte sector) (j + 2)) hlow

/-! ### Where the entries are -/

omit [NeZero ss] in
theorem entry12_lt (hv : fs.Wf ss) (ht : fs.fsType = .fat12) (hc : c < fs.nFatent) :
    c + c / 2 + 1 < fs.fsize * ss := by
  refine Nat.lt_of_lt_of_le ?_ hv.covers
  rw [ht]
  exact lt_bytes12 hc

omit [NeZero ss] in
theorem entry16_lt (hv : fs.Wf ss) (ht : fs.fsType = .fat16) (hc : c < fs.nFatent) : c * 2 + 1 < fs.fsize * ss := by
  refine Nat.lt_of_lt_of_le ?_ hv.covers
  rw [ht]
  change c * 2 + 1 < fs.nFatent * 2
  omega

omit [NeZero ss] in
theorem entry32_lt (hv : fs.Wf ss) (ht : fs.fsType = .fat32) (hc : c < fs.nFatent) : c * 4 + 3 < fs.fsize * ss := by
  refine Nat.lt_of_lt_of_le ?_ hv.covers
  rw [ht]
  change c * 4 + 3 < fs.nFatent * 4
  omega

omit [NeZero ss] in
theorem entry16_div (hv : fs.Wf ss) (c : Nat) : ∀ k < 2, (c * 2 + k) / ss = c / (ss / 2) :=
  fun _ hk => entry_div (Nat.dvd_trans (by decide) hv.words) hk

omit [NeZero ss] in
theorem entry32_div (hv : fs.Wf ss) (c : Nat) : ∀ k < 4, (c * 4 + k) / ss = c / (ss / 4) :=
  fun _ hk => entry_div hv.words hk

/-! ### Reading -/

/-- `get_fat` reads the table and changes nothing. -/
theorem getFat_spec (h : Works io count sector) (hfs : Coherent sector count fs) (hv : fs.Wf ss) (c : Nat) :
    ∃ fs', getFat io fs c = (fs.table sector c, fs') ∧ Coherent sector count fs' ∧ Keeps sector count fs fs' := by
  unfold getFat Fatfs.table
  by_cases hc : c < 2 ∨ c ≥ fs.nFatent
  · rw [if_pos hc, if_pos hc]
    exact ⟨fs, rfl, hfs, .refl fs⟩
  have hlt : c < fs.nFatent := by omega
  rw [if_neg hc, if_neg hc]
  cases ht : fs.fsType with
  | fat12 =>
    have hend := entry12_lt hv ht hlt
    obtain ⟨fs₁, hmove, hover⟩ := moveWindow_over h hfs (Nat.lt_of_succ_lt hend)
    have hvol : fs₁.toVolume = fs.toVolume := hover.keeps.volume
    have hend' : c + c / 2 + 1 < fs₁.fsize * ss := by rwa [hvol]
    obtain ⟨fs₂, hmove', hover'⟩ := moveWindow_over h hover.coherent hend'
    have hlow := hover.win (Nat.lt_of_succ_lt hend) rfl
    have hhigh := hover'.win hend' rfl
    rw [hover.keeps.fatByte hfs.fits] at hhigh
    dsimp only
    rw [hmove]
    dsimp only
    rw [hmove']
    refine ⟨fs₂, Prod.ext ?_ rfl, hover'.coherent, hover.keeps.trans hover'.keeps⟩
    change (if c % 2 = 1 then _ >>> 4 else _ &&& (2 ^ 12 - 1)) = FsType.fat12.entry (fs.fatByte sector) c
    rw [hlow, hhigh, Nat.shiftRight_eq_div_pow, Nat.and_two_pow_sub_one_eq_mod, Shared.or_shiftLeft_eight]
    rfl
  | fat16 =>
    have hend := entry16_lt hv ht hlt
    have hdiv := entry16_div hv c
    obtain ⟨fs₁, hmove, hover⟩ := moveWindow_over h hfs (Nat.lt_of_succ_lt hend)
    rw [← hdiv 0 (by decide), Nat.add_zero, hmove]
    refine ⟨fs₁, Prod.ext ?_ rfl, hover.coherent, hover.keeps⟩
    exact hover.ldWord (k := 0) hend rfl ((hdiv 1 (by decide)).trans (hdiv 0 (by decide)).symm)
  | fat32 =>
    have hend := entry32_lt hv ht hlt
    have hdiv := entry32_div hv c
    obtain ⟨fs₁, hmove, hover⟩ := moveWindow_over h hfs (Nat.lt_of_le_of_lt (Nat.le_add_right _ 3) hend)
    rw [← hdiv 0 (by decide), Nat.add_zero, hmove]
    refine ⟨fs₁, Prod.ext ?_ rfl, hover.coherent, hover.keeps⟩
    change ldDword fs₁.win (c * 4 % ss) &&& (2 ^ 28 - 1) = dword (fs.fatByte sector) (c * 4) % 2 ^ 28
    rw [Nat.and_two_pow_sub_one_eq_mod, hover.ldDword hend fun k hk => (hdiv k hk).trans (hdiv 0 (by decide)).symm]

/-! ### Writing -/

/-- The window is over a byte of the FAT. -/
def Fatfs.Shows (fs : Fatfs ss D) (i : Nat) : Prop := i < fs.fsize * ss ∧ fs.winsect = fs.fatbase + i / ss

theorem Keeps.written (h : Keeps sector count fs fs') (hfs' : Coherent sector count fs') :
    Written sector count fs fs' (fs.fatByte sector) := by
  have hfits := hfs'.fits
  rw [h.volume] at hfits
  exact ⟨hfs', h.volume, h.lastClst, h.freeClst, h.fsiFlag, h.fatByte hfits, fun lba hlba _ hcopy => h.view lba hlba hcopy⟩

theorem Written.trans (h : Written sector count fs fs' b) (h' : Written sector count fs' fs'' b') :
    Written sector count fs fs'' b' := by
  refine ⟨h'.coherent, h'.volume.trans h.volume, h'.lastClst.trans h.lastClst, h'.freeClst.trans h.freeClst,
    h'.fsiFlag.trans h.fsiFlag, h'.fatByte, ?_⟩
  intro lba hlba hfat hcopy
  rw [h'.others lba hlba (by rwa [h.volume]) (by rwa [h.volume]), h.others lba hlba hfat hcopy]

theorem setWin_written (hfs : Coherent sector count fs) (hi : fs.Shows i) (x : UInt8) :
    Written sector count fs (fs.setWin (idx ss i) x) (Function.update (fs.fatByte sector) i x) := by
  have hin := inFat_of_lt hi.1
  have hlt : fs.winsect < count := hi.2 ▸ Nat.lt_of_lt_of_le hin.2 hfs.fits
  have hcopy : ¬ fs.InCopy fs.winsect := hi.2 ▸ not_inCopy_of_inFat hin
  refine ⟨hfs.setWin hlt hcopy _ _, rfl, rfl, rfl, rfl, setWin_fatByte hi.1 hi.2 x, ?_⟩
  intro lba _ hfat _
  rw [setWin_view, if_neg]
  intro heq
  exact hfat (heq ▸ hi.2 ▸ hin)

theorem stWord_written {k : Nat} (hfs : Coherent sector count fs) (hlow : fs.Shows (j + k))
    (hhigh : fs.Shows (j + k + 1)) (val : Nat) :
    Written sector count fs (fs.stWord (j % ss + k) val) (storeWord (fs.fatByte sector) (j + k) val) := by
  have hfirst := setWin_written hfs hlow (.ofNat val)
  have hsecond := setWin_written hfirst.coherent (i := j + k + 1) hhigh (.ofNat (val >>> 8))
  rw [hfirst.fatByte] at hsecond
  rw [Fatfs.stWord, Nat.add_assoc, idx_mod, idx_mod]
  exact hfirst.trans hsecond

theorem stDword_written (hfs : Coherent sector count fs) (hshows : ∀ k < 4, fs.Shows (j + k)) (val : Nat) :
    Written sector count fs (fs.stDword (j % ss) val) (storeDword (fs.fatByte sector) j val) := by
  have hlow := stWord_written (k := 0) hfs (hshows 0 (by decide)) (hshows 1 (by decide)) val
  have hhigh := stWord_written (k := 2) hlow.coherent (hshows 2 (by decide)) (hshows 3 (by decide)) (val >>> 16)
  rw [hlow.fatByte] at hhigh
  exact hlow.trans hhigh

omit [NeZero ss] in
theorem Over.shows (hover : Over sector count fs fs' i) (hj : j < fs.fsize * ss) (hdiv : j / ss = i / ss) :
    fs'.Shows j := by
  unfold Fatfs.Shows
  rw [hover.keeps.volume, hover.winsect, hdiv]
  exact ⟨hj, rfl⟩

/-- `put_fat` writes the entry and nothing else. -/
theorem putFat_spec (h : Works io count sector) (hfs : Coherent sector count fs) (hv : fs.Wf ss) (hc : 2 ≤ c)
    (hlt : c < fs.nFatent) (val : Nat) : ∃ fs', putFat io fs c val = (.ok, fs') ∧
      Written sector count fs fs' (fs.fsType.put (fs.fatByte sector) c val) := by
  unfold putFat
  rw [if_pos ⟨hc, hlt⟩]
  cases ht : fs.fsType with
  | fat12 =>
    have hend := entry12_lt hv ht hlt
    have hend₀ := Nat.lt_of_succ_lt hend
    obtain ⟨fs₁, hmove, hover⟩ := moveWindow_over h hfs hend₀
    have hlow := hover.win hend₀ rfl
    have hfirst := (hover.keeps.written hover.coherent).trans (setWin_written hover.coherent (hover.shows hend₀ rfl)
      (low12 c val (fs₁.win (idx ss (c + c / 2)))))
    rw [hover.keeps.fatByte hfs.fits] at hfirst
    -- the second byte may be in the next sector
    have hend' := hend
    rw [← hfirst.volume] at hend'
    obtain ⟨fs₃, hmove', hover'⟩ := moveWindow_over h hfirst.coherent hend'
    have hhigh := hover'.win hend' rfl
    have hsecond := (hover'.keeps.written hover'.coherent).trans (setWin_written hover'.coherent
      (hover'.shows hend' rfl) (high12 c val (fs₃.win (idx ss (c + c / 2 + 1)))))
    rw [hover'.keeps.fatByte hfirst.coherent.fits, hfirst.fatByte] at hsecond
    rw [hfirst.fatByte, Function.update_of_ne (Nat.succ_ne_self _)] at hhigh
    have hboth := hfirst.trans hsecond
    rw [hhigh, hlow] at hboth
    dsimp only
    rw [hmove]
    dsimp only
    rw [hmove']
    refine ⟨_, rfl, ?_⟩
    rw [hhigh]
    exact hboth
  | fat16 =>
    have hend := entry16_lt hv ht hlt
    have hend₀ := Nat.lt_of_succ_lt hend
    have hdiv := entry16_div hv c
    obtain ⟨fs₁, hmove, hover⟩ := moveWindow_over h hfs hend₀
    have hshows := hover.shows hend ((hdiv 1 (by decide)).trans (hdiv 0 (by decide)).symm)
    have hstored := stWord_written (k := 0) hover.coherent (hover.shows hend₀ rfl) hshows (val % 2 ^ 16)
    rw [hover.keeps.fatByte hfs.fits] at hstored
    rw [← hdiv 0 (by decide), Nat.add_zero, hmove]
    exact ⟨_, rfl, (hover.keeps.written hover.coherent).trans hstored⟩
  | fat32 =>
    have hend := entry32_lt hv ht hlt
    have hdiv : ∀ k < 4, (c * 4 + k) / ss = (c * 4) / ss := fun k hk =>
      (entry32_div hv c k hk).trans (entry32_div hv c 0 (by decide)).symm
    obtain ⟨fs₁, hmove, hover⟩ := moveWindow_over h hfs (Nat.lt_of_le_of_lt (Nat.le_add_right _ 3) hend)
    have hold := hover.ldDword hend hdiv
    have hstored := stDword_written hover.coherent (fun k hk => hover.shows (by omega) (hdiv k hk))
      ((val &&& 0x0FFFFFFF) ||| (dword (fs.fatByte sector) (c * 4) &&& 0xF0000000))
    rw [hover.keeps.fatByte hfs.fits] at hstored
    rw [← entry32_div hv c 0 (by decide), Nat.add_zero, hmove]
    dsimp only
    rw [hold]
    exact ⟨_, rfl, (hover.keeps.written hover.coherent).trans hstored⟩

/-- The table after `put_fat`. -/
theorem Written.table {c' val : Nat} (h : Written sector count fs fs' (fs.fsType.put (fs.fatByte sector) c val))
    (hc' : 2 ≤ c') (hlt : c' < fs.nFatent) :
    fs'.table sector c' = if c' = c then val % fs.fsType.size else fs.table sector c' := by
  have hin : ¬ (c' < 2 ∨ c' ≥ fs.nFatent) := by omega
  rw [Fatfs.table, h.fatByte, h.volume, if_neg hin, entry_put, Fatfs.table, if_neg hin]

end Table

end PicoRuby.Fat
