import Mathlib.Algebra.GroupWithZero.Nat
import Mathlib.Logic.Function.Basic
import PicoRuby.Vfs.Fat

/-!
# The window of a volume

FatFs gets at its tables and directories through a window of one sector. `move_window` puts the window over another
sector, and what was changed in it goes back to the disk first, to both FATs when it is of the first one.
-/

namespace PicoRuby.Fat

set_option autoImplicit false

open Vfs (FResult)

/-! ## Volumes -/

inductive FsType where
  | fat12 | fat16 | fat32
deriving DecidableEq, Repr

/-- The first `SS(fs)` bytes of `win`. -/
abbrev Sector (ss : Nat) := Fin ss → UInt8

/-- `disk_read` and `disk_write` of one sector, and `disk_ioctl` with `CTRL_SYNC`; true is `RES_OK`. -/
structure DiskIo (ss : Nat) (D : Type) where
  diskRead : D → Nat → Option (Sector ss)
  diskWrite : D → Sector ss → Nat → Bool × D
  ctrlSync : D → Bool

/-- What `mount_volume` finds out about a volume. -/
structure Volume where
  fsType : FsType
  nFats : Nat
  csize : Nat
  nFatent : Nat
  fsize : Nat
  volbase : Nat
  fatbase : Nat
  database : Nat
deriving DecidableEq, Repr

/-- `FATFS`. Bit 7 of `fsiFlag` disables FSInfo, bit 0 says that it has to be written. -/
structure Fatfs (ss : Nat) (D : Type) extends Volume where
  wflag : Bool
  fsiFlag : UInt8
  lastClst : Nat
  freeClst : Nat
  winsect : Nat
  win : Sector ss
  disk : D

namespace Volume

/-- In the first FAT. -/
def InFat (v : Volume) (lba : Nat) : Prop := v.fatbase ≤ lba ∧ lba < v.fatbase + v.fsize

/-- In the second FAT. -/
def InCopy (v : Volume) (lba : Nat) : Prop :=
  v.nFats = 2 ∧ v.fatbase + v.fsize ≤ lba ∧ lba < v.fatbase + v.fsize + v.fsize

instance (v : Volume) (lba : Nat) : Decidable (v.InFat lba) := instDecidableAnd
instance (v : Volume) (lba : Nat) : Decidable (v.InCopy lba) := instDecidableAnd

end Volume

/-! ## The functions -/

/-- A difference of type `LBA_t`. -/
def lbaSub (a b : Nat) : Nat := (a + 2 ^ 32 - b) % 2 ^ 32

variable {ss : Nat} {D : Type} (io : DiskIo ss D)

def syncWindow (fs : Fatfs ss D) : FResult × Fatfs ss D :=
  if fs.wflag then
    let (ok, disk) := io.diskWrite fs.disk fs.win fs.winsect
    if ok then
      let fs := { fs with wflag := false, disk := disk }
      if lbaSub fs.winsect fs.fatbase < fs.fsize ∧ fs.nFats = 2 then
        -- what the second write comes to is not looked at
        (.ok, { fs with disk := (io.diskWrite fs.disk fs.win (fs.winsect + fs.fsize)).2 })
      else (.ok, fs)
    else (.diskErr, { fs with disk := disk })
  else (.ok, fs)

def moveWindow (fs : Fatfs ss D) (sect : Nat) : FResult × Fatfs ss D :=
  if sect ≠ fs.winsect then
    match syncWindow io fs with
    | (.ok, fs) =>
      match io.diskRead fs.disk sect with
      | some win => (.ok, { fs with win := win, winsect := sect })
      | none => (.diskErr, { fs with winsect := lbaSub 0 1 })
    | (res, fs) => (res, fs)
  else (.ok, fs)

/-- A byte of the window changes. -/
def Fatfs.setWin (fs : Fatfs ss D) (i : Fin ss) (b : UInt8) : Fatfs ss D :=
  { fs with win := Function.update fs.win i b, wflag := true }

/-! ## What is on the volume -/

/-- A disk of `count` sectors that never fails. `sector` is what is on it. -/
structure Works (io : DiskIo ss D) (count : Nat) (sector : D → Nat → Sector ss) : Prop where
  count_le : count ≤ 2 ^ 32 - 1
  read : ∀ disk lba, lba < count → io.diskRead disk lba = some (sector disk lba)
  ok : ∀ disk buff lba, lba < count → (io.diskWrite disk buff lba).1 = true
  write : ∀ disk buff lba other, lba < count → other < count →
    sector (io.diskWrite disk buff lba).2 other = if other = lba then buff else sector disk other
  sync : ∀ disk, io.ctrlSync disk = true

variable (sector : D → Nat → Sector ss) (count : Nat)

/-- What FatFs takes a sector for. -/
def Fatfs.view (fs : Fatfs ss D) (lba : Nat) : Sector ss := if lba = fs.winsect then fs.win else sector fs.disk lba

/-- The window agrees with the disk where it has not been changed, and the second FAT with the first one. -/
structure Coherent (fs : Fatfs ss D) : Prop where
  fits : fs.fatbase + fs.fsize ≤ count
  fits_copy : fs.nFats = 2 → fs.fatbase + fs.fsize + fs.fsize ≤ count
  clean : fs.wflag = false → fs.winsect < count → fs.win = sector fs.disk fs.winsect
  dirty : fs.wflag = true → fs.winsect < count ∧ ¬ fs.InCopy fs.winsect
  copy : fs.nFats = 2 → ∀ lba, fs.InFat lba → (fs.wflag = true → lba ≠ fs.winsect) →
    sector fs.disk (lba + fs.fsize) = sector fs.disk lba

/-- The volume is the same as before, apart from its second FAT. -/
structure Keeps (fs fs' : Fatfs ss D) : Prop where
  volume : fs'.toVolume = fs.toVolume
  lastClst : fs'.lastClst = fs.lastClst
  freeClst : fs'.freeClst = fs.freeClst
  fsiFlag : fs'.fsiFlag = fs.fsiFlag
  view : ∀ lba < count, ¬ fs.InCopy lba → fs'.view sector lba = fs.view sector lba

/-- The state after the window has been written back. -/
structure Synced (fs fs' : Fatfs ss D) : Prop where
  wflag : fs'.wflag = false
  winsect : fs'.winsect = fs.winsect
  coherent : Coherent sector count fs'
  keeps : Keeps sector count fs fs'

section Window
variable {io sector count} {fs fs' fs'' : Fatfs ss D} {sect lba : Nat}

theorem lbaSub_lt_iff {a b size : Nat} (ha : a < 2 ^ 32) (hend : b + size ≤ 2 ^ 32) :
    lbaSub a b < size ↔ b ≤ a ∧ a < b + size := by
  unfold lbaSub
  omega

theorem Keeps.refl (fs : Fatfs ss D) : Keeps sector count fs fs := ⟨rfl, rfl, rfl, rfl, fun _ _ _ => rfl⟩

theorem Keeps.trans (h : Keeps sector count fs fs') (h' : Keeps sector count fs' fs'') :
    Keeps sector count fs fs'' := by
  refine ⟨h'.volume.trans h.volume, h'.lastClst.trans h.lastClst, h'.freeClst.trans h.freeClst,
    h'.fsiFlag.trans h.fsiFlag, ?_⟩
  intro lba hlba hcopy
  rw [h'.view lba hlba (by rwa [h.volume]), h.view lba hlba hcopy]

/-- The window goes back to a sector outside the first FAT, or there is only one FAT. -/
theorem synced_alone (h : Works io count sector) (hfs : Coherent sector count fs) (hw : fs.wflag = true)
    (hout : fs.nFats = 2 → ¬ fs.InFat fs.winsect) :
    Synced sector count fs
      { fs with wflag := false, disk := (io.diskWrite fs.disk fs.win fs.winsect).2 } := by
  obtain ⟨hlt, hcopy⟩ := hfs.dirty hw
  refine ⟨rfl, rfl, ⟨hfs.fits, hfs.fits_copy, ?_, fun hf => absurd hf Bool.false_ne_true, ?_⟩, ⟨rfl, rfl, rfl, rfl, ?_⟩⟩
  · intro _ _
    change fs.win = sector (io.diskWrite fs.disk fs.win fs.winsect).2 fs.winsect
    rw [h.write _ _ _ _ hlt hlt, if_pos rfl]
  · intro htwo lba hin _
    have hfits := hfs.fits_copy htwo
    have hne : lba ≠ fs.winsect := fun heq => hout htwo (heq ▸ hin)
    have hne' : lba + fs.fsize ≠ fs.winsect := by
      intro heq
      refine hcopy ⟨htwo, ?_, ?_⟩
      · have := hin.1
        change fs.fatbase ≤ lba at this
        omega
      · have := hin.2
        change lba < fs.fatbase + fs.fsize at this
        omega
    have hlast : lba < fs.fatbase + fs.fsize := hin.2
    change sector (io.diskWrite fs.disk fs.win fs.winsect).2 (lba + fs.fsize) =
      sector (io.diskWrite fs.disk fs.win fs.winsect).2 lba
    rw [h.write _ _ _ _ hlt (by omega), h.write _ _ _ _ hlt (by omega), if_neg hne', if_neg hne]
    exact hfs.copy htwo lba hin fun _ => hne
  · intro lba hlba _
    change (if lba = fs.winsect then fs.win else sector (io.diskWrite fs.disk fs.win fs.winsect).2 lba) =
      if lba = fs.winsect then fs.win else sector fs.disk lba
    rw [h.write _ _ _ _ hlt hlba]
    split
    · rfl
    · rfl

/-- The window goes back to a sector of the first FAT and to the second FAT. -/
theorem synced_twice (h : Works io count sector) (hfs : Coherent sector count fs) (hw : fs.wflag = true)
    (htwo : fs.nFats = 2) (hin : fs.InFat fs.winsect) :
    Synced sector count fs { fs with
      wflag := false
      disk := (io.diskWrite (io.diskWrite fs.disk fs.win fs.winsect).2 fs.win (fs.winsect + fs.fsize)).2 } := by
  obtain ⟨hlt, hcopy⟩ := hfs.dirty hw
  have hfits := hfs.fits_copy htwo
  have hlast : fs.winsect < fs.fatbase + fs.fsize := hin.2
  have hbase : fs.fatbase ≤ fs.winsect := hin.1
  have hlt' : fs.winsect + fs.fsize < count := by omega
  have hread : ∀ lba < count, sector (io.diskWrite (io.diskWrite fs.disk fs.win fs.winsect).2 fs.win
      (fs.winsect + fs.fsize)).2 lba = if lba = fs.winsect + fs.fsize then fs.win
        else if lba = fs.winsect then fs.win else sector fs.disk lba := by
    intro lba hlba
    rw [h.write _ _ _ _ hlt' hlba, h.write _ _ _ _ hlt hlba]
  refine ⟨rfl, rfl, ⟨hfs.fits, hfs.fits_copy, ?_, fun hf => absurd hf Bool.false_ne_true, ?_⟩, ⟨rfl, rfl, rfl, rfl, ?_⟩⟩
  · intro _ _
    refine (?_ : fs.win = _)
    rw [hread _ hlt]
    split
    · rfl
    · rw [if_pos rfl]
  · intro _ lba hlba _
    have hend : lba < fs.fatbase + fs.fsize := hlba.2
    have hstart : fs.fatbase ≤ lba := hlba.1
    have hlt₁ : lba + fs.fsize < count := by omega
    have hlt₂ : lba < count := by omega
    refine ((hread _ hlt₁).trans ?_).trans (hread _ hlt₂).symm
    rw [if_neg (by omega : lba ≠ fs.winsect + fs.fsize)]
    by_cases heq : lba = fs.winsect
    · rw [if_pos heq, if_pos (by omega)]
    · rw [if_neg heq, if_neg (by omega), if_neg (by omega)]
      exact hfs.copy htwo lba hlba fun _ => heq
  · intro lba hlba hout
    change (if lba = fs.winsect then fs.win else _) = if lba = fs.winsect then fs.win else sector fs.disk lba
    by_cases heq : lba = fs.winsect
    · rw [if_pos heq, if_pos heq]
    · have hne : lba ≠ fs.winsect + fs.fsize := fun heq' => hout ⟨htwo, by omega, by omega⟩
      rw [if_neg heq, if_neg heq, hread _ hlba, if_neg hne, if_neg heq]

theorem syncWindow_spec (h : Works io count sector) (hfs : Coherent sector count fs) :
    ∃ fs', syncWindow io fs = (.ok, fs') ∧ Synced sector count fs fs' := by
  unfold syncWindow
  cases hw : fs.wflag with
  | false => exact ⟨fs, rfl, hw, rfl, hfs, .refl fs⟩
  | true =>
    have hlt := (hfs.dirty hw).1
    have hcount := h.count_le
    have hfits := hfs.fits
    have hin : lbaSub fs.winsect fs.fatbase < fs.fsize ↔ fs.InFat fs.winsect :=
      lbaSub_lt_iff (by omega) (by omega)
    rw [if_pos rfl]
    dsimp only
    rw [if_pos (h.ok _ _ _ hlt)]
    by_cases hboth : lbaSub fs.winsect fs.fatbase < fs.fsize ∧ fs.nFats = 2
    · rw [if_pos hboth]
      exact ⟨_, rfl, synced_twice h hfs hw hboth.2 (hin.mp hboth.1)⟩
    · rw [if_neg hboth]
      refine ⟨_, rfl, synced_alone h hfs hw ?_⟩
      intro htwo hfat
      exact hboth ⟨hin.mpr hfat, htwo⟩

/-- The state after the window has been put over a sector. -/
theorem moveWindow_spec (h : Works io count sector) (hfs : Coherent sector count fs) (hsect : sect < count) :
    ∃ fs', moveWindow io fs sect = (.ok, fs') ∧ fs'.winsect = sect ∧ Coherent sector count fs' ∧
      Keeps sector count fs fs' := by
  unfold moveWindow
  by_cases heq : sect = fs.winsect
  · rw [if_neg (not_not.mpr heq)]
    exact ⟨fs, rfl, heq.symm, hfs, .refl fs⟩
  · obtain ⟨fs₁, hsync, hs⟩ := syncWindow_spec h hfs
    rw [if_pos heq, hsync]
    dsimp only
    rw [h.read _ _ hsect]
    refine ⟨_, rfl, rfl, ⟨hs.coherent.fits, hs.coherent.fits_copy, fun _ _ => rfl, ?_, ?_⟩, hs.keeps.trans ?_⟩
    · intro hf
      exact absurd (hs.wflag.symm.trans hf) Bool.false_ne_true
    · intro htwo lba hin _
      exact hs.coherent.copy htwo lba hin fun hf => absurd (hs.wflag.symm.trans hf) Bool.false_ne_true
    · refine ⟨rfl, rfl, rfl, rfl, ?_⟩
      intro lba hlba _
      have hdisk : fs₁.view sector lba = sector fs₁.disk lba := by
        unfold Fatfs.view
        split
        · rename_i hwin
          rw [hs.coherent.clean hs.wflag (hwin ▸ hlba), hwin]
        · rfl
      refine Eq.trans ?_ hdisk.symm
      change (if lba = sect then sector fs₁.disk sect else sector fs₁.disk lba) = sector fs₁.disk lba
      split
      · rename_i hwin
        rw [hwin]
      · rfl

theorem setWin_view (fs : Fatfs ss D) (i : Fin ss) (b : UInt8) (lba : Nat) : (fs.setWin i b).view sector lba =
    if lba = fs.winsect then Function.update fs.win i b else fs.view sector lba := by
  change (if lba = fs.winsect then Function.update fs.win i b else sector fs.disk lba) = _
  split
  · rfl
  · rename_i hne
    rw [Fatfs.view, if_neg hne]

theorem Coherent.setWin (hfs : Coherent sector count fs) (hlt : fs.winsect < count) (hout : ¬ fs.InCopy fs.winsect)
    (i : Fin ss) (b : UInt8) : Coherent sector count (fs.setWin i b) := by
  refine ⟨hfs.fits, hfs.fits_copy, fun hf => absurd hf.symm Bool.false_ne_true, fun _ => ⟨hlt, hout⟩, ?_⟩
  intro htwo lba hin hne
  exact hfs.copy htwo lba hin fun _ => hne rfl

end Window

end PicoRuby.Fat
