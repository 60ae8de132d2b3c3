import Mathlib.Data.List.GetD
import PicoRuby.Fat.Window

/-!
# The drives under FatFs

The RAM disk and the disk in the flash ROM behind `disk_read` and `disk_write`, and the callbacks of the USB mass
storage, which get at the same flash disk. Flash bits can only be cleared, and only an erased sector has all bits set.
-/

namespace PicoRuby.Fat

set_option autoImplicit false

/-! ## The code -/

/-- `SECTOR_SIZE` of ram_disk.h. -/
def ramSectorSize : Nat := 512

def flashSectorSize : Nat := 4096

instance : NeZero ramSectorSize := ⟨Nat.succ_ne_zero 511⟩

instance : NeZero flashSectorSize := ⟨Nat.succ_ne_zero 4095⟩

/-- `SECTOR_COUNT` and `FLASH_SECTOR_COUNT`. -/
def sectorCount : Nat := 192

def flashTargetOffset : Nat := 0x140000

/-- The flash ROM with the functions of the SDK. -/
structure FlashRom (M : Type) where
  read : M → Nat → UInt8
  rangeErase : M → Nat → Nat → M
  rangeProgram : M → Nat → (Nat → UInt8) → Nat → M

/-- The memory of the two drives. -/
structure Drives (M : Type) where
  ramDisk : Nat → UInt8
  rom : M

inductive Reply where
  | data (bytes : List UInt8)
  | resOk
  | resParErr
  | length (n : Int)
deriving DecidableEq, Repr

section Code
variable {M : Type} (flash : FlashRom M)

/-- `memcpy` into a buffer of the caller. -/
def copied (f : Nat → UInt8) (n : Nat) : List UInt8 := (List.range n).map f

def ramDiskRead (mem : Nat → UInt8) (sector count : Nat) : List UInt8 :=
  copied (fun i => mem (sector * ramSectorSize + i)) (count * ramSectorSize)

def ramDiskWrite (mem : Nat → UInt8) (buff : Nat → UInt8) (sector count : Nat) : Nat → UInt8 := fun a =>
  if sector * ramSectorSize ≤ a ∧ a < sector * ramSectorSize + count * ramSectorSize then
    buff (a - sector * ramSectorSize)
  else mem a

/-- The offset of a sector, a `uint32_t`. -/
def flashOffset (sector : Nat) : Nat := (flashTargetOffset + sector * flashSectorSize) % 2 ^ 32

def flashDiskRead (rom : M) (sector count : Nat) : List UInt8 :=
  copied (fun i => flash.read rom (flashOffset sector + i)) (count * flashSectorSize)

def flashDiskWrite (rom : M) (buff : Nat → UInt8) (sector count : Nat) : M :=
  let rom := flash.rangeErase rom (flashOffset sector) (flashSectorSize * count)
  flash.rangeProgram rom (flashOffset sector) buff (flashSectorSize * count)

def diskRead (d : Drives M) (pdrv sector count : Nat) : Reply :=
  match pdrv with
  | 0 => .data (ramDiskRead d.ramDisk sector count)
  | 1 => .data (flashDiskRead flash d.rom sector count)
  | _ => .resParErr

def diskWrite (d : Drives M) (pdrv : Nat) (buff : Nat → UInt8) (sector count : Nat) : Reply × Drives M :=
  match pdrv with
  | 0 => (.resOk, { d with ramDisk := ramDiskWrite d.ramDisk buff sector count })
  | 1 => (.resOk, { d with rom := flashDiskWrite flash d.rom buff sector count })
  | _ => (.resParErr, d)

def checkSectorCount (lba : Nat) : Bool := !(lba ≥ sectorCount)

/-- The answer and the buffer; there is none when the callback aborts. -/
def tudMscRead10Cb (d : Drives M) (lba offset bufsize : Nat) : Option (Reply × List UInt8) :=
  if !checkSectorCount lba then some (.length (-1), [])
  else if 0 < offset ∨ bufsize ≠ flashSectorSize then none
  else some (.length flashSectorSize, flashDiskRead flash d.rom lba 1)

def tudMscWrite10Cb (d : Drives M) (lba offset : Nat) (buffer : Nat → UInt8) (bufsize : Nat) :
    Option (Reply × Drives M) :=
  if !checkSectorCount lba then some (.length (-1), d)
  else if 0 < offset ∨ bufsize ≠ flashSectorSize then none
  else some (.length flashSectorSize, { d with rom := flashDiskWrite flash d.rom buffer lba 1 })

end Code

/-! ## Runs of both sides -/

/-- What FatFs and the USB host ask for. -/
inductive Access where
  | read (pdrv sector count : Nat)
  | write (pdrv : Nat) (buff : Nat → UInt8) (sector count : Nat)
  | hostRead (lba offset bufsize : Nat)
  | hostWrite (lba offset : Nat) (buffer : Nat → UInt8) (bufsize : Nat)

section Runs
variable {M : Type} (flash : FlashRom M)

def Drives.access (d : Drives M) : Access → Option ((Reply × List UInt8) × Drives M)
  | .read pdrv sector count => some ((diskRead flash d pdrv sector count, []), d)
  | .write pdrv buff sector count =>
    some (((diskWrite flash d pdrv buff sector count).1, []), (diskWrite flash d pdrv buff sector count).2)
  | .hostRead lba offset bufsize => (tudMscRead10Cb flash d lba offset bufsize).map fun r => (r, d)
  | .hostWrite lba offset buffer bufsize =>
    (tudMscWrite10Cb flash d lba offset buffer bufsize).map fun r => ((r.1, []), r.2)

def Drives.run (d : Drives M) : List Access → Option (List (Reply × List UInt8) × Drives M)
  | [] => some ([], d)
  | a :: as => do
    let (reply, d) ← d.access flash a
    let (replies, d) ← d.run as
    return (reply :: replies, d)

end Runs

/-! ## Arrays of sectors -/

/-- What a disk is for: its sectors, by drive and number. -/
abbrev Disks := Nat → Nat → Nat → UInt8

def sectorSize (pdrv : Nat) : Nat := if pdrv = 0 then ramSectorSize else flashSectorSize

namespace Disks
variable (d : Disks)

def get (pdrv sector count : Nat) : List UInt8 :=
  copied (fun i => d pdrv (sector + i / sectorSize pdrv) (i % sectorSize pdrv)) (count * sectorSize pdrv)

def put (pdrv : Nat) (buff : Nat → UInt8) (sector count : Nat) : Disks := fun p k i =>
  if p = pdrv ∧ sector ≤ k ∧ k < sector + count then buff ((k - sector) * sectorSize pdrv + i) else d p k i

def access : Access → (Reply × List UInt8) × Disks
  | .read pdrv sector count => ((if pdrv < 2 then .data (d.get pdrv sector count) else .resParErr, []), d)
  | .write pdrv buff sector count =>
    if pdrv < 2 then ((.resOk, []), d.put pdrv buff sector count) else ((.resParErr, []), d)
  | .hostRead lba _ _ =>
    if lba < sectorCount then ((.length flashSectorSize, d.get 1 lba 1), d) else ((.length (-1), []), d)
  | .hostWrite lba _ buffer _ =>
    if lba < sectorCount then ((.length flashSectorSize, []), d.put 1 buffer lba 1) else ((.length (-1), []), d)

def run (d : Disks) : List Access → List (Reply × List UInt8) × Disks
  | [] => ([], d)
  | a :: as => ((d.access a).1 :: (run (d.access a).2 as).1, (run (d.access a).2 as).2)

end Disks

/-- On the disk, and for the host whole sectors, which is what its buffer is for. -/
def Access.InBounds : Access → Prop
  | .read pdrv sector count => pdrv < 2 → sector + count ≤ sectorCount
  | .write pdrv _ sector count => pdrv < 2 → sector + count ≤ sectorCount
  | .hostRead lba offset bufsize => lba < sectorCount → offset = 0 ∧ bufsize = flashSectorSize
  | .hostWrite lba offset _ bufsize => lba < sectorCount → offset = 0 ∧ bufsize = flashSectorSize

/-! ## Flash -/

variable {M : Type} {flash : FlashRom M}

/-- What the flash does: erasing sets the bits of whole sectors, programming clears bits of whole pages. -/
structure Nor (flash : FlashRom M) : Prop where
  erase : ∀ rom offs count a, 4096 ∣ offs → 4096 ∣ count → flash.read (flash.rangeErase rom offs count) a =
    if offs ≤ a ∧ a < offs + count then 0xFF else flash.read rom a
  program : ∀ rom offs data count a, 256 ∣ offs → 256 ∣ count →
    flash.read (flash.rangeProgram rom offs data count) a =
      if offs ≤ a ∧ a < offs + count then flash.read rom a &&& data (a - offs) else flash.read rom a

/-- The disk in the memory of its drive. -/
structure Same (flash : FlashRom M) (d : Drives M) (disks : Disks) : Prop where
  ram : ∀ k < sectorCount, ∀ i < ramSectorSize, d.ramDisk (k * ramSectorSize + i) = disks 0 k i
  rom : ∀ k < sectorCount, ∀ i < flashSectorSize,
    flash.read d.rom (flashTargetOffset + k * flashSectorSize + i) = disks 1 k i

/-- A place in the flash that is not of the disk. -/
def Elsewhere (a : Nat) : Prop :=
  ¬ (flashTargetOffset ≤ a ∧ a < flashTargetOffset + sectorCount * flashSectorSize)

section Sectors
variable {d d' : Drives M} {disks : Disks} {sector count k i size : Nat} {buff : Nat → UInt8}

theorem copied_congr {f g : Nat → UInt8} {n : Nat} (h : ∀ i < n, f i = g i) : copied f n = copied g n := by
  apply List.map_congr_left
  intro i hi
  exact h i (List.mem_range.mp hi)

/-- The bytes of some sectors in a row. -/
theorem in_sectors_iff (sector count k : Nat) (hi : i < size) : sector * size ≤ k * size + i ∧
    k * size + i < sector * size + count * size ↔ sector ≤ k ∧ k < sector + count := by
  have hpos : 0 < size := Nat.lt_of_le_of_lt (Nat.zero_le i) hi
  have hdiv : (k * size + i) / size = k := by
    rw [Nat.mul_comm, Nat.mul_add_div hpos, Nat.div_eq_of_lt hi, Nat.add_zero]
  rw [← Nat.add_mul, ← Nat.le_div_iff_mul_le hpos, ← Nat.div_lt_iff_lt_mul hpos, hdiv]

theorem sub_sector (size i : Nat) (h : sector ≤ k) : k * size + i - sector * size = (k - sector) * size + i := by
  have hle := Nat.mul_le_mul_right size h
  rw [Nat.sub_mul]
  omega

theorem flashOffset_eq (h : sector ≤ sectorCount) : flashOffset sector = flashTargetOffset + sector * flashSectorSize := by
  apply Nat.mod_eq_of_lt
  unfold sectorCount at h
  unfold flashTargetOffset flashSectorSize
  omega

theorem all_ones_and (b : UInt8) : 0xFF &&& b = b := by
  apply UInt8.toNat.inj
  rw [UInt8.toNat_and]
  exact (Nat.and_comm _ _).trans ((Nat.and_two_pow_sub_one_eq_mod b.toNat 8).trans (Nat.mod_eq_of_lt b.toNat_lt))

/-- A write puts the data in the flash whatever was there, and changes nothing else. -/
theorem flashDiskWrite_read (h : Nor flash) (rom : M) (hend : sector + count ≤ sectorCount) (a : Nat) :
    flash.read (flashDiskWrite flash rom buff sector count) a =
      if flashTargetOffset + sector * flashSectorSize ≤ a ∧
          a < flashTargetOffset + sector * flashSectorSize + count * flashSectorSize then
        buff (a - (flashTargetOffset + sector * flashSectorSize)) else flash.read rom a := by
  have hoffs := flashOffset_eq (Nat.le_of_add_right_le hend)
  have hsector : 4096 ∣ flashTargetOffset + sector * flashSectorSize :=
    Nat.dvd_add (by decide) (Nat.dvd_mul_left 4096 sector)
  have hlength : 4096 ∣ count * flashSectorSize := Nat.dvd_mul_left 4096 count
  have hpage : 256 ∣ flashTargetOffset + sector * flashSectorSize := Nat.dvd_trans (by decide) hsector
  have hpages : 256 ∣ count * flashSectorSize := Nat.dvd_trans (by decide) hlength
  unfold flashDiskWrite
  rw [hoffs, Nat.mul_comm flashSectorSize count, h.program _ _ _ _ _ hpage hpages, h.erase _ _ _ _ hsector hlength]
  split
  · exact all_ones_and _
  · rfl

theorem Same.diskRead_ram (h : Same flash d disks) (hend : sector + count ≤ sectorCount) :
    diskRead flash d 0 sector count = .data (disks.get 0 sector count) := by
  refine congrArg Reply.data (copied_congr ?_)
  intro i hi
  have hpos : 0 < ramSectorSize := by decide
  have hk : i / ramSectorSize < count := (Nat.div_lt_iff_lt_mul hpos).mpr hi
  have hplace : sector * ramSectorSize + i = (sector + i / ramSectorSize) * ramSectorSize + i % ramSectorSize := by
    rw [Nat.add_mul, Nat.add_assoc, Nat.mul_comm (i / ramSectorSize), Nat.div_add_mod]
  rw [hplace]
  exact h.ram _ (by omega) _ (Nat.mod_lt _ hpos)

theorem Same.flashDiskRead (h : Same flash d disks) (hend : sector + count ≤ sectorCount) :
    flashDiskRead flash d.rom sector count = disks.get 1 sector count := by
  have hoffs := flashOffset_eq (Nat.le_of_add_right_le hend)
  refine copied_congr ?_
  intro i hi
  have hpos : 0 < flashSectorSize := by decide
  have hk : i / flashSectorSize < count := (Nat.div_lt_iff_lt_mul hpos).mpr hi
  have hplace : sector * flashSectorSize + i =
      (sector + i / flashSectorSize) * flashSectorSize + i % flashSectorSize := by
    rw [Nat.add_mul, Nat.add_assoc, Nat.mul_comm (i / flashSectorSize), Nat.div_add_mod]
  rw [hoffs, Nat.add_assoc, hplace, ← Nat.add_assoc]
  exact h.rom _ (by omega) _ (Nat.mod_lt _ hpos)

theorem Same.write_ram (h : Same flash d disks) : Same flash { d with ramDisk := ramDiskWrite d.ramDisk buff sector count }
    (disks.put 0 buff sector count) := by
  refine ⟨?_, ?_⟩
  · intro k hk i hi
    have hin := in_sectors_iff sector count k hi
    change (if _ then buff (k * ramSectorSize + i - sector * ramSectorSize) else d.ramDisk (k * ramSectorSize + i)) =
      if 0 = 0 ∧ _ then buff ((k - sector) * ramSectorSize + i) else disks 0 k i
    by_cases hrange : sector ≤ k ∧ k < sector + count
    · rw [if_pos (hin.mpr hrange), if_pos ⟨rfl, hrange⟩, sub_sector _ _ hrange.1]
    · rw [if_neg (fun hlt => hrange (hin.mp hlt)), if_neg (fun hboth => hrange hboth.2)]
      exact h.ram k hk i hi
  · intro k hk i hi
    rw [Disks.put, if_neg (fun hboth => Nat.one_ne_zero hboth.1)]
    exact h.rom k hk i hi

theorem Same.write_flash (hnor : Nor flash) (h : Same flash d disks) (hend : sector + count ≤ sectorCount) :
    Same flash { d with rom := flashDiskWrite flash d.rom buff sector count } (disks.put 1 buff sector count) := by
  refine ⟨?_, ?_⟩
  · intro k hk i hi
    rw [Disks.put, if_neg (fun hboth => Nat.zero_ne_one hboth.1)]
    exact h.ram k hk i hi
  · intro k hk i hi
    have hin := in_sectors_iff sector count k hi
    rw [flashDiskWrite_read hnor d.rom hend]
    change _ = if 1 = 1 ∧ _ then buff ((k - sector) * flashSectorSize + i) else disks 1 k i
    by_cases hrange : sector ≤ k ∧ k < sector + count
    · have hplace := hin.mpr hrange
      have hsub := sub_sector flashSectorSize i hrange.1
      have hback : flashTargetOffset + k * flashSectorSize + i - (flashTargetOffset + sector * flashSectorSize) =
          (k - sector) * flashSectorSize + i := by omega
      rw [if_pos (by omega), if_pos ⟨rfl, hrange⟩, hback]
    · have hplace : ¬ _ := fun hlt => hrange (hin.mp hlt)
      rw [if_neg (by omega), if_neg (fun hboth => hrange hboth.2)]
      exact h.rom k hk i hi

theorem flashDiskWrite_elsewhere (hnor : Nor flash) (rom : M) (hend : sector + count ≤ sectorCount) {a : Nat}
    (ha : Elsewhere a) : flash.read (flashDiskWrite flash rom buff sector count) a = flash.read rom a := by
  have hle := Nat.mul_le_mul_right flashSectorSize hend
  rw [Nat.add_mul] at hle
  rw [flashDiskWrite_read hnor rom hend, if_neg]
  intro hin
  exact ha (by omega)

end Sectors

/-! ## The disks are arrays of sectors -/

section Arrays
variable {d : Drives M} {disks : Disks}

theorem diskRead_none {pdrv : Nat} (h : ¬ pdrv < 2) (sector count : Nat) :
    diskRead flash d pdrv sector count = .resParErr := by
  obtain ⟨n, rfl⟩ := Nat.exists_eq_add_of_le (Nat.le_of_not_lt h)
  rw [Nat.add_comm]
  rfl

theorem diskWrite_none {pdrv : Nat} (h : ¬ pdrv < 2) (buff : Nat → UInt8) (sector count : Nat) :
    diskWrite flash d pdrv buff sector count = (.resParErr, d) := by
  obtain ⟨n, rfl⟩ := Nat.exists_eq_add_of_le (Nat.le_of_not_lt h)
  rw [Nat.add_comm]
  rfl

theorem lt_two_cases {pdrv : Nat} (h : pdrv < 2) : pdrv = 0 ∨ pdrv = 1 := by omega

theorem access_same (hnor : Nor flash) (h : Same flash d disks) {a : Access} (ha : a.InBounds) :
    ∃ d', d.access flash a = some ((disks.access a).1, d') ∧ Same flash d' (disks.access a).2 ∧
      ∀ x, Elsewhere x → flash.read d'.rom x = flash.read d.rom x := by
  cases a with
  | read pdrv sector count =>
    refine ⟨d, ?_, h, fun _ _ => rfl⟩
    change some ((diskRead flash d pdrv sector count, []), d) = some ((if pdrv < 2 then _ else _, []), d)
    by_cases hp : pdrv < 2
    · rw [if_pos hp]
      obtain rfl | rfl := lt_two_cases hp
      · rw [h.diskRead_ram (ha hp)]
      · rw [diskRead, h.flashDiskRead (ha hp)]
    · rw [if_neg hp, diskRead_none hp]
  | write pdrv buff sector count =>
    rw [Drives.access, Disks.access]
    by_cases hp : pdrv < 2
    · rw [if_pos hp]
      obtain rfl | rfl := lt_two_cases hp
      · exact ⟨_, rfl, h.write_ram, fun _ _ => rfl⟩
      · exact ⟨_, rfl, h.write_flash hnor (ha hp), fun x hx => flashDiskWrite_elsewhere hnor d.rom (ha hp) hx⟩
    · rw [if_neg hp, diskWrite_none hp]
      exact ⟨d, rfl, h, fun _ _ => rfl⟩
  | hostRead lba offset bufsize =>
    rw [Drives.access, Disks.access, tudMscRead10Cb, checkSectorCount]
    by_cases hlba : lba < sectorCount
    · obtain ⟨rfl, rfl⟩ := ha hlba
      rw [if_pos hlba, if_neg (by simpa using hlba), if_neg (by simp), h.flashDiskRead (Nat.succ_le_of_lt hlba)]
      exact ⟨d, rfl, h, fun _ _ => rfl⟩
    · rw [if_neg hlba, if_pos (by simpa using hlba)]
      exact ⟨d, rfl, h, fun _ _ => rfl⟩
  | hostWrite lba offset buffer bufsize =>
    rw [Drives.access, Disks.access, tudMscWrite10Cb, checkSectorCount]
    by_cases hlba : lba < sectorCount
    · obtain ⟨rfl, rfl⟩ := ha hlba
      have hend : lba + 1 ≤ sectorCount := Nat.succ_le_of_lt hlba
      rw [if_pos hlba, if_neg (by simpa using hlba), if_neg (by simp)]
      exact ⟨_, rfl, h.write_flash hnor hend, fun x hx => flashDiskWrite_elsewhere hnor d.rom hend hx⟩
    · rw [if_neg hlba, if_pos (by simpa using hlba)]
      exact ⟨d, rfl, h, fun _ _ => rfl⟩

/-- Whatever FatFs and the host ask for, in whatever order: the drives answer as arrays of sectors do, and the flash
outside the disk, where the program is, stays as it is. -/
theorem drives_run_eq (hnor : Nor flash) {accesses : List Access} : ∀ {d : Drives M} {disks : Disks},
    Same flash d disks → (∀ a ∈ accesses, a.InBounds) →
    ∃ d', d.run flash accesses = some ((disks.run accesses).1, d') ∧ Same flash d' (disks.run accesses).2 ∧
      ∀ x, Elsewhere x → flash.read d'.rom x = flash.read d.rom x := by
  induction accesses with
  | nil =>
    intro d disks h _
    exact ⟨d, rfl, h, fun _ _ => rfl⟩
  | cons a as ih =>
    intro d disks h ha
    obtain ⟨d₁, haccess, h₁, helse₁⟩ := access_same hnor h (ha a List.mem_cons_self)
    obtain ⟨d', hrun, h', helse⟩ := ih h₁ fun b hb => ha b (List.mem_cons_of_mem a hb)
    refine ⟨d', ?_, h', fun x hx => (helse x hx).trans (helse₁ x hx)⟩
    rw [Drives.run, haccess]
    change (do
      let (replies, d) ← d₁.run flash as
      return ((disks.access a).1 :: replies, d)) = _
    rw [hrun]
    rfl

/-- A flash of bytes. -/
def bytesFlash : FlashRom (Nat → UInt8) where
  read rom := rom
  rangeErase rom offs count a := if offs ≤ a ∧ a < offs + count then 0xFF else rom a
  rangeProgram rom offs data count a := if offs ≤ a ∧ a < offs + count then rom a &&& data (a - offs) else rom a

theorem bytesFlash_nor : Nor bytesFlash := ⟨fun _ _ _ _ _ _ => rfl, fun _ _ _ _ _ _ _ => rfl⟩

theorem drives_run_eq_small : ∃ d', Drives.run bytesFlash ⟨fun _ => 0, fun _ => 0⟩
    [.write 1 (fun _ => 7) 3 1, .hostWrite 4 0 (fun _ => 8) 4096, .read 1 3 2, .hostRead 192 0 512] =
      some ((Disks.run (fun _ _ _ => 0)
        [.write 1 (fun _ => 7) 3 1, .hostWrite 4 0 (fun _ => 8) 4096, .read 1 3 2, .hostRead 192 0 512]).1, d') ∧
    Same bytesFlash d' (Disks.run (fun _ _ _ => 0)
      [.write 1 (fun _ => 7) 3 1, .hostWrite 4 0 (fun _ => 8) 4096, .read 1 3 2, .hostRead 192 0 512]).2 ∧
    ∀ x, Elsewhere x → bytesFlash.read d'.rom x = 0 := by
  refine drives_run_eq bytesFlash_nor ⟨fun _ _ _ _ => rfl, fun _ _ _ _ => rfl⟩ ?_
  intro a ha
  simp only [List.mem_cons, List.not_mem_nil, or_false] at ha
  obtain rfl | rfl | rfl | rfl := ha
  · exact fun _ => by decide
  · exact fun _ => ⟨rfl, rfl⟩
  · exact fun _ => by decide
  · exact fun hlt => absurd hlt (by decide)

end Arrays

/-! ## FatFs on a drive -/

/-- The functions of diskio.c on a drive, one sector at a time. `disk_ioctl` has nothing to do for `CTRL_SYNC`. -/
def driveIo (flash : FlashRom M) (ss pdrv : Nat) : DiskIo ss (Drives M) where
  diskRead d lba := match diskRead flash d pdrv lba 1 with
    | .data bytes => some fun i => bytes.getD i 0
    | _ => none
  diskWrite d buff lba :=
    let r := diskWrite flash d pdrv (fun i => if h : i < ss then buff ⟨i, h⟩ else 0) lba 1
    (r.1 == .resOk, r.2)
  ctrlSync _ := true

section Works

theorem getD_copied {f : Nat → UInt8} {n i : Nat} (hi : i < n) : (copied f n).getD i 0 = f i := by
  unfold copied
  rw [List.getD_eq_getElem _ _ (by simpa using hi), List.getElem_map, List.getElem_range]

/-- The RAM disk never fails. -/
theorem works_ram (flash : FlashRom M) : Works (driveIo flash ramSectorSize 0) sectorCount
    (fun d lba i => d.ramDisk (lba * ramSectorSize + i)) := by
  refine ⟨by decide, ?_, fun _ _ _ _ => rfl, ?_, fun _ => rfl⟩
  · intro d lba _
    refine congrArg some (funext fun i => ?_)
    exact getD_copied ((Nat.one_mul ramSectorSize).symm ▸ i.isLt)
  · intro d buff lba other _ _
    funext i
    have hin := in_sectors_iff lba 1 other i.isLt
    change (if _ then (if h : other * ramSectorSize + i - lba * ramSectorSize < ramSectorSize then buff ⟨_, h⟩ else 0)
      else d.ramDisk (other * ramSectorSize + i)) = _
    by_cases heq : other = lba
    · subst heq
      have hsub : other * ramSectorSize + i - other * ramSectorSize = i := Nat.add_sub_cancel_left ..
      have hlt : other * ramSectorSize + i - other * ramSectorSize < ramSectorSize := by
        rw [hsub]
        exact i.isLt
      rw [if_pos (hin.mpr ⟨Nat.le_refl _, Nat.lt_succ_self _⟩), if_pos rfl, dif_pos hlt]
      exact congrArg buff (Fin.ext hsub)
    · rw [if_neg (fun hlt => heq (by have := hin.mp hlt; omega)), if_neg heq]

/-- The disk in the flash never fails. -/
theorem works_flash (hnor : Nor flash) : Works (driveIo flash flashSectorSize 1) sectorCount
    (fun d lba i => flash.read d.rom (flashTargetOffset + lba * flashSectorSize + i)) := by
  refine ⟨by decide, ?_, fun _ _ _ _ => rfl, ?_, fun _ => rfl⟩
  · intro d lba hlba
    refine congrArg some (funext fun i => ?_)
    rw [← flashOffset_eq (Nat.le_of_lt hlba)]
    exact getD_copied ((Nat.one_mul flashSectorSize).symm ▸ i.isLt)
  · intro d buff lba other hlba _
    funext i
    have hin := in_sectors_iff lba 1 other i.isLt
    refine (flashDiskWrite_read hnor d.rom (Nat.succ_le_of_lt hlba) _).trans ?_
    by_cases heq : other = lba
    · subst heq
      have hsub : flashTargetOffset + other * flashSectorSize + i - (flashTargetOffset + other * flashSectorSize) = i :=
        Nat.add_sub_cancel_left ..
      have hlt : flashTargetOffset + other * flashSectorSize + i - (flashTargetOffset + other * flashSectorSize) <
          flashSectorSize := by
        rw [hsub]
        exact i.isLt
      rw [if_pos (by omega), if_pos rfl, dif_pos hlt]
      exact congrArg buff (Fin.ext hsub)
    · have hout : ¬ _ := fun hlt => heq (by have := hin.mp hlt; omega)
      rw [if_neg (by omega), if_neg heq]

end Works

end PicoRuby.Fat
