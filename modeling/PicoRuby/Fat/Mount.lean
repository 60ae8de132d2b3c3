import PicoRuby.Fat.Entry

/-!
# Mounting

`mount_volume` reads where the FATs, the root directory and the clusters are from the boot sector. After a sync the disk
has all that a mount needs: the same files, the same directories, two equal FATs and the count of free clusters.
-/

namespace PicoRuby.Fat

set_option autoImplicit false

open Vfs (FResult)

universe u

/-! ## The boot sector -/

section Bpb
variable {ss : Nat} [NeZero ss]

/-- The numbers of the BPB; `fasize` is the size of one FAT. -/
structure Bpb where
  fasize : Nat
  nFats : Nat
  csize : Nat
  nRootdir : Nat
  tsect : Nat
  nrsv : Nat
deriving DecidableEq, Repr

def readBpb (win : Sector ss) : Bpb where
  fasize := if ldWord win 22 = 0 then ldDword win 36 else ldWord win 22
  nFats := (win (idx ss 16)).toNat
  csize := (win (idx ss 13)).toNat
  nRootdir := ldWord win 17
  tsect := if ldWord win 19 = 0 then ldDword win 32 else ldWord win 19
  nrsv := ldWord win 14

/-- Sectors of both FATs. -/
def Bpb.fatSectors (b : Bpb) : Nat := b.fasize * b.nFats % 2 ^ 32

/-- Sectors of the root directory. -/
def Bpb.dirSectors (ss : Nat) (b : Bpb) : Nat := b.nRootdir / (ss / 32)

def Bpb.sysect (ss : Nat) (b : Bpb) : Nat := (b.nrsv + b.fatSectors + b.dirSectors ss) % 2 ^ 32

def Bpb.nclst (ss : Nat) (b : Bpb) : Nat := (b.tsect - b.sysect ss) / b.csize

/-- The sub type, by the number of clusters. -/
def subType (nclst : Nat) : Option FsType :=
  if nclst ≤ 0xFF5 then some .fat12
  else if nclst ≤ 0xFFF5 then some .fat16
  else if nclst ≤ 0x0FFFFFF5 then some .fat32
  else none

/-- What `mount_volume` fills in. `dirbase` is a sector for FAT12 and FAT16 and a cluster for FAT32. -/
structure Mounting extends Volume where
  nRootdir : Nat
  dirbase : Nat
deriving DecidableEq, Repr

/-- The FAT volume at a sector, where `mount_volume` does not refuse it. -/
def mountVolume (win : Sector ss) (bsect : Nat) : Except FResult Mounting :=
  let b := readBpb win
  if ldWord win 11 ≠ ss then .error .noFilesystem
  else if b.nFats ≠ 1 ∧ b.nFats ≠ 2 then .error .noFilesystem
  else if b.csize = 0 ∨ b.csize &&& (b.csize - 1) ≠ 0 then .error .noFilesystem
  else if b.nRootdir % (ss / 32) ≠ 0 then .error .noFilesystem
  else if b.nrsv = 0 then .error .noFilesystem
  else if b.tsect < b.sysect ss then .error .noFilesystem
  else if b.nclst ss = 0 then .error .noFilesystem
  else match subType (b.nclst ss) with
    | none => .error .noFilesystem
    | some fmt =>
      let fatbase := (bsect + b.nrsv) % 2 ^ 32
      if fmt = .fat32 ∧ (ldWord win 42 ≠ 0 ∨ b.nRootdir ≠ 0) then .error .noFilesystem
      else if fmt ≠ .fat32 ∧ b.nRootdir = 0 then .error .noFilesystem
      else if b.fasize < (fmt.bytes (b.nclst ss + 2) + (ss - 1)) / ss then .error .noFilesystem
      else .ok {
        fsType := fmt
        nFats := b.nFats
        csize := b.csize
        nFatent := b.nclst ss + 2
        fsize := b.fasize
        volbase := bsect
        fatbase := fatbase
        database := (bsect + b.sysect ss) % 2 ^ 32
        nRootdir := b.nRootdir
        dirbase := if fmt = .fat32 then ldDword win 44 else (fatbase + b.fatSectors) % 2 ^ 32 }

/-! ## Finding a volume -/

/-- What a sector is: 0 for the boot sector of a FAT volume, 2 for another boot sector, 3 for anything else. -/
def checkSector (win : Sector ss) : Nat :=
  let sign := ldWord win 510
  let jump := win (idx ss 0)
  let name := (List.range 8).map fun i => win (idx ss (82 + i))
  let size := ldWord win 11
  let clust := (win (idx ss 13)).toNat
  if (jump = 0xEB ∨ jump = 0xE9 ∨ jump = 0xE8) ∧
      (sign = 0xAA55 ∧ name = [0x46, 0x41, 0x54, 0x33, 0x32, 0x20, 0x20, 0x20] ∨
        size &&& (size - 1) = 0 ∧ 512 ≤ size ∧ size ≤ 4096 ∧ clust ≠ 0 ∧ clust &&& (clust - 1) = 0 ∧
        ldWord win 14 ≠ 0 ∧ (win (idx ss 16) = 1 ∨ win (idx ss 16) = 2) ∧ ldWord win 17 ≠ 0 ∧
        (128 ≤ ldWord win 19 ∨ 0x10000 ≤ ldDword win 32) ∧ ldWord win 22 ≠ 0) then 0
  else if sign = 0xAA55 then 2 else 3

/-- The first sectors of the partitions. -/
def partitions (win : Sector ss) : List Nat := (List.range 4).map fun i => ldDword win (446 + i * 16 + 8)

variable {D : Type} (io : DiskIo ss D)

/-- 4 is for an error of the disk. -/
def checkFs (fs : Fatfs ss D) (sect : Nat) : Nat × Fatfs ss D :=
  match moveWindow io { fs with wflag := false, winsect := lbaSub 0 1 } sect with
  | (.ok, fs) => (checkSector fs.win, fs)
  | (_, fs) => (4, fs)

/-- The loop over the partitions. -/
def findPartition : List Nat → Nat → Fatfs ss D → Nat × Fatfs ss D
  | [], fmt, fs => (fmt, fs)
  | sect :: sects, _, fs =>
    let (fmt, fs) := if sect ≠ 0 then checkFs io fs sect else (3, fs)
    if fmt ≥ 2 then findPartition sects fmt fs else (fmt, fs)

def findVolume (fs : Fatfs ss D) : Nat × Fatfs ss D :=
  let (fmt, fs) := checkFs io fs 0
  if fmt ≠ 2 then (fmt, fs) else findPartition io (partitions fs.win) 3 fs

/-! ## FSInfo -/

/-- The FSInfo sector. -/
def fsInfo (free last : Nat) : Nat → UInt8 :=
  storeDword (storeDword (storeDword (storeDword (storeWord (fun _ => 0) 510 0xAA55) 0 0x41615252) 484 0x61417272)
    488 free) 492 last

def syncFs (fs : Fatfs ss D) : FResult × Fatfs ss D :=
  match syncWindow io fs with
  | (.ok, fs) =>
    let fs := if fs.fsType = .fat32 ∧ fs.fsiFlag = 1 then
        let fs := { fs with win := fun i => fsInfo fs.freeClst fs.lastClst i.val, winsect := fs.volbase + 1 }
        -- what the write comes to is not looked at
        { fs with disk := (io.diskWrite fs.disk fs.win fs.winsect).2, fsiFlag := 0 }
      else fs
    if io.ctrlSync fs.disk then (.ok, fs) else (.diskErr, fs)
  | (res, fs) => (res, fs)

/-- The count of free clusters and the suggested cluster of an FSInfo sector. -/
def loadInfo (win : Sector ss) : Nat × Nat :=
  if ldWord win 510 = 0xAA55 ∧ ldDword win 0 = 0x41615252 ∧ ldDword win 484 = 0x61417272 then
    (ldDword win 488, ldDword win 492)
  else (0xFFFFFFFF, 0xFFFFFFFF)

/-- The end of `mount_volume`; `info` is whether the BPB has an FSInfo sector next to it. -/
def mountInfo (fs : Fatfs ss D) (info : Bool) : Fatfs ss D :=
  let fs := { fs with lastClst := 0xFFFFFFFF, freeClst := 0xFFFFFFFF, fsiFlag := 0x80 }
  if fs.fsType = .fat32 ∧ info then
    match moveWindow io fs (fs.volbase + 1) with
    | (.ok, fs) =>
      let fs := { fs with fsiFlag := 0 }
      if ldWord fs.win 510 = 0xAA55 ∧ ldDword fs.win 0 = 0x41615252 ∧ ldDword fs.win 484 = 0x61417272 then
        { fs with freeClst := ldDword fs.win 488, lastClst := ldDword fs.win 492 }
      else fs
    | (_, fs) => fs
  else fs

/-- The file system of a disk, where there is one. -/
def mount (fs : Fatfs ss D) : Except FResult (Mounting × Fatfs ss D) :=
  let (fmt, fs) := findVolume io fs
  if fmt = 4 then .error .diskErr
  else if fmt ≥ 2 then .error .noFilesystem
  else match mountVolume fs.win fs.winsect with
    | .error res => .error res
    | .ok m => .ok (m, mountInfo io { fs with toVolume := m.toVolume } (ldWord fs.win 48 = 1))

end Bpb

/-- 0 for a cluster that is not there. -/
def clst2sect (v : Volume) (clst : Nat) : Nat :=
  if lbaSub clst 2 ≥ v.nFatent - 2 then 0 else (v.database + v.csize * lbaSub clst 2) % 2 ^ 32

/-- Outside the FATs, and not the sector of FSInfo. -/
def Volume.Outside (v : Volume) (lba : Nat) : Prop :=
  ¬ v.InFat lba ∧ ¬ v.InCopy lba ∧ (v.fsType = .fat32 → lba ≠ v.volbase + 1)

/-! ## The layout -/

section Layout
variable {ss : Nat} [NeZero ss] {win : Sector ss} {bsect : Nat} {m : Mounting}

/-- The sizes of the BPB add up below 2^32, and FAT32 has a sector for FSInfo in front of the FAT. -/
structure Bpb.Fits (ss : Nat) (b : Bpb) (bsect : Nat) : Prop where
  system : b.nrsv + b.fasize * b.nFats + b.dirSectors ss < 2 ^ 32
  volume : bsect + b.tsect < 2 ^ 32
  reserved : subType (b.nclst ss) = some .fat32 → 2 ≤ b.nrsv

omit [NeZero ss] in
theorem nFatent_le {vol : Volume} (hv : vol.Wf ss) : vol.nFatent ≤ 2 ^ 28 := by
  refine Nat.le_trans hv.limit ?_
  cases vol.fsType with
  | fat12 => decide
  | fat16 => decide
  | fat32 => decide

/-- What `mount_volume` has found out when it takes the volume. -/
structure Accepted (win : Sector ss) (bsect : Nat) (m : Mounting) : Prop where
  fats : (readBpb win).nFats = 1 ∨ (readBpb win).nFats = 2
  csize : (readBpb win).csize ≠ 0
  nrsv : (readBpb win).nrsv ≠ 0
  enough : (readBpb win).sysect ss ≤ (readBpb win).tsect
  clusters : (readBpb win).nclst ss ≠ 0
  type : subType ((readBpb win).nclst ss) = some m.fsType
  fat : (m.fsType.bytes ((readBpb win).nclst ss + 2) + (ss - 1)) / ss ≤ (readBpb win).fasize
  volume : m.toVolume = ⟨m.fsType, (readBpb win).nFats, (readBpb win).csize, (readBpb win).nclst ss + 2,
    (readBpb win).fasize, bsect, (bsect + (readBpb win).nrsv) % 2 ^ 32, (bsect + (readBpb win).sysect ss) % 2 ^ 32⟩
  nRootdir : m.nRootdir = (readBpb win).nRootdir
  dirbase : m.fsType ≠ .fat32 → m.dirbase = (m.fatbase + (readBpb win).fatSectors) % 2 ^ 32
  fat32_dir : m.fsType = .fat32 → (readBpb win).nRootdir = 0

/-- The parts of a volume, one behind the other: the boot sector, the FATs, the root directory of FAT12 and FAT16, the
clusters. -/
structure LaidOut (ss bsect tsect : Nat) (m : Mounting) : Prop where
  wf : m.toVolume.Wf ss
  volbase : m.volbase = bsect
  database : m.database = m.fatbase + m.fsize * m.nFats + m.nRootdir / (ss / 32)
  root : m.fsType ≠ .fat32 → m.dirbase = m.fatbase + m.fsize * m.nFats
  last : m.database + m.csize * (m.nFatent - 2) ≤ bsect + tsect
  fits : bsect + tsect < 2 ^ 32

/-- What is in a volume is in one place: no sector of a cluster is in the FATs, in the root directory, in front of them
or behind the volume, and no sector is in two clusters. -/
structure Apart (ss bsect tsect : Nat) (m : Mounting) : Prop where
  wf : m.toVolume.Wf ss
  outside : ∀ c, 2 ≤ c → c < m.nFatent → ∀ k < m.csize, m.Outside (clst2sect m.toVolume c + k)
  inside : ∀ c, 2 ≤ c → c < m.nFatent → ∀ k < m.csize, clst2sect m.toVolume c + k < bsect + tsect
  root : m.fsType ≠ .fat32 → ∀ lba, m.dirbase ≤ lba → lba < m.dirbase + m.nRootdir / (ss / 32) →
    m.Outside lba ∧ ∀ c, 2 ≤ c → c < m.nFatent → lba < clst2sect m.toVolume c
  injective : ∀ c c', 2 ≤ c → c < m.nFatent → 2 ≤ c' → c' < m.nFatent → ∀ k < m.csize, ∀ k' < m.csize,
    clst2sect m.toVolume c + k = clst2sect m.toVolume c' + k' → c = c' ∧ k = k'

omit [NeZero ss] in
theorem LaidOut.outside {tsect lba : Nat} (h : LaidOut ss bsect tsect m) (hfats : m.nFats = 1 ∨ m.nFats = 2)
    (hlba : m.fatbase + m.fsize * m.nFats ≤ lba) : m.Outside lba := by
  have hreserved := h.wf.reserved
  obtain hone | htwo := hfats
  · rw [hone] at hlba
    refine ⟨fun hin => ?_, fun hcopy => ?_, fun ht => ?_⟩
    · have := hin.2
      omega
    · have := hcopy.1
      omega
    · have := hreserved ht
      omega
  · rw [htwo] at hlba
    refine ⟨fun hin => ?_, fun hcopy => ?_, fun ht => ?_⟩
    · have := hin.2
      omega
    · have := hcopy.2.2
      omega
    · have := hreserved ht
      omega

end Layout

/-- A boot sector for FATs of 12 bits. -/
def smallBoot (i : Nat) : UInt8 :=
  [0xEB, 0, 0, 0, 0, 0, 0, 0, 0, 0, 0, 0, 2, 1, 1, 0, 2, 16, 0, 128, 0, 0, 1].getD i 0

section Sync
variable {ss : Nat} {D : Type} {io : DiskIo ss D} {sector : D → Nat → Sector ss} {count : Nat} {fs fs₁ fs' : Fatfs ss D}

/-- The state after `sync_fs`. -/
structure Flushed (sector : D → Nat → Sector ss) (count : Nat) (fs fs' : Fatfs ss D) : Prop where
  coherent : Coherent sector count fs'
  wflag : fs'.wflag = false
  volume : fs'.toVolume = fs.toVolume
  lastClst : fs'.lastClst = fs.lastClst
  freeClst : fs'.freeClst = fs.freeClst
  view : ∀ lba < count, ¬ fs.InCopy lba → (fs.fsType = .fat32 → lba ≠ fs.volbase + 1) →
    fs'.view sector lba = fs.view sector lba
  info : fs.fsType = .fat32 → fs.fsiFlag = 1 → fs'.fsiFlag = 0 ∧
    fs'.view sector (fs.volbase + 1) = fun i => fsInfo fs.freeClst fs.lastClst i.val
  no_info : fs.fsType = .fat32 → fs.fsiFlag ≠ 1 → fs'.fsiFlag = fs.fsiFlag ∧
    fs'.view sector (fs.volbase + 1) = fs.view sector (fs.volbase + 1)

theorem view_of_clean (hfs : Coherent sector count fs) (hclean : fs.wflag = false) {lba : Nat} (hlba : lba < count) :
    fs.view sector lba = sector fs.disk lba := by
  unfold Fatfs.view
  split
  · rename_i hwin
    rw [hfs.clean hclean (hwin ▸ hlba), hwin]
  · rfl

/-- The FSInfo sector is written over a window that has gone to the disk. -/
theorem info_written (h : Works io count sector) (hfs : Coherent sector count fs) (hv : fs.Wf ss)
    (hclean : fs.wflag = false) (ht : fs.fsType = .fat32) (hflag : fs.fsiFlag = 1) (win : Sector ss)
    (hwin : win = fun i => fsInfo fs.freeClst fs.lastClst i.val) : Flushed sector count fs { fs with
      win := win
      winsect := fs.volbase + 1
      disk := (io.diskWrite fs.disk win (fs.volbase + 1)).2
      fsiFlag := 0 } := by
  have hreserved := hv.reserved ht
  have hfits := hfs.fits
  have hlt : fs.volbase + 1 < count := by omega
  have hwrite := fun other hother => h.write fs.disk win (fs.volbase + 1) other hlt hother
  refine ⟨⟨hfits, hfs.fits_copy, ?_, ?_, ?_⟩, hclean, rfl, rfl, rfl, ?_, ?_, ?_⟩
  · intro _ _
    exact ((hwrite _ hlt).trans (if_pos rfl)).symm
  · intro hf
    exact absurd (hclean.symm.trans hf) Bool.false_ne_true
  · intro htwo lba hin _
    have hfits₂ := hfs.fits_copy htwo
    have hbase : fs.fatbase ≤ lba := hin.1
    have hend : lba < fs.fatbase + fs.fsize := hin.2
    have hlba : lba + fs.fsize < count := by omega
    refine (hwrite _ hlba).trans (Eq.trans ?_ (hwrite lba (by omega)).symm)
    rw [if_neg (by omega), if_neg (by omega)]
    exact hfs.copy htwo lba hin fun hf => absurd (hclean.symm.trans hf) Bool.false_ne_true
  · intro lba hlba _ hne
    rw [view_of_clean hfs hclean hlba]
    exact (if_neg (hne ht)).trans ((hwrite lba hlba).trans (if_neg (hne ht)))
  · intro _ _
    exact ⟨rfl, (if_pos rfl).trans hwin⟩
  · intro _ hne
    exact absurd hflag hne

/-- The FSInfo sector is outside the FATs. -/
theorem Keeps.info_view (hk : Keeps sector count fs fs₁) (hv : fs.Wf ss) (ht : fs.fsType = .fat32)
    (hfits : fs.fatbase + fs.fsize ≤ count) :
    fs₁.view sector (fs.volbase + 1) = fs.view sector (fs.volbase + 1) := by
  have hreserved := hv.reserved ht
  apply hk.view
  · omega
  · intro hcopy
    have := hcopy.2.1
    omega

theorem Flushed.of_keeps (hk : Keeps sector count fs fs₁) (hv : fs.Wf ss) (hfits : fs.fatbase + fs.fsize ≤ count)
    (h : Flushed sector count fs₁ fs') : Flushed sector count fs fs' := by
  have hvol := hk.volume
  refine ⟨h.coherent, h.wflag, h.volume.trans hvol, h.lastClst.trans hk.lastClst, h.freeClst.trans hk.freeClst, ?_, ?_, ?_⟩
  · intro lba hlba hcopy hne
    rw [h.view lba hlba (by rwa [hvol]) (by rwa [hvol]), hk.view lba hlba hcopy]
  · intro ht hflag
    rw [← hk.freeClst, ← hk.lastClst, ← hvol]
    exact h.info (hvol ▸ ht) (hk.fsiFlag.trans hflag)
  · intro ht hflag
    have hsame := h.no_info (hvol ▸ ht) (hk.fsiFlag ▸ hflag)
    rw [hk.fsiFlag, hvol, hk.info_view hv ht hfits] at hsame
    exact hsame

theorem syncFs_spec (h : Works io count sector) (hfs : Coherent sector count fs) (hv : fs.Wf ss) :
    ∃ fs', syncFs io fs = (.ok, fs') ∧ Flushed sector count fs fs' := by
  obtain ⟨fs₁, hsync, hs⟩ := syncWindow_spec h hfs
  unfold syncFs
  rw [hsync]
  dsimp only
  by_cases hinfo : fs₁.fsType = .fat32 ∧ fs₁.fsiFlag = 1
  · rw [if_pos hinfo, if_pos (h.sync _)]
    exact ⟨_, rfl, .of_keeps hs.keeps hv hfs.fits
      (info_written h hs.coherent (hs.keeps.volume ▸ hv) hs.wflag hinfo.1 hinfo.2 _ rfl)⟩
  · rw [if_neg hinfo, if_pos (h.sync _)]
    refine ⟨fs₁, rfl, .of_keeps hs.keeps hv hfs.fits
      ⟨hs.coherent, hs.wflag, rfl, rfl, rfl, fun _ _ _ _ => rfl, ?_, fun _ _ => ⟨rfl, rfl⟩⟩⟩
    intro ht hflag
    exact absurd ⟨ht, hflag⟩ hinfo

end Sync

/-! ## Mounting -/

section Mount
variable {ss : Nat} [NeZero ss] {D : Type} {io : DiskIo ss D} {sector : D → Nat → Sector ss} {count : Nat}
  {fs fs' : Fatfs ss D} {sect : Nat}

/-! ### FSInfo -/

theorem ldWord_bytes (b : Nat → UInt8) {ofs : Nat} (h : ofs + 1 < ss) :
    ldWord (fun i : Fin ss => b i.val) ofs = word b ofs := by
  have hval : ∀ i < ss, (idx ss i).val = i := fun i hi => Nat.mod_eq_of_lt hi
  rw [ldWord, shiftLeft_or, hval _ h, hval _ (Nat.lt_of_succ_lt h), word]

theorem ldDword_bytes (b : Nat → UInt8) {ofs : Nat} (h : ofs + 3 < ss) :
    ldDword (fun i : Fin ss => b i.val) ofs = dword b ofs := by
  rw [ldDword_eq_words, ldWord_bytes b (by omega), ldWord_bytes b (by omega), dword]

omit [NeZero ss] in
theorem word_storeDword_of_ne {b : Nat → UInt8} {i j val : Nat} (h : i + 4 ≤ j ∨ j + 2 ≤ i) :
    word (storeDword b i val) j = word b j := by
  unfold storeDword
  rw [word_storeWord_of_ne (by omega), word_storeWord_of_ne (by omega)]

/-- What is written into the FSInfo sector is read from it. -/
theorem loadInfo_fsInfo {free last : Nat} (hss : 512 ≤ ss) (hfree : free < 2 ^ 32) (hlast : last < 2 ^ 32) :
    loadInfo (fun i : Fin ss => fsInfo free last i.val) = (free, last) := by
  have hsign : word (fsInfo free last) 510 = 0xAA55 := by
    unfold fsInfo
    rw [word_storeDword_of_ne (by omega), word_storeDword_of_ne (by omega), word_storeDword_of_ne (by omega),
      word_storeDword_of_ne (by omega), word_storeWord]
    rfl
  have hlead : dword (fsInfo free last) 0 = 0x41615252 := by
    unfold fsInfo
    rw [dword_storeDword_of_ne (by omega), dword_storeDword_of_ne (by omega), dword_storeDword_of_ne (by omega),
      dword_storeDword]
    rfl
  have hstruc : dword (fsInfo free last) 484 = 0x61417272 := by
    unfold fsInfo
    rw [dword_storeDword_of_ne (by omega), dword_storeDword_of_ne (by omega), dword_storeDword]
    rfl
  have hcount : dword (fsInfo free last) 488 = free := by
    unfold fsInfo
    rw [dword_storeDword_of_ne (by omega), dword_storeDword, Nat.mod_eq_of_lt hfree]
  have hnext : dword (fsInfo free last) 492 = last := by
    unfold fsInfo
    rw [dword_storeDword, Nat.mod_eq_of_lt hlast]
  unfold loadInfo
  rw [ldWord_bytes _ (by omega), ldDword_bytes _ (by omega), ldDword_bytes _ (by omega), ldDword_bytes _ (by omega),
    ldDword_bytes _ (by omega), hsign, hlead, hstruc, hcount, hnext]
  exact if_pos ⟨rfl, rfl, rfl⟩

/-! ### The window of a mount -/

/-- The window is over a sector and has not been changed. -/
def Fatfs.over (sector : D → Nat → Sector ss) (fs : Fatfs ss D) (sect : Nat) : Fatfs ss D :=
  { fs with wflag := false, winsect := sect, win := sector fs.disk sect }

omit [NeZero ss] in
theorem moveWindow_fresh (h : Works io count sector) (fs : Fatfs ss D) (hsect : sect < count) :
    moveWindow io { fs with wflag := false, winsect := lbaSub 0 1 } sect = (.ok, fs.over sector sect) := by
  have hcount := h.count_le
  have hne : sect ≠ lbaSub 0 1 := by
    have hlast : lbaSub 0 1 = 2 ^ 32 - 1 := by decide
    omega
  unfold moveWindow syncWindow
  dsimp only
  rw [if_pos hne, if_neg Bool.false_ne_true]
  dsimp only
  rw [h.read _ _ hsect]
  rfl

omit [NeZero ss] in
theorem moveWindow_moved (h : Works io count sector) (fs : Fatfs ss D) (old sect : Nat) (hsect : sect < count) :
    moveWindow io (fs.over sector old) sect = (.ok, fs.over sector sect) := by
  unfold moveWindow syncWindow
  by_cases heq : sect = old
  · rw [heq]
    exact if_neg (not_not.mpr rfl)
  · have hne : sect ≠ (fs.over sector old).winsect := heq
    have hclean : ¬ (fs.over sector old).wflag = true := Bool.false_ne_true
    rw [if_pos hne, if_neg hclean]
    dsimp only
    rw [h.read _ _ hsect]
    rfl

/-! ### Finding the volume -/

theorem checkFs_eq (h : Works io count sector) (fs : Fatfs ss D) (hsect : sect < count) :
    checkFs io fs sect = (checkSector (sector fs.disk sect), fs.over sector sect) := by
  unfold checkFs
  rw [moveWindow_fresh h fs hsect]
  rfl

theorem checkSector_cases (win : Sector ss) : checkSector win = 0 ∨ 2 ≤ checkSector win := by
  unfold checkSector
  dsimp only
  split
  · exact .inl rfl
  · split
    · exact .inr (Nat.le_refl 2)
    · exact .inr (by decide)

/-- The volume that the search comes to: on the whole disk, or in the first partition that has one. `Ok` is for the
sectors that can be read. -/
def Located (sectors : Nat → Sector ss) (Ok : Nat → Prop) (bsect : Nat) : Prop :=
  checkSector (sectors 0) = 0 ∧ bsect = 0 ∨
  checkSector (sectors 0) = 2 ∧ bsect ≠ 0 ∧ checkSector (sectors bsect) = 0 ∧
    ∃ pre post, partitions (sectors 0) = pre ++ bsect :: post ∧
      ∀ sect ∈ pre, sect = 0 ∨ Ok sect ∧ checkSector (sectors sect) ≠ 0

theorem findPartition_eq (h : Works io count sector) {bsect : Nat} {post : List Nat} (hbsect : bsect < count)
    (hne : bsect ≠ 0) (hfound : checkSector (sector fs.disk bsect) = 0) (pre : List Nat) :
    ∀ (fmt old : Nat), (∀ sect ∈ pre, sect = 0 ∨ sect < count ∧ checkSector (sector fs.disk sect) ≠ 0) →
      findPartition io (pre ++ bsect :: post) fmt (fs.over sector old) = (0, fs.over sector bsect) := by
  have hcheck : ∀ old sect, sect < count →
      checkFs io (fs.over sector old) sect = (checkSector (sector fs.disk sect), fs.over sector sect) :=
    fun old sect hsect => checkFs_eq h (fs.over sector old) hsect
  induction pre with
  | nil =>
    intro fmt old _
    rw [List.nil_append, findPartition, if_pos hne, hcheck old bsect hbsect, hfound]
    exact if_neg (by decide)
  | cons sect pre ih =>
    intro fmt old hpre
    have hpre' := fun s hs => hpre s (List.mem_cons_of_mem sect hs)
    rw [List.cons_append, findPartition]
    by_cases hzero : sect = 0
    · rw [if_neg (not_not.mpr hzero)]
      exact ih 3 old hpre'
    · obtain ⟨hlt, hother⟩ := (hpre sect List.mem_cons_self).resolve_left hzero
      have hge : checkSector (sector fs.disk sect) ≥ 2 := (checkSector_cases _).resolve_left hother
      rw [if_pos hzero, hcheck old sect hlt]
      dsimp only
      rw [if_pos hge]
      exact ih _ sect hpre'

theorem findVolume_eq (h : Works io count sector) (hcount : 0 < count) {bsect : Nat} (hbsect : bsect < count)
    (hloc : Located (sector fs.disk) (· < count) bsect) : findVolume io fs = (0, fs.over sector bsect) := by
  unfold findVolume
  rw [checkFs_eq h fs hcount]
  dsimp only
  obtain ⟨hzero, rfl⟩ | ⟨htwo, hne, hfound, pre, post, hparts, hpre⟩ := hloc
  · rw [hzero, if_pos (by decide)]
  · rw [htwo, if_neg (by decide)]
    change findPartition io (partitions (sector fs.disk 0)) 3 _ = _
    rw [hparts]
    exact findPartition_eq h hbsect hne hfound pre 3 0 hpre

/-! ### The mounted volume -/

/-- A volume that has just been mounted. -/
structure MountedAs (sector : D → Nat → Sector ss) (count : Nat) (fs fs' : Fatfs ss D) : Prop where
  coherent : Coherent sector count fs'
  volume : fs'.toVolume = fs.toVolume
  view : ∀ lba < count, fs'.view sector lba = sector fs.disk lba
  info : fs.fsType = .fat32 → ldWord (sector fs.disk fs.volbase) 48 = 1 → fs'.fsiFlag = 0 ∧
    (fs'.freeClst, fs'.lastClst) = loadInfo (sector fs.disk (fs.volbase + 1))
  no_info : ¬ (fs.fsType = .fat32 ∧ ldWord (sector fs.disk fs.volbase) 48 = 1) →
    fs'.freeClst = 0xFFFFFFFF ∧ fs'.lastClst = 0xFFFFFFFF

omit [NeZero ss] in
theorem over_coherent (hfs : Coherent sector count fs) (hclean : fs.wflag = false) (sect last free : Nat)
    (flag : UInt8) :
    Coherent sector count { fs.over sector sect with lastClst := last, freeClst := free, fsiFlag := flag } := by
  refine ⟨hfs.fits, hfs.fits_copy, fun _ _ => rfl, fun hf => absurd hf Bool.false_ne_true, ?_⟩
  intro htwo lba hin _
  exact hfs.copy htwo lba hin fun hf => absurd (hclean.symm.trans hf) Bool.false_ne_true

omit [NeZero ss] in
theorem over_view (fs : Fatfs ss D) (sect last free lba : Nat) (flag : UInt8) :
    Fatfs.view sector { fs.over sector sect with lastClst := last, freeClst := free, fsiFlag := flag } lba =
      sector fs.disk lba := by
  change (if lba = sect then sector fs.disk sect else sector fs.disk lba) = sector fs.disk lba
  split
  · rename_i heq
    rw [heq]
  · rfl

theorem mountInfo_spec (h : Works io count sector) (hfs : Coherent sector count fs) (hclean : fs.wflag = false)
    (hv : fs.Wf ss) : MountedAs sector count fs (mountInfo io (fs.over sector fs.volbase)
      (ldWord (sector fs.disk fs.volbase) 48 = 1)) := by
  have hfits := hfs.fits
  unfold mountInfo
  dsimp only
  by_cases hinfo : fs.fsType = .fat32 ∧ ldWord (sector fs.disk fs.volbase) 48 = 1
  · have hreserved := hv.reserved hinfo.1
    have hmove := moveWindow_moved h { fs with lastClst := 0xFFFFFFFF, freeClst := 0xFFFFFFFF, fsiFlag := 0x80 }
      fs.volbase (fs.volbase + 1) (by omega)
    have hcond : (fs.over sector fs.volbase).fsType = .fat32 ∧
        decide (ldWord (sector fs.disk fs.volbase) 48 = 1) = true := ⟨hinfo.1, decide_eq_true hinfo.2⟩
    rw [if_pos hcond]
    split
    · rename_i fs₁ hmoved
      obtain rfl := (Prod.ext_iff.mp (hmove.symm.trans hmoved)).2
      dsimp only
      split
      · rename_i hsigned
        exact ⟨over_coherent hfs hclean (fs.volbase + 1) _ _ 0, rfl,
          fun lba _ => over_view fs (fs.volbase + 1) _ _ lba 0, fun _ _ => ⟨rfl, (if_pos hsigned).symm⟩,
          fun hnot => absurd hinfo hnot⟩
      · rename_i hsigned
        exact ⟨over_coherent hfs hclean (fs.volbase + 1) _ _ 0, rfl,
          fun lba _ => over_view fs (fs.volbase + 1) _ _ lba 0, fun _ _ => ⟨rfl, (if_neg hsigned).symm⟩,
          fun hnot => absurd hinfo hnot⟩
    · rename_i res fs₁ hfailed hmoved
      exact absurd (Prod.ext_iff.mp (hmoved.symm.trans hmove)).1 hfailed
  · have hcond : ¬ ((fs.over sector fs.volbase).fsType = .fat32 ∧
        decide (ldWord (sector fs.disk fs.volbase) 48 = 1) = true) :=
      fun hboth => hinfo ⟨hboth.1, of_decide_eq_true hboth.2⟩
    rw [if_neg hcond]
    refine ⟨over_coherent hfs hclean _ _ _ _, rfl, fun lba _ => over_view fs _ _ _ lba _, ?_, fun _ => ⟨rfl, rfl⟩⟩
    intro ht hbpb
    exact absurd ⟨ht, hbpb⟩ hinfo

/-- Mounting a disk that a volume has been synced to. -/
theorem mount_spec (h : Works io count sector) (hfs : Coherent sector count fs) (hclean : fs.wflag = false)
    (hv : fs.Wf ss) (hloc : Located (sector fs.disk) (· < count) fs.volbase) {m : Mounting}
    (hmount : mountVolume (sector fs.disk fs.volbase) fs.volbase = .ok m) (hm : m.toVolume = fs.toVolume) :
    ∃ fs', mount io fs = .ok (m, fs') ∧ MountedAs sector count fs fs' := by
  have hfits := hfs.fits
  have hboot := hv.boot
  have hvol : { fs.over sector fs.volbase with toVolume := m.toVolume } = fs.over sector fs.volbase := by
    rw [hm]
    rfl
  unfold mount
  rw [findVolume_eq h (by omega) (by omega : fs.volbase < count) hloc]
  dsimp only
  rw [if_neg (by decide), if_neg (by decide)]
  change ∃ fs', (match mountVolume (sector fs.disk fs.volbase) fs.volbase with
    | .error res => Except.error res
    | .ok m => Except.ok (m, mountInfo io { fs.over sector fs.volbase with toVolume := m.toVolume }
        (decide (ldWord (sector fs.disk fs.volbase) 48 = 1)))) = .ok (m, fs') ∧ _
  rw [hmount]
  dsimp only
  rw [hvol]
  exact ⟨_, rfl, mountInfo_spec h hfs hclean hv⟩

end Mount

end PicoRuby.Fat
