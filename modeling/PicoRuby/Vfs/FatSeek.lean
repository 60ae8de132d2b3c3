import Mathlib.Algebra.Ring.Int.Defs
import PicoRuby.Vfs.Fat

/-!
# Seeking in a FAT file

`seek` of fat_file.c over `f_expand`, `f_sync` and `f_lseek`. The position has the unsigned type `FSIZE_t`, 32 bits
wide without exFAT, and a target before the start of the file is one near its end.
-/

namespace PicoRuby.Vfs

set_option autoImplicit false

/-! ## Files -/

abbrev FSize := BitVec 32

/-- An open file; `write` is `FA_WRITE`. -/
structure Fil where
  objsize : FSize
  fptr : FSize
  write : Bool
deriving DecidableEq, Repr

/-- What FatFs comes to on the drive of the file: `validate` with `fp->err`, the search for a contiguous area with its
allocation, and the other two functions. -/
structure FileFs where
  validate : FResult
  allocate : FSize → FResult
  sync : FResult
  lseek : FSize → FResult

/-- The functions of FatFs that are called. -/
inductive FatCall where
  | expand (fsz : FSize)
  | sync
  | lseek (ofs : FSize)
deriving DecidableEq, Repr

/-- `f_expand(fp, fsz, 1)`. -/
def fExpand (fs : FileFs) (fp : Fil) (fsz : FSize) : FResult × Fil :=
  if fs.validate ≠ .ok then (fs.validate, fp)
  else if fsz = 0 ∨ fp.objsize ≠ 0 ∨ fp.write = false then (.denied, fp)
  else if fs.allocate fsz = .ok then (.ok, { fp with objsize := fsz })
  else (fs.allocate fsz, fp)

/-- `f_lseek`, which sets the position that it is given. -/
def fLseek (fs : FileFs) (fp : Fil) (ofs : FSize) : FResult × Fil :=
  if fs.lseek ofs = .ok then (.ok, { fp with fptr := ofs }) else (fs.lseek ofs, fp)

def toExcept {α : Type} (a : α) : FResult → Except FResult α
  | .ok => .ok a
  | res => .error res

inductive Whence where
  | set
  | cur
  | fromEnd
deriving DecidableEq, Repr

/-- `SEEK_SET`, `SEEK_CUR` and `SEEK_END`. -/
def Whence.code : Whence → Int
  | .set => 0
  | .cur => 1
  | .fromEnd => 2

def newPos (fp : Fil) (ofs whence : Int) : Option FSize :=
  if whence = Whence.set.code then some (BitVec.ofInt 32 ofs)
  else if whence = Whence.cur.code then some (BitVec.ofInt 32 (fp.fptr.toNat + ofs))
  else if whence = Whence.fromEnd.code then some (BitVec.ofInt 32 (fp.objsize.toNat + ofs))
  else none

/-- The last call of `mrb_seek`. -/
def seekTo (fs : FileFs) (fp : Fil) (newPos : FSize) : List FatCall × Except Failure Fil :=
  ([.lseek newPos], raiseIffError "f_lseek" (toExcept (fLseek fs fp newPos).2 (fLseek fs fp newPos).1))

/-- `f_expand`, with `f_sync` where it has gone well. -/
def grow (fs : FileFs) (fp : Fil) (newPos : FSize) : List FatCall × FResult :=
  if (fExpand fs fp newPos).1 = .ok then ([.expand newPos, .sync], fs.sync)
  else ([.expand newPos], (fExpand fs fp newPos).1)

/-- `mrb_seek`: the calls in their order, and what it raises or leaves. -/
def seek (fs : FileFs) (fp : Fil) (ofs whence : Int) : List FatCall × Except Failure Fil :=
  match newPos fp ofs whence with
  | none => ([], .error ⟨.argumentError, "Unknown whence"⟩)
  | some newPos =>
    if newPos < 0 then ([], .error ⟨.argumentError, "Invalid offset"⟩)
    else if fp.objsize < newPos then
      match raiseIffError "f_lseek|f_expand|f_sync" (toExcept (fExpand fs fp newPos).2 (grow fs fp newPos).2) with
      | .error e => ((grow fs fp newPos).1, .error e)
      | .ok grown => ((grow fs fp newPos).1 ++ (seekTo fs grown newPos).1, (seekTo fs grown newPos).2)
    else seekTo fs fp newPos

/-! ## What is asked for -/

/-- The position that is asked for. -/
def seekTarget (fp : Fil) (ofs : Int) : Whence → Int
  | .set => ofs
  | .cur => fp.fptr.toNat + ofs
  | .fromEnd => fp.objsize.toNat + ofs

/-- A target before the start is refused, with no change; every other one is requested. -/
def Bounded (fs : FileFs) (fp : Fil) (ofs : Int) (w : Whence) : Prop :=
  if seekTarget fp ofs w < 0 then
    (∃ e, (seek fs fp ofs w.code).2 = .error e ∧ e.cls = .argumentError) ∧
      ∀ call ∈ (seek fs fp ofs w.code).1, (∀ fsz, call ≠ .expand fsz) ∧ ∀ pos, call ≠ .lseek pos
  else ∃ pos : FSize, (pos.toNat : Int) = seekTarget fp ofs w ∧ .lseek pos ∈ (seek fs fp ofs w.code).1 ∧
    ∀ other, .lseek other ∈ (seek fs fp ofs w.code).1 → other = pos

/-- The file can grow to `size`. -/
structure Grows (fs : FileFs) (fp : Fil) (size : FSize) : Prop where
  valid : fs.validate = .ok
  empty : fp.objsize = 0
  write : fp.write = true
  area : fs.allocate size = .ok
  sync : fs.sync = .ok

theorem newPos_code (fp : Fil) (ofs : Int) (w : Whence) :
    newPos fp ofs w.code = some (BitVec.ofInt 32 (seekTarget fp ofs w)) := by
  cases w with
  | set => rfl
  | cur => rfl
  | fromEnd => rfl

/-- A position is never less than 0. -/
theorem not_neg (pos : FSize) : ¬ pos < 0 := BitVec.not_lt_zero

theorem fExpand_ok_iff {fs : FileFs} {fp : Fil} {fsz : FSize} (h : fsz ≠ 0) :
    (fExpand fs fp fsz).1 = .ok ↔
      fs.validate = .ok ∧ fp.objsize = 0 ∧ fp.write = true ∧ fs.allocate fsz = .ok := by
  unfold fExpand
  split
  · rename_i hvalid
    exact ⟨fun hok => absurd hok hvalid, fun hgrows => absurd hgrows.1 hvalid⟩
  · rename_i hvalid
    rw [not_not] at hvalid
    split
    · rename_i hguard
      constructor
      · intro hok
        cases hok
      · rintro ⟨-, hempty, hwrite, -⟩
        rcases hguard with hzero | hsize | hread
        · exact absurd hzero h
        · exact absurd hempty hsize
        · exact absurd (hwrite.symm.trans hread) (by decide)
    · rename_i hguard
      rw [not_or, not_or, not_not, Bool.not_eq_false] at hguard
      split
      · rename_i harea
        exact iff_of_true rfl ⟨hvalid, hguard.2.1, hguard.2.2, harea⟩
      · rename_i harea
        exact ⟨fun hok => absurd hok harea, fun hgrows => absurd hgrows.2.2.2 harea⟩

theorem grow_ok_iff {fs : FileFs} {fp : Fil} {pos : FSize} (h : fp.objsize < pos) :
    (grow fs fp pos).2 = .ok ↔ Grows fs fp pos := by
  have hpos : pos ≠ 0 := by
    rintro rfl
    exact not_neg _ h
  have hexpand : (fExpand fs fp pos).1 = .ok ↔ _ := fExpand_ok_iff hpos
  unfold grow
  split
  · rename_i hok
    obtain ⟨hvalid, hempty, hwrite, harea⟩ := hexpand.mp hok
    exact ⟨fun hsync => ⟨hvalid, hempty, hwrite, harea, hsync⟩, fun hgrows => hgrows.sync⟩
  · rename_i hfails
    refine ⟨fun hok => absurd hok hfails, ?_⟩
    intro hgrows
    exact absurd (hexpand.mpr ⟨hgrows.valid, hgrows.empty, hgrows.write, hgrows.area⟩) hfails

theorem grow_calls (fs : FileFs) (fp : Fil) (pos : FSize) :
    .expand pos ∈ (grow fs fp pos).1 ∧ ∀ other, .lseek other ∉ (grow fs fp pos).1 := by
  unfold grow
  split <;> simp

theorem toExcept_ok {α : Type} {a : α} {res : FResult} (h : res = .ok) : toExcept a res = .ok a := by
  rw [h]
  rfl

theorem toExcept_error {α : Type} {a : α} {res : FResult} (h : res ≠ .ok) : toExcept a res = .error res := by
  cases res with
  | ok => exact absurd rfl h
  | _ => rfl

section Seek
variable {fs : FileFs} {fp : Fil} {ofs : Int} {w : Whence}

theorem seek_within (h : ¬ fp.objsize < BitVec.ofInt 32 (seekTarget fp ofs w)) :
    seek fs fp ofs w.code = seekTo fs fp (BitVec.ofInt 32 (seekTarget fp ofs w)) := by
  rw [seek, newPos_code]
  simp only
  rw [if_neg (not_neg _), if_neg h]

/-- Behind the end, `f_expand` is called first. -/
theorem seek_beyond (h : fp.objsize < BitVec.ofInt 32 (seekTarget fp ofs w)) :
    .expand (BitVec.ofInt 32 (seekTarget fp ofs w)) ∈ (seek fs fp ofs w.code).1 ∧ ∀ pos,
      .lseek pos ∈ (seek fs fp ofs w.code).1 ↔
        pos = BitVec.ofInt 32 (seekTarget fp ofs w) ∧ Grows fs fp (BitVec.ofInt 32 (seekTarget fp ofs w)) := by
  obtain ⟨hexpand, hnone⟩ := grow_calls fs fp (BitVec.ofInt 32 (seekTarget fp ofs w))
  rw [← grow_ok_iff h, seek, newPos_code]
  simp only
  rw [if_neg (not_neg _), if_pos h]
  by_cases hok : (grow fs fp (BitVec.ofInt 32 (seekTarget fp ofs w))).2 = .ok
  · rw [toExcept_ok hok]
    refine ⟨List.mem_append_left _ hexpand, ?_⟩
    intro pos
    simp [raiseIffError, seekTo, hnone, hok]
  · rw [toExcept_error hok]
    refine ⟨hexpand, ?_⟩
    intro pos
    simp [raiseIffError, hnone, hok]

theorem lseek_mem_iff (pos : FSize) : .lseek pos ∈ (seek fs fp ofs w.code).1 ↔
    pos = BitVec.ofInt 32 (seekTarget fp ofs w) ∧ (¬ fp.objsize < BitVec.ofInt 32 (seekTarget fp ofs w) ∨
      Grows fs fp (BitVec.ofInt 32 (seekTarget fp ofs w))) := by
  by_cases h : fp.objsize < BitVec.ofInt 32 (seekTarget fp ofs w)
  · rw [(seek_beyond h).2]
    simp [h]
  · rw [seek_within h]
    simp [seekTo, h]

end Seek

theorem ofInt_target {t : Int} (h : 0 ≤ t) (hlt : t < 2 ^ 32) : ((BitVec.ofInt 32 t).toNat : Int) = t := by
  rw [BitVec.toNat_ofInt]
  omega

/-- **A seek requests the position that is asked for** exactly when it is from 0 to the greatest position and the file
reaches it or can grow to it. A target before the start of the file is never refused as such. -/
theorem seek_bounded_iff (fs : FileFs) (fp : Fil) (ofs : Int) (w : Whence) :
    Bounded fs fp ofs w ↔ 0 ≤ seekTarget fp ofs w ∧ seekTarget fp ofs w < 2 ^ 32 ∧
      (seekTarget fp ofs w ≤ fp.objsize.toNat ∨ Grows fs fp (BitVec.ofInt 32 (seekTarget fp ofs w))) := by
  unfold Bounded
  by_cases hneg : seekTarget fp ofs w < 0
  · rw [if_pos hneg]
    constructor
    · rintro ⟨-, hcalls⟩
      by_cases h : fp.objsize < BitVec.ofInt 32 (seekTarget fp ofs w)
      · exact absurd rfl ((hcalls _ (seek_beyond h).1).1 _)
      · rw [seek_within h] at hcalls
        exact absurd rfl ((hcalls _ (List.mem_singleton.mpr rfl)).2 _)
    · rintro ⟨hnonneg, -⟩
      omega
  · rw [if_neg hneg]
    have hreached (hlt : seekTarget fp ofs w < 2 ^ 32) :
        ¬ fp.objsize < BitVec.ofInt 32 (seekTarget fp ofs w) ↔ seekTarget fp ofs w ≤ fp.objsize.toNat := by
      rw [BitVec.lt_def, ← Int.ofNat_lt, ofInt_target (Int.not_lt.mp hneg) hlt, Int.not_lt]
    constructor
    · rintro ⟨pos, hpos, hmem, -⟩
      rw [lseek_mem_iff] at hmem
      have hlt : seekTarget fp ofs w < 2 ^ 32 := by
        have hmax := pos.isLt
        omega
      rw [hreached hlt] at hmem
      exact ⟨Int.not_lt.mp hneg, hlt, hmem.2⟩
    · rintro ⟨hnonneg, hlt, hreach⟩
      refine ⟨_, ofInt_target hnonneg hlt, ?_, ?_⟩
      · rw [lseek_mem_iff, hreached hlt]
        exact ⟨rfl, hreach⟩
      · intro other hother
        exact (lseek_mem_iff other).mp hother |>.1

/-- A drive on which all goes well. -/
def soundDrive : FileFs := ⟨.ok, fun _ => .ok, .ok, fun _ => .ok⟩

/-- One byte before the start of an empty file that is open for writing: the file grows to the greatest size. One byte
before the start of a file that has five: the exception is not an ArgumentError. -/
theorem seek_unbounded :
    seek soundDrive ⟨0, 0, true⟩ (-1) 0 = ([.expand (-1), .sync, .lseek (-1)], .ok ⟨-1, -1, true⟩) ∧
    ¬ Bounded soundDrive ⟨0, 0, true⟩ (-1) .set ∧
    seek soundDrive ⟨5, 5, true⟩ (-6) 1 =
      ([.expand (-1)], .error ⟨.runtimeError, "Permission denied @ f_lseek|f_expand|f_sync"⟩) ∧
    ¬ Bounded soundDrive ⟨5, 5, true⟩ (-6) .cur := by
  have hempty : seek soundDrive ⟨0, 0, true⟩ (-1) 0 = ([.expand (-1), .sync, .lseek (-1)], .ok ⟨-1, -1, true⟩) := by
    decide
  have hfive : seek soundDrive ⟨5, 5, true⟩ (-6) 1 =
      ([.expand (-1)], .error ⟨.runtimeError, "Permission denied @ f_lseek|f_expand|f_sync"⟩) := by
    decide
  refine ⟨hempty, ?_, hfive, ?_⟩
  · intro h
    rw [Bounded, if_pos (by decide)] at h
    obtain ⟨e, he, -⟩ := h.1
    exact absurd (hempty ▸ he) nofun
  · intro h
    rw [Bounded, if_pos (by decide)] at h
    obtain ⟨e, he, hcls⟩ := h.1
    have hsame : Except.error ⟨.runtimeError, "Permission denied @ f_lseek|f_expand|f_sync"⟩ = Except.error e :=
      (congrArg Prod.snd hfive).symm.trans he
    cases hsame
    cases hcls

end PicoRuby.Vfs
