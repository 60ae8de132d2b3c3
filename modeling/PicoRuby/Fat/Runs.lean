import PicoRuby.Fat.Drives
import PicoRuby.Fat.Files
import PicoRuby.Fat.Mount

/-!
# Runs of a volume

What FatFs does on a mounted volume: clusters for files, clusters given back, directories that change, `sync_fs`. All
of it goes through the same window. Every run leaves each file its clusters, and what is on the disk after a sync is
what a new mount finds.
-/

namespace PicoRuby.Fat

set_option autoImplicit false

open Vfs (FResult)

universe u

/-! ## Steps -/

section Functions
variable {ss : Nat} [NeZero ss] {D : Type} (io : DiskIo ss D)

/-- What `f_truncate` does behind the cluster that the file is at. -/
def truncateBehind (fs : Fatfs ss D) (clst : Nat) : Option (FResult × Fatfs ss D) :=
  let (ncl, fs) := getFat io fs clst
  if ncl = 0xFFFFFFFF then some (.diskErr, fs)
  else if ncl = 1 then some (.intErr, fs)
  else if ncl < fs.nFatent then removeChain io fs ncl clst
  else some (.ok, fs)

end Functions

/-- A mounted volume and where its files start; 0 is for a file without clusters. -/
structure Mounted (F : Type u) (ss : Nat) (D : Type) where
  fs : Fatfs ss D
  sclust : F → Nat

/-- `create` is for the first cluster of a file, `stretch` for the one behind a cluster, `remove` for the whole chain
of a file, `truncate` for what is behind a cluster. `dirty` changes a byte of a directory. -/
inductive Op (F : Type u) where
  | create (f : F)
  | stretch (clst : Nat)
  | remove (f : F)
  | truncate (clst : Nat)
  | dirty (lba ofs : Nat) (b : UInt8)
  | sync

inductive Answer where
  | cluster (c : Nat)
  | result (res : FResult)
deriving DecidableEq, Repr

section Steps
variable {F : Type u} [DecidableEq F] {ss : Nat} [NeZero ss] {D : Type} (io : DiskIo ss D)

def step (v : Mounted F ss D) : Op F → Option (Answer × Mounted F ss D)
  | .create f =>
    if v.sclust f ≠ 0 then some (.cluster (v.sclust f), v)
    else match createChain io v.fs 0 with
      | none => none
      | some (clst, fs) =>
        let failed := clst ≤ 1 ∨ clst = 0xFFFFFFFF
        some (.cluster clst, ⟨fs, if failed then v.sclust else Function.update v.sclust f clst⟩)
  | .stretch clst => (createChain io v.fs clst).map fun r => (.cluster r.1, { v with fs := r.2 })
  | .remove f =>
    if v.sclust f = 0 then some (.result .ok, v)
    else (removeChain io v.fs (v.sclust f) 0).map fun r => (.result r.1, ⟨r.2, Function.update v.sclust f 0⟩)
  | .truncate clst => (truncateBehind io v.fs clst).map fun r => (.result r.1, { v with fs := r.2 })
  | .dirty lba ofs b =>
    match moveWindow io v.fs lba with
    | (.ok, fs) => some (.result .ok, { v with fs := fs.setWin (idx ss ofs) b })
    | (res, fs) => some (.result res, { v with fs := fs })
  | .sync => some (.result (syncFs io v.fs).1, { v with fs := (syncFs io v.fs).2 })

/-- The functions that call these: what one does next depends on the answers. -/
inductive Caller (F : Type u) where
  | done
  | call (op : Op F) (next : Answer → Caller F)

/-- A run, with the calls and their answers. -/
def run (v : Mounted F ss D) : Caller F → Option (List (Op F × Answer) × Mounted F ss D)
  | .done => some ([], v)
  | .call op next => do
    let (answer, v) ← step io v op
    let (trace, v) ← run v (next answer)
    return ((op, answer) :: trace, v)

end Steps

/-! ## What holds of a volume -/

/-- Where directories and files are. -/
def Volume.InData (v : Volume) (lba : Nat) : Prop :=
  v.fatbase + v.fsize * v.nFats ≤ lba ∧ lba < v.database + v.csize * (v.nFatent - 2)

/-- The files and the sectors outside the FATs. -/
structure Contents (F : Type u) (ss : Nat) where
  files : F → List Nat
  sectors : Nat → Sector ss

variable {F : Type u} {ss : Nat} [NeZero ss] {D : Type}

/-- The FAT stands for the files, the count of free clusters is right where it is known, and where FSInfo has not to be
written it has this count. -/
structure Holds (sector : D → Nat → Sector ss) (count : Nat) (vol : Volume) (lost : Nat → Prop) (s : Contents F ss)
    (v : Mounted F ss D) : Prop where
  coherent : Coherent sector count v.fs
  volume : v.fs.toVolume = vol
  wf : vol.Wf ss
  represents : Represents (v.fs.table sector) vol.nFatent lost s.files
  counted : Counted (v.fs.table sector) vol.nFatent v.fs.freeClst
  sclust : ∀ f, v.sclust f = (s.files f).headD 0
  sectors : ∀ lba < count, vol.Outside lba → v.fs.view sector lba = s.sectors lba
  bounded : v.fs.lastClst < 2 ^ 32 ∧ v.fs.freeClst < 2 ^ 32
  informed : vol.fsType = .fat32 → ldWord (s.sectors vol.volbase) 48 = 1 →
    v.fs.fsiFlag = 0 ∧ (v.fs.freeClst, v.fs.lastClst) = loadInfo (v.fs.view sector (vol.volbase + 1)) ∨
      v.fs.fsiFlag = 1

section Abstract
variable [DecidableEq F] (count : Nat) (vol : Volume) (lost : Nat → Prop) (s : Contents F ss)

/-- The arguments that FatFs gives to its functions: clusters of files, and sectors of directories. -/
def Op.Valid : Op F → Prop
  | .create _ => True
  | .stretch clst => ∃ f, clst ∈ s.files f
  | .remove _ => True
  | .truncate clst => ∃ f, clst ∈ s.files f
  | .dirty lba ofs _ => lba < count ∧ vol.Outside lba ∧ vol.InData lba ∧ ofs < ss
  | .sync => True

/-- What becomes of the files and sectors, and the answer. A file gets clusters that no file has, and there is none to
get only when all are in use. -/
inductive Effect : Op F → Answer → Contents F ss → Prop
  | first {f : F} {c : Nat} : s.files f = [] → Fresh vol.nFatent lost s.files c →
    Effect (.create f) (.cluster c) ⟨Function.update s.files f [c], s.sectors⟩
  | firstFull {f : F} : s.files f = [] → Full vol.nFatent lost s.files → Effect (.create f) (.cluster 0) s
  | firstOld {f : F} {c : Nat} {post : List Nat} : s.files f = c :: post → Effect (.create f) (.cluster c) s
  | next {f : F} {c d : Nat} {pre post : List Nat} : s.files f = pre ++ c :: d :: post →
    Effect (.stretch c) (.cluster d) s
  | stretched {f : F} {c d : Nat} {pre : List Nat} : s.files f = pre ++ [c] → Fresh vol.nFatent lost s.files d →
    Effect (.stretch c) (.cluster d) ⟨Function.update s.files f (pre ++ [c, d]), s.sectors⟩
  | stretchFull {f : F} {c : Nat} {pre : List Nat} : s.files f = pre ++ [c] → Full vol.nFatent lost s.files →
    Effect (.stretch c) (.cluster 0) s
  | removed {f : F} : Effect (.remove f) (.result .ok) ⟨Function.update s.files f [], s.sectors⟩
  | truncated {f : F} {c : Nat} {pre post : List Nat} : s.files f = pre ++ c :: post →
    Effect (.truncate c) (.result .ok) ⟨Function.update s.files f (pre ++ [c]), s.sectors⟩
  | dirtied {lba ofs : Nat} {b : UInt8} : vol.InData lba → Effect (.dirty lba ofs b) (.result .ok)
    ⟨s.files, Function.update s.sectors lba (Function.update (s.sectors lba) (idx ss ofs) b)⟩
  | synced : Effect .sync (.result .ok) s

/-- What becomes of the files and sectors in a run. -/
inductive Effects : Contents F ss → List (Op F × Answer) → Contents F ss → Prop
  | nil {s : Contents F ss} : Effects s [] s
  | cons {s s' s'' : Contents F ss} {op : Op F} {answer : Answer} {trace : List (Op F × Answer)} :
    Effect vol lost s op answer s' → Effects s' trace s'' → Effects s ((op, answer) :: trace) s''

/-- Every call has valid arguments, whatever the answers are. -/
def Caller.Careful : Caller F → Contents F ss → Prop
  | .done, _ => True
  | .call op next, s => op.Valid count vol s ∧
    ∀ answer s', Effect vol lost s op answer s' → (next answer).Careful s'

end Abstract

section Steps
variable [DecidableEq F] {sector : D → Nat → Sector ss} {count : Nat} {io : DiskIo ss D} {vol : Volume}
  {lost : Nat → Prop} {s : Contents F ss} {v : Mounted F ss D} {fs' : Fatfs ss D} {f : F} {c : Nat}

omit [NeZero ss] in
theorem le_eoc (hv : vol.Wf ss) : vol.nFatent ≤ vol.fsType.eoc := by
  refine Nat.le_trans hv.limit ?_
  cases vol.fsType with
  | fat12 => decide
  | fat16 => decide
  | fat32 => decide

omit [NeZero ss] in
theorem eoc_ne_zero (hv : vol.Wf ss) : vol.fsType.eoc ≠ 0 := by
  have hle := le_eoc hv
  have hlt := hv.some_clusters
  omega

omit [DecidableEq F] in
/-- The FSInfo sector is on the disk and outside the FATs. -/
theorem Holds.info_sector (h : Holds sector count vol lost s v) (ht : vol.fsType = .fat32) :
    vol.volbase + 1 < count ∧ ¬ vol.InFat (vol.volbase + 1) ∧ ¬ vol.InCopy (vol.volbase + 1) := by
  have hfits := h.coherent.fits
  rw [h.volume] at hfits
  have hreserved := h.wf.reserved ht
  refine ⟨by omega, fun hin => ?_, fun hcopy => ?_⟩
  · have := hin.1
    omega
  · have := hcopy.2.1
    omega

omit [DecidableEq F] in
/-- The boot sector is on the disk and is none of the sectors that change. -/
theorem Holds.boot_sector (h : Holds sector count vol lost s v) :
    vol.volbase < count ∧ vol.Outside vol.volbase ∧ ¬ vol.InData vol.volbase := by
  have hfits := h.coherent.fits
  rw [h.volume] at hfits
  have hboot := h.wf.boot
  refine ⟨by omega, ⟨fun hin => ?_, fun hcopy => ?_, fun _ => by omega⟩, fun hdata => ?_⟩
  · have := hin.1
    omega
  · have := hcopy.2.1
    omega
  · have := hdata.1
    omega

omit [DecidableEq F] in
theorem Holds.changed (h : Holds sector count vol lost s v) {t : Nat → Nat} {last free : Nat} {files : F → List Nat}
    {sclust : F → Nat} (hch : Changed sector count v.fs fs' t last free)
    (hrep : Represents t vol.nFatent lost files) (hcounted : Counted t vol.nFatent free)
    (hsclust : ∀ f, sclust f = (files f).headD 0) (hbound : last < 2 ^ 32 ∧ free < 2 ^ 32) :
    Holds sector count vol lost ⟨files, s.sectors⟩ ⟨fs', sclust⟩ := by
  have hvol := h.volume
  refine ⟨hch.coherent, hch.volume.trans hvol, h.wf, hch.table ▸ hrep, hch.table ▸ hch.freeClst ▸ hcounted,
    hsclust, ?_, ?_, ?_⟩
  · intro lba hlba hout
    have hsame := hch.others lba hlba (by rw [hvol]; exact hout.1) (by rw [hvol]; exact hout.2.1)
    exact hsame.trans (h.sectors lba hlba hout)
  · rwa [hch.lastClst, hch.freeClst]
  · intro ht hbpb
    obtain ⟨hlt, hfat, hcopy⟩ := h.info_sector ht
    have hsame := hch.others _ hlt (by rwa [hvol]) (by rwa [hvol])
    change fs'.fsiFlag = 0 ∧ (fs'.freeClst, fs'.lastClst) = loadInfo (fs'.view sector (vol.volbase + 1)) ∨
      fs'.fsiFlag = 1
    rw [hsame, hch.lastClst, hch.freeClst]
    obtain ⟨hflag, hlast, hfree⟩ | hflag := hch.fsiFlag
    · rw [hflag, hlast, hfree]
      exact h.informed ht hbpb
    · refine .inr ?_
      obtain ⟨hzero, _⟩ | hone := h.informed ht hbpb
      · rw [hflag, hzero]
        rfl
      · rw [hflag, hone]
        rfl

omit [DecidableEq F] in
theorem Holds.keeps (h : Holds sector count vol lost s v) (hk : Keeps sector count v.fs fs')
    (hfs' : Coherent sector count fs') : Holds sector count vol lost s { v with fs := fs' } :=
  h.changed (hk.changed hfs') h.represents h.counted h.sclust h.bounded

omit [DecidableEq F] in
/-- Where no count of free clusters is left, all clusters are in use. -/
theorem Holds.full (h : Holds sector count vol lost s v)
    (hnone : v.fs.freeClst = 0 ∨ ∀ c, 2 ≤ c ∧ c < v.fs.nFatent → v.fs.table sector c ≠ 0) :
    Full vol.nFatent lost s.files := by
  apply h.represents.full
  obtain hzero | hnone := hnone
  · intro c hc hfree
    have hmem := mem_frees.mpr ⟨hc, hfree⟩
    have hpos := Finset.card_pos.mpr ⟨c, hmem⟩
    obtain hknown | hunknown := h.counted
    · omega
    · omega
  · rw [h.volume] at hnone
    exact hnone

omit [DecidableEq F] in
theorem Holds.two_le (h : Holds sector count vol lost s v) : 2 ≤ vol.nFatent := Nat.le_of_lt h.wf.some_clusters

omit [DecidableEq F] in
theorem Holds.wf' (h : Holds sector count vol lost s v) : v.fs.Wf ss := h.volume ▸ h.wf

omit [DecidableEq F] in
theorem Holds.sane (h : Holds sector count vol lost s v) : Sane sector v.fs :=
  fun c hc hlt => h.represents.sane c hc (h.volume ▸ hlt)

/-! ### Clusters for a file -/

omit [DecidableEq F] in
theorem Holds.taken_bounded (h : Holds sector count vol lost s v) (hc : Fresh vol.nFatent lost s.files c) :
    c < 2 ^ 32 ∧ countTaken vol.nFatent v.fs.freeClst < 2 ^ 32 := by
  have hlimit := nFatent_le h.wf
  have hrange := hc.range
  have hbound := h.bounded
  refine ⟨by omega, ?_⟩
  unfold countTaken
  split
  · omega
  · omega

theorem Holds.first (h : Holds sector count vol lost s v) (hf : s.files f = []) (hc : Fresh vol.nFatent lost s.files c)
    (hch : Changed sector count v.fs fs' (linkTo (v.fs.table sector) vol.fsType.eoc 0 c) c
      (countTaken vol.nFatent v.fs.freeClst)) :
    Holds sector count vol lost ⟨Function.update s.files f [c], s.sectors⟩ ⟨fs', Function.update v.sclust f c⟩ := by
  have heoc := le_eoc h.wf
  have hne := eoc_ne_zero h.wf
  have hfree := (h.represents.free_iff hc.range).mpr hc
  refine h.changed hch (h.represents.create h.two_le heoc hf hc) (h.counted.take hc.range hfree hne) ?_
    (h.taken_bounded hc)
  intro g
  by_cases hg : g = f
  · subst hg
    rw [Function.update_self, Function.update_self]
    rfl
  · rw [Function.update_of_ne hg, Function.update_of_ne hg]
    exact h.sclust g

theorem Holds.stretched (h : Holds sector count vol lost s v) {clst : Nat} {pre : List Nat}
    (hf : s.files f = pre ++ [clst]) (hc : Fresh vol.nFatent lost s.files c)
    (hch : Changed sector count v.fs fs' (linkTo (v.fs.table sector) vol.fsType.eoc clst c) c
      (countTaken vol.nFatent v.fs.freeClst)) :
    Holds sector count vol lost ⟨Function.update s.files f (pre ++ [clst, c]), s.sectors⟩ { v with fs := fs' } := by
  have heoc := le_eoc h.wf
  have hne := eoc_ne_zero h.wf
  have hfree := (h.represents.free_iff hc.range).mpr hc
  have hmem : clst ∈ s.files f := hf ▸ List.mem_append_right pre List.mem_cons_self
  have hclst := (h.represents.chained f).range clst hmem
  have hused := (h.represents.chained f).two_le h.two_le clst hmem
  have hdiff : clst ≠ c := fun heq => hc.unused f (heq ▸ hmem)
  rw [linkTo, if_neg (Nat.ne_of_gt (Nat.lt_of_lt_of_le Nat.two_pos hclst.1))] at hch
  refine h.changed hch (h.represents.extend h.two_le heoc hf hc) ?_ ?_ (h.taken_bounded hc)
  · have htaken := h.counted.take hc.range hfree hne
    have hold : Function.update (v.fs.table sector) c vol.fsType.eoc clst ≠ 0 := by
      rw [Function.update_of_ne hdiff]
      omega
    unfold Counted at htaken ⊢
    rwa [frees_set hold (Nat.ne_of_gt (Nat.lt_of_lt_of_le Nat.two_pos hc.range.1))]
  · intro g
    rw [h.sclust g]
    by_cases hg : g = f
    · subst hg
      rw [Function.update_self, hf]
      cases pre with
      | nil => rfl
      | cons d pre => rfl
    · rw [Function.update_of_ne hg]

/-- The first cluster of a file. -/
theorem step_create (h : Works io count sector) (hv : Holds sector count vol lost s v) (f : F) :
    ∃ answer s' v', step io v (.create f) = some (answer, v') ∧ Effect vol lost s (.create f) answer s' ∧
      Holds sector count vol lost s' v' := by
  have hstart := hv.sclust f
  rw [step]
  cases hf : s.files f with
  | nil =>
    rw [hf] at hstart
    have hzero : v.sclust f = 0 := hstart
    obtain ⟨r, fs', hcreate, hres⟩ := createChain_end h hv.coherent hv.wf' hv.sane (.inl rfl)
    rw [if_neg (not_not.mpr hzero), hcreate]
    dsimp only
    cases hres with
    | full hfs' hk hnone =>
      rw [if_pos (.inl (Nat.zero_le 1))]
      exact ⟨_, s, _, rfl, .firstFull hf (hv.full hnone), hv.keeps hk hfs'⟩
    | new htwo hlt hfree hch =>
      rw [hv.volume] at hlt hch
      have hfresh := (hv.represents.free_iff ⟨htwo, hlt⟩).mp hfree
      have hlimit := nFatent_le hv.wf
      rw [if_neg (by omega)]
      exact ⟨_, _, _, rfl, .first hf hfresh, hv.first hf hfresh hch⟩
  | cons c post =>
    have hc := (hv.represents.chained f).range c (hf ▸ List.mem_cons_self)
    rw [hf] at hstart
    have hne : v.sclust f ≠ 0 := by
      rw [hstart]
      exact Nat.ne_of_gt (Nat.lt_of_lt_of_le Nat.two_pos hc.1)
    rw [if_pos hne, hstart]
    exact ⟨_, s, v, rfl, .firstOld hf, hv⟩

/-- The cluster behind a cluster of a file. -/
theorem step_stretch (h : Works io count sector) (hv : Holds sector count vol lost s v) (hc : ∃ f, c ∈ s.files f) :
    ∃ answer s' v', step io v (.stretch c) = some (answer, v') ∧ Effect vol lost s (.stretch c) answer s' ∧
      Holds sector count vol lost s' v' := by
  obtain ⟨f, hmem⟩ := hc
  obtain ⟨pre, post, hf⟩ := List.append_of_mem hmem
  have hchained := hv.represents.chained f
  obtain ⟨htwo, hlt⟩ := hchained.range c hmem
  have hne : c ≠ 0 := Nat.ne_of_gt (Nat.lt_of_lt_of_le Nat.two_pos htwo)
  have hvol := hv.volume
  rw [hf] at hchained
  have hbehind : Chained (v.fs.table sector) vol.nFatent (c :: post) :=
    ⟨hchained.linked.suffix, fun x hx => hchained.range x (List.mem_append_right pre hx)⟩
  rw [step]
  obtain ⟨rfl, hend⟩ | ⟨d, post, rfl, hd, hd2, hdlt⟩ := hbehind.entry
  · obtain ⟨r, fs', hcreate, hres⟩ := createChain_end h hv.coherent hv.wf' hv.sane
      (.inr ⟨htwo, hvol ▸ hlt, hvol ▸ hend⟩)
    rw [hcreate]
    cases hres with
    | full hfs' hk hnone => exact ⟨_, s, _, rfl, .stretchFull hf (hv.full hnone), hv.keeps hk hfs'⟩
    | new hr hrlt hfree hch =>
      rw [hvol] at hrlt hch
      have hfresh := (hv.represents.free_iff ⟨hr, hrlt⟩).mp hfree
      exact ⟨_, _, _, rfl, .stretched hf hfresh, hv.stretched hf hfresh hch⟩
  · rw [← hd] at hd2 hdlt
    obtain ⟨fs', hcreate, hfs', hk⟩ := createChain_next h hv.coherent hv.wf' hne hd2 (hvol ▸ hdlt)
    rw [hcreate, hd]
    exact ⟨_, s, _, rfl, .next hf, hv.keeps hk hfs'⟩

/-! ### Clusters that are given back -/

omit [DecidableEq F] in
theorem Holds.used (h : Holds sector count vol lost s v) : ∀ x ∈ s.files f,
    (2 ≤ x ∧ x < vol.nFatent) ∧ v.fs.table sector x ≠ 0 := by
  intro x hx
  have htwo := (h.represents.chained f).two_le h.two_le x hx
  exact ⟨(h.represents.chained f).range x hx, by omega⟩

omit [DecidableEq F] in
theorem Holds.freed_bounded (h : Holds sector count vol lost s v) (k : Nat) :
    (countFreed vol.nFatent)^[k] v.fs.freeClst < 2 ^ 32 := by
  have hlimit := nFatent_le h.wf
  induction k with
  | zero => exact h.bounded.2
  | succ k ih =>
    rw [Function.iterate_succ_apply']
    unfold countFreed
    split
    · omega
    · exact ih

theorem step_remove (h : Works io count sector) (hv : Holds sector count vol lost s v) (f : F) :
    ∃ answer s' v', step io v (.remove f) = some (answer, v') ∧ Effect vol lost s (.remove f) answer s' ∧
      Holds sector count vol lost s' v' := by
  have hstart := hv.sclust f
  have hchained := hv.represents.chained f
  rw [step]
  cases hf : s.files f with
  | nil =>
    rw [hf] at hstart
    have hzero : v.sclust f = 0 := hstart
    have hsame : Function.update s.files f [] = s.files := by
      rw [← hf]
      exact Function.update_eq_self f s.files
    rw [if_pos hzero]
    refine ⟨_, _, v, rfl, .removed, ?_⟩
    rwa [hsame]
  | cons c post =>
    rw [hf] at hstart hchained
    have hfirst : v.sclust f = c := hstart
    have hc := hchained.range c List.mem_cons_self
    have hused := hv.used (f := f)
    rw [hf] at hused
    obtain ⟨fs', hremove, hch⟩ := removeChain_whole h hv.coherent hv.wf' (hv.volume ▸ hchained)
    have hrep := hv.represents.remove hv.two_le (f := f)
    have hcounted := hv.counted.without hchained.linked.nodup hused
    rw [hv.volume] at hch
    rw [hf] at hrep
    rw [if_neg (by omega), hfirst, hremove]
    refine ⟨_, _, _, rfl, .removed, hv.changed hch hrep hcounted ?_ ⟨hv.bounded.1, hv.freed_bounded _⟩⟩
    intro g
    by_cases hg : g = f
    · subst hg
      rw [Function.update_self, Function.update_self]
      rfl
    · rw [Function.update_of_ne hg, Function.update_of_ne hg]
      exact hv.sclust g

omit [DecidableEq F] [NeZero ss] in
/-- The first cluster of a file stays when it is cut behind a cluster. -/
theorem headD_cut (pre post : List Nat) (c : Nat) : (pre ++ [c]).headD 0 = (pre ++ c :: post).headD 0 := by
  cases pre with
  | nil => rfl
  | cons d pre => rfl

theorem step_truncate (h : Works io count sector) (hv : Holds sector count vol lost s v) (hc : ∃ f, c ∈ s.files f) :
    ∃ answer s' v', step io v (.truncate c) = some (answer, v') ∧ Effect vol lost s (.truncate c) answer s' ∧
      Holds sector count vol lost s' v' := by
  obtain ⟨f, hmem⟩ := hc
  obtain ⟨pre, post, hf⟩ := List.append_of_mem hmem
  have hvol := hv.volume
  have hn := hv.wf.some_clusters
  have heoc := le_eoc hv.wf
  have hchained := hv.represents.chained f
  have hrange := hchained.range c hmem
  have hused := (hv.used c hmem).2
  rw [hf] at hchained
  have hbehind : Chained (v.fs.table sector) vol.nFatent (c :: post) :=
    ⟨hchained.linked.suffix, fun x hx => hchained.range x (List.mem_append_right pre hx)⟩
  have hsclust : ∀ g, v.sclust g = (Function.update s.files f (pre ++ [c]) g).headD 0 := by
    intro g
    rw [hv.sclust g]
    by_cases hg : g = f
    · rw [hg, Function.update_self, hf]
      exact (headD_cut pre post c).symm
    · rw [Function.update_of_ne hg]
  have hsmall := table_lt sector v.fs c
  obtain ⟨fs₁, hget, hfs₁, hk⟩ := getFat_spec h hv.coherent hv.wf' c
  rw [step]
  unfold truncateBehind
  rw [hget]
  dsimp only
  rw [if_neg (by omega)]
  obtain ⟨rfl, hend⟩ | ⟨q, post, rfl, hq, hq2, hqlt⟩ := hbehind.entry
  · have hsame : Function.update s.files f (pre ++ [c]) = s.files := by
      rw [← hf]
      exact Function.update_eq_self f s.files
    rw [if_neg (by omega), hk.volume, hvol, if_neg (Nat.not_lt.mpr hend)]
    refine ⟨_, _, _, rfl, .truncated hf, ?_⟩
    rw [hsame]
    exact hv.keeps hk hfs₁
  · have htail := hbehind.tail
    have hnodup := List.nodup_cons.mp hbehind.linked.nodup
    have hchain₁ : Chained (fs₁.table sector) fs₁.nFatent (q :: post) := by
      rw [hk.table hv.coherent.fits, hk.volume, hvol]
      exact htail
    obtain ⟨fs', hremove, hch⟩ := removeChain_behind h hfs₁ (hk.volume ▸ hv.wf') hchain₁
      (hk.volume ▸ hvol ▸ hrange) hnodup.1
    have hch' := (hk.changed hfs₁).trans hch
    rw [hk.table hv.coherent.fits, hk.lastClst, hk.freeClst, hk.volume, hvol] at hch'
    have hset : Counted (Function.update (v.fs.table sector) c vol.fsType.eoc) vol.nFatent v.fs.freeClst := by
      have hcounted := hv.counted
      unfold Counted at hcounted ⊢
      rwa [frees_set hused (eoc_ne_zero hv.wf)]
    have hcounted := hset.without hnodup.2 (by
      intro x hx
      have hxf : x ∈ s.files f := hf ▸ List.mem_append_right pre (List.mem_cons_of_mem c hx)
      have hne : x ≠ c := fun heq => hnodup.1 (heq ▸ hx)
      rw [Function.update_of_ne hne]
      exact hv.used x hxf)
    rw [if_neg (by omega), hk.volume, hvol, hq, if_pos hqlt, hremove]
    exact ⟨_, _, _, rfl, .truncated hf,
      hv.changed hch' (hv.represents.cut hv.two_le heoc hf) hcounted hsclust ⟨hv.bounded.1, hv.freed_bounded _⟩⟩

/-! ### Directories -/

theorem step_dirty (h : Works io count sector) (hv : Holds sector count vol lost s v) {lba ofs : Nat} (b : UInt8)
    (hlba : lba < count) (hout : vol.Outside lba) (hdata : vol.InData lba) :
    ∃ answer s' v', step io v (.dirty lba ofs b) = some (answer, v') ∧
      Effect vol lost s (.dirty lba ofs b) answer s' ∧ Holds sector count vol lost s' v' := by
  have hvol := hv.volume
  obtain ⟨fs₁, hmove, hwin, hfs₁, hk⟩ := moveWindow_spec h hv.coherent hlba
  have hv₁ := hv.keeps hk hfs₁
  have hvol₁ : fs₁.toVolume = vol := hv₁.volume
  have hcopy : ¬ fs₁.InCopy fs₁.winsect := by
    rw [hvol₁, hwin]
    exact hout.2.1
  have hfs₂ := hfs₁.setWin (hwin ▸ hlba) hcopy (idx ss ofs) b
  have hview : ∀ other, (fs₁.setWin (idx ss ofs) b).view sector other =
      if other = lba then Function.update (fs₁.view sector lba) (idx ss ofs) b else fs₁.view sector other := by
    intro other
    have hself : fs₁.view sector lba = fs₁.win := if_pos hwin.symm
    rw [setWin_view, hwin, hself]
  have htable : (fs₁.setWin (idx ss ofs) b).table sector = fs₁.table sector := by
    refine table_congr rfl ?_
    intro other hin
    rw [hvol₁] at hin
    rw [hview, if_neg]
    intro heq
    exact hout.1 (heq ▸ hin)
  rw [step, hmove]
  refine ⟨_, _, _, rfl, .dirtied hdata, hfs₂, hvol₁, hv.wf, htable ▸ hv₁.represents, htable ▸ hv₁.counted, hv.sclust,
    ?_, hv₁.bounded, ?_⟩
  · intro other hother hout'
    change (fs₁.setWin (idx ss ofs) b).view sector other = Function.update s.sectors lba _ other
    rw [hview]
    by_cases heq : other = lba
    · rw [heq, if_pos rfl, Function.update_self]
      exact congrArg (fun sect => Function.update sect _ b) (hv₁.sectors lba hlba hout)
    · rw [if_neg heq, Function.update_of_ne heq]
      exact hv₁.sectors other hother hout'
  · intro ht hbpb
    have hboot : vol.volbase ≠ lba := fun heq => hv.boot_sector.2.2 (heq ▸ hdata)
    have hinfo : (fs₁.setWin (idx ss ofs) b).view sector (vol.volbase + 1) = fs₁.view sector (vol.volbase + 1) := by
      rw [hview, if_neg fun heq => hout.2.2 ht heq.symm]
    change ldWord (Function.update s.sectors lba _ vol.volbase) 48 = 1 at hbpb
    rw [Function.update_of_ne hboot] at hbpb
    change fs₁.fsiFlag = 0 ∧ (fs₁.freeClst, fs₁.lastClst) =
      loadInfo ((fs₁.setWin (idx ss ofs) b).view sector (vol.volbase + 1)) ∨ fs₁.fsiFlag = 1
    rw [hinfo]
    exact hv₁.informed ht hbpb

/-! ### Syncing -/

omit [DecidableEq F] in
/-- After a sync the FSInfo sector has the count. -/
theorem Holds.flushed_info (hv : Holds sector count vol lost s v) (hf : Flushed sector count v.fs fs')
    (ht : vol.fsType = .fat32) (hbpb : ldWord (s.sectors vol.volbase) 48 = 1) : fs'.fsiFlag = 0 ∧
      (fs'.freeClst, fs'.lastClst) = loadInfo (fs'.view sector (vol.volbase + 1)) := by
  have hvol := hv.volume
  have ht' : v.fs.fsType = .fat32 := hvol ▸ ht
  rw [hf.freeClst, hf.lastClst, ← hvol]
  obtain ⟨hzero, hload⟩ | hone := hv.informed ht hbpb
  · obtain ⟨hflag, hview⟩ := hf.no_info ht' (by rw [hzero]; decide)
    refine ⟨hflag.trans hzero, ?_⟩
    rw [hview, hvol]
    exact hload
  · obtain ⟨hflag, hview⟩ := hf.info ht' hone
    refine ⟨hflag, ?_⟩
    rw [hview, loadInfo_fsInfo hv.wf.sector hv.bounded.2 hv.bounded.1]

omit [DecidableEq F] in
theorem Holds.flushed (hv : Holds sector count vol lost s v) (hf : Flushed sector count v.fs fs') :
    Holds sector count vol lost s { v with fs := fs' } := by
  have hvol := hv.volume
  have htable : fs'.table sector = v.fs.table sector := by
    refine table_congr hf.volume ?_
    intro lba hin
    apply hf.view lba (Nat.lt_of_lt_of_le hin.2 hv.coherent.fits) (not_inCopy_of_inFat hin)
    intro ht heq
    have hreserved := hv.wf'.reserved ht
    have hbase := hin.1
    omega
  refine ⟨hf.coherent, hf.volume.trans hvol, hv.wf, htable ▸ hv.represents, ?_, hv.sclust, ?_, ?_, ?_⟩
  · change Counted (fs'.table sector) vol.nFatent fs'.freeClst
    rw [htable, hf.freeClst]
    exact hv.counted
  · intro lba hlba hout
    rw [hf.view lba hlba (by rw [hvol]; exact hout.2.1) (by rw [hvol]; exact hout.2.2)]
    exact hv.sectors lba hlba hout
  · change fs'.lastClst < 2 ^ 32 ∧ fs'.freeClst < 2 ^ 32
    rw [hf.lastClst, hf.freeClst]
    exact hv.bounded
  · intro ht hbpb
    exact .inl (hv.flushed_info hf ht hbpb)

theorem step_sync (h : Works io count sector) (hv : Holds sector count vol lost s v) :
    ∃ answer s' v', step io v .sync = some (answer, v') ∧ Effect vol lost s .sync answer s' ∧
      Holds sector count vol lost s' v' := by
  obtain ⟨fs', hsync, hf⟩ := syncFs_spec h hv.coherent hv.wf'
  rw [step, hsync]
  exact ⟨_, s, _, rfl, .synced, hv.flushed hf⟩

/-- Every step does to the files what it should. -/
theorem step_holds (h : Works io count sector) (hv : Holds sector count vol lost s v) {op : Op F}
    (hop : op.Valid count vol s) : ∃ answer s' v', step io v op = some (answer, v') ∧ Effect vol lost s op answer s' ∧
      Holds sector count vol lost s' v' := by
  cases op with
  | create f => exact step_create h hv f
  | stretch clst => exact step_stretch h hv hop
  | remove f => exact step_remove h hv f
  | truncate clst => exact step_truncate h hv hop
  | dirty lba ofs b => exact step_dirty h hv b hop.1 hop.2.1 hop.2.2.1
  | sync => exact step_sync h hv

/-! ### Mounting again -/

theorem Effect.kept {op : Op F} {answer : Answer} {s' : Contents F ss} {lba : Nat}
    (h : Effect vol lost s op answer s') (hlba : ¬ vol.InData lba) : s'.sectors lba = s.sectors lba := by
  cases h with
  | @dirtied changed _ _ hdata =>
    have hne : lba ≠ changed := fun heq => hlba (heq ▸ hdata)
    exact Function.update_of_ne hne _ _
  | _ => rfl

/-- The sectors in front of the volume, its boot sector and what is behind it do not change. -/
theorem Effects.kept {trace : List (Op F × Answer)} {s' : Contents F ss} {lba : Nat}
    (h : Effects vol lost s trace s') (hlba : ¬ vol.InData lba) : s'.sectors lba = s.sectors lba := by
  induction h with
  | nil => rfl
  | cons heffect _ ih => exact ih.trans (heffect.kept hlba)

omit [DecidableEq F] in
/-- The volume that a mount makes of the disk after a sync. -/
theorem Holds.mounted (hv : Holds sector count vol lost s v) (hf : Flushed sector count v.fs fs') {fs'' : Fatfs ss D}
    (hm : MountedAs sector count fs' fs'') : Holds sector count vol lost s ⟨fs'', v.sclust⟩ ∧
      (vol.fsType = .fat32 → ldWord (s.sectors vol.volbase) 48 = 1 →
        fs''.freeClst = v.fs.freeClst ∧ fs''.lastClst = v.fs.lastClst) := by
  have hv' := hv.flushed hf
  have hvol : fs'.toVolume = vol := hv'.volume
  have hclean := hf.wflag
  have hview : ∀ lba < count, fs''.view sector lba = fs'.view sector lba := fun lba hlba =>
    (hm.view lba hlba).trans (view_of_clean hf.coherent hclean hlba).symm
  have htable : fs''.table sector = fs'.table sector :=
    table_congr hm.volume fun lba hin => hview lba (Nat.lt_of_lt_of_le hin.2 hf.coherent.fits)
  have hboot : sector fs'.disk fs'.volbase = s.sectors vol.volbase := by
    obtain ⟨hlt, hout, _⟩ := hv.boot_sector
    rw [hvol, ← view_of_clean hf.coherent hclean hlt]
    exact hv'.sectors _ hlt hout
  have hinfo : vol.fsType = .fat32 → ldWord (s.sectors vol.volbase) 48 = 1 →
      fs''.fsiFlag = 0 ∧ fs''.freeClst = v.fs.freeClst ∧ fs''.lastClst = v.fs.lastClst ∧
        (fs''.freeClst, fs''.lastClst) = loadInfo (fs''.view sector (vol.volbase + 1)) := by
    intro ht hbpb
    have hlt := (hv.info_sector ht).1
    obtain ⟨_, hload⟩ := hv.flushed_info hf ht hbpb
    obtain ⟨hflag, hloaded⟩ := hm.info (hvol ▸ ht) (hboot ▸ hbpb)
    rw [hvol, ← view_of_clean hf.coherent hclean hlt] at hloaded
    obtain ⟨hfree, hlast⟩ := Prod.mk.inj (hloaded.trans hload.symm)
    refine ⟨hflag, hfree.trans hf.freeClst, hlast.trans hf.lastClst, ?_⟩
    rw [hview _ hlt]
    exact hloaded
  have hknown : Counted (fs'.table sector) vol.nFatent fs''.freeClst ∧ fs''.lastClst < 2 ^ 32 ∧
      fs''.freeClst < 2 ^ 32 := by
    by_cases hcond : vol.fsType = .fat32 ∧ ldWord (s.sectors vol.volbase) 48 = 1
    · obtain ⟨_, hfree, hlast, _⟩ := hinfo hcond.1 hcond.2
      rw [hfree, hlast, ← hf.freeClst, ← hf.lastClst]
      exact ⟨hv'.counted, hv'.bounded⟩
    · obtain ⟨hfree, hlast⟩ := hm.no_info (by rwa [hboot, hvol])
      have hlimit := nFatent_le hv.wf
      rw [hfree, hlast]
      exact ⟨.inr (by omega), by decide, by decide⟩
  refine ⟨⟨hm.coherent, hm.volume.trans hvol, hv.wf, htable ▸ hv'.represents, htable ▸ hknown.1, hv.sclust, ?_,
    hknown.2, ?_⟩, fun ht hbpb => ⟨(hinfo ht hbpb).2.1, (hinfo ht hbpb).2.2.1⟩⟩
  · intro lba hlba hout
    exact (hview lba hlba).trans (hv'.sectors lba hlba hout)
  · intro ht hbpb
    obtain ⟨hflag, _, _, hload⟩ := hinfo ht hbpb
    exact .inl ⟨hflag, hload⟩

/-- What a mount looks for is where it was. -/
theorem Located.kept {s' : Contents F ss} {trace : List (Op F × Answer)} (hv : Holds sector count vol lost s' v)
    (h : Effects vol lost s trace s') {disk : D}
    (hdisk : ∀ lba < count, vol.Outside lba → sector disk lba = s'.sectors lba)
    (hloc : Located s.sectors (fun lba => lba < count ∧ vol.Outside lba ∧ ¬ vol.InData lba) vol.volbase) :
    Located (sector disk) (· < count) vol.volbase := by
  have hsame : ∀ lba, lba < count ∧ vol.Outside lba ∧ ¬ vol.InData lba → sector disk lba = s.sectors lba :=
    fun lba hlba => (hdisk lba hlba.1 hlba.2.1).trans (h.kept hlba.2.2)
  have hboot := hv.boot_sector
  have hfirst : vol.volbase ≠ 0 → 0 < count ∧ vol.Outside 0 ∧ ¬ vol.InData 0 := by
    intro hne
    have hbase := hv.wf.boot
    refine ⟨by omega, ⟨fun hin => ?_, fun hcopy => ?_, fun _ => by omega⟩, fun hdata => ?_⟩
    · have := hin.1
      omega
    · have := hcopy.2.1
      omega
    · have := hdata.1
      omega
  obtain ⟨hzero, heq⟩ | ⟨htwo, hne, hfound, pre, post, hparts, hpre⟩ := hloc
  · refine .inl ⟨?_, heq⟩
    rw [← heq] at hzero ⊢
    rwa [hsame _ hboot]
  · have hzero := hsame 0 (hfirst hne)
    refine .inr ⟨?_, hne, ?_, pre, post, ?_, ?_⟩
    · rwa [hzero]
    · rwa [hsame _ hboot]
    · rwa [hzero]
    · intro sect hsect
      obtain hnone | ⟨hok, hother⟩ := hpre sect hsect
      · exact .inl hnone
      · refine .inr ⟨hok.1, ?_⟩
        rwa [hsame sect hok]

omit [DecidableEq F] in
/-- A volume with an empty FAT has no files. -/
theorem holds_empty {fs : Fatfs ss D} (hfs : Coherent sector count fs) (hv : fs.Wf ss) (hfree : fs.freeClst = 0xFFFFFFFF)
    (hlast : fs.lastClst < 2 ^ 32) (hflag : fs.fsType = .fat32 → fs.fsiFlag = 1)
    (hzero : ∀ c, 2 ≤ c → c < fs.nFatent → fs.table sector c = 0) :
    Holds sector count fs.toVolume (fun _ => False) ⟨fun _ : F => [], fs.view sector⟩ ⟨fs, fun _ => 0⟩ := by
  have hlimit := nFatent_le hv
  refine ⟨hfs, rfl, hv, ⟨?_, ?_, ?_, ?_, ?_⟩, .inr ?_, fun _ => rfl, fun _ _ _ => rfl, ⟨hlast, ?_⟩,
    fun ht _ => .inr (hflag ht)⟩
  · exact fun f => ⟨rfl, fun c hc => absurd hc List.not_mem_nil⟩
  · exact fun f g c hc => absurd hc List.not_mem_nil
  · intro c hc hlt
    refine ⟨fun hne => absurd (hzero c hc hlt) hne, ?_⟩
    intro hor
    obtain ⟨f, hf⟩ | hlost := hor
    · exact absurd hf List.not_mem_nil
    · exact hlost.elim
  · exact fun f c hc => absurd hc List.not_mem_nil
  · intro c hc hlt
    rw [hzero c hc hlt]
    exact Nat.zero_ne_one
  · change fs.nFatent - 2 < fs.freeClst
    omega
  · change fs.freeClst < 2 ^ 32
    omega

end Steps

/-! ### A small volume -/

/-- The volume of that boot sector, on the RAM disk. -/
def smallVolume : Volume := ⟨.fat12, 2, 1, 126, 1, 0, 1, 4⟩

abbrev smallDisk : Drives (Nat → UInt8) → Nat → Sector ramSectorSize := fun d lba i => d.ramDisk (lba * ramSectorSize + i)

def smallFatfs : Fatfs ramSectorSize (Drives (Nat → UInt8)) :=
  ⟨smallVolume, false, 0x80, 0xFFFFFFFF, 0xFFFFFFFF, lbaSub 0 1, fun _ => 0, ⟨smallBoot, fun _ => 0⟩⟩

/-- There are no files on it. -/
def smallContents : Contents Nat ramSectorSize := ⟨fun _ => [], smallFatfs.view smallDisk⟩

/-- A file gets two clusters and what is behind the first one is given back. -/
def smallCaller : Caller Nat :=
  .call (.create 0) fun first => match first with
    | .cluster c => if 2 ≤ c then .call (.stretch c) fun _ => .call (.truncate c) fun _ => .done else .done
    | .result _ => .done

theorem small_wf : smallVolume.Wf ramSectorSize := by
  refine ⟨by decide, by decide, by decide, by decide, by decide, by decide, ?_⟩
  intro ht
  exact absurd ht (by decide)

theorem smallBoot_zero {i : Nat} (h : ramSectorSize ≤ i) : smallBoot i = 0 := by
  have hlen : 23 ≤ i := Nat.le_trans (by decide) h
  exact List.getD_eq_default _ _ hlen

theorem small_sector {lba : Nat} (h : 0 < lba) (d : Drives (Nat → UInt8)) (hd : d.ramDisk = smallBoot) :
    smallDisk d lba = fun _ => 0 := by
  funext i
  change d.ramDisk (lba * ramSectorSize + i) = 0
  rw [hd]
  exact smallBoot_zero (Nat.le_trans (Nat.le_mul_of_pos_left _ h) (Nat.le_add_right _ _))

theorem small_coherent : Coherent smallDisk sectorCount smallFatfs := by
  refine ⟨by decide, fun _ => by decide, fun _ hlt => absurd hlt (by decide), fun hf => absurd hf Bool.false_ne_true, ?_⟩
  · intro _ lba hin _
    have hpos : 0 < lba := hin.1
    rw [small_sector (Nat.add_pos_left hpos _) _ rfl, small_sector hpos _ rfl]

theorem small_view {lba : Nat} (h : 0 < lba) (hlt : lba < sectorCount) : smallFatfs.view smallDisk lba = fun _ => 0 := by
  have hlast : sectorCount < smallFatfs.winsect := by decide
  have hne : lba ≠ smallFatfs.winsect := Nat.ne_of_lt (Nat.lt_trans hlt hlast)
  rw [Fatfs.view, if_neg hne, small_sector h _ rfl]

theorem small_table (c : Nat) (hc : 2 ≤ c) (hlt : c < smallFatfs.nFatent) : smallFatfs.table smallDisk c = 0 := by
  have hbytes : smallFatfs.fatByte smallDisk = fun _ => 0 := by
    funext i
    unfold Fatfs.fatByte
    split
    · rename_i hi
      have hin : smallFatfs.InFat (smallFatfs.fatbase + i / ramSectorSize) := inFat_of_lt hi
      have hlt : smallVolume.fatbase + smallVolume.fsize < sectorCount := by decide
      have hview : smallFatfs.view smallDisk (smallFatfs.fatbase + i / ramSectorSize) = fun _ => 0 :=
        small_view (Nat.add_pos_left Nat.one_pos _) (Nat.lt_trans hin.2 hlt)
      rw [hview]
    · rfl
  rw [Fatfs.table, if_neg (by omega), hbytes]
  change (if c % 2 = 1 then 0 / 16 else 0 % 2 ^ 12) = 0
  split
  · rfl
  · rfl

theorem small_holds : Holds smallDisk sectorCount smallVolume (fun _ => False) smallContents ⟨smallFatfs, fun _ => 0⟩ :=
  holds_empty small_coherent small_wf rfl (by decide) (fun ht => absurd ht (by decide)) small_table

theorem small_boot : checkSector (smallContents.sectors 0) = 0 := by decide +kernel

theorem small_located : Located smallContents.sectors
    (fun lba => lba < sectorCount ∧ smallVolume.Outside lba ∧ ¬ smallVolume.InData lba) smallVolume.volbase :=
  .inl ⟨small_boot, rfl⟩

theorem small_mount : mountVolume (smallContents.sectors smallVolume.volbase) smallVolume.volbase =
    .ok ⟨smallVolume, 16, 3⟩ := by decide +kernel

theorem small_careful (s : Contents Nat ramSectorSize) :
    smallCaller.Careful sectorCount smallVolume (fun _ => False) s := by
  refine ⟨trivial, ?_⟩
  intro answer s₁ h₁
  have hfirst : ∀ {c : Nat}, answer = .cluster c → 2 ≤ c → ∃ f, c ∈ s₁.files f := by
    intro c hans hc
    cases h₁ with
    | first _ _ =>
      obtain rfl := Answer.cluster.inj hans
      exact ⟨0, by simp⟩
    | firstFull _ _ =>
      obtain rfl := Answer.cluster.inj hans
      omega
    | firstOld hf =>
      obtain rfl := Answer.cluster.inj hans
      exact ⟨0, by simp [hf]⟩
  cases answer with
  | result res => trivial
  | cluster c =>
    by_cases hc : 2 ≤ c
    · change Caller.Careful _ _ _ (if 2 ≤ c then _ else _) s₁
      rw [if_pos hc]
      have hmem := hfirst rfl hc
      refine ⟨hmem, ?_⟩
      intro answer₂ s₂ h₂
      refine ⟨?_, fun _ _ _ => trivial⟩
      cases h₂ with
      | next hf => exact hmem
      | @stretched f c d pre hf _ => exact ⟨f, by simp⟩
      | stretchFull hf _ => exact hmem
    · change Caller.Careful _ _ _ (if 2 ≤ c then _ else _) s₁
      rw [if_neg hc]
      trivial

/-! ## Runs -/

section Runs
variable [DecidableEq F] {sector : D → Nat → Sector ss} {count : Nat} {io : DiskIo ss D} {vol : Volume}
  {lost : Nat → Prop}

/-- Whatever FatFs does, in whatever order: every file has the clusters that it should have, in order, no cluster is
in two files, and a cluster that is in none is free again. No call is without an answer, and a cluster is refused only
when all are in use. -/
theorem run_holds (h : Works io count sector) {caller : Caller F} : ∀ {s : Contents F ss} {v : Mounted F ss D},
    Holds sector count vol lost s v → caller.Careful count vol lost s → ∃ trace s' v',
    run io v caller = some (trace, v') ∧ Effects vol lost s trace s' ∧ Holds sector count vol lost s' v' := by
  induction caller with
  | done =>
    intro s v hv _
    exact ⟨[], s, v, rfl, .nil, hv⟩
  | call op next ih =>
    intro s v hv hcareful
    obtain ⟨answer, s₁, v₁, hstep, heffect, hv₁⟩ := step_holds h hv hcareful.1
    obtain ⟨trace, s', v', hrun, heffects, hv'⟩ := ih answer hv₁ (hcareful.2 answer s₁ heffect)
    refine ⟨(op, answer) :: trace, s', v', ?_, .cons heffect heffects, hv'⟩
    rw [run, hstep]
    change (do
      let (trace, v) ← run io v₁ (next answer)
      return ((op, answer) :: trace, v)) = _
    rw [hrun]
    rfl

theorem run_holds_small : ∃ trace s' v',
    run (driveIo bytesFlash ramSectorSize 0) ⟨smallFatfs, fun _ => 0⟩ smallCaller = some (trace, v') ∧
    Effects smallVolume (fun _ => False) smallContents trace s' ∧
    Holds smallDisk sectorCount smallVolume (fun _ => False) s' v' :=
  run_holds (works_ram bytesFlash) small_holds (small_careful _)

/-- What has been synced is what a new mount finds: the same files in the same clusters, the same directories, both FATs
alike, and the count of free clusters of FAT32. -/
theorem run_mount (h : Works io count sector) {caller : Caller F} {s : Contents F ss} {v : Mounted F ss D}
    (hv : Holds sector count vol lost s v) (hcareful : caller.Careful count vol lost s) {m : Mounting}
    (hloc : Located s.sectors (fun lba => lba < count ∧ vol.Outside lba ∧ ¬ vol.InData lba) vol.volbase)
    (hmount : mountVolume (s.sectors vol.volbase) vol.volbase = .ok m) (hm : m.toVolume = vol) :
    ∃ trace s' v' fs' fs'', run io v caller = some (trace, v') ∧ Effects vol lost s trace s' ∧
      syncFs io v'.fs = (.ok, fs') ∧
      (vol.nFats = 2 → ∀ lba, vol.InFat lba → sector fs'.disk (lba + vol.fsize) = sector fs'.disk lba) ∧
      mount io fs' = .ok (m, fs'') ∧ Holds sector count vol lost s' ⟨fs'', v'.sclust⟩ ∧
      (vol.fsType = .fat32 → ldWord (s.sectors vol.volbase) 48 = 1 →
        fs''.freeClst = v'.fs.freeClst ∧ fs''.lastClst = v'.fs.lastClst) := by
  obtain ⟨trace, s', v', hrun, heffects, hv'⟩ := run_holds h hv hcareful
  obtain ⟨fs', hsync, hf⟩ := syncFs_spec h hv'.coherent hv'.wf'
  have hvs := hv'.flushed hf
  have hvol : fs'.toVolume = vol := hvs.volume
  have hdisk : ∀ lba < count, vol.Outside lba → sector fs'.disk lba = s'.sectors lba := fun lba hlba hout =>
    (view_of_clean hf.coherent hf.wflag hlba).symm.trans (hvs.sectors lba hlba hout)
  have hboot := hv'.boot_sector
  have hkept := heffects.kept hboot.2.2
  have hsector : sector fs'.disk fs'.volbase = s.sectors vol.volbase := by
    rw [hvol, hdisk _ hboot.1 hboot.2.1, hkept]
  have hloc' : Located (sector fs'.disk) (· < count) fs'.volbase := by
    rw [hvol]
    exact Located.kept hv' heffects hdisk hloc
  obtain ⟨fs'', hmounted, hma⟩ := mount_spec h hf.coherent hf.wflag hvs.wf' hloc' (m := m)
    (by rw [hsector, hvol]; exact hmount) (hm.trans hvol.symm)
  obtain ⟨hfinal, hinfo⟩ := hv'.mounted hf hma
  refine ⟨trace, s', v', fs', fs'', hrun, heffects, hsync, ?_, hmounted, hfinal, ?_⟩
  · intro htwo lba hin
    have hcopy := hf.coherent.copy
    rw [hvol] at hcopy
    exact hcopy htwo lba hin fun hf' => absurd (hf.wflag.symm.trans hf') Bool.false_ne_true
  · intro ht hbpb
    exact hinfo ht (by rw [hkept]; exact hbpb)

theorem run_mount_small : ∃ trace s' v' fs' fs'',
    run (driveIo bytesFlash ramSectorSize 0) ⟨smallFatfs, fun _ => 0⟩ smallCaller = some (trace, v') ∧
    Effects smallVolume (fun _ => False) smallContents trace s' ∧
    syncFs (driveIo bytesFlash ramSectorSize 0) v'.fs = (.ok, fs') ∧
    (smallVolume.nFats = 2 → ∀ lba, smallVolume.InFat lba →
      smallDisk fs'.disk (lba + smallVolume.fsize) = smallDisk fs'.disk lba) ∧
    mount (driveIo bytesFlash ramSectorSize 0) fs' = .ok (⟨smallVolume, 16, 3⟩, fs'') ∧
    Holds smallDisk sectorCount smallVolume (fun _ => False) s' ⟨fs'', v'.sclust⟩ ∧
    (smallVolume.fsType = .fat32 → ldWord (smallContents.sectors smallVolume.volbase) 48 = 1 →
      fs''.freeClst = v'.fs.freeClst ∧ fs''.lastClst = v'.fs.lastClst) :=
  run_mount (works_ram bytesFlash) small_holds (small_careful _) small_located small_mount rfl

end Runs

end PicoRuby.Fat
