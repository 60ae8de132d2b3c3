import Mathlib.Data.Finset.Card
import Mathlib.Order.Interval.Finset.Nat
import PicoRuby.Fat.Entry
import PicoRuby.Shared.Linked

/-!
# Cluster chains

`create_chain` looks for a free cluster behind a starting one, once around, and `remove_chain` frees the clusters of a
chain. Both go over `get_fat` and `put_fat`, so that the window moves between the sectors of the FAT all the time.
-/

namespace PicoRuby.Fat

set_option autoImplicit false

open Vfs (FResult)

/-! ## The functions -/

section Functions
variable {ss : Nat} [NeZero ss] {D : Type} (io : DiskIo ss D)

/-- The loop that looks for another fragment; an error is what `create_chain` returns. There is no value when the
rounds do not suffice. -/
def findFree (scl : Nat) : Nat → Fatfs ss D → Nat → Option (Except Nat Nat × Fatfs ss D)
  | 0, _, _ => none
  | fuel + 1, fs, ncl =>
    if ncl + 1 ≥ fs.nFatent ∧ 2 > scl then some (.error 0, fs)
    else
      let ncl := if ncl + 1 ≥ fs.nFatent then 2 else ncl + 1
      let (cs, fs) := getFat io fs ncl
      if cs = 0 then some (.ok ncl, fs)
      else if cs = 1 ∨ cs = 0xFFFFFFFF then some (.error cs, fs)
      else if ncl = scl then some (.error 0, fs)
      else findFree scl fuel fs ncl

/-- The cluster that becomes the new one. -/
def pickCluster (fs : Fatfs ss D) (clst scl : Nat) : Option (Except Nat Nat × Fatfs ss D) :=
  if scl = clst then
    let ncl := if scl + 1 ≥ fs.nFatent then 2 else scl + 1
    let (cs, fs) := getFat io fs ncl
    if cs = 1 ∨ cs = 0xFFFFFFFF then some (.error cs, fs)
    else if cs ≠ 0 then
      let scl := if fs.lastClst ≥ 2 ∧ fs.lastClst < fs.nFatent then fs.lastClst else scl
      findFree io scl fs.nFatent fs scl
    else some (.ok ncl, fs)
  else findFree io scl fs.nFatent fs scl

/-- FSInfo after a cluster has been taken. -/
def Fatfs.taken (fs : Fatfs ss D) (ncl : Nat) : Fatfs ss D :=
  { fs with
    lastClst := ncl
    freeClst := if fs.freeClst ≤ fs.nFatent - 2 then fs.freeClst - 1 else fs.freeClst
    fsiFlag := fs.fsiFlag ||| 1 }

/-- FSInfo after a cluster has been freed. -/
def Fatfs.freed (fs : Fatfs ss D) : Fatfs ss D :=
  if fs.freeClst < fs.nFatent - 2 then { fs with freeClst := fs.freeClst + 1, fsiFlag := fs.fsiFlag ||| 1 } else fs

/-- The new cluster ends the chain and is linked from the previous one. -/
def linkCluster (fs : Fatfs ss D) (clst ncl : Nat) : Nat × Fatfs ss D :=
  let (res, fs) := putFat io fs ncl 0xFFFFFFFF
  let (res, fs) := if res = .ok ∧ clst ≠ 0 then putFat io fs clst ncl else (res, fs)
  if res = .ok then (ncl, fs.taken ncl) else (if res = .diskErr then 0xFFFFFFFF else 1, fs)

/-- Where the search starts, or what `create_chain` returns at once. -/
def startCluster (fs : Fatfs ss D) (clst : Nat) : Except Nat Nat × Fatfs ss D :=
  if clst = 0 then (.ok (if fs.lastClst = 0 ∨ fs.lastClst ≥ fs.nFatent then 1 else fs.lastClst), fs)
  else
    let (cs, fs) := getFat io fs clst
    if cs < 2 then (.error 1, fs)
    else if cs = 0xFFFFFFFF ∨ cs < fs.nFatent then (.error cs, fs)
    else (.ok clst, fs)

/-- `create_chain`: 0 for no free cluster, 1 and `0xFFFFFFFF` for errors, or the cluster. -/
def createChain (fs : Fatfs ss D) (clst : Nat) : Option (Nat × Fatfs ss D) :=
  match startCluster io fs clst with
  | (.error cs, fs) => some (cs, fs)
  | (.ok scl, fs) =>
    if fs.freeClst = 0 then some (0, fs)
    else match pickCluster io fs clst scl with
      | none => none
      | some (.error cs, fs) => some (cs, fs)
      | some (.ok ncl, fs) => some (linkCluster io fs clst ncl)

/-- The loop of `remove_chain`. There is no value when the rounds do not suffice. -/
def removeLoop : Nat → Fatfs ss D → Nat → Option (FResult × Fatfs ss D)
  | 0, _, _ => none
  | fuel + 1, fs, clst =>
    let (nxt, fs) := getFat io fs clst
    if nxt = 0 then some (.ok, fs)
    else if nxt = 1 then some (.intErr, fs)
    else if nxt = 0xFFFFFFFF then some (.diskErr, fs)
    else match putFat io fs clst 0 with
      | (.ok, fs) => if nxt < fs.nFatent then removeLoop fuel fs.freed nxt else some (.ok, fs.freed)
      | (res, fs) => some (res, fs)

def removeChain (fs : Fatfs ss D) (clst pclst : Nat) : Option (FResult × Fatfs ss D) :=
  if clst < 2 ∨ clst ≥ fs.nFatent then some (.intErr, fs)
  else
    let (res, fs) := if pclst ≠ 0 then putFat io fs pclst 0xFFFFFFFF else (.ok, fs)
    if res ≠ .ok then some (res, fs) else removeLoop io fs.nFatent fs clst

end Functions

/-! ## What the functions do to the table -/

section Table
variable {ss : Nat} [NeZero ss] {D : Type} (sector : D → Nat → Sector ss) (count : Nat)

/-- The table, the suggested cluster and the count of free clusters have become these, with the flag of FSInfo when the
last two are others, and what is outside the FATs has not changed. -/
structure Changed (fs fs' : Fatfs ss D) (t : Nat → Nat) (last free : Nat) : Prop where
  coherent : Coherent sector count fs'
  volume : fs'.toVolume = fs.toVolume
  table : fs'.table sector = t
  lastClst : fs'.lastClst = last
  freeClst : fs'.freeClst = free
  fsiFlag : fs'.fsiFlag = fs.fsiFlag ∧ last = fs.lastClst ∧ free = fs.freeClst ∨ fs'.fsiFlag = fs.fsiFlag ||| 1
  others : ∀ lba < count, ¬ fs.InFat lba → ¬ fs.InCopy lba → fs'.view sector lba = fs.view sector lba

/-- What the search has come to. It has looked at the clusters in `P`. -/
structure Searched (fs : Fatfs ss D) (P : Nat → Prop) (r : Except Nat Nat) (fs' : Fatfs ss D) : Prop where
  coherent : Coherent sector count fs'
  keeps : Keeps sector count fs fs'
  result : (∃ c, r = .ok c ∧ 2 ≤ c ∧ c < fs.nFatent ∧ fs.table sector c = 0) ∨
    r = .error 0 ∧ ∀ c, P c → fs.table sector c ≠ 0

/-- The table with a new cluster behind `clst`, or at the start of a chain. -/
def linkTo (t : Nat → Nat) (eoc clst ncl : Nat) : Nat → Nat :=
  if clst = 0 then Function.update t ncl eoc else Function.update (Function.update t ncl eoc) clst ncl

/-- The entry that ends a chain. -/
def FsType.eoc (t : FsType) : Nat := 0xFFFFFFFF % t.size

/-- The count of free clusters when one has been taken. -/
def countTaken (n free : Nat) : Nat := if free ≤ n - 2 then free - 1 else free

/-- The count of free clusters when one has been freed. -/
def countFreed (n free : Nat) : Nat := if free < n - 2 then free + 1 else free

/-- What `create_chain` comes to where a chain ends. -/
inductive Created (fs : Fatfs ss D) (clst : Nat) : Nat → Fatfs ss D → Prop
  | full {fs' : Fatfs ss D} : Coherent sector count fs' → Keeps sector count fs fs' →
    (fs.freeClst = 0 ∨ ∀ c, 2 ≤ c ∧ c < fs.nFatent → fs.table sector c ≠ 0) → Created fs clst 0 fs'
  | new {ncl : Nat} {fs' : Fatfs ss D} : 2 ≤ ncl → ncl < fs.nFatent → fs.table sector ncl = 0 →
    Changed sector count fs fs' (linkTo (fs.table sector) fs.fsType.eoc clst ncl) ncl
      (countTaken fs.nFatent fs.freeClst) → Created fs clst ncl fs'

/-- The cluster behind a cluster. -/
def next (t : Nat → Nat) (n c : Nat) : Option Nat := if t c < n then some (t c) else none

/-- The table without the clusters of a chain. -/
def without (t : Nat → Nat) (l : List Nat) (c : Nat) : Nat := if c ∈ l then 0 else t c

/-- No entry is one of those that stand for errors. -/
def Sane (fs : Fatfs ss D) : Prop := ∀ c, 2 ≤ c → c < fs.nFatent → fs.table sector c ≠ 1

variable {sector count} {io : DiskIo ss D} {fs fs' fs'' : Fatfs ss D} {t t' : Nat → Nat} {last last' free free' c : Nat}

theorem Keeps.changed (h : Keeps sector count fs fs') (hfs' : Coherent sector count fs') :
    Changed sector count fs fs' (fs.table sector) fs.lastClst fs.freeClst := by
  have hfits := hfs'.fits
  rw [h.volume] at hfits
  exact ⟨hfs', h.volume, h.table hfits, h.lastClst, h.freeClst, .inl ⟨h.fsiFlag, rfl, rfl⟩,
    fun lba hlba _ hcopy => h.view lba hlba hcopy⟩

theorem or_one_or_one (x : UInt8) : x ||| 1 ||| 1 = x ||| 1 := by
  rw [UInt8.or_assoc]
  rfl

theorem Changed.trans (h : Changed sector count fs fs' t last free)
    (h' : Changed sector count fs' fs'' t' last' free') : Changed sector count fs fs'' t' last' free' := by
  refine ⟨h'.coherent, h'.volume.trans h.volume, h'.table, h'.lastClst, h'.freeClst, ?_, ?_⟩
  · obtain ⟨hflag, hlast, hfree⟩ | hflag := h.fsiFlag
    · have hnext := h'.fsiFlag
      rwa [hflag, h.lastClst, h.freeClst, hlast, hfree] at hnext
    · obtain ⟨hflag', _, _⟩ | hflag' := h'.fsiFlag
      · exact .inr (hflag'.trans hflag)
      · refine .inr ?_
        rw [hflag', hflag, or_one_or_one]
  intro lba hlba hfat hcopy
  rw [h'.others lba hlba (by rwa [h.volume]) (by rwa [h.volume]), h.others lba hlba hfat hcopy]

/-- An entry is less than the error that the disk stands for. -/
theorem entry_lt (t : FsType) (b : Nat → UInt8) (c : Nat) : t.entry b c < t.size := by
  have hword : ∀ i, word b i < 2 ^ 16 := by
    intro i
    have hlow := (b i).toNat_lt
    have hhigh := (b (i + 1)).toNat_lt
    unfold word
    omega
  cases t with
  | fat12 =>
    have hlt := hword (c + c / 2)
    change (if c % 2 = 1 then _ else _) < 2 ^ 12
    split
    · omega
    · exact Nat.mod_lt _ (by decide)
  | fat16 => exact hword _
  | fat32 => exact Nat.mod_lt _ (by decide)

theorem size_le (t : FsType) : t.size ≤ 2 ^ 28 := by
  cases t with
  | fat12 => decide
  | fat16 => decide
  | fat32 => exact Nat.le_refl _

theorem table_lt (sector : D → Nat → Sector ss) (fs : Fatfs ss D) (c : Nat) : fs.table sector c < 2 ^ 28 := by
  unfold Fatfs.table
  split
  · decide
  · exact Nat.lt_of_lt_of_le (entry_lt _ _ _) (size_le _)

theorem table_out (h : ¬ (2 ≤ c ∧ c < fs.nFatent)) : fs.table sector c = 1 := if_pos (by omega)

theorem putFat_changed (h : Works io count sector) (hfs : Coherent sector count fs) (hv : fs.Wf ss) (hc : 2 ≤ c)
    (hlt : c < fs.nFatent) (val : Nat) : ∃ fs', putFat io fs c val = (.ok, fs') ∧
      Changed sector count fs fs' (Function.update (fs.table sector) c (val % fs.fsType.size)) fs.lastClst fs.freeClst := by
  obtain ⟨fs', hput, hw⟩ := putFat_spec h hfs hv hc hlt val
  refine ⟨fs', hput, hw.coherent, hw.volume, ?_, hw.lastClst, hw.freeClst, .inl ⟨hw.fsiFlag, rfl, rfl⟩, hw.others⟩
  funext c'
  by_cases hin : 2 ≤ c' ∧ c' < fs.nFatent
  · rw [hw.table hin.1 hin.2, Function.update_apply]
  · have hne : c' ≠ c := fun heq => hin (heq ▸ ⟨hc, hlt⟩)
    rw [Function.update_of_ne hne, table_out hin, table_out (by rwa [hw.volume])]

/-! ### The search -/

theorem Searched.mono {P Q : Nat → Prop} {r : Except Nat Nat} (hk : Keeps sector count fs fs')
    (hfits : fs.fatbase + fs.fsize ≤ count) (h : Searched sector count fs' Q r fs'')
    (hP : ∀ c, P c → Q c ∨ fs.table sector c ≠ 0) : Searched sector count fs P r fs'' := by
  refine ⟨h.coherent, hk.trans h.keeps, ?_⟩
  have hres := h.result
  rw [hk.table hfits, hk.volume] at hres
  obtain hfound | ⟨hr, hnone⟩ := hres
  · exact .inl hfound
  · refine .inr ⟨hr, ?_⟩
    intro c hc
    exact (hP c hc).elim (hnone c) id

/-- A round that looks at the cluster `new`. -/
theorem findFree_round (h : Works io count sector) (hfs : Coherent sector count fs) (hv : fs.Wf ss)
    (hs : Sane sector fs) (scl fuel : Nat) {ncl new : Nat}
    (hnew : (if ncl + 1 ≥ fs.nFatent then 2 else ncl + 1) = new)
    (hstart : ¬ (ncl + 1 ≥ fs.nFatent ∧ 2 > scl)) (hnew2 : 2 ≤ new) (hlt : new < fs.nFatent) :
    ∃ fs', Coherent sector count fs' ∧ Keeps sector count fs fs' ∧ findFree io scl (fuel + 1) fs ncl =
      if fs.table sector new = 0 then some (.ok new, fs') else if new = scl then some (.error 0, fs')
      else findFree io scl fuel fs' new := by
  obtain ⟨fs', hget, hfs', hk⟩ := getFat_spec h hfs hv new
  refine ⟨fs', hfs', hk, ?_⟩
  have hsmall := table_lt sector fs new
  rw [findFree, if_neg hstart, hnew]
  dsimp only
  rw [hget]
  dsimp only
  split
  · rfl
  · rw [if_neg]
    intro herr
    obtain hone | hdisk := herr
    · exact hs new hnew2 hlt hone
    · omega

theorem Keeps.sane (hk : Keeps sector count fs fs') (hfits : fs.fatbase + fs.fsize ≤ count) (hs : Sane sector fs) :
    Sane sector fs' := by
  unfold Sane
  rw [hk.table hfits, hk.volume]
  exact hs

theorem Searched.found {P : Nat → Prop} (hfs' : Coherent sector count fs') (hk : Keeps sector count fs fs')
    (hc : 2 ≤ c) (hlt : c < fs.nFatent) (hfree : fs.table sector c = 0) :
    Searched sector count fs P (.ok c) fs' := ⟨hfs', hk, .inl ⟨c, rfl, hc, hlt, hfree⟩⟩

/-- The search after it has started again from the first cluster. -/
theorem findFree_wrapped (h : Works io count sector) (scl k : Nat) : ∀ {fs : Fatfs ss D} {ncl fuel : Nat},
    Coherent sector count fs → fs.Wf ss → Sane sector fs → scl < fs.nFatent → 1 ≤ ncl → ncl + k + 1 = scl →
    k < fuel → ∃ r fs', findFree io scl fuel fs ncl = some (r, fs') ∧
      Searched sector count fs (fun c => ncl < c ∧ c ≤ scl) r fs' := by
  induction k with
  | zero =>
    intro fs ncl fuel hfs hv hs hscl hncl hk hfuel
    obtain ⟨fuel, rfl⟩ := Nat.exists_eq_succ_of_ne_zero (Nat.ne_of_gt hfuel)
    obtain ⟨fs', hfs', hkeeps, hround⟩ := findFree_round h hfs hv hs scl fuel
      (if_neg (by omega)) (by omega) (by omega : 2 ≤ ncl + 1) (by omega)
    rw [hround]
    split
    · rename_i hfree
      exact ⟨_, _, rfl, .found hfs' hkeeps (by omega) (by omega) hfree⟩
    · rename_i hused
      refine ⟨_, _, rfl, hfs', hkeeps, .inr ⟨rfl, ?_⟩⟩
      intro c hc
      rwa [(by omega : c = ncl + 1)]
  | succ k ih =>
    intro fs ncl fuel hfs hv hs hscl hncl hk hfuel
    obtain ⟨fuel, rfl⟩ := Nat.exists_eq_succ_of_ne_zero (Nat.ne_of_gt (Nat.lt_of_le_of_lt (Nat.zero_le _) hfuel))
    obtain ⟨fs', hfs', hkeeps, hround⟩ := findFree_round h hfs hv hs scl fuel
      (if_neg (by omega)) (by omega) (by omega : 2 ≤ ncl + 1) (by omega)
    rw [hround]
    split
    · rename_i hfree
      exact ⟨_, _, rfl, .found hfs' hkeeps (by omega) (by omega) hfree⟩
    · rename_i hused
      rw [if_neg (by omega)]
      obtain ⟨r, fs'', hrest, hsearched⟩ := ih hfs' (hkeeps.volume ▸ hv) (hkeeps.sane hfs.fits hs)
        (hkeeps.volume ▸ hscl) (by omega : 1 ≤ ncl + 1) (by omega) (by omega : k < fuel)
      refine ⟨r, fs'', hrest, hsearched.mono hkeeps hfs.fits ?_⟩
      intro c hc
      by_cases heq : c = ncl + 1
      · exact .inr (heq ▸ hused)
      · exact .inl ⟨by omega, hc.2⟩

/-- At the last cluster the search starts again from the first one. -/
theorem findFree_last {scl fuel ncl : Nat} (hlast : ncl + 1 = fs.nFatent) (hscl : 2 ≤ scl) (hn : 2 < fs.nFatent) :
    findFree io scl (fuel + 1) fs ncl = findFree io scl (fuel + 1) fs 1 := by
  have hgo : ¬ (ncl + 1 ≥ fs.nFatent ∧ 2 > scl) := by omega
  have hgo' : ¬ (1 + 1 ≥ fs.nFatent ∧ 2 > scl) := by omega
  have hnew : ncl + 1 ≥ fs.nFatent := by omega
  have hnew' : ¬ 1 + 1 ≥ fs.nFatent := by omega
  rw [findFree, findFree, if_neg hgo, if_neg hgo', if_pos hnew, if_neg hnew']

/-- The search goes once around. -/
theorem findFree_spec (h : Works io count sector) {scl : Nat} (k : Nat) : ∀ {fs : Fatfs ss D} {ncl fuel : Nat},
    Coherent sector count fs → fs.Wf ss → Sane sector fs → 1 ≤ scl → scl ≤ ncl → ncl + k + 1 = fs.nFatent →
    k + scl ≤ fuel → ∃ r fs', findFree io scl fuel fs ncl = some (r, fs') ∧
      Searched sector count fs (fun c => ncl < c ∧ c < fs.nFatent ∨ 2 ≤ c ∧ c ≤ scl) r fs' := by
  induction k with
  | zero =>
    intro fs ncl fuel hfs hv hs hscl hncl hk hfuel
    obtain ⟨fuel, rfl⟩ := Nat.exists_eq_succ_of_ne_zero (by omega : fuel ≠ 0)
    have hn := hv.some_clusters
    by_cases hone : scl = 1
    · rw [findFree, if_pos (by omega)]
      refine ⟨_, _, rfl, hfs, .refl fs, .inr ⟨rfl, ?_⟩⟩
      intro c hc
      omega
    · rw [findFree_last (by omega) (by omega) hn]
      obtain ⟨r, fs', hrest, hsearched⟩ := findFree_wrapped h scl (scl - 2) hfs hv hs (by omega)
        (Nat.le_refl 1) (by omega) (by omega : scl - 2 < fuel + 1)
      refine ⟨r, fs', hrest, hsearched.mono (.refl fs) hfs.fits ?_⟩
      intro c hc
      exact .inl (by omega)
  | succ k ih =>
    intro fs ncl fuel hfs hv hs hscl hncl hk hfuel
    obtain ⟨fuel, rfl⟩ := Nat.exists_eq_succ_of_ne_zero (by omega : fuel ≠ 0)
    obtain ⟨fs', hfs', hkeeps, hround⟩ := findFree_round h hfs hv hs scl fuel
      (if_neg (by omega)) (by omega) (by omega : 2 ≤ ncl + 1) (by omega)
    rw [hround]
    split
    · rename_i hfree
      exact ⟨_, _, rfl, .found hfs' hkeeps (by omega) (by omega) hfree⟩
    · rename_i hused
      rw [if_neg (by omega)]
      have hend : ncl + 1 + k + 1 = fs'.nFatent := by
        rw [hkeeps.volume]
        omega
      obtain ⟨r, fs'', hrest, hsearched⟩ := ih hfs' (hkeeps.volume ▸ hv) (hkeeps.sane hfs.fits hs) hscl
        (by omega : scl ≤ ncl + 1) hend (by omega : k + scl ≤ fuel)
      rw [hkeeps.volume] at hsearched
      refine ⟨r, fs'', hrest, hsearched.mono hkeeps hfs.fits ?_⟩
      intro c hc
      by_cases heq : c = ncl + 1
      · exact .inr (heq ▸ hused)
      · exact .inl (by omega)

theorem findFree_all (h : Works io count sector) (hfs : Coherent sector count fs) (hv : fs.Wf ss)
    (hs : Sane sector fs) {scl : Nat} (hscl : 1 ≤ scl) (hlt : scl < fs.nFatent) :
    ∃ r fs', findFree io scl fs.nFatent fs scl = some (r, fs') ∧
      Searched sector count fs (fun c => 2 ≤ c ∧ c < fs.nFatent) r fs' := by
  obtain ⟨r, fs', hfind, hsearched⟩ := findFree_spec h (fs.nFatent - 1 - scl) hfs hv hs hscl (Nat.le_refl scl)
    (by omega) (by omega : fs.nFatent - 1 - scl + scl ≤ fs.nFatent)
  refine ⟨r, fs', hfind, hsearched.mono (.refl fs) hfs.fits ?_⟩
  intro c hc
  exact .inl (by omega)

/-- The new cluster is a free one, and there is one when any is free. -/
theorem pickCluster_spec (h : Works io count sector) (hfs : Coherent sector count fs) (hv : fs.Wf ss)
    (hs : Sane sector fs) (clst : Nat) {scl : Nat} (hscl : 1 ≤ scl) (hlt : scl < fs.nFatent) :
    ∃ r fs', pickCluster io fs clst scl = some (r, fs') ∧
      Searched sector count fs (fun c => 2 ≤ c ∧ c < fs.nFatent) r fs' := by
  unfold pickCluster
  by_cases hclst : scl = clst
  · rw [if_pos hclst]
    have hn := hv.some_clusters
    obtain ⟨ncl, hncl⟩ : ∃ ncl, (if scl + 1 ≥ fs.nFatent then 2 else scl + 1) = ncl := ⟨_, rfl⟩
    have hin : 2 ≤ ncl ∧ ncl < fs.nFatent := by
      rw [← hncl]
      split
      · omega
      · omega
    have hsmall := table_lt sector fs ncl
    have hsane := hs ncl hin.1 hin.2
    obtain ⟨fs₁, hget, hfs₁, hk⟩ := getFat_spec h hfs hv ncl
    rw [hncl]
    dsimp only
    rw [hget]
    dsimp only
    rw [if_neg (by omega)]
    split
    · have hlast : ∃ scl', (if fs₁.lastClst ≥ 2 ∧ fs₁.lastClst < fs₁.nFatent then fs₁.lastClst else scl) = scl' ∧
          1 ≤ scl' ∧ scl' < fs₁.nFatent := by
        refine ⟨_, rfl, ?_⟩
        rw [hk.volume]
        split
        · omega
        · omega
      obtain ⟨scl', hscl', hone, hlt'⟩ := hlast
      obtain ⟨r, fs', hfind, hsearched⟩ := findFree_all h hfs₁ (hk.volume ▸ hv) (hk.sane hfs.fits hs) hone hlt'
      rw [hscl']
      rw [hk.volume] at hsearched
      exact ⟨r, fs', hfind, hsearched.mono hk hfs.fits fun c hc => .inl hc⟩
    · rename_i hfree
      exact ⟨_, _, rfl, .found hfs₁ hk hin.1 hin.2 (not_not.mp hfree)⟩
  · rw [if_neg hclst]
    exact findFree_all h hfs hv hs hscl hlt

/-! ### Taking a cluster -/

omit [NeZero ss] in
theorem Coherent.taken (h : Coherent sector count fs) (ncl : Nat) : Coherent sector count (fs.taken ncl) :=
  ⟨h.fits, h.fits_copy, h.clean, h.dirty, h.copy⟩

omit [NeZero ss] in
theorem lt_size (hv : fs.Wf ss) (hlt : c < fs.nFatent) : c < fs.fsType.size := by
  refine Nat.lt_of_lt_of_le hlt (Nat.le_trans hv.limit ?_)
  cases fs.fsType with
  | fat12 => decide
  | fat16 => decide
  | fat32 => decide

theorem linkCluster_spec (h : Works io count sector) (hfs : Coherent sector count fs) (hv : fs.Wf ss)
    {clst ncl : Nat} (hncl : 2 ≤ ncl) (hlt : ncl < fs.nFatent) (hclst : clst = 0 ∨ 2 ≤ clst ∧ clst < fs.nFatent) :
    ∃ fs', linkCluster io fs clst ncl = (ncl, fs') ∧
      Changed sector count fs fs' (linkTo (fs.table sector) fs.fsType.eoc clst ncl) ncl
        (countTaken fs.nFatent fs.freeClst) := by
  obtain ⟨fs₁, hput, hch⟩ := putFat_changed h hfs hv hncl hlt 0xFFFFFFFF
  have htaken : ∀ {fs' : Fatfs ss D} {t : Nat → Nat}, Changed sector count fs fs' t fs.lastClst fs.freeClst →
      Changed sector count fs (fs'.taken ncl) t ncl (countTaken fs.nFatent fs.freeClst) := by
    intro fs' t hch'
    refine ⟨hch'.coherent.taken ncl, hch'.volume, hch'.table, rfl, ?_, .inr ?_, hch'.others⟩
    · rw [← hch'.freeClst, ← hch'.volume]
      rfl
    · obtain ⟨hflag, _, _⟩ | hflag := hch'.fsiFlag
      · exact congrArg (· ||| 1) hflag
      · exact (congrArg (· ||| 1) hflag).trans (or_one_or_one _)
  unfold linkCluster linkTo
  dsimp only
  rw [hput]
  dsimp only
  obtain hzero | ⟨htwo, hlt'⟩ := hclst
  · have hlast : ¬ (FResult.ok = FResult.ok ∧ clst ≠ 0) := fun hboth => hboth.2 hzero
    rw [if_neg hlast, if_pos rfl, if_pos hzero]
    exact ⟨_, rfl, htaken hch⟩
  · have hne : clst ≠ 0 := by omega
    obtain ⟨fs₂, hput₂, hch₂⟩ := putFat_changed h hch.coherent (hch.volume ▸ hv) htwo (hch.volume ▸ hlt') ncl
    have hboth : FResult.ok = FResult.ok ∧ clst ≠ 0 := ⟨rfl, hne⟩
    rw [if_pos hboth, hput₂, if_pos rfl, if_neg hne]
    rw [hch.table, hch.volume, hch.lastClst, hch.freeClst, Nat.mod_eq_of_lt (lt_size hv hlt)] at hch₂
    exact ⟨_, rfl, htaken (hch.trans hch₂)⟩

theorem startCluster_end (h : Works io count sector) (hfs : Coherent sector count fs) (hv : fs.Wf ss) {clst : Nat}
    (hclst : clst = 0 ∨ 2 ≤ clst ∧ clst < fs.nFatent ∧ fs.nFatent ≤ fs.table sector clst) :
    ∃ scl fs', startCluster io fs clst = (.ok scl, fs') ∧ Coherent sector count fs' ∧ Keeps sector count fs fs' ∧
      1 ≤ scl ∧ scl < fs.nFatent := by
  have hn := hv.some_clusters
  unfold startCluster
  obtain hzero | ⟨htwo, hlt, hend⟩ := hclst
  · rw [if_pos hzero]
    refine ⟨_, fs, rfl, hfs, .refl fs, ?_⟩
    split
    · omega
    · omega
  · have hsmall := table_lt sector fs clst
    obtain ⟨fs', hget, hfs', hk⟩ := getFat_spec h hfs hv clst
    rw [if_neg (by omega), hget]
    dsimp only
    rw [if_neg (by omega), hk.volume, if_neg (by omega)]
    exact ⟨clst, fs', rfl, hfs', hk, by omega, hlt⟩

/-- `create_chain` takes a free cluster, unless there is none. -/
theorem createChain_end (h : Works io count sector) (hfs : Coherent sector count fs) (hv : fs.Wf ss)
    (hs : Sane sector fs) {clst : Nat}
    (hclst : clst = 0 ∨ 2 ≤ clst ∧ clst < fs.nFatent ∧ fs.nFatent ≤ fs.table sector clst) :
    ∃ r fs', createChain io fs clst = some (r, fs') ∧ Created sector count fs clst r fs' := by
  have hin : clst = 0 ∨ 2 ≤ clst ∧ clst < fs.nFatent := hclst.imp_right fun hc => ⟨hc.1, hc.2.1⟩
  obtain ⟨scl, fs₁, hstart, hfs₁, hk₁, hscl, hlt⟩ := startCluster_end h hfs hv hclst
  unfold createChain
  rw [hstart]
  dsimp only
  rw [hk₁.freeClst]
  by_cases hzero : fs.freeClst = 0
  · rw [if_pos hzero]
    exact ⟨0, fs₁, rfl, .full hfs₁ hk₁ (.inl hzero)⟩
  · obtain ⟨r, fs₂, hpick, hsearched⟩ := pickCluster_spec h hfs₁ (hk₁.volume ▸ hv)
      (hk₁.sane hfs.fits hs) clst hscl (hk₁.volume ▸ hlt)
    have hk := hk₁.trans hsearched.keeps
    have hres := hsearched.result
    rw [hk₁.table hfs.fits, hk₁.volume] at hres
    rw [if_neg hzero, hpick]
    obtain ⟨ncl, rfl, htwo, hncl, hfree⟩ | ⟨rfl, hnone⟩ := hres
    · obtain ⟨fs', hlink, hch⟩ := linkCluster_spec h hsearched.coherent (hk.volume ▸ hv) htwo (hk.volume ▸ hncl)
        (hk.volume ▸ hin)
      refine ⟨ncl, fs', congrArg some hlink, .new htwo hncl hfree ((hk.changed hsearched.coherent).trans ?_)⟩
      rwa [hk.table hfs.fits, hk.volume, hk.freeClst] at hch
    · exact ⟨0, fs₂, rfl, .full hsearched.coherent hk (.inr hnone)⟩

/-- `create_chain` goes to the next cluster where there is one. -/
theorem createChain_next (h : Works io count sector) (hfs : Coherent sector count fs) (hv : fs.Wf ss) {clst : Nat}
    (hclst : clst ≠ 0) (htwo : 2 ≤ fs.table sector clst) (hlt : fs.table sector clst < fs.nFatent) :
    ∃ fs', createChain io fs clst = some (fs.table sector clst, fs') ∧ Coherent sector count fs' ∧
      Keeps sector count fs fs' := by
  obtain ⟨fs', hget, hfs', hk⟩ := getFat_spec h hfs hv clst
  have hstart : startCluster io fs clst = (.error (fs.table sector clst), fs') := by
    unfold startCluster
    rw [if_neg hclst, hget]
    dsimp only
    rw [if_neg (by omega), if_pos (.inr (hk.volume ▸ hlt))]
  refine ⟨fs', ?_, hfs', hk⟩
  unfold createChain
  rw [hstart]

/-! ### Freeing a chain -/

theorem next_update (t : Nat → Nat) (n c val : Nat) : next (Function.update t c val) n =
    Function.update (next t n) c (if val < n then some val else none) := by
  funext x
  unfold next
  by_cases hx : x = c
  · rw [hx, Function.update_self, Function.update_self]
  · rw [Function.update_of_ne hx, Function.update_of_ne hx]

theorem without_cons (t : Nat → Nat) (c : Nat) (l : List Nat) (h : c ∉ l) :
    without (Function.update t c 0) l = without t (c :: l) := by
  funext x
  unfold without
  by_cases hx : x = c
  · rw [hx, if_neg h, if_pos List.mem_cons_self, Function.update_self]
  · rw [Function.update_of_ne hx]
    by_cases hmem : x ∈ l
    · rw [if_pos hmem, if_pos (List.mem_cons_of_mem c hmem)]
    · rw [if_neg hmem, if_neg (by simp [hx, hmem])]

theorem Changed.freed (h : Changed sector count fs fs' t last free') :
    Changed sector count fs fs'.freed t last (countFreed fs.nFatent free') := by
  have hfree : fs'.freeClst = free' := h.freeClst
  have hn : fs'.nFatent = fs.nFatent := congrArg Volume.nFatent h.volume
  unfold Fatfs.freed countFreed
  rw [hn, hfree]
  split
  · refine ⟨⟨h.coherent.fits, h.coherent.fits_copy, h.coherent.clean, h.coherent.dirty, h.coherent.copy⟩, h.volume,
      h.table, h.lastClst, ?_, .inr ?_, h.others⟩
    · rw [← hfree]
    · obtain ⟨hflag, _, _⟩ | hflag := h.fsiFlag
      · exact congrArg (· ||| 1) hflag
      · exact (congrArg (· ||| 1) hflag).trans (or_one_or_one _)
  · exact h

/-- A chain in the FAT. -/
structure Chained (t : Nat → Nat) (n : Nat) (l : List Nat) : Prop where
  linked : Shared.Linked (next t n) l.head? l
  range : ∀ c ∈ l, 2 ≤ c ∧ c < n

theorem Chained.tail {n : Nat} {l : List Nat} (h : Chained t n (c :: l)) : Chained t n l := by
  refine ⟨?_, fun x hx => h.range x (List.mem_cons_of_mem c hx)⟩
  have hlinked : Shared.Linked (next t n) (some c) ([c] ++ l) := h.linked
  exact hlinked.suffix

/-- The entry of the first cluster of a chain. -/
theorem Chained.entry {n : Nat} {l : List Nat} (h : Chained t n (c :: l)) :
    (l = [] ∧ n ≤ t c) ∨ ∃ d l', l = d :: l' ∧ t c = d ∧ 2 ≤ d ∧ d < n := by
  have hnext := h.linked.2.head_eq
  unfold next at hnext
  cases l with
  | nil =>
    refine .inl ⟨rfl, ?_⟩
    by_contra hlt
    rw [if_pos (Nat.lt_of_not_le hlt)] at hnext
    exact absurd hnext (Option.some_ne_none _)
  | cons d l' =>
    have hd := h.range d (List.mem_cons_of_mem c List.mem_cons_self)
    refine .inr ⟨d, l', rfl, ?_, hd⟩
    split at hnext
    · exact Option.some.inj hnext
    · exact absurd hnext.symm (Option.some_ne_none d)

/-- A round of the loop. -/
theorem removeLoop_round (h : Works io count sector) (hfs : Coherent sector count fs) (hv : fs.Wf ss) {l : List Nat}
    (hl : Chained (fs.table sector) fs.nFatent (c :: l)) (fuel : Nat) :
    ∃ fs', Changed sector count fs fs' (Function.update (fs.table sector) c 0) fs.lastClst
        (countFreed fs.nFatent fs.freeClst) ∧ removeLoop io (fuel + 1) fs c =
      if fs.table sector c < fs.nFatent then removeLoop io fuel fs' (fs.table sector c) else some (.ok, fs') := by
  have hn := hv.some_clusters
  have hsmall := table_lt sector fs c
  obtain ⟨htwo, hlt⟩ := hl.range c List.mem_cons_self
  have hused : 2 ≤ fs.table sector c := by
    obtain ⟨_, hend⟩ | ⟨d, _, _, hd, hd2, _⟩ := hl.entry
    · omega
    · omega
  obtain ⟨fs₁, hget, hfs₁, hk⟩ := getFat_spec h hfs hv c
  obtain ⟨fs₂, hput, hch⟩ := putFat_changed h hfs₁ (hk.volume ▸ hv) htwo (hk.volume ▸ hlt) 0
  rw [hk.table hfs.fits, Nat.zero_mod, hk.lastClst, hk.freeClst] at hch
  have hch' := (hk.changed hfs₁).trans hch
  refine ⟨fs₂.freed, hch'.freed, ?_⟩
  rw [removeLoop, hget]
  dsimp only
  rw [if_neg (by omega), if_neg (by omega), if_neg (by omega), hput]
  dsimp only
  rw [hch'.volume]

/-- The loop frees the clusters of a chain, one after the other. -/
theorem removeLoop_spec (h : Works io count sector) (l : List Nat) : ∀ {fs : Fatfs ss D} {c fuel : Nat},
    Coherent sector count fs → fs.Wf ss → Chained (fs.table sector) fs.nFatent (c :: l) → l.length < fuel →
    ∃ fs', removeLoop io fuel fs c = some (.ok, fs') ∧ Changed sector count fs fs'
      (without (fs.table sector) (c :: l)) fs.lastClst ((countFreed fs.nFatent)^[l.length + 1] fs.freeClst) := by
  induction l with
  | nil =>
    intro fs c fuel hfs hv hl hfuel
    obtain ⟨fuel, rfl⟩ := Nat.exists_eq_succ_of_ne_zero (Nat.ne_of_gt hfuel)
    obtain ⟨fs', hch, hround⟩ := removeLoop_round h hfs hv hl fuel
    obtain ⟨_, hend⟩ | ⟨d, l', hnil, _⟩ := hl.entry
    · rw [hround, if_neg (Nat.not_lt.mpr hend), ← without_cons _ c [] List.not_mem_nil]
      refine ⟨fs', rfl, ?_⟩
      have hsame : without (Function.update (fs.table sector) c 0) [] = Function.update (fs.table sector) c 0 :=
        funext fun x => if_neg List.not_mem_nil
      rwa [hsame]
    · exact absurd hnil (List.cons_ne_nil d l').symm
  | cons d l ih =>
    intro fs c fuel hfs hv hl hfuel
    obtain ⟨fuel, rfl⟩ := Nat.exists_eq_succ_of_ne_zero (Nat.ne_of_gt (Nat.lt_of_le_of_lt (Nat.zero_le _) hfuel))
    obtain ⟨fs₁, hch, hround⟩ := removeLoop_round h hfs hv hl fuel
    have hn : fs₁.nFatent = fs.nFatent := congrArg Volume.nFatent hch.volume
    have hnot : c ∉ d :: l := (List.nodup_cons.mp hl.linked.nodup).1
    obtain ⟨hnil, _⟩ | ⟨d', l', heq, hd, _, hdlt⟩ := hl.entry
    · exact absurd hnil (List.cons_ne_nil d l)
    · obtain ⟨rfl, rfl⟩ := List.cons.inj heq
      have htail : Chained (fs₁.table sector) fs₁.nFatent (d :: l) := by
        refine ⟨?_, fun x hx => hn ▸ hl.range x (List.mem_cons_of_mem c hx)⟩
        rw [hch.table, hn, next_update, Shared.Linked.update_of_not_mem hnot]
        exact hl.tail.linked
      obtain ⟨fs', hrest, hch'⟩ := ih hch.coherent (hch.volume ▸ hv) htail (Nat.lt_of_succ_lt_succ hfuel)
      rw [hround, hd, if_pos hdlt]
      refine ⟨fs', hrest, hch.trans ?_⟩
      rwa [hch.table, hch.lastClst, hch.freeClst, hn, without_cons _ _ _ hnot, ← Function.iterate_succ_apply] at hch'

/-- A chain has fewer clusters than the FAT has entries. -/
theorem Chained.length_lt {n : Nat} {l : List Nat} (hn : 2 < n) (h : Chained t n l) : l.length < n := by
  have hsub : l ⊆ List.range' 2 (n - 2) := by
    intro c hc
    have hrange := h.range c hc
    rw [List.mem_range'_1]
    omega
  have hle := (List.subperm_of_subset h.linked.nodup hsub).length_le
  rw [List.length_range'] at hle
  omega

/-- `remove_chain` of a whole chain. -/
theorem removeChain_whole (h : Works io count sector) (hfs : Coherent sector count fs) (hv : fs.Wf ss) {l : List Nat}
    (hl : Chained (fs.table sector) fs.nFatent (c :: l)) :
    ∃ fs', removeChain io fs c 0 = some (.ok, fs') ∧ Changed sector count fs fs'
      (without (fs.table sector) (c :: l)) fs.lastClst ((countFreed fs.nFatent)^[l.length + 1] fs.freeClst) := by
  have hc := hl.range c List.mem_cons_self
  have hlen := hl.length_lt hv.some_clusters
  rw [List.length_cons] at hlen
  unfold removeChain
  rw [if_neg (by omega), if_neg (not_not.mpr rfl)]
  exact removeLoop_spec h l hfs hv hl (by omega)

/-- `remove_chain` of what is behind a cluster. -/
theorem removeChain_behind (h : Works io count sector) (hfs : Coherent sector count fs) (hv : fs.Wf ss) {l : List Nat}
    {p : Nat} (hl : Chained (fs.table sector) fs.nFatent (c :: l)) (hp : 2 ≤ p ∧ p < fs.nFatent) (hnot : p ∉ c :: l) :
    ∃ fs', removeChain io fs c p = some (.ok, fs') ∧ Changed sector count fs fs'
      (without (Function.update (fs.table sector) p fs.fsType.eoc) (c :: l)) fs.lastClst
      ((countFreed fs.nFatent)^[l.length + 1] fs.freeClst) := by
  have hc := hl.range c List.mem_cons_self
  have hlen := hl.length_lt hv.some_clusters
  rw [List.length_cons] at hlen
  obtain ⟨fs₁, hput, hch⟩ := putFat_changed h hfs hv hp.1 hp.2 0xFFFFFFFF
  have hn : fs₁.nFatent = fs.nFatent := congrArg Volume.nFatent hch.volume
  have hl₁ : Chained (fs₁.table sector) fs₁.nFatent (c :: l) := by
    refine ⟨?_, hn ▸ hl.range⟩
    rw [hch.table, hn, next_update, Shared.Linked.update_of_not_mem hnot]
    exact hl.linked
  obtain ⟨fs', hloop, hch'⟩ := removeLoop_spec h l hch.coherent (hch.volume ▸ hv) hl₁
    (by omega : l.length < fs₁.nFatent)
  rw [hch.table, hn, hch.lastClst, hch.freeClst] at hch'
  have hpos : p ≠ 0 := by omega
  unfold removeChain
  rw [if_neg (by omega), if_pos hpos, hput]
  dsimp only
  rw [if_neg (not_not.mpr rfl)]
  exact ⟨fs', hloop, hch.trans hch'⟩

end Table

end PicoRuby.Fat
