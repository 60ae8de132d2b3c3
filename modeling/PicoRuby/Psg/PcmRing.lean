import PicoRuby.Shared.Ring
import PicoRuby.Shared.Runs
import Mathlib.Data.List.Range

/-!
# The ring of rendered samples

Core 1 renders into `pcm_buf` and the timer of core 0 takes samples out of it. The two indices do not
tell a ring that is full of unread samples from one without any.
-/

namespace PicoRuby.Psg

open Shared

set_option autoImplicit false

universe u
variable {α : Type u}

/-- Where core 1 is in its loop: before `used` is calculated, or with the cells it has still to render. -/
inductive RenderPhase where
  | look
  | render (cells : List Nat)
deriving DecidableEq, Repr

/-- The globals of psg.c, and what has been rendered and what has got to the driver so far. -/
structure PcmRing (α : Type u) where
  pcmBuf : Nat → α
  wrIdx : UInt32
  rdIdx : UInt32
  core1 : RenderPhase
  rendered : List α
  output : List α

/-- `BUF_SAMPLES`. -/
def bufSamples : Nat := 256

def bufMask : UInt32 := 255

/-- The cells of the two calls of `PSG_render_block` in `psg_core1_main`. -/
def blockCells (wrIdx : UInt32) : List Nat :=
  let dstPos := (wrIdx &&& bufMask).toNat
  let firstLen := min (bufSamples - dstPos) (bufSamples / 2)
  List.range' dstPos firstLen ++
    if firstLen < bufSamples / 2 then List.range' 0 ((bufSamples / 2 - firstLen) / 2) else []

inductive RingAction (α : Type u) where
  /-- `PSG_audio_cb`, with a driver. -/
  | callback
  /-- Core 1 goes on; `PSG_calc_sample` gives `sample` if it gets to it. -/
  | core1 (sample : α)

namespace PcmRing

/-- `PSG_tick_start_core1`. -/
def start (first : Nat → α) (rdIdx : UInt32) : PcmRing α where
  pcmBuf := first
  wrIdx := UInt32.ofNat bufSamples
  rdIdx := rdIdx
  core1 := .look
  rendered := (List.range bufSamples).map first
  output := []

/-- `PSG_audio_cb`. -/
def audioCb (s : PcmRing α) : PcmRing α :=
  if (s.rdIdx + 1) &&& bufMask ≠ s.wrIdx then
    { s with
      rdIdx := (s.rdIdx + 1) &&& bufMask
      output := s.output ++ [s.pcmBuf s.rdIdx.toNat] }
  else s

/-- The loop of `psg_core1_main`, one test or one sample at a time. -/
def core1Main (s : PcmRing α) (sample : α) : PcmRing α :=
  match s.core1 with
  | .look =>
    let used := ((s.wrIdx - s.rdIdx) &&& bufMask).toNat
    if bufSamples / 2 ≤ bufSamples - used then { s with core1 := .render (blockCells s.wrIdx) } else s
  | .render (cell :: cells) =>
    { s with
      pcmBuf := Function.update s.pcmBuf cell sample
      rendered := s.rendered ++ [sample]
      core1 := .render cells }
  | .render [] => { s with wrIdx := s.wrIdx + UInt32.ofNat (bufSamples / 2), core1 := .look }

def next (s : PcmRing α) : RingAction α → PcmRing α
  | .callback => s.audioCb
  | .core1 sample => s.core1Main sample

/-- The samples that are rendered and not yet written to the driver. -/
def unread (s : PcmRing α) : Nat := s.rendered.length - s.output.length

/-- What has been written to the driver is what was rendered first, and the rest is still in the ring. -/
def Sound (s : PcmRing α) : Prop :=
  s.unread ≤ bufSamples ∧
    s.rendered = s.output ++ window s.pcmBuf bufSamples s.rdIdx.toNat s.unread

/-- The steps in which the indices tell the ring as it is: a callback that passes its test has an unread
sample, and core 1 does not look at a ring without a free cell. -/
def Told (s : PcmRing α) : RingAction α → Prop
  | .callback => (s.rdIdx + 1) &&& bufMask ≠ s.wrIdx → s.unread ≠ 0
  | .core1 _ => s.core1 = .look → s.unread ≠ bufSamples

/-! ## Indices -/

theorem toNat_and_bufMask (x : UInt32) : (x &&& bufMask).toNat = x.toNat % bufSamples := by
  have hmask : bufMask.toNat = 2 ^ 8 - 1 := rfl
  rw [UInt32.toNat_and, hmask, Nat.and_two_pow_sub_one_eq_mod]
  rfl

/-- `wr_idx` is at the start or in the middle of the buffer, so a block is in one piece. -/
theorem blockCells_eq {wrIdx : UInt32} (h : bufSamples / 2 ∣ wrIdx.toNat) :
    blockCells wrIdx = List.range' (wrIdx.toNat % bufSamples) (bufSamples / 2) := by
  unfold blockCells bufSamples at *
  rw [toNat_and_bufMask]
  unfold bufSamples
  have hlen : min (256 - wrIdx.toNat % 256) (256 / 2) = 256 / 2 := by omega
  simp [hlen]

/-! ## The invariant -/

/-- Where core 1 is, in the samples rendered so far. -/
inductive Placed (s : PcmRing α) : Prop where
  | look (hphase : s.core1 = .look) (hblock : bufSamples / 2 ∣ s.rendered.length)
      (hwr : s.wrIdx.toNat = s.rendered.length % 2 ^ 32)
  | render (base i : Nat) (hbase : s.rendered.length = base + i)
      (hphase : s.core1 = .render (List.range' (base % bufSamples + i) (bufSamples / 2 - i)))
      (hi : i ≤ bufSamples / 2) (hblock : bufSamples / 2 ∣ base) (hwr : s.wrIdx.toNat = base % 2 ^ 32)
      (hroom : s.unread + (bufSamples / 2 - i) ≤ bufSamples)

structure RingInv (s : PcmRing α) : Prop where
  sound : s.Sound
  rd : s.rdIdx.toNat = s.output.length % bufSamples
  placed : Placed s

variable {s t : PcmRing α}

theorem start_inv (first : Nat → α) : RingInv (start first 0) where
  sound := by
    refine ⟨by simp [start, unread], ?_⟩
    have hunread : (start first 0).unread = bufSamples := by simp [start, unread]
    rw [hunread, start, List.nil_append, window]
    apply List.map_congr_left
    intro i hi
    have hlt := List.mem_range.mp hi
    simp [Nat.mod_eq_of_lt hlt]
  rd := rfl
  placed := .look rfl (by simp [start, bufSamples]) (by simp [start, bufSamples])

theorem Sound.length_eq (h : s.Sound) : s.rendered.length = s.output.length + s.unread := by
  have hlen := congrArg List.length h.2
  simpa using hlen

theorem callback_inv (hs : RingInv s) (hok : s.Told .callback) : RingInv s.audioCb := by
  unfold audioCb
  split
  · rename_i htest
    have hne := hok htest
    obtain ⟨count, hcount⟩ := Nat.exists_eq_succ_of_ne_zero hne
    have hlen := hs.sound.length_eq
    have hrd := hs.rd
    have hrd' : ((s.rdIdx + 1) &&& bufMask).toNat = (s.rdIdx.toNat + 1) % bufSamples := by
      rw [toNat_and_bufMask, UInt32.toNat_add, UInt32.toNat_one]
      unfold bufSamples
      omega
    refine ⟨⟨?_, ?_⟩, ?_, ?_⟩
    · have hle := hs.sound.1
      simp only [unread, List.length_append, List.length_singleton] at hle ⊢
      omega
    · have hcount' : s.rendered.length - (s.output ++ [s.pcmBuf s.rdIdx.toNat]).length = count := by
        rw [List.length_append, List.length_singleton]
        omega
      have hsame : s.rdIdx.toNat % bufSamples = s.rdIdx.toNat := by
        rw [hrd, Nat.mod_mod]
      have hrendered := hs.sound.2
      rw [hcount, Nat.succ_eq_add_one, window_cons, hsame] at hrendered
      simp only [unread, hcount', hrd']
      rw [List.append_assoc, List.singleton_append]
      exact hrendered
    · simp only [List.length_append, List.length_singleton]
      rw [hrd', hrd, Nat.mod_add_mod]
    · cases hs.placed with
      | look hphase hblock hwr => exact .look hphase hblock hwr
      | render base i hbase hphase hi hblock hwr hroom =>
        refine .render base i hbase hphase hi hblock hwr ?_
        simp only [unread, List.length_append, List.length_singleton] at hroom ⊢
        omega
  · exact hs

theorem look_inv (hs : RingInv s) (hphase : s.core1 = .look) (hfull : s.unread ≠ bufSamples)
    (htest : bufSamples / 2 ≤ bufSamples - ((s.wrIdx - s.rdIdx) &&& bufMask).toNat) :
    RingInv { s with core1 := .render (blockCells s.wrIdx) } := by
  have hlen := hs.sound.length_eq
  have hle := hs.sound.1
  have hrd := hs.rd
  refine ⟨hs.sound, hs.rd, ?_⟩
  cases hs.placed with
  | render base i hbase hphase' => simp [hphase] at hphase'
  | look _ hblock hwr =>
    have hwr' : bufSamples / 2 ∣ s.wrIdx.toNat := by
      unfold bufSamples at *
      omega
    have hmod : s.wrIdx.toNat % bufSamples = s.rendered.length % bufSamples := by
      unfold bufSamples
      omega
    have hused : ((s.wrIdx - s.rdIdx) &&& bufMask).toNat = s.unread := by
      have hrdlt := s.rdIdx.toNat_lt
      rw [toNat_and_bufMask, UInt32.toNat_sub]
      unfold bufSamples at *
      omega
    rw [hused] at htest
    refine .render s.rendered.length 0 rfl ?_ (Nat.zero_le _) hblock hwr ?_
    · rw [blockCells_eq hwr', hmod]
      rfl
    · unfold bufSamples at *
      have hsame : PcmRing.unread { s with core1 := .render (blockCells s.wrIdx) } = s.unread := rfl
      omega

theorem render_inv (hs : RingInv s) {cell : Nat} {cells : List Nat} (sample : α)
    (hphase : s.core1 = .render (cell :: cells)) :
    RingInv { s with
      pcmBuf := Function.update s.pcmBuf cell sample
      rendered := s.rendered ++ [sample]
      core1 := .render cells } := by
  obtain ⟨count, hcount⟩ : ∃ count, s.unread = count := ⟨_, rfl⟩
  have hlen := hs.sound.length_eq
  have hrendered := hs.sound.2
  have hrd := hs.rd
  rw [hcount] at hlen hrendered
  cases hs.placed with
  | look hphase' => simp [hphase] at hphase'
  | render base i hbase hphase' hi hblock hwr hroom =>
    rw [hphase] at hphase'
    obtain ⟨hcell, hpos, hcells⟩ := List.range'_eq_cons_iff.mp (RenderPhase.render.inj hphase').symm
    rw [hcount] at hroom
    have hfree : count < bufSamples := by omega
    have hunread : s.rendered.length + 1 - s.output.length = count + 1 := by omega
    have hplace : cell = (s.rdIdx.toNat + count) % bufSamples := by
      unfold bufSamples at *
      omega
    refine ⟨⟨?_, ?_⟩, hrd, ?_⟩
    · simp only [unread, List.length_append, List.length_singleton, hunread]
      exact hfree
    · simp only [unread, List.length_append, List.length_singleton, hunread]
      rw [hplace, window_push hfree, ← List.append_assoc, ← hrendered]
    · refine .render base (i + 1) (by simp [hbase, Nat.add_assoc]) ?_ (by omega) hblock hwr ?_
      · dsimp only
        rw [hcells, ← hcell, Nat.add_assoc, Nat.sub_sub]
      · simp only [unread, List.length_append, List.length_singleton, hunread]
        omega

theorem finish_inv (hs : RingInv s) (hphase : s.core1 = .render []) :
    RingInv { s with wrIdx := s.wrIdx + UInt32.ofNat (bufSamples / 2), core1 := .look } := by
  refine ⟨hs.sound, hs.rd, ?_⟩
  cases hs.placed with
  | look hphase' => simp [hphase] at hphase'
  | render base i hbase hphase' hi hblock hwr hroom =>
    rw [hphase] at hphase'
    have hdone := List.range'_eq_nil_iff.mp (RenderPhase.render.inj hphase').symm
    have hhalf : (UInt32.ofNat (bufSamples / 2)).toNat = bufSamples / 2 := rfl
    refine .look rfl ?_ ?_
    · rw [hbase]
      unfold bufSamples at *
      omega
    · dsimp only
      rw [UInt32.toNat_add, hhalf, hwr, hbase]
      unfold bufSamples at *
      omega

theorem next_inv {a : RingAction α} (hs : RingInv s) (hok : s.Told a) : RingInv (s.next a) := by
  cases a with
  | callback => exact callback_inv hs hok
  | core1 sample =>
    rw [next, core1Main]
    cases hphase : s.core1 with
    | look =>
      dsimp only
      split
      · rename_i htest
        exact look_inv hs hphase (hok hphase) htest
      · exact hs
    | render cells =>
      cases cells with
      | nil => exact finish_inv hs hphase
      | cons cell cells => exact render_inv hs sample hphase

/-- The driver gets the rendered samples in order, each once, and no unread one is overwritten, as long as
the indices tell the ring as it is in each step and `rd_idx` is 0 when core 1 is started. -/
theorem run_sound (first : Nat → α) (rdIdx : UInt32) (hstart : rdIdx = 0) (actions : List (RingAction α))
    (h : Run (fun s a t => t = s.next a) Told (start first rdIdx) actions s) : s.Sound := by
  subst hstart
  have hinv : RingInv s := h.invariant (fun s a t hs hok hst => hst ▸ next_inv hs hok) (start_inv first)
  exact hinv.sound

/-- A sample is written to the driver before core 1 looks at the ring. -/
theorem run_sound_one : (((start (fun i => i) 0).next .callback).next (.core1 256)).Sound := by
  refine run_sound (fun i => i) 0 rfl [.callback, .core1 256] ((Run.single ?_ rfl).snoc ?_ rfl)
  · intro _
    decide +kernel
  · intro _
    decide +kernel

/-- Core 1 looks at the ring first, as it does when it is launched, and renders over the first sample. In
the other run the callback finds the ring empty after 256 samples, and gives the first one again. -/
theorem start_overwrites :
    (([.core1 256, .core1 256, .callback] : List (RingAction Nat)).foldl next (start id 0)).output = [256] ∧
    (([.core1 256, .core1 256, .callback] : List (RingAction Nat)).foldl next (start id 0)).rendered =
      List.range 257 ∧
    ((List.replicate 257 RingAction.callback).foldl next (start id 0)).output = List.range 256 ++ [0] := by
  decide +kernel

end PcmRing

end PicoRuby.Psg
