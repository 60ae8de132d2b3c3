import PicoRuby.Task.SleepCall

/-!
# Sleep timing

`wakeup_tick_` is never later than the wake-up time of a sleeping task, except for a
task whose `mrb_resume_task` has not registered it yet. So the tick handler scans
the waiting queue in time, and a sleep of `n` ticks ends with tick `n + 1`.
-/

namespace PicoRuby.Task

open Shared

set_option autoImplicit false

/-! ## Distances to the current tick -/

/-- Ticks until `u` is to wake up. -/
def sleepDist (core : Core) (u : TaskId) : Int := signedDiff (core.tcb u).wakeupTick core.tick

/-- Ticks until the cached wake-up time. -/
def cacheDist (core : Core) : Int := signedDiff core.wakeupTick core.tick

/-- `u` sleeps, or is suspended in its sleep. -/
def InSleep (core : Core) (u : TaskId) : Prop :=
  (core.tcb u).reason = .sleep ∧
    ((core.tcb u).status = .waiting ∨ (core.tcb u).status = .suspended)

instance (core : Core) (u : TaskId) : Decidable (InSleep core u) :=
  inferInstanceAs (Decidable (_ ∧ _))

/-- `u` waits for its wake-up time. -/
def Sleeping (core : Core) (u : TaskId) : Prop :=
  (core.tcb u).status = .waiting ∧ (core.tcb u).reason = .sleep

/-- The task a call of `mrb_resume_task` has put back but not yet registered. -/
def Pc.resuming : Pc → Option TaskId
  | .op _ (.resumeTest u) | .op _ (.resumeCompare u) | .op _ (.resumeStore u) => some u
  | _ => none

def Near (x : Int) : Prop := -2 ^ 30 < x ∧ x < 2 ^ 30

instance (x : Int) : Decidable (Near x) := inferInstanceAs (Decidable (_ ∧ _))

section Condition
variable {Q : Type}

/-- The length of the sleep that is about to begin. -/
def Pc.sleepLength (cfg : Config) : Pc → Int
  | .op _ (.sleepSection _ ms) => sleepTicks cfg ms
  | _ => 0

/-- All sleeps and suspensions are shorter than `2 ^ 30` ticks. -/
def ShortSleeps (cfg : Config) (s : State Q) (_ : Act) : Prop :=
  Near (s.pc.sleepLength cfg) ∧
    ∀ u < s.mem.core.created, InSleep s.mem.core u ∨ s.pc.resuming = some u →
      Near (sleepDist s.mem.core u)

instance (cfg : Config) (s : State Q) (a : Act) : Decidable (ShortSleeps cfg s a) :=
  inferInstanceAs (Decidable (_ ∧ ∀ u, u < s.mem.core.created →
    (InSleep s.mem.core u ∨ s.pc.resuming = some u) → Near (sleepDist s.mem.core u)))

end Condition

theorem wakeupSpan_eq : wakeupSpan = BitVec.ofInt 32 65536 := by decide

/-! ## The scan -/

namespace Lists
variable {m : Mem Lists} {u : TaskId}

theorem sleepDist_succ {a b : BitVec 32} (h : Near (signedDiff a b)) :
    signedDiff a (b + 1) = signedDiff a b - 1 := by
  unfold Near at h
  apply signedDiff_succ_eq <;> omega

theorem foldl_wakeStep_cache (l : List TaskId) (s : Mem Lists × Bool) (hnd : l.Nodup)
    (hlo : 0 ≤ cacheDist s.1.core) (hhi : cacheDist s.1.core ≤ 65536)
    (hnear : ∀ t ∈ l, (s.1.core.tcb t).reason = .sleep →
      -2 ^ 30 ≤ sleepDist s.1.core t ∧ sleepDist s.1.core t ≤ 2 ^ 30) :
    0 ≤ cacheDist (l.foldl wakeStep s).1.core ∧
      cacheDist (l.foldl wakeStep s).1.core ≤ cacheDist s.1.core ∧
      ∀ t ∈ l, (s.1.core.tcb t).reason = .sleep → ¬ Due s.1.core t →
        cacheDist (l.foldl wakeStep s).1.core ≤ sleepDist s.1.core t := by
  induction l generalizing s with
  | nil => exact ⟨hlo, le_refl _, fun _ h => absurd h List.not_mem_nil⟩
  | cons t l ih =>
    obtain ⟨htl, hl⟩ := List.nodup_cons.mp hnd
    -- one round keeps the cached time between 0 and what it was, and below `t`
    have hround : 0 ≤ cacheDist (wakeStep s t).1.core ∧
        cacheDist (wakeStep s t).1.core ≤ cacheDist s.1.core ∧
        ((s.1.core.tcb t).reason = .sleep → ¬ Due s.1.core t →
          cacheDist (wakeStep s t).1.core ≤ sleepDist s.1.core t) := by
      unfold wakeStep
      by_cases hdue : Due s.1.core t
      · rw [if_pos hdue]
        exact ⟨hlo, le_refl _, fun _ h => absurd hdue h⟩
      · rw [if_neg hdue]
        by_cases hsleep : (s.1.core.tcb t).reason = .sleep
        · have ht := hnear t List.mem_cons_self hsleep
          have hpos : 0 ≤ sleepDist s.1.core t := by
            unfold Due at hdue
            unfold sleepDist
            by_contra hneg
            exact hdue ⟨hsleep, by omega⟩
          have hdiff : signedDiff (s.1.core.tcb t).wakeupTick s.1.core.wakeupTick =
              sleepDist s.1.core t - cacheDist s.1.core := by
            unfold sleepDist cacheDist at *
            apply signedDiff_eq_sub <;> omega
          by_cases hlt : signedDiff (s.1.core.tcb t).wakeupTick s.1.core.wakeupTick < 0
          · rw [if_pos ⟨hsleep, hlt⟩]
            have hset : cacheDist (s.1.setCore fun core =>
                core.setWakeupTick (core.tcb t).wakeupTick).core = sleepDist s.1.core t := by
              unfold cacheDist sleepDist
              rw [Mem.setCore_core, Core.setWakeupTick_wakeupTick, Core.setWakeupTick_tick]
            rw [hset]
            exact ⟨hpos, by omega, fun _ _ => le_refl _⟩
          · rw [if_neg fun h => hlt h.2]
            exact ⟨hlo, le_refl _, fun _ _ => by omega⟩
        · rw [if_neg fun h => hsleep h.1]
          exact ⟨hlo, le_refl _, fun h => absurd h hsleep⟩
    have hkeep : ∀ u ∈ l, (wakeStep s t).1.core.tcb u = s.1.core.tcb u := by
      intro u hu
      exact wakeStep_tcb_of_ne s t u fun heq => htl (heq ▸ hu)
    have htick := (wakeStep_core s t).1
    have hdist : ∀ u ∈ l, sleepDist (wakeStep s t).1.core u = sleepDist s.1.core u := by
      intro u hu
      unfold sleepDist
      rw [hkeep u hu, htick]
    obtain ⟨h0, hle, hall⟩ := ih (wakeStep s t) hl hround.1 (by omega) (by
      intro u hu hsleep
      rw [hdist u hu]
      rw [hkeep u hu] at hsleep
      exact hnear u (List.mem_cons_of_mem t hu) hsleep)
    rw [List.foldl_cons]
    refine ⟨h0, by omega, fun u hu hsleep hdue => ?_⟩
    rcases List.mem_cons.mp hu with rfl | hul
    · have := hround.2.2 hsleep hdue
      omega
    · rw [← hdist u hul]
      apply hall u hul
      · rw [hkeep u hul]
        exact hsleep
      · unfold Due
        rw [hkeep u hul, htick]
        exact hdue

theorem scans_iff_dist (h : Near (cacheDist m.core)) : Scans m ↔ cacheDist m.core - 1 < 0 := by
  have hdiff : signedDiff m.core.wakeupTick (m.core.tick + 1) = cacheDist m.core - 1 :=
    sleepDist_succ h
  rw [Scans, hdiff]

theorem tick_wakeupTick (hp : Placed m) (u : TaskId) :
    ((tick m).core.tcb u).wakeupTick = (m.core.tcb u).wakeupTick := by
  obtain ⟨n, k, hk⟩ := tick_tcb (hp.nodup qWaiting) u
  rw [hk]
  split <;> rfl

theorem tick_sleepDist (hp : Placed m) (h : Near (sleepDist m.core u)) :
    sleepDist (tick m).core u = sleepDist m.core u - 1 := by
  unfold sleepDist
  rw [tick_wakeupTick hp, tick_core.1]
  exact sleepDist_succ h

/-- A task that sleeps after a tick slept before it and is not overdue. -/
theorem tick_sleeping (hp : Placed m) (h : Sleeping (tick m).core u) (hu : u < m.core.created)
    (hnear : Near (sleepDist m.core u)) :
    Sleeping m.core u ∧ (Scans m → 0 ≤ sleepDist m.core u - 1) := by
  obtain ⟨n, k, hk⟩ := tick_tcb (hp.nodup qWaiting) u
  unfold Sleeping at h
  rw [hk] at h
  split at h
  · cases h.1
  · rename_i hnot
    refine ⟨h, fun hs => ?_⟩
    by_contra hneg
    refine hnot ⟨hs, hp.mem_waiting_iff.mpr ⟨hu, h.1⟩, h.2, ?_⟩
    rw [sleepDist_succ hnear]
    unfold sleepDist at hneg
    omega

theorem tick_cache_quiet (h : ¬ Scans m) (hnear : Near (cacheDist m.core)) :
    cacheDist (tick m).core = cacheDist m.core - 1 := by
  rcases tick_cases (m := m) with ⟨heq, _⟩ | ⟨hs, _⟩
  · unfold cacheDist
    rw [heq, (advance_core m).1, (advance_core m).2.2.1]
    exact sleepDist_succ hnear
  · exact absurd hs h

/-- A scan puts the cached time at most 65536 ticks ahead, and in front of every sleeper. -/
theorem tick_cache_scan (hp : Placed m) (h : Scans m)
    (hnear : ∀ u < m.core.created, Sleeping m.core u → Near (sleepDist m.core u)) :
    0 ≤ cacheDist (tick m).core ∧ cacheDist (tick m).core ≤ 65536 ∧
      ∀ u < m.core.created, Sleeping m.core u → 0 ≤ sleepDist m.core u - 1 →
        cacheDist (tick m).core ≤ sleepDist m.core u - 1 := by
  have hq := advance_queues m
  have hstart : cacheDist (scanStart (advance m)).core = 65536 := by
    unfold cacheDist scanStart
    rw [Mem.setCore_core, Core.setWakeupTick_wakeupTick, Core.setWakeupTick_tick, wakeupSpan_eq]
    apply signedDiff_add_eq <;> omega
  have htcb : ∀ u, (scanStart (advance m)).core.tcb u = (advance m).core.tcb u := by
    intro u
    rw [scanStart_tcb]
  have hkeep : ∀ u, ((advance m).core.tcb u).reason = (m.core.tcb u).reason ∧
      ((advance m).core.tcb u).wakeupTick = (m.core.tcb u).wakeupTick := by
    intro u
    obtain ⟨n, hn⟩ := advance_tcb m u
    rw [hn]
    exact ⟨rfl, rfl⟩
  have hdist : ∀ u < m.core.created, Sleeping m.core u →
      sleepDist (scanStart (advance m)).core u = sleepDist m.core u - 1 := by
    intro u hu hsleep
    unfold sleepDist
    rw [htcb, (hkeep u).2, scanStart_tick, (advance_core m).1]
    exact sleepDist_succ (hnear u hu hsleep)
  have hwaiting : ∀ u ∈ (advance m).queues qWaiting,
      ((scanStart (advance m)).core.tcb u).reason = .sleep → u < m.core.created ∧
        Sleeping m.core u := by
    intro u hu hreason
    have hmem := hp.mem_waiting_iff.mp (hq ▸ hu)
    rw [htcb, (hkeep u).1] at hreason
    exact ⟨hmem.1, hmem.2, hreason⟩
  obtain ⟨hlo, hhi, hall⟩ := foldl_wakeStep_cache ((advance m).queues qWaiting)
    (scanStart (advance m), false) (hq ▸ hp.nodup qWaiting) (by dsimp only; omega)
    (by dsimp only; omega) (by
      intro u hu hreason
      obtain ⟨hlt, hsleep⟩ := hwaiting u hu hreason
      have hn := hnear u hlt hsleep
      unfold Near at hn
      dsimp only
      rw [hdist u hlt hsleep]
      omega)
  have hscan : cacheDist (tick m).core = cacheDist (scan (advance m)).1.core := by
    rcases tick_cases (m := m) with ⟨_, hno⟩ | ⟨_, ⟨heq, _⟩ | ⟨heq, _⟩⟩
    · exact absurd h hno
    · rw [heq]
      rfl
    · rw [heq]
  rw [hscan, scan]
  refine ⟨hlo, by dsimp only at hhi; omega, fun u hu hsleep hpos => ?_⟩
  rw [← hdist u hu hsleep] at hpos ⊢
  apply hall u
  · rw [hq]
    exact hp.mem_waiting_iff.mpr ⟨hu, hsleep.1⟩
  · dsimp only
    rw [htcb, (hkeep u).1]
    exact hsleep.2
  · intro hdue
    have hneg : sleepDist (scanStart (advance m)).core u < 0 := hdue.2
    omega

end Lists

/-! ## The cached wake-up time -/

structure WakeInv (b : State Lists) : Prop where
  low : -2 ^ 30 < cacheDist b.mem.core
  high : cacheDist b.mem.core ≤ 65536
  sleepers : ∀ u < b.mem.core.created, Sleeping b.mem.core u → b.pc.resuming ≠ some u →
    cacheDist b.mem.core ≤ sleepDist b.mem.core u
  store : ∀ t u, b.pc = .op t (.resumeStore u) → sleepDist b.mem.core u < cacheDist b.mem.core

section Cache
variable {cfg : Config} {b b' : State Lists} {a : Act} {m : Mem Lists} {pc pc' : Pc} {t u : TaskId}

theorem WakeInv.init : WakeInv bootLists := by
  have hcache : cacheDist Core.init = 65536 := by
    unfold cacheDist Core.init
    dsimp only
    rw [wakeupSpan_eq]
    decide
  refine ⟨?_, ?_, ?_, ?_⟩
  · change -2 ^ 30 < cacheDist Core.init
    omega
  · change cacheDist Core.init ≤ 65536
    omega
  · intro u hu
    exact absurd hu (Nat.not_lt_zero u)
  · intro t u hpc
    cases hpc

/-- Steps that put nobody to sleep and leave both clocks alone. -/
theorem WakeInv.mono (h : WakeInv ⟨m, pc⟩) (m' : Mem Lists) (htick : m'.core.tick = m.core.tick)
    (hwake : m'.core.wakeupTick = m.core.wakeupTick)
    (hsleep : ∀ v < m'.core.created, Sleeping m'.core v → pc'.resuming ≠ some v →
      v < m.core.created ∧ Sleeping m.core v ∧ pc.resuming ≠ some v ∧
        (m'.core.tcb v).wakeupTick = (m.core.tcb v).wakeupTick)
    (hstore : ∀ t u, pc' ≠ .op t (.resumeStore u)) : WakeInv ⟨m', pc'⟩ := by
  have hcache : cacheDist m'.core = cacheDist m.core := by
    unfold cacheDist
    rw [htick, hwake]
  refine ⟨hcache ▸ h.low, hcache ▸ h.high, fun v hv hs hpc => ?_, fun t u hpc => ?_⟩
  · obtain ⟨hlt, hold, hres, hsame⟩ := hsleep v hv hs hpc
    have hdist : sleepDist m'.core v = sleepDist m.core v := by
      unfold sleepDist
      rw [htick, hsame]
    rw [hcache, hdist]
    exact h.sleepers v hlt hold hres
  · exact absurd hpc (hstore t u)

theorem WakeInv.tick (h : WakeInv ⟨m, pc⟩) (hp : Placed m)
    (hnear : ∀ v < m.core.created, InSleep m.core v ∨ pc.resuming = some v →
      Near (sleepDist m.core v))
    (hres : ∀ t u, pc = .op t (.resumeStore u) → u < m.core.created) :
    WakeInv ⟨Lists.tick m, pc⟩ := by
  obtain ⟨hlow, hhigh, hsleepers, hstore⟩ := h
  dsimp only at hlow hhigh hsleepers hstore
  have hcreated := (Lists.tick_core (m := m)).2.1
  have hnearCache : Near (cacheDist m.core) := ⟨hlow, by omega⟩
  have hnearSleeping : ∀ v < m.core.created, Sleeping m.core v → Near (sleepDist m.core v) :=
    fun v hv hs => hnear v hv (Or.inl ⟨hs.2, Or.inl hs.1⟩)
  by_cases hscan : Lists.Scans m
  · have hneg : cacheDist m.core - 1 < 0 := (Lists.scans_iff_dist hnearCache).mp hscan
    obtain ⟨h0, h65536, hall⟩ := Lists.tick_cache_scan hp hscan hnearSleeping
    refine ⟨by dsimp only; omega, h65536, fun v hv hs hpc => ?_, fun t u hpc => ?_⟩
    · have hv' : v < m.core.created := hcreated ▸ hv
      have hvnear : Near (sleepDist m.core v) := by
        apply hnear v hv'
        left
        obtain ⟨n, k, hk⟩ := Lists.tick_tcb (hp.nodup qWaiting) v
        unfold Sleeping at hs
        rw [hk] at hs
        split at hs
        · cases hs.1
        · exact ⟨hs.2, Or.inl hs.1⟩
      obtain ⟨hold, hpos⟩ := Lists.tick_sleeping hp hs hv' hvnear
      dsimp only
      rw [Lists.tick_sleepDist hp hvnear]
      exact hall v hv' hold (hpos hscan)
    · have hunear : Near (sleepDist m.core u) := by
        apply hnear u (hres t u hpc)
        right
        have hpc' : pc = .op t (.resumeStore u) := hpc
        rw [hpc']
        rfl
      have hlt := hstore t u hpc
      dsimp only
      rw [Lists.tick_sleepDist hp hunear]
      omega
  · have hpos : ¬ cacheDist m.core - 1 < 0 := fun h =>
      hscan ((Lists.scans_iff_dist hnearCache).mpr h)
    have hcache := Lists.tick_cache_quiet hscan hnearCache
    refine ⟨?_, ?_, fun v hv hs hpc => ?_, fun t u hpc => ?_⟩
    · dsimp only
      omega
    · dsimp only
      omega
    · have hv' : v < m.core.created := hcreated ▸ hv
      have hold : Sleeping m.core v := by
        obtain ⟨n, k, hk⟩ := Lists.tick_tcb (hp.nodup qWaiting) v
        unfold Sleeping at hs
        rw [hk] at hs
        split at hs
        · cases hs.1
        · exact hs
      have hle := hsleepers v hv' hold hpc
      dsimp only
      rw [hcache, Lists.tick_sleepDist hp (hnearSleeping v hv' hold)]
      omega
    · have hunear : Near (sleepDist m.core u) := by
        apply hnear u (hres t u hpc)
        right
        have hpc' : pc = .op t (.resumeStore u) := hpc
        rw [hpc']
        rfl
      have hlt := hstore t u hpc
      dsimp only
      rw [hcache, Lists.tick_sleepDist hp hunear]
      omega

theorem sleep_wakeupTick (cfg : Config) (m : Mem Lists) (t : TaskId) (ms : Int) :
    (Lists.sleep cfg m t ms).core.wakeupTick =
      if signedDiff (m.core.tick + BitVec.ofInt 32 (sleepTicks cfg ms)) m.core.wakeupTick < 0 then
        m.core.tick + BitVec.ofInt 32 (sleepTicks cfg ms)
      else m.core.wakeupTick := by
  unfold Lists.sleep
  dsimp only [Mem.setCore_core]
  rw [Lists.requeue_wakeupTick]
  split <;> rfl

theorem sleep_tcb (cfg : Config) (m : Mem Lists) (t v : TaskId) (ms : Int) :
    (Lists.sleep cfg m t ms).core.tcb v =
      if v = t then { fallAsleep cfg m.core ms (m.core.tcb t) with insertedAt := m.core.insertions }
      else m.core.tcb v := by
  rw [(Lists.sleep_core m t cfg ms).1, Lists.requeue_tcb]

theorem sleep_sleepDist {ms : Int} (hn : Near (sleepTicks cfg ms)) :
    sleepDist (Lists.sleep cfg m t ms).core t = sleepTicks cfg ms := by
  unfold Near at hn
  unfold sleepDist
  rw [sleep_tcb, if_pos rfl, (Lists.sleep_core m t cfg ms).2.2.2.1]
  apply signedDiff_add_eq <;> omega

theorem WakeInv.sleep {ms : Int} (h : WakeInv ⟨m, .op u (.sleepSection (some t) ms)⟩)
    (hn : Near (sleepTicks cfg ms)) :
    WakeInv ⟨Lists.sleep cfg m t ms, .op u .setSwitching⟩ := by
  obtain ⟨hlow, hhigh, hsleepers, _⟩ := h
  dsimp only at hlow hhigh hsleepers
  obtain ⟨_, hcreated, _, htick, _⟩ := Lists.sleep_core m t cfg ms
  unfold Near at hn
  have hself : signedDiff (m.core.tick + BitVec.ofInt 32 (sleepTicks cfg ms)) m.core.tick =
      sleepTicks cfg ms := by
    apply signedDiff_add_eq <;> omega
  have hcache : cacheDist (Lists.sleep cfg m t ms).core =
      if sleepTicks cfg ms < cacheDist m.core then sleepTicks cfg ms else cacheDist m.core := by
    have hwake := sleep_wakeupTick cfg m t ms
    revert hwake hself
    generalize m.core.tick + BitVec.ofInt 32 (sleepTicks cfg ms) = wake
    intro hself hwake
    have hcompare : signedDiff wake m.core.wakeupTick = sleepTicks cfg ms - cacheDist m.core := by
      rw [← hself]
      unfold cacheDist at *
      apply signedDiff_eq_sub <;> omega
    unfold cacheDist at hcompare ⊢
    rw [hwake, htick, hcompare]
    by_cases hlt : sleepTicks cfg ms < signedDiff m.core.wakeupTick m.core.tick
    · rw [if_pos (by omega), if_pos hlt, hself]
    · rw [if_neg (by omega), if_neg hlt]
  have hdist : ∀ v, v ≠ t → sleepDist (Lists.sleep cfg m t ms).core v = sleepDist m.core v := by
    intro v hv
    unfold sleepDist
    rw [sleep_tcb, if_neg hv, htick]
  refine ⟨?_, ?_, fun v hv hs _ => ?_, fun t u hpc => by cases hpc⟩
  · dsimp only
    rw [hcache]
    split <;> omega
  · dsimp only
    rw [hcache]
    split <;> omega
  · dsimp only at hs ⊢
    rw [hcache]
    by_cases hvt : v = t
    · rw [hvt, sleep_sleepDist hn]
      split <;> omega
    · have hold : Sleeping m.core v := by
        unfold Sleeping at hs
        rw [sleep_tcb, if_neg hvt] at hs
        exact hs
      have hle := hsleepers v (hcreated ▸ hv) hold (by simp [Pc.resuming])
      rw [hdist v hvt]
      split <;> omega

theorem Silent.wakeInv (h : Silent m pc a pc') (hw : Wf ⟨m, pc⟩)
    (hnear : ∀ v < m.core.created, InSleep m.core v ∨ pc.resuming = some v →
      Near (sleepDist m.core v)) (hi : WakeInv ⟨m, pc⟩) : WakeInv ⟨m, pc'⟩ := by
  obtain ⟨hlow, hhigh, hsleepers, hstore⟩ := hi
  have hpc := hw.pcOk
  have hcompare : ∀ u < m.core.created, pc.resuming = some u →
      signedDiff (m.core.tcb u).wakeupTick m.core.wakeupTick =
        sleepDist m.core u - cacheDist m.core := by
    intro u hu hres
    have hn := hnear u hu (Or.inr hres)
    dsimp only at hlow hhigh
    unfold Near at hn
    unfold sleepDist cacheDist at *
    apply signedDiff_eq_sub <;> omega
  refine ⟨hlow, hhigh, fun v hv hs hres => ?_, fun t u hpc' => ?_⟩
  · cases h with
    | resumeTest _ => exact hsleepers v hv hs hres
    | @resumeTestSkip t u hreason =>
      apply hsleepers v hv hs
      intro heq
      cases heq
      exact hreason hs.2
    | resumeCompare _ => exact hsleepers v hv hs hres
    | @resumeCompareSkip t u hge =>
      by_cases hvu : u = v
      · subst hvu
        have hlt : u < m.core.created := hpc.2.2
        rw [hcompare u hlt rfl] at hge
        change cacheDist m.core ≤ sleepDist m.core u
        omega
      · exact hsleepers v hv hs (by simp [Pc.resuming, hvu])
    | _ => exact hsleepers v hv hs (by simp [Pc.resuming])
  · cases h with
    | @resumeCompare t u hlt =>
      cases hpc'
      have hult : u < m.core.created := hpc.2.2
      rw [hcompare u hult rfl] at hlt
      change sleepDist m.core u < cacheDist m.core
      omega
    | nothing _ => cases hpc'
    | _ => cases hpc'

theorem WakeInv.requeue {f : Tcb → Tcb} (h : WakeInv ⟨m, pc⟩) (hres : pc.resuming = none)
    (hnot : pc'.resuming ≠ some u →
      ¬ ((f (m.core.tcb u)).status = .waiting ∧ (f (m.core.tcb u)).reason = .sleep))
    (hstore : ∀ t u, pc' ≠ .op t (.resumeStore u)) : WakeInv ⟨Lists.requeue m u f, pc'⟩ := by
  refine h.mono _ rfl rfl ?_ hstore
  intro v hv hs hpc
  have htcb := Lists.requeue_tcb m u v f
  unfold Sleeping at hs
  by_cases hvu : v = u
  · rw [if_pos hvu] at htcb
    rw [htcb] at hs
    exact absurd hs (hnot (hvu ▸ hpc))
  · rw [if_neg hvu] at htcb
    rw [htcb] at hs ⊢
    exact ⟨hv, hs, by simp [hres], rfl⟩

theorem WakeInv.setTcb {f : Tcb → Tcb} (h : WakeInv ⟨m, pc⟩) (hres : pc.resuming = none)
    (hf : ∀ tcb, SameWait tcb (f tcb) ∧ (f tcb).wakeupTick = tcb.wakeupTick)
    (hstore : ∀ t u, pc' ≠ .op t (.resumeStore u)) : WakeInv ⟨m.setTcb u f, pc'⟩ := by
  refine h.mono _ rfl rfl ?_ hstore
  intro v hv hs _
  have htcb := Core.setTcb_tcb m.core u v f
  unfold Sleeping at hs ⊢
  rw [Mem.setTcb_core] at hs ⊢
  by_cases hvu : v = u
  · subst hvu
    rw [if_pos rfl] at htcb
    rw [htcb, (hf _).1.1, (hf _).1.2] at hs
    rw [htcb]
    exact ⟨hv, hs, by simp [hres], (hf _).2⟩
  · rw [if_neg hvu] at htcb
    rw [htcb] at hs ⊢
    exact ⟨hv, hs, by simp [hres], rfl⟩

/-- A write after which the task does not sleep. -/
theorem WakeInv.wakeTcb {f : Tcb → Tcb} (h : WakeInv ⟨m, pc⟩) (hres : pc.resuming = none)
    (hnot : ∀ tcb : Tcb, ¬ ((f tcb).status = .waiting ∧ (f tcb).reason = .sleep))
    (hstore : ∀ t u, pc' ≠ .op t (.resumeStore u)) : WakeInv ⟨m.setTcb u f, pc'⟩ := by
  refine h.mono _ rfl rfl ?_ hstore
  intro v hv hs _
  have htcb := Core.setTcb_tcb m.core u v f
  unfold Sleeping at hs ⊢
  rw [Mem.setTcb_core] at hs ⊢
  by_cases hvu : v = u
  · rw [if_pos hvu] at htcb
    rw [htcb] at hs
    exact absurd hs (hnot _)
  · rw [if_neg hvu] at htcb
    rw [htcb] at hs ⊢
    exact ⟨hv, hs, by simp [hres], rfl⟩

theorem WakeInv.createTask {priority : Option Int} {proc : ProcId} (h : WakeInv ⟨m, pc⟩)
    (hres : pc.resuming = none) (hstore : ∀ t u, pc ≠ .op t (.resumeStore u)) :
    WakeInv ⟨Lists.createTask m priority proc, pc⟩ := by
  refine h.mono _ rfl rfl ?_ hstore
  intro v hv hs _
  have htcb := Lists.createTask_tcb m v priority proc
  unfold Sleeping at hs ⊢
  by_cases hvc : v = m.core.created
  · rw [if_pos hvc] at htcb
    rw [htcb] at hs
    cases hs.1
  · rw [if_neg hvc] at htcb
    rw [htcb] at hs ⊢
    exact ⟨lt_of_le_of_ne (Nat.le_of_lt_succ hv) hvc, hs, by simp [hres], rfl⟩

/-- Writes to `mrb_state` outside the TCBs and the clocks. -/
theorem WakeInv.setCore {f : Core → Core} (h : WakeInv ⟨m, pc⟩)
    (hf : (f m.core).tcb = m.core.tcb ∧ (f m.core).created = m.core.created ∧
      (f m.core).tick = m.core.tick ∧ (f m.core).wakeupTick = m.core.wakeupTick)
    (hres : pc.resuming = none) (hstore : ∀ t u, pc' ≠ .op t (.resumeStore u)) :
    WakeInv ⟨m.setCore f, pc'⟩ := by
  obtain ⟨htcb, hcreated, htick, hwake⟩ := hf
  refine h.mono _ htick hwake ?_ hstore
  intro v hv hs _
  unfold Sleeping at hs
  rw [Mem.setCore_core, htcb] at hs ⊢
  rw [Mem.setCore_core, hcreated] at hv
  exact ⟨hv, hs, by simp [hres], rfl⟩

theorem WakeInv.release (h : WakeInv ⟨m, .stoppedGap t⟩) (hp : Placed m)
    (hpc : pc' = .loop ∨ pc' = .exited) : WakeInv ⟨Lists.release m t, pc'⟩ := by
  obtain ⟨hcreated, htick, hwake, _⟩ := Lists.release_core m t
  apply h.mono _ htick hwake
  · intro v hv hs _
    obtain ⟨k, hk⟩ := hp.release_tcb t v
    rw [hcreated] at hv
    unfold Sleeping at hs
    rw [hk] at hs ⊢
    split at hs
    · cases hs.1
    · split at hs
      · cases hs.2
      · rename_i hw hsusp
        rw [if_neg hw, if_neg hsusp]
        exact ⟨hv, hs, by simp [Pc.resuming], rfl⟩
  · rintro t u rfl
    rcases hpc with h | h <;> cases h

theorem resumePc_ne_store {m : Mem Lists} (t u : TaskId) :
    ∀ v w, resumePc m t u ≠ .op v (.resumeStore w) := by
  intro v w h
  unfold resumePc at h
  split at h <;> cases h

/-- Every step keeps the cached wake-up time in front of the sleepers. -/
theorem Trans.wakeInv (h : Trans cfg b a b') (hw : Wf b) (hok : ShortSleeps cfg b a)
    (hi : WakeInv b) : WakeInv b' := by
  have hp := hw.placed
  have hpc := hw.pcOk
  have hnear := hok.2
  cases h with
  | @tick m pc =>
    apply hi.tick hp hnear
    rintro t u rfl
    exact hpc.2.2
  | silent hs => exact hs.wakeInv hw hnear hi
  | bootCreate => exact hi.createTask rfl (by simp)
  | create => exact hi.createTask rfl (by simp)
  | @mark m t =>
    -- the marked task is RUNNING, so it does not sleep
    exact hi.wakeTcb rfl (fun _ h => by cases h.1) (by simp)
  | @enter m t =>
    have hc : WakeInv ⟨m.setCore fun core => { core with c := some t }, .marked t⟩ :=
      hi.setCore ⟨rfl, rfl, rfl, rfl⟩ rfl (by simp)
    exact hc.setTcb rfl (fun _ => ⟨⟨rfl, rfl⟩, rfl⟩) (by simp)
  | @vmReturn m t r =>
    have hset : WakeInv ⟨m.setTcb t (storeResult r), .returned t⟩ :=
      hi.setTcb rfl (fun _ => ⟨⟨rfl, rfl⟩, rfl⟩) (by simp)
    obtain ⟨exc, heq⟩ := vmReturn_eq m t r
    rw [heq]
    exact hset.setCore ⟨rfl, rfl, rfl, rfl⟩ rfl (by simp)
  | setPriority _ => exact hi.setTcb rfl (fun _ => ⟨⟨rfl, rfl⟩, rfl⟩) (by simp)
  | stop _ => exact hi.setTcb rfl (fun _ => ⟨⟨rfl, rfl⟩, rfl⟩) (by simp)
  | execute _ =>
    refine hi.setTcb rfl (fun tcb => ⟨resetContext_wait, ?_⟩) (resumePc_ne_store _ _)
    obtain ⟨c, hc⟩ := mrbSandboxExecute_eq _ tcb
    rw [hc]
  | execVmCode _ =>
    exact hi.setTcb rfl (fun _ => ⟨⟨rfl, rfl⟩, rfl⟩) (resumePc_ne_store _ _)
  | pass => exact hi.setTcb rfl (fun _ => ⟨⟨rfl, rfl⟩, rfl⟩) (by simp)
  | passPriority => exact hi.setTcb rfl (fun _ => ⟨⟨rfl, rfl⟩, rfl⟩) (by simp)
  | sleepSection => exact hi.sleep hok.1
  | suspendSection => exact hi.requeue rfl (fun _ h => by cases h.1) (by simp)
  | setSwitching => exact hi.setCore ⟨rfl, rfl, rfl, rfl⟩ rfl (by simp)
  | @resumeSection m t u flag =>
    have hbase : WakeInv ⟨if flag then Lists.preempt m else m, .op t (.resumeSection u flag)⟩ := by
      split
      · exact hi.setCore ⟨rfl, rfl, rfl, rfl⟩ rfl (by simp)
      · exact hi
    exact hbase.requeue rfl (fun h => absurd rfl h) (by simp)
  | @resumeStore m t u =>
    have hlt := hi.store t u rfl
    have hlow := hnear u hpc.2.2 (Or.inr rfl)
    have hhigh := hi.high
    have hcache : cacheDist (m.setCore fun core => core.setWakeupTick (core.tcb u).wakeupTick).core =
        sleepDist m.core u := by
      unfold cacheDist sleepDist
      rw [Mem.setCore_core, Core.setWakeupTick_wakeupTick, Core.setWakeupTick_tick]
    have hdist : ∀ v, sleepDist (m.setCore fun core =>
        core.setWakeupTick (core.tcb u).wakeupTick).core v = sleepDist m.core v := by
      intro v
      unfold sleepDist
      rw [Mem.setCore_core, Core.setWakeupTick_tcb, Core.setWakeupTick_tick]
    dsimp only at hlt hhigh
    refine ⟨?_, ?_, fun v hv hs _ => ?_, fun t u hpc => by cases hpc⟩
    · dsimp only
      rw [hcache]
      exact hlow.1
    · dsimp only
      rw [hcache]
      omega
    · dsimp only
      rw [hcache, hdist]
      by_cases hvu : v = u
      · rw [hvu]
      · have hle := hi.sleepers v hv hs (by simp [Pc.resuming, Ne.symm hvu])
        dsimp only at hle
        omega
  | terminateSection => exact hi.requeue rfl (fun _ h => by cases h.1) (by simp)
  | joinSection => exact hi.requeue rfl (fun _ h => by cases h.2) (by simp)
  | @returned m t =>
    unfold afterVm
    split
    · rename_i e _
      have hset : WakeInv ⟨m.setTcb t (storeException e), .returned t⟩ :=
        hi.setTcb rfl (fun _ => ⟨⟨rfl, rfl⟩, rfl⟩) (by simp)
      exact hset.setCore ⟨rfl, rfl, rfl, rfl⟩ rfl (by simp)
    · exact hi.setCore ⟨rfl, rfl, rfl, rfl⟩ rfl (by simp)
  | stopped _ => exact hi.requeue rfl (fun _ h => by cases h.1) (by simp)
  | @release m t pc hpc' =>
    have htcb := noteException_tcb m.core
    have hcreated := noteException_created m.core
    have hset : WakeInv ⟨m.setCore noteException, .stoppedGap t⟩ :=
      hi.setCore ⟨htcb, hcreated, noteException_tick _, noteException_wakeupTick _⟩ rfl (by simp)
    exact hset.release hp.noteException hpc'
  | @unmark m t _ _ =>
    exact hi.wakeTcb rfl (fun _ h => by cases h.1) (by simp)
  | @switch m t =>
    refine hi.requeue rfl (fun _ h => ?_) (by simp)
    have hst : (m.core.tcb t).status = .ready := hpc.2
    have hst' : (m.core.tcb t).status = .waiting := h.1
    rw [hst] at hst'
    cases hst'

theorem run_wakeInv {as : List Act} (hw : Wf b) (hi : WakeInv b)
    (h : Run (Step cfg) (ShortSleeps cfg) b as b') : Wf b' ∧ WakeInv b' :=
  hw.run_invariant h (fun _ _ _ hw hi hok ht => ht.wakeInv hw hok hi) hi

end Cache

/-! ## One sleep -/

section Condition
variable {Q : Type}

def undisturbed (c : TaskId) (m : Mem Q) : Pc → Bool
  | .op _ (.suspendSection u) | .op _ (.terminateSection u) => u ≠ c
  | .op t (.joinSection _) => t ≠ c
  | .afterSlice t => t ≠ c || (m.core.tcb c).c.status ≠ .stopped
  | _ => true

/-- `c` is not suspended, terminated or stopped, and does not call `join` while it sleeps. -/
def Undisturbed (c : TaskId) (s : State Q) (a : Act) : Prop :=
  a = .run → undisturbed c s.mem s.pc = true

instance (c : TaskId) (s : State Q) (a : Act) : Decidable (Undisturbed c s a) :=
  inferInstanceAs (Decidable (_ → _))

end Condition

/-- `c` sleeps for `d` more ticks. -/
structure Asleep (c : TaskId) (d : Int) (b : State Lists) : Prop where
  created : c < b.mem.core.created
  sleeping : Sleeping b.mem.core c
  dist : sleepDist b.mem.core c = d
  settled : b.pc.resuming ≠ some c

section Sleep
variable {cfg : Config} {b b' : State Lists} {a : Act} {m : Mem Lists} {pc pc' : Pc} {c t u : TaskId}
  {d : Int}

theorem Asleep.write (h : Asleep c d ⟨m, pc⟩) (core : Core) (q : Lists)
    (hcreated : m.core.created ≤ core.created)
    (hsame : SameWait (m.core.tcb c) (core.tcb c))
    (hwake : (core.tcb c).wakeupTick = (m.core.tcb c).wakeupTick) (htick : core.tick = m.core.tick)
    (hres : pc'.resuming ≠ some c) : Asleep c d ⟨⟨core, q⟩, pc'⟩ := by
  refine ⟨lt_of_lt_of_le h.created hcreated, ⟨?_, ?_⟩, ?_, hres⟩
  · exact hsame.1.trans h.sleeping.1
  · exact hsame.2.trans h.sleeping.2
  · have hdist := h.dist
    unfold sleepDist at hdist ⊢
    dsimp only at hdist ⊢
    rw [hwake, htick]
    exact hdist

theorem Asleep.requeue {f : Tcb → Tcb} (h : Asleep c d ⟨m, pc⟩) (hne : c ≠ u)
    (hres : pc'.resuming ≠ some c) : Asleep c d ⟨Lists.requeue m u f, pc'⟩ := by
  have htcb := Lists.requeue_tcb m u c f
  rw [if_neg hne] at htcb
  refine h.write (Lists.requeue m u f).core _ (le_refl _) ?_ ?_ rfl hres
  · rw [htcb]
    exact SameWait.refl _
  · rw [htcb]

theorem Asleep.setTcb {f : Tcb → Tcb} (h : Asleep c d ⟨m, pc⟩)
    (hf : ∀ tcb, SameWait tcb (f tcb) ∧ (f tcb).wakeupTick = tcb.wakeupTick)
    (hres : pc'.resuming ≠ some c) : Asleep c d ⟨m.setTcb u f, pc'⟩ := by
  refine h.write (m.core.setTcb u f) _ (le_refl _) (SameWait.setTcb (m := m) fun tcb => (hf tcb).1)
    ?_ rfl hres
  rw [Core.setTcb_tcb]
  split
  · rename_i hcu
    rw [(hf _).2, hcu]
  · rfl

theorem Asleep.createTask {priority : Option Int} {proc : ProcId} (h : Asleep c d ⟨m, pc⟩) :
    Asleep c d ⟨Lists.createTask m priority proc, pc⟩ := by
  have htcb := Lists.createTask_tcb m c priority proc
  rw [if_neg (Nat.ne_of_lt h.created)] at htcb
  refine h.write (Lists.createTask m priority proc).core _ (Nat.le_succ _) ?_ ?_ rfl h.settled
  · rw [htcb]
    exact SameWait.refl _
  · rw [htcb]

/-- Only a tick brings a sleeper closer to its wake-up. -/
theorem Trans.asleep (h : Trans cfg b a b') (hw : Wf b) (ha : a ≠ .tick) (hu : Undisturbed c b a)
    (hs : Asleep c d b) : Asleep c d b' := by
  have hp := hw.placed
  have hpc := hw.pcOk
  have hst : (b.mem.core.tcb c).status = .waiting := hs.sleeping.1
  have hres : ∀ {m u v}, (resumePc (Q := Lists) m u v).resuming ≠ some c := by
    intro m u v
    unfold resumePc
    split <;> simp [Pc.resuming]
  cases h with
  | tick => exact absurd rfl ha
  | @silent m pc pc' a hsilent =>
    refine hs.write m.core _ (le_refl _) (SameWait.refl _) rfl rfl ?_
    have hset := hs.settled
    cases hsilent with
    | resumeTest _ => exact hset
    | resumeCompare _ => exact hset
    | nothing _ => exact hset
    | _ => simp [Pc.resuming]
  | bootCreate => exact hs.createTask
  | create => exact hs.createTask
  | @mark m t =>
    have hne : c ≠ t := by
      rintro rfl
      have hready : (m.core.tcb c).status = .ready := hpc.2
      exact absurd (hst.symm.trans hready) (by simp)
    refine hs.write (m.core.setTcb t _) _ (le_refl _) ?_ ?_ rfl (by simp [Pc.resuming])
    · rw [Core.setTcb_tcb, if_neg hne]
      exact SameWait.refl _
    · rw [Core.setTcb_tcb, if_neg hne]
  | @enter m t =>
    have hc : Asleep c d ⟨m.setCore fun core => { core with c := some t }, .marked t⟩ :=
      hs.write _ _ (le_refl _) (SameWait.refl _) rfl rfl hs.settled
    exact hc.setTcb (fun _ => ⟨⟨rfl, rfl⟩, rfl⟩) (by simp [Pc.resuming])
  | @vmReturn m t r =>
    have hset : Asleep c d ⟨m.setTcb t (storeResult r), .returned t⟩ :=
      hs.setTcb (fun _ => ⟨⟨rfl, rfl⟩, rfl⟩) (by simp [Pc.resuming])
    obtain ⟨exc, heq⟩ := vmReturn_eq m t r
    rw [heq]
    exact hset.write _ _ (le_refl _) (SameWait.refl _) rfl rfl hset.settled
  | setPriority _ => exact hs.setTcb (fun _ => ⟨⟨rfl, rfl⟩, rfl⟩) (by simp [Pc.resuming])
  | stop _ => exact hs.setTcb (fun _ => ⟨⟨rfl, rfl⟩, rfl⟩) (by simp [Pc.resuming])
  | execute _ =>
    refine hs.setTcb (fun tcb => ⟨resetContext_wait, ?_⟩) hres
    obtain ⟨c, hc⟩ := mrbSandboxExecute_eq _ tcb
    rw [hc]
  | execVmCode _ => exact hs.setTcb (fun _ => ⟨⟨rfl, rfl⟩, rfl⟩) hres
  | pass => exact hs.setTcb (fun _ => ⟨⟨rfl, rfl⟩, rfl⟩) (by simp [Pc.resuming])
  | passPriority => exact hs.setTcb (fun _ => ⟨⟨rfl, rfl⟩, rfl⟩) (by simp [Pc.resuming])
  | @sleepSection m t u ms =>
    have hne : c ≠ u := by
      rintro rfl
      obtain ⟨_, hready⟩ := hpc.2.2
      rcases hready with hr | hr <;> exact absurd (hst.symm.trans hr) (by simp)
    obtain ⟨_, hcreated, _, htick, _⟩ := Lists.sleep_core m u cfg ms
    have htcb := sleep_tcb cfg m u c ms
    rw [if_neg hne] at htcb
    refine hs.write (Lists.sleep cfg m u ms).core _ hcreated.ge ?_ ?_ htick (by simp [Pc.resuming])
    · rw [htcb]
      exact SameWait.refl _
    · rw [htcb]
  | @suspendSection m t u =>
    have hne : u ≠ c := by simpa [undisturbed] using hu rfl
    exact hs.requeue (Ne.symm hne) (by simp [Pc.resuming])
  | setSwitching => exact hs.write _ _ (le_refl _) (SameWait.refl _) rfl rfl (by simp [Pc.resuming])
  | @resumeSection m t u flag =>
    have hne : c ≠ u := by
      rintro rfl
      have hsusp : (m.core.tcb c).status = .suspended := hpc.2.2.2.1
      exact absurd (hst.symm.trans hsusp) (by simp)
    have hbase : Asleep c d ⟨if flag then Lists.preempt m else m, .op t (.resumeSection u flag)⟩ := by
      split
      · exact hs.write _ _ (le_refl _) (SameWait.refl _) rfl rfl hs.settled
      · exact hs
    exact hbase.requeue hne (by simp [Pc.resuming, Ne.symm hne])
  | resumeStore => exact hs.write _ _ (le_refl _) (SameWait.refl _) rfl rfl (by simp [Pc.resuming])
  | @terminateSection m t u =>
    have hne : u ≠ c := by simpa [undisturbed] using hu rfl
    exact hs.requeue (Ne.symm hne) (by simp [Pc.resuming])
  | @joinSection m t u =>
    have hne : t ≠ c := by simpa [undisturbed] using hu rfl
    have hcur : currentTask m t = t := currentTask_eq hpc.2.1
    rw [hcur]
    exact hs.requeue (Ne.symm hne) (by simp [Pc.resuming])
  | @returned m t =>
    unfold afterVm
    split
    · rename_i e _
      have hset : Asleep c d ⟨m.setTcb t (storeException e), .afterSlice t⟩ :=
        hs.setTcb (fun _ => ⟨⟨rfl, rfl⟩, rfl⟩) (by simp [Pc.resuming])
      exact hset.write _ _ (le_refl _) (SameWait.refl _) rfl rfl hset.settled
    · exact hs.write _ _ (le_refl _) (SameWait.refl _) rfl rfl (by simp [Pc.resuming])
  | @stopped m t hstopped =>
    have hne : c ≠ t := by
      rintro rfl
      have hno := hu rfl
      simp [undisturbed, hstopped] at hno
    exact hs.requeue hne (by simp [Pc.resuming])
  | @release m t pc' hpc' =>
    obtain ⟨k, hk⟩ := hp.release_noted_tcb t c
    have hno : ¬ hasJoined m.core t c := by
      intro hj
      have hreason : (m.core.tcb c).reason = .sleep := hs.sleeping.2
      exact absurd (hreason.symm.trans hj.1) TaskReason.noConfusion
    rw [if_neg fun h => hno h.2, if_neg fun h => hno h.2] at hk
    obtain ⟨hcreated, htick, _, _⟩ := Lists.release_core (m.setCore noteException) t
    refine hs.write (Lists.release (m.setCore noteException) t).core _ ?_ ?_ ?_ ?_ ?_
    · rw [hcreated, Mem.setCore_core, noteException_created]
    · rw [hk]
      exact SameWait.refl _
    · rw [hk]
    · rw [htick, Mem.setCore_core, noteException_tick]
    · rcases hpc' with rfl | rfl <;> simp [Pc.resuming]
  | @unmark m t _ hrunning =>
    have hne : c ≠ t := by
      rintro rfl
      exact absurd (hst.symm.trans hrunning) (by simp)
    refine hs.write (m.core.setTcb t _) _ (le_refl _) ?_ ?_ rfl (by simp [Pc.resuming])
    · rw [Core.setTcb_tcb, if_neg hne]
      exact SameWait.refl _
    · rw [Core.setTcb_tcb, if_neg hne]
  | @switch m t =>
    have hne : c ≠ t := by
      rintro rfl
      have hready : (m.core.tcb c).status = .ready := hpc.2
      exact absurd (hst.symm.trans hready) (by simp)
    exact hs.requeue hne (by simp [Pc.resuming])

/-- A tick brings a sleeper one tick closer, or wakes it. -/
theorem Asleep.tick (h : Asleep c d ⟨m, pc⟩) (hp : Placed m) (hi : WakeInv ⟨m, pc⟩)
    (hnear : Near d) :
    if 1 ≤ d then Asleep c (d - 1) ⟨Lists.tick m, pc⟩
    else ((Lists.tick m).core.tcb c).status = .ready ∧ ((Lists.tick m).core.tcb c).reason = .none := by
  obtain ⟨hc, hsleep, hdist, hsettled⟩ := h
  dsimp only at hc hsleep hdist hsettled
  subst hdist
  have hcreated := (Lists.tick_core (m := m)).2.1
  have hwake : signedDiff (m.core.tcb c).wakeupTick (m.core.tick + 1) = sleepDist m.core c - 1 :=
    Lists.sleepDist_succ hnear
  obtain ⟨n, k, hk⟩ := Lists.tick_tcb (hp.nodup qWaiting) c
  by_cases hpos : 1 ≤ sleepDist m.core c
  · rw [if_pos hpos]
    have hnot : ¬ Lists.Wakes m c := by
      intro hw
      have hdue := hw.2.2.2
      omega
    rw [if_neg hnot] at hk
    refine ⟨hcreated ▸ hc, ?_, Lists.tick_sleepDist hp hnear, hsettled⟩
    unfold Sleeping
    rw [hk]
    exact hsleep
  · rw [if_neg hpos]
    -- the cached time is not behind the sleeper, so this tick scans the waiting queue
    have hcache : cacheDist m.core ≤ sleepDist m.core c := hi.sleepers c hc hsleep hsettled
    have hlow : -2 ^ 30 < cacheDist m.core := hi.low
    have hscans : Lists.Scans m := by
      have hn : Near (cacheDist m.core) := ⟨hlow, by omega⟩
      rw [Lists.scans_iff_dist hn]
      omega
    have hwakes : Lists.Wakes m c :=
      ⟨hscans, hp.mem_waiting_iff.mpr ⟨hc, hsleep.1⟩, hsleep.2, by omega⟩
    rw [if_pos hwakes] at hk
    rw [hk]
    exact ⟨rfl, rfl⟩

/-- The steps allowed while `c` sleeps. -/
def Sleeps {Q : Type} (cfg : Config) (c : TaskId) (s : State Q) (a : Act) : Prop :=
  ShortSleeps cfg s a ∧ Undisturbed c s a

theorem Asleep.near (h : Asleep c d b) (hok : ShortSleeps cfg b a) : Near d := by
  have hn := hok.2 c h.created (Or.inl ⟨h.sleeping.2, Or.inl h.sleeping.1⟩)
  rw [h.dist] at hn
  exact hn

/-- The ticks of the rest of the sleep are counted down. -/
theorem asleep_run {as : List Act} (h : Run (Step cfg) (Sleeps cfg c) b as b')
    (hw : Wf b) (hi : WakeInv b) (hs : Asleep c d b)
    (hcount : as.count .tick = 0 ∨ (as.count .tick : Int) ≤ d) :
    Wf b' ∧ WakeInv b' ∧ Asleep c (d - as.count .tick) b' := by
  have hall : Wf b' ∧ WakeInv b' ∧
      (as.count .tick = 0 ∨ (as.count .tick : Int) ≤ d → Asleep c (d - as.count .tick) b') := by
    refine h.invariant_actions (I := fun as b => Wf b ∧ WakeInv b ∧
      (as.count .tick = 0 ∨ (as.count .tick : Int) ≤ d → Asleep c (d - as.count .tick) b)) ?_ ?_
    · rintro as s a t ⟨hw, hi, hs⟩ ⟨hok, hu⟩ hstep
      have htrans := hstep.trans
      refine ⟨htrans.wf hw, htrans.wakeInv hw hok hi, fun hle => ?_⟩
      rw [List.count_append, List.count_singleton] at hle ⊢
      by_cases ha : a = .tick
      · subst ha
        rw [beq_self_eq_true, if_pos rfl] at hle ⊢
        have hold := hs (by omega)
        obtain ⟨m, pc⟩ := s
        have hnext := hold.tick hw.placed hi (hold.near hok)
        rw [if_pos (by omega)] at hnext
        rw [hstep.tick_eq]
        have hd : d - as.count .tick - 1 = d - (as.count .tick + 1 : Nat) := by omega
        rw [← hd]
        exact hnext
      · have hne : (a == Act.tick) = false := by simpa using ha
        rw [hne] at hle ⊢
        simp only [Bool.false_eq_true, if_false, Nat.add_zero] at hle ⊢
        exact htrans.asleep hw ha hu (hs hle)
    · refine ⟨hw, hi, fun _ => ?_⟩
      simpa using hs
  exact ⟨hall.1, hall.2.1, hall.2.2 hcount⟩

/-- The first tick after the sleep has run out wakes the sleeper. -/
theorem asleep_wakes {as : List Act} (h : Run (Step cfg) (Sleeps cfg c) b (as ++ [.tick]) b')
    (hw : Wf b) (hi : WakeInv b) (hs : Asleep c d b) (hcount : as.count .tick = d.toNat) :
    (b'.mem.core.tcb c).status = .ready ∧ (b'.mem.core.tcb c).reason = .none := by
  obtain ⟨b₁, hbefore, hok, htick⟩ := h.snoc_inv
  obtain ⟨hw₁, hi₁, hend⟩ := asleep_run hbefore hw hi hs (by omega)
  obtain ⟨m, pc⟩ := b₁
  have hwake := hend.tick hw₁.placed hi₁ (hend.near hok.1)
  rw [if_neg (by omega)] at hwake
  rw [htick.tick_eq]
  exact hwake

end Sleep

/-! ## Sleep timing -/

/-- `⌈ms / MRB_TICK_UNIT⌉`. -/
def ceilTicks (cfg : Config) (ms : Int) : Int := -(-ms / cfg.tickUnit)

theorem sleepTicks_eq {cfg : Config} {ms : Int} (h : 0 ≤ ms) : sleepTicks cfg ms = ceilTicks cfg ms := by
  unfold sleepTicks ceilTicks
  rw [Int.tdiv_eq_ediv_of_nonneg h, Int.tmod_eq_emod_of_nonneg h, Int.neg_ediv]
  have hpos : (0 : Int) < cfg.tickUnit := Int.natCast_pos.mpr cfg.tickUnit_pos
  have hsign : (cfg.tickUnit : Int).sign = 1 := Int.sign_eq_one_of_pos hpos
  by_cases hmod : ms % cfg.tickUnit = 0
  · have hdvd : (cfg.tickUnit : Int) ∣ ms := Int.dvd_of_emod_eq_zero hmod
    simp [hmod, hdvd]
  · have hdvd : ¬ (cfg.tickUnit : Int) ∣ ms := fun h => hmod (Int.emod_eq_zero_of_dvd h)
    simp [hmod, hdvd, hsign]
    omega

/-- From the read of `q_ready_` in a call of `sleep_ms(ms)` by `c`: behind the critical
section `c` is WAITING for `⌈ms / MRB_TICK_UNIT⌉` ticks, and the next tick makes it READY. -/
def SleepsFor (cfg : Config) (c : TaskId) (ms : Int) (s : State Links) : Prop :=
  ∀ (j : Nat) (s₁ : State Links),
    Run (Step cfg) (ShortSleeps cfg) s (.run :: (List.replicate j .tick ++ [.run])) s₁ →
    ∀ (as : List Act) (s₂ : State Links), Run (Step cfg) (Sleeps cfg c) s₁ as s₂ →
      ((as.count .tick : Int) ≤ ceilTicks cfg ms → Sleeping s₂.mem.core c) ∧
      (∀ bs, as = bs ++ [.tick] → (as.count .tick : Int) = ceilTicks cfg ms + 1 →
        (s₂.mem.core.tcb c).status = .ready ∧ (s₂.mem.core.tcb c).reason = .none)

section Timing
variable {cfg : Config} {s : State Links} {b b' : State Lists} {c : TaskId} {ms : Int}

theorem shortSleeps_related (s : State Links) (b : State Lists) (a : Act) (h : Related s b)
    (hok : ShortSleeps cfg s a) : ShortSleeps cfg b a := by
  unfold ShortSleeps at hok ⊢
  rw [h.core, h.pc] at hok
  exact hok

theorem sleeps_related (s : State Links) (b : State Lists) (a : Act) (h : Related s b)
    (hok : Sleeps cfg c s a) : Sleeps cfg c b a := by
  refine ⟨shortSleeps_related s b a h hok.1, fun ha => ?_⟩
  have hu := hok.2 ha
  unfold undisturbed at hu ⊢
  rw [h.core, h.pc] at hu
  exact hu

theorem ticks_pc {Ok : State Lists → Act → Prop} {j : Nat}
    (h : Run (Step cfg) Ok b (List.replicate j .tick) b') : b'.pc = b.pc := by
  induction j generalizing b' with
  | zero =>
    rw [h.nil_inv]
  | succ j ih =>
    rw [List.replicate_succ'] at h
    obtain ⟨b₁, hrun, _, hstep⟩ := h.snoc_inv
    rw [← ih hrun]
    obtain ⟨m, pc⟩ := b₁
    rw [hstep.tick_eq]

/-- The read and the critical section of a call that finds its caller at the head. -/
theorem call_asleep {j : Nat} (hw : Wf b) (hi : WakeInv b) (hpc : b.pc = .op c (.sleepEnter ms))
    (hms : 0 ≤ ms) (hhead : (b.mem.queues qReady).head? = some c)
    (h : Run (Step cfg) (ShortSleeps cfg) b (.run :: (List.replicate j .tick ++ [.run])) b') :
    Wf b' ∧ WakeInv b' ∧ Asleep c (ceilTicks cfg ms) b' := by
  obtain ⟨hw', hi'⟩ := run_wakeInv hw hi h
  refine ⟨hw', hi', ?_⟩
  obtain ⟨b₁, hok₁, hread, hrest⟩ := h.cons_inv
  obtain ⟨b₂, hticks, hok₂, hsection⟩ := hrest.snoc_inv
  obtain ⟨hw₂, hi₂⟩ := run_wakeInv (hread.trans.wf hw) (hread.trans.wakeInv hw hok₁ hi) hticks
  have hpc₁ : b₁.pc = .op c (.sleepSection (some c) ms) := by
    obtain ⟨m, pc⟩ := b
    dsimp only at hpc hhead
    subst hpc
    cases hread
    rw [← hhead]
    rfl
  have hpc₂ := (ticks_pc hticks).trans hpc₁
  obtain ⟨m, pc⟩ := b₂
  dsimp only at hpc₂
  subst hpc₂
  have hnear : Near (sleepTicks cfg ms) := hok₂.1
  have hlt : c < m.core.created := hw₂.pcOk.1
  cases hsection.trans with
  | silent hs => cases hs
  | sleepSection =>
    refine ⟨?_, ?_, ?_, by simp [Pc.resuming]⟩
    · rw [(Lists.sleep_core m c cfg ms).2.1]
      exact hlt
    · unfold Sleeping
      dsimp only
      rw [sleep_tcb, if_pos rfl]
      exact ⟨rfl, rfl⟩
    · rw [← sleepTicks_eq hms]
      exact sleep_sleepDist hnear

theorem Related.sleepsFor (h : Related s b) (hi : WakeInv b) (hpc : s.pc = .op c (.sleepEnter ms))
    (hms : 0 ≤ ms) (hhead : TaskQueues.head s.mem.queues qReady = some c) :
    SleepsFor cfg c ms s := by
  intro j s₁ hcall as s₂ hrun
  obtain ⟨b₁, hcall', hrel₁⟩ := h.run shortSleeps_related hcall
  obtain ⟨hw₁, hi₁, hasleep⟩ := call_asleep h.wf hi (h.pc ▸ hpc) hms ((h.head qReady).symm.trans hhead)
    hcall'
  constructor
  · intro hcount
    obtain ⟨b₂, hrun', hrel₂⟩ := hrel₁.run sleeps_related hrun
    obtain ⟨_, _, hend⟩ := asleep_run hrun' hw₁ hi₁ hasleep (Or.inr hcount)
    rw [hrel₂.core]
    exact hend.sleeping
  · rintro bs rfl hcount
    rw [List.count_append, List.count_singleton_self] at hcount
    obtain ⟨b₂, hrun', hrel₂⟩ := hrel₁.run sleeps_related hrun
    rw [hrel₂.core]
    exact asleep_wakes hrun' hw₁ hi₁ hasleep (by omega)

/-- `wakeup_tick_` is not later than the wake-up time of a sleeping task, once
`mrb_resume_task` is through with it. -/
def NotLate (s : State Links) : Prop :=
  ∀ u < s.mem.core.created, Sleeping s.mem.core u → s.pc.resuming ≠ some u →
    signedDiff s.mem.core.wakeupTick (s.mem.core.tcb u).wakeupTick ≤ 0

theorem Related.notLate (h : Related s b) (hi : WakeInv b) (hok : ShortSleeps cfg b .tick) :
    NotLate s := by
  intro u hu hsleep hpc
  rw [h.core] at hu hsleep ⊢
  rw [h.pc] at hpc
  have hle := hi.sleepers u hu hsleep hpc
  have hlow := hi.low
  have hhigh := hi.high
  have hn := hok.2 u hu (Or.inl ⟨hsleep.2, Or.inl hsleep.1⟩)
  have hdiff : signedDiff b.mem.core.wakeupTick (b.mem.core.tcb u).wakeupTick =
      cacheDist b.mem.core - sleepDist b.mem.core u := by
    unfold Near at hn
    unfold sleepDist cacheDist at *
    apply signedDiff_eq_sub <;> omega
  omega

/-- In every run with short sleeps the cached wake-up time is not late, and a call of
`sleep_ms` that finds its caller at the head of the ready queue lasts as long as asked. -/
theorem sleepTiming_of_run {as : List Act} (h : Run (Step cfg) (ShortSleeps cfg) boot as s) :
    (ShortSleeps cfg s .tick → NotLate s) ∧
      ∀ c ms, s.pc = .op c (.sleepEnter ms) → 0 ≤ ms → head s.mem.queues qReady = some c →
        SleepsFor cfg c ms s := by
  obtain ⟨b, hrun, hrel⟩ := Related.boot.run shortSleeps_related h
  obtain ⟨_, hi⟩ := run_wakeInv Wf.init WakeInv.init hrun
  refine ⟨fun hok => hrel.notLate hi (shortSleeps_related s b .tick hrel hok), ?_⟩
  intro c ms hpc hms hhead
  exact hrel.sleepsFor hi hpc hms hhead

end Timing

theorem sleepTiming_of_firstSleep : ∃ s,
    Run (Step Config.hal) (ShortSleeps Config.hal) boot firstSleep s ∧ NotLate s ∧
      SleepsFor Config.hal 0 4 s := by
  have hplay : ∃ s ∈ play Config.hal (ShortSleeps Config.hal) boot firstSleep,
      s.pc = .op 0 (.sleepEnter 4) ∧ head s.mem.queues qReady = some 0 ∧
        ShortSleeps Config.hal s .tick := by decide +kernel
  obtain ⟨s, hs, hpc, hhead, hok⟩ := hplay
  obtain ⟨hlate, hsleep⟩ := sleepTiming_of_run (run_of_play hs)
  exact ⟨s, run_of_play hs, hlate hok, hsleep 0 4 hpc (by decide) hhead⟩

/-- Task 1 calls `sleep_ms` and stays RUNNING. -/
theorem sleepTiming_fails : ¬ ∀ (as : List Act) (s : State Links) (c : TaskId) (ms : Int),
    Run (Step Config.hal) (ShortSleeps Config.hal) boot as s → s.pc = .op c (.sleepEnter ms) →
      0 ≤ ceilTicks Config.hal ms → SleepsFor Config.hal c ms s := by
  intro hall
  have hplay : ∃ s ∈ play Config.hal (ShortSleeps Config.hal) boot wakeDuringSleep,
      s.pc = .op 1 (.sleepEnter 4) ∧
        ∃ s₁ ∈ play Config.hal (ShortSleeps Config.hal) s [.run, .run],
          (s₁.mem.core.tcb 1).status = .running := by decide +kernel
  obtain ⟨s, hs, hpc, s₁, hs₁, hrunning⟩ := hplay
  have hsleeps := hall _ s 1 4 (run_of_play hs) hpc (by decide) 0 s₁ (run_of_play hs₁) [] s₁ (.refl _)
  have hwaiting := (hsleeps.1 (by decide)).1
  rw [hrunning] at hwaiting
  cases hwaiting

end PicoRuby.Task
