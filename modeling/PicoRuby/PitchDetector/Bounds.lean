import PicoRuby.PitchDetector.Detect

/-!
# The indices

`analyze_low_frequency` clips its window for the period it is given, and reads with every other period near it.
-/

namespace PicoRuby.PitchDetector

set_option autoImplicit false

/-- Every access is in its array. -/
def AllInBounds (c : Config) (accesses : List Access) : Prop := ∀ a ∈ accesses, a.InBounds c

section Bounds
variable {c : Config} {o : Comparisons}

theorem allInBounds_append {l m : List Access} : AllInBounds c (l ++ m) ↔ AllInBounds c l ∧ AllInBounds c m :=
  List.forall_mem_append

theorem allInBounds_cons {a : Access} {l : List Access} : AllInBounds c (a :: l) ↔ a.InBounds c ∧ AllInBounds c l :=
  List.forall_mem_cons

theorem allInBounds_nil : AllInBounds c [] := nofun

theorem allInBounds_flatMap {n s : Nat} {f : Nat → List Access} (h : ∀ i, s ≤ i → i < s + n → AllInBounds c (f i)) :
    AllInBounds c ((List.range' s n).flatMap f) := by
  intro a ha
  obtain ⟨i, hi, ha⟩ := List.mem_flatMap.mp ha
  obtain ⟨hle, hlt⟩ := List.mem_range'_1.mp hi
  exact h i hle hlt a ha

theorem allInBounds_range {n : Nat} {f : Nat → List Access} (h : ∀ i < n, AllInBounds c (f i)) :
    AllInBounds c ((List.range n).flatMap f) := by
  intro a ha
  obtain ⟨i, hi, ha⟩ := List.mem_flatMap.mp ha
  exact h i (List.mem_range.mp hi) a ha

theorem buffer_inBounds {i : Nat} (h : i < c.bufferSize) : (Access.buffer i).InBounds c :=
  ⟨Int.natCast_nonneg i, Int.ofNat_lt.mpr h⟩

theorem yin_inBounds {i : Nat} (h : i < c.maxPeriod) : (Access.yin i).InBounds c :=
  ⟨Int.natCast_nonneg i, Int.ofNat_lt.mpr h⟩

theorem candidate_inBounds {i : Nat} (h : i < 5) : (Access.candidate i).InBounds c :=
  ⟨Int.natCast_nonneg i, Int.ofNat_lt.mpr h⟩

theorem history_inBounds {i : Nat} (h : i < signalHistorySize) : (Access.history i).InBounds c :=
  ⟨Int.natCast_nonneg i, Int.ofNat_lt.mpr h⟩

/-! ## The signal -/

theorem calculateSignalPower_inBounds : AllInBounds c (calculateSignalPower c) := by
  have hall : AllInBounds c ((List.range c.bufferSize).map fun i : Nat => .buffer i) := by
    intro a ha
    obtain ⟨i, hi, rfl⟩ := List.mem_map.mp ha
    exact buffer_inBounds (List.mem_range.mp hi)
  exact allInBounds_append.mpr ⟨hall, hall⟩

theorem updateNoiseEstimate_inBounds {h : History} (hindex : h.index < signalHistorySize) :
    AllInBounds c (updateNoiseEstimate o h).1 ∧ (updateNoiseEstimate o h).2.index < signalHistorySize := by
  refine ⟨allInBounds_cons.mpr ⟨history_inBounds hindex, ?_⟩, Nat.mod_lt _ (by decide)⟩
  split
  · refine allInBounds_cons.mpr ⟨history_inBounds (i := 0) (by decide), allInBounds_flatMap fun i _ hi => ?_⟩
    have hi' : (Access.history i).InBounds c := history_inBounds hi
    split
    · exact allInBounds_cons.mpr ⟨hi', allInBounds_cons.mpr ⟨hi', allInBounds_nil⟩⟩
    · exact allInBounds_cons.mpr ⟨hi', allInBounds_nil⟩
  · exact allInBounds_nil

theorem applyHighpassFilter_inBounds : AllInBounds c (applyHighpassFilter c) := by
  unfold applyHighpassFilter
  apply allInBounds_range
  intro i hi
  exact allInBounds_cons.mpr ⟨buffer_inBounds hi, allInBounds_cons.mpr ⟨buffer_inBounds hi, allInBounds_nil⟩⟩

/-! ## Periods -/

/-- Two indices of half the buffer are together in it. -/
theorem sum_lt {i j : Nat} (hi : i < c.maxPeriod) (hj : j < c.maxPeriod) : i + j < c.bufferSize := by
  unfold Config.maxPeriod at hi hj
  omega

theorem yinDifferenceFunction_inBounds (hsize : 0 < c.bufferSize) : AllInBounds c (yinDifferenceFunction c) := by
  have heven := c.even
  have hpos : 0 < c.maxPeriod := by
    unfold Config.maxPeriod
    omega
  unfold yinDifferenceFunction
  refine allInBounds_append.mpr ⟨?_, allInBounds_cons.mpr ⟨yin_inBounds hpos, ?_⟩⟩
  · apply allInBounds_range
    intro tau htau
    refine allInBounds_append.mpr ⟨?_, allInBounds_cons.mpr ⟨yin_inBounds htau, allInBounds_nil⟩⟩
    apply allInBounds_range
    intro j hj
    have hfirst : (Access.buffer j).InBounds c := buffer_inBounds (Nat.lt_of_le_of_lt (Nat.le_add_right j tau) (sum_lt hj htau))
    have hsecond : (Access.buffer (j + tau : Nat)).InBounds c := buffer_inBounds (sum_lt hj htau)
    exact allInBounds_cons.mpr ⟨hfirst, allInBounds_cons.mpr ⟨hsecond, allInBounds_nil⟩⟩
  · apply allInBounds_flatMap
    intro tau _ hlt
    have htau : (Access.yin tau).InBounds c := yin_inBounds (by omega)
    exact allInBounds_cons.mpr ⟨htau, allInBounds_cons.mpr ⟨htau, allInBounds_nil⟩⟩

theorem parabolicInterpolation_inBounds (tau : Nat) : AllInBounds c (parabolicInterpolation c tau) := by
  unfold parabolicInterpolation
  split
  · exact allInBounds_nil
  · rename_i hmiddle
    rw [not_or] at hmiddle
    refine allInBounds_cons.mpr ⟨⟨?_, ?_⟩, allInBounds_cons.mpr ⟨⟨?_, ?_⟩, allInBounds_cons.mpr ⟨⟨?_, ?_⟩, allInBounds_nil⟩⟩⟩
    all_goals omega

theorem localMin_inBounds {tau : Nat} (htau : tau < c.maxPeriod) (ks : List Int) :
    AllInBounds c (localMin c o tau ks).1 := by
  induction ks with
  | nil => exact allInBounds_nil
  | cons k ks ih =>
    unfold localMin
    split
    · rename_i hwithin
      have hpair : AllInBounds c [.yin (tau + k), .yin tau] := by
        refine allInBounds_cons.mpr ⟨⟨?_, hwithin.2⟩, allInBounds_cons.mpr ⟨yin_inBounds htau, allInBounds_nil⟩⟩
        omega
      split
      · exact hpair
      · exact allInBounds_append.mpr ⟨hpair, ih⟩
    · exact ih

theorem examine_inBounds {tau : Nat} (htau : tau < c.maxPeriod) : AllInBounds c (examine c o tau).1 := by
  unfold examine
  split
  · exact allInBounds_cons.mpr ⟨yin_inBounds htau, localMin_inBounds htau _⟩
  · exact allInBounds_cons.mpr ⟨yin_inBounds htau, allInBounds_nil⟩

/-- The candidates are periods, and there are at most five. -/
structure Candidates.Good (c : Config) (cs : Candidates) : Prop where
  count : cs.count ≤ 5
  period : ∀ i < cs.count, c.minPeriod ≤ cs.period i ∧ cs.period i < c.maxPeriod

theorem Candidates.Good.push {cs : Candidates} (h : cs.Good c) (hcount : cs.count < 5) {tau : Nat}
    (hmin : c.minPeriod ≤ tau) (hmax : tau < c.maxPeriod) : (cs.push tau).Good c := by
  refine ⟨hcount, fun i hi => ?_⟩
  unfold Candidates.push
  dsimp only
  split
  · exact ⟨hmin, hmax⟩
  · rename_i hne
    exact h.period i (Nat.lt_of_le_of_ne (Nat.le_of_lt_succ hi) hne)

theorem Candidates.Good.swap {cs : Candidates} (h : cs.Good c) {i j : Nat} (hi : i < cs.count) (hj : j < cs.count) :
    (cs.swap i j).Good c := by
  refine ⟨h.count, fun k hk => ?_⟩
  unfold Candidates.swap
  dsimp only
  split
  · exact h.period j hj
  · split
    · exact h.period i hi
    · exact h.period k hk

theorem findCandidates_inBounds (tau : Nat) {cs : Candidates} (h : cs.Good c) (hmin : c.minPeriod ≤ tau) :
    AllInBounds c (findCandidates c o tau cs).1 ∧ (findCandidates c o tau cs).2.Good c := by
  fun_induction findCandidates c o tau cs with
  | case1 tau cs hgo hfound rest ih =>
    have hone : (Access.candidate cs.count).InBounds c := candidate_inBounds hgo.2
    obtain ⟨hrest, hgood⟩ := ih (h.push hgo.2 hmin hgo.1) (Nat.le_succ_of_le hmin)
    refine ⟨allInBounds_append.mpr ⟨allInBounds_append.mpr ⟨examine_inBounds hgo.1, ?_⟩, hrest⟩, hgood⟩
    exact allInBounds_cons.mpr ⟨hone, allInBounds_cons.mpr ⟨hone, allInBounds_cons.mpr ⟨yin_inBounds hgo.1, allInBounds_nil⟩⟩⟩
  | case2 tau cs hgo hnone rest ih =>
    obtain ⟨hrest, hgood⟩ := ih h (Nat.le_succ_of_le hmin)
    exact ⟨allInBounds_append.mpr ⟨examine_inBounds hgo.1, hrest⟩, hgood⟩
  | case3 tau cs hstop => exact ⟨allInBounds_nil, h⟩

theorem sortPairs_lt {count : Nat} {p : Nat × Nat} (hp : p ∈ sortPairs count) : p.1 < count ∧ p.2 < count := by
  obtain ⟨i, hi, hp⟩ := List.mem_flatMap.mp hp
  obtain ⟨j, hj, rfl⟩ := List.mem_map.mp hp
  have hi' := List.mem_range.mp hi
  have hj' := List.mem_range'_1.mp hj
  dsimp only
  omega

theorem sortCandidates_inBounds (pairs : List (Nat × Nat)) {cs : Candidates} (h : cs.Good c)
    (hpairs : ∀ p ∈ pairs, p.1 < cs.count ∧ p.2 < cs.count) :
    AllInBounds c (sortCandidates o pairs cs).1 ∧ (sortCandidates o pairs cs).2.Good c ∧
      (sortCandidates o pairs cs).2.count = cs.count := by
  induction pairs generalizing cs with
  | nil => exact ⟨allInBounds_nil, h, rfl⟩
  | cons p pairs ih =>
    obtain ⟨⟨hi, hj⟩, hrest⟩ := List.forall_mem_cons.mp hpairs
    have hi' : (Access.candidate p.1).InBounds c := candidate_inBounds (Nat.lt_of_lt_of_le hi h.count)
    have hj' : (Access.candidate p.2).InBounds c := candidate_inBounds (Nat.lt_of_lt_of_le hj h.count)
    have hcompare : AllInBounds c [.candidate p.2, .candidate p.1] :=
      allInBounds_cons.mpr ⟨hj', allInBounds_cons.mpr ⟨hi', allInBounds_nil⟩⟩
    have hexchange : AllInBounds c [.candidate p.1, .candidate p.1, .candidate p.2, .candidate p.2] :=
      allInBounds_cons.mpr ⟨hi', allInBounds_cons.mpr ⟨hi', allInBounds_cons.mpr ⟨hj', allInBounds_cons.mpr ⟨hj', allInBounds_nil⟩⟩⟩⟩
    unfold sortCandidates
    dsimp only
    split
    · obtain ⟨haccesses, hgood, hcount⟩ := ih (h.swap hi hj) hrest
      refine ⟨allInBounds_append.mpr ⟨?_, haccesses⟩, hgood, hcount⟩
      exact allInBounds_append.mpr ⟨hcompare, hexchange⟩
    · obtain ⟨haccesses, hgood, hcount⟩ := ih h hrest
      exact ⟨allInBounds_append.mpr ⟨hcompare, haccesses⟩, hgood, hcount⟩

theorem support_inBounds {cs : Candidates} (h : cs.Good c) {i : Nat} (hi : i < cs.count) :
    AllInBounds c (support o cs i) := by
  have hi' : (Access.candidate i).InBounds c := candidate_inBounds (Nat.lt_of_lt_of_le hi h.count)
  refine allInBounds_append.mpr ⟨allInBounds_cons.mpr ⟨hi', allInBounds_cons.mpr ⟨hi', allInBounds_nil⟩⟩, ?_⟩
  apply allInBounds_range
  intro j hj
  have hj' : (Access.candidate j).InBounds c := candidate_inBounds (Nat.lt_of_lt_of_le hj h.count)
  split
  · refine allInBounds_append.mpr ⟨?_, ?_⟩
    · exact allInBounds_cons.mpr ⟨hi', allInBounds_cons.mpr ⟨hj', allInBounds_cons.mpr ⟨hi', allInBounds_cons.mpr ⟨hj', allInBounds_nil⟩⟩⟩⟩
    · split
      · exact allInBounds_cons.mpr ⟨hj', allInBounds_nil⟩
      · exact allInBounds_nil
  · exact allInBounds_nil

theorem chooseCandidate_inBounds {cs : Candidates} (h : cs.Good c) (hcount : 0 < cs.count) (is : List Nat)
    (his : ∀ i ∈ is, i < cs.count) :
    AllInBounds c (chooseCandidate o cs is).1 ∧ c.minPeriod ≤ (chooseCandidate o cs is).2 ∧
      (chooseCandidate o cs is).2 < c.maxPeriod := by
  induction is with
  | nil => exact ⟨allInBounds_cons.mpr ⟨candidate_inBounds (i := 0) (by decide), allInBounds_nil⟩, h.period 0 hcount⟩
  | cons i is ih =>
    obtain ⟨hi, hrest⟩ := List.forall_mem_cons.mp his
    unfold chooseCandidate
    split
    · exact ⟨support_inBounds h hi, h.period i hi⟩
    · exact ⟨allInBounds_append.mpr ⟨support_inBounds h hi, (ih hrest).1⟩, (ih hrest).2⟩

/-- The fundamental is one of the periods that are looked at. -/
theorem findFundamentalPeriod_inBounds :
    AllInBounds c (findFundamentalPeriod c o).1 ∧ ((findFundamentalPeriod c o).2 = 0 ∨
      c.minPeriod ≤ (findFundamentalPeriod c o).2 ∧ (findFundamentalPeriod c o).2 < c.maxPeriod) := by
  have hnone : Candidates.Good c ⟨fun _ => 0, 0⟩ := ⟨Nat.zero_le 5, nofun⟩
  obtain ⟨hfound, hgood⟩ := findCandidates_inBounds (o := o) c.minPeriod hnone (Nat.le_refl _)
  unfold findFundamentalPeriod
  dsimp only
  split
  · exact ⟨hfound, .inl rfl⟩
  · rename_i hcount
    obtain ⟨hsorted, hgood', hsame⟩ := sortCandidates_inBounds (o := o) _ hgood fun p hp => sortPairs_lt hp
    have hpos := Nat.pos_of_ne_zero hcount
    rw [← hsame] at hpos
    obtain ⟨hchosen, hperiod⟩ := chooseCandidate_inBounds (o := o) hgood' hpos _ fun i hi => List.mem_range.mp hi
    exact ⟨allInBounds_append.mpr ⟨allInBounds_append.mpr ⟨hfound, hsorted⟩, hchosen⟩, .inr hperiod⟩

/-- With the period itself, and with a shorter one, the window fits. -/
theorem analyzeLowFrequency_inBounds {p : Nat} (hnear : p / 20 = 0 ∨ p + 1 = c.maxPeriod) :
    AllInBounds c (analyzeLowFrequency c p) := by
  have heven := c.even
  unfold Config.maxPeriod at hnear
  unfold analyzeLowFrequency
  split
  · exact allInBounds_nil
  · apply allInBounds_range
    intro n hn
    dsimp only
    split
    · exact allInBounds_nil
    · rename_i htest
      rw [not_or] at htest
      apply allInBounds_range
      intro i hi
      have hwindow : (i : Int) < c.bufferSize - p := by
        split at hi
        · omega
        · omega
      refine allInBounds_cons.mpr ⟨⟨by omega, by omega⟩, allInBounds_cons.mpr ⟨⟨by omega, ?_⟩, allInBounds_nil⟩⟩
      omega

/-- What the periods have to be for the buffer. -/
def Fits (c : Config) : Prop := 0 < c.bufferSize ∧ (c.bufferSize < 44 ∨ c.maxPeriod - 2 < c.minPeriod)

theorem detectPitchCore_inBounds (hfits : Fits c) {h : History} (hindex : h.index < signalHistorySize) :
    AllInBounds c (detectPitchCore c o h).1 ∧ (detectPitchCore c o h).2.index < signalHistorySize := by
  have heven := c.even
  obtain ⟨hupdate, hindex'⟩ := updateNoiseEstimate_inBounds (c := c) (o := o) hindex
  refine ⟨allInBounds_append.mpr ⟨allInBounds_append.mpr ⟨calculateSignalPower_inBounds, hupdate⟩, ?_⟩, hindex'⟩
  split
  · exact allInBounds_nil
  obtain ⟨hfound, hperiod⟩ := findFundamentalPeriod_inBounds (c := c) (o := o)
  have hbefore := allInBounds_append.mpr ⟨allInBounds_append.mpr ⟨allInBounds_append.mpr
    ⟨applyHighpassFilter_inBounds, calculateSignalPower_inBounds⟩, yinDifferenceFunction_inBounds hfits.1⟩, hfound⟩
  refine allInBounds_append.mpr ⟨hbefore, ?_⟩
  split
  · exact allInBounds_nil
  · rename_i hne
    obtain ⟨hmin, hmax⟩ := hperiod.resolve_left hne
    refine allInBounds_append.mpr ⟨parabolicInterpolation_inBounds _, ?_⟩
    split
    · apply analyzeLowFrequency_inBounds
      have hfits' := hfits.2
      unfold Config.maxPeriod at hmax hfits' ⊢
      omega
    · exact allInBounds_nil

theorem detections_inBounds (hfits : Fits c) (os : List Comparisons) {h : History} (hindex : h.index < signalHistorySize) :
    AllInBounds c (detections c os h) := by
  induction os generalizing h with
  | nil => exact allInBounds_nil
  | cons o os ih =>
    obtain ⟨hcall, hindex'⟩ := detectPitchCore_inBounds (o := o) hfits hindex
    exact allInBounds_append.mpr ⟨hcall, ih hindex'⟩

end Bounds

/-! ## A low note -/

section Low
variable (c : Config)

/-- A loud signal in which only the period `maxPeriod - 2` is found. -/
def lowNote : Comparisons where
  quieter _ := false
  weak := false
  faint := false
  below tau := tau == c.maxPeriod - 2
  lower _ _ := false
  stronger _ _ := false
  harmonic _ _ := false
  confident _ := false
  low := true

variable {c}

theorem localMin_true (tau : Nat) (ks : List Int) : (localMin c (lowNote c) tau ks).2 = true := by
  induction ks with
  | nil => rfl
  | cons k ks ih =>
    unfold localMin
    split
    · exact ih
    · exact ih

theorem examine_lowNote (tau : Nat) : (examine c (lowNote c) tau).2 = (tau == c.maxPeriod - 2) := by
  unfold examine
  cases hbelow : (lowNote c).below tau with
  | true =>
    rw [if_pos rfl, localMin_true]
    exact hbelow.symm
  | false => exact hbelow.symm

/-- Behind the period there is no candidate. -/
theorem findCandidates_after (tau : Nat) (cs : Candidates) (htau : c.maxPeriod - 2 < tau) :
    (findCandidates c (lowNote c) tau cs).2 = cs := by
  fun_induction findCandidates c (lowNote c) tau cs with
  | case1 tau cs hgo hfound rest ih =>
    rw [examine_lowNote] at hfound
    have heq := beq_iff_eq.mp hfound
    omega
  | case2 tau cs hgo hnone rest ih => exact ih (Nat.lt_succ_of_lt htau)
  | case3 tau cs hstop => rfl

theorem findCandidates_lowNote (n tau : Nat) (cs : Candidates) (hcount : cs.count = 0) (hmax : 2 ≤ c.maxPeriod)
    (htau : tau + n = c.maxPeriod - 2) :
    (findCandidates c (lowNote c) tau cs).2 = cs.push (c.maxPeriod - 2) := by
  have hgo : tau < c.maxPeriod ∧ cs.count < 5 := by omega
  induction n generalizing tau with
  | zero =>
    obtain rfl : tau = c.maxPeriod - 2 := htau
    rw [findCandidates, if_pos hgo, if_pos (by rw [examine_lowNote]; exact beq_self_eq_true _)]
    exact findCandidates_after _ _ (Nat.lt_succ_self _)
  | succ n ih =>
    rw [findCandidates, if_pos hgo, if_neg]
    · exact ih (tau + 1) (by omega) (by omega)
    · rw [examine_lowNote]
      intro heq
      have heq' := beq_iff_eq.mp heq
      omega

theorem findFundamentalPeriod_lowNote (hmax : 2 ≤ c.maxPeriod) (hmin : c.minPeriod ≤ c.maxPeriod - 2) :
    (findFundamentalPeriod c (lowNote c)).2 = c.maxPeriod - 2 := by
  have hfound := findCandidates_lowNote (c.maxPeriod - 2 - c.minPeriod) c.minPeriod ⟨fun _ => 0, 0⟩ rfl hmax (by omega)
  unfold findFundamentalPeriod
  dsimp only
  rw [hfound]
  rfl

/-- Read with the next period, the window runs over the end of the buffer. -/
theorem analyzeLowFrequency_overrun (hsize : 44 ≤ c.bufferSize) :
    Access.buffer c.bufferSize ∈ analyzeLowFrequency c (c.maxPeriod - 2) := by
  have heven := c.even
  unfold analyzeLowFrequency
  rw [if_neg (by unfold Config.maxPeriod; omega)]
  refine List.mem_flatMap.mpr ⟨(c.maxPeriod - 2) / 20 + 1, List.mem_range.mpr ?_, ?_⟩
  · unfold Config.maxPeriod
    omega
  dsimp only
  rw [if_neg (by unfold Config.maxPeriod; omega), if_pos (by unfold Config.maxPeriod; omega)]
  refine List.mem_flatMap.mpr ⟨c.bufferSize - (c.maxPeriod - 2) - 1, List.mem_range.mpr ?_, ?_⟩
  · unfold Config.maxPeriod
    omega
  · apply List.mem_cons_of_mem
    apply List.mem_singleton.mpr
    apply congrArg Access.buffer
    unfold Config.maxPeriod
    omega

theorem lowNote_overrun (hsize : 44 ≤ c.bufferSize) (hmin : c.minPeriod ≤ c.maxPeriod - 2) (h : History) :
    Access.buffer c.bufferSize ∈ detections c [lowNote c] h := by
  have hmax : 22 ≤ c.maxPeriod := by
    unfold Config.maxPeriod
    omega
  have hfound := findFundamentalPeriod_lowNote (by omega) hmin
  have hanalyze : Access.buffer c.bufferSize ∈ analyze c (lowNote c) := by
    unfold analyze
    dsimp only
    rw [hfound, if_neg (by omega)]
    apply List.mem_append_right
    apply List.mem_append_right
    exact analyzeLowFrequency_overrun hsize
  apply List.mem_append_left
  apply List.mem_append_right
  exact hanalyze

theorem lowNote_first (h : History) : Access.yin 0 ∈ detections c [lowNote c] h := by
  have hyin : Access.yin 0 ∈ yinDifferenceFunction c := List.mem_append_right _ List.mem_cons_self
  apply List.mem_append_left
  apply List.mem_append_right
  apply List.mem_append_left
  apply List.mem_append_left
  apply List.mem_append_right
  exact hyin

end Low

theorem detections_inBounds_iff (c : Config) :
    (∀ os : List Comparisons, AllInBounds c (detections c os ⟨0, false⟩)) ↔
      0 < c.bufferSize ∧ (c.bufferSize < 44 ∨ c.maxPeriod - 2 < c.minPeriod) := by
  constructor
  · intro hall
    by_contra hfits
    by_cases hsize : c.bufferSize = 0
    · have haccess := hall [lowNote c] (.yin 0) (lowNote_first _)
      have hlt : (0 : Int) < (c.bufferSize / 2 : Nat) := haccess.2
      omega
    · have haccess := hall [lowNote c] (.buffer c.bufferSize) (lowNote_overrun (by omega) (by omega) _)
      exact Int.lt_irrefl _ haccess.2
  · exact fun hfits os => detections_inBounds hfits os (by decide)

/-- The buffer and the rate of pitchdetector.h. -/
def shipped : Config := ⟨1024, 8000, rfl, by decide⟩

/-- A note of 15.7 Hz, which is clipped to two samples less than half the buffer, is read behind the end. -/
theorem shipped_overrun : ¬ ∀ os : List Comparisons, AllInBounds shipped (detections shipped os ⟨0, false⟩) := by
  intro hall
  have haccess := hall [lowNote shipped] (.buffer 1024) (lowNote_overrun (by decide) (by decide) _)
  exact absurd haccess.2 (by decide)

end PicoRuby.PitchDetector
