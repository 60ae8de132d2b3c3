import PicoRuby.Psg.Mml
import PicoRuby.Shared.Brackets
import PicoRuby.Shared.Results

/-!
# Loops

A track with its loops as a tree. `expand` gives what the tree comes to, or raises when the loops are too deep.
-/

namespace PicoRuby.Psg

open Shared

set_option autoImplicit false

/-! ## The loops of a track -/

/-- `[` opens and `]` closes. -/
def nesting (c : UInt8) : Int := if c = 91 then 1 else if c = 93 then -1 else 0

/-- A closing bracket has a repeat count behind it. -/
def Counted (str : Bytes) : Prop := ∀ before behind, str = before ++ 93 :: behind → ∃ d ∈ behind.head?, isDigit d = true

/-- A track: its bytes, and its blocks with what stands in them and the digits of their counts. -/
inductive Score where
  | silent
  | byte (c : UInt8) (rest : Score)
  | block (inner : Score) (count : Bytes) (rest : Score)

namespace Score

def render : Score → Bytes
  | silent => []
  | byte c rest => c :: rest.render
  | block inner count rest => 91 :: (inner.render ++ 93 :: (count ++ rest.render))

/-- The bytes without bar lines, each block repeated. -/
def unrolled : Score → Bytes
  | silent => []
  | byte c rest => if c = 124 then rest.unrolled else c :: rest.unrolled
  | block inner count rest => (List.replicate (number count) inner.unrolled).flatten ++ rest.unrolled

/-- The bytes are no brackets, and a count is all the digits that are there. -/
def WellFormed : Score → Prop
  | silent => True
  | byte c rest => c ≠ 91 ∧ c ≠ 93 ∧ rest.WellFormed
  | block inner count rest => inner.WellFormed ∧ (count.all isDigit = true ∧ count ≠ []) ∧
      (∀ d ∈ rest.render.head?, isDigit d = false) ∧ rest.WellFormed

end Score

section Nesting
variable {c : UInt8} {n : Bytes}

theorem nesting_of_isDigit (h : isDigit c = true) : nesting c = 0 := by
  have hrange : (48 : Nat) ≤ c.toNat ∧ c.toNat ≤ 57 := by
    unfold isDigit at h
    rw [Bool.and_eq_true, decide_eq_true_iff, decide_eq_true_iff] at h
    exact h
  have hopen : c ≠ 91 := by
    rintro rfl
    cases h
  have hclose : c ≠ 93 := by
    rintro rfl
    cases h
  unfold nesting
  rw [if_neg hopen, if_neg hclose]

theorem nesting_digits (h : n.all isDigit = true) : ∀ d ∈ n, nesting d = 0 :=
  fun d hd => nesting_of_isDigit (List.all_eq_true.mp h d hd)

@[simp] theorem nesting_open : nesting 91 = 1 := rfl

@[simp] theorem nesting_close : nesting 93 = -1 := rfl

theorem nesting_other (hopen : c ≠ 91) (hclose : c ≠ 93) : nesting c = 0 := by
  unfold nesting
  rw [if_neg hopen, if_neg hclose]

end Nesting

namespace Score
variable {score : Score}

/-- The brackets of a tree are balanced. -/
theorem render_balanced (h : score.WellFormed) : Balanced nesting score.render := by
  induction score with
  | silent => exact ⟨throughout_nil.mpr (Int.le_refl 0), rfl⟩
  | byte c rest ih =>
    obtain ⟨hopen, hclose, hrest⟩ := h
    obtain ⟨hnonneg, hclosed⟩ := ih hrest
    unfold render
    refine ⟨throughout_cons.mpr ⟨Int.le_refl 0, ?_⟩, ?_⟩
    · rw [nesting_other hopen hclose]
      exact hnonneg.mono fun k hk => by omega
    · rw [height_cons, nesting_other hopen hclose, hclosed]
      rfl
  | block inner count rest ihinner ihrest =>
    obtain ⟨hinner, ⟨hdigits, -⟩, -, hrest⟩ := h
    obtain ⟨hnonneg, hclosed⟩ := ihinner hinner
    obtain ⟨hnonneg', hclosed'⟩ := ihrest hrest
    have hcount := height_of_flat (nesting_digits hdigits)
    unfold render
    refine ⟨?_, ?_⟩
    · rw [throughout_cons, throughout_append, throughout_cons, throughout_append]
      simp only [hclosed, hcount, nesting_open, nesting_close]
      refine ⟨Int.le_refl 0, ?_, ?_, ?_, ?_⟩
      · exact hnonneg.mono fun k hk => by omega
      · omega
      · exact throughout_of_flat (nesting_digits hdigits) (by omega)
      · exact hnonneg'.mono fun k hk => by omega
    · simp [hclosed, hclosed', hcount]

end Score

/-! ## Reading a tree -/

/-- At the end of the text or before a closing bracket. -/
def AtClose (rest : Bytes) : Prop := rest = [] ∨ ∃ behind, rest = 93 :: behind

/-- The text closes as much as it opens, at its end or on the way. -/
def Closes (str : Bytes) : Prop := height nesting str ≤ 0 ∨ ∃ p, p <+: str ∧ height nesting p < 0

section Reading
variable {str front behind : Bytes} {c : UInt8}

theorem Counted.rest (front : Bytes) (h : Counted (front ++ behind)) : Counted behind := by
  intro before after heq
  apply h (front ++ before) after
  rw [heq, List.append_assoc]

/-- What is balanced does not close what is in front of it. -/
theorem Closes.rest (hfront : Balanced nesting front) (h : Closes (front ++ behind)) : Closes behind := by
  rcases h with hclosed | ⟨p, hp, hneg⟩
  · left
    rw [height_append, hfront.closed] at hclosed
    omega
  · right
    rcases prefix_append_iff.mp hp with hp | ⟨q, hq, rfl⟩
    · have hnonneg := hfront.nonneg p hp
      omega
    · rw [height_append, hfront.closed] at hneg
      exact ⟨q, hq, by omega⟩

theorem Closes.opened (h : Closes (91 :: str)) : ∃ p, p <+: str ∧ height nesting p < 0 := by
  rcases h with hclosed | ⟨p, hp, hneg⟩
  · refine ⟨str, List.prefix_refl str, ?_⟩
    rw [height_cons, nesting_open] at hclosed
    omega
  · rcases List.prefix_cons_iff.mp hp with rfl | ⟨q, rfl, hq⟩
    · exact absurd hneg (Int.lt_irrefl 0)
    · refine ⟨q, hq, ?_⟩
      rw [height_cons, nesting_open] at hneg
      omega

theorem balanced_byte (hopen : c ≠ 91) (hclose : c ≠ 93) : Balanced nesting [c] :=
  @Score.render_balanced (.byte c .silent) ⟨hopen, hclose, trivial⟩

/-- A text that closes as much as it opens starts with a tree. -/
theorem exists_score (n : Nat) (hn : str.length ≤ n) (hcounted : Counted str) (hcloses : Closes str) :
    ∃ score : Score, ∃ rest, score.WellFormed ∧ str = score.render ++ rest ∧ AtClose rest := by
  induction n generalizing str with
  | zero =>
    rw [List.length_eq_zero_iff.mp (Nat.le_zero.mp hn)]
    exact ⟨.silent, [], trivial, rfl, Or.inl rfl⟩
  | succ n ih =>
    cases str with
    | nil => exact ⟨.silent, [], trivial, rfl, Or.inl rfl⟩
    | cons c str =>
      rw [List.length_cons] at hn
      by_cases hclose : c = 93
      · subst hclose
        exact ⟨.silent, 93 :: str, trivial, rfl, Or.inr ⟨str, rfl⟩⟩
      · by_cases hopen : c = 91
        · subst hopen
          have hneg := hcloses.opened
          have hcounted' : Counted str := Counted.rest [91] hcounted
          obtain ⟨inner, rest, hinner, rfl, hends⟩ := ih (by omega) hcounted' (Or.inr hneg)
          have hbalanced := Score.render_balanced hinner
          obtain rfl | ⟨behind, rfl⟩ := hends
          · -- a tree alone does not close what is in front of it
            obtain ⟨p, hp, hneg⟩ := hneg
            rw [List.append_nil] at hp
            have hnonneg := hbalanced.nonneg p hp
            omega
          · have hcount : behind.takeWhile isDigit ≠ [] := by
              obtain ⟨d, hd, hdigit⟩ := hcounted (91 :: inner.render) behind rfl
              cases behind with
              | nil => cases hd
              | cons b behind =>
                cases hd
                rw [List.takeWhile_cons_of_pos hdigit]
                exact List.cons_ne_nil _ _
            have hdigits : (behind.takeWhile isDigit).all isDigit = true := List.all_takeWhile
            have hsplit : 91 :: (inner.render ++ 93 :: behind) =
                (Score.block inner (behind.takeWhile isDigit) .silent).render ++ behind.dropWhile isDigit := by
              simp [Score.render]
            have hblock : Balanced nesting (Score.block inner (behind.takeWhile isDigit) .silent).render :=
              Score.render_balanced ⟨hinner, ⟨hdigits, hcount⟩, nofun, trivial⟩
            rw [hsplit] at hcounted hcloses ⊢
            have hlength : (behind.dropWhile isDigit).length ≤ n := by
              have hle := (List.dropWhile_sublist isDigit (l := behind)).length_le
              rw [List.length_append, List.length_cons] at hn
              omega
            obtain ⟨score, rest, hscore, hrest, hends⟩ := ih hlength (Counted.rest _ hcounted) (hcloses.rest hblock)
            refine ⟨.block inner (behind.takeWhile isDigit) score, rest, ⟨hinner, ⟨hdigits, hcount⟩, ?_, hscore⟩, ?_,
              hends⟩
            · intro d hd
              have hnot := List.head?_dropWhile_not isDigit behind
              rw [hrest, List.head?_append, Option.mem_def.mp hd] at hnot
              exact hnot
            · rw [hrest]
              simp [Score.render]
        · have hcounted' : Counted str := Counted.rest [c] hcounted
          have hcloses' : Closes str := Closes.rest (balanced_byte hopen hclose) hcloses
          obtain ⟨score, rest, hscore, rfl, hends⟩ := ih (by omega) hcounted' hcloses'
          exact ⟨.byte c score, rest, ⟨hopen, hclose, hscore⟩, rfl, hends⟩

end Reading

/-! ## expand -/

section Expand
variable {fuel depth : Nat} {str result rest : Bytes}

theorem digits_end {score : Score} (hnot : ∀ d ∈ score.render.head?, isDigit d = false) (hrest : AtClose rest) :
    ∀ d ∈ (score.render ++ rest).head?, isDigit d = false := by
  intro d hd
  rw [List.head?_append] at hd
  cases hhead : score.render.head? with
  | some b =>
    rw [hhead] at hd
    cases hd
    exact hnot d hhead
  | none =>
    rw [hhead] at hd
    rcases hrest with rfl | ⟨behind, rfl⟩
    · cases hd
    · cases hd
      rfl

theorem takeWhile_count {count : Bytes} (hdigits : count.all isDigit = true)
    (hend : ∀ d ∈ rest.head?, isDigit d = false) :
    (count ++ rest).takeWhile isDigit = count ∧ (count ++ rest).dropWhile isDigit = rest := by
  have hall := List.all_eq_true.mp hdigits
  rw [List.takeWhile_append_of_pos hall, List.dropWhile_append_of_pos hall]
  cases rest with
  | nil => exact ⟨List.append_nil count, rfl⟩
  | cons d rest =>
    have hnot : ¬ isDigit d = true := by
      rw [hend d rfl]
      exact Bool.false_ne_true
    rw [List.takeWhile_cons_of_neg hnot, List.dropWhile_cons_of_neg hnot]
    exact ⟨List.append_nil count, rfl⟩

/-- A tree is unrolled up to the closing bracket behind it, where it is not too deep. -/
theorem expand_unrolled {score : Score} (h : score.WellFormed) (hrest : AtClose rest)
    (hdepth : Throughout nesting (fun k => (depth : Int) + k ≤ 8) score.render)
    (hfuel : score.render.length + rest.length ≤ fuel) :
    expand fuel (score.render ++ rest) depth result = .ok (result ++ score.unrolled, rest.tail) := by
  induction score generalizing fuel depth result rest with
  | silent =>
    unfold Score.render Score.unrolled
    rw [List.nil_append, List.append_nil]
    rcases hrest with rfl | ⟨behind, rfl⟩
    · cases fuel with
      | zero => rfl
      | succ fuel => rfl
    · rw [List.length_cons] at hfuel
      obtain ⟨fuel, rfl⟩ : ∃ k, fuel = k + 1 := ⟨fuel - 1, by omega⟩
      rfl
  | byte c score ih =>
    obtain ⟨hopen, hclose, hscore⟩ := h
    unfold Score.render at hdepth hfuel ⊢
    rw [throughout_cons, nesting_other hopen hclose] at hdepth
    have hdepth' : Throughout nesting (fun k => (depth : Int) + k ≤ 8) score.render :=
      hdepth.2.mono fun k hk => by omega
    rw [List.length_cons] at hfuel
    obtain ⟨fuel, rfl⟩ : ∃ k, fuel = k + 1 := ⟨fuel - 1, by omega⟩
    have hfuel' : score.render.length + rest.length ≤ fuel := by omega
    rw [List.cons_append, expand, if_neg hopen, if_neg hclose, Score.unrolled]
    by_cases hbar : c = 124
    · rw [if_pos hbar, if_pos hbar]
      exact ih hscore hrest hdepth' hfuel'
    · rw [if_neg hbar, if_neg hbar, ih hscore hrest hdepth' hfuel', List.append_assoc]
      rfl
  | block inner count score ihinner ihscore =>
    have hbalanced := Score.render_balanced h.1
    obtain ⟨hinner, ⟨hdigits, -⟩, hnot, hscore⟩ := h
    have hend := digits_end hnot hrest
    obtain ⟨htake, hdrop⟩ := takeWhile_count hdigits hend
    unfold Score.render at hdepth hfuel ⊢
    rw [throughout_cons, throughout_append, throughout_cons, throughout_append] at hdepth
    obtain ⟨-, hinside, -, -, hbehind⟩ := hdepth
    rw [hbalanced.closed, height_of_flat (nesting_digits hdigits)] at hbehind
    simp only [nesting_open, nesting_close] at hinside hbehind
    have hdeep : ¬ 8 < depth + 1 := by
      have hstart := hinside.start
      omega
    have hinside' : Throughout nesting (fun k => ((depth + 1 : Nat) : Int) + k ≤ 8) inner.render :=
      hinside.mono fun k hk => by omega
    have hbehind' : Throughout nesting (fun k => (depth : Int) + k ≤ 8) score.render :=
      hbehind.mono fun k hk => by omega
    simp only [List.length_cons, List.length_append] at hfuel
    obtain ⟨fuel, rfl⟩ : ∃ k, fuel = k + 1 := ⟨fuel - 1, by omega⟩
    have hinner' : expand fuel (inner.render ++ 93 :: (count ++ (score.render ++ rest))) (depth + 1) [] =
        .ok ([] ++ inner.unrolled, count ++ (score.render ++ rest)) := by
      apply ihinner hinner (Or.inr ⟨_, rfl⟩) hinside'
      simp only [List.length_cons, List.length_append]
      omega
    have hsplit : 91 :: (inner.render ++ 93 :: (count ++ score.render)) ++ rest =
        91 :: (inner.render ++ 93 :: (count ++ (score.render ++ rest))) := by simp
    rw [hsplit, expand, if_pos rfl, if_neg hdeep]
    refine bind_eq_ok.mpr ⟨_, hinner', ?_⟩
    dsimp only
    rw [htake, hdrop, ihscore hscore hrest hbehind' (by omega), Score.unrolled, List.nil_append, List.append_assoc]

/-- What `expand` takes of a text is nowhere too deep, and closes more than it opens or is all of it. -/
structure Takes (depth : Nat) (str own rest : Bytes) : Prop where
  split : str = own ++ rest
  shallow : Throughout nesting (fun k => (depth : Int) + k ≤ 8) own
  ends : height nesting own < 0 ∨ rest = []

theorem Takes.nil (hdepth : depth ≤ 8) (str : Bytes) (h : str = []) : Takes depth str [] str :=
  ⟨rfl, throughout_nil.mpr (by omega), Or.inr h⟩

theorem Takes.byte {c : UInt8} {own : Bytes} (hopen : c ≠ 91) (hclose : c ≠ 93) (h : Takes depth str own rest) :
    Takes depth (c :: str) (c :: own) rest := by
  obtain ⟨hsplit, hshallow, hends⟩ := h
  have hflat := nesting_other hopen hclose
  refine ⟨by rw [hsplit, List.cons_append], ?_, ?_⟩
  · rw [throughout_cons, hflat]
    exact ⟨hshallow.start, hshallow.mono fun k hk => by omega⟩
  · rw [height_cons, hflat, Int.zero_add]
    exact hends

theorem Takes.block {inner behind count after own : Bytes} (hdepth : depth ≤ 8)
    (hinner : Takes (depth + 1) str inner behind) (hdigits : count.all isDigit = true)
    (hsplit : behind = count ++ after) (h : Takes depth after own rest) : Takes depth (91 :: str) (91 :: (inner ++ (count ++ own))) rest := by
  obtain ⟨rfl, hshallow, hends⟩ := hinner
  obtain ⟨rfl, hshallow', hends'⟩ := h
  subst hsplit
  have hcount := height_of_flat (nesting_digits hdigits)
  have hstart := hshallow.start
  refine ⟨by simp, ?_, ?_⟩
  · rw [throughout_cons, throughout_append, throughout_append]
    simp only [hcount, nesting_open]
    refine ⟨by omega, hshallow.mono fun k hk => by omega, ?_⟩
    rcases hends with hneg | hnil
    · exact ⟨throughout_of_flat (nesting_digits hdigits) (by omega), hshallow'.mono fun k hk => by omega⟩
    · have hlast := hshallow.height
      simp only [List.append_eq_nil_iff] at hnil
      obtain ⟨rfl, rfl, -⟩ := hnil
      simp only [throughout_nil]
      omega
  · simp only [height_cons, height_append, hcount, nesting_open]
    rcases hends with hneg | hnil
    · exact hends'.imp_left fun hneg' => by omega
    · simp only [List.append_eq_nil_iff] at hnil
      exact Or.inr hnil.2.2

theorem expand_takes {expanded : Bytes} (hdepth : depth ≤ 8) (hfuel : str.length ≤ fuel)
    (h : expand fuel str depth result = .ok (expanded, rest)) : ∃ own, Takes depth str own rest := by
  induction fuel generalizing str depth result expanded rest with
  | zero =>
    cases h
    exact ⟨[], .nil hdepth str (List.length_eq_zero_iff.mp (Nat.le_zero.mp hfuel))⟩
  | succ fuel ih =>
    cases str with
    | nil =>
      cases h
      exact ⟨[], .nil hdepth [] rfl⟩
    | cons c str =>
      rw [List.length_cons] at hfuel
      unfold expand at h
      split at h
      · rename_i hopen
        subst hopen
        split at h
        · cases h
        · rename_i hdeep
          obtain ⟨⟨inner, behind⟩, hinner, hrest⟩ := bind_eq_ok.mp h
          obtain ⟨own, htakes⟩ := ih (by omega) (by omega) hinner
          have hlength : (behind.dropWhile isDigit).length ≤ fuel := by
            have hle := (List.dropWhile_sublist isDigit (l := behind)).length_le
            have hsum := congrArg List.length htakes.split
            rw [List.length_append] at hsum
            omega
          obtain ⟨own', htakes'⟩ := ih hdepth hlength hrest
          exact ⟨_, htakes.block hdepth List.all_takeWhile List.takeWhile_append_dropWhile.symm htakes'⟩
      · rename_i hopen
        split at h
        · rename_i hclose
          subst hclose
          cases h
          refine ⟨[93], rfl, ?_, Or.inl (by decide)⟩
          rw [throughout_cons, throughout_nil, nesting_close]
          omega
        · rename_i hclose
          split at h
          · obtain ⟨own, htakes⟩ := ih hdepth (by omega) h
            exact ⟨c :: own, htakes.byte hopen hclose⟩
          · obtain ⟨own, htakes⟩ := ih hdepth (by omega) h
            exact ⟨c :: own, htakes.byte hopen hclose⟩

/-- There is one thing that `expand` raises. -/
theorem expand_error {e : MmlError} (h : expand fuel str depth result = .error e) : e = .loopNestingTooDeep := by
  induction fuel generalizing str depth result with
  | zero => cases h
  | succ fuel ih =>
    cases str with
    | nil => cases h
    | cons c str =>
      unfold expand at h
      split at h
      · split at h
        · cases h
          rfl
        · cases hinner : expand fuel str (depth + 1) [] with
          | error e' =>
            rw [hinner] at h
            cases h
            exact ih hinner
          | ok x =>
            rw [hinner] at h
            exact ih h
      · split at h
        · cases h
        · split at h
          · exact ih h
          · exact ih h

/-- A text whose brackets open too deep raises. -/
theorem expandLoops_raises {p : Bytes} (hp : p <+: str) (hdeep : 8 < height nesting p)
    (hnonneg : Throughout nesting (0 ≤ ·) p) : expandLoops str = .error .loopNestingTooDeep := by
  cases hexpand : expand str.length str 0 [] with
  | error e =>
    obtain rfl := expand_error hexpand
    unfold expandLoops
    rw [hexpand]
    rfl
  | ok x =>
    exfalso
    obtain ⟨own, hsplit, hshallow, hends⟩ := expand_takes (Nat.zero_le 8) (Nat.le_refl _) hexpand
    have hwithin : p <+: own := by
      rcases List.prefix_or_prefix_of_prefix hp ⟨x.2, hsplit.symm⟩ with hp | hown
      · exact hp
      · rcases hends with hneg | hnil
        · have hle := hnonneg own hown
          omega
        · rw [hsplit, hnil, List.append_nil] at hp
          exact hp
    have hle := hshallow p hwithin
    omega

/-- A balanced text with its counts is a tree. -/
theorem exists_render (h : Balanced nesting str) (hcounted : Counted str) :
    ∃ score : Score, score.WellFormed ∧ score.render = str := by
  obtain ⟨score, rest, hscore, rfl, hrest⟩ := exists_score _ (Nat.le_refl _) hcounted (Or.inl h.closed.le)
  refine ⟨score, hscore, ?_⟩
  rcases hrest with rfl | ⟨behind, rfl⟩
  · exact (List.append_nil _).symm
  · -- a closing bracket behind the tree has none that it closes
    have hclosed := (Score.render_balanced hscore).closed
    have hnonneg := h.nonneg (score.render ++ [93]) ((List.prefix_append_right_inj _).mpr ⟨behind, rfl⟩)
    simp [hclosed] at hnonneg

end Expand

/-- Balanced loops up to a depth of 8 are unrolled, and deeper ones raise. -/
theorem expandLoops_unrolls (str : Bytes) :
    (Balanced nesting str → Counted str → Throughout nesting (· ≤ 8) str →
      (∃ score : Score, score.WellFormed ∧ score.render = str) ∧
        ∀ score : Score, score.WellFormed → score.render = str → expandLoops str = .ok score.unrolled) ∧
    ∀ p, p <+: str → 8 < height nesting p → Throughout nesting (0 ≤ ·) p →
      expandLoops str = .error .loopNestingTooDeep := by
  refine ⟨?_, ?_⟩
  · intro hbalanced hcounted hdepth
    refine ⟨exists_render hbalanced hcounted, ?_⟩
    rintro score hscore rfl
    have hdepth' : Throughout nesting (fun k => ((0 : Nat) : Int) + k ≤ 8) score.render :=
      hdepth.mono fun k hk => by omega
    have hexpand : expand score.render.length (score.render ++ []) 0 [] = .ok ([] ++ score.unrolled, [].tail) :=
      expand_unrolled hscore (Or.inl rfl) hdepth' (Nat.le_refl _)
    rw [List.append_nil] at hexpand
    exact bind_eq_ok.mpr ⟨_, hexpand, rfl⟩
  · intro p hp hdeep hnonneg
    exact expandLoops_raises hp hdeep hnonneg

/-- The tree of `[a[bc]2|]3`. -/
example : expandLoops (Score.block (.byte 97 (.block (.byte 98 (.byte 99 .silent)) [50] (.byte 124 .silent))) [51]
    .silent).render = .ok [97, 98, 99, 98, 99, 97, 98, 99, 98, 99, 97, 98, 99, 98, 99] := by decide

end PicoRuby.Psg
