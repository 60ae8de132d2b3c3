import Mathlib.Data.List.TakeWhile
import PicoRuby.Console.Terminal

/-!
# Terminal input

What calls of `IO#read_nonblock` with one argument give, beside what they take from `hal_getchar`.
-/

namespace PicoRuby.Console

set_option autoImplicit false

/-- What `hal_getchar` returns where there is a byte, and where there is none. -/
def char : Option UInt8 → Int
  | some c => c.toNat
  | none => -1

/-- How often the loop of `read_nonblock` calls `hal_getchar`. -/
def readCount : Nat → List Int → Nat
  | 0, _ => 0
  | _ + 1, [] => 0
  | maxlen + 1, c :: chars => if c = 3 ∨ c = 26 ∨ c < 0 then 1 else readCount maxlen chars + 1

/-- The calls of `hal_getchar` so far, and the terminal. -/
structure Reader (M : Type) where
  pos : Nat
  terminal : Terminal M

inductive Event where
  | byte (c : Int)
  | raised (e : Failure)
deriving DecidableEq, Repr

/-- What a byte of the stream should become. -/
def Event.of (c : Int) : Event :=
  if c = 3 then .raised .interrupt else if c = 26 then .raised .signalException else .byte c

def given : Except Failure (Option (List Int)) → List Event
  | .ok none => []
  | .ok (some s) => s.map .byte
  | .error e => [.raised e]

def Short (maxlen : Nat) (result : Except Failure (Option (List Int))) : Prop :=
  ∀ s, result = .ok (some s) → s.length ≤ maxlen

section Stream
variable (hal : Nat → Option UInt8)

def answers (pos n : Nat) : List Int := (List.range' pos n).map fun i => char (hal i)

def consumed (pos n : Nat) : List Int := (answers hal pos n).filter (0 ≤ ·)

variable {M : Type} (p : Port M)

def readNext (maxlen : Nat) (r : Reader M) : Except Failure (Option (List Int)) × Reader M :=
  let chars := answers hal r.pos maxlen
  let (result, t) := readNonblock p maxlen chars r.terminal
  (result, ⟨r.pos + readCount maxlen chars, t⟩)

def reads : List Nat → Reader M → List (Except Failure (Option (List Int))) × Reader M
  | [], r => ([], r)
  | maxlen :: maxlens, r =>
    let (result, r) := readNext hal p maxlen r
    let (results, r) := reads maxlens r
    (result :: results, r)

/-- **No input is lost**: strings and exceptions, one after the other, are the bytes that were taken. -/
structure Lossless (maxlens : List Nat) (r : Reader M) : Prop where
  short : List.Forall₂ Short maxlens (reads hal p maxlens r).1
  whole : (reads hal p maxlens r).1.flatMap given =
    (consumed hal r.pos ((reads hal p maxlens r).2.pos - r.pos)).map Event.of

/-- A byte that the loop puts into its buffer. -/
def Plain (c : Option UInt8) : Prop := c ≠ none ∧ c ≠ some 3 ∧ c ≠ some 26

/-- No byte that a call comes to is zero, and one that raises is the first. -/
def Whole (maxlen pos : Nat) : Prop :=
  ∀ i < maxlen, (∀ j < i, Plain (hal (pos + j))) →
    hal (pos + i) ≠ some 0 ∧ (0 < i → hal (pos + i) ≠ some 3 ∧ hal (pos + i) ≠ some 26)

def WholeReads : List Nat → Reader M → Prop
  | [], _ => True
  | maxlen :: maxlens, r => Whole hal maxlen r.pos ∧ WholeReads maxlens (readNext hal p maxlen r).2

end Stream

section Loop
variable {hal : Nat → Option UInt8}

theorem answers_succ (pos n : Nat) : answers hal pos (n + 1) = char (hal pos) :: answers hal (pos + 1) n := by
  unfold answers
  rw [List.range'_succ, List.map_cons]

theorem answers_add (pos m n : Nat) : answers hal pos (m + n) = answers hal pos m ++ answers hal (pos + m) n := by
  induction m generalizing pos with
  | zero => rw [Nat.zero_add]; rfl
  | succ m ih =>
    rw [Nat.succ_add, answers_succ, ih, answers_succ, Nat.add_right_comm, ← Nat.add_assoc]
    rfl

theorem consumed_add (pos m n : Nat) : consumed hal pos (m + n) = consumed hal pos m ++ consumed hal (pos + m) n := by
  unfold consumed
  rw [answers_add, List.filter_append]

theorem consumed_none {pos : Nat} (h : hal pos = none) : consumed hal pos 1 = [] := by
  unfold consumed
  rw [answers_succ, h]
  rfl

theorem consumed_some {pos : Nat} {c : UInt8} (h : hal pos = some c) (n : Nat) :
    consumed hal pos (n + 1) = (c.toNat : Int) :: consumed hal (pos + 1) n := by
  unfold consumed
  rw [answers_succ, h]
  exact List.filter_cons_of_pos (decide_eq_true (Int.natCast_nonneg _))

theorem char_eq_iff (c b : UInt8) : (c.toNat : Int) = b.toNat ↔ c = b :=
  ⟨fun h => UInt8.toNat_inj.mp (Int.ofNat.inj h), fun h => congrArg (fun c : UInt8 => (c.toNat : Int)) h⟩

/-- A byte that is collected. -/
theorem readChars_plain {c : UInt8} (h3 : c ≠ 3) (h26 : c ≠ 26) (maxlen : Nat) (chars : List Int) :
    readChars (maxlen + 1) ((c.toNat : Int) :: chars) = (readChars maxlen chars).map ((c.toNat : Int) :: ·) ∧
      readCount (maxlen + 1) ((c.toNat : Int) :: chars) = readCount maxlen chars + 1 := by
  have hne3 : (c.toNat : Int) ≠ 3 := fun h => h3 ((char_eq_iff c 3).mp h)
  have hne26 : (c.toNat : Int) ≠ 26 := fun h => h26 ((char_eq_iff c 26).mp h)
  have hpos : ¬ (c.toNat : Int) < 0 := by omega
  constructor
  · rw [readChars, if_neg hne3, if_neg hne26, if_neg hpos]
  · rw [readCount, if_neg (not_or.mpr ⟨hne3, not_or.mpr ⟨hne26, hpos⟩⟩)]

/-- From the second byte on, one that raises is too late. -/
def Clean (hal : Nat → Option UInt8) (maxlen pos : Nat) : Prop :=
  ∀ i < maxlen, (∀ j < i, Plain (hal (pos + j))) →
    hal (pos + i) ≠ some 0 ∧ hal (pos + i) ≠ some 3 ∧ hal (pos + i) ≠ some 26

theorem forall_stretch (Q : Nat → Option UInt8 → Prop) (maxlen pos : Nat) :
    (∀ i < maxlen + 1, (∀ j < i, Plain (hal (pos + j))) → Q i (hal (pos + i))) ↔
      Q 0 (hal pos) ∧ (Plain (hal pos) →
        ∀ i < maxlen, (∀ j < i, Plain (hal (pos + 1 + j))) → Q (i + 1) (hal (pos + 1 + i))) := by
  have hshift : ∀ i, pos + (i + 1) = pos + 1 + i := fun i => by omega
  constructor
  · intro hall
    refine ⟨hall 0 (Nat.succ_pos _) nofun, fun hplain i hi hbefore => ?_⟩
    rw [← hshift]
    apply hall (i + 1) (Nat.succ_lt_succ hi)
    intro j hj
    cases j with
    | zero => exact hplain
    | succ j =>
      rw [hshift]
      exact hbefore j (Nat.lt_of_succ_lt_succ hj)
  · rintro ⟨hfirst, hrest⟩ i hi hbefore
    cases i with
    | zero => exact hfirst
    | succ i =>
      rw [hshift]
      apply hrest (hbefore 0 (Nat.succ_pos i)) i (Nat.lt_of_succ_lt_succ hi)
      intro j hj
      rw [← hshift]
      exact hbefore (j + 1) (Nat.succ_lt_succ hj)

theorem clean_succ (maxlen pos : Nat) :
    Clean hal (maxlen + 1) pos ↔ (hal pos ≠ some 0 ∧ hal pos ≠ some 3 ∧ hal pos ≠ some 26) ∧
      (Plain (hal pos) → Clean hal maxlen (pos + 1)) :=
  forall_stretch (fun _ c => c ≠ some 0 ∧ c ≠ some 3 ∧ c ≠ some 26) maxlen pos

theorem whole_succ (maxlen pos : Nat) :
    Whole hal (maxlen + 1) pos ↔ hal pos ≠ some 0 ∧ (Plain (hal pos) → Clean hal maxlen (pos + 1)) := by
  apply (forall_stretch (fun i c => c ≠ some 0 ∧ (0 < i → c ≠ some 3 ∧ c ≠ some 26)) maxlen pos).trans
  apply and_congr
  · exact and_iff_left nofun
  · apply imp_congr_right
    intro _
    exact forall_congr' fun i => imp_congr_right fun _ => imp_congr_right fun _ =>
      and_congr_right fun _ => ⟨fun h => h i.succ_pos, fun h _ => h⟩

/-- How the loop ends: with its buffer, or with an exception. -/
inductive Ends (hal : Nat → Option UInt8) (maxlen pos : Nat) : Prop where
  | collected (buf : List Int) (read : readChars maxlen (answers hal pos maxlen) = .ok buf)
      (taken : consumed hal pos (readCount maxlen (answers hal pos maxlen)) = buf)
      (plain : ∀ c ∈ buf, Event.of c = .byte c) (short : buf.length ≤ maxlen)
      (clean : Clean hal maxlen pos ↔ 0 ∉ buf) (whole : Whole hal maxlen pos ↔ 0 ∉ buf)
  | raised (buf : List Int) (c : Int) (e : Failure) (read : readChars maxlen (answers hal pos maxlen) = .error e)
      (taken : consumed hal pos (readCount maxlen (answers hal pos maxlen)) = buf ++ [c])
      (event : Event.of c = .raised e) (plain : ∀ c ∈ buf, Event.of c = .byte c)
      (unclean : ¬ Clean hal maxlen pos) (whole : Whole hal maxlen pos ↔ buf = [])

theorem ends_control {c : UInt8} {e : Failure} {maxlen pos : Nat} (h : hal pos = some c) (hcontrol : c = 3 ∨ c = 26)
    (hread : readChars (maxlen + 1) (answers hal pos (maxlen + 1)) = .error e)
    (hevent : Event.of c.toNat = .raised e) : Ends hal (maxlen + 1) pos := by
  have hcount : readCount (maxlen + 1) (answers hal pos (maxlen + 1)) = 1 := by
    rw [answers_succ, h]
    rcases hcontrol with rfl | rfl
    · rfl
    · rfl
  refine .raised [] c.toNat e hread ?_ hevent nofun ?_ (iff_of_true ?_ rfl)
  · rw [hcount, consumed_some h 0]
    rfl
  · intro hclean
    obtain ⟨-, hne3, hne26⟩ := ((clean_succ maxlen pos).mp hclean).1
    rcases hcontrol with rfl | rfl
    · exact hne3 h
    · exact hne26 h
  · rw [whole_succ, h]
    rcases hcontrol with rfl | rfl
    · exact ⟨by decide, fun hplain => absurd rfl hplain.2.1⟩
    · exact ⟨by decide, fun hplain => absurd rfl hplain.2.2⟩

/-- Where there is no byte, the loop goes no further. -/
theorem ends_none {maxlen pos : Nat} (h : hal pos = none) : Ends hal (maxlen + 1) pos := by
  have hread : readChars (maxlen + 1) (answers hal pos (maxlen + 1)) = .ok [] := by
    rw [answers_succ, h]
    rfl
  have hcount : readCount (maxlen + 1) (answers hal pos (maxlen + 1)) = 1 := by
    rw [answers_succ, h]
    rfl
  refine .collected [] hread ?_ nofun (Nat.zero_le _) (iff_of_true ?_ nofun) (iff_of_true ?_ nofun)
  · rw [hcount, consumed_none h]
  · rw [clean_succ, h]
    exact ⟨⟨nofun, nofun, nofun⟩, fun hplain => absurd rfl hplain.1⟩
  · rw [whole_succ, h]
    exact ⟨nofun, fun hplain => absurd rfl hplain.1⟩

/-- A byte that does not raise is put before what the others give. -/
theorem ends_plain {c : UInt8} {maxlen pos : Nat} (h : hal pos = some c) (h3 : c ≠ 3) (h26 : c ≠ 26)
    (hrest : Ends hal maxlen (pos + 1)) : Ends hal (maxlen + 1) pos := by
  have hplain : Plain (hal pos) := by
    rw [h]
    exact ⟨nofun, fun heq => h3 (Option.some.inj heq), fun heq => h26 (Option.some.inj heq)⟩
  have hevent : Event.of c.toNat = .byte c.toNat := by
    have hne3 : (c.toNat : Int) ≠ 3 := fun heq => h3 ((char_eq_iff c 3).mp heq)
    have hne26 : (c.toNat : Int) ≠ 26 := fun heq => h26 ((char_eq_iff c 26).mp heq)
    rw [Event.of, if_neg hne3, if_neg hne26]
  have hnext : (Plain (hal pos) → Clean hal maxlen (pos + 1)) ↔ Clean hal maxlen (pos + 1) :=
    ⟨fun hnext => hnext hplain, fun hnext _ => hnext⟩
  have hzero : hal pos ≠ some 0 ↔ c ≠ 0 := by
    rw [h]
    exact not_congr ⟨Option.some.inj, congrArg some⟩
  have hclean : Clean hal (maxlen + 1) pos ↔ c ≠ 0 ∧ Clean hal maxlen (pos + 1) :=
    (clean_succ maxlen pos).trans (and_congr ((and_iff_left hplain.2).trans hzero) hnext)
  have hwhole : Whole hal (maxlen + 1) pos ↔ c ≠ 0 ∧ Clean hal maxlen (pos + 1) :=
    (whole_succ maxlen pos).trans (and_congr hzero hnext)
  obtain ⟨hread, hcount⟩ := readChars_plain h3 h26 maxlen (answers hal (pos + 1) maxlen)
  have hchars : answers hal pos (maxlen + 1) = (c.toNat : Int) :: answers hal (pos + 1) maxlen := by
    rw [answers_succ, h]
    rfl
  rw [← hchars] at hread hcount
  cases hrest with
  | collected buf hbuf htaken hevents hshort hrest =>
    have hmem : c ≠ 0 ∧ Clean hal maxlen (pos + 1) ↔ 0 ∉ (c.toNat : Int) :: buf := by
      rw [hrest, List.mem_cons, not_or]
      apply and_congr_left'
      exact not_congr ⟨fun heq => by rw [heq]; rfl, fun heq => (char_eq_iff c 0).mp heq.symm⟩
    refine .collected (c.toNat :: buf) ?_ ?_ ?_ (Nat.succ_le_succ hshort) (hclean.trans hmem) (hwhole.trans hmem)
    · rw [hread, hbuf]
      rfl
    · rw [hcount, consumed_some h, htaken]
    · exact List.forall_mem_cons.mpr ⟨hevent, hevents⟩
  | raised buf b e hbuf htaken hlast hevents hrest =>
    refine .raised (c.toNat :: buf) b e ?_ ?_ hlast ?_ (fun hall => hrest (hclean.mp hall).2)
      (iff_of_false (fun hall => hrest (hwhole.mp hall).2) nofun)
    · rw [hread, hbuf]
      rfl
    · rw [hcount, consumed_some h, htaken, List.cons_append]
    · exact List.forall_mem_cons.mpr ⟨hevent, hevents⟩

theorem ends (maxlen pos : Nat) : Ends hal maxlen pos := by
  induction maxlen generalizing pos with
  | zero =>
    refine .collected [] rfl rfl nofun (Nat.le_refl 0) (iff_of_true ?_ nofun) (iff_of_true ?_ nofun)
    · exact fun i hi => absurd hi (Nat.not_lt_zero i)
    · exact fun i hi => absurd hi (Nat.not_lt_zero i)
  | succ maxlen ih =>
    cases h : hal pos with
    | none => exact ends_none h
    | some c =>
      by_cases h3 : c = 3
      · apply ends_control h (.inl h3) (e := .interrupt)
        · rw [answers_succ, h, h3]
          rfl
        · rw [h3]
          rfl
      by_cases h26 : c = 26
      · apply ends_control h (.inr h26) (e := .signalException)
        · rw [answers_succ, h, h26]
          rfl
        · rw [h26]
          rfl
      exact ends_plain h h3 h26 (ih (pos + 1))

end Loop

/-! ## Calls -/

section Calls
variable {M : Type} {p : Port M} {hal : Nat → Option UInt8}

theorem map_plain {buf : List Int} (h : ∀ c ∈ buf, Event.of c = .byte c) : buf.map Event.of = buf.map .byte :=
  List.map_congr_left h

theorem takeWhile_ne_zero (buf : List Int) : buf.takeWhile (· ≠ 0) = buf ↔ 0 ∉ buf := by
  rw [List.takeWhile_eq_self_iff]
  constructor
  · intro hall hmem
    exact of_decide_eq_true (hall 0 hmem) rfl
  · intro hmem c hc
    exact decide_eq_true fun heq => hmem (heq ▸ hc)

theorem map_byte_inj {buf buf' : List Int} : buf.map Event.byte = buf'.map Event.byte ↔ buf = buf' :=
  List.map_inj_right fun _ _ h => Event.byte.inj h

/-- The string of a call; an empty one is nil. -/
theorem given_string (buf : List Int) :
    given (.ok (if buf.length < 1 then none else some (buf.takeWhile (· ≠ 0)))) =
      (buf.takeWhile (· ≠ 0)).map .byte := by
  cases buf with
  | nil => rfl
  | cons c buf => rfl

def taken (hal : Nat → Option UInt8) (maxlen pos : Nat) : Nat := readCount maxlen (answers hal pos maxlen)

theorem readNext_pos (maxlen : Nat) (r : Reader M) : (readNext hal p maxlen r).2.pos = r.pos + taken hal maxlen r.pos :=
  rfl

/-- What a call gives, and whether it is all that it takes. -/
structure Gives (hal : Nat → Option UInt8) (maxlen pos : Nat) (result : Except Failure (Option (List Int))) : Prop where
  short : Short maxlen result
  length : (given result).length ≤ ((consumed hal pos (taken hal maxlen pos)).map Event.of).length
  whole : given result = (consumed hal pos (taken hal maxlen pos)).map Event.of ↔ Whole hal maxlen pos

theorem readNext_gives (maxlen : Nat) (r : Reader M) : Gives hal maxlen r.pos (readNext hal p maxlen r).1 := by
  have hends : Ends hal maxlen r.pos := ends maxlen r.pos
  cases hends with
  | collected buf hread htaken hplain hshort _ hwhole =>
    have hresult : (readNext hal p maxlen r).1 =
        .ok (if buf.length < 1 then none else some (buf.takeWhile (· ≠ 0))) := by
      dsimp only [readNext, readNonblock]
      rw [hread]
    have hprefix : (buf.takeWhile (· ≠ 0)).length ≤ buf.length := (List.takeWhile_prefix _).length_le
    have hevents : (consumed hal r.pos (taken hal maxlen r.pos)).map Event.of = buf.map .byte := by
      rw [taken, htaken, map_plain hplain]
    rw [hresult]
    refine ⟨fun s hs => ?_, ?_, ?_⟩
    · split at hs
      · cases hs
      · obtain rfl := Option.some.inj (Except.ok.inj hs)
        exact hprefix.trans hshort
    · rw [given_string, hevents, List.length_map, List.length_map]
      exact hprefix
    · rw [given_string, hevents, map_byte_inj, takeWhile_ne_zero, hwhole]
  | raised buf c e hread htaken hevent hplain _ hwhole =>
    have hresult : (readNext hal p maxlen r).1 = .error e := by
      dsimp only [readNext, readNonblock]
      rw [hread]
    have hevents : (consumed hal r.pos (taken hal maxlen r.pos)).map Event.of = buf.map .byte ++ [.raised e] := by
      rw [taken, htaken, List.map_append, map_plain hplain, List.map_singleton, hevent]
    rw [hresult]
    refine ⟨nofun, ?_, ?_⟩
    · rw [hevents, List.length_append]
      exact Nat.le_add_left _ _
    · rw [hevents, hwhole]
      constructor
      · intro heq
        have hlen := congrArg List.length heq
        rw [List.length_append, List.length_map] at hlen
        replace hlen : 1 = buf.length + 1 := hlen
        exact List.eq_nil_of_length_eq_zero (by omega)
      · rintro rfl
        rfl

theorem reads_pos (maxlens : List Nat) (r : Reader M) : r.pos ≤ (reads hal p maxlens r).2.pos := by
  induction maxlens generalizing r with
  | nil => exact Nat.le_refl _
  | cons maxlen maxlens ih =>
    exact Nat.le_trans (Nat.le_add_right r.pos _) (ih (readNext hal p maxlen r).2)

/-- What a run takes is what its first call takes, and what the others take. -/
theorem reads_consumed (maxlen : Nat) (maxlens : List Nat) (r : Reader M) :
    consumed hal r.pos ((reads hal p (maxlen :: maxlens) r).2.pos - r.pos) =
      consumed hal r.pos (taken hal maxlen r.pos) ++
        consumed hal (readNext hal p maxlen r).2.pos
          ((reads hal p maxlens (readNext hal p maxlen r).2).2.pos - (readNext hal p maxlen r).2.pos) := by
  have hpos : (readNext hal p maxlen r).2.pos ≤ (reads hal p maxlens (readNext hal p maxlen r).2).2.pos := reads_pos maxlens _
  rw [readNext_pos] at hpos ⊢
  rw [← consumed_add]
  apply congrArg (consumed hal r.pos)
  have hend : (reads hal p (maxlen :: maxlens) r).2.pos = (reads hal p maxlens (readNext hal p maxlen r).2).2.pos := rfl
  rw [hend]
  omega

/-- Nothing can be made up for: where one call loses something, the whole is too short. -/
theorem reads_given (maxlens : List Nat) (r : Reader M) :
    ((reads hal p maxlens r).1.flatMap given).length ≤
        ((consumed hal r.pos ((reads hal p maxlens r).2.pos - r.pos)).map Event.of).length ∧
      ((reads hal p maxlens r).1.flatMap given =
        (consumed hal r.pos ((reads hal p maxlens r).2.pos - r.pos)).map Event.of ↔ WholeReads hal p maxlens r) := by
  induction maxlens generalizing r with
  | nil =>
    refine ⟨Nat.zero_le _, iff_of_true ?_ trivial⟩
    rw [reads, Nat.sub_self]
    rfl
  | cons maxlen maxlens ih =>
    obtain ⟨hlen, hwhole⟩ := ih (readNext hal p maxlen r).2
    have hgives : Gives hal maxlen r.pos (readNext hal p maxlen r).1 := readNext_gives maxlen r
    have hresults : (reads hal p (maxlen :: maxlens) r).1.flatMap given =
        given (readNext hal p maxlen r).1 ++ (reads hal p maxlens (readNext hal p maxlen r).2).1.flatMap given := rfl
    rw [hresults, reads_consumed, List.map_append]
    constructor
    · rw [List.length_append, List.length_append]
      exact Nat.add_le_add hgives.length hlen
    · rw [WholeReads, ← hgives.whole, ← hwhole]
      constructor
      · intro heq
        apply List.append_inj heq
        have hboth := congrArg List.length heq
        rw [List.length_append, List.length_append] at hboth
        have hfirst := hgives.length
        omega
      · rintro ⟨hfirst, hrest⟩
        rw [hfirst, hrest]

theorem reads_short (maxlens : List Nat) (r : Reader M) : List.Forall₂ Short maxlens (reads hal p maxlens r).1 := by
  induction maxlens generalizing r with
  | nil => exact .nil
  | cons maxlen maxlens ih => exact .cons (readNext_gives maxlen r).short (ih _)

theorem lossless_iff (hal : Nat → Option UInt8) (p : Port M) (maxlens : List Nat) (r : Reader M) :
    Lossless hal p maxlens r ↔ WholeReads hal p maxlens r :=
  Iff.trans ⟨fun h => h.whole, fun h => ⟨reads_short maxlens r, h⟩⟩ (reads_given maxlens r).2

/-- "a", Ctrl-C in one read, and a NUL in front of "b". -/
theorem input_lost :
    ¬ Lossless (fun i => [some 97, some 3].getD i none) rp2040 [2] ⟨0, ⟨⟨false, true⟩, ⟨false, true⟩⟩⟩ ∧
      ¬ Lossless (fun i => [some 0, some 98].getD i none) rp2040 [2] ⟨0, ⟨⟨false, true⟩, ⟨false, true⟩⟩⟩ := by
  constructor
  · intro h
    exact absurd h.whole (by decide)
  · intro h
    exact absurd h.whole (by decide)

end Calls

end PicoRuby.Console
