import PicoRuby.Console.Terminal

/-!
# The discipline of the terminal modes

There is one saved mode for all the operations that nest. A block gets its mode back only when nothing in it has
overwritten what was saved, or when it had the mode of the block already.
-/

namespace PicoRuby.Console

set_option autoImplicit false

variable {M : Type} (p : Port M)

/-! ## The property -/

/-- The mode that the innermost open block asked for is in force; outside the blocks there is none. -/
def InForce (asked : Option Mode) (t : Terminal M) : Prop := ∀ mode, asked = some mode → p.observe t.mode = mode

/-- **The discipline**: in a block, the mode after each call is the one the block asked for; a call of raw or cooked
leaves the mode that it found; and the exception of its block reaches its caller. -/
def Disciplined : Program → Option Mode → Terminal M → Prop
  | .done, _, _ => True
  | .raise _, _, _ => True
  | .read maxlen chars next, asked, t =>
    let call := readNonblock p maxlen chars t
    InForce p asked call.2 ∧ (call.1.isOk = true → Disciplined next asked call.2)
  | .block k body next, asked, t =>
    let call := ioBlock p k (execute p body) t
    Disciplined body (some (p.observe (enter p k t).mode)) (enter p k t) ∧
      call.1 = (execute p body (enter p k t)).1 ∧ p.observe call.2.mode = p.observe t.mode ∧
      (call.1 = none → Disciplined next asked call.2)
  | .rescue body next, asked, t => Disciplined body asked t ∧ Disciplined next asked (execute p body t).2

/-! ## The condition -/

/-- The execution ends with an exception. -/
def Program.raises : Program → Bool
  | .done => false
  | .raise _ => true
  | .read maxlen chars next => !(readChars maxlen chars).isOk || next.raises
  | .block _ _ next => next.raises
  | .rescue _ next => next.raises

/-- A terminal function is called. -/
def Program.calls : Program → Bool
  | .done => false
  | .raise _ => false
  | .read _ _ _ => true
  | .block _ _ _ => true
  | .rescue body next => body.calls || next.calls

/-- What is saved is the whole mode. -/
def Saves (t : Terminal M) (k : Kind) : Prop := p.observe (enter p k t).saved = p.observe t.mode

/-- A block raises no exception, and it makes no calls unless the mode was already the one that it asks for. A read
in a block is not interrupted, unless the mode was already raw and does not wait. -/
def Meets : Program → Option Mode → Terminal M → Prop
  | .done, _, _ => True
  | .raise _, _, _ => True
  | .read maxlen chars next, asked, t =>
    if (readChars maxlen chars).isOk = true then Meets next asked (p.ioRestoreTermios (p.ioRawBang true t))
    else asked.isSome = true → p.observe (p.ioRawBang true t).mode = p.observe t.mode
  | .block k body next, asked, t =>
    Saves p t k ∧ body.raises = false ∧
      (p.observe (enter p k t).mode = p.observe t.mode ∨ body.calls = false) ∧
      Meets body (some (p.observe (enter p k t).mode)) (enter p k t) ∧
      Meets next asked (ioBlock p k (execute p body) t).2
  | .rescue body next, asked, t => Meets body asked t ∧ Meets next asked (execute p body t).2

/-! ## Ports -/

variable {K : Type} {keep : M → K}

/-- A change of the mode saves all of it but the part `keep`, of which it changes nothing. -/
structure Keeps (p : Port M) (keep : M → K) (change : Terminal M → Terminal M) : Prop where
  mode : ∀ t, keep (change t).mode = keep t.mode
  saved : ∀ t, keep (change t).saved = keep t.saved
  saves_iff : ∀ t, p.observe (change t).saved = p.observe t.mode ↔ keep t.saved = keep t.mode

structure Lawful (p : Port M) (keep : M → K) : Prop where
  raw : ∀ nonblock, Keeps p keep (p.ioRawBang nonblock)
  cooked : Keeps p keep p.ioCookedBang
  restore : ∀ t, p.ioRestoreTermios t = ⟨t.saved, t.saved⟩
  observed : ∀ m m', p.observe m = p.observe m' → keep m = keep m'

theorem posix_lawful : Lawful posix fun _ => () where
  raw _ := ⟨fun _ => rfl, fun _ => rfl, fun _ => ⟨fun _ => rfl, fun _ => rfl⟩⟩
  cooked := ⟨fun _ => rfl, fun _ => rfl, fun _ => ⟨fun _ => rfl, fun _ => rfl⟩⟩
  restore _ := rfl
  observed _ _ _ := rfl

theorem rp2040_lawful : Lawful rp2040 Rp2040.echoMode where
  raw _ := ⟨fun _ => rfl, fun _ => rfl, fun t => by simp [rp2040]⟩
  cooked := ⟨fun _ => rfl, fun _ => rfl, fun t => by simp [rp2040]⟩
  restore _ := rfl
  observed _ _ heq := (Mode.mk.inj heq).2.1

/-! ## Executions -/

section Executions

variable {p} (h : Lawful p keep)
include h

theorem Lawful.enter (k : Kind) : Keeps p keep (enter p k) := by
  cases k with
  | raw => exact h.raw false
  | cooked => exact h.cooked

theorem Lawful.saves_iff (t : Terminal M) (k : Kind) : Saves p t k ↔ keep t.saved = keep t.mode :=
  (h.enter k).saves_iff t

theorem ioBlock_eq (k : Kind) (block : Terminal M → Option Failure × Terminal M) (t : Terminal M) :
    ioBlock p k block t = (none, ⟨(block (Console.enter p k t)).2.saved, (block (Console.enter p k t)).2.saved⟩) := by
  unfold ioBlock
  exact congrArg (Prod.mk none) (h.restore _)

theorem readNonblock_ok {maxlen : Nat} {chars buf : List Int} (hread : readChars maxlen chars = .ok buf) (t : Terminal M) :
    ∃ s, readNonblock p maxlen chars t = (.ok s, ⟨(p.ioRawBang true t).saved, (p.ioRawBang true t).saved⟩) := by
  unfold readNonblock
  rw [hread]
  dsimp only
  rw [h.restore]
  exact ⟨_, rfl⟩

omit h in
theorem readNonblock_error {maxlen : Nat} {chars : List Int} {e : Failure} (hread : readChars maxlen chars = .error e)
    (t : Terminal M) : readNonblock p maxlen chars t = (.error e, p.ioRawBang true t) := by
  unfold readNonblock
  rw [hread]

/-- What is not saved stays in the saved mode. -/
theorem execute_keep (program : Program) : ∀ t : Terminal M, keep (execute p program t).2.saved = keep t.saved := by
  induction program with
  | done => exact fun t => rfl
  | raise e => exact fun t => rfl
  | read maxlen chars next ih =>
    intro t
    unfold execute
    cases hread : readChars maxlen chars with
    | error e =>
      rw [readNonblock_error hread]
      exact (h.raw true).saved t
    | ok buf =>
      obtain ⟨s, hcall⟩ := readNonblock_ok h hread t
      rw [hcall]
      exact (ih _).trans ((h.raw true).saved t)
  | block k body next ihbody ih =>
    intro t
    unfold execute
    rw [ioBlock_eq h]
    exact (ih _).trans ((ihbody _).trans ((h.enter k).saved t))
  | rescue body next ihbody ih => exact fun t => (ih _).trans (ihbody t)

theorem execute_raises (program : Program) : ∀ t : Terminal M,
    (execute p program t).1 = none ↔ program.raises = false := by
  induction program with
  | done => exact fun t => ⟨fun _ => rfl, fun _ => rfl⟩
  | raise e => exact fun t => ⟨nofun, nofun⟩
  | read maxlen chars next ih =>
    intro t
    unfold execute Program.raises
    cases hread : readChars maxlen chars with
    | error e =>
      rw [readNonblock_error hread]
      exact ⟨nofun, nofun⟩
    | ok buf =>
      obtain ⟨s, hcall⟩ := readNonblock_ok h hread t
      rw [hcall]
      exact ih _
  | block k body next ihbody ih =>
    intro t
    unfold execute
    rw [ioBlock_eq h]
    exact ih _
  | rescue body next ihbody ih => exact fun t => ih _

omit h in
theorem execute_of_not_calls {program : Program} (hcalls : program.calls = false) (t : Terminal M) :
    (execute p program t).2 = t := by
  induction program generalizing t with
  | done => rfl
  | raise e => rfl
  | read => cases hcalls
  | block => cases hcalls
  | rescue body next ihbody ih =>
    obtain ⟨hbody, hnext⟩ := Bool.or_eq_false_iff.mp hcalls
    have hfirst := ihbody hbody t
    unfold execute
    rw [hfirst]
    exact ih hnext t

/-- The mode of a block is kept, and whatever is called saves it over what was saved. -/
theorem disciplined_end (program : Program) {mode : Mode} : ∀ {t : Terminal M},
    Disciplined p program (some mode) t → p.observe t.mode = mode → keep t.saved = keep t.mode →
      p.observe (execute p program t).2.mode = mode ∧
      keep (execute p program t).2.saved = keep (execute p program t).2.mode ∧
      (program.calls = true → p.observe (execute p program t).2.saved = mode) := by
  induction program with
  | done => exact fun _ hmode hkeep => ⟨hmode, hkeep, nofun⟩
  | raise e => exact fun _ hmode hkeep => ⟨hmode, hkeep, nofun⟩
  | read maxlen chars next ih =>
    intro t hdisc hmode hkeep
    have hsaved : p.observe (p.ioRawBang true t).saved = mode := (((h.raw true).saves_iff t).mpr hkeep).trans hmode
    obtain ⟨hforce, hnext⟩ := hdisc
    unfold execute
    cases hread : readChars maxlen chars with
    | error e =>
      rw [readNonblock_error hread] at hforce ⊢
      refine ⟨hforce mode rfl, ?_, fun _ => hsaved⟩
      exact ((h.raw true).saved t).trans (hkeep.trans ((h.raw true).mode t).symm)
    | ok buf =>
      obtain ⟨s, hcall⟩ := readNonblock_ok h hread t
      rw [hcall] at hnext ⊢
      obtain ⟨hend, hkeep', hsaved'⟩ := ih (hnext rfl) hsaved rfl
      refine ⟨hend, hkeep', fun _ => ?_⟩
      cases hcalls : next.calls with
      | true => exact hsaved' hcalls
      | false =>
        dsimp only
        rw [execute_of_not_calls hcalls]
        exact hsaved
  | block k body next ihbody ih =>
    intro t hdisc hmode hkeep
    obtain ⟨-, -, hback, hnext⟩ := hdisc
    unfold execute
    rw [ioBlock_eq h] at hback hnext ⊢
    obtain ⟨hend, hkeep', hsaved'⟩ := ih (hnext rfl) (hback.trans hmode) rfl
    refine ⟨hend, hkeep', fun _ => ?_⟩
    cases hcalls : next.calls with
    | true => exact hsaved' hcalls
    | false =>
      dsimp only
      rw [execute_of_not_calls hcalls]
      exact hback.trans hmode
  | rescue body next ihbody ih =>
    intro t hdisc hmode hkeep
    obtain ⟨hbody, hnext⟩ := hdisc
    obtain ⟨hmode', hkeep', hsaved⟩ := ihbody hbody hmode hkeep
    obtain ⟨hend, hkeep'', hsaved'⟩ := ih hnext hmode' hkeep'
    refine ⟨hend, hkeep'', fun hcalls => ?_⟩
    cases hcallsnext : next.calls with
    | true => exact hsaved' hcallsnext
    | false =>
      have hcallsbody : body.calls = true := by
        unfold Program.calls at hcalls
        rwa [hcallsnext, Bool.or_false] at hcalls
      unfold execute
      rw [execute_of_not_calls hcallsnext]
      exact hsaved hcallsbody

/-- The discipline holds exactly under the condition. -/
theorem disciplined_iff_meets (program : Program) : ∀ {asked : Option Mode} {t : Terminal M}, InForce p asked t →
    (asked.isSome = true → keep t.saved = keep t.mode) → (Disciplined p program asked t ↔ Meets p program asked t) := by
  induction program with
  | done => exact fun _ _ => Iff.rfl
  | raise e => exact fun _ _ => Iff.rfl
  | read maxlen chars next ih =>
    intro asked t hforce hkeep
    unfold Disciplined Meets
    cases hread : readChars maxlen chars with
    | error e =>
      rw [readNonblock_error hread]
      dsimp only
      rw [if_neg (by simp [Except.isOk, Except.toBool])]
      cases asked with
      | none => exact ⟨fun _ => nofun, fun _ => ⟨nofun, nofun⟩⟩
      | some mode =>
        have hmode := hforce mode rfl
        constructor
        · exact fun hdisc _ => (hdisc.1 mode rfl).trans hmode.symm
        · intro hmeets
          refine ⟨fun mode' heq => ?_, nofun⟩
          cases heq
          exact (hmeets rfl).trans hmode
    | ok buf =>
      obtain ⟨s, hcall⟩ := readNonblock_ok h hread t
      have hok : (Except.ok buf : Except Failure (List Int)).isOk = true := rfl
      rw [hcall]
      dsimp only
      rw [if_pos hok, h.restore]
      have hforce' : InForce p asked ⟨(p.ioRawBang true t).saved, (p.ioRawBang true t).saved⟩ := by
        intro mode hasked
        rw [hasked] at hkeep
        exact (((h.raw true).saves_iff t).mpr (hkeep rfl)).trans (hforce mode hasked)
      have hiff := ih hforce' fun _ => rfl
      exact ⟨fun hdisc => hiff.mp (hdisc.2 rfl), fun hmeets => ⟨hforce', fun _ => hiff.mpr hmeets⟩⟩
  | block k body next ihbody ih =>
    intro asked t hforce hkeep
    unfold Disciplined Meets
    rw [ioBlock_eq h, h.saves_iff]
    dsimp only
    -- nothing that is not saved changes up to the end of the block
    have hkept := execute_keep h body (Console.enter p k t)
    rw [(h.enter k).saved] at hkept
    have hentered : InForce p (some (p.observe (Console.enter p k t).mode)) (Console.enter p k t) := by
      intro mode heq
      cases heq
      rfl
    have hkeepentered (hsync : keep t.saved = keep t.mode) :
        keep (Console.enter p k t).saved = keep (Console.enter p k t).mode :=
      ((h.enter k).saved t).trans (hsync.trans ((h.enter k).mode t).symm)
    have hforceback (hback : p.observe (execute p body (Console.enter p k t)).2.saved = p.observe t.mode) :
        InForce p asked ⟨(execute p body (Console.enter p k t)).2.saved, (execute p body (Console.enter p k t)).2.saved⟩ :=
      fun mode heq => hback.trans (hforce mode heq)
    constructor
    · rintro ⟨hbody, hnone, hback, hnext⟩
      have hsync : keep t.saved = keep t.mode := hkept.symm.trans (h.observed _ _ hback)
      refine ⟨hsync, (execute_raises h body _).mp hnone.symm, ?_, ?_, (ih (hforceback hback) fun _ => rfl).mp (hnext rfl)⟩
      · cases hcalls : body.calls with
        | false => exact Or.inr rfl
        | true =>
          left
          obtain ⟨-, -, hsaved⟩ := disciplined_end h body hbody rfl (hkeepentered hsync)
          exact (hsaved hcalls).symm.trans hback
      · exact (ihbody hentered fun _ => hkeepentered hsync).mp hbody
    · rintro ⟨hsync, hraises, hsame, hbody, hnext⟩
      have hdisc := (ihbody hentered fun _ => hkeepentered hsync).mpr hbody
      have hback : p.observe (execute p body (Console.enter p k t)).2.saved = p.observe t.mode := by
        cases hcalls : body.calls with
        | false =>
          rw [execute_of_not_calls hcalls]
          exact ((h.enter k).saves_iff t).mpr hsync
        | true =>
          obtain ⟨-, -, hsaved⟩ := disciplined_end h body hdisc rfl (hkeepentered hsync)
          rw [hcalls] at hsame
          exact (hsaved hcalls).trans (hsame.resolve_right nofun)
      exact ⟨hdisc, ((execute_raises h body _).mpr hraises).symm, hback,
        fun _ => (ih (hforceback hback) fun _ => rfl).mpr hnext⟩
  | rescue body next ihbody ih =>
    intro asked t hforce hkeep
    unfold Disciplined Meets
    rw [ihbody hforce hkeep]
    apply and_congr_right
    intro hmeets
    have hbody := (ihbody hforce hkeep).mpr hmeets
    cases asked with
    | none => exact ih nofun nofun
    | some mode =>
      obtain ⟨hmode, hkeep', -⟩ := disciplined_end h body hbody (hforce mode rfl) (hkeep rfl)
      refine ih (fun mode' heq => ?_) fun _ => hkeep'
      cases heq
      exact hmode

end Executions

/-- **On both ports, and from every terminal, the discipline holds exactly under the condition.** -/
theorem discipline_iff (program : Program) :
    (∀ t : Terminal Stdin, Disciplined posix program none t ↔ Meets posix program none t) ∧
    ∀ t : Terminal Rp2040, Disciplined rp2040 program none t ↔ Meets rp2040 program none t :=
  ⟨fun _ => disciplined_iff_meets posix_lawful program nofun nofun,
    fun _ => disciplined_iff_meets rp2040_lawful program nofun nofun⟩

/-- `raw { read_nonblock(1) }` on a cooked terminal, `raw { raise }`, and `raw { }` after `echo = true` on rp2040. -/
theorem raw_stays :
    posix.observe (execute posix (.block .raw (.read 1 [97] .done) .done)
      ⟨⟨cookedSettings, false⟩, ⟨cookedSettings, false⟩⟩).2.mode = ⟨true, false, false⟩ ∧
    posix.observe ⟨cookedSettings, false⟩ = ⟨false, true, false⟩ ∧
    (execute posix (.block .raw (.raise .interrupt) .done) ⟨⟨cookedSettings, false⟩, ⟨cookedSettings, false⟩⟩).1 = none ∧
    (ioEchoEq true ⟨⟨false, true⟩, ⟨false, true⟩⟩).mode = ⟨false, false⟩ ∧
    (execute rp2040 (.block .raw .done .done) (ioEchoEq true ⟨⟨false, true⟩, ⟨false, true⟩⟩)).2.mode = ⟨false, true⟩ := by
  decide

end PicoRuby.Console
