import PicoRuby.PosixIo.Refinement

/-!
# Runs of calls
-/

namespace PicoRuby.PosixIo

open Shared

set_option autoImplicit false

/-- What is put back fits, a separator is one byte, and a seek that would fail or that is relative to the place of
the system comes when nothing is buffered. -/
def Io.Allowed (io : Io) : Op → Prop
  | .gets args => ∀ rs limit, args.resolve = .ok (rs, limit) → OneByte rs
  | .ungetc str => shrtMax < str.length ∨ io.buf.Fits str
  | .seek offset whence =>
    io.buf.len = 0 ∨ whence = .set ∧ 0 ≤ offset ∨ whence = .fileEnd ∧ 0 ≤ io.fd.content.length + offset
  | _ => True

def Io.AllowedAll (io : Io) : List Op → Prop
  | [] => True
  | op :: ops => io.Allowed op ∧ ∀ value io', io.step op = some (value, io') → io'.AllowedAll ops

namespace Refines
variable {io : Io} {s : Stream}

theorem opened_holds (content : Bytes) (given : Nat → Nat) : (Io.opened content given).buf.Holds [] := by
  have hlen : (Io.opened content given).buf.mem.length = ioBufSize := List.length_replicate
  constructor
  · exact Int.le_refl 0
  · rfl
  · rw [hlen]
    exact Int.natCast_nonneg _
  · rfl
  · rw [hlen]
    decide

theorem opened (content : Bytes) (given : Nat → Nat) : Refines (Io.opened content given) (Stream.opened content) :=
  of_emptied rfl rfl (opened_holds content given)

theorem step (h : Refines io s) {op : Op} (hallowed : io.Allowed op) :
    ∃ io', io.step op = some ((s.step op).1, io') ∧ Refines io' (s.step op).2 := by
  cases op with
  | getbyte => exact h.step_getbyte
  | read length outbuf => exact h.step_read length outbuf
  | gets args => exact h.step_gets args hallowed
  | ungetc str => exact h.step_ungetc hallowed
  | eofQ => exact h.step_eofQ
  | pos => exact h.step_pos
  | seek offset whence => exact h.step_seek offset whence hallowed
  | write strs => exact h.step_write strs

theorem run {ops : List Op} (h : Refines io s) (hallowed : io.AllowedAll ops) :
    ∃ io', io.run ops = some ((s.run ops).1, io') ∧ Refines io' (s.run ops).2 := by
  induction ops generalizing io s with
  | nil => exact ⟨io, rfl, h⟩
  | cons op ops ih =>
    obtain ⟨io₁, hstep, h₁⟩ := h.step hallowed.1
    obtain ⟨io₂, hrun, h₂⟩ := ih h₁ (hallowed.2 _ _ hstep)
    exact ⟨io₂, Io.run_cons hstep hrun, h₂⟩

end Refines

theorem Refines.oneByte_newline : ∀ rs limit, GetsArgs.none.resolve = .ok (rs, limit) → OneByte rs := by
  rintro _ _ ⟨⟩ p ⟨⟩
  rfl

/-- `IO#each`, with the lines its block is called with. -/
def Io.each : Nat → Io → Option (List Bytes × Io)
  | 0, _ => none
  | rounds + 1, io => do
    match ← io.gets .none with
    | (.ok (some line), io) =>
      let (lines, io) ← each rounds io
      return (line :: lines, io)
    | (_, io) => return ([], io)

/-- `IO#each_byte`, with the bytes its block is called with. -/
def Io.eachByte : Nat → Io → Option (Bytes × Io)
  | 0, _ => none
  | rounds + 1, io => do
    match ← io.getbyte with
    | (some byte, io) =>
      let (bytes, io) ← eachByte rounds io
      return (byte :: bytes, io)
    | (none, io) => return ([], io)

/-- A text and its lines, each with the separator that ends it; the last one may have none. -/
inductive Lines (c : UInt8) : Bytes → List Bytes → Prop where
  | nil : Lines c [] []
  | last {body : Bytes} : c ∉ body → body ≠ [] → Lines c body [body]
  | line {body rest : Bytes} {lines : List Bytes} :
    c ∉ body → Lines c rest lines → Lines c (body ++ [c] ++ rest) ((body ++ [c]) :: lines)

theorem Lines.of_nil {c : UInt8} {text : Bytes} {lines : List Bytes} (h : Lines c text lines) (hnil : text = []) :
    lines = [] := by
  cases h with
  | nil => rfl
  | last _ hne => exact absurd hnil hne
  | line _ _ => simp at hnil

/-- What the calls to come can still read. -/
def Stream.unread (s : Stream) : Bytes := if s.eof then [] else s.rest

theorem Stream.unread_eq {s : Stream} (h : s.eof = false) : s.unread = s.rest :=
  if_neg (h ▸ Bool.false_ne_true)

theorem Stream.unread_ne {s : Stream} (h : s.unread ≠ []) : s.eof = false ∧ s.rest ≠ [] ∧ s.unread = s.rest := by
  unfold unread at *
  cases heof : s.eof with
  | true =>
    rw [if_pos heof] at h
    exact absurd rfl h
  | false =>
    rw [heof, if_neg Bool.false_ne_true] at h
    exact ⟨rfl, h, rfl⟩

theorem not_mem_take {c : UInt8} {rest : Bytes} {i : Nat} (h : ∀ j, 0 ≤ j → j < i → ¬ OccursAt [c] rest j) :
    c ∉ rest.take i := by
  intro hmem
  obtain ⟨j, hj, hget⟩ := List.mem_iff_getElem.mp hmem
  rw [List.length_take] at hj
  apply h j (Nat.zero_le j) (by omega)
  rw [List.getElem_take] at hget
  rw [occursAt_singleton, List.getElem?_eq_getElem (by omega), hget]

/-- The next line ends with the first separator, or it is all that is left. -/
theorem Stream.nextLine_cases (s : Stream) (c : UInt8) :
    (c ∉ s.rest ∧ s.nextLine (some [c]) none = (s.rest, s.finish)) ∨
    ∃ body rest, c ∉ body ∧ s.rest = body ++ [c] ++ rest ∧
      s.nextLine (some [c]) none = (body ++ [c], s.advance (body.length + 1)) := by
  unfold nextLine lineLength
  rw [Option.bind_some]
  cases hindex : indexFrom [c] s.rest 0 with
  | none =>
    refine Or.inl ⟨?_, rfl⟩
    intro hmem
    obtain ⟨j, hj, hget⟩ := List.mem_iff_getElem.mp hmem
    rw [indexFrom_eq_none_iff] at hindex
    apply hindex j (Nat.zero_le j)
    rw [occursAt_singleton, List.getElem?_eq_getElem hj, hget]
  | some i =>
    obtain ⟨-, hocc, hfirst⟩ := indexFrom_eq_some_iff.mp hindex
    obtain ⟨hi, hget⟩ := List.getElem?_eq_some_iff.mp (occursAt_singleton.mp hocc)
    have htake : s.rest.take (i + 1) = s.rest.take i ++ [c] := by
      rw [List.take_succ_eq_append_getElem hi, hget]
    refine Or.inr ⟨s.rest.take i, s.rest.drop (i + 1), not_mem_take hfirst, ?_, ?_⟩
    · rw [← htake, List.take_append_drop]
    · rw [List.length_take, Nat.min_eq_left (Nat.le_of_lt hi), ← htake]
      rfl

namespace Refines
variable {io : Io} {s : Stream}

theorem gets_of_step {args : GetsArgs} {value : Value} {io' : Io} (h : io.step (.gets args) = some (value, io')) :
    ∃ line, io.gets args = some (line, io') ∧ Value.ofExcept .ofStr line = value := by
  rw [Io.step_gets] at h
  cases hgets : io.gets args with
  | none =>
    rw [hgets] at h
    cases h
  | some result =>
    rw [hgets] at h
    cases h
    exact ⟨result.1, rfl, rfl⟩

theorem gets_nil (h : Refines io s) (hunread : s.unread = []) :
    ∃ io', io.gets .none = some (.ok none, io') ∧ io'.fd.content = s.content := by
  obtain ⟨io', hstep, h'⟩ := h.step_gets .none oneByte_newline
  obtain ⟨line, hgets, hvalue⟩ := gets_of_step hstep
  have hs : (s.step (.gets .none)).1 = .nil ∧ (s.step (.gets .none)).2.content = s.content := by
    change (if s.eof then (Value.nil, s) else if s.rest.isEmpty then (.nil, s.finish) else _).1 = _ ∧
      (if s.eof then (Value.nil, s) else if s.rest.isEmpty then (.nil, s.finish) else _).2.content = _
    by_cases heof : s.eof = true
    · rw [if_pos heof]
      exact ⟨rfl, rfl⟩
    · have hrest : s.rest = [] := by rwa [Stream.unread, if_neg heof] at hunread
      rw [if_neg heof, hrest]
      exact ⟨rfl, rfl⟩
  rw [hs.1] at hvalue
  refine ⟨io', ?_, h'.content.trans hs.2⟩
  rw [hgets]
  rcases line with e | _ | line
  · cases hvalue
  · rfl
  · cases hvalue

theorem gets_line (h : Refines io s) (hunread : s.unread ≠ []) :
    ∃ io', io.gets .none = some (.ok (some (s.nextLine (some [10]) none).1), io') ∧
      Refines io' (s.nextLine (some [10]) none).2 := by
  obtain ⟨heof, hrest, -⟩ := Stream.unread_ne hunread
  obtain ⟨io', hstep, h'⟩ := h.step_gets .none oneByte_newline
  obtain ⟨line, hgets, hvalue⟩ := gets_of_step hstep
  have hs : s.step (.gets .none) = (.str (s.nextLine (some [10]) none).1, (s.nextLine (some [10]) none).2) := by
    change (if s.eof then (Value.nil, s) else if s.rest.isEmpty then (.nil, s.finish) else _) = _
    rw [heof, if_neg Bool.false_ne_true, if_neg (by rwa [List.isEmpty_iff])]
  rw [hs] at hvalue h'
  refine ⟨io', ?_, h'⟩
  rw [hgets]
  rcases line with e | _ | line
  · cases hvalue
  · cases hvalue
  · cases hvalue
    rfl

/-- `each` gives its block the lines that are left, and ends. -/
theorem each (h : Refines io s) {rounds : Nat} (hrounds : s.unread.length < rounds) :
    ∃ lines io', io.each rounds = some (lines, io') ∧ Lines 10 s.unread lines ∧ io'.fd.content = s.content := by
  induction rounds generalizing io s with
  | zero => omega
  | succ rounds ih =>
    by_cases hunread : s.unread = []
    · obtain ⟨io', hgets, hcontent⟩ := h.gets_nil hunread
      refine ⟨[], io', ?_, ?_, hcontent⟩
      · rw [Io.each, hgets]
        rfl
      · rw [hunread]
        exact .nil
    · obtain ⟨io₁, hgets, h₁⟩ := h.gets_line hunread
      obtain ⟨heof, -, hrest⟩ := Stream.unread_ne hunread
      rcases s.nextLine_cases 10 with ⟨hbody, hline⟩ | ⟨body, rest, hbody, hsplit, hline⟩
      · rw [hline] at hgets h₁
        have hpos : 0 < s.unread.length := List.length_pos_iff.mpr hunread
        obtain ⟨lines, io', hlines, hall, hcontent⟩ := ih h₁ (show 0 < rounds by omega)
        refine ⟨s.rest :: lines, io', ?_, ?_, hcontent⟩
        · rw [Io.each, hgets]
          change (do let (lines, io) ← io₁.each rounds; return (s.rest :: lines, io)) = _
          rw [hlines]
          rfl
        · rw [hrest, hall.of_nil rfl]
          exact .last hbody (hrest ▸ hunread)
      · rw [hline] at hgets h₁
        have hafter : (s.advance (body.length + 1)).rest = rest := by
          rw [Stream.advance_rest, hsplit]
          exact List.drop_left' List.length_append
        have hunread' : (s.advance (body.length + 1)).unread = rest := (Stream.unread_eq (s := s.advance _) heof).trans hafter
        have hlen : s.unread.length = body.length + 1 + rest.length := by
          rw [hrest, hsplit, List.length_append, List.length_append]
          rfl
        obtain ⟨lines, io', hlines, hall, hcontent⟩ := ih h₁ (by rw [hunread']; omega)
        refine ⟨(body ++ [10]) :: lines, io', ?_, ?_, hcontent⟩
        · rw [Io.each, hgets]
          change (do let (lines, io) ← io₁.each rounds; return ((body ++ [10]) :: lines, io)) = _
          rw [hlines]
          rfl
        · rw [hrest, hsplit]
          rw [hunread'] at hall
          exact .line hbody hall

theorem getbyte_of_step {value : Value} {io' : Io} (h : io.step .getbyte = some (value, io')) :
    ∃ c : Option UInt8, io.getbyte = some (c, io') ∧ (c.map fun c => Value.int c.toNat).getD .nil = value := by
  rw [Io.step_getbyte] at h
  cases hget : io.getbyte with
  | none =>
    rw [hget] at h
    cases h
  | some result =>
    rw [hget] at h
    cases h
    exact ⟨result.1, rfl, rfl⟩

/-- `each_byte` gives its block the bytes that are left, and ends. -/
theorem eachByte (h : Refines io s) {rounds : Nat} (hrounds : s.unread.length < rounds) :
    ∃ io', io.eachByte rounds = some (s.unread, io') ∧ io'.fd.content = s.content := by
  induction rounds generalizing io s with
  | zero => omega
  | succ rounds ih =>
    obtain ⟨io₁, hstep, h₁⟩ := h.step_getbyte
    obtain ⟨c, hget, hvalue⟩ := getbyte_of_step hstep
    have hstep' : s.step .getbyte = s.getbyte := rfl
    rw [hstep'] at hvalue h₁
    rw [Io.eachByte, hget]
    by_cases hunread : s.unread = []
    · have hs : s.getbyte.1 = .nil ∧ s.getbyte.2.content = s.content := by
        unfold Stream.getbyte
        by_cases heof : s.eof = true
        · rw [if_pos heof]
          exact ⟨rfl, rfl⟩
        · have hrest : s.rest = [] := by rwa [Stream.unread, if_neg heof] at hunread
          rw [if_neg heof, hrest]
          exact ⟨rfl, rfl⟩
      rw [hs.1] at hvalue
      cases c with
      | none =>
        rw [hunread]
        exact ⟨io₁, rfl, h₁.content.trans hs.2⟩
      | some c => cases hvalue
    · obtain ⟨heof, -, hrest⟩ := Stream.unread_ne hunread
      cases hcons : s.rest with
      | nil => exact absurd (hrest.trans hcons) hunread
      | cons x tail =>
        have hs : s.getbyte = (.int x.toNat, s.advance 1) := by
          unfold Stream.getbyte
          rw [heof, hcons]
          rfl
        have hunread' : (s.advance 1).unread = tail := by
          rw [Stream.unread_eq (s := s.advance 1) heof, Stream.advance_rest, hcons]
          rfl
        rw [hs] at hvalue h₁
        rw [hrest, hcons] at hrounds ⊢
        cases c with
        | none => cases hvalue
        | some c =>
          have hbyte : (c.toNat : Int) = x.toNat := Value.int.inj hvalue
          have hsame : c = x := UInt8.toNat_inj.mp (Int.ofNat_inj.mp hbyte)
          obtain ⟨io', hbytes, hcontent⟩ := ih h₁ (by rw [hunread']; exact Nat.lt_of_succ_lt_succ hrounds)
          refine ⟨io', ?_, hcontent⟩
          change (do let (bytes, io) ← io₁.eachByte rounds; return (c :: bytes, io)) = _
          rw [hbytes, hunread', hsame]
          rfl

end Refines

/-- `ungetc` after any calls: what it is given is put back in front of what was read ahead exactly if it fits. -/
theorem Io.ungetc_puts_back_iff (content : Bytes) (given : Nat → Nat) (ops : List Op)
    (hallowed : (Io.opened content given).AllowedAll ops) (str : Bytes) (hstr : str.length ≤ shrtMax) :
    ∃ values io bytes, (Io.opened content given).run ops = some (values, io) ∧ io.buf.Holds bytes ∧
      bytes <+: ((Stream.opened content).run ops).2.rest ∧
      ((∃ io', io.ungetc str = some (.ok io') ∧ io'.buf.Holds (str ++ bytes)) ↔ io.buf.Fits str) := by
  obtain ⟨io, hrun, h⟩ := (Refines.opened content given).run hallowed
  obtain ⟨bytes, hholds, hpre⟩ := h.holds
  exact ⟨_, io, bytes, hrun, hholds, hpre, Io.ungetc_iff hholds hstr⟩

/-- One byte fits before the two that are left of a line. -/
theorem Io.ungetc_puts_back_iff_small : ∃ values io bytes,
    (Io.opened [97, 10, 98] fun _ => 5).run [.getbyte] = some (values, io) ∧ io.buf.Holds bytes ∧
      bytes <+: [10, 98] ∧
      ((∃ io', io.ungetc [1] = some (.ok io') ∧ io'.buf.Holds ([1] ++ bytes)) ↔ io.buf.Fits [1]) :=
  Io.ungetc_puts_back_iff [97, 10, 98] (fun _ => 5) [.getbyte] ⟨trivial, fun _ _ _ => trivial⟩ [1] (by decide)

end PicoRuby.PosixIo
