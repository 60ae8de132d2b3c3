import PicoRuby.Vfs.File

/-!
# Reading lines

What `File#gets` returns and where it leaves the position.
-/

namespace PicoRuby.Vfs

open Shared

set_option autoImplicit false

namespace Handle

theorem rsAdjust_end (rs : Bytes) (pos : Nat) : (pos + 1 + rsAdjust rs).toNat = pos + rs.length := by
  unfold rsAdjust
  omega

theorem rsAdjust_offset (rs : Bytes) (indexAt : Nat) :
    (max (indexAt - rsAdjust rs) 0).toNat = indexAt + 1 - rs.length := by
  unfold rsAdjust
  omega

/-! ## The unlimited loop -/

theorem readUntil_nil {rs : Bytes} {indexAt : Nat} {result : Bytes} {f : Handle} (h : f.rest = []) :
    readUntil rs indexAt result f = (result, f) := by
  rw [readUntil, read_nil chunkSize h]

theorem readUntil_cons {rs : Bytes} {indexAt : Nat} {result : Bytes} {f : Handle} (h : f.rest ≠ []) :
    readUntil rs indexAt result f =
      match indexFrom rs (result ++ f.rest.take chunkSize) (indexAt + 1 - rs.length) with
      | some pos => ((result ++ f.rest.take chunkSize).take (pos + rs.length), f.advance chunkSize)
      | none => readUntil rs (indexAt + chunkSize) (result ++ f.rest.take chunkSize) (f.advance chunkSize) := by
  cases hindex : indexFrom rs (result ++ f.rest.take chunkSize) (indexAt + 1 - rs.length) with
  | none =>
    rw [readUntil, read_cons (by decide) h]
    simp only [rsAdjust_offset, hindex]
  | some pos =>
    rw [readUntil, read_cons (by decide) h]
    simp only [rsAdjust_end, rsAdjust_offset, hindex]

/-- No `rs` ends in what has been read so far. -/
theorem readUntil_eq {rs : Bytes} (f : Handle) (k : Nat)
    (h : ∀ i, OccursAt rs f.rest i → k < i + rs.length) :
    (readUntil rs k (f.rest.take k) (f.advance k)).1 = upto rs f.rest ∧
      ∃ n, (readUntil rs k (f.rest.take k) (f.advance k)).2 = f.advance n := by
  generalize hlen : f.rest.length - k = len
  induction len using Nat.strong_induction_on generalizing k with
  | _ len ih =>
    by_cases hrest : (f.advance k).rest = []
    · rw [readUntil_nil hrest]
      refine ⟨?_, k, rfl⟩
      rw [advance_rest, List.drop_eq_nil_iff] at hrest
      rw [List.take_of_length_le hrest, upto_eq_none]
      rw [indexFrom_eq_none_iff]
      intro i _ hocc
      have hend := hocc.end_le
      have hlt := h i hocc
      omega
    · rw [readUntil_cons hrest, advance_rest, ← List.take_add, advance_advance]
      have hskip : indexFrom rs (f.rest.take (k + chunkSize)) (k + 1 - rs.length) =
          indexFrom rs (f.rest.take (k + chunkSize)) 0 := by
        apply indexFrom_skip (Nat.zero_le _)
        intro i _ hi hocc
        have hlt := h i (occursAt_take.mp hocc).1
        omega
      rw [hskip]
      cases hindex : indexFrom rs (f.rest.take (k + chunkSize)) 0 with
      | some i =>
        obtain ⟨hwhole, hend⟩ := indexFrom_of_take hindex
        refine ⟨?_, _, rfl⟩
        rw [upto_eq_some hwhole]
        simp only [List.take_take, Nat.min_eq_left hend]
      | none =>
        rw [indexFrom_eq_none_iff] at hindex
        have hpos := List.length_pos_iff.mpr hrest
        rw [advance_rest, List.length_drop] at hpos
        refine ih _ ?_ (k + chunkSize) ?_ rfl
        · unfold chunkSize
          omega
        · intro i hocc
          by_contra hle
          exact hindex i (Nat.zero_le _) (occursAt_take.mpr ⟨hocc, by omega⟩)

/-- What a call returns that has `line` for its result. -/
def deliver (f : Handle) (line : Bytes) : Option Bytes × Handle :=
  if f.rest = [] then (none, f) else (some line, f.seek (f.pos + line.length))

theorem getsWith_none {rs : Bytes} (hrs : rs ≠ []) (f : Handle) :
    getsWith rs none false f = f.deliver (upto rs f.rest) := by
  unfold getsWith deliver
  by_cases hrest : f.rest = []
  · rw [if_pos hrest]
    simp only [readUntil_nil hrest]
    rfl
  · have hfrom : ∀ i, OccursAt rs f.rest i → 0 < i + rs.length := by
      intro i _
      have hpos := List.length_pos_iff.mpr hrs
      omega
    obtain ⟨hresult, n, hn⟩ := readUntil_eq f 0 hfrom
    rw [List.take_zero, advance_zero] at hresult hn
    have hlen := List.length_pos_iff.mpr (upto_ne_nil hrs hrest)
    simp only [hresult, hn]
    rw [if_neg (by omega), if_neg hrest]
    rfl

/-! ## The loop with a limit -/

/-- How many bytes are asked for. -/
def asked (limit : Int) : Nat := (limit / chunkSize).toNat * limit.toNat + (limit % chunkSize).toNat

theorem readTimes_eq (f : Handle) (limit n k : Nat) :
    readTimes limit n (f.rest.take k) (f.advance k) =
      (f.rest.take (k + n * limit), f.advance (k + n * limit)) := by
  induction n generalizing k with
  | zero => rw [readTimes, Nat.zero_mul, Nat.add_zero]
  | succ n ih =>
    rw [readTimes, read_fst, read_snd, advance_rest, ← List.take_add, advance_advance, ih, Nat.succ_mul]
    have hsum : k + limit + n * limit = k + (n * limit + limit) := by omega
    rw [hsum]

theorem readLimited_eq (rs : Bytes) (limit : Int) (f : Handle) :
    readLimited rs limit f = (upto rs (f.rest.take (asked limit)), f.advance (asked limit)) := by
  have htimes := readTimes_eq f limit.toNat (limit / chunkSize).toNat 0
  rw [List.take_zero, advance_zero, Nat.zero_add] at htimes
  unfold readLimited
  rw [htimes]
  simp only [read_fst, read_snd, advance_rest, ← List.take_add, advance_advance, rsAdjust_end]
  rw [← asked]
  cases hindex : indexFrom rs (f.rest.take (asked limit)) 0 with
  | some i => rw [upto_eq_some hindex]
  | none => rw [upto_eq_none hindex]

theorem getsWith_some (rs : Bytes) (limit : Int) (f : Handle) :
    getsWith rs (some limit) false f =
      if upto rs (f.rest.take (asked limit)) = [] then (none, f.advance (asked limit))
      else (some (upto rs (f.rest.take (asked limit))),
        f.seek (f.pos + (upto rs (f.rest.take (asked limit))).length)) := by
  unfold getsWith
  simp only [readLimited_eq, List.length_eq_zero_iff]
  rfl

/-! ## Calling again -/

theorem gets_separator {rs : Bytes} (hrs : rs ≠ []) (f : Handle) :
    f.gets (.separator (some rs)) false = .ok (f.deliver (upto rs f.rest)) := by
  rw [← getsWith_none hrs]
  rfl

theorem deliver_cons {f : Handle} (line : Bytes) (h : f.rest ≠ []) :
    f.deliver line = (some line, f.seek (f.pos + line.length)) := by
  rw [deliver, if_neg h]

theorem deliver_nil {f : Handle} (line : Bytes) (h : f.rest = []) : f.deliver line = (none, f) := by
  rw [deliver, if_pos h]

theorem deliver_upto_lt {f g : Handle} {rs line : Bytes} (hrs : rs ≠ [])
    (h : f.deliver (upto rs f.rest) = (some line, g)) : g.rest.length < f.rest.length := by
  by_cases hrest : f.rest = []
  · rw [deliver_nil _ hrest] at h
    cases h
  · rw [deliver_cons _ hrest] at h
    cases h
    have hpos := List.length_pos_iff.mpr hrest
    have hline := List.length_pos_iff.mpr (upto_ne_nil hrs hrest)
    rw [rest_seek, List.length_drop]
    omega

/-- The lines that the block of `each_line` is called with. -/
def eachLine (f : Handle) : List Bytes × Handle :=
  match _h : getsWith [newline] none false f with
  | (none, g) => ([], g)
  | (some line, g) => (line :: (eachLine g).1, (eachLine g).2)
termination_by f.rest.length
decreasing_by
  all_goals
    rw [getsWith_none (by decide)] at _h
    exact deliver_upto_lt (by decide) _h

/-- Calls until one returns nil. -/
inductive Reads (args : Args) : Handle → List Bytes → Handle → Prop where
  | done {f g : Handle} (h : f.gets args false = .ok (none, g)) : Reads args f [] g
  | line {f g g' : Handle} {line : Bytes} {lines : List Bytes}
      (h : f.gets args false = .ok (some line, g)) (hlines : Reads args g lines g') :
      Reads args f (line :: lines) g'

theorem Reads.eachLine_eq {f g : Handle} {lines : List Bytes}
    (h : Reads (.separator (some [newline])) f lines g) : f.eachLine = (lines, g) := by
  induction h with
  | @done f g h =>
    have hgets : getsWith [newline] none false f = (none, g) := Except.ok.inj h
    rw [eachLine]
    split
    · rename_i heq
      rw [hgets] at heq
      cases heq
      rfl
    · rename_i heq
      rw [hgets] at heq
      cases heq
  | @line f g g' line lines h _ ih =>
    have hgets : getsWith [newline] none false f = (some line, g) := Except.ok.inj h
    rw [eachLine]
    split
    · rename_i heq
      rw [hgets] at heq
      cases heq
    · rename_i heq
      rw [hgets] at heq
      cases heq
      rw [ih]

end Handle

/-- What comes next: `rest` up to the end of the first `rs`, all of it where there is none. -/
structure IsLine (rs rest line : Bytes) : Prop where
  nonempty : line ≠ []
  isPrefix : line <+: rest
  ends : (∃ i, OccursAt rs rest i ∧ (∀ j < i, ¬ OccursAt rs rest j) ∧ line.length = i + rs.length) ∨
    ((∀ i, ¬ OccursAt rs rest i) ∧ line = rest)

theorem upto_isLine {rs rest : Bytes} (hrs : rs ≠ []) (hrest : rest ≠ []) : IsLine rs rest (upto rs rest) := by
  refine ⟨upto_ne_nil hrs hrest, upto_isPrefix, ?_⟩
  cases hindex : indexFrom rs rest 0 with
  | some i =>
    obtain ⟨-, hocc, hfirst⟩ := indexFrom_eq_some_iff.mp hindex
    have hend := hocc.end_le
    refine .inl ⟨i, hocc, fun j hj => hfirst j (Nat.zero_le _) hj, ?_⟩
    rw [upto_eq_some hindex, List.length_take, Nat.min_eq_left hend]
  | none =>
    rw [indexFrom_eq_none_iff] at hindex
    exact .inr ⟨fun i => hindex i (Nat.zero_le _), upto_eq_none (indexFrom_eq_none_iff.mpr hindex)⟩

/-- `rest`, line by line. -/
inductive Lines (rs : Bytes) : Bytes → List Bytes → Prop where
  | nil : Lines rs [] []
  | cons {rest line : Bytes} {lines : List Bytes} (h : IsLine rs rest line)
      (hlines : Lines rs (rest.drop line.length) lines) : Lines rs rest (line :: lines)

theorem Lines.flatten {rs rest : Bytes} {lines : List Bytes} (h : Lines rs rest lines) : lines.flatten = rest := by
  induction h with
  | nil => rfl
  | @cons rest line lines h _ ih =>
    obtain ⟨more, rfl⟩ := h.isPrefix
    rw [List.drop_left] at ih
    rw [List.flatten_cons, ih]

/-- A line ends with its only separator, or it is the last and has none. -/
theorem IsLine.singleton {c : UInt8} {rest line : Bytes} (h : IsLine [c] rest line) :
    (∃ before, c ∉ before ∧ line = before ++ [c]) ∨ (c ∉ rest ∧ line = rest) := by
  rcases h.ends with ⟨i, hocc, hfirst, hlen⟩ | ⟨hnone, hline⟩
  · rw [occursAt_singleton] at hocc
    refine .inl ⟨rest.take i, ?_, ?_⟩
    · intro hmem
      obtain ⟨j, hj⟩ := List.mem_iff_getElem?.mp hmem
      rw [List.getElem?_take] at hj
      split at hj
      · exact hfirst j (by assumption) (occursAt_singleton.mpr hj)
      · cases hj
    · have hline := List.prefix_iff_eq_take.mp h.isPrefix
      rw [hlen, List.length_singleton, List.take_add_one, hocc] at hline
      exact hline
  · refine .inr ⟨?_, hline⟩
    intro hmem
    obtain ⟨i, hi⟩ := List.mem_iff_getElem?.mp hmem
    exact hnone i (occursAt_singleton.mpr hi)

theorem IsLine.eq_upto {rs rest line : Bytes} (h : IsLine rs rest line) : line = upto rs rest := by
  rcases h.ends with ⟨i, hocc, hfirst, hlen⟩ | ⟨hnone, hline⟩
  · have hindex : indexFrom rs rest 0 = some i :=
      indexFrom_eq_some_iff.mpr ⟨Nat.zero_le _, hocc, fun j _ hj => hfirst j hj⟩
    rw [upto_eq_some hindex, ← hlen]
    exact List.prefix_iff_eq_take.mp h.isPrefix
  · have hindex : indexFrom rs rest 0 = none := indexFrom_eq_none_iff.mpr fun i _ => hnone i
    rw [upto_eq_none hindex, hline]

theorem Lines.unique {rs rest : Bytes} {lines lines' : List Bytes} (h : Lines rs rest lines)
    (h' : Lines rs rest lines') : lines = lines' := by
  induction h generalizing lines' with
  | nil =>
    cases h' with
    | nil => rfl
    | cons hline _ => exact absurd (List.prefix_nil.mp hline.isPrefix) hline.nonempty
  | @cons rest line lines hline _ ih =>
    cases h' with
    | nil => exact absurd (List.prefix_nil.mp hline.isPrefix) hline.nonempty
    | @cons _ line' _ hline' hlines' =>
      have heq : line = line' := hline.eq_upto.trans hline'.eq_upto.symm
      rw [← heq] at hlines' ⊢
      rw [ih hlines']

theorem exists_reads {rs : Bytes} (hrs : rs ≠ []) (f : Handle) : ∃ lines,
    Handle.Reads (.separator (some rs)) f lines (f.seek (f.pos + f.rest.length)) ∧ Lines rs f.rest lines := by
  generalize hlen : f.rest.length = len
  induction len using Nat.strong_induction_on generalizing f with
  | _ len ih =>
    have hgets := f.gets_separator hrs
    by_cases hrest : f.rest = []
    · rw [Handle.deliver_nil _ hrest] at hgets
      refine ⟨[], ?_, hrest ▸ .nil⟩
      rw [← hlen, hrest]
      exact .done hgets
    · have hlt := Handle.deliver_upto_lt hrs (Handle.deliver_cons (upto rs f.rest) hrest)
      rw [Handle.deliver_cons _ hrest] at hgets
      obtain ⟨lines, hreads, hlines⟩ := ih _ (hlen ▸ hlt) _ rfl
      refine ⟨upto rs f.rest :: lines, .line hgets ?_, .cons (upto_isLine hrs hrest) ?_⟩
      · have hprefix : upto rs f.rest <+: f.rest := upto_isPrefix
        have hle := hprefix.length_le
        have hend : (f.seek (f.pos + (upto rs f.rest).length)).pos + (len - (upto rs f.rest).length) =
            f.pos + len := by
          have hpos : (f.seek (f.pos + (upto rs f.rest).length)).pos = f.pos + (upto rs f.rest).length := rfl
          omega
        rwa [Handle.rest_seek, List.length_drop, hlen, hend, Handle.seek_seek] at hreads
      · rwa [Handle.rest_seek] at hlines

/-- `each_line` from the start of a file. -/
theorem eachLine_lines (content : Bytes) : Lines [newline] content (Handle.eachLine ⟨content, 0⟩).1 := by
  have hnewline : [newline] ≠ [] := List.cons_ne_nil _ _
  obtain ⟨lines, hreads, hlines⟩ := exists_reads hnewline ⟨content, 0⟩
  rw [hreads.eachLine_eq]
  exact hlines

/-- **Lines are read exactly:** a call returns what comes next and moves the position behind it, and calls until
nil, as those of `each_line`, return what is left of the file, line by line. -/
theorem gets_lines (f : Handle) {rs : Bytes} (hrs : rs ≠ []) :
    (f.rest = [] → f.gets (.separator (some rs)) false = .ok (none, f)) ∧
    (f.rest ≠ [] → ∃ line, IsLine rs f.rest line ∧
      f.gets (.separator (some rs)) false = .ok (some line, f.seek (f.pos + line.length))) ∧
    ∃ lines, Handle.Reads (.separator (some rs)) f lines (f.seek (f.pos + f.rest.length)) ∧
      Lines rs f.rest lines ∧ lines.flatten = f.rest ∧
      (rs = [newline] → f.eachLine = (lines, f.seek (f.pos + f.rest.length))) := by
  have hgets := f.gets_separator hrs
  refine ⟨?_, ?_, ?_⟩
  · intro hrest
    rwa [Handle.deliver_nil _ hrest] at hgets
  · intro hrest
    rw [Handle.deliver_cons _ hrest] at hgets
    exact ⟨_, upto_isLine hrs hrest, hgets⟩
  · obtain ⟨lines, hreads, hlines⟩ := exists_reads hrs f
    refine ⟨lines, hreads, hlines, hlines.flatten, ?_⟩
    rintro rfl
    exact hreads.eachLine_eq

/-- The separator is `\r\n`, and a lone `\r` is before it. -/
theorem gets_lines_crlf : ([13, 10] : Bytes) ≠ [] ∧
    ∃ lines, Handle.Reads (.separator (some [13, 10])) ⟨[97, 13, 13, 10, 98], 1⟩ lines ⟨[97, 13, 13, 10, 98], 5⟩ ∧
      lines.flatten = [13, 13, 10, 98] := by
  refine ⟨by decide, ?_⟩
  obtain ⟨-, -, lines, hreads, -, hflatten, -⟩ :=
    gets_lines ⟨[97, 13, 13, 10, 98], 1⟩ (by decide : ([13, 10] : Bytes) ≠ [])
  exact ⟨lines, hreads, hflatten⟩

/-! ## With a limit, and without a separator -/

/-- At most `limit` bytes that do not go on behind an `rs`. -/
def Allowed (rs : Option Bytes) (limit : Option Nat) (rest : Bytes) (len : Nat) : Prop :=
  (∀ n ∈ limit, len ≤ n) ∧ ∀ s ∈ rs, ∀ i, OccursAt s rest i → len ≤ i + s.length

/-- The longest beginning of `rest` that is allowed. -/
structure Longest (rs : Option Bytes) (limit : Option Nat) (rest line : Bytes) : Prop where
  isPrefix : line <+: rest
  allowed : Allowed rs limit rest line.length
  longest : ∀ other, other <+: rest → Allowed rs limit rest other.length → other.length ≤ line.length

/-- The call returns the longest line, or nil at the end of the file, and moves the position behind it. -/
def Meets (f : Handle) (args : Args) (rs : Option Bytes) (limit : Option Nat) : Prop :=
  if f.rest = [] then f.gets args false = .ok (none, f)
  else ∃ line, Longest rs limit f.rest line ∧ f.gets args false = .ok (some line, f.seek (f.pos + line.length))

def cut (rs : Option Bytes) (limit : Option Nat) (rest : Bytes) : Bytes :=
  let line := rs.elim rest fun s => upto s rest
  limit.elim line line.take

theorem upto_allowed (s rest : Bytes) {len : Nat} (hlen : len ≤ rest.length) :
    (∀ i, OccursAt s rest i → len ≤ i + s.length) ↔ len ≤ (upto s rest).length := by
  cases hindex : indexFrom s rest 0 with
  | some i =>
    obtain ⟨-, hocc, hfirst⟩ := indexFrom_eq_some_iff.mp hindex
    have hend := hocc.end_le
    rw [upto_eq_some hindex, List.length_take, Nat.min_eq_left hend]
    constructor
    · intro h
      exact h i hocc
    · intro h j hj
      have hle : i ≤ j := by
        by_contra hlt
        exact hfirst j (Nat.zero_le _) (by omega) hj
      omega
  | none =>
    rw [upto_eq_none hindex]
    rw [indexFrom_eq_none_iff] at hindex
    constructor
    · intro _
      exact hlen
    · intro _ i hocc
      exact absurd hocc (hindex i (Nat.zero_le _))

theorem cut_prefix (rs : Option Bytes) (limit : Option Nat) (rest : Bytes) : cut rs limit rest <+: rest := by
  have hline : (rs.elim rest fun s => upto s rest) <+: rest := by
    cases rs with
    | none => exact List.prefix_rfl
    | some s => exact upto_isPrefix
  cases limit with
  | none => exact hline
  | some n => exact (List.take_prefix _ _).trans hline

theorem allowed_iff (rs : Option Bytes) (limit : Option Nat) (rest : Bytes) {len : Nat} (hlen : len ≤ rest.length) :
    Allowed rs limit rest len ↔ len ≤ (cut rs limit rest).length := by
  have hline : (∀ s ∈ rs, ∀ i, OccursAt s rest i → len ≤ i + s.length) ↔
      len ≤ (rs.elim rest fun s => upto s rest).length := by
    cases rs with
    | none => simp [hlen]
    | some s => simpa using upto_allowed s rest hlen
  unfold Allowed cut
  rw [hline]
  cases limit with
  | none => simp
  | some n =>
    have hcut : (List.take n (rs.elim rest fun s => upto s rest)).length =
        min n (rs.elim rest fun s => upto s rest).length := List.length_take
    rw [Option.elim_some, hcut, Nat.le_min]
    simp only [Option.mem_some_iff, forall_eq']

theorem longest_iff {rs : Option Bytes} {limit : Option Nat} {rest line : Bytes} :
    Longest rs limit rest line ↔ line = cut rs limit rest := by
  have hcut := cut_prefix rs limit rest
  constructor
  · intro h
    have hle := (allowed_iff rs limit rest h.isPrefix.length_le).mp h.allowed
    have hge := h.longest _ hcut ((allowed_iff rs limit rest hcut.length_le).mpr (Nat.le_refl _))
    exact (List.prefix_of_prefix_length_le h.isPrefix hcut hle).eq_of_length (by omega)
  · rintro rfl
    refine ⟨hcut, (allowed_iff rs limit rest hcut.length_le).mpr (Nat.le_refl _), ?_⟩
    intro other hother hallowed
    exact (allowed_iff rs limit rest hother.length_le).mp hallowed

theorem meets_iff {f : Handle} {args : Args} {rs : Option Bytes} {limit : Option Nat} :
    Meets f args rs limit ↔ f.gets args false = .ok (f.deliver (cut rs limit f.rest)) := by
  unfold Meets
  by_cases hrest : f.rest = []
  · rw [if_pos hrest, Handle.deliver_nil _ hrest]
  · rw [if_neg hrest, Handle.deliver_cons _ hrest]
    simp only [longest_iff, exists_eq_left]

namespace Handle

theorem asked_small {n : Nat} (h : n ≤ chunkSize) : asked n = n := by
  unfold asked
  unfold chunkSize at h ⊢
  by_cases hlt : n < 127
  · have hdiv : (n : Int) / (127 : Nat) = 0 := by omega
    have hmod : (n : Int) % (127 : Nat) = n := by omega
    rw [hdiv, hmod]
    simp
  · have hn : n = 127 := by omega
    rw [hn]
    rfl

theorem asked_large {n : Nat} (h : chunkSize < n) : n < asked n := by
  unfold asked
  unfold chunkSize at h ⊢
  have hmul : n ≤ ((n : Int) / (127 : Nat)).toNat * n := Nat.le_mul_of_pos_left n (by omega)
  rw [Int.toNat_natCast]
  by_cases hmod : (n : Int) % (127 : Nat) = 0
  · have htwo : 2 * n ≤ ((n : Int) / (127 : Nat)).toNat * n := Nat.mul_le_mul_right n (by omega)
    omega
  · omega

theorem asked_pos {n : Nat} (h : 1 ≤ n) : 0 < asked n := by
  by_cases hle : n ≤ chunkSize
  · rw [asked_small hle]
    exact h
  · have hlt := asked_large (Nat.lt_of_not_le hle)
    omega

theorem getsWith_some_cons {rs : Bytes} (hrs : rs ≠ []) {n : Nat} (hn : 1 ≤ n) {f : Handle} (hrest : f.rest ≠ []) :
    getsWith rs (some n) false f = f.deliver ((upto rs f.rest).take (asked n)) := by
  have hpos := asked_pos hn
  have hne : upto rs (f.rest.take (asked n)) ≠ [] := by
    apply upto_ne_nil hrs
    rw [ne_eq, List.take_eq_nil_iff, not_or]
    exact ⟨by omega, hrest⟩
  rw [getsWith_some, if_neg hne, upto_take, deliver_cons _ hrest]

theorem deliver_inj {f : Handle} {line line' : Bytes} (hrest : f.rest ≠ []) :
    f.deliver line = f.deliver line' ↔ line = line' := by
  rw [deliver_cons _ hrest, deliver_cons _ hrest]
  constructor
  · intro h
    exact Option.some.inj (Prod.mk.inj h).1
  · rintro rfl
    rfl

/-- More than `n` bytes are asked for where `n` does not fit in a chunk. -/
theorem getsWith_limit_iff {rs : Bytes} (hrs : rs ≠ []) {n : Nat} (hn : 1 ≤ n) (f : Handle) :
    getsWith rs (some n) false f = f.deliver ((upto rs f.rest).take n) ↔
      n ≤ chunkSize ∨ (upto rs f.rest).length ≤ n := by
  by_cases hrest : f.rest = []
  · rw [getsWith_some, advance_nil _ hrest, deliver_nil _ hrest, hrest, List.take_nil, upto_empty, if_pos rfl]
    simp
  · rw [getsWith_some_cons hrs hn hrest, deliver_inj hrest]
    by_cases hle : n ≤ chunkSize
    · rw [asked_small hle]
      simp [hle]
    · have hlt := asked_large (Nat.lt_of_not_le hle)
      constructor
      · intro h
        have hlen := congrArg List.length h
        rw [List.length_take, List.length_take] at hlen
        omega
      · rintro (hchunk | hlen)
        · exact absurd hchunk hle
        · rw [List.take_of_length_le hlen, List.take_of_length_le (by omega)]

/-- The empty separator is found before the first byte. -/
theorem getsWith_empty_limit_iff {limit : Int} {line : Bytes} (f : Handle) :
    getsWith [] (some limit) false f = f.deliver line ↔ f.rest = [] := by
  rw [getsWith_some, if_pos upto_nil]
  constructor
  · intro h
    by_contra hrest
    rw [deliver_cons _ hrest] at h
    cases h
  · intro hrest
    rw [advance_nil _ hrest, deliver_nil _ hrest]

/-- The empty separator is found behind the first byte. -/
theorem getsWith_empty {f : Handle} (hrest : f.rest ≠ []) :
    getsWith [] none false f = f.deliver (f.rest.take 1) := by
  have hlen : (f.rest.take 1).length = 1 := by
    have hpos := List.length_pos_iff.mpr hrest
    rw [List.length_take]
    omega
  have hindex : indexFrom [] ([] ++ f.rest.take chunkSize) (0 + 1 - ([] : Bytes).length) = some 1 := by
    apply indexFrom_nil
    have hpos := List.length_pos_iff.mpr hrest
    rw [List.nil_append, List.length_take]
    unfold chunkSize
    omega
  have hread : readUntil [] 0 [] f = (f.rest.take 1, f.advance chunkSize) := by
    rw [readUntil_cons hrest, hindex]
    simp only [List.nil_append, List.take_take]
    rfl
  unfold getsWith
  simp only [hread]
  rw [if_neg (by omega), deliver_cons _ hrest]
  rfl

theorem getsWith_empty_iff (f : Handle) :
    getsWith [] none false f = f.deliver f.rest ↔ f.rest.length ≤ 1 := by
  by_cases hrest : f.rest = []
  · rw [deliver_nil _ hrest, getsWith]
    simp only [readUntil_nil hrest]
    rw [hrest]
    simp
  · rw [getsWith_empty hrest, deliver_inj hrest, List.take_eq_self_iff]

end Handle

theorem meets_ok_iff {f : Handle} {args : Args} {rs : Option Bytes} {limit : Option Nat}
    {r : Option Bytes × Handle} (h : f.gets args false = .ok r) :
    Meets f args rs limit ↔ r = f.deliver (cut rs limit f.rest) := by
  rw [meets_iff, h, Except.ok.injEq]

/-- **A limit is kept** exactly where it fits in a chunk or does not cut a line, and there is a separator. A
`gets(nil)` returns one byte, a `gets(nil, n)` nil. -/
theorem gets_limit_iff (f : Handle) {n : Nat} (hn : 1 ≤ n) :
    (∀ rs, Meets f (.both (some rs) n) (some rs) (some n) ↔
      f.rest = [] ∨ rs ≠ [] ∧ (n ≤ chunkSize ∨ (upto rs f.rest).length ≤ n)) ∧
    (Meets f (.integer n) (some [newline]) (some n) ↔ n ≤ chunkSize ∨ (upto [newline] f.rest).length ≤ n) ∧
    (Meets f (.both none n) none (some n) ↔ f.rest = []) ∧
    (Meets f (.separator none) none none ↔ f.rest.length ≤ 1) := by
  refine ⟨?_, ?_, ?_, ?_⟩
  · intro rs
    have hgets : f.gets (.both (some rs) n) false = .ok (f.getsWith rs (some n) false) := rfl
    rw [meets_ok_iff hgets]
    by_cases hrs : rs = []
    · rw [hrs, Handle.getsWith_empty_limit_iff]
      simp
    · have hiff := f.getsWith_limit_iff hrs hn
      have hcut : cut (some rs) (some n) f.rest = (upto rs f.rest).take n := rfl
      rw [hcut, hiff]
      constructor
      · intro h
        exact .inr ⟨hrs, h⟩
      · rintro (hrest | ⟨-, h⟩)
        · rw [hrest, upto_empty]
          exact .inr (Nat.zero_le _)
        · exact h
  · have hgets : f.gets (.integer n) false = .ok (f.getsWith [newline] (some n) false) := rfl
    rw [meets_ok_iff hgets]
    exact f.getsWith_limit_iff (by decide) hn
  · have hgets : f.gets (.both none n) false = .ok (f.getsWith [] (some n) false) := rfl
    rw [meets_ok_iff hgets, Handle.getsWith_empty_limit_iff]
  · have hgets : f.gets (.separator none) false = .ok (f.getsWith [] none false) := rfl
    rw [meets_ok_iff hgets]
    exact f.getsWith_empty_iff

/-- A limit of two bytes in the second line. -/
theorem gets_limit_two : 1 ≤ 2 ∧
    Meets ⟨[97, 10, 98, 99, 100], 2⟩ (.both (some [newline]) (2 : Nat)) (some [newline]) (some 2) := by
  refine ⟨by decide, ?_⟩
  have hiff := (gets_limit_iff ⟨[97, 10, 98, 99, 100], 2⟩ (by decide : 1 ≤ 2)).1 [newline]
  exact hiff.mpr (.inr ⟨by decide, .inl (by decide)⟩)

/-- Of a file with the byte `a`, `gets(nil, 1)` returns nil at the first byte; of one with 130 of them, `gets(128)`
returns 129. -/
theorem gets_limit_exceeded :
    Handle.gets (.both none 1) false ⟨[97], 0⟩ = .ok (none, ⟨[97], 1⟩) ∧
    ¬ Meets ⟨[97], 0⟩ (.both none 1) none (some 1) ∧
    Handle.gets (.integer 128) false ⟨List.replicate 130 97, 0⟩ =
      .ok (some (List.replicate 129 97), ⟨List.replicate 130 97, 129⟩) ∧
    ¬ Meets ⟨List.replicate 130 97, 0⟩ (.integer 128) (some [newline]) (some 128) := by
  have hnil : Handle.gets (.both none 1) false ⟨[97], 0⟩ = .ok (none, ⟨[97], 1⟩) := rfl
  have hlimit : Handle.gets (.integer 128) false ⟨List.replicate 130 97, 0⟩ =
      .ok (some (List.replicate 129 97), ⟨List.replicate 130 97, 129⟩) := by decide +kernel
  refine ⟨hnil, ?_, hlimit, ?_⟩
  · rw [meets_ok_iff hnil]
    decide
  · rw [meets_ok_iff hlimit]
    decide +kernel

end PicoRuby.Vfs
