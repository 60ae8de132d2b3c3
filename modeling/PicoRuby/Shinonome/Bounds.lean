import Mathlib.Data.List.GetD
import PicoRuby.Shinonome.Font

/-!
# Accesses of the glyph loop

A byte promises how many follow it, and the decoder goes on behind them without a look. Which texts are drawn
without an access outside of the text and the tables.
-/

namespace PicoRuby.Shinonome

open Shared

set_option autoImplicit false

variable {size : Size} {t : Unicode2jis} {font : Font size} {s rest q : Bytes} {c : Nat}

/-! ## Characters -/

/-- The bytes that are taken for one character, and the code that they stand for. -/
inductive Encoded : Bytes → Nat → Prop where
  | one {a : UInt8} (h : a < 0x80) : Encoded [a] a.toNat
  | two {a b : UInt8} (hone : ¬ a < 0x80) (h : a &&& 0xE0 = 0xC0) :
    Encoded [a, b] (a.toNat % 32 * 64 + b.toNat % 64)
  | three {a b c : UInt8} (hone : ¬ a < 0x80) (htwo : a &&& 0xE0 ≠ 0xC0) (h : a &&& 0xF0 = 0xE0) :
    Encoded [a, b, c] (a.toNat % 16 * 4096 + b.toNat % 64 * 64 + c.toNat % 64)
  | other {a : UInt8} (hone : ¬ a < 0x80) (htwo : a &&& 0xE0 ≠ 0xC0) (hthree : a &&& 0xF0 ≠ 0xE0) :
    Encoded [a] 0xFFFD

/-- A printing character of ASCII, or a character of JIS X 0208. -/
def HasGlyph (t : Unicode2jis) (c : Nat) : Prop :=
  (0x20 ≤ c ∧ c ≤ 0x7E) ∨ (0x80 ≤ c ∧ ∃ e ∈ t.entries, e.unicode = c)

/-- No character is cut off by the end of the text, and each has a glyph. -/
inductive Drawable (t : Unicode2jis) : Bytes → Prop where
  | nil : Drawable t []
  | cons {q rest : Bytes} {c : Nat} (h : Encoded q c) (hglyph : HasGlyph t c) (hrest : Drawable t rest) :
    Drawable t (q ++ rest)

/-- **Font lookup is in bounds**: the call draws the text or raises ArgumentError. -/
def InBounds (t : Unicode2jis) (font : Font size) (text : Bytes) (scale : Int) : Prop :=
  ∀ fault, arrayOfShinonome t font text scale ≠ .error (.fault fault)

/-! ## Decoding -/

theorem Encoded.ne_nil (h : Encoded q c) : q ≠ [] := by
  cases h <;> exact List.cons_ne_nil _ _

theorem mask_toNat (a : UInt8) {n : Nat} (hn : n < 8) : (a &&& UInt8.ofNat (2 ^ n - 1)).toNat = a.toNat % 2 ^ n := by
  have hle : 2 ^ n ≤ 2 ^ 7 := Nat.pow_le_pow_right (by decide) (by omega)
  have hlt : 2 ^ 7 < 2 ^ 8 := by decide
  rw [UInt8.toNat_and, UInt8.toNat_ofNat', Nat.mod_eq_of_lt (by omega), Nat.and_two_pow_sub_one_eq_mod]

theorem shiftLeft_or (i : Nat) {j n : Nat} (h : j < 2 ^ n) : (i <<< n) ||| j = i * 2 ^ n + j := by
  rw [← Nat.shiftLeft_add_eq_or_of_lt h, Nat.shiftLeft_eq]

theorem low_six (a : UInt8) : (a &&& 0x3F).toNat = a.toNat % 64 := mask_toNat a (n := 6) (by decide)

theorem two_eq (a b : UInt8) :
    ((a &&& 0x1F).toNat <<< 6) ||| (b &&& 0x3F).toNat = a.toNat % 32 * 64 + b.toNat % 64 := by
  have ha : (a &&& 0x1F).toNat = a.toNat % 32 := mask_toNat a (n := 5) (by decide)
  rw [low_six, ha]
  exact shiftLeft_or _ (n := 6) (by omega)

theorem three_eq (a b c : UInt8) :
    ((a &&& 0x0F).toNat <<< 12) ||| ((b &&& 0x3F).toNat <<< 6) ||| (c &&& 0x3F).toNat =
      a.toNat % 16 * 4096 + b.toNat % 64 * 64 + c.toNat % 64 := by
  have ha : (a &&& 0x0F).toNat = a.toNat % 16 := mask_toNat a (n := 4) (by decide)
  rw [low_six, low_six, ha, Nat.or_assoc, shiftLeft_or _ (n := 6) (by omega), shiftLeft_or _ (n := 12) (by omega)]
  omega

section Reads
variable (a : UInt8) (i n : Nat)

@[simp] theorem byteAt_zero : byteAt (a :: s) 0 = .ok a := rfl

@[simp] theorem byteAt_succ : byteAt (a :: s) (i + 1) = byteAt s i := by
  simp only [byteAt, List.getElem?_cons_succ, List.length_cons, Nat.add_right_cancel_iff]

@[simp] theorem byteAt_nul : byteAt [] 0 = .ok 0 := rfl

@[simp] theorem byteAt_behind : byteAt [] (i + 1) = .error (.fault .behindNul) := rfl

@[simp] theorem move_zero : move s 0 = .ok s := rfl

@[simp] theorem move_succ : move (a :: s) (n + 1) = move s n := by
  simp only [move, List.length_cons, Nat.add_le_add_iff_right, List.drop_succ_cons]

@[simp] theorem move_behind : move [] (n + 1) = .error (.fault .behindNul) := rfl

end Reads

theorem ok_bind {α β : Type} (a : α) (f : α → Except Stop β) : (Except.ok a >>= f) = f a := rfl

section Lead
variable {a : UInt8}

theorem decode_one (h : a < 0x80) : utf8ToUnicode (a :: s) = .ok (a.toNat, s) := by
  unfold utf8ToUnicode
  rw [byteAt_zero, ok_bind, if_pos h]
  rfl

theorem decode_two (hone : ¬ a < 0x80) (h : a &&& 0xE0 = 0xC0) :
    utf8ToUnicode (a :: s) =
      byteAt s 0 >>= fun b => move s 1 >>= fun rest => .ok (a.toNat % 32 * 64 + b.toNat % 64, rest) := by
  unfold utf8ToUnicode
  rw [byteAt_zero, ok_bind, if_neg hone, if_pos h]
  simp only [byteAt_succ, move_succ, two_eq]
  rfl

theorem decode_three (hone : ¬ a < 0x80) (htwo : a &&& 0xE0 ≠ 0xC0) (h : a &&& 0xF0 = 0xE0) :
    utf8ToUnicode (a :: s) =
      byteAt s 0 >>= fun b => byteAt s 1 >>= fun c => move s 2 >>= fun rest =>
        .ok (a.toNat % 16 * 4096 + b.toNat % 64 * 64 + c.toNat % 64, rest) := by
  unfold utf8ToUnicode
  rw [byteAt_zero, ok_bind, if_neg hone, if_neg htwo, if_pos h]
  simp only [byteAt_succ, move_succ, three_eq]
  rfl

theorem decode_other (hone : ¬ a < 0x80) (htwo : a &&& 0xE0 ≠ 0xC0) (hthree : a &&& 0xF0 ≠ 0xE0) :
    utf8ToUnicode (a :: s) = .ok (0xFFFD, s) := by
  unfold utf8ToUnicode
  rw [byteAt_zero, ok_bind, if_neg hone, if_neg htwo, if_neg hthree]
  rfl

end Lead

theorem decode_encoded (h : Encoded q c) (rest : Bytes) : utf8ToUnicode (q ++ rest) = .ok (c, rest) := by
  cases h with
  | one h => exact decode_one h
  | two hone h => exact decode_two hone h
  | three hone htwo h => exact decode_three hone htwo h
  | other hone htwo hthree => exact decode_other hone htwo hthree

/-- A text goes on with a character, or its end cuts one off. -/
theorem encoded_or_cut (hs : s ≠ []) :
    (∃ q c rest, Encoded q c ∧ s = q ++ rest) ∨ utf8ToUnicode s = .error (.fault .behindNul) := by
  obtain ⟨a, s, rfl⟩ := List.exists_cons_of_ne_nil hs
  by_cases hone : a < 0x80
  · exact .inl ⟨_, _, s, .one hone, rfl⟩
  by_cases htwo : a &&& 0xE0 = 0xC0
  · cases s with
    | nil => exact .inr (decode_two hone htwo)
    | cons b s => exact .inl ⟨_, _, s, .two (b := b) hone htwo, rfl⟩
  by_cases hthree : a &&& 0xF0 = 0xE0
  · match s with
    | [] => exact .inr (decode_three hone htwo hthree)
    | [b] => exact .inr (decode_three hone htwo hthree)
    | b :: c :: s => exact .inl ⟨_, _, s, .three (b := b) (c := c) hone htwo hthree, rfl⟩
  · exact .inl ⟨_, _, s, .other hone htwo hthree, rfl⟩

theorem Encoded.lt (h : Encoded q c) : c < 0x10000 := by
  cases h with
  | @one a h =>
    have hlt := a.toNat_lt
    omega
  | two => omega
  | three => omega
  | other => omega

/-! ## The search -/

/-- The entry behind the last one is like those that are not there. -/
theorem array_getD (i : Nat) : t.array.getD i ⟨0, 0⟩ = t.entries.getD i ⟨0, 0⟩ := by
  unfold Unicode2jis.array
  by_cases hi : i < t.entries.length
  · exact List.getD_append _ _ _ _ hi
  · rw [List.getD_append_right _ _ _ _ (by omega), List.getD_eq_default t.entries _ (by omega)]
    cases i - t.entries.length <;> rfl

theorem entries_lt {i j : Nat} (hj : j < t.entries.length) (hij : i < j) :
    t.entries[i].unicode < t.entries[j].unicode :=
  List.pairwise_iff_getElem.mp t.sorted i j (by omega) hj hij

theorem unicode_lt_iff {i j : Nat} (hi : i < t.entries.length) (hj : j < t.entries.length) :
    t.entries[i].unicode < t.entries[j].unicode ↔ i < j := by
  constructor
  · intro h
    rcases Nat.lt_trichotomy i j with hlt | rfl | hgt
    · exact hlt
    · exact absurd h (Nat.lt_irrefl _)
    · exact absurd h (Nat.lt_asymm (entries_lt hi hgt))
  · exact entries_lt hj

/-- A character that is in the table is found. The middle is never the entry behind the last one. -/
theorem search_entry {k : Nat} (hk : k < t.entries.length) {left right : Int} (hzero : 0 ≤ left) (hleft : left ≤ k)
    (hright : k ≤ right) (hend : right ≤ t.entries.length) :
    search t.array t.entries[k].unicode left right = t.entries[k].jis := by
  fun_induction search t.array t.entries[k].unicode left right with
  | case1 left right hle mid entry hfound =>
    have hmid : mid = (left + right) / 2 := rfl
    have hi : mid.toNat < t.entries.length := by omega
    have hentry : entry = t.entries[mid.toNat] := (array_getD _).trans (List.getD_eq_getElem _ _ hi)
    have hbelow := unicode_lt_iff hi hk
    have habove := unicode_lt_iff hk hi
    rw [hentry] at hfound ⊢
    have heq : mid.toNat = k := by omega
    simp only [heq]
  | case2 left right hle mid entry hne hlt ih =>
    have hmid : mid = (left + right) / 2 := rfl
    have hi : mid.toNat < t.entries.length := by omega
    have hentry : entry = t.entries[mid.toNat] := (array_getD _).trans (List.getD_eq_getElem _ _ hi)
    rw [hentry, unicode_lt_iff hi hk] at hlt
    exact ih (by omega) (by omega) hright hend
  | case3 left right hle mid entry hne hge ih =>
    have hmid : mid = (left + right) / 2 := rfl
    have hi : mid.toNat < t.entries.length := by omega
    have hentry : entry = t.entries[mid.toNat] := (array_getD _).trans (List.getD_eq_getElem _ _ hi)
    have habove := unicode_lt_iff hk hi
    rw [hentry] at hne hge
    exact ih hzero hleft (by omega) (by omega)
  | case4 => omega

/-- For any other character there is no code. -/
theorem search_none {unicode : Nat} (hnone : ∀ e ∈ t.entries, e.unicode ≠ unicode) (hpos : 0 < unicode)
    (left right : Int) : search t.array unicode left right = 0 := by
  fun_induction search t.array unicode left right with
  | case1 left right hle mid entry hfound =>
    exfalso
    have hentry : entry = t.entries.getD mid.toNat ⟨0, 0⟩ := array_getD _
    rw [hentry] at hfound
    by_cases hi : mid.toNat < t.entries.length
    · rw [List.getD_eq_getElem _ _ hi] at hfound
      exact hnone _ (List.getElem_mem hi) hfound
    · rw [List.getD_eq_default _ _ (by omega)] at hfound
      exact Nat.ne_of_lt hpos hfound
  | case2 left right hle mid entry hfound hlt ih => exact ih
  | case3 left right hle mid entry hfound hlt ih => exact ih
  | case4 => rfl

theorem unicodeToJis_entry {e : Entry} (he : e ∈ t.entries) :
    unicodeToJis t e.unicode = e.jis := by
  obtain ⟨k, hk, rfl⟩ := List.getElem_of_mem he
  have hlen : t.array.length = t.entries.length + 1 := List.length_append
  exact search_entry hk (Int.le_refl 0) (by omega) (by omega) (by omega)

/-! ## Lookup -/

section Access
variable {α : Type} (fault : Int → Fault) {index : Int}

theorem access_ok (table : List α) (d : α) (hpos : 0 ≤ index) (hlt : index < table.length) :
    table.getD index.toNat d ∈ table ∧ access fault table index = .ok (table.getD index.toNat d) := by
  have hi : index.toNat < table.length := by omega
  unfold access
  rw [if_neg (by omega), List.getElem?_eq_getElem hi, List.getD_eq_getElem _ _ hi]
  exact ⟨List.getElem_mem hi, rfl⟩

theorem access_fault {table : List α} (hout : index < 0 ∨ table.length ≤ index) :
    access fault table index = .error (.fault (fault index)) := by
  unfold access
  split
  · rfl
  · rw [List.getElem?_eq_none (by omega)]

variable {table : Bytes} {n : Nat}

theorem glyphData_ok (hpos : 0 ≤ index) (hle : index + n ≤ table.length) :
    ∃ data, glyphData fault table index n = .ok data := by
  refine ⟨_, mapM_ok (g := fun i : Nat => table.getD (index + i).toNat 0) fun i hi => ?_⟩
  have hlt := List.mem_range.mp hi
  exact (access_ok fault table 0 (by omega) (by omega)).2

theorem glyphData_fault (hn : 0 < n) (hout : index < 0 ∨ table.length ≤ index) :
    glyphData fault table index n = .error (.fault (fault index)) := by
  obtain ⟨n, rfl⟩ := Nat.exists_eq_succ_of_ne_zero (Nat.ne_of_gt hn)
  have hfirst : access fault table (index + (0 : Nat)) = .error (.fault (fault index)) := by
    rw [Int.natCast_zero, Int.add_zero]
    exact access_fault fault hout
  unfold glyphData
  rw [List.range_succ_eq_map, List.mapM_cons, hfirst]
  rfl

end Access

/-! ## Glyphs -/

theorem asciiBytes_pos (size : Size) : 0 < size.asciiBytes := by
  cases size <;> decide

/-- The index of a character in the table of ASCII. -/
def asciiIndex (size : Size) (c : Nat) : Int := ((c : Int) - 0x20) * size.asciiBytes % 2 ^ 32

theorem asciiIndex_eq (hlow : 0x20 ≤ c) (hhigh : c < 0x80) :
    asciiIndex size c = ((c : Int) - 0x20) * size.asciiBytes := by
  apply Int.emod_eq_of_lt
  all_goals cases size <;> simp only [Size.asciiBytes, Int.cast_ofNat_Int] <;> omega

/-- Below the first character the index wraps. -/
theorem asciiIndex_wrap (hhigh : c < 0x20) :
    asciiIndex size c = ((c : Int) - 0x20) * size.asciiBytes + 2 ^ 32 := by
  rw [asciiIndex, ← Int.add_emod_right]
  apply Int.emod_eq_of_lt
  all_goals cases size <;> simp only [Size.asciiBytes, Int.cast_ofNat_Int] <;> omega

theorem asciiIndex_in (font : Font size) (hlow : 0x20 ≤ c) (hhigh : c ≤ 0x7E) :
    0 ≤ asciiIndex size c ∧ asciiIndex size c + size.asciiBytes ≤ font.ascii.length := by
  rw [asciiIndex_eq hlow (by omega), font.ascii_length]
  cases size <;> simp only [Size.asciiBytes, Int.cast_ofNat_Int] <;> omega

theorem asciiIndex_out (font : Font size) (hlt : c < 0x80) (hout : ¬ (0x20 ≤ c ∧ c ≤ 0x7E)) :
    font.ascii.length ≤ asciiIndex size c := by
  rw [font.ascii_length]
  by_cases hlow : c < 0x20
  · rw [asciiIndex_wrap hlow]
    cases size <;> simp only [Size.asciiBytes, Int.cast_ofNat_Int] <;> omega
  · rw [asciiIndex_eq (by omega) hlt]
    cases size <;> simp only [Size.asciiBytes, Int.cast_ofNat_Int] <;> omega

theorem sub_ascii (hdecode : utf8ToUnicode s = .ok (c, rest)) (hlt : c < 0x80) :
    arrayOfShinonomeSub t font s =
      glyphData .ascii font.ascii (asciiIndex size c) size.asciiBytes >>= fun data =>
        .ok (some ⟨size.dots / 2, asciiRows data size⟩, rest) := by
  unfold arrayOfShinonomeSub
  rw [hdecode, ok_bind]
  dsimp only
  rw [if_pos hlt]
  rfl

theorem cell_in {j : Nat} {table : Bytes} (hlow : 0x21 ≤ j) (hhigh : j ≤ 0x7E)
    (hlen : table.length = 94 * size.jisBytes) :
    0 ≤ ((j : Int) - 0x21) * size.jisBytes ∧
      ((j : Int) - 0x21) * size.jisBytes + size.jisBytes ≤ table.length := by
  rw [hlen]
  cases size <;> simp only [Size.jisBytes, Int.cast_ofNat_Int] <;> omega

theorem sub_jis (hdecode : utf8ToUnicode s = .ok (c, rest)) (hlow : 0x80 ≤ c) (hlt : c < 0x10000) :
    arrayOfShinonomeSub t font s =
      access .row font.jis208 ((unicodeToJis t c / 256 % 256 : Nat) - 0x21) >>= fun table =>
        glyphData .cell table (((unicodeToJis t c % 256 : Nat) - 0x21) * size.jisBytes) size.jisBytes >>= fun data =>
          .ok (some ⟨size.dots, jisRows data size⟩, rest) := by
  have hbyte : unicodeToJis t c &&& 0xFF = unicodeToJis t c % 256 := Nat.and_two_pow_sub_one_eq_mod _ 8
  unfold arrayOfShinonomeSub
  rw [hdecode, ok_bind]
  dsimp only
  rw [if_neg (by omega), if_pos hlt, hbyte, Nat.shiftRight_eq_div_pow]
  rfl

theorem sub_drawn (font : Font size) (hdecode : utf8ToUnicode s = .ok (c, rest)) (hlt : c < 0x10000) (hglyph : HasGlyph t c) :
    ∃ g, arrayOfShinonomeSub t font s = .ok (some g, rest) := by
  rcases hglyph with ⟨hlow, hhigh⟩ | ⟨hlow, e, he, rfl⟩
  · obtain ⟨hpos, hle⟩ := asciiIndex_in font hlow hhigh
    obtain ⟨data, hdata⟩ := glyphData_ok .ascii hpos hle
    rw [sub_ascii hdecode (by omega), hdata]
    exact ⟨_, rfl⟩
  · obtain ⟨hrow, hcell⟩ := t.placed e he
    have hrows := font.jis208_length
    have hfirst : 0 ≤ ((e.jis / 256 % 256 : Nat) : Int) - 0x21 := by omega
    obtain ⟨hmem, htable⟩ := access_ok .row font.jis208 [] hfirst (by omega)
    obtain ⟨hpos, hle⟩ := cell_in hcell.1 hcell.2 (font.row_length _ hmem)
    obtain ⟨data, hdata⟩ := glyphData_ok .cell hpos hle
    rw [sub_jis hdecode hlow hlt, unicodeToJis_entry he, htable, ok_bind, hdata]
    exact ⟨_, rfl⟩

theorem sub_fault (font : Font size) (hdecode : utf8ToUnicode s = .ok (c, rest)) (hlt : c < 0x10000) (hglyph : ¬ HasGlyph t c) :
    ∃ fault, arrayOfShinonomeSub t font s = .error (.fault fault) := by
  unfold HasGlyph at hglyph
  rw [not_or] at hglyph
  by_cases hlow : c < 0x80
  · have hout := asciiIndex_out font hlow hglyph.1
    rw [sub_ascii hdecode hlow, glyphData_fault _ (asciiBytes_pos size) (.inr hout)]
    exact ⟨_, rfl⟩
  · have hnone : ∀ e ∈ t.entries, e.unicode ≠ c := fun e he heq => hglyph.2 ⟨by omega, e, he, heq⟩
    have hzero : unicodeToJis t c = 0 := search_none hnone (by omega) _ _
    rw [sub_jis hdecode (by omega) hlt, hzero, access_fault _ (.inl (by decide))]
    exact ⟨_, rfl⟩

/-! ## The loop -/

theorem glyphLoop_nil (scale : Nat) (r : Result) : glyphLoop t font scale [] r = .ok r := by
  rw [glyphLoop, if_pos rfl]

theorem glyphLoop_error {e : Stop} (scale : Nat) (r : Result) (hs : s ≠ []) (h : arrayOfShinonomeSub t font s = .error e) :
    glyphLoop t font scale s r = .error e := by
  rw [glyphLoop, if_neg hs]
  split
  · rename_i heq
    rw [heq] at h
    exact congrArg Except.error (Except.error.inj h)
  all_goals
    rename_i heq
    rw [heq] at h
    cases h

theorem glyphLoop_some {g : Glyph} (scale : Nat) (r : Result) (hs : s ≠ [])
    (h : arrayOfShinonomeSub t font s = .ok (some g, rest)) :
    glyphLoop t font scale s r = glyphLoop t font scale rest (r.push size.dots scale g) := by
  rw [glyphLoop, if_neg hs]
  split
  all_goals
    rename_i heq
    rw [heq] at h
    cases h
  rfl

/-- Whether a text is drawable is decided by its first character. -/
theorem drawable_append (h : Encoded q c) : Drawable t (q ++ rest) ↔ HasGlyph t c ∧ Drawable t rest := by
  constructor
  · intro hdrawable
    generalize hs : q ++ rest = s at hdrawable
    cases hdrawable with
    | nil => exact absurd (List.append_eq_nil_iff.mp hs).1 h.ne_nil
    | cons h' hglyph hrest =>
      have hdecode := decode_encoded h rest
      rw [hs, decode_encoded h'] at hdecode
      cases hdecode
      exact ⟨hglyph, hrest⟩
  · rintro ⟨hglyph, hrest⟩
    exact .cons h hglyph hrest

theorem not_drawable_of_cut (hs : s ≠ []) (h : utf8ToUnicode s = .error (.fault .behindNul)) : ¬ Drawable t s := by
  intro hdrawable
  cases hdrawable with
  | nil => exact hs rfl
  | cons h' hglyph hrest =>
    rw [decode_encoded h'] at h
    cases h

theorem glyphLoop_faults_iff (scale : Nat) (s : Bytes) (r : Result) :
    (∀ fault, glyphLoop t font scale s r ≠ .error (.fault fault)) ↔ Drawable t s := by
  generalize hlen : s.length = len
  induction len using Nat.strongRecOn generalizing s r with
  | ind len ih =>
    by_cases hs : s = []
    · subst hs
      rw [glyphLoop_nil]
      exact ⟨fun _ => .nil, nofun⟩
    rcases encoded_or_cut hs with ⟨q, c, rest, hencoded, rfl⟩ | hcut
    · have hdecode := decode_encoded hencoded rest
      rw [drawable_append hencoded]
      by_cases hglyph : HasGlyph t c
      · obtain ⟨g, hsub⟩ := sub_drawn font hdecode hencoded.lt hglyph
        have hshorter := arrayOfShinonomeSub_length t font hsub
        rw [glyphLoop_some scale r hs hsub, ih rest.length (by omega) rest _ rfl]
        exact (and_iff_right hglyph).symm
      · obtain ⟨fault, hsub⟩ := sub_fault font hdecode hencoded.lt hglyph
        rw [glyphLoop_error scale r hs hsub]
        exact ⟨fun h => absurd rfl (h fault), fun h => absurd h.1 hglyph⟩
    · have hsub : arrayOfShinonomeSub t font s = .error (.fault .behindNul) := by
        unfold arrayOfShinonomeSub
        rw [hcut]
        rfl
      rw [glyphLoop_error scale r hs hsub]
      exact ⟨fun h => absurd rfl (h _), fun h => absurd h (not_drawable_of_cut hs hcut)⟩

theorem inBounds_drawable {text : Bytes} {scale : Int} (hnul : 0 ∉ text) (hscale : ¬ (scale < 1 ∨ 4 < scale)) :
    InBounds t font text scale ↔ Drawable t text := by
  unfold InBounds arrayOfShinonome
  rw [if_neg hnul, if_neg hscale]
  exact glyphLoop_faults_iff _ _ _

/-- **Font lookup in bounds.** A call keeps to the text and the tables just if it refuses its arguments, or if no
character of the text is cut off and each has a glyph. -/
theorem inBounds_iff (text : Bytes) (scale : Int) :
    InBounds t font text scale ↔ 0 ∈ text ∨ (scale < 1 ∨ 4 < scale) ∨ Drawable t text := by
  by_cases hnul : 0 ∈ text
  · refine ⟨fun _ => .inl hnul, fun _ fault => ?_⟩
    unfold arrayOfShinonome
    rw [if_pos hnul]
    nofun
  by_cases hscale : scale < 1 ∨ 4 < scale
  · refine ⟨fun _ => .inr (.inl hscale), fun _ fault => ?_⟩
    unfold arrayOfShinonome
    rw [if_neg hnul, if_pos hscale]
    nofun
  · rw [inBounds_drawable hnul hscale, or_iff_right hnul, or_iff_right hscale]

/-- A newline, a character that is cut off, and one that is not in JIS X 0208. -/
theorem lookups_astray :
    ¬ InBounds hiraganaA (blankFont .dots12) [0x0A] 1 ∧ ¬ InBounds hiraganaA (blankFont .dots12) [0xE3, 0x81] 1 ∧
      ¬ InBounds hiraganaA (blankFont .dots12) [0xC3, 0xBF] 1 := by
  refine ⟨fun h => ?_, fun h => ?_, fun h => ?_⟩
  · rw [inBounds_drawable (by decide) (by decide)] at h
    have hglyph := ((drawable_append (.one (by decide))).mp h).1
    simp [HasGlyph] at hglyph
  · rw [inBounds_drawable (by decide) (by decide)] at h
    exact not_drawable_of_cut (by decide) rfl h
  · rw [inBounds_drawable (by decide) (by decide)] at h
    have hglyph := ((drawable_append (.two (by decide) (by decide))).mp h).1
    simp [HasGlyph, hiraganaA] at hglyph

end PicoRuby.Shinonome
