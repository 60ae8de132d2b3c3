import PicoRuby.PosixIo.Stream

/-!
# The buffer is not seen

Whatever the reads of the system are given, the methods return what they would return on the file itself. Two
things have to be in order for this: what is put back has to fit, and a separator has to be one byte, or it may
lie across two reads.
-/

namespace PicoRuby.PosixIo

open Shared

set_option autoImplicit false

/-! ## Bytes in the buffer -/

theorem short_of_small {n : Int} (hlow : 0 ≤ n) (hhigh : n ≤ shrtMax) : short n = n := by
  unfold short shrtMax at *
  rw [Int.bmod_def]
  omega

/-- The buffer has these bytes. -/
structure IoBuf.Holds (b : IoBuf) (bytes : Bytes) : Prop where
  start : 0 ≤ b.start
  len : b.len = bytes.length
  inside : b.start + bytes.length ≤ b.mem.length
  bytes : (b.mem.drop b.start.toNat).take bytes.length = bytes
  small : b.mem.length ≤ shrtMax

namespace IoBuf.Holds
variable {b : IoBuf} {bytes : Bytes} {n : Nat}

theorem slice (h : b.Holds bytes) (hn : n ≤ bytes.length) : b.slice n = some (bytes.take n) := by
  have hstart := h.start
  have hinside := h.inside
  unfold IoBuf.slice
  rw [if_pos ⟨hstart, Int.natCast_nonneg n, by omega⟩, Int.toNat_natCast]
  congr 1
  conv => rhs; rw [← h.bytes]
  rw [List.take_take, Nat.min_eq_left hn]

theorem slice_all (h : b.Holds bytes) : b.slice b.len = some bytes := by
  rw [h.len, h.slice (Nat.le_refl _), List.take_length]

theorem shift (h : b.Holds bytes) (hn : n ≤ bytes.length) : (b.shift n).Holds (bytes.drop n) := by
  have hstart := h.start
  have hinside := h.inside
  have hsmall := h.small
  have hlen := h.len
  have hn' : short n = n := short_of_small (Int.natCast_nonneg n) (by omega)
  have hstart' : short (b.start + short n) = b.start + n := by
    rw [hn']
    exact short_of_small (by omega) (by omega)
  have hlen' : short (b.len - short n) = bytes.length - n := by
    rw [hn', hlen]
    exact short_of_small (by omega) (by omega)
  have hdrop : (b.start + n).toNat = b.start.toNat + n := by omega
  have hsub : ((bytes.drop n).length : Int) = bytes.length - n := by
    rw [List.length_drop]
    omega
  constructor
  · change 0 ≤ short (b.start + short n)
    omega
  · change short (b.len - short n) = _
    rw [hlen', hsub]
  · change short (b.start + short n) + _ ≤ (b.mem.length : Int)
    rw [hsub, hstart']
    omega
  · change (b.mem.drop (short (b.start + short n)).toNat).take (bytes.drop n).length = bytes.drop n
    conv => rhs; rw [← h.bytes]
    rw [hstart', hdrop, List.length_drop, List.drop_take, List.drop_drop]
  · exact hsmall

theorem reset (h : b.Holds bytes) : b.reset.Holds [] where
  start := Int.le_refl _
  len := rfl
  inside := by
    change (0 : Int) + 0 ≤ (b.mem.length : Int)
    omega
  bytes := rfl
  small := h.small

end IoBuf.Holds

/-- Put back, the bytes stay within a `short`, and the buffer is not made smaller than what is in it. -/
def IoBuf.Fits (b : IoBuf) (str : Bytes) : Prop :=
  b.len + str.length ≤ shrtMax ∧ (b.len + str.length ≤ ioBufSize ∨ b.start ≤ str.length)

instance (b : IoBuf) (str : Bytes) : Decidable (b.Fits str) := inferInstanceAs (Decidable (_ ∧ _))

namespace Io
variable {io : Io} {bytes str : Bytes}

theorem grown_length (h : io.buf.Holds bytes) : (grown io.buf str.length).length =
    if ioBufSize < bytes.length + str.length then bytes.length + str.length else io.buf.mem.length := by
  have hlen := h.len
  unfold grown
  by_cases hlt : (ioBufSize : Int) - io.buf.len < str.length
  · rw [if_pos hlt, if_pos (by omega), realloc_length]
    omega
  · rw [if_neg hlt, if_neg (by omega)]

/-- What is in the buffer is in the grown one, as far as that reaches. -/
theorem grown_slice (h : io.buf.Holds bytes)
    (hinside : io.buf.start + bytes.length ≤ (grown io.buf str.length).length) :
    ((grown io.buf str.length).drop io.buf.start.toNat).take bytes.length = bytes := by
  have hstart := h.start
  have hold := h.inside
  unfold grown at hinside ⊢
  split
  · rename_i hlt
    rw [if_pos hlt, realloc_length] at hinside
    have hle : (io.buf.len + str.length).toNat = io.buf.start.toNat + bytes.length +
        ((io.buf.len + str.length).toNat - (io.buf.start.toNat + bytes.length)) := by omega
    rw [realloc, List.drop_append_of_le_length (by rw [List.length_take]; omega),
      List.take_append_of_le_length (by rw [List.length_drop, List.length_take]; omega), hle, List.drop_take,
      List.take_take]
    conv => rhs; rw [← h.bytes]
    congr 1
    omega
  · exact h.bytes

theorem short_le (n : Int) : short n ≤ shrtMax := by
  unfold short shrtMax
  rw [Int.bmod_def]
  split <;> omega

/-- `ungetc` puts a String back exactly if it fits. -/
theorem ungetc_iff (h : io.buf.Holds bytes) (hstr : str.length ≤ shrtMax) :
    (∃ io', io.ungetc str = some (.ok io') ∧ io'.buf.Holds (str ++ bytes)) ↔ io.buf.Fits str := by
  have hstart := h.start
  have hlen := h.len
  have hinside := h.inside
  have hroom := io.buf.room
  have hsmall := h.small
  have hgrown : (grown io.buf str.length).length = _ := grown_length h
  unfold ungetc
  rw [if_neg (by omega)]
  dsimp only
  constructor
  · rintro ⟨io', heq, hholds⟩
    split at heq
    · rename_i hbounds
      cases heq
      have hshort : short (io.buf.len + str.length) = ((str ++ bytes).length : Int) := hholds.len
      have hle := short_le (io.buf.len + str.length)
      rw [hshort, List.length_append] at hle
      refine ⟨by omega, ?_⟩
      by_cases hlt : ioBufSize < bytes.length + str.length
      · rw [if_pos hlt] at hgrown
        exact Or.inr (by omega)
      · exact Or.inl (by omega)
    · cases heq
  · rintro ⟨hfits, hplace⟩
    have hbounds : 0 ≤ io.buf.start ∧ 0 ≤ io.buf.len ∧
        io.buf.start + io.buf.len ≤ (grown io.buf str.length).length ∧
        str.length + io.buf.len ≤ (grown io.buf str.length).length := by
      split at hgrown
      · exact ⟨hstart, by omega, by omega, by omega⟩
      · exact ⟨hstart, by omega, by omega, by omega⟩
    have hkept : ((grown io.buf str.length).drop io.buf.start.toNat).take io.buf.len.toNat = bytes := by
      rw [hlen, Int.toNat_natCast]
      exact grown_slice h (by omega)
    rw [dif_pos hbounds]
    refine ⟨_, rfl, ?_⟩
    constructor
    · exact Int.le_refl _
    · change short (io.buf.len + str.length) = ((str ++ bytes).length : Int)
      rw [short_of_small (by omega) (by omega), List.length_append]
      omega
    · change (0 : Int) + ((str ++ bytes).length : Int) ≤ ((str ++ _ ++ _ : Bytes).length : Int)
      rw [hkept, @List.length_append _ (str ++ bytes)]
      omega
    · change ((str ++ _ ++ _ : Bytes).drop 0).take (str ++ bytes).length = str ++ bytes
      rw [hkept, List.drop_zero, List.take_left]
    · change (str ++ _ ++ _ : Bytes).length ≤ shrtMax
      rw [hkept, List.length_append, List.length_append, List.length_drop]
      split at hgrown <;> omega

end Io

/-! ## The file behind the buffer -/

namespace Stream
variable {s : Stream} {m n : Nat}

@[simp] theorem advance_zero (s : Stream) : s.advance 0 = s := by
  rw [advance, Nat.zero_sub, Nat.add_zero, List.drop_zero]

theorem advance_advance (s : Stream) (m n : Nat) : (s.advance m).advance n = s.advance (m + n) := by
  simp only [advance, List.drop_drop, List.length_drop, Nat.add_assoc]
  congr 2
  omega

theorem advance_rest (s : Stream) (n : Nat) : (s.advance n).rest = s.rest.drop n := by
  simp only [rest, advance, List.drop_append, List.drop_drop]

@[simp] theorem advance_content (s : Stream) (n : Nat) : (s.advance n).content = s.content := rfl

@[simp] theorem advance_eof (s : Stream) (n : Nat) : (s.advance n).eof = s.eof := rfl

theorem finish_of_rest (h : s.rest = []) : s.finish = { s with eof := true } := by
  rw [finish, h, List.length_nil, advance_zero]

theorem finish_advance (h : m ≤ s.rest.length) : (s.advance m).finish = s.finish := by
  rw [finish, advance_rest, List.length_drop, advance_advance, Nat.add_sub_cancel' h, finish]

theorem after_advance (h : m ≤ s.rest.length) (hn : m ≤ n) : (s.advance m).after (n - m) = s.after n := by
  unfold after
  rw [advance_rest, List.length_drop]
  by_cases hlt : s.rest.length < n
  · rw [if_pos (by omega), if_pos hlt, finish_advance h]
  · rw [if_neg (by omega), if_neg hlt, advance_advance, Nat.add_sub_cancel' hn]

end Stream

/-- The buffer has what has been put back, and the bytes of the file that have been read ahead. -/
structure Refines (io : Io) (s : Stream) : Prop where
  content : io.fd.content = s.content
  eof : io.eof = s.eof
  buffered : ∃ ahead, ahead ≤ s.content.length - s.place ∧ io.fd.offset = s.place + ahead ∧
    io.buf.Holds (s.pushed ++ (s.content.drop s.place).take ahead)

theorem Io.read_some {io : Io} {length : Nat} (h : 0 < length) (outbuf : Bytes) :
    io.read (some length) outbuf = readLoop io.rounds io length outbuf := by
  cases length with
  | zero => cases h
  | succ length => rfl

theorem Stream.read_some {s : Stream} {length : Nat} (h : 0 < length) (outbuf : Bytes) : s.read (some length) outbuf =
    if s.eof then (orNil outbuf, s) else (orNil (outbuf ++ s.rest.take length), s.after length) := by
  cases length with
  | zero => cases h
  | succ length => rfl

/-- What a read gives. -/
def Descriptor.got (fd : Descriptor) (n : Nat) : Bytes :=
  (fd.content.drop fd.offset).take (min n (fd.given fd.reads + 1))

/-- A separator of one byte, or none. -/
def OneByte (rs : Option Bytes) : Prop := ∀ p, rs = some p → p.length = 1

namespace Refines
variable {io : Io} {s : Stream} {bytes outbuf : Bytes} {n : Nat}

/-- The buffer holds a beginning of what is still to be read. -/
theorem holds (h : Refines io s) : ∃ bytes, io.buf.Holds bytes ∧ bytes <+: s.rest := by
  obtain ⟨ahead, -, -, hholds⟩ := h.buffered
  exact ⟨_, hholds, (List.prefix_append_right_inj _).mpr (List.take_prefix _ _)⟩

theorem rest_length (h : Refines io s) : s.rest.length < io.rounds := by
  obtain ⟨ahead, hahead, -, hholds⟩ := h.buffered
  have hlen := hholds.len
  have hcontent := congrArg List.length h.content
  rw [List.length_append, List.length_take, List.length_drop] at hlen
  unfold Stream.rest Io.rounds
  rw [List.length_append, List.length_drop]
  omega

/-- Bytes that leave the buffer leave the file. -/
theorem advance (h : Refines io s) (hholds : io.buf.Holds bytes) (hn : n ≤ bytes.length) {buf : IoBuf}
    (hbuf : buf.Holds (bytes.drop n)) : Refines { io with buf } (s.advance n) := by
  obtain ⟨ahead, hahead, hoffset, hholds'⟩ := h.buffered
  have hbytes : bytes = s.pushed ++ (s.content.drop s.place).take ahead := by
    have hlen : bytes.length = (s.pushed ++ (s.content.drop s.place).take ahead).length := by
      have hlen := hholds.len
      have hlen' := hholds'.len
      omega
    rw [← hholds.bytes, hlen, hholds'.bytes]
  have hlen : bytes.length = s.pushed.length + ahead := by
    rw [hbytes, List.length_append, List.length_take, List.length_drop]
    omega
  refine ⟨h.content, h.eof, ahead - (n - s.pushed.length), ?_, ?_, ?_⟩
  · change _ ≤ s.content.length - (s.place + (n - s.pushed.length))
    omega
  · change io.fd.offset = s.place + (n - s.pushed.length) + (ahead - (n - s.pushed.length))
    omega
  · change buf.Holds (s.pushed.drop n ++
      (s.content.drop (s.place + (n - s.pushed.length))).take (ahead - (n - s.pushed.length)))
    rw [hbytes, List.drop_append, List.drop_take, List.drop_drop] at hbuf
    exact hbuf

theorem bufCat (h : Refines io s) (hholds : io.buf.Holds bytes) (hn : n ≤ bytes.length) (outbuf : Bytes) :
    ∃ io', io.bufCat outbuf n = some (outbuf ++ bytes.take n, io') ∧ Refines io' (s.advance n) := by
  unfold Io.bufCat
  rw [hholds.slice hn]
  exact ⟨_, rfl, h.advance hholds hn (hholds.shift hn)⟩

theorem bufCatAll (h : Refines io s) (hholds : io.buf.Holds bytes) (outbuf : Bytes) :
    ∃ io', io.bufCatAll outbuf = some (outbuf ++ bytes, io') ∧ Refines io' (s.advance bytes.length) := by
  unfold Io.bufCatAll
  rw [hholds.slice_all]
  refine ⟨_, rfl, h.advance hholds (Nat.le_refl _) ?_⟩
  rw [List.drop_length]
  exact hholds.reset

/-- A filled buffer has bytes of what is still to be read, or the end has been seen. -/
theorem fillBuf (h : Refines io s) :
    s.rest = [] ∧ Refines io.fillBuf s.finish ∨
      s.rest ≠ [] ∧ Refines io.fillBuf s ∧ ∃ bytes, bytes ≠ [] ∧ bytes <+: s.rest ∧ io.fillBuf.buf.Holds bytes := by
  obtain ⟨ahead, hahead, hoffset, hholds⟩ := h.buffered
  have hlen := hholds.len
  unfold Io.fillBuf
  by_cases hpos : 0 < io.buf.len
  · rw [if_pos hpos]
    have hne : s.pushed ++ (s.content.drop s.place).take ahead ≠ [] := by
      intro hnil
      rw [hnil, List.length_nil] at hlen
      omega
    have hpre : s.pushed ++ (s.content.drop s.place).take ahead <+: s.rest :=
      (List.prefix_append_right_inj _).mpr (List.take_prefix _ _)
    refine Or.inr ⟨?_, h, _, hne, hpre, hholds⟩
    intro hnil
    rw [hnil] at hpre
    exact hne (List.prefix_nil.mp hpre)
  · rw [if_neg hpos]
    rw [List.length_append, List.length_take, List.length_drop] at hlen
    have hpushed : s.pushed = [] := List.eq_nil_of_length_eq_zero (by omega)
    have hahead' : ahead = 0 := by omega
    have hrest : s.rest = s.content.drop s.place := by rw [Stream.rest, hpushed, List.nil_append]
    rw [hahead', Nat.add_zero] at hoffset
    have hread : io.fd.read ioBufSize = (io.fd.got ioBufSize, { io.fd with
        offset := io.fd.offset + (io.fd.got ioBufSize).length, reads := io.fd.reads + 1 }) := rfl
    have hpre : io.fd.got ioBufSize <+: s.rest := by
      rw [hrest, Descriptor.got, h.content, hoffset]
      exact List.take_prefix _ _
    have hnil : io.fd.got ioBufSize = [] ↔ s.rest = [] := by
      rw [hrest, Descriptor.got, h.content, hoffset, List.take_eq_nil_iff]
      exact or_iff_right (by rw [ioBufSize]; omega)
    have hsize : (io.fd.got ioBufSize).length ≤ io.buf.mem.length := by
      have hroom := io.buf.room
      rw [Descriptor.got, List.length_take]
      omega
    rw [hread]
    generalize io.fd.got ioBufSize = got at hpre hnil hsize
    have hsmall := hholds.small
    have hholds' : (IoBuf.mk 0 (short got.length) (got ++ io.buf.mem.drop got.length)
        (Io.filled_room io.buf got)).Holds got := by
      constructor
      · exact Int.le_refl _
      · dsimp only
        exact short_of_small (Int.natCast_nonneg _) (by omega)
      · change (0 : Int) + got.length ≤ ((got ++ io.buf.mem.drop got.length).length : Int)
        rw [List.length_append]
        omega
      · exact List.take_left
      · change (got ++ io.buf.mem.drop got.length).length ≤ shrtMax
        rw [List.length_append, List.length_drop]
        omega
    by_cases hend : s.rest = []
    · rw [hnil.mpr hend] at hholds' ⊢
      rw [Stream.finish_of_rest hend]
      refine Or.inl ⟨hend, h.content, ?_, 0, Nat.zero_le _, ?_, ?_⟩
      · exact Bool.or_true _
      · exact hoffset
      · rw [List.take_zero, List.append_nil]
        change IoBuf.Holds _ s.pushed
        rw [hpushed]
        exact hholds'
    · refine Or.inr ⟨hend, ⟨h.content, ?_, got.length, ?_, ?_, ?_⟩, got, ?_, hpre, hholds'⟩
      · rw [← h.eof]
        exact (congrArg (io.eof || ·) (List.isEmpty_eq_false_iff.mpr (mt hnil.mp hend))).trans (Bool.or_false _)
      · have hle := hpre.length_le
        rw [hrest, List.length_drop] at hle
        exact hle
      · exact congrArg (· + got.length) hoffset
      · rw [hpushed, List.nil_append, ← hrest, ← List.prefix_iff_eq_take.mp hpre]
        exact hholds'
      · exact mt hnil.mp hend

/-! ## Methods -/

/-- Once the end has been seen, nothing more is read. -/
theorem fillBuf_of_eof (h : Refines io s) (heof : s.eof = true) : io.fillBuf.eof = true ∧ Refines io.fillBuf s := by
  rcases h.fillBuf with ⟨hrest, hfill⟩ | ⟨-, hfill, -⟩
  · rw [Stream.finish_of_rest hrest, ← heof] at hfill
    exact ⟨hfill.eof.trans heof, hfill⟩
  · exact ⟨hfill.eof.trans heof, hfill⟩

theorem fillBuf_of_end (h : Refines io s) (hrest : s.rest = []) :
    io.fillBuf.eof = true ∧ Refines io.fillBuf s.finish := by
  rcases h.fillBuf with ⟨-, hfill⟩ | ⟨hne, -⟩
  · exact ⟨hfill.eof, hfill⟩
  · exact absurd hrest hne

theorem fillBuf_of_more (h : Refines io s) (heof : s.eof = false) (hrest : s.rest ≠ []) :
    io.fillBuf.eof = false ∧ Refines io.fillBuf s ∧
      ∃ bytes, bytes ≠ [] ∧ bytes <+: s.rest ∧ io.fillBuf.buf.Holds bytes := by
  rcases h.fillBuf with ⟨hnil, -⟩ | ⟨-, hfill, hbytes⟩
  · exact absurd hnil hrest
  · exact ⟨hfill.eof.trans heof, hfill, hbytes⟩

theorem step_getbyte (h : Refines io s) :
    ∃ io', io.step .getbyte = some ((s.step .getbyte).1, io') ∧ Refines io' (s.step .getbyte).2 := by
  unfold Io.step Io.getbyte Stream.step Stream.getbyte
  dsimp only
  cases heof : s.eof with
  | true =>
    obtain ⟨hend, hfill⟩ := h.fillBuf_of_eof heof
    rw [if_pos rfl, if_pos hend]
    exact ⟨_, rfl, hfill⟩
  | false =>
    rw [if_neg Bool.false_ne_true]
    cases hrest : s.rest with
    | nil =>
      obtain ⟨hend, hfill⟩ := h.fillBuf_of_end hrest
      rw [if_pos hend]
      exact ⟨_, rfl, hfill⟩
    | cons c more =>
      obtain ⟨hend, hfill, bytes, hne, hpre, hholds⟩ := h.fillBuf_of_more heof (by rw [hrest]; exact List.cons_ne_nil _ _)
      obtain ⟨b, bytes, rfl⟩ := List.exists_cons_of_ne_nil hne
      rw [hrest, List.cons_prefix_cons] at hpre
      have hslice : io.fillBuf.buf.slice 1 = some [b] := hholds.slice (n := 1) (by simp)
      rw [if_neg (by rw [hend]; exact Bool.false_ne_true), hslice, hpre.1]
      exact ⟨_, rfl, hfill.advance hholds (by simp) (hholds.shift (n := 1) (by simp))⟩

/-! ## Loops -/

theorem readAll (h : Refines io s) (heof : s.eof = false) {rounds : Nat} (hrounds : s.rest.length < rounds)
    (outbuf : Bytes) :
    ∃ io', Io.readAll rounds io outbuf = some (outbuf ++ s.rest, io') ∧ Refines io' s.finish := by
  induction rounds generalizing io s outbuf with
  | zero => omega
  | succ rounds ih =>
    unfold Io.readAll
    by_cases hrest : s.rest = []
    · obtain ⟨hend, hfill⟩ := h.fillBuf_of_end hrest
      rw [hrest, List.append_nil]
      refine ⟨_, ?_, hfill⟩
      exact if_pos hend
    · obtain ⟨hend, hfill, bytes, hne, hpre, hholds⟩ := h.fillBuf_of_more heof hrest
      obtain ⟨io₁, hcat, hnext⟩ := hfill.bufCatAll hholds outbuf
      have hle := hpre.length_le
      have hpos := List.length_pos_iff.mpr hne
      have hrest₁ : (s.advance bytes.length).rest.length < rounds := by
        rw [Stream.advance_rest, List.length_drop]
        omega
      obtain ⟨io₂, hloop, hlast⟩ := ih hnext heof hrest₁ (outbuf ++ bytes)
      rw [Stream.finish_advance hle] at hlast
      refine ⟨io₂, ?_, hlast⟩
      have hall : outbuf ++ bytes ++ (s.advance bytes.length).rest = outbuf ++ s.rest := by
        rw [Stream.advance_rest, List.append_assoc, ← List.prefix_append_drop hpre]
      rw [hall] at hloop
      dsimp only
      rw [if_neg (by rw [hend]; exact Bool.false_ne_true), hcat]
      exact hloop

theorem readLoop (h : Refines io s) (heof : s.eof = false) {rounds : Nat} (hrounds : s.rest.length < rounds)
    {length : Nat} (hlength : 0 < length) (outbuf : Bytes) :
    ∃ io', Io.readLoop rounds io length outbuf =
        some (if (outbuf ++ s.rest.take length).isEmpty then none else some (outbuf ++ s.rest.take length), io') ∧
      Refines io' (s.after length) := by
  induction rounds generalizing io s outbuf length with
  | zero => omega
  | succ rounds ih =>
    unfold Io.readLoop
    dsimp only
    by_cases hrest : s.rest = []
    · obtain ⟨hend, hfill⟩ := h.fillBuf_of_end hrest
      have hdone : (io.fillBuf.eof || decide ((length : Int) = 0)) = true := by rw [hend, Bool.true_or]
      have hafter : s.after length = s.finish := if_pos (by rw [hrest]; exact hlength)
      rw [if_pos hdone, hafter, hrest, List.take_nil, List.append_nil]
      exact ⟨_, rfl, hfill⟩
    · obtain ⟨hend, hfill, bytes, hne, hpre, hholds⟩ := h.fillBuf_of_more heof hrest
      have hlen := hholds.len
      have hle := hpre.length_le
      have hpos := List.length_pos_iff.mpr hne
      have hsome : ¬ (io.fillBuf.eof || decide ((length : Int) = 0)) = true := by
        rw [hend, Bool.false_or, decide_eq_true_eq]
        omega
      rw [if_neg hsome]
      by_cases hlt : io.fillBuf.buf.len < length
      · obtain ⟨io₁, hcat, hnext⟩ := hfill.bufCatAll hholds outbuf
        have hrest₁ : (s.advance bytes.length).rest.length < rounds := by
          rw [Stream.advance_rest, List.length_drop]
          omega
        have hlonger : bytes.length < length := by omega
        obtain ⟨io₂, hloop, hlast⟩ := ih hnext heof hrest₁
          (Nat.sub_pos_of_lt hlonger) (outbuf ++ bytes)
        have hall : outbuf ++ bytes ++ (s.advance bytes.length).rest.take (length - bytes.length) =
            outbuf ++ s.rest.take length := by
          conv => rhs; rw [List.prefix_append_drop hpre, List.take_append, List.take_of_length_le (by omega)]
          rw [Stream.advance_rest, List.append_assoc]
        have hleft : (length : Int) - io.fillBuf.buf.len = ((length - bytes.length : Nat) : Int) := by omega
        rw [hall] at hloop
        rw [Stream.after_advance hle (by omega)] at hlast
        rw [if_pos hlt, hcat]
        refine ⟨io₂, ?_, hlast⟩
        rw [hleft]
        exact hloop
      · have hn : length ≤ bytes.length := by omega
        obtain ⟨io₁, hcat, hnext⟩ := hfill.bufCat hholds hn outbuf
        have htake : bytes.take length = s.rest.take length := by
          conv => rhs; rw [List.prefix_append_drop hpre]
          rw [List.take_append_of_le_length hn]
        have hsome' : (outbuf ++ s.rest.take length).isEmpty = false := by
          rw [List.isEmpty_eq_false_iff, ← htake]
          intro hnil
          have hlength' := congrArg List.length hnil
          rw [List.length_append, List.length_take, List.length_nil] at hlength'
          omega
        have hafter : s.after length = s.advance length := if_neg (by omega)
        rw [if_neg hlt, hcat, htake, if_neg (by rw [hsome']; exact Bool.false_ne_true), hafter]
        exact ⟨io₁, rfl, hnext⟩

theorem readAll_of_eof (h : Refines io s) (heof : s.eof = true) (rounds : Nat) :
    Io.readAll (rounds + 1) io outbuf = some (outbuf, io.fillBuf) := if_pos (h.fillBuf_of_eof heof).1

theorem readLoop_of_eof (h : Refines io s) (heof : s.eof = true) (rounds : Nat) (length : Int) :
    Io.readLoop (rounds + 1) io length outbuf =
      some (if outbuf.isEmpty then none else some outbuf, io.fillBuf) :=
  if_pos (by rw [(h.fillBuf_of_eof heof).1, Bool.true_or])

theorem ofStr_orNil (s : Bytes) : Value.ofStr (if s.isEmpty then none else some s) = Stream.orNil s := by
  unfold Stream.orNil
  split <;> rfl

theorem step_read (h : Refines io s) (length : Option Nat) (outbuf : Bytes) :
    ∃ io', io.step (.read length outbuf) = some ((s.step (.read length outbuf)).1, io') ∧
      Refines io' (s.step (.read length outbuf)).2 := by
  unfold Io.step Stream.step
  dsimp only
  cases length with
  | none =>
    unfold Io.read Stream.read
    dsimp only
    cases heof : s.eof with
    | true =>
      rw [Io.rounds, h.readAll_of_eof heof]
      exact ⟨_, rfl, (h.fillBuf_of_eof heof).2⟩
    | false =>
      obtain ⟨io', hread, hnext⟩ := h.readAll heof h.rest_length outbuf
      rw [hread]
      exact ⟨io', rfl, hnext⟩
  | some length =>
    rcases Nat.eq_zero_or_pos length with rfl | hlength
    · exact ⟨io, rfl, h⟩
    · rw [Io.read_some hlength, Stream.read_some hlength]
      cases heof : s.eof with
      | true =>
        rw [Io.rounds, h.readLoop_of_eof heof]
        refine ⟨_, ?_, (h.fillBuf_of_eof heof).2⟩
        change some (Value.ofStr _, io.fillBuf) = _
        rw [ofStr_orNil]
        rfl
      | false =>
        obtain ⟨io', hread, hnext⟩ := h.readLoop heof h.rest_length hlength outbuf
        rw [hread]
        refine ⟨io', ?_, hnext⟩
        change some (Value.ofStr _, io') = _
        rw [ofStr_orNil]
        rfl

/-! ## Lines -/

/-- Where a line ends in the buffer, it ends there in the file. -/
theorem lineLength_of_found {p rest : Bytes} {idx : Nat} (hpre : bytes <+: rest)
    (hfound : indexFrom p bytes 0 = some idx) (limit : Option Nat) :
    idx + p.length ≤ bytes.length ∧
      Stream.lineLength (some p) limit rest = some ((limit.map (min (idx + p.length))).getD (idx + p.length)) := by
  rw [List.prefix_iff_eq_take.mp hpre] at hfound
  obtain ⟨hindex, hle⟩ := indexFrom_of_take hfound
  refine ⟨hle, ?_⟩
  unfold Stream.lineLength
  rw [Option.bind_some, hindex]
  rfl

/-- A separator of one byte that is not in the buffer is behind it. -/
theorem indexFrom_behind {p rest : Bytes} (hp : p.length = 1) (hpre : bytes <+: rest)
    (hnone : indexFrom p bytes 0 = none) :
    indexFrom p rest 0 = (indexFrom p (rest.drop bytes.length) 0).map (· + bytes.length) := by
  rw [← indexFrom_drop hpre.length_le]
  symm
  apply indexFrom_skip (Nat.zero_le _)
  intro i hi hlt hocc
  rw [indexFrom_eq_none_iff, List.prefix_iff_eq_take.mp hpre] at hnone
  exact hnone i hi (occursAt_take.mpr ⟨hocc, by omega⟩)

theorem nextLine_zero (s : Stream) (rs : Option Bytes) : s.nextLine rs (some 0) = ([], s) := by
  have hlen : Stream.lineLength rs (some 0) s.rest = some 0 := by
    unfold Stream.lineLength
    cases rs.bind fun p => (indexFrom p s.rest 0).map (· + p.length) with
    | none => rfl
    | some n => exact congrArg some (Nat.min_zero n)
  unfold Stream.nextLine
  rw [hlen]
  change (s.rest.take 0, s.advance 0) = ([], s)
  rw [List.take_zero, Stream.advance_zero]

/-- No line ends where nothing is left. -/
theorem nextLine_of_end {rs : Option Bytes} {limit : Option Nat} (hrs : OneByte rs) (hrest : s.rest = [])
    (hlimit : ∀ l, limit = some l → 0 < l) : s.nextLine rs limit = ([], s.finish) := by
  have hlen : Stream.lineLength rs limit s.rest = none := by
    unfold Stream.lineLength
    cases hends : rs.bind fun p => (indexFrom p s.rest 0).map (· + p.length) with
    | none =>
      cases limit with
      | none => rfl
      | some l =>
        have hl := hlimit l rfl
        refine Option.filter_some_neg ?_
        exact decide_eq_false (by rw [hrest, List.length_nil]; omega)
    | some n =>
      obtain ⟨p, rfl, hend⟩ := Option.bind_eq_some_iff.mp hends
      obtain ⟨i, hindex, -⟩ := Option.map_eq_some_iff.mp hend
      have hle := (indexFrom_eq_some_iff.mp hindex).2.1.end_le
      rw [hrs p rfl, hrest, List.length_nil] at hle
      omega
  unfold Stream.nextLine
  rw [hlen, hrest]

/-- The limit is in the buffer, and no line ends before it. -/
theorem nextLine_of_limit {rs : Option Bytes} {l : Nat} (hrs : OneByte rs) (hpre : bytes <+: s.rest)
    (hnone : (rs.bind fun p => indexFrom p bytes 0) = none) (hl : l ≤ bytes.length) :
    s.nextLine rs (some l) = (s.rest.take l, s.advance l) := by
  have hlen : Stream.lineLength rs (some l) s.rest = some l := by
    unfold Stream.lineLength
    cases hends : rs.bind fun p => (indexFrom p s.rest 0).map (· + p.length) with
    | none =>
      have hle := hpre.length_le
      exact Option.filter_some_pos (by simp; omega)
    | some n =>
      obtain ⟨p, rfl, hend⟩ := Option.bind_eq_some_iff.mp hends
      rw [indexFrom_behind (hrs p rfl) hpre hnone, Option.map_map, Option.map_eq_some_iff] at hend
      obtain ⟨i, -, rfl⟩ := hend
      change some (min (i + bytes.length + p.length) l) = some l
      congr 1
      omega
  unfold Stream.nextLine
  rw [hlen]

/-- No line ends in the buffer. -/
theorem nextLine_of_none {rs : Option Bytes} {limit : Option Nat} (hrs : OneByte rs) (hpre : bytes <+: s.rest)
    (hnone : (rs.bind fun p => indexFrom p bytes 0) = none) (hlimit : ∀ l, limit = some l → bytes.length < l) :
    s.nextLine rs limit = (bytes ++ ((s.advance bytes.length).nextLine rs (limit.map (· - bytes.length))).1,
      ((s.advance bytes.length).nextLine rs (limit.map (· - bytes.length))).2) := by
  have hle := hpre.length_le
  have hlen : Stream.lineLength rs limit s.rest = (Stream.lineLength rs (limit.map (· - bytes.length))
      (s.rest.drop bytes.length)).map (· + bytes.length) := by
    have hends : (rs.bind fun p => (indexFrom p s.rest 0).map (· + p.length)) =
        (rs.bind fun p => (indexFrom p (s.rest.drop bytes.length) 0).map (· + p.length)).map (· + bytes.length) := by
      cases rs with
      | none => rfl
      | some p =>
        rw [Option.bind_some, Option.bind_some, indexFrom_behind (hrs p rfl) hpre hnone, Option.map_map, Option.map_map]
        congr 1
        funext i
        exact Nat.add_right_comm i bytes.length p.length
    unfold Stream.lineLength
    rw [hends]
    cases (rs.bind fun p => (indexFrom p (s.rest.drop bytes.length) 0).map (· + p.length)) with
    | some n =>
      cases limit with
      | none => rfl
      | some l =>
        have hl := hlimit l rfl
        change some (min (n + bytes.length) l) = some (min n (l - bytes.length) + bytes.length)
        congr 1
        omega
    | none =>
      cases limit with
      | none => rfl
      | some l =>
        have hl := hlimit l rfl
        change (some l).filter (fun l => decide (l ≤ s.rest.length)) = ((some (l - bytes.length)).filter
          fun l => decide (l ≤ (s.rest.drop bytes.length).length)).map (· + bytes.length)
        rw [List.length_drop]
        by_cases hfits : l ≤ s.rest.length
        · rw [Option.filter_some_pos (by simpa using hfits), Option.filter_some_pos (by simp; omega), Option.map_some,
            Nat.sub_add_cancel hl.le]
        · rw [Option.filter_some_neg (by simpa using hfits), Option.filter_some_neg (by simp; omega), Option.map_none]
  have hall : s.rest = bytes ++ (s.advance bytes.length).rest := by
    rw [Stream.advance_rest]
    exact List.prefix_append_drop hpre
  unfold Stream.nextLine
  rw [hlen, ← Stream.advance_rest]
  cases Stream.lineLength rs (limit.map (· - bytes.length)) (s.advance bytes.length).rest with
  | some n =>
    dsimp only [Option.map_some]
    conv => lhs; rw [hall]
    rw [Stream.advance_advance, Nat.add_comm n, List.take_length_add_append]
  | none =>
    dsimp only [Option.map_none]
    rw [Stream.finish_advance hle, ← hall]

theorem findLine_eq (hholds : io.buf.Holds bytes) (rs : Option Bytes) :
    io.buf.findLine rs = some (rs.bind fun p => indexFrom p bytes 0) := by
  cases rs with
  | none => rfl
  | some p =>
    change io.buf.findIndex p = some (indexFrom p bytes 0)
    unfold IoBuf.findIndex
    rw [hholds.slice_all]
    rfl

theorem getsLoop (h : Refines io s) (heof : s.eof = false) {rs : Option Bytes} (hrs : OneByte rs) (hne : bytes ≠ [])
    (hpre : bytes <+: s.rest) (hholds : io.buf.Holds bytes) {rounds : Nat} (hrounds : s.rest.length ≤ rounds)
    (limit : Option Nat) (outbuf : Bytes) :
    ∃ io', Io.getsLoop rs rounds io limit outbuf = some (some (outbuf ++ (s.nextLine rs limit).1), io') ∧
      Refines io' (s.nextLine rs limit).2 := by
  induction rounds generalizing io s bytes outbuf limit with
  | zero =>
    have hle := hpre.length_le
    have hpos := List.length_pos_iff.mpr hne
    omega
  | succ rounds ih =>
    have hle := hpre.length_le
    have hpos := List.length_pos_iff.mpr hne
    unfold Io.getsLoop
    rw [findLine_eq hholds]
    cases hfound : rs.bind fun p => indexFrom p bytes 0 with
    | some idx =>
      obtain ⟨p, rfl, hfound⟩ := Option.bind_eq_some_iff.mp hfound
      obtain ⟨hidx, hlength⟩ := lineLength_of_found hpre hfound limit
      obtain ⟨n, hn⟩ : ∃ n, n = (limit.map (min (idx + p.length))).getD (idx + p.length) := ⟨_, rfl⟩
      rw [← hn] at hlength
      have hle' : n ≤ bytes.length := by
        cases limit with
        | none =>
          change n = idx + p.length at hn
          omega
        | some l =>
          change n = min (idx + p.length) l at hn
          omega
      obtain ⟨io', hcat, hnext⟩ := h.bufCat hholds hle' outbuf
      have hline : s.nextLine (some p) limit = (s.rest.take n, s.advance n) := by
        unfold Stream.nextLine
        rw [hlength]
      have htake : bytes.take n = s.rest.take n := by
        conv => rhs; rw [List.prefix_append_drop hpre]
        rw [List.take_append_of_le_length hle']
      rw [hline, ← htake]
      refine ⟨io', ?_, hnext⟩
      change (do let __x ← io.bufCat outbuf ((limit.map (min (idx + p.length))).getD (idx + p.length) : Nat); _) = _
      rw [← hn, hcat]
      rfl
    | none =>
      change ∃ io', (if limit.any (fun limit : Nat => decide ((limit : Int) ≤ io.buf.len)) = true then _ else _) = _ ∧ _
      have hlen := hholds.len
      by_cases hreached : limit.any (fun limit : Nat => decide ((limit : Int) ≤ io.buf.len)) = true
      · obtain ⟨l, rfl, hl⟩ := (Option.any_eq_true _ _).mp hreached
        have hl' : l ≤ bytes.length := by
          rw [decide_eq_true_eq] at hl
          omega
        obtain ⟨io', hcat, hnext⟩ := h.bufCat hholds hl' outbuf
        have htake : bytes.take l = s.rest.take l := by
          conv => rhs; rw [List.prefix_append_drop hpre]
          rw [List.take_append_of_le_length hl']
        rw [if_pos hreached, nextLine_of_limit hrs hpre hfound hl', ← htake]
        refine ⟨io', ?_, hnext⟩
        change (do let __x ← io.bufCat outbuf l; _) = _
        rw [hcat]
        rfl
      · have hlimit : ∀ l, limit = some l → bytes.length < l := by
          rintro l rfl
          by_contra hle'
          exact hreached ((Option.any_eq_true _ _).mpr ⟨l, rfl, by rw [decide_eq_true_eq]; omega⟩)
        have hleft : (limit.map fun limit : Nat => ((limit : Int) - io.buf.len).toNat) =
            limit.map (· - bytes.length) := by
          congr 1
          funext l
          omega
        obtain ⟨io₁, hcat, hnext⟩ := h.bufCatAll hholds outbuf
        rw [if_neg hreached, nextLine_of_none hrs hpre hfound hlimit, hleft, hcat]
        change ∃ io', (if io₁.fillBuf.eof = true then
          some (if (outbuf ++ bytes).isEmpty = true then none else some (outbuf ++ bytes), io₁.fillBuf) else
            Io.getsLoop rs rounds io₁.fillBuf (limit.map (· - bytes.length)) (outbuf ++ bytes)) = _ ∧ _
        by_cases hrest : (s.advance bytes.length).rest = []
        · obtain ⟨hend, hfill⟩ := hnext.fillBuf_of_end hrest
          have hlimit₁ : ∀ l, limit.map (· - bytes.length) = some l → 0 < l := by
            intro l hl
            obtain ⟨l₀, hl₀, rfl⟩ := Option.map_eq_some_iff.mp hl
            exact Nat.sub_pos_of_lt (hlimit l₀ hl₀)
          have hsome : (outbuf ++ bytes).isEmpty = false :=
            List.isEmpty_eq_false_iff.mpr (List.append_ne_nil_of_right_ne_nil _ hne)
          rw [if_pos hend, hsome, if_neg Bool.false_ne_true, nextLine_of_end hrs hrest hlimit₁, List.append_nil]
          exact ⟨_, rfl, hfill⟩
        · obtain ⟨hend, hfill, bytes₁, hne₁, hpre₁, hholds₁⟩ := hnext.fillBuf_of_more heof hrest
          have hrounds₁ : (s.advance bytes.length).rest.length ≤ rounds := by
            rw [Stream.advance_rest, List.length_drop]
            omega
          obtain ⟨io', hloop, hlast⟩ := ih hfill heof hne₁ hpre₁ hholds₁ hrounds₁
            (limit.map (· - bytes.length)) (outbuf ++ bytes)
          rw [if_neg (by rw [hend]; exact Bool.false_ne_true), hloop, List.append_assoc]
          exact ⟨io', rfl, hlast⟩

/-- `gets` is never without both a separator and a limit, so it never reads all of the file. -/
theorem resolve_ne (args : GetsArgs) : args.resolve ≠ .ok (none, none) := by
  cases args with
  | none => exact fun h => nomatch h
  | one rs => cases rs <;> exact fun h => nomatch h
  | two rs limit => cases rs <;> exact fun h => nomatch h

theorem gets_eq {args : GetsArgs} {rs : Option Bytes} {limit : Option Nat} (hresolve : args.resolve = .ok (rs, limit)) :
    io.gets args = (if io.fillBuf.eof then some (.ok none, io.fillBuf)
      else if limit = some 0 then some (.ok (some []), io.fillBuf)
      else do
        let (line, io) ← Io.getsLoop rs io.fillBuf.rounds io.fillBuf limit []
        return (.ok line, io)) := by
  have hne := resolve_ne args
  unfold Io.gets
  rw [hresolve] at hne ⊢
  cases rs with
  | none =>
    cases limit with
    | none => exact absurd rfl hne
    | some limit => rfl
  | some rs => rfl

theorem step_gets (h : Refines io s) (args : GetsArgs)
    (hargs : ∀ rs limit, args.resolve = .ok (rs, limit) → OneByte rs) :
    ∃ io', io.step (.gets args) = some ((s.step (.gets args)).1, io') ∧ Refines io' (s.step (.gets args)).2 := by
  have hstep' : s.step (.gets args) = s.gets args := rfl
  rw [Io.step_gets, hstep', Stream.gets]
  cases hresolve : args.resolve with
  | error e =>
    refine ⟨io, ?_, h⟩
    rw [Io.gets, hresolve]
    rfl
  | ok resolved =>
    obtain ⟨rs, limit⟩ := resolved
    have hrs := hargs rs limit hresolve
    rw [gets_eq hresolve]
    dsimp only
    cases heof : s.eof with
    | true =>
      obtain ⟨hend, hfill⟩ := h.fillBuf_of_eof heof
      rw [if_pos hend, if_pos rfl]
      exact ⟨_, rfl, hfill⟩
    | false =>
      by_cases hrest : s.rest = []
      · obtain ⟨hend, hfill⟩ := h.fillBuf_of_end hrest
        rw [if_pos hend, if_neg Bool.false_ne_true, if_pos (by rw [hrest]; rfl)]
        exact ⟨_, rfl, hfill⟩
      · obtain ⟨hend, hfill, bytes, hne, hpre, hholds⟩ := h.fillBuf_of_more heof hrest
        have hmore : ¬ s.rest.isEmpty = true := mt List.isEmpty_iff.mp hrest
        rw [if_neg (by rw [hend]; exact Bool.false_ne_true), if_neg Bool.false_ne_true, if_neg hmore]
        by_cases hzero : limit = some 0
        · rw [if_pos hzero, hzero, nextLine_zero]
          exact ⟨_, rfl, hfill⟩
        · rw [if_neg hzero]
          obtain ⟨io', hloop, hnext⟩ := hfill.getsLoop heof hrs hne hpre hholds
            (Nat.le_of_lt hfill.rest_length) limit []
          rw [hloop]
          exact ⟨io', rfl, hnext⟩

/-! ## The other methods -/

/-- With nothing in the buffer, the file is where its next byte is. -/
theorem of_empty (h : Refines io s) (hempty : io.buf.len = 0) : s.pushed = [] ∧ io.fd.offset = s.place := by
  obtain ⟨ahead, hahead, hoffset, hholds⟩ := h.buffered
  have hlen := hholds.len
  rw [List.length_append, List.length_take, List.length_drop] at hlen
  exact ⟨List.eq_nil_of_length_eq_zero (by omega), by omega⟩

theorem step_ungetc (h : Refines io s) {str : Bytes} (hstr : shrtMax < str.length ∨ io.buf.Fits str) :
    ∃ io', io.step (.ungetc str) = some ((s.step (.ungetc str)).1, io') ∧
      Refines io' (s.step (.ungetc str)).2 := by
  have hstep' : s.step (.ungetc str) = if shrtMax < str.length then (.raised "string too long to ungetc", s)
      else (.nil, { s with pushed := str ++ s.pushed }) := rfl
  rw [Io.step_ungetc, hstep']
  by_cases hlong : shrtMax < str.length
  · rw [Io.ungetc, if_pos hlong, if_pos hlong]
    exact ⟨io, rfl, h⟩
  · obtain ⟨ahead, hahead, hoffset, hholds⟩ := h.buffered
    have hfits := hstr.resolve_left hlong
    obtain ⟨io', hunget, hholds'⟩ := (Io.ungetc_iff hholds (by omega)).mpr hfits
    have hsame : io'.fd = io.fd ∧ io'.eof = io.eof := by
      unfold Io.ungetc at hunget
      rw [if_neg hlong] at hunget
      dsimp only at hunget
      split at hunget
      · cases hunget
        exact ⟨rfl, rfl⟩
      · cases hunget
    rw [hunget, if_neg hlong]
    refine ⟨io', rfl, ?_, ?_, ahead, hahead, ?_, ?_⟩
    · rw [hsame.1]
      exact h.content
    · rw [hsame.2]
      exact h.eof
    · rw [hsame.1]
      exact hoffset
    · change io'.buf.Holds (str ++ s.pushed ++ _)
      rw [List.append_assoc]
      exact hholds'

theorem step_eofQ (h : Refines io s) :
    ∃ io', io.step .eofQ = some ((s.step .eofQ).1, io') ∧ Refines io' (s.step .eofQ).2 := by
  change ∃ io', some (Value.bool io.eofQ.1, io.eofQ.2) = some (Value.bool (s.eof || s.rest.isEmpty), io') ∧
    Refines io' { s with eof := s.eof || s.rest.isEmpty }
  unfold Io.eofQ
  cases heof : s.eof with
  | true =>
    rw [if_pos (h.eof.trans heof)]
    refine ⟨io, rfl, ?_⟩
    rw [Bool.true_or, ← heof]
    exact h
  | false =>
    rw [if_neg (by rw [h.eof, heof]; exact Bool.false_ne_true), Bool.false_or]
    by_cases hrest : s.rest = []
    · obtain ⟨hend, hfill⟩ := h.fillBuf_of_end hrest
      obtain ⟨bytes, hholds, hpre⟩ := h.holds
      have hlen := hholds.len
      rw [hrest, List.prefix_nil] at hpre
      rw [hpre, List.length_nil] at hlen
      rw [Stream.finish_of_rest hrest] at hfill
      rw [if_neg (by omega), hend, hrest]
      exact ⟨_, rfl, hfill⟩
    · obtain ⟨hend, hfill, -⟩ := h.fillBuf_of_more heof hrest
      have hmore : s.rest.isEmpty = false := List.isEmpty_eq_false_iff.mpr hrest
      have hsame : { s with eof := false } = s := by rw [← heof]
      rw [hmore, hsame]
      by_cases hpos : 0 < io.buf.len
      · rw [if_pos hpos]
        exact ⟨io, rfl, h⟩
      · rw [if_neg hpos, hend]
        exact ⟨_, rfl, hfill⟩

theorem step_pos (h : Refines io s) :
    ∃ io', io.step .pos = some ((s.step .pos).1, io') ∧ Refines io' (s.step .pos).2 := by
  obtain ⟨ahead, hahead, hoffset, hholds⟩ := h.buffered
  have hlen := hholds.len
  rw [List.length_append, List.length_take, List.length_drop] at hlen
  refine ⟨io, ?_, h⟩
  change some (Value.int io.pos, io) = some (Value.int (s.place - s.pushed.length), io)
  unfold Io.pos
  rw [hoffset, hlen]
  congr 3
  omega

/-- With the buffer emptied and the file at `place`. -/
theorem of_emptied {fd : Descriptor} {content : Bytes} {place : Nat} {eof : Bool} {buf : IoBuf}
    (hcontent : fd.content = content) (hoffset : fd.offset = place) (hbuf : buf.Holds []) :
    Refines { fd, eof, buf } { content, place, pushed := [], eof } := by
  refine ⟨hcontent, rfl, 0, Nat.zero_le _, hoffset, ?_⟩
  rw [List.nil_append, List.take_zero]
  exact hbuf

theorem seek_of_target (h : Refines io s) {offset : Int} {whence : Whence} {target : Int}
    (hio : io.fd.lseek offset whence = if 0 ≤ target then some { io.fd with offset := target.toNat } else none)
    (hs : s.step (.seek offset whence) =
      if 0 ≤ target then (.int 0, { s with place := target.toNat, pushed := [], eof := false })
      else (.raised "sysseek failed", s))
    (hallowed : io.buf.len = 0 ∨ 0 ≤ target) :
    ∃ io', io.step (.seek offset whence) = some ((s.step (.seek offset whence)).1, io') ∧
      Refines io' (s.step (.seek offset whence)).2 := by
  obtain ⟨bytes, hholds, -⟩ := h.holds
  by_cases hnonneg : 0 ≤ target
  · rw [if_pos hnonneg] at hio hs
    rw [hs]
    refine ⟨{ fd := { io.fd with offset := target.toNat }, eof := false, buf := io.buf.reset }, ?_, ?_⟩
    · simp only [Io.step, Io.seek, hio]
      rfl
    · exact of_emptied h.content rfl hholds.reset
  · obtain ⟨hpushed, hplace⟩ := h.of_empty (hallowed.resolve_right hnonneg)
    have hsame : { content := s.content, place := s.place, pushed := [], eof := s.eof } = s := by rw [← hpushed]
    rw [if_neg hnonneg] at hio hs
    rw [hs]
    refine ⟨{ io with buf := io.buf.reset }, ?_, ?_⟩
    · simp only [Io.step, Io.seek, hio]
      rfl
    · rw [← hsame, ← h.eof]
      exact of_emptied h.content hplace hholds.reset

theorem step_seek (h : Refines io s) (offset : Int) (whence : Whence) (hallowed : io.buf.len = 0 ∨
    whence = .set ∧ 0 ≤ offset ∨ whence = .fileEnd ∧ 0 ≤ io.fd.content.length + offset) :
    ∃ io', io.step (.seek offset whence) = some ((s.step (.seek offset whence)).1, io') ∧
      Refines io' (s.step (.seek offset whence)).2 := by
  cases whence with
  | set =>
    refine h.seek_of_target rfl rfl ?_
    rcases hallowed with hempty | ⟨-, hnonneg⟩ | ⟨hend, -⟩
    · exact Or.inl hempty
    · exact Or.inr hnonneg
    · cases hend
  | cur =>
    have hempty : io.buf.len = 0 := by
      rcases hallowed with hempty | ⟨hset, -⟩ | ⟨hend, -⟩
      · exact hempty
      · cases hset
      · cases hend
    obtain ⟨hpushed, hplace⟩ := h.of_empty hempty
    refine h.seek_of_target rfl ?_ (Or.inl hempty)
    rw [hplace]
    change (if 0 ≤ ((s.place : Int) - (s.pushed.length : Int) + offset) then _ else _) = _
    rw [hpushed, List.length_nil, Int.natCast_zero, Int.sub_zero]
  | fileEnd =>
    refine h.seek_of_target rfl ?_ ?_
    · rw [h.content]
      rfl
    · rcases hallowed with hempty | ⟨hset, -⟩ | ⟨-, hnonneg⟩
      · exact Or.inl hempty
      · cases hset
      · exact Or.inr hnonneg

end Refines

/-! ## Writes -/

namespace Stream

/-- The file up to a place, with zeros where it is shorter. -/
def front (content : Bytes) (place : Nat) : Bytes := content.take place ++ List.replicate (place - content.length) 0

theorem front_length (content : Bytes) (place : Nat) : (front content place).length = place := by
  rw [front, List.length_append, List.length_take, List.length_replicate]
  omega

theorem overwrite_nil (content : Bytes) (place : Nat) : overwrite content place [] = content := rfl

theorem overwrite_of_ne {data : Bytes} (h : data ≠ []) (content : Bytes) (place : Nat) :
    overwrite content place data = front content place ++ data ++ content.drop (place + data.length) := by
  rw [overwrite, if_neg (by rwa [List.isEmpty_iff]), front]

/-- What is written piece by piece. -/
theorem overwrite_append (content : Bytes) (place : Nat) (a b : Bytes) :
    overwrite (overwrite content place a) (place + a.length) b = overwrite content place (a ++ b) := by
  by_cases ha : a = []
  · rw [ha, overwrite_nil, List.length_nil, List.nil_append, Nat.add_zero]
  by_cases hb : b = []
  · rw [hb, overwrite_nil, List.append_nil]
  have hab : a ++ b ≠ [] := fun h => ha (List.append_eq_nil_iff.mp h).1
  have hwritten : (front content place ++ a).length = place + a.length := by
    rw [List.length_append, front_length]
  have hfront : front (overwrite content place a) (place + a.length) = front content place ++ a := by
    rw [front, overwrite_of_ne ha, List.take_left' hwritten, List.length_append, hwritten, Nat.sub_eq_zero_of_le
      (Nat.le_add_right _ _), List.replicate_zero, List.append_nil]
  have hbehind : (overwrite content place a).drop (place + a.length + b.length) =
      content.drop (place + (a ++ b).length) := by
    rw [overwrite_of_ne ha, ← hwritten, List.drop_length_add_append, List.drop_drop, hwritten, List.length_append,
      Nat.add_assoc]
  rw [overwrite_of_ne hb, hfront, hbehind, overwrite_of_ne hab, List.append_assoc (front content place)]

end Stream

theorem Io.foldl_fdWrite (strs : List Bytes) (fd : Descriptor) : strs.foldl fdWrite fd =
    { fd with
      content := Stream.overwrite fd.content fd.offset strs.flatten
      offset := fd.offset + strs.flatten.length } := by
  induction strs generalizing fd with
  | nil => rfl
  | cons str strs ih =>
    have hwrite : fdWrite fd str =
        { fd with content := Stream.overwrite fd.content fd.offset str, offset := fd.offset + str.length } := by
      unfold fdWrite Stream.overwrite
      cases str with
      | nil => rfl
      | cons x str => rfl
    rw [List.foldl_cons, hwrite, ih, List.flatten_cons]
    dsimp only
    rw [Stream.overwrite_append, List.length_append, Nat.add_assoc]

namespace Refines
variable {io : Io} {s : Stream}

theorem step_write (h : Refines io s) (strs : List Bytes) :
    ∃ io', io.step (.write strs) = some ((s.step (.write strs)).1, io') ∧
      Refines io' (s.step (.write strs)).2 := by
  obtain ⟨ahead, hahead, hoffset, hholds⟩ := h.buffered
  have hlen := hholds.len
  rw [List.length_append, List.length_take, List.length_drop] at hlen
  have hstep : s.step (.write strs) =
      if s.pushed.length ≤ s.place then
        (.int strs.flatten.length, { s with
          content := Stream.overwrite s.content (s.place - s.pushed.length) strs.flatten
          place := s.place - s.pushed.length + strs.flatten.length
          pushed := [] })
      else (.raised "lseek(2) failed", s) := rfl
  have hstep' : io.step (.write strs) =
      some (Value.ofExcept (fun n : Nat => .int n) (io.write strs).1, (io.write strs).2) := rfl
  rw [hstep, hstep', Io.write, ← List.length_flatten]
  by_cases hpos : 0 < io.buf.len
  · rw [if_pos hpos]
    by_cases hplace : s.pushed.length ≤ s.place
    · have hseek : io.fd.lseek (io.fd.offset - io.buf.len) .set =
          some { io.fd with offset := s.place - s.pushed.length } := by
        unfold Descriptor.lseek
        have hnat : (io.fd.offset : Int) - io.buf.len = (s.place - s.pushed.length : Nat) := by omega
        dsimp only
        rw [hnat, if_pos (Int.natCast_nonneg _), Int.toNat_natCast]
      rw [if_pos hplace, hseek]
      dsimp only
      rw [Io.foldl_fdWrite]
      refine ⟨_, rfl, ?_⟩
      rw [← h.content, ← h.eof]
      exact of_emptied rfl rfl hholds.reset
    · have hseek : io.fd.lseek (io.fd.offset - io.buf.len) .set = none := by
        have hneg : ¬(0 : Int) ≤ io.fd.offset - io.buf.len := by omega
        unfold Descriptor.lseek
        exact if_neg hneg
      rw [if_neg hplace, hseek]
      exact ⟨io, rfl, h⟩
  · obtain ⟨hpushed, hplace⟩ := h.of_empty (by omega)
    rw [if_neg hpos, if_pos (by rw [hpushed]; exact Nat.zero_le _), hpushed, List.length_nil, Nat.sub_zero,
      Io.foldl_fdWrite, hplace, h.content]
    refine ⟨_, rfl, ?_⟩
    have hbuf : io.buf.Holds [] := by
      have hnil : s.pushed ++ (s.content.drop s.place).take ahead = [] := by
        apply List.eq_nil_of_length_eq_zero
        rw [List.length_append, List.length_take, List.length_drop]
        omega
      rwa [hnil] at hholds
    rw [← h.eof]
    exact of_emptied rfl rfl hbuf

end Refines

end PicoRuby.PosixIo
