import Mathlib.Data.List.Nodup
import Mathlib.Data.Nat.Digits.Defs
import PicoRuby.Ble.Advertising

/-!
# Advertising data, there and back

A structure is its length, its type and its value. What `build` writes is the structures one after another, and
`inspect_reports` reads them off; of any other data it reports only what is there.
-/

namespace PicoRuby.Ble

open Shared

set_option autoImplicit false

/-- The bytes that a value comes to; an Integer in as few as it needs, the lowest first. -/
def Field.bytes : Field → Bytes
  | .str s => s
  | .int n => (Nat.digits 256 n.toNat).map UInt8.ofNat
  | .null => []
  | .other _ => []

/-- A non-empty String or a positive Integer. -/
def Field.Valid : Field → Prop
  | .str s => s ≠ []
  | .int n => 0 < n
  | .null => False
  | .other _ => False

/-- An advertising structure. -/
structure AdStructure where
  type : UInt8
  values : List Field
  nonempty : values ≠ []
  valid : ∀ d ∈ values, d.Valid

namespace AdStructure

/-- The bytes of its values. -/
def value (s : AdStructure) : Bytes := s.values.flatMap Field.bytes

/-- The bytes of the structure. -/
def encode (s : AdStructure) : Bytes := UInt8.ofNat (s.value.length + 1) :: s.type :: s.value

/-- What a report has for it. -/
def report (s : AdStructure) : ReportKey × Bytes := (reportKey s.type.toNat, s.value)

/-- Its arguments of `add`. -/
def arguments (s : AdStructure) : Int × List Field := (s.type.toNat, s.values)

end AdStructure

/-! ## Writing -/

section Writing
variable {s : AdStructure} {l : List AdStructure} {d : Field} {values : List Field} {data : Bytes} {length : Nat}

theorem Field.bytes_ne_nil (h : d.Valid) : d.bytes ≠ [] := by
  cases d with
  | str s => exact h
  | int n =>
    have hn : n.toNat ≠ 0 := by
      have hpos : 0 < n := h
      omega
    simpa [Field.bytes, Nat.digits_eq_nil_iff_eq_zero] using hn
  | null => exact h.elim
  | other text => exact h.elim

theorem AdStructure.value_ne_nil (s : AdStructure) : s.value ≠ [] := by
  obtain ⟨d, hd⟩ := List.exists_mem_of_ne_nil _ s.nonempty
  intro hnil
  exact Field.bytes_ne_nil (s.valid d hd) (List.flatMap_eq_nil_iff.mp hnil d hd)

@[simp] theorem AdStructure.encode_length : s.encode.length = s.value.length + 2 := rfl

/-- The loop of `add` writes the bytes of the number, however many there are. -/
theorem integerLoop_eq {rounds n : Nat} (data : Bytes) (length : Nat) (h : n ≤ rounds) :
    integerLoop rounds (n : Int) data length =
      (data ++ (Nat.digits 256 n).map UInt8.ofNat, length + (Nat.digits 256 n).length) := by
  induction rounds generalizing n data length with
  | zero =>
    obtain rfl : n = 0 := by omega
    simp [integerLoop]
  | succ rounds ih =>
    unfold integerLoop
    split
    · rename_i hpos
      have hn : 0 < n := by omega
      have hshift : (n : Int) >>> (8 : Nat) = ((n / 256 : Nat) : Int) := by
        rw [← Int.natCast_shiftRight, Nat.shiftRight_eq_div_pow]
      have hlow : ((n : Int) % 256).toNat = n % 256 := by omega
      have hdiv : n / 256 ≤ rounds := by omega
      rw [hshift, ih _ _ hdiv, hlow, Nat.digits_def' (by omega) hn]
      simp [Nat.add_assoc, Nat.add_comm]
    · rename_i hpos
      obtain rfl : n = 0 := by omega
      simp

theorem addField_ok (h : d.Valid) :
    addField data length d = .ok (data ++ d.bytes, length + d.bytes.length) := by
  cases d with
  | str s => rfl
  | int n =>
    have hpos : 0 < n := h
    have hne : n ≠ 0 := by omega
    have hcast : ((n.toNat : Nat) : Int) = n := by omega
    have hloop := integerLoop_eq data length (Nat.le_refl n.toNat)
    rw [hcast] at hloop
    simp [addField, hne, hloop, Field.bytes]
  | null => exact h.elim
  | other text => exact h.elim

theorem addFields_ok (data : Bytes) (length : Nat) (h : ∀ d ∈ values, d.Valid) :
    values.foldlM (fun acc d => addField acc.1 acc.2 d) (data, length) =
      .ok (data ++ values.flatMap Field.bytes, length + (values.flatMap Field.bytes).length) := by
  induction values generalizing data length with
  | nil =>
    simp
    rfl
  | cons d values ih =>
    rw [List.forall_mem_cons] at h
    rw [List.foldlM_cons, addField_ok h.1]
    change List.foldlM _ (data ++ d.bytes, length + d.bytes.length) values = _
    rw [ih _ _ h.2]
    simp [Nat.add_assoc]

theorem chr_ofNat {n : Nat} (h : n < 256) : chr n = .ok (UInt8.ofNat n) := if_pos (by omega)

/-- The length is put where the dummy stood. -/
theorem addStructure_ok (h : s.value.length < 255) :
    addStructure data s.type.toNat s.values = .ok (data ++ s.encode) := by
  have htype : chr s.type.toNat = .ok s.type := by
    rw [chr_ofNat s.type.toNat_lt, UInt8.ofNat_toNat]
  have hlength : chr ((1 + s.value.length : Nat) : Int) = .ok (UInt8.ofNat (s.value.length + 1)) := by
    rw [chr_ofNat (by omega), Nat.add_comm]
  have hfields := addFields_ok (data ++ [0] ++ [s.type]) 1 s.valid
  have hset : (data ++ [0] ++ [s.type] ++ s.value).set data.length (UInt8.ofNat (s.value.length + 1)) =
      data ++ s.encode := by
    rw [List.append_assoc, List.append_assoc, List.set_append_right _ _ (Nat.le_refl _), Nat.sub_self]
    rfl
  unfold addStructure
  simp only [htype, bind, Except.bind, hfields, pure, Except.pure]
  rw [← AdStructure.value, hlength]
  simp only [hset]

theorem addStructures_ok (h : ∀ s ∈ l, s.value.length < 255) :
    (l.map AdStructure.arguments).foldlM (fun data (type, values) => addStructure data type values) data =
      .ok (data ++ l.flatMap AdStructure.encode) := by
  induction l generalizing data with
  | nil =>
    rw [List.flatMap_nil, List.append_nil]
    rfl
  | cons s l ih =>
    rw [List.forall_mem_cons] at h
    rw [List.map_cons, List.foldlM_cons]
    change (addStructure data s.type.toNat s.values >>= _) = _
    rw [addStructure_ok h.1]
    change List.foldlM _ (data ++ s.encode) _ = _
    rw [ih h.2, List.flatMap_cons, List.append_assoc]

theorem value_length_lt (h : (l.flatMap AdStructure.encode).length ≤ 31) : ∀ s ∈ l, s.value.length < 255 := by
  intro s hs
  have hle := (List.sublist_flatten_of_mem (List.mem_map_of_mem (f := AdStructure.encode) hs)).length_le
  rw [← List.flatMap_def, AdStructure.encode_length] at hle
  omega

theorem length_le_flatMap_encode : l.length ≤ (l.flatMap AdStructure.encode).length := by
  induction l with
  | nil => simp
  | cons s l ih =>
    rw [List.flatMap_cons, List.length_append, AdStructure.encode_length, List.length_cons]
    omega

theorem build_ok (h : (l.flatMap AdStructure.encode).length ≤ 31) :
    build (l.map AdStructure.arguments) = .ok (l.flatMap AdStructure.encode) := by
  unfold build
  rw [addStructures_ok (value_length_lt h), List.nil_append]
  exact if_neg (by omega)

end Writing

/-! ## Reading -/

/-- A report is a structure of the data, which may have been cut off behind some byte of its value. -/
def Inside (data : Bytes) (report : ReportKey × Bytes) : Prop :=
  ∃ (before after : Bytes) (length type : UInt8), data = before ++ length :: type :: report.2 ++ after ∧
    report.1 = reportKey type.toNat ∧ report.2 ≠ [] ∧ report.2.length < length.toNat

section Reading
variable {s : AdStructure} {l : List AdStructure} {before after data : Bytes} {index rounds : Nat}
  {reports : List (ReportKey × Bytes)}

/-- A number has the name that stands for it alone, or itself. -/
theorem reportKey_injective : Function.Injective reportKey := by
  have hcases : ∀ n, (hashGet eventTypes n = none ∧ reportKey n = .number n) ∨
      ∃ type, hashGet eventTypes n = some type ∧ reportKey n = .event type ∧ (n, type) ∈ eventTypes := by
    intro n
    unfold reportKey
    cases hget : hashGet eventTypes n with
    | none => exact Or.inl ⟨rfl, rfl⟩
    | some type => exact Or.inr ⟨type, rfl, rfl, hashGet_mem hget⟩
  have hnames : ∀ p ∈ eventTypes, ∀ q ∈ eventTypes, p.2 = q.2 → p.1 = q.1 := by decide
  intro m n h
  rcases hcases m with ⟨_, hm⟩ | ⟨type, _, hm, hmem⟩ <;> rcases hcases n with ⟨_, hn⟩ | ⟨type', _, hn, hmem'⟩
  · exact ReportKey.number.inj (hm.symm.trans (h.trans hn))
  · cases hm.symm.trans (h.trans hn)
  · cases hm.symm.trans (h.trans hn)
  · exact hnames _ hmem _ hmem' (ReportKey.event.inj (hm.symm.trans (h.trans hn)))

/-- What a round does where a length and a type stand. -/
theorem inspectLoop_round {length type : UInt8} {rest : Bytes} (rounds : Nat) (reports : List (ReportKey × Bytes))
    (hdata : data = before ++ length :: type :: rest) :
    inspectLoop data (rounds + 1) reports before.length =
      if rest.take (length.toNat - 1) = [] then some reports
      else inspectLoop data rounds (hashSet reports (reportKey type.toNat) (rest.take (length.toNat - 1)))
        (before.length + (length.toNat + 1)) := by
  have hlt : before.length < data.length := by simp [hdata]
  have hfirst : ordAt data before.length = some length.toNat := by simp [ordAt, hdata]
  have hsecond : ordAt data (before.length + 1) = some type.toNat := by simp [ordAt, hdata]
  have hvalue : (sliceInt data (before.length + 2) ((length.toNat : Int) - 1)).getD [] =
      rest.take (length.toNat - 1) := by
    unfold sliceInt
    split
    · have hzero : length.toNat - 1 = 0 := by omega
      simp [hzero]
    · have hcount : ((length.toNat : Int) - 1).toNat = length.toNat - 1 := by omega
      have hlong : ¬ rest.length + 1 + 1 < 2 := by omega
      simp [slice, hdata, hcount, hlong]
  rw [inspectLoop, if_pos hlt]
  simp only [hfirst, hsecond, hvalue]

/-- The structures that are there whole are reported in their order. -/
theorem inspectLoop_structures (before : Bytes) (reports : List (ReportKey × Bytes))
    (hdata : data = before ++ l.flatMap AdStructure.encode) (hlength : ∀ s ∈ l, s.value.length < 255)
    (hkeys : (reports.map Prod.fst ++ (l.map AdStructure.report).map Prod.fst).Nodup) (hrounds : l.length < rounds) :
    inspectLoop data rounds reports before.length = some (reports ++ l.map AdStructure.report) := by
  induction l generalizing before reports rounds with
  | nil =>
    obtain ⟨rounds, rfl⟩ := Nat.exists_eq_succ_of_ne_zero (Nat.ne_of_gt hrounds)
    rw [inspectLoop, if_neg (by simp [hdata])]
    simp
  | cons s l ih =>
    obtain ⟨rounds, rfl⟩ := Nat.exists_eq_succ_of_ne_zero (Nat.ne_of_gt (Nat.zero_lt_of_lt hrounds))
    rw [List.forall_mem_cons] at hlength
    have hbyte : (UInt8.ofNat (s.value.length + 1)).toNat = s.value.length + 1 :=
      UInt8.toNat_ofNat_of_lt' (by show _ < 256; omega)
    have hfront : data = before ++ UInt8.ofNat (s.value.length + 1) :: s.type ::
        (s.value ++ l.flatMap AdStructure.encode) := by
      rw [hdata, List.flatMap_cons]
      rfl
    have hround := inspectLoop_round rounds reports hfront
    have hnew : reportKey s.type.toNat ∉ reports.map Prod.fst := by
      intro hmem
      exact (List.nodup_append.mp hkeys).2.2 _ hmem _ (by simp [AdStructure.report]) rfl
    have hnext : before.length + (s.value.length + 1 + 1) = (before ++ s.encode).length := by
      rw [List.length_append, AdStructure.encode_length]
    rw [hbyte, Nat.add_sub_cancel, List.take_left, if_neg s.value_ne_nil, hashSet_of_not_mem hnew, hnext] at hround
    rw [hround, ih _ _ _ hlength.2 _ (by simpa using hrounds), List.map_cons, AdStructure.report, List.append_assoc]
    · rfl
    · rw [hdata, List.flatMap_cons, List.append_assoc]
    · simpa [AdStructure.report] using hkeys

/-- Nothing but the last byte is left, so that there is no type behind the length. -/
theorem inspectLoop_last (h : data.length = index + 1) : inspectLoop data (rounds + 1) reports index = some reports := by
  have hlt : index < data.length := by omega
  have hfirst : ordAt data index = some data[index].toNat := by simp [ordAt, List.getElem?_eq_getElem hlt]
  have hsecond : ordAt data (index + 1) = none := by simp [ordAt, h]
  rw [inspectLoop, if_pos hlt]
  simp only [hfirst, hsecond]

theorem inside_value {length type : UInt8} {rest : Bytes} (hdata : data = before ++ length :: type :: rest)
    (hvalue : rest.take (length.toNat - 1) ≠ []) :
    Inside data (reportKey type.toNat, rest.take (length.toNat - 1)) := by
  have hpos : length.toNat - 1 ≠ 0 := by
    intro hzero
    exact hvalue (by rw [hzero, List.take_zero])
  refine ⟨before, rest.drop (length.toNat - 1), length, type, ?_, rfl, hvalue, ?_⟩
  · rw [List.append_assoc, List.cons_append, List.cons_append, List.take_append_drop]
    exact hdata
  · rw [List.length_take]
    omega

/-- Every round goes at least one byte on, and reports what stands there. -/
theorem inspectLoop_inside (hrounds : data.length - index < rounds) (h : ∀ report ∈ reports, Inside data report) :
    ∃ result, inspectLoop data rounds reports index = some result ∧ ∀ report ∈ result, Inside data report := by
  induction rounds generalizing index reports with
  | zero => omega
  | succ rounds ih =>
    have hsplit : data = data.take index ++ data.drop index := (List.take_append_drop index data).symm
    have hdrop : (data.drop index).length = data.length - index := List.length_drop
    cases htail : data.drop index with
    | nil =>
      rw [htail, List.length_nil] at hdrop
      exact ⟨reports, by rw [inspectLoop, if_neg (by omega)], h⟩
    | cons length rest =>
      rw [htail, List.length_cons] at hdrop
      cases rest with
      | nil =>
        rw [List.length_nil] at hdrop
        exact ⟨reports, inspectLoop_last (by omega), h⟩
      | cons type rest =>
        have hbefore : (data.take index).length = index := by
          rw [List.length_take]
          omega
        rw [htail] at hsplit
        have hround := inspectLoop_round rounds reports hsplit
        rw [hbefore] at hround
        rw [hround]
        split
        · exact ⟨reports, rfl, h⟩
        · rename_i hvalue
          apply ih (by omega)
          intro report hreport
          rcases mem_hashSet hreport with rfl | hmem
          · exact inside_value hsplit hvalue
          · exact h report hmem

theorem inspectReports_inside (data : Bytes) :
    ∃ reports, inspectReports data = some reports ∧ ∀ report ∈ reports, Inside data report :=
  inspectLoop_inside (by omega) (by simp)

end Reading

/-- **Advertising data.** Structures of distinct types that fit into the 31 bytes come back, each type with the
bytes of its values; and of any data the reports are what stands in it. -/
theorem advertising_round_trip (l : List AdStructure) (hdistinct : (l.map AdStructure.type).Nodup)
    (hfits : (l.flatMap AdStructure.encode).length ≤ 31) :
    (∃ data reports, build (l.map AdStructure.arguments) = .ok data ∧ inspectReports data = some reports ∧
      reports.length = l.length ∧ ∀ s ∈ l, hashGet reports (reportKey s.type.toNat) = some s.value) ∧
    ∀ data, ∃ reports, inspectReports data = some reports ∧ ∀ report ∈ reports, Inside data report := by
  have hkeys : ((l.map AdStructure.report).map Prod.fst).Nodup := by
    have hmap : (l.map AdStructure.report).map Prod.fst =
        (l.map AdStructure.type).map (fun type => reportKey type.toNat) := by simp [AdStructure.report]
    rw [hmap]
    have hinj : Function.Injective fun type : UInt8 => reportKey type.toNat :=
      fun a b h => UInt8.toNat.inj (reportKey_injective h)
    exact List.Nodup.map hinj hdistinct
  have hread : inspectReports (l.flatMap AdStructure.encode) = some (l.map AdStructure.report) :=
    inspectLoop_structures [] [] rfl (value_length_lt hfits) hkeys
      (Nat.lt_succ_of_le length_le_flatMap_encode)
  refine ⟨⟨_, _, build_ok hfits, hread, by simp, ?_⟩, inspectReports_inside⟩
  intro s hs
  exact hashGet_of_mem hkeys (List.mem_map_of_mem hs)

/-- The flags, the name and the service of a sensor. -/
def sensorStructures : List AdStructure :=
  [⟨0x01, [.int 0x06], by simp, by simp [Field.Valid]⟩,
    ⟨0x09, [.str [0x50, 0x69, 0x63, 0x6F]], by simp, by simp [Field.Valid]⟩,
    ⟨0x03, [.int 0x181A], by simp, by simp [Field.Valid]⟩]

theorem advertising_round_trip_sensor :
    ∃ data reports, build (sensorStructures.map AdStructure.arguments) = .ok data ∧
      inspectReports data = some reports ∧ hashGet reports (.event .completeLocalName) = some [0x50, 0x69, 0x63, 0x6F] ∧
      hashGet reports (.event .completeList16BitServiceClassUuids) = some [0x1A, 0x18] := by
  have hfits : (sensorStructures.flatMap AdStructure.encode).length ≤ 31 := by
    simp [sensorStructures, AdStructure.encode, AdStructure.value, Field.bytes]
  obtain ⟨⟨data, reports, hbuild, hread, _, hget⟩, _⟩ :=
    advertising_round_trip sensorStructures (by decide) hfits
  refine ⟨data, reports, hbuild, hread, ?_, ?_⟩
  · exact hget ⟨0x09, [.str [0x50, 0x69, 0x63, 0x6F]], by simp, by simp [Field.Valid]⟩ (by simp [sensorStructures])
  · have hservice := hget ⟨0x03, [.int 0x181A], by simp, by simp [Field.Valid]⟩ (by simp [sensorStructures])
    have hkey : reportKey 3 = .event .completeList16BitServiceClassUuids := rfl
    simpa [AdStructure.value, Field.bytes, hkey] using hservice

end PicoRuby.Ble
