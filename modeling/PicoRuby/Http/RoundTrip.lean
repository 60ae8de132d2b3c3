import Mathlib.Data.List.Nodup
import PicoRuby.Http.Response

/-!
# Reading a response

What `format_response` makes of a response that is written as HTTP/1.1 says: the status and the names are as they
were, a value is cut off at its first colon and stripped, and the body loses the line ends behind its last line.
-/

namespace PicoRuby.Http

open Shared

set_option autoImplicit false

/-! ## Responses -/

/-- What may stand in a line. -/
def IsLine (s : Bytes) : Prop := cr ∉ s ∧ lf ∉ s

def crlf : Bytes := [cr, lf]

structure Response where
  status : Nat
  reason : Bytes
  headers : List (Bytes × Bytes)
  body : Bytes
  status_lt : status < 1000
  reason_isLine : IsLine reason
  names_isLine : ∀ h ∈ headers, IsLine h.1 ∧ colon ∉ h.1
  values_isLine : ∀ h ∈ headers, IsLine h.2
  values_bare : ∀ h ∈ headers, h.2.head? ≠ some space ∧ h.2.getLast? ≠ some space
  distinct : (headers.map Prod.fst).Nodup

def digit (d : Nat) : UInt8 := UInt8.ofNat (0x30 + d)

/-- The three digits of a status code. -/
def statusCode (status : Nat) : Bytes := [digit (status / 100), digit (status / 10 % 10), digit (status % 10)]

def headerLine (header : Bytes × Bytes) : Bytes := header.1 ++ colon :: space :: header.2

namespace Response

def statusLine (r : Response) : Bytes := ascii "HTTP/1.1 " ++ statusCode r.status ++ space :: r.reason

/-- The lines in front of the body. -/
def head (r : Response) : List Bytes := r.statusLine :: r.headers.map headerLine

def text (r : Response) : Bytes := (r.head ++ [[]]).flatMap (· ++ crlf) ++ r.body

end Response

/-! ## The status -/

section Status
variable {c : UInt8} {s word : Bytes} {status d : Nat}

theorem isDigit_digit (h : d < 10) : isDigit (digit d) = true ∧ (digit d).toNat - 0x30 = d := by
  have hall : ∀ d : Fin 10, isDigit (digit d) = true ∧ (digit d).toNat - 0x30 = d := by decide
  exact hall ⟨d, h⟩

theorem isBlank_of_isDigit (h : isDigit c = true) : isBlank c = false := by
  simp [isDigit, isBlank, space, UInt8.le_iff_toNat_le, ← UInt8.toNat_inj] at h ⊢
  omega

theorem words_word (hword : ∀ c ∈ s, isBlank c = false) (hne : word ++ s ≠ []) (rest : Bytes) :
    words (s ++ space :: rest) word = (word ++ s) :: words rest [] := by
  induction s generalizing word with
  | nil =>
    rw [List.append_nil] at hne ⊢
    simp [words, isBlank, hne]
  | cons c s ih =>
    rw [List.forall_mem_cons] at hword
    rw [List.cons_append, words, hword.1, if_neg Bool.false_ne_true, ih hword.2 (by simp), List.append_assoc]
    rfl

/-- A number that begins with a digit is read from there. -/
theorem toI_digit (h : isDigit c = true) : toI (c :: s) = digits 0 (c :: s) := by
  have hblank := isBlank_of_isDigit h
  unfold toI
  rw [List.dropWhile_cons_of_neg (by simp [hblank])]
  split
  · rename_i heq
    cases heq
    exact absurd h (by decide)
  · rename_i heq
    cases heq
    exact absurd h (by decide)
  · simp [unsigned, h]

theorem toI_statusCode (h : status < 1000) : toI (statusCode status) = status := by
  obtain ⟨hdigit₁, hval₁⟩ := isDigit_digit (d := status / 100) (by omega)
  obtain ⟨hdigit₂, hval₂⟩ := isDigit_digit (d := status / 10 % 10) (by omega)
  obtain ⟨hdigit₃, hval₃⟩ := isDigit_digit (d := status % 10) (by omega)
  unfold statusCode
  rw [toI_digit hdigit₁]
  simp only [digits, hdigit₁, hdigit₂, hdigit₃, hval₁, hval₂, hval₃, if_true]
  omega

theorem statusCode_digits (h : status < 1000) : ∀ c ∈ statusCode status, isBlank c = false := by
  unfold statusCode
  simp only [List.forall_mem_cons]
  exact ⟨isBlank_of_isDigit (isDigit_digit (by omega)).1, isBlank_of_isDigit (isDigit_digit (by omega)).1,
    isBlank_of_isDigit (isDigit_digit (by omega)).1, List.forall_mem_nil _⟩

theorem words_statusLine (r : Response) : (words r.statusLine [])[1]? = some (statusCode r.status) := by
  have hversion : r.statusLine = ascii "HTTP/1.1" ++ space :: (statusCode r.status ++ space :: r.reason) := by
    unfold Response.statusLine
    rw [List.append_assoc]
    rfl
  have hname : ∀ c ∈ ascii "HTTP/1.1", isBlank c = false := by
    have hall : (ascii "HTTP/1.1").all (fun c => !isBlank c) = true := by decide
    intro c hc
    simpa using List.all_eq_true.mp hall c hc
  rw [hversion, words_word hname (by decide),
    words_word (statusCode_digits r.status_lt) (by simp [statusCode])]
  rfl

end Status

/-! ## Headers -/

/-- The part of a value that `format_response` keeps. -/
def keptValue (value : Bytes) : Bytes := strip (value.takeWhile (· != colon))

section Headers
variable {header : Bytes × Bytes} {value : Bytes} {rest : List Bytes} {headers : List (Bytes × Bytes)}
  {s : Loop}

theorem fields_headerLine (h : colon ∉ header.1) : (fields colon (headerLine header))[0]? = some header.1 ∧
    (fields colon (headerLine header))[1]? = some (space :: header.2.takeWhile (· != colon)) := by
  obtain ⟨more, hsplit⟩ := exists_splitOn_cons colon (space :: header.2)
  rw [List.takeWhile_cons_of_pos (by decide)] at hsplit
  unfold fields headerLine
  rw [List.splitOn_append_cons_self_of_not_mem h, hsplit, rdropWhile_cons, rdropWhile_cons]
  simp

theorem strip_space : strip (space :: value) = strip value := rfl

theorem strip_length_le : (strip value).length ≤ value.length := by
  unfold strip
  exact Nat.le_trans (List.rdropWhile_prefix _ _).length_le (List.dropWhile_suffix _).length_le

/-- A value is kept whole just if it has no colon and there is nothing to strip. -/
theorem keptValue_eq_iff : keptValue value = value ↔ colon ∉ value ∧ strip value = value := by
  have htake : colon ∉ value → value.takeWhile (· != colon) = value := by
    intro hnone
    rw [List.takeWhile_eq_self_iff]
    intro c hc
    simpa using fun heq : c = colon => hnone (heq ▸ hc)
  constructor
  · intro h
    have hpre : value.takeWhile (· != colon) <+: value := List.takeWhile_prefix _
    have hle : value.length ≤ (value.takeWhile (· != colon)).length := by
      calc value.length = (keptValue value).length := by rw [h]
        _ ≤ _ := strip_length_le
    have hall := hpre.eq_of_length (Nat.le_antisymm hpre.length_le hle)
    rw [keptValue, hall] at h
    refine ⟨fun hmem => ?_, h⟩
    rw [List.takeWhile_eq_self_iff] at hall
    simpa using hall colon hmem
  · rintro ⟨hnone, hstrip⟩
    rw [keptValue, htake hnone, hstrip]

theorem headerLine_ne_nil : headerLine header ≠ [] := by simp [headerLine]

/-- The rounds over the header lines. -/
theorem formatLoop_headers (rest : List Bytes) (hnumber : s.lineNumber ≠ 0) (hstarted : s.bodyStarted = false)
    (hnames : ∀ h ∈ headers, colon ∉ h.1)
    (hkeys : (s.formatted.headers.map Prod.fst ++ headers.map fun h => some h.1).Nodup) :
    ∃ lineNumber, lineNumber ≠ 0 ∧ formatLoop (headers.map headerLine ++ rest) s = formatLoop rest
      ⟨lineNumber, { s.formatted with
        headers := s.formatted.headers ++ headers.map fun h => (some h.1, some (keptValue h.2)) }, false⟩ := by
  induction headers generalizing s with
  | nil =>
    refine ⟨s.lineNumber, hnumber, ?_⟩
    obtain ⟨lineNumber, formatted, bodyStarted⟩ := s
    simp_all
  | cons header headers ih =>
    rw [List.forall_mem_cons] at hnames
    obtain ⟨hname, hvalue⟩ := fields_headerLine hnames.1
    have hnew : some header.1 ∉ s.formatted.headers.map Prod.fst := by
      intro hmem
      exact (List.nodup_append.mp hkeys).2.2 _ hmem _ (by simp) rfl
    have hround : s.round (headerLine header) (headers.map headerLine ++ rest) = ⟨s.lineNumber + 1,
        { s.formatted with headers := s.formatted.headers ++ [(some header.1, some (keptValue header.2))] }, false⟩ := by
      unfold Loop.round
      dsimp only
      rw [if_neg hnumber, if_pos hstarted, if_neg (by simp [headerLine_ne_nil]), hname, hvalue, Option.map_some,
        strip_space, hashSet_of_not_mem hnew, hstarted]
      rfl
    obtain ⟨lineNumber, hne, hloop⟩ := ih (s := ⟨s.lineNumber + 1, { s.formatted with
      headers := s.formatted.headers ++ [(some header.1, some (keptValue header.2))] }, false⟩)
      (Nat.succ_ne_zero _) rfl hnames.2 (by simpa using hkeys)
    refine ⟨lineNumber, hne, ?_⟩
    rw [List.map_cons, List.cons_append, formatLoop, hround, hloop]
    simp

end Headers

/-! ## The body -/

section Body
variable {lines : List Bytes} {s : Loop} {r : Response}

/-- The rounds over the lines of the body put them together again. -/
theorem formatLoop_body (hnumber : s.lineNumber ≠ 0) (hstarted : s.bodyStarted = true) :
    (formatLoop lines s).formatted =
      { s.formatted with body := s.formatted.body ++ joinPair cr lf lines } := by
  induction lines generalizing s with
  | nil => simp [formatLoop, joinPair]
  | cons line lines ih =>
    rw [formatLoop, ih]
    · cases lines with
      | nil => simp [Loop.round, hnumber, hstarted, joinPair]
      | cons line' lines => simp [Loop.round, hnumber, hstarted, joinPair]
    · unfold Loop.round
      simp [hnumber, hstarted]
    · unfold Loop.round
      simp [hnumber, hstarted]

theorem cr_not_mem_head (r : Response) : ∀ line ∈ r.head, cr ∉ line := by
  unfold Response.head
  rw [List.forall_mem_cons, List.forall_mem_map]
  constructor
  · have hversion : cr ∉ ascii "HTTP/1.1 " := by decide
    have hcode : cr ∉ statusCode r.status := fun hmem => absurd (statusCode_digits r.status_lt cr hmem) (by decide)
    have hspace : cr ≠ space := by decide
    simp [Response.statusLine, hversion, hcode, hspace, r.reason_isLine.1]
  · intro h hh
    have hcolon : cr ≠ colon := by decide
    have hspace : cr ≠ space := by decide
    simp [headerLine, (r.names_isLine h hh).1.1, (r.values_isLine h hh).1, hcolon, hspace]

theorem splitLines_text (r : Response) :
    splitLines r.text = r.head ++ ([] :: splitPair cr lf r.body).rdropWhile (· = []) := by
  have hlines : ∀ line ∈ r.head ++ [[]], cr ∉ line := by
    intro line hline
    rcases List.mem_append.mp hline with hhead | hblank
    · exact cr_not_mem_head r line hhead
    · rw [List.mem_singleton.mp hblank]
      exact List.not_mem_nil
  have hne : ∀ line ∈ r.head, ¬ decide (line = []) := by
    unfold Response.head
    rw [List.forall_mem_cons, List.forall_mem_map]
    exact ⟨by simp [Response.statusLine], fun h _ => by simp [headerLine_ne_nil]⟩
  unfold splitLines Response.text crlf
  rw [splitPair_lines hlines, List.append_assoc, rdropWhile_append hne]
  rfl

/-- Whatever stands in a response, this is what is returned for it. -/
theorem formatResponse_text (r : Response) : formatResponse (some r.text) = some ⟨r.status,
    r.headers.map fun h => (some h.1, some (keptValue h.2)),
    joinPair cr lf ((splitPair cr lf r.body).rdropWhile (· = []))⟩ := by
  have hstatus : (Loop.mk 0 ⟨0, [], []⟩ false).round r.statusLine
      (r.headers.map headerLine ++ ([] :: splitPair cr lf r.body).rdropWhile (· = [])) =
        ⟨1, ⟨r.status, [], []⟩, false⟩ := by
    unfold Loop.round
    simp [words_statusLine, toI_statusCode r.status_lt]
  have hkeys : (r.headers.map fun h => some h.1).Nodup := by
    have hmap := List.Nodup.map (fun _ _ h => Option.some.inj h) r.distinct
    rwa [List.map_map] at hmap
  obtain ⟨lineNumber, hnumber, hloop⟩ := formatLoop_headers
    (([] :: splitPair cr lf r.body).rdropWhile (· = [])) (s := ⟨1, ⟨r.status, [], []⟩, false⟩)
    Nat.one_ne_zero rfl (fun h hh => (r.names_isLine h hh).2) hkeys
  unfold formatResponse
  rw [Option.map_some, splitLines_text, Response.head, List.cons_append, formatLoop, hstatus, hloop, rdropWhile_cons]
  split
  · rename_i hempty
    rw [hempty.1]
    rfl
  · rw [formatLoop, formatLoop_body]
    · simp [Loop.round, hnumber]
    · simp [Loop.round, hnumber]
    · simp [Loop.round, hnumber]

end Body

/-- **HTTP responses.** A response comes back as it was written just if no value of a header has a colon or
something to strip, and the body does not end with a line end. -/
theorem formatResponse_iff (r : Response) :
    formatResponse (some r.text) = some ⟨r.status, r.headers.map fun h => (some h.1, some h.2), r.body⟩ ↔
      (∀ h ∈ r.headers, colon ∉ h.2 ∧ strip h.2 = h.2) ∧ ¬ crlf <:+ r.body := by
  have hbody := joinPair_rdropWhile_iff (s := r.body) (show cr ≠ lf by decide)
  have hheaders : (r.headers.map fun h => (some h.1, some (keptValue h.2))) =
      (r.headers.map fun h => (some h.1, some h.2)) ↔ ∀ h ∈ r.headers, colon ∉ h.2 ∧ strip h.2 = h.2 := by
    simp [← keptValue_eq_iff]
  rw [formatResponse_text, Option.some.injEq, Formatted.mk.injEq, hheaders, hbody]
  simp [crlf]

/-- A response with a time, whose body ends with a line end. -/
def dateResponse : Response where
  status := 200
  reason := ascii "OK"
  headers := [(ascii "Date", ascii "10:30")]
  body := ascii "ok\x0d\x0a"
  status_lt := by decide
  reason_isLine := ⟨by decide, by decide⟩
  names_isLine := by
    rw [List.forall_mem_singleton]
    exact ⟨⟨by decide, by decide⟩, by decide⟩
  values_isLine := by
    rw [List.forall_mem_singleton]
    exact ⟨by decide, by decide⟩
  values_bare := by
    rw [List.forall_mem_singleton]
    exact ⟨by decide, by decide⟩
  distinct := List.nodup_singleton _

/-- The time loses its minutes, and the body its line end. -/
theorem date_cut_off :
    dateResponse.text = ascii "HTTP/1.1 200 OK\x0d\x0aDate: 10:30\x0d\x0a\x0d\x0aok\x0d\x0a" ∧
    formatResponse (some dateResponse.text) = some ⟨200, [(some (ascii "Date"), some (ascii "10"))], ascii "ok"⟩ ∧
    formatResponse (some dateResponse.text) ≠ some ⟨dateResponse.status,
      dateResponse.headers.map fun h => (some h.1, some h.2), dateResponse.body⟩ := by
  have hresult : formatResponse (some dateResponse.text) =
      some ⟨200, [(some (ascii "Date"), some (ascii "10"))], ascii "ok"⟩ := by decide +kernel
  refine ⟨by decide +kernel, hresult, ?_⟩
  rw [hresult]
  decide

end PicoRuby.Http
