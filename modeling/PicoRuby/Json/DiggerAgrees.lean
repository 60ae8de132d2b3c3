import PicoRuby.Json.DiggerScan
import PicoRuby.Json.Denotation

/-!
# The Digger against the parser

`dig` followed by `parse` gives the value at the end of the path, and raises where the path
leaves the value, as long as the texts it meets do not throw the scanner off. Each round of
`dig` leaves the text of one value with something behind it that the parser does not read.
-/

namespace PicoRuby.Json

open Shared

set_option autoImplicit false

/-- One key of a path: an index from zero on, or a String. -/
inductive Step where
  | index (n : Nat)
  | name (k : Text)
deriving DecidableEq

def Step.key : Step → DigKey
  | index n => .index n
  | name k => .name k

section Path
variable {F : Type}

/-- The value at the end of the path, if the path exists in `v`. -/
def valueAt : Value F → List Step → Option (Value F)
  | v, [] => some v
  | .array l, .index n :: path => l[n]?.bind fun v => valueAt v path
  | .object l, .name k :: path => (hashGet l k).bind fun v => valueAt v path
  | _, _ => none

/-- Digging along the path and parsing the result is the same as parsing everything and
following the path. -/
def Agrees (F : Type) [FloatArith F] (s : Text) (path : List Step) : Prop :=
  ∀ v : Value F, parseText s = .ok v →
    (∀ w, valueAt v path = some w → ∃ j, dig s (path.map Step.key) = .ok j ∧ parseText j = .ok w) ∧
    (valueAt v path = none → ∃ e, dig s (path.map Step.key) = .error e ∧ e.isJson = true)

end Path

/-! ## Paths the scanner can follow -/

def Elems.get? : Elems → Nat → Option Doc
  | .last _ d _, 0 => some d
  | .last _ _ _, _ + 1 => none
  | .cons _ d _ _, 0 => some d
  | .cons _ _ _ rest, n + 1 => rest.get? n

/-- The value of the first member whose name is written like `k`. -/
def Members.first : Members → Text → Option Doc
  | .last name d _, k => if name.key.render = k then some d else none
  | .cons name d _ _ rest, k => if name.key.render = k then some d else rest.first k

/-- The comma behind the value is counted: `:object` is not what the value left on top. -/
def Doc.Counts (d : Doc) : Prop := d.leftover.head? ≠ some .object

/-- There is an element `n`, and the elements up to it are passed over and counted. -/
def Elems.Reaches : Elems → Nat → Prop
  | .last _ d after, n => n = 0 ∧ d.Skips ∧ after = []
  | .cons _ d after _, 0 => d.Skips ∧ after = [] ∧ d.Counts
  | .cons _ d after rest, n + 1 => d.Skips ∧ after = [] ∧ d.Counts ∧ rest.Reaches n

/-- The members up to the one called `k` are passed over, their names match `k` as they are
written if and only if they do unescaped, and `k` is not repeated. -/
def Members.Reaches : Members → Text → Prop
  | .last name d _, k => (name.key.render = k ↔ name.key.denote = k) ∧ d.Skips
  | .cons name d _ _ rest, k => (name.key.render = k ↔ name.key.denote = k) ∧ d.Skips ∧
      if name.key.render = k then k ∉ rest.names else rest.Reaches k

/-- Each round of `dig` along the path reaches what the key asks for. -/
def Doc.Diggable : Doc → List Step → Prop
  | _, [] => True
  | .emptyArray _, .index _ :: _ => False
  | .array es, .index n :: path => es.Reaches n ∧ ∀ d ∈ es.get? n, d.Diggable path
  | .object _ _ ms, .name k :: path => ms.Reaches k ∧ ∀ d ∈ ms.first k, d.Diggable path
  | _, _ :: _ => True

section Lookup
variable {F : Type} [FloatArith F]

theorem Elems.values_get (es : Elems) (n : Nat) :
    (es.values : List (Value F))[n]? = (es.get? n).map Doc.value := by
  match es, n with
  | .last _ d _, 0 => rw [Elems.values]; rfl
  | .last _ d _, n + 1 => rw [Elems.values]; rfl
  | .cons _ d _ rest, 0 => rw [Elems.values]; rfl
  | .cons _ d _ rest, n + 1 =>
    rw [Elems.values, List.getElem?_cons_succ, Elems.values_get rest n]
    rfl

theorem Elems.Reaches.get? {es : Elems} {n : Nat} (h : es.Reaches n) :
    ∃ d, es.get? n = some d ∧ d.Skips := by
  match es, n with
  | .last _ d _, 0 => exact ⟨d, rfl, h.2.1⟩
  | .last _ d _, n + 1 => exact absurd h.1 (by omega)
  | .cons _ d _ rest, 0 => exact ⟨d, rfl, h.1⟩
  | .cons _ d _ rest, n + 1 => exact @Elems.Reaches.get? rest n h.2.2.2

/-- The first member written like `k` is the one the parser keeps under `k`. -/
theorem Members.Reaches.lastValue_eq {ms : Members} {k : Text} (h : ms.Reaches k) :
    lastValue (ms.pairs : List (Text × Value F)) k = (ms.first k).map Doc.value := by
  match ms with
  | .last name d _ =>
    rw [Members.pairs, lastValue, Members.first]
    by_cases hk : name.key.render = k
    · rw [if_pos (h.1.mp hk), if_pos hk]
      rfl
    · rw [if_neg fun hd => hk (h.1.mpr hd), if_neg hk]
      rfl
  | .cons name d _ _ rest =>
    obtain ⟨hwritten, _, hrest⟩ := h
    rw [Members.pairs, lastValue, Members.first]
    by_cases hk : name.key.render = k
    · rw [if_pos hk] at hrest
      have hlast : k ∉ (rest.pairs : List (Text × Value F)).map Prod.fst := by
        rwa [Members.pairs_keys]
      rw [lastValue_eq_none hlast, if_pos (hwritten.mp hk), if_pos hk]
      rfl
    · rw [if_neg hk] at hrest
      rw [if_neg fun hd => hk (hwritten.mpr hd), if_neg hk, Option.or_none]
      exact Members.Reaches.lastValue_eq hrest

theorem Members.Reaches.lookup {ms : Members} {k : Text} (h : ms.Reaches k) :
    hashGet (ms.addTo ([] : List (Text × Value F))) k = (ms.first k).map Doc.value := by
  rw [Members.addTo_eq, hashGet_storeInto, h.lastValue_eq]
  exact Option.or_none

end Lookup

/-! ## One round of dig -/

theorem startsValue_not_stripped {c : Char} (h : startsValue c = true) : isStripped c = false := by
  have hnull := startsValue_ne h (x := '\x00') rfl
  have hvt := startsValue_ne h (x := '\x0b') rfl
  have hff := startsValue_ne h (x := '\x0c') rfl
  simp [isStripped, hnull, hvt, hff, startsValue_not_blank h]

theorem numberPart_not_stripped {c : Char} (h : isNumberPart c = true) : isStripped c = false := by
  have hne : ∀ x, isNumberPart x = false → c ≠ x := by
    rintro x hx rfl
    rw [h] at hx
    cases hx
  have hnull := hne '\x00' rfl
  have hvt := hne '\x0b' rfl
  have hff := hne '\x0c' rfl
  have hspace := hne ' ' rfl
  have htab := hne '\t' rfl
  have hnewline := hne '\n' rfl
  have hreturn := hne '\r' rfl
  simp [isStripped, isWhitespace, hnull, hvt, hff, hspace, htab, hnewline, hreturn]

/-- A value that is passed over ends with a character that `strip!` keeps. -/
theorem Doc.last (d : Doc) (hs : d.Skips) :
    ∃ t c, d.render = t ++ [c] ∧ isStripped c = false := by
  cases d with
  | null => exact ⟨"nul".toList, 'l', by rw [Doc.render]; rfl, rfl⟩
  | bool b =>
    cases b with
    | true => exact ⟨"tru".toList, 'e', by rw [Doc.render]; rfl, rfl⟩
    | false => exact ⟨"fals".toList, 'e', by rw [Doc.render]; rfl, rfl⟩
  | number n =>
    obtain ⟨c, t, hc, _⟩ := n.head
    have hne : n.render ≠ [] := by simp [hc]
    exact ⟨n.render.dropLast, n.render.getLast hne,
      by rw [Doc.render, List.dropLast_append_getLast hne],
      numberPart_not_stripped (n.parts hs _ (List.getLast_mem hne))⟩
  | string lit => exact ⟨'"' :: lit.render, '"', by rw [Doc.render]; rfl, rfl⟩
  | emptyArray inner => exact ⟨'[' :: inner.render, ']', by rw [Doc.render]; rfl, rfl⟩
  | array es => exact ⟨'[' :: (es.before.render ++ es.body), ']', by simp [Doc.render], rfl⟩
  | emptyObject inner => exact ⟨'{' :: inner.render, '}', by rw [Doc.render]; rfl, rfl⟩
  | object opening hopen ms =>
    exact ⟨'{' :: (ms.before.render ++ opening.char :: ms.body), '}', by simp [Doc.render], rfl⟩

theorem strip_eq {w : Ws} {t : Text} {c : Char} (hhead : ∀ a ∈ (t ++ [c]).head?, isStripped a = false)
    (hlast : isStripped c = false) : strip (w.render ++ (t ++ [c])) = t ++ [c] := by
  have hws : ∀ a ∈ w.render, isStripped a = true := by
    intro a ha
    simp [isStripped, w.whitespace a ha]
  have hdrop : (w.render ++ (t ++ [c])).dropWhile isStripped = t ++ [c] := by
    rw [List.dropWhile_append_of_pos hws]
    cases hsplit : t ++ [c] with
    | nil => rfl
    | cons a l =>
      rw [hsplit] at hhead
      rw [List.dropWhile_cons_of_neg]
      simp [hhead a rfl]
  rw [strip, hdrop, List.rdropWhile_concat_neg _ _ _ (by simp [hlast])]

section Search
variable {json rest : Text} {w : Ws} {s : Scan} {fuel : Nat} {d' : Doc}

/-- The indices of the scan enclose the value, with white space in front of it. -/
def Scan.Encloses (s : Scan) (json : Text) (d : Doc) : Prop :=
  ∃ (w : Ws) (t : Text), At json s.startIndex (w.render ++ (d.render ++ t)) ∧
    s.index = s.startIndex + w.render.length + d.render.length

/-- The member looked for: its value is passed over, from behind the colon on. -/
theorem member_found {name : Name} {d : Doc} {t : Text} (hq : d.Quoted) (hs : d.Skips)
    (h : At json s.index (w.render ++ '"' :: (name.body ++ (d.render ++ t)))) (ht : Delimited t)
    (hfuel : 3 * d.render.length ≤ fuel) :
    ∃ sc, objectScan (fuel + 1) json (some name.key.render) s = .ok sc ∧ sc.Encloses json d := by
  obtain ⟨j, k, hname, hcolon, hk, _⟩ := name.dig_eq h
  obtain ⟨c₀, hc₀, hopen⟩ : ∃ c₀, json[s.index]? = some c₀ ∧ c₀ ≠ '}' := by
    cases w with
    | nil => exact ⟨'"', h.get_cons, by decide⟩
    | cons b w => exact ⟨b.char, h.get_cons, by cases b <;> decide⟩
  have hscan := d.scan_eq hq hs fuel { s with index := k, startIndex := k } hk ht hfuel
  refine ⟨Scan.past ⟨k, k, s.stack⟩ (k + name.afterColon.render.length + d.render.length) d.leftover,
    ?_, name.afterColon, t, hk, rfl⟩
  rw [objectScan, hc₀]
  dsimp only
  rw [if_neg hopen, decide_eq_false hopen, Bool.false_and, if_neg Bool.false_ne_true, hname]
  dsimp only [bind, Except.bind]
  rw [show (s.goTo j).index = j from rfl, hcolon]
  dsimp only
  rw [if_pos (by simp)]
  exact hscan

theorem Members.Reaches.dig_eq {ms : Members} {k : Text} {w : Ws} {fuel : Nat}
    (hr : ms.Reaches k) (hq : ms.Quoted) (hfirst : ms.first k = some d') (s : Scan)
    (h : At json s.index (w.render ++ '"' :: (ms.body ++ '}' :: rest)))
    (hfuel : 3 * ms.body.length + 1 ≤ fuel) :
    ∃ sc, objectScan fuel json (some k) s = .ok sc ∧ sc.Encloses json d' := by
  obtain ⟨fuel, rfl⟩ : ∃ f, fuel = f + 1 := ⟨fuel - 1, by omega⟩
  cases ms with
  | last name d after =>
    rw [Members.body, List.append_assoc, List.append_assoc] at h
    rw [Members.body] at hfuel
    simp only [List.length_append] at hfuel
    rw [Members.first] at hfirst
    split at hfirst
    · rename_i hk
      cases hfirst
      rw [← hk]
      exact member_found hq.2 hr.2 h (Delimited.of_ws (Delimited.cons rfl)) (by omega)
    · cases hfirst
  | cons name d after opening more =>
    obtain ⟨_, hqd, hopen, hqmore⟩ := hq
    obtain ⟨_, hsd, hrest⟩ := hr
    rw [Members.body, hopen, List.append_assoc, List.append_assoc, List.append_assoc,
      List.cons_append, List.append_assoc, List.cons_append] at h
    rw [Members.body] at hfuel
    simp only [List.length_append, List.length_cons] at hfuel
    have hdelim : Delimited (after.render ++
        ',' :: (more.before.render ++ '"' :: (more.body ++ '}' :: rest))) :=
      Delimited.of_ws (Delimited.cons rfl)
    rw [Members.first] at hfirst
    by_cases hk : name.key.render = k
    · rw [if_pos hk] at hfirst
      cases hfirst
      rw [← hk]
      exact member_found hqd hsd h hdelim (by omega)
    · rw [if_neg hk] at hfirst hrest
      have hne : some k ≠ some name.key.render := fun heq => hk (Option.some.inj heq).symm
      have hnext := h.move.next.move.move.move.next.move
      rw [member_next hne h fun i hi hindex =>
        Doc.scan_member hqd hsd hi hdelim hindex (by omega)]
      exact Members.Reaches.dig_eq (w := []) hrest hqmore hfirst _ hnext (by omega)

/-- What stands behind an element: the bracket that closes the array, or a comma. -/
def Scan.EnclosesElement (s : Scan) (json : Text) (d : Doc) : Prop :=
  ∃ (w : Ws) (c : Char) (t : Text), (c = ',' ∨ c = ']') ∧
    At json s.startIndex (w.render ++ (d.render ++ c :: t)) ∧
    s.index = s.startIndex + w.render.length + d.render.length + 1

/-- With `:array` on top of the stack a comma ends the element looked for, or the next one
starts. -/
theorem arrayScan_counted {pos current : Nat} (hc : json[s.index]? = some ',')
    (htop : s.top = some .array) :
    arrayScan (fuel + 1) json (some pos) current s =
      if pos = current then .ok (s.goTo (s.index + 1)).popStack
      else arrayScan fuel json (some pos) (current + 1)
        ⟨s.index + 1, s.index + 1, s.stack⟩ := by
  have htop' : (s.goTo (s.index + 1)).top = some .array := htop
  rw [arrayScan, hc]
  simp only [htop', Option.isSome_some, Bool.and_self, decide_true, if_true, Option.some.injEq]
  rfl

theorem Doc.Counts.top {d : Doc} {i : Nat} (hd : d.Counts) (hs : s.top = some .array) :
    (s.past i d.leftover).top = some .array := by
  cases hleft : d.leftover with
  | nil => exact hs
  | cons c l =>
    cases c with
    | array => rfl
    | object => exact absurd (by rw [hleft]; rfl) hd

theorem Elems.Reaches.dig_eq {es : Elems} {n : Nat} {w : Ws} {fuel : Nat} (hr : es.Reaches n)
    (hq : es.Quoted) (hget : es.get? n = some d') (current : Nat) (s : Scan)
    (h : At json s.index (w.render ++ (es.body ++ ']' :: rest))) (hstart : s.startIndex = s.index)
    (htop : s.top = some .array) (hfuel : 3 * es.body.length + 3 ≤ fuel) :
    ∃ sc, arrayScan fuel json (some (current + n)) current s = .ok sc ∧
      sc.EnclosesElement json d' := by
  obtain ⟨fuel, rfl⟩ : ∃ f, fuel = f + 2 := ⟨fuel - 2, by omega⟩
  match es, n with
  | .last before d after, n =>
    obtain ⟨rfl, hs, rfl⟩ := hr
    cases hget
    rw [Elems.body, List.append_assoc] at h
    rw [Elems.body, List.length_append] at hfuel
    have hvalue := d'.scan_eq hq hs (fuel + 1) s h (Delimited.cons rfl) (by omega)
    have hclose := h.move.move
    rw [arrayScan_element h hvalue, arrayScan_close hclose.get_cons]
    refine ⟨_, rfl, w, ']', rest, Or.inr rfl, ?_, ?_⟩
    · rw [show (Scan.goTo (s.past _ _) _).startIndex = s.index from hstart]
      exact h
    · change s.index + w.render.length + d'.render.length + 1 = s.startIndex + _ + _ + 1
      rw [hstart]
  | .cons before d after more, 0 =>
    obtain ⟨hs, rfl, hcounts⟩ := hr
    cases hget
    rw [Elems.body, List.append_assoc, List.append_assoc] at h
    rw [Elems.body] at hfuel
    simp only [List.length_append, List.length_cons] at hfuel
    have hvalue := d'.scan_eq hq.1 hs (fuel + 1) s h (Delimited.cons rfl) (by omega)
    have hcomma := h.move.move
    rw [arrayScan_element h hvalue, arrayScan_counted hcomma.get_cons (hcounts.top htop),
      if_pos (Nat.add_zero _)]
    refine ⟨_, rfl, w, ',', more.before.render ++ more.body ++ ']' :: rest, Or.inl rfl, ?_, ?_⟩
    · rw [show (Scan.popStack (Scan.goTo (s.past _ _) _)).startIndex = s.index from hstart]
      exact h
    · change s.index + w.render.length + d'.render.length + 1 = s.startIndex + _ + _ + 1
      rw [hstart]
  | .cons before d after more, n + 1 =>
    obtain ⟨hs, rfl, hcounts, hmore⟩ := hr
    rw [Elems.body, List.append_assoc, List.append_assoc, List.cons_append, List.append_assoc] at h
    rw [Elems.body] at hfuel
    simp only [List.length_append, List.length_cons] at hfuel
    have hvalue := d.scan_eq hq.1 hs (fuel + 1) s h (Delimited.cons rfl) (by omega)
    have hcomma := h.move.move
    have hnext := hcomma.next
    rw [arrayScan_element h hvalue, arrayScan_counted hcomma.get_cons (hcounts.top htop),
      if_neg (by omega), show current + (n + 1) = current + 1 + n by omega]
    exact Elems.Reaches.dig_eq hmore hq.2 hget (current + 1) _ hnext rfl (hcounts.top (i := 0) htop)
      (by omega)

end Search

/-! ## The whole path -/

section Dig
variable {rest : Text} {d d' : Doc}

theorem cut_eq {json : Text} {s : Scan} (h : s.Encloses json d) (hs : d.Skips) :
    cut json s = d.render := by
  obtain ⟨w, t, hat, hindex⟩ := h
  obtain ⟨l, c, hc, hlast⟩ := d.last hs
  have hslice : slice json s.startIndex s.index = w.render ++ d.render := by
    rw [← List.append_assoc] at hat
    rw [hindex, Nat.add_assoc, ← List.length_append]
    exact hat.slice
  rw [cut, hslice, hc]
  refine strip_eq ?_ hlast
  obtain ⟨a, l', ha, hstart⟩ := d.head
  rw [← hc, ha]
  rintro _ ⟨⟩
  exact startsValue_not_stripped hstart

theorem cut_element_eq {json : Text} {s : Scan} (h : s.EnclosesElement json d) :
    ∃ c, (c = ',' ∨ c = ']') ∧ cut json s = d.render ++ [c] := by
  obtain ⟨w, c, t, hc, hat, hindex⟩ := h
  have hslice : slice json s.startIndex s.index = w.render ++ (d.render ++ [c]) := by
    have hat' : At json s.startIndex ((w.render ++ (d.render ++ [c])) ++ t) := by
      simpa using hat
    have hlen : s.index = s.startIndex + (w.render ++ (d.render ++ [c])).length := by
      simp only [List.length_append, List.length_cons, List.length_nil]
      omega
    rw [hlen]
    exact hat'.slice
  refine ⟨c, hc, ?_⟩
  rw [cut, hslice]
  refine strip_eq ?_ (by rcases hc with rfl | rfl <;> rfl)
  obtain ⟨a, l', ha, hstart⟩ := d.head
  rw [ha]
  rintro _ ⟨⟩
  exact startsValue_not_stripped hstart

/-- What a round of `dig` does on the text of `d`: it leaves the text of `next`, or it raises
a JSON error where there is none. -/
def DigsTo (d : Doc) (k : Step) (next : Option Doc) : Prop :=
  ∀ rest, Delimited rest →
    match next with
    | some d' => ∃ rest', Delimited rest' ∧ digKey (d.render ++ rest) k.key = .ok (d'.render ++ rest')
    | none => ∃ e, digKey (d.render ++ rest) k.key = .error e ∧ e.isJson = true

theorem digKey_index {json : Text} (n : Nat) : digKey json (.index n) =
    (digArray (3 * json.length + 3) json (some n) Scan.reset).map (cut json) := by
  rw [digKey, if_neg (by omega)]
  rfl

theorem Elems.Reaches.digsTo {es : Elems} {n : Nat} (hr : es.Reaches n) (hq : es.Quoted) :
    DigsTo (.array es) (.index n) (es.get? n) := by
  intro rest hrest
  obtain ⟨d', hget, _⟩ := hr.get?
  rw [hget]
  dsimp only
  have hopen : At ((Doc.array es).render ++ rest) Scan.reset.index
      ('[' :: (es.before.render ++ (es.body ++ ']' :: rest))) := by
    simp [At, Doc.render, Scan.reset]
  have hfuel : 3 * es.body.length + 3 ≤ 3 * ((Doc.array es).render ++ rest).length + 2 := by
    simp only [Doc.render, List.length_append, List.length_cons]
    omega
  have hround := hr.dig_eq (w := []) hq hget 0
    ⟨Scan.reset.index + 1 + es.before.render.length, Scan.reset.index + 1 + es.before.render.length,
      [.array]⟩ hopen.next.move rfl rfl hfuel
  rw [Nat.zero_add] at hround
  obtain ⟨sc, hscan, hencl⟩ := hround
  obtain ⟨c, hc, hcut⟩ := cut_element_eq hencl
  refine ⟨[c], Delimited.cons (by rcases hc with rfl | rfl <;> rfl), ?_⟩
  rw [show (Step.index n).key = .index n from rfl, digKey_index,
    digArray_open hopen (es.solid_head _), ← hcut]
  rw [show (some n).isSome = true from rfl, if_pos rfl]
  change (arrayScan _ _ (some n) 0 ⟨_, _, [.array]⟩).map _ = _
  rw [hscan]
  rfl

theorem Members.Reaches.skips {ms : Members} {k : Text} (hr : ms.Reaches k)
    (hfirst : ms.first k = none) : ms.Skips ∧ k ∉ ms.written := by
  match ms with
  | .last name d after =>
    rw [Members.first] at hfirst
    split at hfirst
    · cases hfirst
    · rename_i hk
      refine ⟨hr.2, ?_⟩
      rw [Members.written, List.mem_singleton]
      exact Ne.symm hk
  | .cons name d after opening rest =>
    obtain ⟨_, hsd, hrest⟩ := hr
    rw [Members.first] at hfirst
    split at hfirst
    · cases hfirst
    · rename_i hk
      rw [if_neg hk] at hrest
      obtain ⟨hskips, hmem⟩ := Members.Reaches.skips hrest hfirst
      refine ⟨⟨hsd, hskips⟩, ?_⟩
      rw [Members.written, List.mem_cons, not_or]
      exact ⟨Ne.symm hk, hmem⟩

theorem Members.Reaches.first_skips {ms : Members} {k : Text} (hr : ms.Reaches k)
    (hfirst : ms.first k = some d') : d'.Skips := by
  match ms with
  | .last name d after =>
    rw [Members.first] at hfirst
    split at hfirst
    · cases hfirst
      exact hr.2
    · cases hfirst
  | .cons name d after opening rest =>
    obtain ⟨_, hsd, hrest⟩ := hr
    rw [Members.first] at hfirst
    split at hfirst
    · cases hfirst
      exact hsd
    · rename_i hk
      rw [if_neg hk] at hrest
      exact Members.Reaches.first_skips hrest hfirst

theorem Members.Reaches.digsTo {ms : Members} {k : Text} {opening : Opening}
    {hopen : opening.char ≠ '}'} (hr : ms.Reaches k) (hq : (Doc.object opening hopen ms).Quoted) :
    DigsTo (.object opening hopen ms) (.name k) (ms.first k) := by
  intro rest hrest
  have hbrace : At ((Doc.object opening hopen ms).render ++ rest) Scan.reset.index
      ('{' :: (ms.before.render ++ '"' :: (ms.body ++ '}' :: rest))) := by
    simp [At, Doc.render, Scan.reset, hq.1]
  have hfuel : 3 * ms.body.length + 1 ≤
      3 * ((Doc.object opening hopen ms).render ++ rest).length + 2 := by
    simp only [Doc.render, List.length_append, List.length_cons]
    omega
  rw [show (Step.name k).key = .name k from rfl, digKey, digObject_open hbrace]
  cases hfirst : ms.first k with
  | some d' =>
    obtain ⟨sc, hscan, hencl⟩ := hr.dig_eq hq.2 hfirst ⟨Scan.reset.index + 1,
      Scan.reset.startIndex, .object :: Scan.reset.stack⟩ hbrace.next hfuel
    refine ⟨[], fun c hc => (by cases hc), ?_⟩
    rw [hscan, List.append_nil, ← cut_eq hencl (hr.first_skips hfirst)]
    rfl
  | none =>
    obtain ⟨hskips, hmem⟩ := hr.skips hfirst
    have hscan := ms.scan_eq (some k) hq.2 hskips (fun k' hk' => Option.some.inj hk' ▸ hmem) _
      ⟨Scan.reset.index + 1, Scan.reset.startIndex, .object :: Scan.reset.stack⟩ hbrace.next hfuel
    rw [hscan]
    exact ⟨_, rfl, rfl⟩

theorem expect_fails {json : Text} {c : Char} {i : Nat} (h : json[i]? ≠ some c) :
    ∃ e, expect json c i = .error e ∧ e.isJson = true := by
  rw [expect, if_neg h]
  exact ⟨_, rfl, rfl⟩

theorem Doc.skip_reset (d : Doc) (rest : Text) :
    skipWhitespace (d.render ++ rest) 0 = 0 :=
  At.skipWhile_none (At.start _) (d.solid_head rest)

theorem digsTo_index_none {n : Nat} (h : ∀ rest, (d.render ++ rest)[0]? ≠ some '[') :
    DigsTo d (.index n) none := by
  intro rest _
  obtain ⟨e, he, hjson⟩ := expect_fails (h rest)
  refine ⟨e, ?_, hjson⟩
  rw [show (Step.index n).key = .index n from rfl, digKey_index, digArray]
  dsimp only [bind, Except.bind]
  rw [show (Scan.reset.pushStack .array).index = 0 from rfl, d.skip_reset, he]
  rfl

theorem digsTo_name_none {k : Text} (h : ∀ rest, (d.render ++ rest)[0]? ≠ some '{') :
    DigsTo d (.name k) none := by
  intro rest _
  obtain ⟨e, he, hjson⟩ := expect_fails (h rest)
  refine ⟨e, ?_, hjson⟩
  rw [show (Step.name k).key = .name k from rfl, digKey, digObject]
  dsimp only [bind, Except.bind]
  rw [show (Scan.reset.pushStack .object).index = 0 from rfl, d.skip_reset, he]
  rfl

theorem digsTo_emptyObject {inner : Ws} {k : Text} : DigsTo (.emptyObject inner) (.name k) none := by
  intro rest _
  have hopen : At ((Doc.emptyObject inner).render ++ rest) Scan.reset.index
      ('{' :: (inner.render ++ '}' :: rest)) := by
    simp [At, Doc.render, Scan.reset]
  rw [show (Step.name k).key = .name k from rfl, digKey, digObject_open hopen]
  cases inner with
  | nil =>
    rw [objectScan_close hopen.next.get_cons rfl]
    exact ⟨_, rfl, rfl⟩
  | cons b inner =>
    have hblank : b.char ≠ '}' := by cases b <;> decide
    have hskip := skip_ws hopen.next (by rintro _ ⟨⟩; rfl)
    have hbrace : ((Doc.emptyObject (b :: inner)).render ++ rest)[
        Scan.reset.index + 1 + (Ws.render (b :: inner)).length]? ≠ some '"' := by
      rw [hopen.next.move.get_cons]
      decide
    obtain ⟨e, he, hjson⟩ := expect_fails hbrace
    refine ⟨e, ?_, hjson⟩
    rw [objectScan, show (Scan.mk (Scan.reset.index + 1) _ _).index = Scan.reset.index + 1 from rfl,
      show ((Doc.emptyObject (b :: inner)).render ++ rest)[Scan.reset.index + 1]? = some b.char from
        hopen.next.get_cons]
    dsimp only
    rw [if_neg hblank, decide_eq_false hblank, Bool.false_and, if_neg Bool.false_ne_true, digString,
      hskip]
    dsimp only [bind, Except.bind]
    rw [he]
    rfl

theorem Elems.get?_quoted {es : Elems} {n : Nat} (hq : es.Quoted) (hget : es.get? n = some d) :
    d.Quoted := by
  match es, n with
  | .last _ d _, 0 =>
    cases hget
    exact hq
  | .last _ d _, n + 1 => cases hget
  | .cons _ d _ rest, 0 =>
    cases hget
    exact hq.1
  | .cons _ _ _ rest, n + 1 => exact Elems.get?_quoted hq.2 hget

theorem Members.first_quoted {ms : Members} {k : Text} (hq : ms.Quoted) (hfirst : ms.first k = some d) :
    d.Quoted := by
  match ms with
  | .last name d _ =>
    rw [Members.first] at hfirst
    split at hfirst
    · cases hfirst
      exact hq.2
    · cases hfirst
  | .cons name d _ _ rest =>
    rw [Members.first] at hfirst
    split at hfirst
    · cases hfirst
      exact hq.2.1
    · exact Members.first_quoted hq.2.2.2 hfirst

theorem digsTo_scalar {c : Char} {t : Text} (hc : d.render = c :: t) (harray : c ≠ '[')
    (hobject : c ≠ '{') (k : Step) : DigsTo d k none := by
  cases k with
  | index n => exact digsTo_index_none fun rest => by simpa [hc] using harray
  | name k => exact digsTo_name_none fun rest => by simpa [hc] using hobject

variable {F : Type} [FloatArith F]

/-- One round of `dig` goes where one step of the path goes in the value. -/
theorem Doc.Diggable.round {k : Step} {path : List Step} (h : d.Diggable (k :: path))
    (hq : d.Quoted) : ∃ next, DigsTo d k next ∧
      valueAt (d.value : Value F) (k :: path) = next.bind (fun d' => valueAt d'.value path) ∧
      ∀ d' ∈ next, d'.Quoted ∧ d'.Diggable path := by
  cases d with
  | array es =>
    cases k with
    | index n =>
      refine ⟨es.get? n, h.1.digsTo hq, ?_, fun d' hd' => ⟨es.get?_quoted hq hd', h.2 d' hd'⟩⟩
      rw [Doc.value, valueAt, es.values_get, Option.bind_map]
      rfl
    | name k =>
      exact ⟨none, digsTo_name_none (by simp [Doc.render]), by rw [Doc.value]; rfl, nofun⟩
  | object opening hopen ms =>
    cases k with
    | index n =>
      exact ⟨none, digsTo_index_none (by simp [Doc.render]), by rw [Doc.value]; rfl, nofun⟩
    | name k =>
      refine ⟨ms.first k, h.1.digsTo hq, ?_, fun d' hd' => ⟨ms.first_quoted hq.2 hd', h.2 d' hd'⟩⟩
      rw [Doc.value, valueAt, h.1.lookup, Option.bind_map]
      rfl
  | emptyArray inner =>
    cases k with
    | index n => exact False.elim h
    | name k =>
      exact ⟨none, digsTo_name_none (by simp [Doc.render]), by rw [Doc.value]; rfl, nofun⟩
  | emptyObject inner =>
    cases k with
    | index n =>
      exact ⟨none, digsTo_index_none (by simp [Doc.render]), by rw [Doc.value]; rfl, nofun⟩
    | name k => exact ⟨none, digsTo_emptyObject, by rw [Doc.value]; rfl, nofun⟩
  | null =>
    have hnone := digsTo_scalar (d := .null) (by rw [Doc.render]; rfl) (by decide) (by decide) k
    exact ⟨none, hnone, by rw [Doc.value]; cases k <;> rfl, nofun⟩
  | bool b =>
    have hhead : ∃ c t, (Doc.bool b).render = c :: t ∧ c ≠ '[' ∧ c ≠ '{' := by
      cases b with
      | true => exact ⟨'t', _, by rw [Doc.render]; rfl, by decide, by decide⟩
      | false => exact ⟨'f', _, by rw [Doc.render]; rfl, by decide, by decide⟩
    obtain ⟨c, t, hc, harray, hobject⟩ := hhead
    exact ⟨none, digsTo_scalar hc harray hobject k, by rw [Doc.value]; cases k <;> rfl, nofun⟩
  | number n =>
    obtain ⟨c, t, hc, hd⟩ := n.head
    have hne : ∀ x, isDigit x = false → x ≠ '-' → c ≠ x := by
      rintro x hx hm rfl
      rcases hd with rfl | hd
      · exact hm rfl
      · rw [hd] at hx
        cases hx
    refine ⟨none, digsTo_scalar (by rw [Doc.render, hc]) (hne _ rfl (by decide))
      (hne _ rfl (by decide)) k, ?_, nofun⟩
    rw [Doc.value, Number.value]
    split <;> cases k <;> rfl
  | string lit =>
    have hnone := digsTo_scalar (d := .string lit) (by rw [Doc.render]) (by decide) (by decide) k
    exact ⟨none, hnone, by rw [Doc.value]; cases k <;> rfl, nofun⟩

theorem Doc.Diggable.dig_eq {path : List Step} (h : d.Diggable path) (hq : d.Quoted)
    (hrest : Delimited rest) :
    (∀ w, valueAt (d.value : Value F) path = some w →
      ∃ j, dig (d.render ++ rest) (path.map Step.key) = .ok j ∧ parseText j = .ok w) ∧
    (valueAt (d.value : Value F) path = none →
      ∃ e, dig (d.render ++ rest) (path.map Step.key) = .error e ∧ e.isJson = true) := by
  induction path generalizing d rest with
  | nil =>
    refine ⟨?_, nofun⟩
    rintro w ⟨⟩
    exact ⟨_, rfl, parseText_eq d (Doc.Stops.of_delimited hrest)⟩
  | cons k path ih =>
    obtain ⟨next, hdigs, hvalue, hnext⟩ := h.round (F := F) hq
    have hround := hdigs rest hrest
    rw [hvalue, List.map_cons, dig]
    cases next with
    | none =>
      obtain ⟨e, he, hjson⟩ := hround
      refine ⟨nofun, fun _ => ⟨e, ?_, hjson⟩⟩
      rw [he]
      rfl
    | some d' =>
      obtain ⟨rest', hrest', hcut⟩ := hround
      obtain ⟨hq', hpath⟩ := hnext d' rfl
      rw [hcut]
      exact ih hpath hq' hrest'

/-- On the texts and paths the scanner can follow, the Digger agrees with the parser. -/
theorem dig_agrees (d : Doc) (hq : d.Quoted) (trailing : Ws) (path : List Step)
    (h : d.Diggable path) : Agrees F (d.render ++ trailing.render) path := by
  intro v hv
  rw [parseText_eq d (Doc.Stops.of_delimited trailing.delimited)] at hv
  cases hv
  exact h.dig_eq hq trailing.delimited

end Dig

/-- The text of `[1,{"a":null}]`. -/
def sampleDoc : Doc :=
  .array (.cons [] (.number ⟨false, .ofText ['1'] rfl, none, none, Or.inr nofun⟩) []
    (.last [] (.object ⟨'"', rfl⟩ (by decide) (.last ⟨[], [.char 'a' rfl], [], []⟩ .null [])) []))

theorem dig_agrees_sample :
    Agrees Rat ['[', '1', ',', '{', '"', 'a', '"', ':', 'n', 'u', 'l', 'l', '}', ']']
      [.index 1, .name ['a']] :=
  dig_agrees sampleDoc ⟨trivial, rfl, fun _ _ => trivial, trivial⟩ [] _
    ⟨⟨nofun, rfl, nofun, rfl, trivial, rfl⟩, by
      rintro d ⟨⟩
      refine ⟨⟨Iff.rfl, trivial⟩, ?_⟩
      rintro d ⟨⟩
      exact trivial⟩

/-- `dig(5)` on `[1,2]` returns the last element. -/
theorem index_out_of_range_not_raised : ¬ ∀ (s : Text) (path : List Step), Agrees Rat s path := by
  intro h
  have hparse : parseText ['[', '1', ',', '2', ']'] =
      .ok (.array [.int 1, .int 2] : Value Rat) := by rfl
  have hdig : dig ['[', '1', ',', '2', ']'] [.index 5] = .ok ['2', ']'] := by rfl
  obtain ⟨e, he, _⟩ := (h _ [.index 5] _ hparse).2 rfl
  cases he.symm.trans hdig

end PicoRuby.Json
