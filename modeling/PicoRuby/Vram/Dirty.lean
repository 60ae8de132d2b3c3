import PicoRuby.Vram.Pages

/-!
# Dirty pages

A page that is not dirty is as it was when it was last reported and cleared. Both queries clear, so that a
display which is refreshed from one of them misses what the other one has cleared.
-/

namespace PicoRuby.Vram

set_option autoImplicit false

/-! ## Calls and reports -/

/-- The data that is known of each page, by its column and row. -/
abbrev Screen := Nat × Nat → Option (List UInt8)

/-- The entries are sent one after the other. -/
def Screen.send (screen : Screen) (entries : List PageEntry) : Screen :=
  entries.foldl (fun screen entry place => if place = (entry.col, entry.row) then some entry.data
    else screen place) screen

/-- A call of a method of VRAM; `sent` is whether the pages go to the display, as in
`SSD1306#update_display`. -/
inductive Call where
  | draw (call : DrawCall)
  | pages (clearDirty sent : Bool)
  | dirtyPages (clearDirty : Bool)
deriving DecidableEq, Repr

/-- A VRAM, what the clearing calls have reported of it, and a display that gets the dirty pages. -/
structure Watched where
  disp : Display
  reported : Screen
  shown : Screen

namespace Watched

def step (s : Watched) : Call → Option Watched
  | .draw call => (call.apply surface s.disp).map fun disp => { s with disp }
  | .pages clearDirty sent =>
    let (entries, disp) := Vram.pages s.disp clearDirty
    some
      { disp
        reported := if clearDirty then s.reported.send entries else s.reported
        shown := if sent then s.shown.send entries else s.shown }
  | .dirtyPages clearDirty =>
    let (entries, disp) := Vram.dirtyPages s.disp clearDirty
    some
      { disp
        reported := if clearDirty then s.reported.send entries else s.reported
        shown := s.shown.send entries }

def run (s : Watched) (calls : List Call) : Option Watched := calls.foldlM step s

/-- A new VRAM, before anything is reported of it, and a display that shows something. -/
def start (w h cols rows : Nat) (shown : Screen) : Watched := ⟨newVram w h cols rows, fun _ => none, shown⟩

end Watched

/-! ## Entries -/

section Entries
variable {screen : Screen} {entries : List PageEntry} {disp : Display} {dirty clearDirty : Bool}

/-- What is known of a place behind the entries, where they agree on it. -/
theorem send_eq {place : Nat × Nat} {data : List UInt8}
    (hdata : ∀ entry ∈ entries, (entry.col, entry.row) = place → entry.data = data)
    (hplace : (∃ entry ∈ entries, (entry.col, entry.row) = place) ∨ screen place = some data) :
    screen.send entries place = some data := by
  induction entries generalizing screen with
  | nil =>
    rcases hplace with ⟨entry, hmem, -⟩ | hscreen
    · cases hmem
    · exact hscreen
  | cons entry entries ih =>
    rw [List.forall_mem_cons] at hdata
    apply ih hdata.2
    by_cases hhere : (entry.col, entry.row) = place
    · right
      dsimp only
      rw [if_pos hhere.symm, hdata.1 hhere]
    · rcases hplace with ⟨entry', hmem, hplace⟩ | hscreen
      · rcases List.mem_cons.mp hmem with rfl | hmem
        · exact absurd hplace hhere
        · exact Or.inl ⟨entry', hmem, hplace⟩
      · right
        dsimp only
        rw [if_neg (Ne.symm hhere)]
        exact hscreen

/-- The entry of a page. -/
def pageEntry (w : Nat) (page : Page) (i : Nat) : PageEntry := ⟨i % (w / page.w), i / (w / page.w), page.buffer⟩

theorem mem_pagesSub {entry : PageEntry} : entry ∈ (pagesSub disp dirty clearDirty).1 ↔
    ∃ i page, disp.pages[i]? = some page ∧ (dirty = true → page.dirty = true) ∧
      entry = pageEntry disp.w page i := by
  simp only [pagesSub, List.mem_map, List.mem_filter, Prod.exists, List.mem_zipIdx_iff_getElem?, pageEntry]
  constructor
  · rintro ⟨page, i, ⟨hget, hselected⟩, rfl⟩
    refine ⟨i, page, hget, ?_, rfl⟩
    intro hdirty
    simpa [hdirty] using hselected
  · rintro ⟨i, page, hget, hselected, rfl⟩
    refine ⟨page, i, ⟨hget, ?_⟩, rfl⟩
    cases dirty with
    | false => rfl
    | true => simpa using hselected rfl

/-- The pages are of one width, so that each has a place of its own. -/
def Uniform (disp : Display) : Prop := ∃ width, ∀ page ∈ disp.pages, page.w = width

theorem pageEntry_inj (hdisp : Uniform disp) {i j : Nat} {page page' : Page}
    (hi : disp.pages[i]? = some page) (hj : disp.pages[j]? = some page')
    (hcol : (pageEntry disp.w page i).col = (pageEntry disp.w page' j).col)
    (hrow : (pageEntry disp.w page i).row = (pageEntry disp.w page' j).row) : page = page' := by
  obtain ⟨width, hwidth⟩ := hdisp
  unfold pageEntry at hcol hrow
  dsimp only at hcol hrow
  rw [hwidth page (List.mem_of_getElem? hi), hwidth page' (List.mem_of_getElem? hj)] at hcol hrow
  have hij : i = j := by
    rw [← Nat.div_add_mod i (disp.w / width), ← Nat.div_add_mod j (disp.w / width), hcol, hrow]
  rw [hij, hj] at hi
  exact (Option.some.inj hi).symm

end Entries

/-! ## What is clean is known -/

/-- A page that is not dirty is known as it is. -/
structure Known (disp : Display) (screen : Screen) : Prop where
  uniform : Uniform disp
  clean : ∀ i page, disp.pages[i]? = some page → page.dirty = false →
    screen ((pageEntry disp.w page i).col, (pageEntry disp.w page i).row) = some page.buffer

section Draw

/-- What drawing does to a page. -/
structure Touched (page page' : Page) : Prop where
  width : page'.w = page.w
  clean : page'.dirty = false → page' = page

theorem touched_self (page : Page) : Touched page page := ⟨rfl, fun _ => rfl⟩

theorem setPixel_touched (page : Page) (x y : Int) (color : UInt32) :
    Touched page (page.setPixel x y color) := by
  unfold Page.setPixel
  dsimp only
  split
  · exact touched_self page
  · split
    · exact touched_self page
    · exact ⟨rfl, fun hdirty => Bool.noConfusion hdirty⟩

theorem fill_touched (page : Page) (color : UInt32) : Touched page (page.fill color) :=
  ⟨rfl, fun hdirty => Bool.noConfusion hdirty⟩

theorem plotPages_touched (x y : Int) (color : UInt32) (pages : List Page) :
    List.Forall₂ Touched pages (plotPages x y color pages) := by
  induction pages with
  | nil => exact List.Forall₂.nil
  | cons page pages ih =>
    unfold plotPages
    split
    · apply List.Forall₂.cons (setPixel_touched _ _ _ _)
      exact List.forall₂_same.mpr fun page _ => touched_self page
    · exact List.Forall₂.cons (touched_self page) ih

theorem Known.touched {disp : Display} {screen : Screen} (h : Known disp screen) {pages : List Page}
    (hpages : List.Forall₂ Touched disp.pages pages) : Known { disp with pages } screen := by
  have hget (i : Nat) (page' : Page) (hi : pages[i]? = some page') :
      ∃ page, disp.pages[i]? = some page ∧ Touched page page' := by
    obtain ⟨hlt, rfl⟩ := List.getElem?_eq_some_iff.mp hi
    have hlt' : i < disp.pages.length := hpages.length_eq ▸ hlt
    exact ⟨disp.pages[i], List.getElem?_eq_getElem hlt', hpages.get hlt' hlt⟩
  constructor
  · obtain ⟨width, hwidth⟩ := h.uniform
    refine ⟨width, ?_⟩
    intro page' hmem
    obtain ⟨i, hi⟩ := List.mem_iff_getElem?.mp hmem
    obtain ⟨page, hi, htouched⟩ := hget i page' hi
    rw [htouched.width]
    exact hwidth page (List.mem_of_getElem? hi)
  · intro i page' hi hclean
    obtain ⟨page, hi, htouched⟩ := hget i page' hi
    obtain rfl := htouched.clean hclean
    exact h.clean i page' hi hclean

/-- Drawing keeps what is known. -/
theorem Known.draw {disp : Display} {screen : Screen} (h : Known disp screen) (call : DrawCall) :
    ∃ disp', call.apply surface disp = some disp' ∧ Known disp' screen := by
  let nothing : Surface Unit := ⟨fun _ _ _ _ => (), fun _ _ => ()⟩
  have hsim : surface.Simulates nothing fun disp _ => Known disp screen := by
    constructor
    · intro disp _ h x y color
      exact h.touched (plotPages_touched x y color disp.pages)
    · intro disp _ h color
      apply h.touched
      rw [List.forall₂_map_right_iff]
      exact List.forall₂_same.mpr fun page _ => fill_touched page color
  obtain ⟨disp', -, hcall, -, hknown⟩ := apply_simulates hsim (t := ()) h call
  exact ⟨disp', hcall, hknown⟩

end Draw

section Queries
variable {disp : Display} {screen : Screen} {dirty clearDirty : Bool}

/-- A screen that gets the entries knows every page. -/
theorem Known.send (h : Known disp screen) {i : Nat} {page : Page} (hi : disp.pages[i]? = some page) :
    screen.send (pagesSub disp dirty clearDirty).1
      ((pageEntry disp.w page i).col, (pageEntry disp.w page i).row) = some page.buffer := by
  apply send_eq
  · intro entry hentry hplace
    obtain ⟨j, page', hj, -, rfl⟩ := mem_pagesSub.mp hentry
    rw [Prod.mk.injEq] at hplace
    rw [pageEntry_inj h.uniform hi hj hplace.1.symm hplace.2.symm]
    rfl
  · by_cases hselected : dirty = true → page.dirty = true
    · exact Or.inl ⟨_, mem_pagesSub.mpr ⟨i, page, hi, hselected, rfl⟩, rfl⟩
    · right
      apply h.clean i page hi
      rw [Classical.not_imp] at hselected
      exact Bool.eq_false_of_not_eq_true hselected.2

theorem pagesSub_getElem {i : Nat} {page' : Page}
    (hi : (pagesSub disp dirty clearDirty).2.pages[i]? = some page') :
    ∃ page, disp.pages[i]? = some page ∧ page'.w = page.w ∧ page'.buffer = page.buffer ∧
      (clearDirty = false → page' = page) := by
  simp only [pagesSub, List.getElem?_map, Option.map_eq_some_iff] at hi
  obtain ⟨page, hi, rfl⟩ := hi
  refine ⟨page, hi, ?_⟩
  cases clearDirty with
  | false => simp
  | true =>
    split
    · simp
    · simp

theorem pagesSub_uniform (h : Uniform disp) : Uniform (pagesSub disp dirty clearDirty).2 := by
  obtain ⟨width, hwidth⟩ := h
  refine ⟨width, ?_⟩
  intro page' hmem
  obtain ⟨i, hi⟩ := List.mem_iff_getElem?.mp hmem
  obtain ⟨page, hi, heq, -⟩ := pagesSub_getElem hi
  rw [heq]
  exact hwidth page (List.mem_of_getElem? hi)

/-- What a query clears is sent. -/
theorem Known.sent (h : Known disp screen) :
    Known (pagesSub disp dirty clearDirty).2 (screen.send (pagesSub disp dirty clearDirty).1) := by
  refine ⟨pagesSub_uniform h.uniform, ?_⟩
  intro i page' hi _
  obtain ⟨page, hi, hwidth, hbuffer, -⟩ := pagesSub_getElem hi
  have hentry : pageEntry (pagesSub disp dirty clearDirty).2.w page' i = pageEntry disp.w page i := by
    unfold pageEntry
    rw [hwidth, hbuffer]
    rfl
  rw [hentry, hbuffer]
  exact h.send hi

theorem Known.kept (h : Known disp screen) : Known (pagesSub disp dirty false).2 screen := by
  refine ⟨pagesSub_uniform h.uniform, ?_⟩
  intro i page' hi hclean
  obtain ⟨page, hi, -, -, heq⟩ := pagesSub_getElem hi
  obtain rfl := heq rfl
  exact h.clean i page' hi hclean

end Queries

/-! ## Runs -/

namespace Watched
variable {s : Watched}

/-- What holds between two calls; the display keeps up unless it misses what `pages` clears. -/
structure Sound (s : Watched) (upToDate : Prop) : Prop where
  reported : Known s.disp s.reported
  shown : upToDate → Known s.disp s.shown

theorem start_tracked (w h cols rows : Nat) (shown : Screen) : (start w h cols rows shown).Sound True := by
  have hpages : ∀ page ∈ (newVram w h cols rows).pages, page.w = w / cols ∧ page.dirty = true := by
    intro page hmem
    obtain ⟨row, -, col, -, rfl⟩ := Shared.mem_grid.mp hmem
    exact ⟨rfl, rfl⟩
  have hknown (screen : Screen) : Known (newVram w h cols rows) screen := by
    refine ⟨⟨w / cols, fun page hmem => (hpages page hmem).1⟩, ?_⟩
    intro i page hi hclean
    rw [(hpages page (List.mem_of_getElem? hi)).2] at hclean
    cases hclean
  exact ⟨hknown _, fun _ => hknown _⟩

theorem step_tracked {upToDate : Prop} (h : s.Sound upToDate) (call : Call) :
    ∃ s', s.step call = some s' ∧ s'.Sound (upToDate ∧ call ≠ .pages true false) := by
  cases call with
  | draw call =>
    obtain ⟨disp, hcall, hreported⟩ := h.reported.draw call
    refine ⟨{ s with disp }, by simp [step, hcall], hreported, ?_⟩
    rintro ⟨hdate, -⟩
    obtain ⟨disp', hcall', hshown⟩ := (h.shown hdate).draw call
    rw [hcall] at hcall'
    cases hcall'
    exact hshown
  | pages clearDirty sent =>
    refine ⟨_, rfl, ?_, ?_⟩
    · cases clearDirty with
      | false => exact h.reported.kept
      | true => exact h.reported.sent
    · rintro ⟨hdate, hcall⟩
      cases sent with
      | true => exact (h.shown hdate).sent
      | false =>
        cases clearDirty with
        | false => exact (h.shown hdate).kept
        | true => exact absurd rfl hcall
  | dirtyPages clearDirty =>
    refine ⟨_, rfl, ?_, ?_⟩
    · cases clearDirty with
      | false => exact h.reported.kept
      | true => exact h.reported.sent
    · rintro ⟨hdate, -⟩
      exact (h.shown hdate).sent

theorem run_tracked {upToDate : Prop} (h : s.Sound upToDate) (calls : List Call) :
    ∃ s', s.run calls = some s' ∧ s'.Sound (upToDate ∧ ∀ call ∈ calls, call ≠ .pages true false) := by
  induction calls generalizing s upToDate with
  | nil => exact ⟨s, rfl, h.reported, fun hdate => h.shown hdate.1⟩
  | cons call calls ih =>
    obtain ⟨s₁, hstep, h₁⟩ := step_tracked h call
    obtain ⟨s₂, hrun, h₂⟩ := ih h₁
    refine ⟨s₂, ?_, h₂.reported, ?_⟩
    · unfold run
      rw [List.foldlM_cons, hstep]
      exact hrun
    · rintro ⟨hdate, hcalls⟩
      rw [List.forall_mem_cons] at hcalls
      exact h₂.shown ⟨⟨hdate, hcalls.1⟩, hcalls.2⟩

/-- **A page that has changed since it was reported is dirty.** So a display that is refreshed from the dirty
pages shows the VRAM, if what `pages` clears is sent to it as well. -/
theorem dirty_pages_sound (w h cols rows : Nat) (shown : Screen) (calls : List Call) :
    ∃ s, (start w h cols rows shown).run calls = some s ∧
      ∀ entry ∈ (Vram.pages s.disp false).1, ∀ clearDirty,
        (s.reported (entry.col, entry.row) ≠ some entry.data → entry ∈ (dirtyPages s.disp clearDirty).1) ∧
        ((∀ call ∈ calls, call ≠ .pages true false) →
          s.shown.send (dirtyPages s.disp clearDirty).1 (entry.col, entry.row) = some entry.data) := by
  obtain ⟨s, hrun, hsound⟩ := run_tracked (start_tracked w h cols rows shown) calls
  refine ⟨s, hrun, ?_⟩
  intro entry hentry clearDirty
  obtain ⟨i, page, hi, -, rfl⟩ := mem_pagesSub.mp hentry
  constructor
  · intro hchanged
    apply mem_pagesSub.mpr
    refine ⟨i, page, hi, fun _ => ?_, rfl⟩
    by_contra hclean
    exact hchanged (hsound.reported.clean i page hi (Bool.eq_false_of_not_eq_true hclean))
  · intro hcalls
    exact (hsound.shown ⟨trivial, hcalls⟩).send hi

/-- A pixel is set, and `pages` clears the page before the display gets it. -/
theorem pages_hides_change :
    ∃ s, (start 8 8 1 1 fun _ => none).run
        [.dirtyPages true, .draw (.setPixel 0 0 1), .pages true false] = some s ∧
      (Vram.pages s.disp false).1 = [⟨0, 0, [1, 0, 0, 0, 0, 0, 0, 0]⟩] ∧
      s.shown.send (dirtyPages s.disp true).1 (0, 0) = some [0, 0, 0, 0, 0, 0, 0, 0] := by
  refine ⟨_, rfl, ?_, ?_⟩
  · decide +kernel
  · decide +kernel

end Watched

end PicoRuby.Vram
