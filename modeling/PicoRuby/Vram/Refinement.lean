import PicoRuby.Vram.Pages

/-!
# Pages and the flat bitmap

The pages hold the pixels of the flat bitmap that they are for, after any calls. They are for the whole
screen if it can be divided into them.
-/

namespace PicoRuby.Vram

open Shared

set_option autoImplicit false

/-! ## Bits -/

theorem bit_toNat (data k : UInt8) (hk : k.toNat < 8) :
    ((data >>> k) &&& 1).toNat = (data.toNat.testBit k.toNat).toNat := by
  rw [UInt8.toNat_and, UInt8.toNat_shiftRight, UInt8.toNat_one, Nat.and_one_is_mod,
    Nat.mod_eq_of_lt hk, Nat.shiftRight_eq_div_pow, Nat.toNat_testBit]

theorem mask_toNat (k : UInt8) (hk : k.toNat < 8) : ((1 : UInt8) <<< k).toNat = 2 ^ k.toNat := by
  have hlt : 2 ^ k.toNat < 2 ^ 8 := Nat.pow_lt_pow_right (by omega) hk
  rw [UInt8.toNat_shiftLeft, UInt8.toNat_one, Nat.mod_eq_of_lt hk, Nat.shiftLeft_eq, Nat.one_mul,
    Nat.mod_eq_of_lt hlt]

theorem bit_masked (data k j : UInt8) (hk : k.toNat < 8) (hj : j.toNat < 8) (color : UInt32) :
    ((if color ≠ 0 then data ||| ((1 : UInt8) <<< k) else data &&& ~~~((1 : UInt8) <<< k)) >>> j) &&& 1 =
      if j = k then (if color ≠ 0 then 1 else 0) else (data >>> j) &&& 1 := by
  apply UInt8.toNat.inj
  have hmask : (2 ^ k.toNat).testBit j.toNat = decide (j = k) := by
    rw [Nat.testBit_two_pow]
    by_cases heq : j = k
    · simp [heq]
    · have hne : ¬ k.toNat = j.toNat := fun h => heq (UInt8.toNat.inj h).symm
      simp [heq, hne]
  have hlt : 2 ^ k.toNat < 2 ^ 8 := Nat.pow_lt_pow_right (by omega) hk
  have hclear : (~~~((1 : UInt8) <<< k)).toNat.testBit j.toNat = !decide (j = k) := by
    have hsize : UInt8.size = 2 ^ 8 := rfl
    have hnot : (~~~((1 : UInt8) <<< k)).toNat = 2 ^ 8 - (2 ^ k.toNat + 1) := by
      rw [UInt8.toNat_not, mask_toNat k hk]
      omega
    rw [hnot, Nat.testBit_two_pow_sub_succ hlt, hmask]
    simp [hj]
  rw [bit_toNat _ _ hj]
  by_cases hcolor : color = 0
  · rw [if_neg (not_not.mpr hcolor), UInt8.toNat_and, Nat.testBit_and, hclear]
    by_cases heq : j = k
    · simp [heq, hcolor]
    · simp [heq, bit_toNat data j hj]
  · rw [if_pos hcolor, UInt8.toNat_or, Nat.testBit_or, mask_toNat k hk, hmask]
    by_cases heq : j = k
    · simp [heq, hcolor]
    · simp [heq, bit_toNat data j hj]

/-! ## The pixels of a page -/

namespace Page

/-- The buffer has a byte for each eight pixels of a column. -/
def Sized (page : Page) : Prop := page.buffer.length = page.w * ((page.h + 7) / 8)

/-- Place and sizes, which do not change. -/
def frame (page : Page) : Nat × Nat × Nat × Nat × Nat :=
  (page.x, page.y, page.w, page.h, page.buffer.length)

/-- The byte of a pixel. -/
def byteOf (page : Page) (a b : Nat) : Nat := a + b / 8 * page.w

section Pixels
variable {page : Page} {a b c d : Nat}

theorem byteOf_lt (hsized : page.Sized) (ha : a < page.w) (hb : b < page.h) :
    page.byteOf a b < page.buffer.length := by
  have hrow : b / 8 + 1 ≤ (page.h + 7) / 8 := by omega
  have hmul : (b / 8 + 1) * page.w ≤ (page.h + 7) / 8 * page.w := Nat.mul_le_mul_right _ hrow
  rw [hsized, byteOf, Nat.mul_comm page.w]
  rw [Nat.succ_mul] at hmul
  omega

theorem byteOf_inj (ha : a < page.w) (hc : c < page.w) (h : page.byteOf a b = page.byteOf c d) :
    a = c ∧ b / 8 = d / 8 := by
  have hpos : 0 < page.w := by omega
  have hmod := congrArg (· % page.w) h
  have hdiv := congrArg (· / page.w) h
  simp only [byteOf, Nat.add_mul_mod_self_right, Nat.mod_eq_of_lt ha, Nat.mod_eq_of_lt hc] at hmod
  simp only [byteOf, Nat.add_mul_div_right _ _ hpos, Nat.div_eq_of_lt ha, Nat.div_eq_of_lt hc] at hdiv
  omega

theorem bitOf_toNat (b : Nat) : (UInt8.ofInt ((b : Int) % 8)).toNat = b % 8 := by
  unfold UInt8.ofInt
  rw [UInt8.toNat_ofNat']
  omega

/-- What `setPixel` does with a byte. -/
def maskBit (b : Nat) (color : UInt32) (data : UInt8) : UInt8 :=
  if color ≠ 0 then data ||| ((1 : UInt8) <<< UInt8.ofInt ((b : Int) % 8))
  else data &&& ~~~((1 : UInt8) <<< UInt8.ofInt ((b : Int) % 8))

theorem setPixel_eq (hsized : page.Sized) (ha : a < page.w) (hb : b < page.h) (color : UInt32) :
    page.setPixel a b color =
      { page with buffer := page.buffer.modify (page.byteOf a b) (maskBit b color), dirty := true } := by
  have hlt := byteOf_lt hsized ha hb
  have hcast : (a : Int) + (b : Int) / 8 * page.w = (page.byteOf a b : Nat) := by simp [byteOf]
  unfold setPixel
  dsimp only
  rw [if_neg (by omega), hcast, if_neg (by omega), Int.toNat_natCast]
  rfl

theorem getPixel_eq (page : Page) (ha : a < page.w) (hb : b < page.h) {data : UInt8}
    (hdata : page.buffer[page.byteOf a b]? = some data) :
    page.getPixel a b = ((data >>> UInt8.ofInt ((b : Int) % 8)) &&& 1).toUInt32 := by
  have hcast : (a : Int) + (b : Int) / 8 * page.w = (page.byteOf a b : Nat) := by simp [byteOf]
  unfold getPixel
  dsimp only
  rw [if_neg (by omega), hcast, if_neg (by omega), Int.toNat_natCast, hdata]

theorem getPixel_setPixel (hsized : page.Sized) (ha : a < page.w) (hb : b < page.h) (hc : c < page.w)
    (hd : d < page.h) (color : UInt32) : (page.setPixel a b color).getPixel c d =
      if c = a ∧ d = b then (if color ≠ 0 then 1 else 0) else page.getPixel c d := by
  obtain ⟨data, hdata⟩ : ∃ data, page.buffer[page.byteOf c d]? = some data :=
    ⟨_, List.getElem?_eq_getElem (byteOf_lt hsized hc hd)⟩
  let painted : Page :=
    { page with buffer := page.buffer.modify (page.byteOf a b) (maskBit b color), dirty := true }
  have hpainted : painted.buffer[painted.byteOf c d]? =
      some (if page.byteOf a b = page.byteOf c d then maskBit b color data else data) := by
    have hmodify := List.getElem?_modify (maskBit b color) (page.byteOf a b) page.buffer (page.byteOf c d)
    rw [hdata] at hmodify
    exact hmodify
  rw [setPixel_eq hsized ha hb color, getPixel_eq page hc hd hdata]
  refine (getPixel_eq painted hc hd hpainted).trans ?_
  have hbit := bitOf_toNat b
  have hbit' := bitOf_toNat d
  by_cases hbyte : page.byteOf a b = page.byteOf c d
  · obtain ⟨hac, hrow⟩ := byteOf_inj ha hc hbyte
    have hsame : UInt8.ofInt ((d : Int) % 8) = UInt8.ofInt ((b : Int) % 8) ↔ c = a ∧ d = b := by
      constructor
      · intro h
        have hmod := congrArg UInt8.toNat h
        omega
      · rintro ⟨-, rfl⟩
        rfl
    rw [if_pos hbyte, maskBit, bit_masked _ _ _ (by omega) (by omega)]
    by_cases hpixel : c = a ∧ d = b
    · rw [if_pos (hsame.mpr hpixel), if_pos hpixel]
      split_ifs <;> rfl
    · rw [if_neg (hsame.not.mpr hpixel), if_neg hpixel]
  · have hne : ¬ (c = a ∧ d = b) := by
      rintro ⟨rfl, rfl⟩
      exact hbyte rfl
    rw [if_neg hbyte, if_neg hne]

theorem setPixel_frame (page : Page) (x y : Int) (color : UInt32) :
    (page.setPixel x y color).frame = page.frame := by
  unfold setPixel
  dsimp only
  split_ifs
  all_goals simp [frame]

theorem fill_frame (page : Page) (color : UInt32) : (page.fill color).frame = page.frame := by
  simp [fill, frame]

/-- All bits of a byte are the same after `fill`. -/
theorem getPixel_fill (hsized : page.Sized) (ha : a < page.w) (hb : b < page.h) (color : UInt32) :
    (page.fill color).getPixel a b = if color ≠ 0 then 1 else 0 := by
  have hlt := byteOf_lt hsized ha hb
  have hdata : (page.fill color).buffer[(page.fill color).byteOf a b]? =
      some (if color ≠ 0 then 0xFF else 0x00) := List.getElem?_replicate_of_lt hlt
  rw [getPixel_eq (page.fill color) ha hb hdata]
  have hbit := bitOf_toNat b
  have hbits : ∀ k < 8, ((0xFF : UInt8) >>> UInt8.ofNat k) &&& 1 = 1 ∧
      ((0x00 : UInt8) >>> UInt8.ofNat k) &&& 1 = 0 := by decide
  have hk : UInt8.ofInt ((b : Int) % 8) = UInt8.ofNat (b % 8) := by
    apply UInt8.toNat.inj
    rw [hbit, UInt8.toNat_ofNat']
    omega
  obtain ⟨hone, hzero⟩ := hbits (b % 8) (by omega)
  rw [hk]
  split_ifs
  · rw [hone]
    rfl
  · rw [hzero]
    rfl

end Pixels

end Page

/-! ## The pages of a screen -/

/-- What the places and sizes of the pages are, whatever has been drawn. -/
def HasFrames (w h cols rows : Nat) (disp : Display) : Prop :=
  disp.w = w ∧ disp.pages.map Page.frame = (newVram w h cols rows).pages.map Page.frame

/-- The pixels of the pages are those of the bitmap. -/
def Agrees (disp : Display) (bits : Bitmap) : Prop :=
  ∀ page ∈ disp.pages, ∀ x y : Int, page.Contains x y →
    page.getPixel (x - page.x) (y - page.y) = if bits x y then 1 else 0

/-- The pages as they are for the bitmap. -/
def Holds (w h cols rows : Nat) (disp : Display) (bits : Bitmap) : Prop :=
  HasFrames w h cols rows disp ∧ Agrees disp bits

section Frames
variable {w h cols rows : Nat} {disp : Display}

theorem frames_eq : (newVram w h cols rows).pages.map Page.frame = (List.range (rows * cols)).map fun i =>
    (i % cols * (w / cols), i / cols * (h / rows), w / cols, h / rows,
      w / cols * ((h / rows + 7) / 8)) := by
  simp [newVram, grid_eq_map, newPage, Page.frame, Page.fill, Function.comp_def]

theorem HasFrames.length_eq (hd : HasFrames w h cols rows disp) : disp.pages.length = rows * cols := by
  have hlen := congrArg List.length (hd.2.trans frames_eq)
  simpa using hlen

theorem HasFrames.page_eq (hd : HasFrames w h cols rows disp) {i : Nat} {page : Page}
    (hi : disp.pages[i]? = some page) : i < rows * cols ∧ page.x = i % cols * (w / cols) ∧
      page.y = i / cols * (h / rows) ∧ page.w = w / cols ∧ page.h = h / rows ∧ page.Sized := by
  have hframe := congrArg (·[i]?) (hd.2.trans frames_eq)
  simp only [List.getElem?_map, hi, Option.map_some] at hframe
  obtain ⟨j, hj, hpage⟩ := Option.map_eq_some_iff.mp hframe.symm
  obtain ⟨hlt, rfl⟩ := List.getElem?_eq_some_iff.mp hj
  rw [List.length_range] at hlt
  rw [List.getElem_range] at hpage
  simp only [Page.frame, Prod.mk.injEq] at hpage
  obtain ⟨hx, hy, hw, hh, hlen⟩ := hpage
  exact ⟨hlt, hx.symm, hy.symm, hw.symm, hh.symm, by rw [Page.Sized, ← hlen, ← hw, ← hh]⟩

theorem HasFrames.sized (hd : HasFrames w h cols rows disp) {page : Page} (hmem : page ∈ disp.pages) :
    page.Sized := by
  obtain ⟨i, hi⟩ := List.mem_iff_getElem?.mp hmem
  exact (hd.page_eq hi).2.2.2.2.2

end Frames

/-- A pixel of a page, in the coordinates of the page. -/
theorem Page.Contains.local {page : Page} {x y : Int} (hin : page.Contains x y) :
    ∃ a b : Nat, a < page.w ∧ b < page.h ∧ x = page.x + a ∧ y = page.y + b := by
  obtain ⟨hx, hx', hy, hy'⟩ := hin
  exact ⟨(x - page.x).toNat, (y - page.y).toNat, by omega, by omega, by omega, by omega⟩

theorem place_inj {p a a' k k' : Nat} (ha : a < p) (ha' : a' < p) (h : k * p + a = k' * p + a') :
    k = k' ∧ a = a' := by
  have hpos : 0 < p := by omega
  have hdiv := congrArg (· / p) h
  have hmod := congrArg (· % p) h
  simp only [Nat.add_comm _ a, Nat.add_comm _ a', Nat.add_mul_div_right _ _ hpos, Nat.div_eq_of_lt ha,
    Nat.div_eq_of_lt ha', Nat.add_mul_mod_self_right, Nat.mod_eq_of_lt ha, Nat.mod_eq_of_lt ha'] at hdiv hmod
  exact ⟨by omega, hmod⟩

section Plot
variable {w h cols rows : Nat} {disp : Display} {bits : Bitmap} {x y : Int}

theorem contains_unique (hd : HasFrames w h cols rows disp) {i j : Nat} {p q : Page}
    (hi : disp.pages[i]? = some p) (hj : disp.pages[j]? = some q) (hp : p.Contains x y)
    (hq : q.Contains x y) : i = j := by
  obtain ⟨-, hpx, hpy, hpw, hph, -⟩ := hd.page_eq hi
  obtain ⟨-, hqx, hqy, hqw, hqh, -⟩ := hd.page_eq hj
  obtain ⟨a, b, ha, hb, hxa, hyb⟩ := hp.local
  obtain ⟨a', b', ha', hb', hxa', hyb'⟩ := hq.local
  rw [hpw] at ha
  rw [hph] at hb
  rw [hqw] at ha'
  rw [hqh] at hb'
  have hcol : i % cols = j % cols := (place_inj ha ha' (by omega)).1
  have hrow : i / cols = j / cols := (place_inj hb hb' (by omega)).1
  rw [← Nat.div_add_mod i cols, ← Nat.div_add_mod j cols, hcol, hrow]

theorem pages_pairwise (hd : HasFrames w h cols rows disp) (x y : Int) :
    disp.pages.Pairwise fun p q => ¬ (p.Contains x y ∧ q.Contains x y) := by
  rw [List.pairwise_iff_getElem]
  rintro i j hi hj hlt ⟨hp, hq⟩
  have heq := contains_unique hd (List.getElem?_eq_getElem hi) (List.getElem?_eq_getElem hj) hp hq
  omega

/-- The loop over the pages comes to the only one that the pixel is in. -/
theorem plotPages_eq_map (color : UInt32) {pages : List Page}
    (hunique : pages.Pairwise fun p q => ¬ (p.Contains x y ∧ q.Contains x y)) :
    plotPages x y color pages = pages.map fun page =>
      if page.Contains x y then page.setPixel (x - page.x) (y - page.y) color else page := by
  induction pages with
  | nil => rfl
  | cons page pages ih =>
    obtain ⟨hfirst, hrest⟩ := List.pairwise_cons.mp hunique
    rw [plotPages, List.map_cons]
    by_cases hin : page.Contains x y
    · rw [if_pos hin, if_pos hin]
      congr 1
      refine (List.map_id' pages).symm.trans (List.map_congr_left fun q hq => ?_)
      rw [if_neg fun hother => hfirst q hq ⟨hin, hother⟩]
    · rw [if_neg hin, if_neg hin, ih hrest]

/-- The pages end with the last whole column and row of them. -/
theorem contains_bounds (hd : HasFrames w h cols rows disp) {page : Page} (hmem : page ∈ disp.pages)
    (hin : page.Contains x y) :
    (0 ≤ x ∧ x < (cols * (w / cols) : Nat)) ∧ 0 ≤ y ∧ y < (rows * (h / rows) : Nat) := by
  obtain ⟨i, hi⟩ := List.mem_iff_getElem?.mp hmem
  obtain ⟨hlt, hpx, hpy, hpw, hph, -⟩ := hd.page_eq hi
  obtain ⟨a, b, ha, hb, rfl, rfl⟩ := hin.local
  have hcols : 0 < cols := Nat.pos_of_mul_pos_left (Nat.lt_of_le_of_lt (Nat.zero_le i) hlt)
  have hcol : i % cols + 1 ≤ cols := Nat.mod_lt i hcols
  have hrow : i / cols + 1 ≤ rows := (Nat.div_lt_iff_lt_mul hcols).mpr hlt
  have hright : (i % cols + 1) * (w / cols) ≤ cols * (w / cols) := Nat.mul_le_mul_right _ hcol
  have hbottom : (i / cols + 1) * (h / rows) ≤ rows * (h / rows) := Nat.mul_le_mul_right _ hrow
  rw [Nat.succ_mul] at hright hbottom
  refine ⟨⟨?_, ?_⟩, ?_, ?_⟩ <;> omega

theorem onScreen_of_contains (hd : HasFrames w h cols rows disp) {page : Page} (hmem : page ∈ disp.pages)
    (hin : page.Contains x y) : OnScreen w h x y := by
  obtain ⟨⟨hx, hx'⟩, hy, hy'⟩ := contains_bounds hd hmem hin
  have hright := Nat.mul_div_le w cols
  have hbottom := Nat.mul_div_le h rows
  refine ⟨hx, by omega, hy, by omega⟩

theorem plot_holds (hd : Holds w h cols rows disp bits) (x y : Int) (color : UInt32) :
    Holds w h cols rows (surface.plot disp x y color) ((flatSurface w h).plot bits x y color) := by
  obtain ⟨hframes, hagrees⟩ := hd
  have hpages := plotPages_eq_map color (pages_pairwise hframes x y)
  refine ⟨⟨hframes.1, ?_⟩, ?_⟩
  · rw [← hframes.2]
    simp only [surface, hpages, List.map_map]
    apply List.map_congr_left
    intro page _
    dsimp only [Function.comp]
    split_ifs
    · exact Page.setPixel_frame page _ _ color
    · rfl
  · intro page hmem px py hin
    simp only [surface, hpages] at hmem
    obtain ⟨old, hold, rfl⟩ := List.mem_map.mp hmem
    have hsized := hframes.sized hold
    by_cases htarget : old.Contains x y
    · have hscreen := onScreen_of_contains hframes hold htarget
      have hframe := Page.setPixel_frame old (x - old.x) (y - old.y) color
      simp only [Page.frame, Prod.mk.injEq] at hframe
      obtain ⟨hx, hy, hw, hh, -⟩ := hframe
      rw [if_pos htarget] at hin ⊢
      have hin' : old.Contains px py := by
        unfold Page.Contains at hin ⊢
        rwa [hx, hy, hw, hh] at hin
      have hbefore := hagrees old hold px py hin'
      rw [hx, hy]
      obtain ⟨a, b, ha, hb, rfl, rfl⟩ := htarget.local
      obtain ⟨c, d, hc, hd, rfl, rfl⟩ := hin'.local
      simp only [flatSurface, if_pos hscreen, add_sub_cancel_left] at hbefore ⊢
      rw [Page.getPixel_setPixel hsized ha hb hc hd, hbefore]
      have hsame : (old.x : Int) + c = old.x + a ∧ (old.y : Int) + d = old.y + b ↔ c = a ∧ d = b := by omega
      by_cases hpixel : c = a ∧ d = b
      · rw [if_pos hpixel, if_pos (hsame.mpr hpixel)]
        simp
      · rw [if_neg hpixel, if_neg (hsame.not.mpr hpixel)]
    · rw [if_neg htarget] at hin ⊢
      have hother : ¬ (px = x ∧ py = y) := by
        rintro ⟨rfl, rfl⟩
        exact htarget hin
      have hkept : (flatSurface w h).plot bits x y color px py = bits px py := by
        unfold flatSurface
        dsimp only
        split_ifs <;> simp [hother]
      rw [hkept, hagrees old hold px py hin]

theorem fill_holds (hd : Holds w h cols rows disp bits) (color : UInt32) :
    Holds w h cols rows (surface.fill disp color) ((flatSurface w h).fill bits color) := by
  obtain ⟨hframes, -⟩ := hd
  refine ⟨⟨hframes.1, ?_⟩, ?_⟩
  · rw [← hframes.2]
    simp only [surface, List.map_map]
    exact List.map_congr_left fun page _ => Page.fill_frame page color
  · intro page hmem px py hin
    obtain ⟨old, hold, rfl⟩ := List.mem_map.mp hmem
    have hin' : old.Contains px py := hin
    have hscreen := onScreen_of_contains hframes hold hin'
    obtain ⟨c, d, hc, hd, rfl, rfl⟩ := hin'.local
    have hfill := Page.getPixel_fill (hframes.sized hold) hc hd color
    simp only [Page.fill] at hfill
    simp only [flatSurface, if_pos hscreen, Page.fill, add_sub_cancel_left, hfill]
    simp

theorem simulates (w h cols rows : Nat) :
    surface.Simulates (flatSurface w h) (Holds w h cols rows) where
  plot hd x y color := plot_holds hd x y color
  fill hd color := fill_holds hd color

theorem newVram_holds (w h cols rows : Nat) :
    Holds w h cols rows (newVram w h cols rows) (fun _ _ => false) := by
  refine ⟨⟨rfl, rfl⟩, ?_⟩
  intro page hmem x y hin
  have hsized := HasFrames.sized (⟨rfl, rfl⟩ : HasFrames w h cols rows (newVram w h cols rows)) hmem
  obtain ⟨ty, -, tx, -, rfl⟩ := mem_grid.mp hmem
  obtain ⟨c, d, hc, hd, rfl, rfl⟩ := hin.local
  have hfilled := Page.getPixel_fill hsized hc hd 0
  have hself : (newPage (w / cols) (h / rows) ty tx).fill 0 = newPage (w / cols) (h / rows) ty tx := by
    simp [newPage, Page.fill]
  rw [hself] at hfilled
  rw [add_sub_cancel_left, add_sub_cancel_left, hfilled]
  simp

end Plot

/-! ## What is reported -/

section Reported
variable {w h cols rows : Nat} {disp : Display} {bits : Bitmap} {entry : PageEntry}

theorem mem_pages {clear : Bool} : entry ∈ (pages disp clear).1 ↔
    ∃ i page, disp.pages[i]? = some page ∧ entry = ⟨i % (disp.w / page.w), i / (disp.w / page.w), page.buffer⟩ := by
  simp only [pages, pagesSub, Bool.not_false, Bool.true_or, List.filter_true, List.mem_map, Prod.exists,
    List.mem_zipIdx_iff_getElem?]
  constructor
  · rintro ⟨page, i, hi, rfl⟩
    exact ⟨i, page, hi, rfl⟩
  · rintro ⟨i, page, hi, rfl⟩
    exact ⟨page, i, hi, rfl⟩

/-- The column and the row of a page are its own if the pages have the whole width. -/
theorem placed_eq (hcols : 0 < cols) (hle : cols ≤ w) (hdvd : cols ∣ w) (hd : HasFrames w h cols rows disp)
    {i : Nat} {page : Page} (hi : disp.pages[i]? = some page) :
    (⟨i % (disp.w / page.w), i / (disp.w / page.w), page.buffer⟩ : PageEntry).placed (w / cols) (h / rows) =
      { page with dirty := false } := by
  obtain ⟨-, hx, hy, hw, hh, -⟩ := hd.page_eq hi
  have hnumber : disp.w / page.w = cols := by
    rw [hd.1, hw]
    exact Nat.div_div_self hdvd (by omega)
  rw [hnumber, PageEntry.placed, ← hx, ← hy, ← hw, ← hh]

theorem shows_of_dvd (hcols : 0 < cols) (hcw : cols ≤ w) (hrows : 0 < rows) (hrh : rows ≤ h)
    (hw : cols ∣ w) (hh : rows ∣ h) (hd : Holds w h cols rows disp bits) (clear : Bool) :
    Shows (pages disp clear).1 (w / cols) (h / rows) w h bits := by
  obtain ⟨hframes, hagrees⟩ := hd
  have hpageW : 0 < w / cols := Nat.div_pos hcw hcols
  have hpageH : 0 < h / rows := Nat.div_pos hrh hrows
  constructor
  · rintro x y ⟨hx0, hxw, hy0, hyh⟩
    obtain ⟨a, rfl⟩ := Int.eq_ofNat_of_zero_le hx0
    obtain ⟨b, rfl⟩ := Int.eq_ofNat_of_zero_le hy0
    have hcol : a / (w / cols) < cols := by
      rw [Nat.div_lt_iff_lt_mul hpageW, Nat.mul_div_cancel' hw]
      omega
    have hrow : b / (h / rows) < rows := by
      rw [Nat.div_lt_iff_lt_mul hpageH, Nat.mul_div_cancel' hh]
      omega
    have hlt : b / (h / rows) * cols + a / (w / cols) < rows * cols := by
      have hmul : (b / (h / rows) + 1) * cols ≤ rows * cols := Nat.mul_le_mul_right _ hrow
      rw [Nat.succ_mul] at hmul
      omega
    rw [← hframes.length_eq] at hlt
    have hi := List.getElem?_eq_getElem hlt
    refine ⟨_, mem_pages.mpr ⟨_, _, hi, rfl⟩, ?_⟩
    rw [placed_eq hcols hcw hw hframes hi]
    obtain ⟨-, hx, hy, hpw, hph, -⟩ := hframes.page_eq hi
    have hdiv : (b / (h / rows) * cols + a / (w / cols)) / cols = b / (h / rows) := by
      rw [Nat.add_comm, Nat.add_mul_div_right _ _ hcols, Nat.div_eq_of_lt hcol, Nat.zero_add]
    have hmod : (b / (h / rows) * cols + a / (w / cols)) % cols = a / (w / cols) := by
      rw [Nat.add_comm, Nat.add_mul_mod_self_right, Nat.mod_eq_of_lt hcol]
    rw [hmod] at hx
    rw [hdiv] at hy
    have hplaceX := Nat.div_add_mod' a (w / cols)
    have hplaceY := Nat.div_add_mod' b (h / rows)
    have hrestX := Nat.mod_lt a hpageW
    have hrestY := Nat.mod_lt b hpageH
    unfold Page.Contains
    dsimp only
    rw [hx, hy, hpw, hph]
    refine ⟨by omega, by omega, by omega, by omega⟩
  · intro entry hmem x y hin
    obtain ⟨i, page, hi, rfl⟩ := mem_pages.mp hmem
    rw [placed_eq hcols hcw hw hframes hi] at hin ⊢
    have hpage := List.mem_of_getElem? hi
    have hin' : page.Contains x y := hin
    exact ⟨onScreen_of_contains hframes hpage hin', hagrees page hpage x y hin'⟩

/-- A pixel that is in no page is not reported. -/
theorem not_shows_outside {x y : Int} (hd : Holds w h cols rows disp bits) (hscreen : OnScreen w h x y)
    (hbits : ∀ px py, bits px py = true ↔ px = x ∧ py = y) (hout : ∀ page ∈ disp.pages, ¬ page.Contains x y)
    (clear : Bool) : ¬ Shows (pages disp clear).1 (w / cols) (h / rows) w h bits := by
  rintro ⟨hcovered, hpixels⟩
  obtain ⟨entry, hmem, hin⟩ := hcovered x y hscreen
  have hpixel := (hpixels entry hmem x y hin).2
  rw [if_pos ((hbits x y).mpr ⟨rfl, rfl⟩)] at hpixel
  obtain ⟨i, page, hi, rfl⟩ := mem_pages.mp hmem
  obtain ⟨-, -, -, hpw, hph, -⟩ := hd.1.page_eq hi
  have hpage := List.mem_of_getElem? hi
  obtain ⟨a, b, ha, hb, hxa, hyb⟩ := hin.local
  have hlocal : page.getPixel a b = 1 := by
    simp only [PageEntry.placed] at hpixel hxa hyb
    rw [hxa, hyb, add_sub_cancel_left, add_sub_cancel_left] at hpixel
    unfold Page.getPixel at hpixel ⊢
    rw [hpw, hph]
    exact hpixel
  simp only [PageEntry.placed] at ha hb
  have hcontains : page.Contains (page.x + a) (page.y + b) := by
    unfold Page.Contains
    rw [hpw, hph]
    refine ⟨by omega, by omega, by omega, by omega⟩
  have hagree := hd.2 page hpage _ _ hcontains
  rw [add_sub_cancel_left, add_sub_cancel_left, hlocal] at hagree
  by_cases hset : bits (page.x + a) (page.y + b) = true
  · obtain ⟨hx, hy⟩ := (hbits _ _).mp hset
    rw [hx, hy] at hcontains
    exact hout page hpage hcontains
  · rw [if_neg hset] at hagree
    exact absurd hagree (by decide)

end Reported

/-- The pages of a VRAM, placed by the columns and rows they are reported with, are the flat bitmap after any
calls, exactly when the pages divide the width and the height. -/
theorem pages_refine_iff (w h cols rows : Nat) (hcols : 1 ≤ cols) (hcw : cols ≤ w) (hrows : 1 ≤ rows)
    (hrh : rows ≤ h) :
    (∀ (calls : List DrawCall) (clear : Bool), (∀ call ∈ calls, call.Defined) →
      ∃ disp bits, draw surface (newVram w h cols rows) calls = some disp ∧
        draw (flatSurface w h) (fun _ _ => false) calls = some bits ∧
        Shows (pages disp clear).1 (w / cols) (h / rows) w h bits) ↔ cols ∣ w ∧ rows ∣ h := by
  constructor
  · intro hall
    have hcorner (x y : Int) (hscreen : OnScreen w h x y) :
        ∃ page ∈ (surface.plot (newVram w h cols rows) x y 1).pages, page.Contains x y := by
      by_contra hout
      push Not at hout
      obtain ⟨disp, bits, hdisp, hbits, hshows⟩ := hall [.setPixel x y 1] false (by simp [DrawCall.Defined])
      cases hdisp
      cases hbits
      refine not_shows_outside (plot_holds (newVram_holds w h cols rows) x y 1) hscreen ?_ hout false hshows
      intro px py
      simp [flatSurface, hscreen]
    have hframes (x y : Int) : HasFrames w h cols rows (surface.plot (newVram w h cols rows) x y 1) :=
      (plot_holds (newVram_holds w h cols rows) x y 1).1
    constructor
    · obtain ⟨page, hmem, hin⟩ := hcorner (w - 1 : Nat) 0 ⟨by omega, by omega, by omega, by omega⟩
      have hlt := (contains_bounds (hframes _ _) hmem hin).1.2
      have hle := Nat.mul_div_le w cols
      exact ⟨w / cols, by omega⟩
    · obtain ⟨page, hmem, hin⟩ := hcorner 0 (h - 1 : Nat) ⟨by omega, by omega, by omega, by omega⟩
      have hlt := (contains_bounds (hframes _ _) hmem hin).2.2
      have hle := Nat.mul_div_le h rows
      exact ⟨h / rows, by omega⟩
  · rintro ⟨hw, hh⟩ calls clear -
    obtain ⟨disp, bits, hdisp, hbits, hholds⟩ :=
      draw_simulates (simulates w h cols rows) (newVram_holds w h cols rows) calls
    exact ⟨disp, bits, hdisp, hbits, shows_of_dvd hcols hcw hrows hrh hw hh hholds clear⟩

/-- A screen of 8 pages. -/
theorem pages_refine_ssd1306 :
    ∃ disp bits, draw surface (newVram 128 64 1 8) [.drawLine 0 0 127 63 1] = some disp ∧
      draw (flatSurface 128 64) (fun _ _ => false) [.drawLine 0 0 127 63 1] = some bits ∧
      Shows (pages disp true).1 128 8 128 64 bits :=
  (pages_refine_iff 128 64 1 8 (by decide) (by decide) (by decide) (by decide)).mpr
    ⟨by decide, by decide⟩ _ true (by simp [DrawCall.Defined])

/-- The last column of a screen of 3 by 8 in two columns of pages. -/
theorem last_column_lost :
    (draw surface (newVram 3 8 2 1) [.setPixel 2 0 1]).map (fun disp => (pages disp true).1) =
      some [⟨0, 0, [0]⟩, ⟨1, 0, [0]⟩] ∧
    (draw (flatSurface 3 8) (fun _ _ => false) [.setPixel 2 0 1]).map (fun bits => bits 2 0) = some true := by
  decide +kernel

end PicoRuby.Vram
