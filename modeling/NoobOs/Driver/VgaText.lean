import NoobOs.Driver.Terminal
import NoobOs.Lib.CellGrid
import Mathlib.Tactic.IntervalCases

/-!
The screen of `vga_text.c` under the terminal: what the console operations store in the text memory
at 0xb8000, of 16 bits a cell, and that it shows the rows of the buffer from the offset on. Each
function here does to the terminal what the one of `Terminal` does, and to the screen what its
console calls do.
-/
namespace VgaText
open Terminal CellGrid Runs

abbrev Vga := Int → BitVec 16

def colours (fg bg : UInt8) : BitVec 16 :=
  ((fg.toBitVec.setWidth 16 <<< 8) &&& 0x0f00) ||| ((bg.toBitVec.setWidth 16 <<< 12) &&& 0xf000)

def glyph (c : Cell) : BitVec 16 := c.ch.toBitVec.setWidth 16 ||| colours c.fg c.bg

def vgaPutc (t : Term) (vga : Vga) (x y : Int) (c : Cell) : Vga :=
  Function.update vga (place t.width y x) (c.ch.toBitVec.setWidth 16 ||| colours t.fg t.bg)

def rowsTo (t : Term) (n : Int) : List Int :=
  ((List.range n.toNat).map Int.ofNat).takeWhile fun j => decide (j + t.scrollTop < t.height)

def vgaFlush (t : Term) (vga : Vga) : Vga :=
  fill t.width 0 (fun p => glyph (t.cbuf (place t.width (p.1 + t.scrollTop) p.2)))
    (columns t.width.toNat (rowsTo t (t.dheight + 1))) vga

def cellOf (v : BitVec 16) : Cell :=
  ⟨UInt8.ofBitVec ((v &&& 0xff).setWidth 8), UInt8.ofBitVec (((v >>> 8) &&& 0x0f).setWidth 8),
    UInt8.ofBitVec (((v >>> 12) &&& 0x0f).setWidth 8)⟩

/-- The cells of the screen are read back into the buffer. -/
def vgaReflush (t : Term) (vga : Vga) : Term :=
  { t with
    cbuf :=
      fill t.width t.scrollTop (fun p => cellOf (vga (place t.width p.1 p.2)))
        (columns t.width.toNat (rowsTo t t.dheight)) t.cbuf }

def cleared (t : Term) : Term :=
  { t with
    cursorX := 0, cursorY := 0, scrollTop := 0, cbuf :=
    fun k => if 0 ≤ k ∧ k < t.height * t.width then ⟨0, 0, 0⟩ else t.cbuf k }

/-- The 2000 cells of a screen are cleared too, and those of the buffer that are on it get a colour.
    -/
def vgaClear (t : Term) (vga : Vga) : Term × Vga :=
  let t := cleared t
  ({ t with
      cbuf :=
        fill t.width t.scrollTop (fun p => { t.cbuf (place t.width (p.1 + t.scrollTop) p.2) with
          fg := 0x0f })
        (columns t.width.toNat (rowsTo t t.dheight)) t.cbuf },
    fun k => if 0 ≤ k ∧ k < 2000 then 0x0f00 else vga k)

/-! ## terminal.c -/

def scrollUp (t : Term) (vga : Vga) : Term × Vga :=
  let t := termScrollUp t
  (t, vgaFlush t vga)

def scrollDown (t : Term) (vga : Vga) : Term × Vga :=
  if t.scrollTop ≤ 0 then (t, vga)
  else
    let t := termScrollDown t
    (t, vgaFlush t vga)

def wrap (t : Term) (vga : Vga) : Term × Vga :=
  let u := if t.cursorY ≥ t.height then { t with cursorY := t.cursorY - 1 } else t
  if t.cursorX ≥ t.width ∧ u.cursorY - u.scrollTop ≥ u.dheight then
    (termWrap t, vgaFlush (termScrollUp u) vga)
  else (termWrap t, vga)

def putcRaw (t : Term) (vga : Vga) (c : UInt8) : Term × Vga :=
  let (u, vga) := wrap t vga
  (termPutcRaw t c, vgaPutc u vga u.cursorX (u.cursorY - u.scrollTop) ⟨c, u.fg, u.bg⟩)

def newline (t : Term) (vga : Vga) : Term × Vga :=
  (termNewline t, if t.cursorY - t.scrollTop ≥ t.dheight then vgaFlush (termScrollUp t) vga
    else vga)

def putc (t : Term) (vga : Vga) (c : UInt8) : Term × Vga :=
  if c = 0x0a then newline t vga
  else if c = 0x0d ∨ c = 0x08 then (termPutc t c, vga)
  else putcRaw t vga c

/-! ## vt.c -/

def dispatch (v : Vt) (vga : Vga) (c : UInt8) (junk : UInt8 × UInt8) : Vt × Vga :=
  (vtDispatch v c junk,
    if c = 0x7e then
      if v.params 0 = 5 then (scrollDown v.t vga).2
      else if v.params 0 = 6 then (scrollUp v.t vga).2 else vga
    else vga)

def process (v : Vt) (vga : Vga) (c : UInt8) (junk : UInt8 × UInt8) : Option (Vt × Vga) :=
  (vtProcess v c junk).map fun v' =>
    (v', match v.s with
      | .ground => if c = 0x1b then vga else (putc v.t vga c).2
      | .escape => vga
      | .csiParam =>
        if Strings.isdigit c then vga
        else if c = 0x3b then vga
        else match vtParam v with
          | none => vga
          | some v => (dispatch v vga c junk).2)

/-! ## Runs -/

/-- `vgatext_init`: the cursor is where the hardware has it, the screen stays, and `heap` is what
    the new buffer held. -/
def boot (i : BitVec 16) (vga : Vga) (heap : Int → Cell) : Vt × Vga :=
  let x : Int := i.toNat % 80
  let y : Int := i.toNat / 80
  (vgatextInit x y (vgaReflush (vgatextInit x y heap).t vga).cbuf, vga)

inductive Action where
  | byte (c : UInt8) (junk : UInt8 × UInt8)
  | clear

def act (s : Vt × Vga) : Action → Option (Vt × Vga)
  | .byte c junk => process s.1 s.2 c junk
  | .clear =>
    let (t, vga) := vgaClear s.1.t s.2
    some ({ s.1 with t := t }, vga)

/-! ## The rows on the screen -/

/-- The sizes of the device, and each of its rows as the buffer has it. -/
structure Shows (t : Term) (vga : Vga) : Prop where
  sizes : t.width = 80 ∧ t.height = 50 ∧ t.dheight = 24
  top : 0 ≤ t.scrollTop ∧ t.scrollTop ≤ 26
  x : 0 ≤ t.cursorX
  cells : ∀ row col, 0 ≤ row ∧ row < 24 → 0 ≤ col ∧ col < 80 →
    vga (place 80 row col) = glyph (t.cbuf (place 80 (row + t.scrollTop) col))

section Screen
variable {t u : Term} {vga : Vga} {v v' : Vt} {c : UInt8} {junk : UInt8 × UInt8}

theorem mem_rowsTo {n row : Int} : row ∈ rowsTo t n ↔ (0 ≤ row ∧ row < n) ∧
    row + t.scrollTop < t.height := by
  have same : (fun j : Nat => decide ((j : Int) + t.scrollTop < t.height)) = fun j =>
      decide (j < (t.height - t.scrollTop).toNat) := by
    funext j
    exact decide_eq_decide.mpr (by omega)
  have listed : rowsTo t n =
      (List.range' 0 (min n.toNat ((t.height - t.scrollTop).toNat - 0))).map Int.ofNat := by
    rw [← range_takeWhile, ← same, rowsTo, List.range_eq_range', List.takeWhile_map]
    rfl
  rw [listed, List.mem_map]
  simp only [List.mem_range'_1]
  constructor
  · rintro ⟨j, less, rfl⟩
    simp only [Int.ofNat_eq_natCast]
    omega
  · intro inside
    exact ⟨row.toNat, by omega, by simp only [Int.ofNat_eq_natCast]; omega⟩

theorem Shows.congr (shows : Shows t vga)
    (sizes : u.width = t.width ∧ u.height = t.height ∧ u.dheight = t.dheight)
    (top : u.scrollTop = t.scrollTop) (cbuf : u.cbuf = t.cbuf) (x : 0 ≤ u.cursorX) :
    Shows u vga where
  sizes := by rw [sizes.1, sizes.2.1, sizes.2.2]; exact shows.sizes
  top := top ▸ shows.top
  x := x
  cells := by rw [cbuf, top]; exact shows.cells

theorem flush_shows (vga : Vga) (sizes : t.width = 80 ∧ t.height = 50 ∧ t.dheight = 24)
    (top : 0 ≤ t.scrollTop ∧ t.scrollTop ≤ 26) (x : 0 ≤ t.cursorX) : Shows t (vgaFlush t vga) where
  sizes := sizes
  top := top
  x := x
  cells row col inside inside' := by
    obtain ⟨width, height, dheight⟩ := sizes
    have filled := fill_cell (w := 80) (rowsTo t (t.dheight + 1)) row 0
      (fun p => glyph (t.cbuf (place t.width (p.1 + t.scrollTop) p.2))) vga inside'
    rw [if_pos (mem_rowsTo.mpr (by omega)), Int.add_zero] at filled
    rw [width] at filled
    rw [vgaFlush, width]
    exact filled

theorem scrollUp_shows (shows : Shows t vga) (other : Vga) :
    Shows (termScrollUp t) (vgaFlush (termScrollUp t) other) := by
  obtain ⟨⟨width, height, dheight⟩, top, x, -⟩ := shows
  apply flush_shows
  · rw [termScrollUp_eq]
    split <;> exact ⟨width, height, dheight⟩
  · rw [termScrollUp_eq]
    split
    · exact top
    · dsimp only
      omega
  · rw [termScrollUp_eq]
    split <;> exact x

theorem scrollDown_shows (shows : Shows t vga) : Shows (termScrollDown t) (scrollDown t vga).2 := by
  unfold scrollDown
  split
  · rename_i first
    rw [termScrollDown, if_pos first]
    exact shows
  · rename_i more
    have lower : termScrollDown t = { t with scrollTop := t.scrollTop - 1 } := by
      rw [termScrollDown, if_neg more]
      exact termSetCursor_same _
    rw [lower]
    obtain ⟨sizes, top, x, -⟩ := shows
    exact flush_shows vga sizes (by dsimp only; omega) x

theorem wrap_shows (shows : Shows t vga) : Shows (termWrap t) (wrap t vga).2 ∧
    (termWrap t).cursorX < 80 := by
  have width := shows.sizes.1
  obtain ⟨u, moved⟩ : ∃ u, (if t.cursorY ≥ t.height then { t with cursorY := t.cursorY - 1 }
    else t) = u := ⟨_, rfl⟩
  have shows' : Shows u vga := by
    rw [← moved]
    split <;> exact shows.congr ⟨rfl, rfl, rfl⟩ rfl rfl shows.x
  unfold wrap termWrap
  simp only [moved]
  by_cases full : t.cursorX ≥ t.width
  · by_cases below : u.cursorY - u.scrollTop ≥ u.dheight
    · rw [if_pos full, if_pos below, if_pos ⟨full, below⟩]
      exact ⟨(scrollUp_shows shows' vga).congr ⟨rfl, rfl, rfl⟩ rfl rfl (Int.le_refl 0),
        show (0 : Int) < 80 by decide⟩
    · rw [if_pos full, if_neg below, if_neg fun both => below both.2]
      exact ⟨shows'.congr ⟨rfl, rfl, rfl⟩ rfl rfl (Int.le_refl 0), show (0 : Int) < 80 by decide⟩
  · rw [if_neg full, if_neg fun both => full both.1]
    exact ⟨shows, by omega⟩

theorem putcRaw_shows (shows : Shows t vga) (c : UInt8) :
    Shows (termPutcRaw t c) (putcRaw t vga c).2 := by
  obtain ⟨wrapped, inRow⟩ := wrap_shows shows
  have first : (wrap t vga).1 = termWrap t := by
    unfold wrap
    dsimp only
    rw [apply_ite Prod.fst]
    exact ite_self _
  obtain ⟨sizes, top, x, cells⟩ := wrapped
  refine ⟨sizes, top, by simp only [termPutcRaw]; omega, fun row col inside inside' => ?_⟩
  simp only [putcRaw, first, termPutcRaw, vgaPutc, sizes.1]
  have spot : (termWrap t).cursorY * 80 + (termWrap t).cursorX =
    place 80 (termWrap t).cursorY (termWrap t).cursorX := rfl
  by_cases here : row = (termWrap t).cursorY - (termWrap t).scrollTop ∧ col = (termWrap t).cursorX
  · obtain ⟨rfl, rfl⟩ := here
    rw [Function.update_self, Int.sub_add_cancel, spot, Function.update_self]
    rfl
  · have screen : place 80 row col ≠ place 80 ((termWrap t).cursorY - (termWrap t).scrollTop)
        (termWrap t).cursorX :=
      fun same => here ((place_inj inside' ⟨x, inRow⟩).mp same)
    have buffer : place 80 (row + (termWrap t).scrollTop) col ≠
        place 80 (termWrap t).cursorY (termWrap t).cursorX := by
      intro same
      obtain ⟨rows, cols⟩ := (place_inj inside' ⟨x, inRow⟩).mp same
      exact here ⟨by omega, cols⟩
    rw [Function.update_of_ne screen, spot, Function.update_of_ne buffer]
    exact cells row col inside inside'

theorem newline_shows (shows : Shows t vga) : Shows (termNewline t) (newline t vga).2 := by
  unfold newline termNewline
  by_cases below : t.cursorY - t.scrollTop ≥ t.dheight
  · simp only [if_pos below]
    exact (scrollUp_shows shows vga).congr ⟨rfl, rfl, rfl⟩ rfl rfl (scrollUp_shows shows vga).x
  · simp only [if_neg below]
    exact shows.congr ⟨rfl, rfl, rfl⟩ rfl rfl shows.x

theorem putc_shows (shows : Shows t vga) (c : UInt8) : Shows (termPutc t c) (putc t vga c).2 := by
  unfold putc termPutc
  by_cases line : c = 0x0a
  · simp only [if_pos line]
    exact newline_shows shows
  · by_cases start : c = 0x0d
    · simp only [if_neg line, if_pos start, if_pos (Or.inl start : c = 0x0d ∨ c = 0x08)]
      exact shows.congr ⟨rfl, rfl, rfl⟩ rfl rfl (Int.le_refl 0)
    · by_cases back : c = 0x08
      · simp only [if_neg line, if_neg start, if_pos back, if_pos (Or.inr back : c = 0x0d ∨
          c = 0x08), termBkspace]
        split
        · exact shows
        · exact shows.congr ⟨rfl, rfl, rfl⟩ rfl rfl (by dsimp only; omega)
      · simp only [if_neg line, if_neg start, if_neg back,
          if_neg (show ¬ (c = 0x0d ∨ c = 0x08) by simp [start, back])]
        exact putcRaw_shows shows c

theorem vtSetattr_shows (shows : Shows v.t vga) (junk : UInt8 × UInt8) :
    Shows (vtSetattr v junk).t vga := by
  unfold vtSetattr
  split <;> exact shows.congr ⟨rfl, rfl, rfl⟩ rfl rfl shows.x

theorem home_shows (shows : Shows t vga) : Shows (termSetCursor t 0 0) vga := by
  unfold termSetCursor
  split
  · exact shows
  · split
    · exact shows
    · split
      · exact shows
      · exact shows.congr ⟨rfl, rfl, rfl⟩ rfl rfl (Int.le_refl 0)

theorem dispatch_shows (shows : Shows v.t vga) (c : UInt8) (junk : UInt8 × UInt8) :
    Shows (vtDispatch v c junk).t (dispatch v vga c junk).2 := by
  unfold dispatch vtDispatch
  by_cases colour : c = 0x6d
  · have other : c ≠ 0x7e := by
      rw [colour]
      decide
    simp only [if_pos colour, if_neg other]
    exact vtSetattr_shows shows junk
  · by_cases scroll : c = 0x7e
    · simp only [if_neg colour, if_pos scroll, vtScroll]
      by_cases up : v.params 0 = 5
      · simp only [if_pos up]
        exact scrollDown_shows shows
      · by_cases down : v.params 0 = 6
        · simp only [if_neg up, if_pos down]
          exact scrollUp_shows shows vga
        · simp only [if_neg up, if_neg down]
          exact shows
    · simp only [if_neg colour, if_neg scroll]
      split
      · exact home_shows shows
      · exact shows

theorem vtParam_term {w : Vt} (stored : vtParam v = some w) : w.t = v.t := by
  unfold vtParam at stored
  split at stored
  · cases stored
    rfl
  · cases stored

theorem process_shows (shows : Shows v.t vga) {vga' : Vga}
    (stepped : process v vga c junk = some (v', vga')) : Shows v'.t vga' := by
  unfold process at stepped
  obtain ⟨w, done, same⟩ := Option.map_eq_some_iff.mp stepped
  cases same
  unfold vtProcess at done
  cases mode : v.s with
  | ground =>
    rw [mode] at done
    by_cases escape : c = 0x1b
    · simp only [if_pos escape, Option.some.injEq] at done ⊢
      subst done
      exact shows
    · simp only [if_neg escape, Option.some.injEq] at done ⊢
      subst done
      exact putc_shows shows c
  | escape =>
    simp only [mode, Option.some.injEq] at done ⊢
    subst done
    split <;> exact shows
  | csiParam =>
    simp only [mode] at done ⊢
    by_cases digit : Strings.isdigit c
    · simp only [if_pos digit, Option.some.injEq] at done ⊢
      subst done
      exact shows
    · by_cases next : c = 0x3b
      · simp only [if_neg digit, if_pos next] at done ⊢
        obtain ⟨w, stored, rfl⟩ := Option.map_eq_some_iff.mp done
        exact vtParam_term stored ▸ shows
      · simp only [if_neg digit, if_neg next] at done ⊢
        obtain ⟨w, stored, rfl⟩ := Option.map_eq_some_iff.mp done
        simp only [stored]
        exact dispatch_shows (vtParam_term stored ▸ shows) c junk

theorem glyph_cellOf (w : BitVec 16) : glyph (cellOf w) = w := by
  apply BitVec.eq_of_getLsbD_eq
  intro i inside
  simp only [glyph, cellOf, colours, BitVec.getLsbD_or, BitVec.getLsbD_and, BitVec.getLsbD_setWidth,
    BitVec.getLsbD_shiftLeft,
    BitVec.getLsbD_ushiftRight]
  interval_cases i <;> simp

theorem reflush_cell (t : Term) (vga : Vga) (width : t.width = 80) (row : Int) {col : Int}
    (shown : row ∈ rowsTo t t.dheight) (inside : 0 ≤ col ∧ col < 80) :
    (vgaReflush t vga).cbuf (place 80 (row + t.scrollTop) col) = cellOf
    (vga (place 80 row col)) := by
  have filled := fill_cell (w := 80) (rowsTo t t.dheight) row t.scrollTop
    (fun p => cellOf (vga (place t.width p.1 p.2))) t.cbuf inside
  rw [if_pos shown, width] at filled
  rw [vgaReflush, width]
  exact filled

theorem clear_cell (vga : Vga) (sizes : t.width = 80 ∧ t.height = 50 ∧ t.dheight = 24)
    {row col : Int} (inside : 0 ≤ row ∧ row < 24)
    (inside' : 0 ≤ col ∧ col < 80) :
    (vgaClear t vga).1.cbuf (place 80 (row + 0) col) = ⟨0, 0x0f, 0⟩ := by
  obtain ⟨width, height, dheight⟩ := sizes
  have width' : (cleared t).width = 80 := width
  have shown : row ∈ rowsTo (cleared t) (cleared t).dheight := by
    rw [mem_rowsTo]
    simp only [cleared]
    omega
  have filled := fill_cell (w := 80) (rowsTo (cleared t) (cleared t).dheight) row
    (cleared t).scrollTop
    (fun p => { (cleared t).cbuf (place (cleared t).width (p.1 + (cleared t).scrollTop) p.2) with
      fg := 0x0f })
    (cleared t).cbuf inside'
  have blank : (cleared t).cbuf (place 80 (row + (cleared t).scrollTop) col) = ⟨0, 0, 0⟩ := by
    have kept : 0 ≤ place 80 (row + 0) col ∧ place 80 (row + 0) col < t.height * t.width := by
      rw [height, width, Int.add_zero]
      unfold place
      omega
    exact if_pos kept
  rw [if_pos shown, width', blank] at filled
  rw [vgaClear]
  simp only [width']
  exact filled

theorem clear_shows (shows : Shows t vga) : Shows (vgaClear t vga).1 (vgaClear t vga).2 where
  sizes := shows.sizes
  top := ⟨Int.le_refl 0, show (0 : Int) ≤ 26 by decide⟩
  x := Int.le_refl 0
  cells row col inside inside' := by
    have spot : 0 ≤ place 80 row col ∧ place 80 row col < 2000 := by
      unfold place
      omega
    show _ = glyph ((vgaClear t vga).1.cbuf (place 80 (row + 0) col))
    rw [clear_cell vga shows.sizes inside inside']
    exact if_pos spot

theorem init_cbuf (x y : Int) (cbuf : Int → Cell) : (vgatextInit x y cbuf).t.cbuf = cbuf := rfl
theorem init_top (x y : Int) (cbuf : Int → Cell) : (vgatextInit x y cbuf).t.scrollTop = 0 := rfl

theorem boot_shows (i : BitVec 16) (vga : Vga) (heap : Int → Cell) :
    Shows (boot i vga heap).1.t (boot i vga heap).2 where
  sizes := ⟨rfl, rfl, rfl⟩
  top := ⟨Int.le_refl 0, show (0 : Int) ≤ 26 by decide⟩
  x := by
    show (0 : Int) ≤ (i.toNat : Int) % 80
    omega
  cells row col inside inside' := by
    have read := reflush_cell (vgatextInit (i.toNat % 80) (i.toNat / 80) heap).t vga rfl row
      (mem_rowsTo.mpr (by simp only [vgatextInit]; omega)) inside'
    rw [init_top] at read
    simp only [boot, init_cbuf, init_top]
    rw [read, glyph_cellOf]

end Screen

/-- From boot on, over any screen and whatever the buffer's memory held, the 24 rows of the device
    show the rows of the buffer from the offset on, after every run of bytes and clears. -/
theorem screen_shows (i : BitVec 16) (vga : Vga) (heap : Int → Cell) {actions : List Action}
    {v : Vt} {vga' : Vga}
    (ran : actions.foldlM act (boot i vga heap) = some (v, vga')) :
    ∀ row col, 0 ≤ row ∧ row < 24 → 0 ≤ col ∧ col < 80 →
      vga' (place 80 row col) = glyph (v.t.cbuf (place 80 (row + v.t.scrollTop) col)) := by
  have general : ∀ s s' : Vt × Vga, Shows s.1.t s.2 → actions.foldlM act s = some s' →
      Shows s'.1.t s'.2 := by
    clear ran
    induction actions with
    | nil =>
      intro s s' shows ran
      cases ran
      exact shows
    | cons action actions ih =>
      intro s s' shows ran
      rw [List.foldlM_cons] at ran
      obtain ⟨s₁, acted, rest⟩ := Option.bind_eq_some_iff.mp ran
      refine ih s₁ s' ?_ rest
      cases action with
      | byte c junk => exact process_shows shows acted
      | clear =>
        cases acted
        exact clear_shows shows
  exact (general _ _ (boot_shows i vga heap) ran).cells

theorem screen_shows_letter :
    ∃ v vga', [Action.byte 0x61 (0, 0)].foldlM act (boot 0 (fun _ => 0x0720) fun _ => ⟨0, 0, 0⟩) =
    some (v, vga') ∧
    ∀ row col, 0 ≤ row ∧ row < 24 → 0 ≤ col ∧ col < 80 →
      vga' (place 80 row col) = glyph (v.t.cbuf (place 80 (row + v.t.scrollTop) col)) :=
  ⟨_, _, rfl, screen_shows 0 (fun _ => 0x0720) (fun _ => ⟨0, 0, 0⟩)
    (show [Action.byte 0x61 (0, 0)].foldlM act (boot 0 (fun _ => 0x0720) fun _ => ⟨0, 0, 0⟩) =
    some _ from rfl)⟩

end VgaText
