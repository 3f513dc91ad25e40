import NoobOs.KLib.Strings
import NoobOs.Lib.Runs
import Mathlib.Tactic.Linarith

/-!
The terminal of `terminal.c` under the escape sequences of `vt.c`, with the numbers
`vgatext_init` gives it. What goes to the VGA registers and memory is left out; `none`
is a store past `params`.
-/
namespace Terminal
open Strings Runs

structure Cell where
  ch : UInt8
  fg : UInt8
  bg : UInt8

/-- `written` are the indices of the cells stored to; no function reads it. -/
structure Term where
  cursorX : Int
  cursorY : Int
  width : Int
  height : Int
  dheight : Int
  scrollTop : Int
  cbuf : Int → Cell
  fg : UInt8
  bg : UInt8
  written : List Int

def termSetCursor (t : Term) (x y : Int) : Term :=
  if x > t.width then t
  else if y - t.scrollTop > t.dheight then t
  else if y < t.scrollTop then t
  else { t with cursorX := x, cursorY := y }

/-- `memcpy` of `width * height` cells from one row further on, and `memset` of the row
    behind the last one. -/
def termScrollAbsolute (t : Term) : Term :=
  let size := t.width * t.height
  { t with
    cbuf := fun i =>
      if 0 ≤ i ∧ i < size then t.cbuf (i + t.width)
      else if size ≤ i ∧ i < size + t.width then ⟨0, 0, 0⟩
      else t.cbuf i
    written := t.written ++ (List.range (size + t.width).toNat).map Int.ofNat }

def termScrollUp (t : Term) : Term :=
  if t.scrollTop + t.dheight ≥ t.height then
    let t := termScrollAbsolute t
    termSetCursor t t.cursorX t.cursorY
  else
    let t := { t with scrollTop := t.scrollTop + 1 }
    termSetCursor t t.cursorX t.cursorY

def termScrollDown (t : Term) : Term :=
  if t.scrollTop ≤ 0 then t
  else
    let t := { t with scrollTop := t.scrollTop - 1 }
    termSetCursor t t.cursorX t.cursorY

def termWrap (t : Term) : Term :=
  if t.cursorX ≥ t.width then
    let t := if t.cursorY ≥ t.height then { t with cursorY := t.cursorY - 1 } else t
    let t := if t.cursorY - t.scrollTop ≥ t.dheight then
        let t := termScrollUp t
        { t with cursorY := t.cursorY - 1 }
      else t
    { t with cursorX := 0, cursorY := t.cursorY + 1 }
  else t

def termPutcRaw (t : Term) (c : UInt8) : Term :=
  let t := termWrap t
  let i := t.cursorY * t.width + t.cursorX
  { t with
    cbuf := Function.update t.cbuf i ⟨c, t.fg, t.bg⟩
    written := t.written ++ [i]
    cursorX := t.cursorX + 1 }

def termNewline (t : Term) : Term :=
  let t := if t.cursorY - t.scrollTop ≥ t.dheight then termScrollUp t else t
  { t with cursorY := t.cursorY + 1 }

def termBkspace (t : Term) : Term :=
  if t.cursorX ≤ 0 then t else { t with cursorX := t.cursorX - 1 }

def termPutc (t : Term) (c : UInt8) : Term :=
  if c = 0x0a then termNewline t
  else if c = 0x0d then { t with cursorX := 0 }
  else if c = 0x08 then termBkspace t
  else termPutcRaw t c

inductive VtState where
  | ground
  | escape
  | csiParam
  deriving DecidableEq

structure Vt where
  s : VtState
  t : Term
  params : Nat → UInt32
  paramCount : Nat
  cur : UInt32

def maxParams : Nat := 8

def vtVt2col (col : UInt8) : UInt8 :=
  if col = 1 then 4 else if col = 3 then 14 else if col = 4 then 1 else if col = 6 then 3 else col

def vtAttr (pending : UInt8 × UInt8) (p : UInt32) : UInt8 × UInt8 :=
  (if 30 ≤ p ∧ p ≤ 37 then (p % 10).toUInt8 else pending.1,
    if 40 ≤ p ∧ p ≤ 47 then (p % 10).toUInt8 else pending.2)

/-- `junk` are the pending colours before any is asked for, which nothing initialises. -/
def vtSetattr (v : Vt) (junk : UInt8 × UInt8) : Vt :=
  if v.params 0 = 0 then { v with t := { v.t with bg := 0x00, fg := 0x07 } }
  else
    let ps := (List.range v.paramCount).map v.params
    let (fg, bg) := ps.foldl vtAttr junk
    let bright : UInt8 := if 1 ∈ ps then 0x8 else 0
    { v with t := { v.t with fg := vtVt2col fg ||| bright, bg := vtVt2col bg ||| bright } }

def vtScroll (v : Vt) (n : UInt32) : Vt :=
  if n = 5 then { v with t := termScrollDown v.t }
  else if n = 6 then { v with t := termScrollUp v.t }
  else v

def vtDispatch (v : Vt) (c : UInt8) (junk : UInt8 × UInt8) : Vt :=
  if c = 0x6d then vtSetattr v junk
  else if c = 0x7e then vtScroll v (v.params 0)
  else if c = 0x48 then { v with t := termSetCursor v.t 0 0 }
  else v

def vtParam (v : Vt) : Option Vt :=
  if v.paramCount < maxParams then
    some { v with
      params := Function.update v.params v.paramCount v.cur, paramCount := v.paramCount + 1 }
  else none

def vtProcess (v : Vt) (c : UInt8) (junk : UInt8 × UInt8) : Option Vt :=
  match v.s with
  | .ground => some (if c = 0x1b then { v with s := .escape } else { v with t := termPutc v.t c })
  | .escape =>
    some (if c = 0x5b then { v with s := .csiParam, paramCount := 0, cur := 0 }
      else { v with s := .ground })
  | .csiParam =>
    if isdigit c then some { v with cur := v.cur * 10 + (c - 48).toUInt32 }
    else if c = 0x3b then (vtParam v).map fun v => { v with cur := 0 }
    else (vtParam v).map fun v => { vtDispatch v c junk with s := .ground }

/-- `vgatext_init` with the cursor the hardware reports and what was on the screen. -/
def vgatextInit (x y : Int) (screen : Int → Cell) : Vt :=
  ⟨.ground, ⟨x, y, 80, 50, 24, 0, screen, 0x0f, 0x00, []⟩, fun _ => 0, 0, 0⟩

/-! ## Bounds -/

/-- The cursor and the offset are in the buffer, and so is every cell written. -/
structure Bounds (t : Term) : Prop where
  wide : 0 < t.width
  device : 0 ≤ t.dheight ∧ t.dheight ≤ t.height
  x : 0 ≤ t.cursorX ∧ t.cursorX ≤ t.width
  y : 0 ≤ t.cursorY ∧ t.cursorY < t.height
  top : 0 ≤ t.scrollTop ∧ t.scrollTop ≤ t.height - t.dheight
  cells : ∀ i ∈ t.written, 0 ≤ i ∧ i < t.height * t.width

/-- Room for a byte of output: a newline needs another row; a wrap needs one unless the
    screen scrolls, which takes the row back. -/
def RoomFor (t : Term) (c : UInt8) : Prop :=
  (c = 0x0a → t.cursorY + 1 < t.height) ∧
  (c ≠ 0x0a → c ≠ 0x0d → c ≠ 0x08 → t.cursorX ≥ t.width →
    t.cursorY - t.scrollTop ≥ t.dheight ∨ t.cursorY + 1 < t.height)

def firstParam (v : Vt) : UInt32 := if v.paramCount = 0 then v.cur else v.params 0

/-- A byte that stays in bounds: output with room; at most eight parameters; and no PgDn
    with the last rows on the screen. -/
def Safe (v : Vt) (c : UInt8) : Prop :=
  match v.s with
  | .ground => c = 0x1b ∨ RoomFor v.t c
  | .escape => True
  | .csiParam => isdigit c ∨ v.paramCount < maxParams ∧
      (c = 0x7e → firstParam v = 6 → v.t.scrollTop + v.t.dheight < v.t.height)

section Moves
variable {t : Term}

theorem termSetCursor_same (t : Term) : termSetCursor t t.cursorX t.cursorY = t := by
  unfold termSetCursor
  split
  · rfl
  · split
    · rfl
    · split <;> rfl

theorem termScrollUp_eq (t : Term) : termScrollUp t =
    if t.scrollTop + t.dheight ≥ t.height then termScrollAbsolute t
    else { t with scrollTop := t.scrollTop + 1 } := by
  unfold termScrollUp
  simp only [termSetCursor_same]

theorem termScrollDown_bounds (bounds : Bounds t) : Bounds (termScrollDown t) := by
  obtain ⟨wide, device, x, y, top, cells⟩ := bounds
  unfold termScrollDown
  simp only [termSetCursor_same]
  split
  · exact ⟨wide, device, x, y, top, cells⟩
  · exact ⟨wide, device, x, y, by dsimp only; omega, cells⟩

theorem termScrollAbsolute_past (bounds : Bounds t) :
    t.height * t.width ∈ (termScrollAbsolute t).written := by
  obtain ⟨wide, device, _, y, _⟩ := bounds
  have size : 0 ≤ t.width * t.height := Int.mul_nonneg (by omega) (by omega)
  unfold termScrollAbsolute
  rw [List.mem_append]
  right
  rw [List.mem_map]
  refine ⟨(t.width * t.height).toNat, List.mem_range.mpr (by omega), ?_⟩
  rw [Int.mul_comm t.height]
  exact Int.toNat_of_nonneg size

theorem termScrollUp_bounds_iff (bounds : Bounds t) :
    Bounds (termScrollUp t) ↔ t.scrollTop + t.dheight < t.height := by
  rw [termScrollUp_eq]
  constructor
  · intro after
    by_contra last
    rw [if_pos (by omega)] at after
    have past := after.cells _ (termScrollAbsolute_past bounds)
    simp only [termScrollAbsolute] at past
    omega
  · intro room
    rw [if_neg (by omega)]
    obtain ⟨wide, device, x, y, top, cells⟩ := bounds
    exact ⟨wide, device, x, y, by dsimp only; omega, cells⟩

theorem Bounds.not_last (bounds : Bounds t) (below : t.cursorY - t.scrollTop ≥ t.dheight) :
    ¬ t.scrollTop + t.dheight ≥ t.height := by
  have := bounds.y
  omega

theorem termNewline_bounds_iff (bounds : Bounds t) :
    Bounds (termNewline t) ↔ t.cursorY + 1 < t.height := by
  obtain ⟨wide, device, x, y, top, cells⟩ := bounds
  unfold termNewline
  by_cases below : t.cursorY - t.scrollTop ≥ t.dheight
  · have room := Bounds.not_last ⟨wide, device, x, y, top, cells⟩ below
    simp only [if_pos below, termScrollUp_eq, if_neg room]
    constructor
    · intro after
      exact after.y.2
    · intro row
      exact ⟨wide, device, x, by dsimp only; omega, by dsimp only; omega, cells⟩
  · simp only [if_neg below]
    constructor
    · intro after
      exact after.y.2
    · intro row
      exact ⟨wide, device, x, by dsimp only; omega, top, cells⟩

theorem cell_inside {x y w h : Int} (left : 0 ≤ x) (right : x < w) (top : 0 ≤ y) (bottom : y < h) :
    0 ≤ y * w + x ∧ y * w + x < h * w := by
  have row : (y + 1) * w ≤ h * w := Int.mul_le_mul_of_nonneg_right (by omega) (by omega)
  have start : 0 ≤ y * w := Int.mul_nonneg top (by omega)
  rw [Int.add_mul, Int.one_mul] at row
  omega

theorem termWrap_eq (bounds : Bounds t) : termWrap t =
    if t.cursorX ≥ t.width then
      if t.cursorY - t.scrollTop ≥ t.dheight then
      { t with scrollTop := t.scrollTop + 1, cursorX := 0 }
      else { t with cursorX := 0, cursorY := t.cursorY + 1 }
    else t := by
  have inside : ¬ t.cursorY ≥ t.height := by
    have := bounds.y
    omega
  unfold termWrap
  simp only [if_neg inside]
  by_cases below : t.cursorY - t.scrollTop ≥ t.dheight
  · simp only [if_pos below, termScrollUp_eq, if_neg (bounds.not_last below), Int.sub_add_cancel]
  · simp only [if_neg below]

theorem Bounds.put (bounds : Bounds t) (inRow : t.cursorX < t.width) (cell : Cell) :
    Bounds { t with
      cbuf := Function.update t.cbuf (t.cursorY * t.width + t.cursorX) cell
      written := t.written ++ [t.cursorY * t.width + t.cursorX]
      cursorX := t.cursorX + 1 } := by
  obtain ⟨wide, device, x, y, top, cells⟩ := bounds
  refine ⟨wide, device, by dsimp only; omega, y, top, ?_⟩
  intro i member
  rcases List.mem_append.mp member with before | here
  · exact cells i before
  · rw [List.mem_singleton] at here
    rw [here]
    exact cell_inside x.1 inRow y.1 y.2

theorem termPutcRaw_bounds_iff (bounds : Bounds t) (c : UInt8) :
    Bounds (termPutcRaw t c) ↔
      (t.cursorX ≥ t.width → t.cursorY - t.scrollTop ≥ t.dheight ∨ t.cursorY + 1 < t.height) := by
  have shape := termWrap_eq bounds
  unfold termPutcRaw
  by_cases wraps : t.cursorX ≥ t.width
  · rw [if_pos wraps] at shape
    by_cases below : t.cursorY - t.scrollTop ≥ t.dheight
    · rw [if_pos below] at shape
      rw [shape]
      have room := bounds.not_last below
      obtain ⟨wide, device, x, y, top, cells⟩ := bounds
      have wrapped : Bounds { t with scrollTop := t.scrollTop + 1, cursorX := 0 } :=
        ⟨wide, device, by dsimp only; omega, y, by dsimp only; omega, cells⟩
      exact ⟨fun _ _ => Or.inl below, fun _ => wrapped.put wide _⟩
    · rw [if_neg below] at shape
      rw [shape]
      constructor
      · intro after _
        exact Or.inr after.y.2
      · intro row
        have next : t.cursorY + 1 < t.height := (row wraps).resolve_left below
        obtain ⟨wide, device, x, y, top, cells⟩ := bounds
        have wrapped : Bounds { t with cursorX := 0, cursorY := t.cursorY + 1 } :=
          ⟨wide, device, by dsimp only; omega, by dsimp only; omega, top, cells⟩
        exact wrapped.put wide _
  · rw [if_neg wraps] at shape
    rw [shape]
    exact ⟨fun _ wraps' => absurd wraps' wraps, fun _ => bounds.put (by omega) _⟩

theorem termPutc_bounds_iff (bounds : Bounds t) (c : UInt8) :
    Bounds (termPutc t c) ↔ RoomFor t c := by
  unfold termPutc RoomFor
  by_cases newline : c = 0x0a
  · rw [if_pos newline, termNewline_bounds_iff bounds]
    exact ⟨fun row => ⟨fun _ => row, fun other => absurd newline other⟩, fun room => room.1 newline⟩
  · rw [if_neg newline]
    obtain ⟨wide, device, x, y, top, cells⟩ := bounds
    by_cases return' : c = 0x0d
    · rw [if_pos return']
      constructor
      · intro _
        exact ⟨fun same => absurd same newline, fun _ other => absurd return' other⟩
      · intro _
        exact ⟨wide, device, by dsimp only; omega, y, top, cells⟩
    · rw [if_neg return']
      by_cases back : c = 0x08
      · rw [if_pos back]
        constructor
        · intro _
          exact ⟨fun same => absurd same newline, fun _ _ other => absurd back other⟩
        · intro _
          unfold termBkspace
          split
          · exact ⟨wide, device, x, y, top, cells⟩
          · exact ⟨wide, device, by dsimp only; omega, y, top, cells⟩
      · rw [if_neg back, termPutcRaw_bounds_iff ⟨wide, device, x, y, top, cells⟩]
        constructor
        · intro row
          exact ⟨fun same => absurd same newline, fun _ _ _ => row⟩
        · intro room
          exact room.2 newline return' back

theorem termSetCursor_home (bounds : Bounds t) : Bounds (termSetCursor t 0 0) := by
  obtain ⟨wide, device, x, y, top, cells⟩ := bounds
  unfold termSetCursor
  split
  · exact ⟨wide, device, x, y, top, cells⟩
  · split
    · exact ⟨wide, device, x, y, top, cells⟩
    · split
      · exact ⟨wide, device, x, y, top, cells⟩
      · exact ⟨wide, device, by dsimp only; omega, by dsimp only; omega, top, cells⟩

theorem vtSetattr_term (v : Vt) (junk : UInt8 × UInt8) :
    ∃ fg bg, (vtSetattr v junk).t = { v.t with fg := fg, bg := bg } := by
  unfold vtSetattr
  split
  · exact ⟨_, _, rfl⟩
  · exact ⟨_, _, rfl⟩

theorem vtDispatch_bounds_iff {v : Vt} (bounds : Bounds v.t) (c : UInt8) (junk : UInt8 × UInt8) :
    Bounds (vtDispatch v c junk).t ↔
      (c = 0x7e → v.params 0 = 6 → v.t.scrollTop + v.t.dheight < v.t.height) := by
  unfold vtDispatch
  by_cases attr : c = 0x6d
  · rw [if_pos attr]
    obtain ⟨fg, bg, same⟩ := vtSetattr_term v junk
    rw [same]
    have other : c ≠ 0x7e := by
      rw [attr]
      decide
    exact ⟨fun _ scroll => absurd scroll other,
      fun _ => ⟨bounds.wide, bounds.device, bounds.x, bounds.y, bounds.top, bounds.cells⟩⟩
  · rw [if_neg attr]
    by_cases scroll : c = 0x7e
    · rw [if_pos scroll]
      unfold vtScroll
      by_cases down : v.params 0 = 5
      · rw [if_pos down]
        have other : v.params 0 ≠ 6 := by
          rw [down]
          decide
        exact ⟨fun _ _ up => absurd up other, fun _ => termScrollDown_bounds bounds⟩
      · rw [if_neg down]
        by_cases up : v.params 0 = 6
        · rw [if_pos up, termScrollUp_bounds_iff bounds]
          exact ⟨fun room _ _ => room, fun room => room scroll up⟩
        · rw [if_neg up]
          exact ⟨fun _ _ up' => absurd up' up, fun _ => bounds⟩
    · rw [if_neg scroll]
      refine ⟨fun _ scroll' => absurd scroll' scroll, fun _ => ?_⟩
      split
      · exact termSetCursor_home bounds
      · exact bounds

theorem vtParam_stored {v : Vt} (room : v.paramCount < maxParams) :
    ∃ v', vtParam v = some v' ∧ v'.t = v.t ∧ v'.params 0 = firstParam v := by
  refine ⟨_, if_pos room, rfl, ?_⟩
  unfold firstParam
  by_cases first : v.paramCount = 0
  · rw [if_pos first]
    simp [first]
  · rw [if_neg first]
    exact Function.update_of_ne (fun same => first same.symm) _ _

theorem vtProcess_bounds_iff {v : Vt} (bounds : Bounds v.t) (c : UInt8) (junk : UInt8 × UInt8) :
    (∃ v', vtProcess v c junk = some v' ∧ Bounds v'.t) ↔ Safe v c := by
  unfold vtProcess Safe
  cases v.s with
  | ground =>
    simp only [Option.some.injEq, exists_eq_left']
    by_cases escape : c = 0x1b
    · simp only [if_pos escape]
      exact ⟨fun _ => Or.inl escape, fun _ => bounds⟩
    · simp only [escape, if_false, termPutc_bounds_iff bounds, false_or]
  | escape =>
    simp only [Option.some.injEq, exists_eq_left', iff_true]
    split
    · exact bounds
    · exact bounds
  | csiParam =>
    by_cases digit : isdigit c = true
    · simp only [if_pos digit, Option.some.injEq, exists_eq_left']
      exact ⟨fun _ => Or.inl digit, fun _ => bounds⟩
    · by_cases room : v.paramCount < maxParams
      · obtain ⟨v₁, stored, same, first⟩ := vtParam_stored room
        have bounds₁ : Bounds v₁.t := same ▸ bounds
        simp only [digit, stored, Option.map_some, room, true_and, Bool.false_eq_true,
          if_false, false_or]
        by_cases next : c = 0x3b
        · have other : c ≠ 0x7e := by
            rw [next]
            decide
          simp only [if_pos next, Option.some.injEq, exists_eq_left']
          exact ⟨fun _ scroll => absurd scroll other, fun _ => bounds₁⟩
        · simp only [if_neg next, Option.some.injEq, exists_eq_left',
            vtDispatch_bounds_iff bounds₁, first, same]
      · have full : vtParam v = none := if_neg room
        simp only [digit, full, Option.map_none, room, false_and, Bool.false_eq_true, if_false,
          or_self, iff_false]
        split <;> simp

end Moves

/-- Bytes with whatever the uninitialised colours are, as long as each is safe. -/
def safeOutput : Machine Vt (UInt8 × UInt8 × UInt8) where
  legal v b := Safe v b.1
  step v b := vtProcess v b.1 b.2

/-- From the state after `vgatext_init` every run of safe bytes keeps the bounds; and in
    each state reached the next byte keeps them exactly if it is safe. -/
theorem terminal_bounds_when_safe {x y : Int} (column : 0 ≤ x ∧ x < 80) (row : 0 ≤ y ∧ y < 50)
    (screen : Int → Cell) (v : Vt) (reach : Reach safeOutput (vgatextInit x y screen) v) :
    (0 ≤ v.t.cursorX ∧ v.t.cursorX ≤ v.t.width) ∧
    (0 ≤ v.t.scrollTop ∧ v.t.scrollTop ≤ v.t.height - v.t.dheight) ∧
    (0 ≤ v.t.cursorY ∧ v.t.cursorY < v.t.height) ∧
    (∀ i ∈ v.t.written, 0 ≤ i ∧ i < v.t.height * v.t.width) ∧
    ∀ c junk, (∃ v', vtProcess v c junk = some v' ∧ Bounds v'.t) ↔ Safe v c := by
  have start : Bounds (vgatextInit x y screen).t := by
    refine ⟨?_, ?_, ?_, ?_, ?_, ?_⟩ <;> simp only [vgatextInit]
    · decide
    · decide
    · omega
    · exact row
    · decide
    · simp
  have bounds : Bounds v.t := by
    apply reach_invariant (fun v => Bounds v.t) start _ reach
    intro v b v' before safe stepped
    obtain ⟨next, result, after⟩ := (vtProcess_bounds_iff before b.1 b.2).mpr safe
    obtain rfl : next = v' := Option.some.inj (result.symm.trans stepped)
    exact after
  exact ⟨bounds.x, bounds.top, bounds.y, bounds.cells, vtProcess_bounds_iff bounds⟩

def blankVt : Vt := vgatextInit 0 0 fun _ => ⟨0x20, 0x0f, 0x00⟩

theorem terminal_bounds_after_letter :
    ∃ v, Reach safeOutput blankVt v ∧ v.t.written = [0] ∧
    (0 ≤ v.t.cursorY ∧ v.t.cursorY < v.t.height) := by
  have reach : Reach safeOutput blankVt { blankVt with
      t := termNewline (termPutcRaw blankVt.t 0x61) } := by
    refine ⟨[(0x61, 0, 0), (0x0a, 0, 0)],
      Run.cons (Or.inr ?_) rfl (Run.cons (Or.inr ?_) rfl (Run.nil _))⟩
    · exact ⟨by decide, by decide⟩
    · exact ⟨by decide, by decide⟩
  exact ⟨_, reach, rfl, (terminal_bounds_when_safe (by decide) (by decide) _ _ reach).2.2.1⟩

def processAll (v : Vt) (bytes : List UInt8) : Option Vt :=
  bytes.foldlM (fun v c => vtProcess v c (0, 0)) v

/-- Fifty newlines, and twenty-seven times PgDn. -/
theorem terminal_leaves_bounds :
    (processAll blankVt (List.replicate 50 0x0a)).map (fun v => (v.t.cursorY, v.t.height)) =
    some (50, 50) ∧
    (processAll blankVt (List.replicate 27 [0x1b, 0x5b, 0x36, 0x7e]).flatten).map
      (fun v => decide (v.t.height * v.t.width ∈ v.t.written)) = some true := by
  decide +kernel

end Terminal
