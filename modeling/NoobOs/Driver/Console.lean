import NoobOs.Driver.Terminal

/-!
The calls the terminal makes of its console, beside what it does to itself. `putc` and
`set_cursor` of `struct console_ops` take device coordinates; `flush` takes none and is
left out. Each function is the one of `Terminal` with its calls in order.
-/
namespace Console
open Terminal Strings Runs

inductive Call where
  | termPutc (c : UInt8)
  | putc (x y : Int) (cell : Cell)
  | setCursor (x y : Int)

def termSetCursor (t : Term) (x y : Int) : Term × List Call :=
  if x > t.width then (t, [])
  else if y - t.scrollTop > t.dheight then (t, [])
  else if y < t.scrollTop then (t, [])
  else ({ t with cursorX := x, cursorY := y }, [.setCursor x (y - t.scrollTop)])

def termScrollUp (t : Term) : Term × List Call :=
  if t.scrollTop + t.dheight ≥ t.height then
    let t := termScrollAbsolute t
    termSetCursor t t.cursorX t.cursorY
  else
    let t := { t with scrollTop := t.scrollTop + 1 }
    termSetCursor t t.cursorX t.cursorY

def termScrollDown (t : Term) : Term × List Call :=
  if t.scrollTop ≤ 0 then (t, [])
  else
    let t := { t with scrollTop := t.scrollTop - 1 }
    termSetCursor t t.cursorX t.cursorY

def termWrap (t : Term) : Term × List Call :=
  if t.cursorX ≥ t.width then
    let t := if t.cursorY ≥ t.height then { t with cursorY := t.cursorY - 1 } else t
    let (t, calls) := if t.cursorY - t.scrollTop ≥ t.dheight then
        let (t, calls) := termScrollUp t
        ({ t with cursorY := t.cursorY - 1 }, calls)
      else (t, [])
    ({ t with cursorX := 0, cursorY := t.cursorY + 1 }, calls)
  else (t, [])

def termPutcRaw (t : Term) (c : UInt8) : Term × List Call :=
  let (t, calls) := termWrap t
  let i := t.cursorY * t.width + t.cursorX
  let cell : Cell := ⟨c, t.fg, t.bg⟩
  ({ t with
      cbuf := Function.update t.cbuf i cell
      written := t.written ++ [i]
      cursorX := t.cursorX + 1 },
    calls ++ [.putc t.cursorX (t.cursorY - t.scrollTop) cell])

def termNewline (t : Term) : Term × List Call :=
  let (t, calls) := if t.cursorY - t.scrollTop ≥ t.dheight then termScrollUp t else (t, [])
  ({ t with cursorY := t.cursorY + 1 }, calls)

def termBkspace (t : Term) : Term × List Call :=
  if t.cursorX ≤ 0 then (t, [])
  else ({ t with cursorX := t.cursorX - 1 }, [.setCursor (t.cursorX - 1) t.cursorY])

def termPutc (t : Term) (c : UInt8) : Term × List Call :=
  let (t, calls) :=
    if c = 0x0a then termNewline t
    else if c = 0x0d then ({ t with cursorX := 0 }, [])
    else if c = 0x08 then termBkspace t
    else termPutcRaw t c
  (t, .termPutc c :: calls ++ [.setCursor t.cursorX t.cursorY])

def vtScroll (v : Vt) (n : UInt32) : Vt × List Call :=
  if n = 5 then
    let (t, calls) := termScrollDown v.t
    ({ v with t := t }, calls)
  else if n = 6 then
    let (t, calls) := termScrollUp v.t
    ({ v with t := t }, calls)
  else (v, [])

def vtDispatch (v : Vt) (c : UInt8) (junk : UInt8 × UInt8) : Vt × List Call :=
  if c = 0x6d then (vtSetattr v junk, [])
  else if c = 0x7e then vtScroll v (v.params 0)
  else if c = 0x48 then
    let (t, calls) := termSetCursor v.t 0 0
    ({ v with t := t }, calls)
  else (v, [])

def vtProcess (v : Vt) (c : UInt8) (junk : UInt8 × UInt8) : Option (Vt × List Call) :=
  match v.s with
  | .ground =>
    if c = 0x1b then some ({ v with s := .escape }, [])
    else
      let (t, calls) := termPutc v.t c
      some ({ v with t := t }, calls)
  | .escape =>
    some (if c = 0x5b then { v with s := .csiParam, paramCount := 0, cur := 0 }
      else { v with s := .ground }, [])
  | .csiParam =>
    if isdigit c then some ({ v with cur := v.cur * 10 + (c - 48).toUInt32 }, [])
    else if c = 0x3b then (vtParam v).map fun v => ({ v with cur := 0 }, [])
    else (vtParam v).map fun v =>
      let (v, calls) := vtDispatch v c junk
      ({ v with s := .ground }, calls)

/-! ## Without the calls -/

section Erase
variable (t : Term) (v : Vt)

@[simp] theorem termSetCursor_term (x y : Int) :
    (termSetCursor t x y).1 = Terminal.termSetCursor t x y := by
  unfold termSetCursor Terminal.termSetCursor
  split
  · rfl
  · split
    · rfl
    · split <;> rfl

@[simp] theorem termScrollUp_term : (termScrollUp t).1 = Terminal.termScrollUp t := by
  unfold termScrollUp Terminal.termScrollUp
  split
  · exact termSetCursor_term _ _ _
  · exact termSetCursor_term _ _ _

@[simp] theorem termScrollDown_term : (termScrollDown t).1 = Terminal.termScrollDown t := by
  unfold termScrollDown Terminal.termScrollDown
  split
  · rfl
  · exact termSetCursor_term _ _ _

@[simp] theorem termWrap_term : (termWrap t).1 = Terminal.termWrap t := by
  unfold termWrap Terminal.termWrap
  split
  · dsimp only
    generalize (if t.cursorY ≥ t.height then { t with cursorY := t.cursorY - 1 } else t) = u
    split
    · dsimp only
      rw [termScrollUp_term]
    · rfl
  · rfl

@[simp] theorem termPutcRaw_term (c : UInt8) : (termPutcRaw t c).1 = Terminal.termPutcRaw t c := by
  unfold termPutcRaw Terminal.termPutcRaw
  simp only [termWrap_term]

@[simp] theorem termNewline_term : (termNewline t).1 = Terminal.termNewline t := by
  unfold termNewline Terminal.termNewline
  by_cases below : t.cursorY - t.scrollTop ≥ t.dheight
  · simp only [if_pos below, termScrollUp_term]
  · simp only [if_neg below]

@[simp] theorem termBkspace_term : (termBkspace t).1 = Terminal.termBkspace t := by
  unfold termBkspace Terminal.termBkspace
  split <;> rfl

@[simp] theorem termPutc_term (c : UInt8) : (termPutc t c).1 = Terminal.termPutc t c := by
  unfold termPutc Terminal.termPutc
  by_cases newline : c = 0x0a
  · simp only [if_pos newline, termNewline_term]
  · by_cases return' : c = 0x0d
    · simp only [if_neg newline, if_pos return']
    · by_cases back : c = 0x08
      · simp only [if_neg newline, if_neg return', if_pos back, termBkspace_term]
      · simp only [if_neg newline, if_neg return', if_neg back, termPutcRaw_term]

@[simp] theorem vtDispatch_vt (c : UInt8) (junk : UInt8 × UInt8) :
    (vtDispatch v c junk).1 = Terminal.vtDispatch v c junk := by
  unfold vtDispatch Terminal.vtDispatch
  split
  · rfl
  · split
    · unfold vtScroll Terminal.vtScroll
      split
      · simp only [termScrollDown_term]
      · split
        · simp only [termScrollUp_term]
        · rfl
    · split
      · simp only [termSetCursor_term]
      · rfl

theorem vtProcess_vt (c : UInt8) (junk : UInt8 × UInt8) :
    (vtProcess v c junk).map Prod.fst = Terminal.vtProcess v c junk := by
  unfold vtProcess Terminal.vtProcess
  cases v.s with
  | ground =>
    simp only
    split
    · rfl
    · simp only [Option.map_some, termPutc_term]
  | escape => rfl
  | csiParam =>
    simp only
    split
    · rfl
    · split
      · rw [Option.map_map]
        rfl
      · rw [Option.map_map]
        congr 1
        funext v
        simp only [Function.comp_apply, vtDispatch_vt]

end Erase

/-! ## Device coordinates -/

def OnDevice (t : Term) : Call → Prop
  | .termPutc _ => True
  | .putc _ y _ => 0 ≤ y ∧ y ≤ t.dheight
  | .setCursor _ y => 0 ≤ y ∧ y ≤ t.dheight

def cursorOf : Call → Option (Int × Int)
  | .setCursor x y => some (x, y)
  | _ => none

def lastCursor (calls : List Call) : Option (Int × Int) := (calls.filterMap cursorOf).getLast?

/-- What `struct console_ops` asks of the calls of one byte, with the terminal after it. -/
structure Placed (t : Term) (calls : List Call) : Prop where
  onDevice : ∀ call ∈ calls, OnDevice t call
  cursor : ∀ c, Call.termPutc c ∈ calls →
    lastCursor calls = some (t.cursorX, t.cursorY - t.scrollTop)

def NewRow (t : Term) (c : UInt8) : Prop :=
  c = 0x0a ∨ (c ≠ 0x0d ∧ c ≠ 0x08 ∧ t.cursorX ≥ t.width)

/-- Output while nothing is scrolled away and the cursor is on the device, with a row left
    for a byte that starts one; and at most eight parameters. -/
def Fits (v : Vt) (c : UInt8) : Prop :=
  match v.s with
  | .ground => c = 0x1b ∨
      (v.t.scrollTop = 0 ∧ v.t.cursorY ≤ v.t.dheight ∧ (NewRow v.t c → v.t.cursorY < v.t.dheight))
  | .escape => True
  | .csiParam => isdigit c ∨ v.paramCount < maxParams

structure Upright (t : Term) : Prop where
  device : 0 ≤ t.dheight ∧ t.dheight < t.height
  top : 0 ≤ t.scrollTop
  y : 0 ≤ t.cursorY

section Moves
variable {t : Term}

theorem termScrollUp_upright (upright : Upright t) : Upright (Terminal.termScrollUp t) := by
  obtain ⟨device, top, y⟩ := upright
  rw [termScrollUp_eq]
  split
  · exact ⟨device, top, y⟩
  · exact ⟨device, by dsimp only; omega, y⟩

theorem termScrollUp_top (upright : Upright t) : 0 < (Terminal.termScrollUp t).scrollTop := by
  obtain ⟨device, top, _⟩ := upright
  rw [termScrollUp_eq]
  split
  · simp only [termScrollAbsolute]
    omega
  · dsimp only
    omega

theorem termSetCursor_upright (upright : Upright t) (x : Int) {y : Int} (row : 0 ≤ y) :
    Upright (Terminal.termSetCursor t x y) := by
  obtain ⟨device, top, y'⟩ := upright
  unfold Terminal.termSetCursor
  split
  · exact ⟨device, top, y'⟩
  · split
    · exact ⟨device, top, y'⟩
    · split
      · exact ⟨device, top, y'⟩
      · exact ⟨device, top, row⟩

theorem placed_iff (c : UInt8) (calls : List Call) :
    Placed t (.termPutc c :: calls ++ [.setCursor t.cursorX t.cursorY]) ↔
      t.scrollTop = 0 ∧ (0 ≤ t.cursorY ∧ t.cursorY ≤ t.dheight) ∧
      ∀ call ∈ calls, OnDevice t call := by
  have last : lastCursor (.termPutc c :: calls ++ [.setCursor t.cursorX t.cursorY]) =
      some (t.cursorX, t.cursorY) := by
    simp [lastCursor, cursorOf, List.findSome?]
  constructor
  · intro placed
    have cursor := placed.cursor c (by simp)
    rw [last, Option.some.injEq, Prod.mk.injEq] at cursor
    refine ⟨by omega, placed.onDevice (.setCursor t.cursorX t.cursorY) (by simp), ?_⟩
    intro call member
    exact placed.onDevice call (by simp [member])
  · rintro ⟨top, row, inner⟩
    constructor
    · intro call member
      simp only [List.cons_append, List.mem_cons, List.mem_append, List.not_mem_nil,
        or_false] at member
      rcases member with rfl | earlier | rfl
      · trivial
      · exact inner call earlier
      · exact row
    · intro _ _
      rw [last, top, Int.sub_zero]

theorem termNewline_placed_iff (upright : Upright t) (c : UInt8) :
    Placed (termNewline t).1 (.termPutc c :: (termNewline t).2 ++
        [.setCursor (termNewline t).1.cursorX (termNewline t).1.cursorY]) ↔
      t.scrollTop = 0 ∧ t.cursorY ≤ t.dheight ∧ t.cursorY < t.dheight := by
  rw [placed_iff]
  by_cases below : t.cursorY - t.scrollTop ≥ t.dheight
  · have top := termScrollUp_top upright
    simp only [termNewline, if_pos below, termScrollUp_term]
    constructor
    · intro placed
      omega
    · intro room
      omega
  · have y := upright.y
    simp only [termNewline, if_neg below, List.not_mem_nil, false_implies, implies_true, and_true]
    omega

theorem termWrap_unscrolled (upright : Upright t) (top : t.scrollTop = 0)
    (row : t.cursorX ≥ t.width → t.cursorY < t.dheight) :
    termWrap t = (if t.cursorX ≥ t.width then { t with cursorX := 0, cursorY := t.cursorY + 1 }
    else t, []) := by
  unfold termWrap
  by_cases wraps : t.cursorX ≥ t.width
  · have inside : ¬ t.cursorY ≥ t.height := by
      have := row wraps
      have := upright.device
      omega
    have above : ¬ t.cursorY - t.scrollTop ≥ t.dheight := by
      have := row wraps
      omega
    simp only [if_pos wraps, if_neg inside, if_neg above]
  · simp only [if_neg wraps]

theorem termWrap_top (upright : Upright t) (still : (Terminal.termWrap t).scrollTop = 0) :
    t.scrollTop = 0 ∧ (t.cursorX ≥ t.width → t.cursorY < t.dheight) := by
  obtain ⟨device, top, y⟩ := upright
  by_cases wraps : t.cursorX ≥ t.width
  · simp only [Terminal.termWrap, if_pos wraps] at still
    by_cases past : t.cursorY ≥ t.height
    · have scrolled := termScrollUp_top (t := { t with cursorY := t.cursorY - 1 }) ⟨device,
        top, by dsimp only; omega⟩
      simp only [if_pos past] at still
      by_cases below : t.cursorY - 1 - t.scrollTop ≥ t.dheight
      · simp only [if_pos below] at still
        omega
      · simp only [if_neg below] at still
        omega
    · have scrolled := termScrollUp_top ⟨device, top, y⟩
      simp only [if_neg past] at still
      by_cases below : t.cursorY - t.scrollTop ≥ t.dheight
      · simp only [if_pos below] at still
        omega
      · simp only [if_neg below] at still
        omega
  · simp only [Terminal.termWrap, if_neg wraps] at still
    exact ⟨still, fun wraps' => absurd wraps' wraps⟩

theorem termPutcRaw_placed_iff (upright : Upright t) (c : UInt8) :
    Placed (termPutcRaw t c).1 (.termPutc c :: (termPutcRaw t c).2 ++
        [.setCursor (termPutcRaw t c).1.cursorX (termPutcRaw t c).1.cursorY]) ↔
      t.scrollTop = 0 ∧ t.cursorY ≤ t.dheight ∧ (t.cursorX ≥ t.width → t.cursorY < t.dheight) := by
  rw [placed_iff]
  have y := upright.y
  constructor
  · rintro ⟨still, ⟨_, row⟩, _⟩
    have unscrolled := termWrap_top upright (by simpa [termPutcRaw] using still)
    rw [termPutcRaw, termWrap_unscrolled upright unscrolled.1 unscrolled.2] at row
    refine ⟨unscrolled.1, ?_, unscrolled.2⟩
    by_cases wraps : t.cursorX ≥ t.width
    · have := unscrolled.2 wraps
      omega
    · simpa only [if_neg wraps] using row
  · rintro ⟨top, low, row⟩
    rw [termPutcRaw, termWrap_unscrolled upright top row]
    by_cases wraps : t.cursorX ≥ t.width
    · have := row wraps
      simp only [if_pos wraps, List.nil_append, List.mem_singleton, forall_eq, OnDevice]
      omega
    · simp only [if_neg wraps, List.nil_append, List.mem_singleton, forall_eq, OnDevice]
      omega

theorem termPutc_placed_iff (upright : Upright t) (c : UInt8) :
    Placed (termPutc t c).1 (termPutc t c).2 ↔
      t.scrollTop = 0 ∧ t.cursorY ≤ t.dheight ∧ (NewRow t c → t.cursorY < t.dheight) := by
  have y := upright.y
  unfold termPutc NewRow
  by_cases newline : c = 0x0a
  · simp only [newline, if_true]
    rw [termNewline_placed_iff upright]
    simp
  · by_cases return' : c = 0x0d
    · simp only [if_neg newline, if_pos return']
      rw [placed_iff]
      simp [return', y]
    · by_cases back : c = 0x08
      · simp only [if_neg newline, if_neg return', if_pos back, placed_iff, termBkspace]
        by_cases left : t.cursorX ≤ 0
        · simp [back, left, y]
        · simp only [if_neg left, List.mem_singleton, forall_eq, OnDevice]
          simp [back, y]
      · simp only [if_neg newline, if_neg return', if_neg back]
        rw [termPutcRaw_placed_iff upright]
        simp [newline, return', back]

theorem termWrap_upright (upright : Upright t) : Upright (Terminal.termWrap t) := by
  unfold Terminal.termWrap
  split
  · have lowered : Upright (if t.cursorY ≥ t.height then { t with cursorY := t.cursorY - 1 }
        else t) := by
      obtain ⟨device, top, y⟩ := upright
      split
      · exact ⟨device, top, by dsimp only; omega⟩
      · exact ⟨device, top, y⟩
    dsimp only
    generalize (if t.cursorY ≥ t.height then { t with cursorY := t.cursorY - 1 } else t) =
      u at lowered ⊢
    split
    · have scrolled := termScrollUp_upright lowered
      exact ⟨scrolled.device, scrolled.top, by have := scrolled.y; dsimp only; omega⟩
    · exact ⟨lowered.device, lowered.top, by have := lowered.y; dsimp only; omega⟩
  · exact upright

theorem termPutc_upright (upright : Upright t) (c : UInt8) : Upright (Terminal.termPutc t c) := by
  have wrapped := termWrap_upright upright
  have scrolled := termScrollUp_upright upright
  obtain ⟨device, top, y⟩ := upright
  unfold Terminal.termPutc
  split
  · unfold Terminal.termNewline
    split
    · exact ⟨scrolled.device, scrolled.top, by have := scrolled.y; dsimp only; omega⟩
    · exact ⟨device, top, by dsimp only; omega⟩
  · split
    · exact ⟨device, top, y⟩
    · split
      · unfold Terminal.termBkspace
        split
        · exact ⟨device, top, y⟩
        · exact ⟨device, top, y⟩
      · exact ⟨wrapped.device, wrapped.top, wrapped.y⟩

/-- Cursor moves alone, each within the device. -/
def Guarded (dheight : Int) (calls : List Call) : Prop :=
  ∀ call ∈ calls, ∃ x y, call = .setCursor x y ∧ 0 ≤ y ∧ y ≤ dheight

theorem Guarded.placed {calls : List Call} (guarded : Guarded t.dheight calls) :
    Placed t calls := by
  constructor
  · intro call member
    obtain ⟨x, y, rfl, row⟩ := guarded call member
    exact row
  · intro c member
    obtain ⟨x, y, same, -⟩ := guarded _ member
    cases same

theorem guarded_nil (dheight : Int) : Guarded dheight [] :=
  fun _ member => absurd member List.not_mem_nil

theorem termSetCursor_guarded (t : Term) (x y : Int) :
    Guarded t.dheight (termSetCursor t x y).2 := by
  unfold termSetCursor
  split
  · exact guarded_nil _
  · split
    · exact guarded_nil _
    · split
      · exact guarded_nil _
      · intro call member
        rw [List.mem_singleton] at member
        exact ⟨x, y - t.scrollTop, member, by omega, by omega⟩

theorem termScrollUp_guarded (t : Term) : Guarded t.dheight (termScrollUp t).2 := by
  unfold termScrollUp
  split
  · exact termSetCursor_guarded (termScrollAbsolute t) _ _
  · exact termSetCursor_guarded { t with scrollTop := t.scrollTop + 1 } _ _

theorem termScrollDown_guarded (t : Term) : Guarded t.dheight (termScrollDown t).2 := by
  unfold termScrollDown
  split
  · exact guarded_nil _
  · exact termSetCursor_guarded { t with scrollTop := t.scrollTop - 1 } _ _

theorem vtDispatch_guarded (v : Vt) (c : UInt8) (junk : UInt8 × UInt8) :
    Guarded v.t.dheight (vtDispatch v c junk).2 := by
  unfold vtDispatch
  split
  · exact guarded_nil _
  · split
    · unfold vtScroll
      by_cases down : v.params 0 = 5
      · simp only [if_pos down]
        exact termScrollDown_guarded v.t
      · by_cases up : v.params 0 = 6
        · simp only [if_neg down, if_pos up]
          exact termScrollUp_guarded v.t
        · simp only [if_neg down, if_neg up]
          exact guarded_nil _
    · split
      · exact termSetCursor_guarded v.t 0 0
      · exact guarded_nil _

theorem vtDispatch_upright {v : Vt} (upright : Upright v.t) (c : UInt8) (junk : UInt8 × UInt8) :
    Upright (Terminal.vtDispatch v c junk).t ∧ (Terminal.vtDispatch v c junk).t.dheight =
    v.t.dheight := by
  obtain ⟨device, top, y⟩ := upright
  unfold Terminal.vtDispatch
  split
  · obtain ⟨fg, bg, same⟩ := vtSetattr_term v junk
    rw [same]
    exact ⟨⟨device, top, y⟩, rfl⟩
  · split
    · unfold Terminal.vtScroll
      split
      · simp only [Terminal.termScrollDown, termSetCursor_same]
        split
        · exact ⟨⟨device, top, y⟩, rfl⟩
        · exact ⟨⟨device, by dsimp only; omega, y⟩, rfl⟩
      · split
        · refine ⟨termScrollUp_upright ⟨device, top, y⟩, ?_⟩
          rw [termScrollUp_eq]
          split <;> rfl
        · exact ⟨⟨device, top, y⟩, rfl⟩
    · split
      · refine ⟨termSetCursor_upright ⟨device, top, y⟩ 0 (Int.le_refl 0), ?_⟩
        unfold Terminal.termSetCursor
        split
        · rfl
        · split
          · rfl
          · split <;> rfl
      · exact ⟨⟨device, top, y⟩, rfl⟩

end Moves

section Bytes
variable {v v' : Vt} {c : UInt8} {junk : UInt8 × UInt8}

theorem vtProcess_upright (upright : Upright v.t)
    (stepped : Terminal.vtProcess v c junk = some v') : Upright v'.t := by
  unfold Terminal.vtProcess at stepped
  cases mode : v.s with
  | ground =>
    simp only [mode, Option.some.injEq] at stepped
    subst stepped
    split
    · exact upright
    · exact termPutc_upright upright c
  | escape =>
    simp only [mode, Option.some.injEq] at stepped
    subst stepped
    split
    · exact upright
    · exact upright
  | csiParam =>
    simp only [mode] at stepped
    by_cases digit : isdigit c = true
    · simp only [if_pos digit, Option.some.injEq] at stepped
      exact stepped ▸ upright
    · by_cases room : v.paramCount < maxParams
      · obtain ⟨v₁, stored, same, -⟩ := vtParam_stored room
        rw [← same] at upright
        simp only [digit, stored, Option.map_some, Bool.false_eq_true, if_false] at stepped
        by_cases next : c = 0x3b
        · simp only [if_pos next, Option.some.injEq] at stepped
          exact stepped ▸ upright
        · simp only [if_neg next, Option.some.injEq] at stepped
          exact stepped ▸ (vtDispatch_upright upright c junk).1
      · simp only [digit, vtParam, if_neg room, Option.map_none, Bool.false_eq_true,
          if_false, ite_self,
          reduceCtorEq] at stepped

theorem vtProcess_placed_iff (upright : Upright v.t) (c : UInt8) (junk : UInt8 × UInt8) :
    (∃ v' calls, vtProcess v c junk = some (v', calls) ∧ Placed v'.t calls) ↔ Fits v c := by
  have nothing : Placed v.t [] := (guarded_nil _).placed
  unfold vtProcess Fits
  cases v.s with
  | ground =>
    by_cases escape : c = 0x1b
    · simp only [if_pos escape]
      exact ⟨fun _ => Or.inl escape, fun _ => ⟨_, _, rfl, nothing⟩⟩
    · simp only [escape, if_false, false_or, ← termPutc_placed_iff upright]
      constructor
      · rintro ⟨v', calls, same, placed⟩
        cases same
        exact placed
      · intro placed
        exact ⟨_, _, rfl, placed⟩
  | escape =>
    simp only [iff_true]
    refine ⟨_, _, rfl, ?_⟩
    split
    · exact nothing
    · exact nothing
  | csiParam =>
    by_cases digit : isdigit c = true
    · simp only [if_pos digit]
      exact ⟨fun _ => Or.inl digit, fun _ => ⟨_, _, rfl, nothing⟩⟩
    · by_cases room : v.paramCount < maxParams
      · obtain ⟨v₁, stored, same, -⟩ := vtParam_stored room
        rw [← same] at upright nothing
        simp only [digit, stored, Option.map_some, Bool.false_eq_true, if_false, false_or,
          room, iff_true]
        split
        · exact ⟨_, _, rfl, nothing⟩
        · refine ⟨_, _, rfl, Guarded.placed ?_⟩
          simp only [vtDispatch_vt, (vtDispatch_upright upright c junk).2]
          exact vtDispatch_guarded v₁ c junk
      · have full : vtParam v = none := if_neg room
        simp only [digit, full, Option.map_none, room, Bool.false_eq_true, if_false,
          or_self, iff_false]
        split <;> simp

end Bytes

def fitting : Machine Vt (UInt8 × UInt8 × UInt8) where
  legal v b := Fits v b.1
  step v b := Terminal.vtProcess v b.1 b.2

/-- Wherever the hardware has the cursor at `vgatext_init`, in every state that bytes that
    fit lead to the calls of the next byte are in device coordinates exactly if it fits. -/
theorem device_coordinates_when_fitting (x : Int) {y : Int} (row : 0 ≤ y)
    (screen : Int → Cell) (v : Vt)
    (reach : Reach fitting (vgatextInit x y screen) v) (c : UInt8) (junk : UInt8 × UInt8) :
    (∃ v' calls, vtProcess v c junk = some (v', calls) ∧ Placed v'.t calls) ↔ Fits v c := by
  have start : Upright (vgatextInit x y screen).t :=
    ⟨⟨by simp [vgatextInit], by simp [vgatextInit]⟩, Int.le_refl 0, row⟩
  have upright : Upright v.t := by
    apply reach_invariant (fun v => Upright v.t) start _ reach
    intro v b v' before _ stepped
    exact vtProcess_upright before stepped
  exact vtProcess_placed_iff upright c junk

theorem device_coordinates_of_second_letter :
    ∃ v, Reach fitting blankVt v ∧ v.t.written = [0] ∧
      ∃ v' calls, vtProcess v 0x62 (0, 0) = some (v', calls) ∧ Placed v'.t calls := by
  have reach : Reach fitting blankVt { blankVt with t := Terminal.termPutcRaw blankVt.t 0x61 } :=
    ⟨[(0x61, 0, 0)], Run.cons (Or.inr ⟨rfl, by decide, fun _ => by decide⟩) rfl (Run.nil _)⟩
  refine ⟨_, reach, rfl, ?_⟩
  rw [device_coordinates_when_fitting 0 (Int.le_refl 0) _ _ reach]
  exact Or.inr ⟨rfl, by decide, fun _ => by decide⟩

/-- The newline on the last row of the device scrolls, and the cursor is put a row below
    the device. -/
theorem scrolled_newline_leaves_device :
    ∃ v v' calls, processAll blankVt (List.replicate 24 0x0a) = some v ∧
    vtProcess v 0x0a (0, 0) = some (v', calls) ∧
      lastCursor calls = some (0, 25) ∧ v'.t.dheight = 24 ∧
      (v'.t.cursorX, v'.t.cursorY - v'.t.scrollTop) = (0, 24) ∧
      Call.termPutc 0x0a ∈ calls ∧ ¬ Placed v'.t calls := by
  have value : ((processAll blankVt (List.replicate 24 0x0a)).bind fun v =>
      (vtProcess v 0x0a (0, 0)).map fun r =>
        (lastCursor r.2, r.1.t.dheight, (r.1.t.cursorX, r.1.t.cursorY - r.1.t.scrollTop),
          r.2.any fun call => call matches .termPutc 0x0a)) =
          some (some (0, 25), 24, (0, 24), true) := by
    decide +kernel
  simp only [Option.bind_eq_some_iff, Option.map_eq_some_iff, Prod.mk.injEq] at value
  obtain ⟨v, fed, ⟨v', calls⟩, result, last, height, cursor, given⟩ := value
  have given' : Call.termPutc 0x0a ∈ calls := by
    rw [List.any_eq_true] at given
    obtain ⟨call, member, same⟩ := given
    split at same
    · exact member
    · cases same
  refine ⟨v, v', calls, fed, result, last, height, by rw [cursor.1, cursor.2], given', ?_⟩
  intro placed
  have wanted := placed.cursor 0x0a given'
  rw [last, cursor.1, cursor.2] at wanted
  exact absurd wanted (by decide)

end Console
