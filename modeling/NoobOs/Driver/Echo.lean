import NoobOs.Driver.LineDiscipline
import NoobOs.Driver.TerminalLaws

/-!
A tty over the terminal of its screen: each byte of input goes to the line discipline, and what that
echoes goes through `tty_outputc` and `vga_ttywrite` to the terminal. While a line is edited within
its row, the row shows the line, and what the row shows is what a reader gets.
-/
namespace Echo
open Tty Terminal

def typed (late : Bool) (x : State × Vt) (c : UInt8) : Option (State × Vt) := do
  let s ← ttyInputc late x.1 c
  let v ← processAll x.2 (s.output.drop x.1.output.length)
  pure (s, v)

/-! ## What is put out -/

def newlined (tm : Termios) (c : UInt8) : List UInt8 :=
  if tm.cOflag &&& oPost ≠ 0 ∧ tm.cOflag &&& onlCr ≠ 0 ∧ c = 0x0a then [0x0d, c] else [c]

def echoed (tm : Termios) (line : List UInt8) : Key → List UInt8
  | .ignore => []
  | .erase => if line = [] then [] else [0x08, 0x20, 0x08]
  | .text b => newlined tm b

section Output
variable {s s' : State} {late : Bool}

theorem ttyOutputc_output (s : State) (c : UInt8) :
    (ttyOutputc s c).output = s.output ++ newlined s.termios c := by
  unfold ttyOutputc newlined
  split <;> rfl

theorem plain_newlined {tm : Termios} {c : UInt8} (plain : c ≠ 0x0a) : newlined tm c = [c] :=
  if_neg fun all => plain all.2.2

theorem commitLine_output {n i : Nat} (done : commitLine n i s = some s') :
    s'.output = s.output ∧ s'.termios = s.termios := by
  induction n generalizing s i with
  | zero =>
    cases done
    exact ⟨rfl, rfl⟩
  | succ n ih =>
    obtain ⟨c, -, rest⟩ := Option.bind_eq_some_iff.mp done
    obtain ⟨output, termios⟩ := ih rest
    exact ⟨output, termios⟩

theorem storeLine_output {c : UInt8} (done : storeLine late s c = some s') :
    s'.output = s.output ∧ s'.termios = s.termios := by
  unfold storeLine at done
  split at done
  · cases done
    exact ⟨rfl, rfl⟩
  · split at done
    · cases done
      exact ⟨rfl, rfl⟩
    · cases done

theorem putLine_output {c : UInt8} (done : putLine late s c = some s') :
    s'.output = s.output ∧ s'.termios = s.termios := by
  obtain ⟨s₁, stored, rest⟩ := Option.bind_eq_some_iff.mp done
  obtain ⟨output, termios⟩ := storeLine_output stored
  split at rest
  · obtain ⟨s₂, sent, last⟩ := Option.bind_eq_some_iff.mp rest
    obtain ⟨output', termios'⟩ := commitLine_output sent
    cases last
    exact ⟨output'.trans output, termios'.trans termios⟩
  · cases rest
    exact ⟨output, termios⟩

theorem ttyInputc_output (canon : s.termios.cLflag &&& iCanon ≠ 0)
    (echo : s.termios.cLflag &&& echoFlag ≠ 0) {c : UInt8}
    (taken : ttyInputc late s c = some s') :
    s'.output = s.output ++ echoed s.termios (lineOf s) (keyOf s.termios c) := by
  unfold ttyInputc at taken
  change (if s.termios.cLflag &&& iSig ≠ 0 ∧ isChar (mapped s.termios c) (s.termios.cCc vIntr) then
    some s
    else if s.termios.cLflag &&& iCanon ≠ 0 then canonTty late s (mapped s.termios c)
    else _) = some s' at taken
  rw [if_pos canon] at taken
  unfold keyOf
  split at taken
  · rename_i intr
    cases taken
    rw [if_pos intr, echoed, List.append_nil]
  · rename_i other
    rw [if_neg other, if_pos canon]
    unfold canonTty at taken
    by_cases erase : isChar (mapped s.termios c) (s.termios.cCc vErase)
    · rw [if_pos erase]
      simp only [if_pos erase, if_pos echo] at taken
      by_cases some' : s.lineLen > 0
      · rw [if_pos some', Option.some.injEq] at taken
        subst taken
        have line : lineOf s ≠ [] := by
          intro empty
          have length := congrArg List.length empty
          rw [lineOf, List.length_map, List.length_range, List.length_nil] at length
          omega
        rw [echoed, if_neg line, ttyOutputc_output, ttyOutputc_output, ttyOutputc_output]
        rw [plain_newlined (by decide), plain_newlined (by decide), plain_newlined (by decide)]
        simp
      · rw [if_neg some', Option.some.injEq] at taken
        subst taken
        have empty : lineOf s = [] := by
          have zero : s.lineLen = 0 := by omega
          simp [lineOf, zero]
        rw [echoed, if_pos empty, List.append_nil]
    · rw [if_neg erase]
      simp only [if_neg erase] at taken
      by_cases eof : isChar (mapped s.termios c) (s.termios.cCc vEof)
      · rw [if_pos eof]
        rw [if_pos eof, Option.some.injEq] at taken
        subst taken
        rw [echoed, List.append_nil]
      · rw [if_neg eof]
        rw [if_neg eof] at taken
        obtain ⟨s₁, put, last⟩ := Option.bind_eq_some_iff.mp taken
        simp only [if_pos echo] at last
        cases last
        obtain ⟨output, termios⟩ := putLine_output put
        rw [ttyOutputc_output, output, termios]
        rfl

end Output

/-! ## The row -/

/-- A byte that the terminal puts in a cell. -/
def Shown (c : UInt8) : Prop := c ≠ 0x0a ∧ c ≠ 0x0d ∧ c ≠ 0x08 ∧ c ≠ 0x1b

def origin (t : Term) : Int := t.cursorY * t.width + t.cursorX

/-- The cells from there on as far as the line ever came: the line, and blanks behind it. -/
def overlay (t₀ : Term) (line : List UInt8) (reached : Nat) (i : Int) : Cell :=
  if origin t₀ ≤ i ∧ i < origin t₀ + reached then
    ⟨line.getD (i - origin t₀).toNat 0x20, t₀.fg, t₀.bg⟩
  else t₀.cbuf i

/-- The terminal is the one where the line was begun, but for the line in its row. -/
structure Mirrors (t₀ : Term) (v : Vt) (line : List UInt8) (reached : Nat) : Prop where
  ground : v.s = .ground
  x : v.t.cursorX = t₀.cursorX + line.length
  y : v.t.cursorY = t₀.cursorY
  width : v.t.width = t₀.width
  top : v.t.scrollTop = t₀.scrollTop
  colours : v.t.fg = t₀.fg ∧ v.t.bg = t₀.bg
  far : line.length ≤ reached
  fits : 0 ≤ t₀.cursorX ∧ t₀.cursorX + reached ≤ t₀.width
  cells : v.t.cbuf = overlay t₀ line reached

section Row
variable {t₀ : Term} {v : Vt} {line : List UInt8} {reached : Nat}

theorem mirrors_start (ground : v.s = .ground) (inRow : 0 ≤ v.t.cursorX ∧ v.t.cursorX ≤ v.t.width) :
    Mirrors v.t v [] 0 where
  ground := ground
  x := (Int.add_zero _).symm
  y := rfl
  width := rfl
  top := rfl
  colours := ⟨rfl, rfl⟩
  far := Nat.le_refl 0
  fits := ⟨inRow.1, by omega⟩
  cells := by
    funext i
    exact (if_neg (by omega)).symm

theorem glyph_cell (mirrors : Mirrors t₀ v line reached) (c : UInt8) :
    Function.update v.t.cbuf (v.t.cursorY * v.t.width + v.t.cursorX) ⟨c, v.t.fg, v.t.bg⟩ =
      overlay t₀ (line ++ [c]) (max reached (line.length + 1)) := by
  have spot : v.t.cursorY * v.t.width + v.t.cursorX = origin t₀ + line.length := by
    rw [mirrors.y, mirrors.width, mirrors.x, origin]
    omega
  have far := mirrors.far
  rw [spot, mirrors.colours.1, mirrors.colours.2, mirrors.cells]
  funext i
  by_cases here : i = origin t₀ + line.length
  · have index : (i - origin t₀).toNat = line.length := by omega
    rw [here, Function.update_self, overlay, if_pos (by omega), ← here, index,
      List.getD_eq_getElem?_getD, List.getElem?_concat_length]
    rfl
  · rw [Function.update_of_ne here, overlay, overlay]
    by_cases inside : origin t₀ ≤ i ∧ i < origin t₀ + reached
    · rw [if_pos inside, if_pos (by omega)]
      have other : (i - origin t₀).toNat ≠ line.length := by omega
      congr 1
      simp only [List.getD_eq_getElem?_getD]
      by_cases before : (i - origin t₀).toNat < line.length
      · rw [List.getElem?_append_left before]
      · rw [List.getElem?_eq_none (by omega),
          List.getElem?_eq_none (by rw [List.length_append, List.length_singleton]; omega)]
    · rw [if_neg inside, if_neg (by omega)]

theorem termPutc_glyph {t : Term} {c : UInt8} (glyph : Shown c) (room : t.cursorX < t.width) :
    termPutc t c = termWrite t c := by
  have still : termWrap t = t := if_neg (by omega)
  rw [termPutc, if_neg glyph.1, if_neg glyph.2.1, if_neg glyph.2.2.1, termPutcRaw_write, still]

theorem processAll_ground (ground : v.s = .ground) {c : UInt8} (plain : c ≠ 0x1b)
    (cs : List UInt8) :
    processAll v (c :: cs) = processAll { v with t := termPutc v.t c } cs := by
  have step : vtProcess v c (0, 0) = some { v with t := termPutc v.t c } := by
    simp only [vtProcess, ground, if_neg plain]
  rw [processAll, List.foldlM_cons, step]
  rfl

theorem glyph_mirrors (mirrors : Mirrors t₀ v line reached) {c : UInt8} (glyph : Shown c)
    (room : t₀.cursorX + line.length < t₀.width) :
    ∃ v', processAll v [c] = some v' ∧
    Mirrors t₀ v' (line ++ [c]) (max reached (line.length + 1)) := by
  have inRow : v.t.cursorX < v.t.width := by
    rw [mirrors.x, mirrors.width]
    exact room
  refine ⟨{ v with t := termPutc v.t c }, ?_, ?_⟩
  · rw [processAll_ground mirrors.ground glyph.2.2.2]
    rfl
  · rw [termPutc_glyph glyph inRow]
    have x := mirrors.x
    have fits := mirrors.fits
    have far := mirrors.far
    exact {
      ground := mirrors.ground
      x := by simp only [termWrite, List.length_append, List.length_singleton]; omega
      y := mirrors.y
      width := mirrors.width
      top := mirrors.top
      colours := mirrors.colours
      far := by rw [List.length_append, List.length_singleton]; omega
      fits := ⟨fits.1, by omega⟩
      cells := glyph_cell mirrors c }

theorem blank_cell (mirrors : Mirrors t₀ v line reached) (some' : line ≠ []) :
    Function.update v.t.cbuf (v.t.cursorY * v.t.width + (v.t.cursorX - 1)) ⟨0x20, v.t.fg, v.t.bg⟩ =
      overlay t₀ line.dropLast reached := by
  have positive := List.length_pos_of_ne_nil some'
  have spot : v.t.cursorY * v.t.width + (v.t.cursorX - 1) =
      origin t₀ + (line.length - 1 : Nat) := by
    rw [mirrors.y, mirrors.width, mirrors.x, origin]
    omega
  have far := mirrors.far
  rw [spot, mirrors.colours.1, mirrors.colours.2, mirrors.cells]
  funext i
  by_cases here : i = origin t₀ + (line.length - 1 : Nat)
  · have index : (i - origin t₀).toNat = line.length - 1 := by omega
    rw [here, Function.update_self, overlay, if_pos (by omega), ← here, index,
      List.getD_eq_getElem?_getD,
      List.getElem?_eq_none (by rw [List.length_dropLast])]
    rfl
  · rw [Function.update_of_ne here, overlay, overlay]
    by_cases inside : origin t₀ ≤ i ∧ i < origin t₀ + reached
    · rw [if_pos inside, if_pos inside]
      have other : (i - origin t₀).toNat ≠ line.length - 1 := by omega
      congr 1
      simp only [List.getD_eq_getElem?_getD, List.getElem?_dropLast]
      split
      · rfl
      · rw [List.getElem?_eq_none (by omega)]
    · rw [if_neg inside, if_neg inside]

def left (t : Term) : Term := { t with cursorX := t.cursorX - 1 }

theorem termPutc_back {t : Term} (right : 0 < t.cursorX) : termPutc t 0x08 = left t := by
  rw [termPutc, if_neg (by decide), if_neg (by decide), if_pos rfl, termBkspace,
    if_neg (by omega), left]

theorem back_mirrors (mirrors : Mirrors t₀ v line reached) (some' : line ≠ []) :
    ∃ v', processAll v [0x08, 0x20, 0x08] = some v' ∧ Mirrors t₀ v' line.dropLast reached := by
  have positive := List.length_pos_of_ne_nil some'
  have x := mirrors.x
  have fits := mirrors.fits
  have far := mirrors.far
  have width := mirrors.width
  have first : termPutc v.t 0x08 = left v.t := termPutc_back (by omega)
  have second : termPutc (left v.t) 0x20 = termWrite (left v.t) 0x20 :=
    termPutc_glyph ⟨by decide, by decide, by decide, by decide⟩ (by simp only [left]; omega)
  have third : termPutc (termWrite (left v.t) 0x20) 0x08 = left (termWrite (left v.t) 0x20) :=
    termPutc_back (by simp only [termWrite, left]; omega)
  refine ⟨{ v with t := left (termWrite (left v.t) 0x20) }, ?_, ?_⟩
  · have ground := mirrors.ground
    rw [processAll_ground ground (by decide), first,
      processAll_ground (v := { v with t := left v.t }) ground (by decide), second,
      processAll_ground (v := { v with t := termWrite (left v.t) 0x20 }) ground (by decide), third]
    rfl
  · exact {
      ground := mirrors.ground
      x := by simp only [left, termWrite, List.length_dropLast]; omega
      y := mirrors.y
      width := mirrors.width
      top := mirrors.top
      colours := mirrors.colours
      far := by rw [List.length_dropLast]; omega
      fits := fits
      cells := blank_cell mirrors some' }

end Row

/-! ## A line -/

def edit (line : List UInt8) : Key → List UInt8
  | .ignore => line
  | .erase => line.dropLast
  | .text b => line ++ [b]

def editAll (tm : Termios) (line : List UInt8) (cs : List UInt8) : List UInt8 :=
  cs.foldl (fun line c => edit line (keyOf tm c)) line

/-- Each byte of text is one that is shown, and there is room for it in the line and in the rest of
    the row. -/
def Fits (tm : Termios) (room : Int) : List UInt8 → List UInt8 → Prop
  | _, [] => True
  | line, c :: cs => (∀ b, keyOf tm c = .text b → Shown b ∧ line.length < ttyLinesiz ∧
    line.length < room) ∧
    Fits tm room (edit line (keyOf tm c)) cs

/-- What stands in the row from the start of the line to the cursor. -/
def rowText (t₀ t : Term) : List UInt8 :=
  (List.range (t.cursorX - t₀.cursorX).toNat).map fun k : Nat => (t.cbuf (origin t₀ + k)).ch

section Line
variable {late : Bool} {s : State} {t₀ : Term} {v : Vt} {reached : Nat}

structure Showing (tm : Termios) (t₀ : Term) (line : List UInt8) (x : State × Vt) : Prop where
  inv : Inv x.1
  termios : x.1.termios = tm
  same : lineOf x.1 = line
  row : ∃ reached, Mirrors t₀ x.2 line reached

theorem typed_echo (late : Bool) (v : Vt) (inv : Inv s) (canon : s.termios.cLflag &&& iCanon ≠ 0)
    (echo : s.termios.cLflag &&& echoFlag ≠ 0) {c : UInt8}
    (roomy : Roomy s c) : ∃ s', Inv s' ∧ s'.termios = s.termios ∧ s'.pops = s.pops ∧
    Effect s s' (keyOf s.termios c) ∧
      typed late (s, v) c = (processAll v (echoed s.termios (lineOf s) (keyOf s.termios c))).map
      fun v' => (s', v') := by
  obtain ⟨s', taken, inv', termios, pops, effect⟩ := ttyInputc_step late inv roomy
  refine ⟨s', inv', termios, pops, effect, ?_⟩
  have output := ttyInputc_output canon echo taken
  simp only [typed, taken, output, Option.bind_eq_bind, Option.bind_some, List.drop_left]
  cases processAll v (echoed s.termios (lineOf s) (keyOf s.termios c)) <;> rfl

theorem lineOf_length (s : State) : (lineOf s).length = s.lineLen := by
  rw [lineOf, List.length_map, List.length_range]

theorem keyOf_canon (tm : Termios) (c : UInt8) : keyOf tm c = .ignore ∨ keyOf tm c = .erase ∨
    ∃ b, keyOf tm c = .text b := by
  cases keyOf tm c with
  | ignore => exact Or.inl rfl
  | erase => exact Or.inr (Or.inl rfl)
  | text b => exact Or.inr (Or.inr ⟨b, rfl⟩)

theorem typed_shows (late : Bool) {tm : Termios} {line : List UInt8} {x : State × Vt}
    (canon : tm.cLflag &&& iCanon ≠ 0)
    (echo : tm.cLflag &&& echoFlag ≠ 0) (showing : Showing tm t₀ line x) {c : UInt8}
    (fits : ∀ b, keyOf tm c = .text b → Shown b ∧ line.length < ttyLinesiz ∧
    line.length < t₀.width - t₀.cursorX) :
    ∃ x', typed late x c = some x' ∧ Showing tm t₀ (edit line (keyOf tm c)) x' ∧
    x'.1.sent = x.1.sent ∧ x'.1.pops = x.1.pops := by
  obtain ⟨s, v⟩ := x
  obtain ⟨inv, rfl, rfl, reached, mirrors⟩ := showing
  simp only at inv canon echo fits mirrors ⊢
  have roomy : Roomy s c := by
    intro b key
    obtain ⟨shown, room, -⟩ := fits b key
    rw [lineOf_length] at room
    rw [if_pos canon]
    exact ⟨room, fun newline => absurd newline shown.1⟩
  obtain ⟨s', inv', termios, pops, effect, step⟩ := typed_echo late v inv canon echo roomy
  rw [step]
  rcases keyOf_canon s.termios c with key | key | ⟨b, key⟩
  · rw [key] at effect
    rw [key, echoed]
    exact ⟨(s', v), rfl, ⟨inv', termios, effect.2, reached, mirrors⟩, effect.1, pops⟩
  · rw [key] at effect
    rw [key, echoed]
    by_cases empty : lineOf s = []
    · rw [if_pos empty]
      refine ⟨(s', v), rfl, ⟨inv', termios, effect.2, reached, ?_⟩, effect.1, pops⟩
      show Mirrors t₀ v (lineOf s).dropLast reached
      rw [empty] at mirrors ⊢
      exact mirrors
    · rw [if_neg empty]
      obtain ⟨v', processed, mirrors'⟩ := back_mirrors mirrors empty
      rw [processed]
      exact ⟨(s', v'), rfl, ⟨inv', termios, effect.2, reached, mirrors'⟩, effect.1, pops⟩
  · obtain ⟨shown, -, room⟩ := fits b key
    rw [key, Effect, if_pos canon, if_neg shown.1] at effect
    rw [key, echoed, plain_newlined shown.1]
    obtain ⟨v', processed, mirrors'⟩ := glyph_mirrors mirrors shown (by omega)
    rw [processed]
    exact ⟨(s', v'), rfl, ⟨inv', termios, effect.2, _, mirrors'⟩, effect.1, pops⟩

theorem run_shows (late : Bool) {tm : Termios} {line : List UInt8} {x : State × Vt}
    (canon : tm.cLflag &&& iCanon ≠ 0)
    (echo : tm.cLflag &&& echoFlag ≠ 0) (showing : Showing tm t₀ line x) {cs : List UInt8}
    (fits : Fits tm (t₀.width - t₀.cursorX) line cs) :
    ∃ x', cs.foldlM (typed late) x = some x' ∧ Showing tm t₀ (editAll tm line cs) x' ∧
    x'.1.sent = x.1.sent ∧ x'.1.pops = x.1.pops := by
  induction cs generalizing line x with
  | nil => exact ⟨x, rfl, showing, rfl, rfl⟩
  | cons c cs ih =>
    obtain ⟨x₁, step, showing₁, sent₁, pops₁⟩ := typed_shows late canon echo showing fits.1
    obtain ⟨x₂, rest, showing₂, sent₂, pops₂⟩ := ih showing₁ fits.2
    exact ⟨x₂, by rw [List.foldlM_cons, step]; exact rest, showing₂, sent₂.trans sent₁,
      pops₂.trans pops₁⟩

theorem rowText_line {line : List UInt8} (mirrors : Mirrors t₀ v line reached) :
    rowText t₀ v.t = line := by
  have length : (v.t.cursorX - t₀.cursorX).toNat = line.length := by
    have x := mirrors.x
    omega
  apply List.ext_getElem
  · rw [rowText, List.length_map, List.length_range, length]
  · intro k _ inside
    have far := mirrors.far
    have index : (origin t₀ + (k : Int) - origin t₀).toNat = k := by omega
    simp only [rowText, List.getElem_map, List.getElem_range]
    rw [mirrors.cells, overlay, if_pos (by omega), index]
    simp [List.getD_eq_getElem?_getD, List.getElem?_eq_getElem inside]

theorem edit_plain {tm : Termios} {room : Int} {line cs : List UInt8} (plain : ∀ b ∈ line, b ≠ 0x0a)
    (fits : Fits tm room line cs) :
    ∀ b ∈ editAll tm line cs, b ≠ 0x0a := by
  induction cs generalizing line with
  | nil => exact plain
  | cons c cs ih =>
    apply ih _ fits.2
    rcases keyOf_canon tm c with key | key | ⟨b, key⟩
    · rw [key]
      exact plain
    · rw [key]
      exact fun b member => plain b (List.mem_of_mem_dropLast member)
    · rw [key]
      intro b' member
      rcases List.mem_append.mp member with old | new
      · exact plain b' old
      · rw [List.mem_singleton.mp new]
        exact (fits.1 b key).1.1

theorem takeLine_line {line : List UInt8} (plain : ∀ b ∈ line, b ≠ 0x0a) {siz : Nat}
    (room : line.length < siz) :
    takeLine siz (line ++ [0x0a]) = line ++ [0x0a] := by
  induction line generalizing siz with
  | nil =>
    obtain ⟨n, rfl⟩ : ∃ n, siz = n + 1 := ⟨siz - 1, by simp only [List.length_nil] at room; omega⟩
    rfl
  | cons b line ih =>
    rw [List.length_cons] at room
    obtain ⟨n, rfl⟩ : ∃ n, siz = n + 1 := ⟨siz - 1, by omega⟩
    rw [List.cons_append, takeLine, if_neg (plain b (List.mem_cons_self ..)),
      ih (fun b' member => plain b' (List.mem_cons_of_mem _ member)) (by omega)]

theorem enter_processed (tm : Termios) (ground : v.s = .ground) :
    ∃ v', processAll v (newlined tm 0x0a) = some v' := by
  unfold newlined
  split
  · rw [processAll_ground ground (by decide),
      processAll_ground (v := { v with t := termPutc v.t 0x0d }) ground (by decide)]
    exact ⟨_, rfl⟩
  · rw [processAll_ground ground (by decide)]
    exact ⟨_, rfl⟩

end Line

end Echo
