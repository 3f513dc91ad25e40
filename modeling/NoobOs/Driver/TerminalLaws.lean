import NoobOs.Driver.Terminal

/-!
Two laws of the terminal: a wrap is a newline from the first column, and `vt_setattr` changes
the colours it is asked for.
-/
namespace Terminal

/-! ## Wrap and newline -/

def termWrite (t : Term) (c : UInt8) : Term :=
  let i := t.cursorY * t.width + t.cursorX
  { t with
    cbuf := Function.update t.cbuf i ⟨c, t.fg, t.bg⟩
    written := t.written ++ [i]
    cursorX := t.cursorX + 1 }

/-- A byte at the end of a row is the byte after a newline from the first column, and the row
    just completed is still in the buffer. -/
structure WrapsLikeNewline (t : Term) (c : UInt8) : Prop where
  cells : (termPutcRaw t c).cbuf = (termWrite (termNewline { t with cursorX := 0 }) c).cbuf
  top : (termPutcRaw t c).scrollTop = (termWrite (termNewline { t with cursorX := 0 }) c).scrollTop
  x : (termPutcRaw t c).cursorX = (termWrite (termNewline { t with cursorX := 0 }) c).cursorX
  y : (termPutcRaw t c).cursorY = (termWrite (termNewline { t with cursorX := 0 }) c).cursorY
  completed : ∃ row, ∀ i, 0 ≤ i → i < t.width →
    (termPutcRaw t c).cbuf (row * t.width + i) = t.cbuf (t.cursorY * t.width + i)

section Wrap
variable {t : Term}

theorem termPutcRaw_write (t : Term) (c : UInt8) : termPutcRaw t c = termWrite (termWrap t) c := rfl

theorem termScrollUp_cursorY (t : Term) : (termScrollUp t).cursorY = t.cursorY := by
  rw [termScrollUp_eq]
  split
  · rfl
  · rfl

theorem termWrap_above (full : t.cursorX = t.width) (inside : t.cursorY < t.height)
    (above : t.cursorY - t.scrollTop < t.dheight) :
    termWrap t = termNewline { t with cursorX := 0 } := by
  have row : ¬ t.cursorY ≥ t.height := by omega
  have still : ¬ t.cursorY - t.scrollTop ≥ t.dheight := by omega
  unfold termWrap termNewline
  rw [if_pos (by omega)]
  simp only [if_neg row, if_neg still]

theorem termWrap_bottom (full : t.cursorX = t.width) (inside : t.cursorY < t.height)
    (bottom : t.cursorY - t.scrollTop ≥ t.dheight) : (termWrap t).cursorY = t.cursorY ∧
    (termNewline { t with cursorX := 0 }).cursorY = t.cursorY + 1 := by
  have row : ¬ t.cursorY ≥ t.height := by omega
  unfold termWrap termNewline
  rw [if_pos (by omega)]
  simp only [if_neg row, if_pos bottom, termScrollUp_cursorY]
  exact ⟨Int.sub_add_cancel _ _, trivial⟩

end Wrap

/-- They are the same exactly above the bottom of the screen. -/
theorem wrap_is_newline_iff {t : Term} (full : t.cursorX = t.width)
    (inside : 0 ≤ t.cursorY ∧ t.cursorY < t.height)
    (c : UInt8) : WrapsLikeNewline t c ↔ t.cursorY - t.scrollTop < t.dheight := by
  constructor
  · intro right
    by_contra bottom
    obtain ⟨wrapped, next⟩ := termWrap_bottom full inside.2 (by omega)
    have rows : (termWrap t).cursorY = (termNewline { t with cursorX := 0 }).cursorY := right.y
    omega
  · intro above
    have same := termWrap_above full inside.2 above
    have wrote : termPutcRaw t c = termWrite (termNewline { t with cursorX := 0 }) c := by
      rw [termPutcRaw_write, same]
    refine ⟨by rw [wrote], by rw [wrote], by rw [wrote], by rw [wrote], t.cursorY, ?_⟩
    intro i low high
    have still : ¬ t.cursorY - t.scrollTop ≥ t.dheight := by omega
    have next : (t.cursorY + 1) * t.width = t.cursorY * t.width + t.width := by
      rw [Int.add_mul, Int.one_mul]
    rw [wrote]
    simp only [termWrite, termNewline, if_neg still]
    apply Function.update_of_ne
    omega

theorem first_row_wraps : WrapsLikeNewline (vgatextInit 80 0 fun _ => ⟨0, 0, 0⟩).t 0x61 :=
  (wrap_is_newline_iff rfl (by decide) 0x61).mpr (by decide)

/-- At the end of the last row of the screen, the byte goes over the first cell of that row. -/
theorem bottom_row_overwritten : ¬ WrapsLikeNewline (vgatextInit 80 24 fun _ => ⟨0, 0, 0⟩).t 0x61 ∧
    (termPutcRaw (vgatextInit 80 24 fun _ => ⟨0, 0, 0⟩).t 0x61).cbuf (24 * 80) =
    ⟨0x61, 0x0f, 0x00⟩ := by
  constructor
  · intro right
    have rows := right.y
    revert rows
    decide
  · rfl

/-! ## Colours -/

def fgCode (p : UInt32) : Bool := 30 ≤ p ∧ p ≤ 37
def bgCode (p : UInt32) : Bool := 40 ≤ p ∧ p ≤ 47

def Vt.given (v : Vt) : List UInt32 := (List.range v.paramCount).map v.params

def askedFor (code : UInt32 → Bool) (ps : List UInt32) : Option UInt8 :=
  ((ps.filter code).getLast?.map fun p => vtVt2col (p % 10).toUInt8 ||| if 1 ∈ ps then 0x8 else 0)

/-- The colours after a sequence with the final byte `m`, whatever was on the stack. -/
structure SgrLaw (v : Vt) : Prop where
  bgKept : ∀ junk, (∀ p ∈ v.given, ¬ bgCode p) → (vtDispatch v 0x6d junk).t.bg = v.t.bg
  fgKept : ∀ junk, (∀ p ∈ v.given, ¬ fgCode p) → 1 ∉ v.given →
    (vtDispatch v 0x6d junk).t.fg = v.t.fg
  bgAsked : ∀ junk c, askedFor bgCode v.given = some c → (vtDispatch v 0x6d junk).t.bg = c
  fgAsked : ∀ junk c, askedFor fgCode v.given = some c → (vtDispatch v 0x6d junk).t.fg = c
  settled : ∀ junk junk', (vtDispatch v 0x6d junk).t = (vtDispatch v 0x6d junk').t

section Colours
variable {v : Vt}

theorem vtAttr_last (ps : List UInt32) (junk : UInt8 × UInt8) : ps.foldl vtAttr junk =
    (((ps.filter fgCode).getLast?.map fun p => (p % 10).toUInt8).getD junk.1,
      ((ps.filter bgCode).getLast?.map fun p => (p % 10).toUInt8).getD junk.2) := by
  induction ps using List.reverseRecOn with
  | nil => rfl
  | append_singleton ps p ih =>
    rw [List.foldl_append, ih, List.foldl_cons, List.foldl_nil, vtAttr, List.filter_append,
      List.filter_append]
    congr 1
    · by_cases code : 30 ≤ p ∧ p ≤ 37
      · simp [fgCode, code]
      · simp [fgCode, code]
    · by_cases code : 40 ≤ p ∧ p ≤ 47
      · simp [bgCode, code]
      · simp [bgCode, code]

theorem askedFor_none (code : UInt32 → Bool) (ps : List UInt32) :
    askedFor code ps = none ↔ ∀ p ∈ ps, ¬ code p := by
  simp [askedFor]

theorem vtDispatch_colours (first : v.params 0 ≠ 0) (junk : UInt8 × UInt8) :
    (vtDispatch v 0x6d junk).t =
    { v.t with
      fg := (askedFor fgCode v.given).getD (vtVt2col junk.1 ||| if 1 ∈ v.given then 0x8 else 0)
      bg := (askedFor bgCode v.given).getD (vtVt2col junk.2 ||| if 1 ∈ v.given then 0x8
      else 0) } := by
  have pending : ∀ (code : UInt32 → Bool) (j : UInt8),
      vtVt2col (((v.given.filter code).getLast?.map fun p => (p % 10).toUInt8).getD j) |||
          (if 1 ∈ v.given then 0x8 else 0) =
        (askedFor code v.given).getD (vtVt2col j ||| if 1 ∈ v.given then 0x8 else 0) := by
    intro code j
    unfold askedFor
    cases (v.given.filter code).getLast? with
    | none => rfl
    | some p => rfl
  rw [vtDispatch, if_pos rfl, vtSetattr, if_neg first]
  unfold Vt.given at pending ⊢
  simp only [vtAttr_last, pending]

theorem junk_shows (bright : UInt8) (flag : bright = 0 ∨ bright = 8) :
    vtVt2col 0 ||| bright ≠ vtVt2col 2 ||| bright := by
  rcases flag with rfl | rfl
  · decide
  · decide

end Colours

/-- The law holds exactly if both colours are asked for. -/
theorem sgr_law_iff {v : Vt} (first : v.params 0 ≠ 0) :
    SgrLaw v ↔ (∃ p ∈ v.given, fgCode p) ∧ ∃ p ∈ v.given, bgCode p := by
  have flag : (if 1 ∈ v.given then 0x8 else 0 : UInt8) = 0 ∨
      (if 1 ∈ v.given then 0x8 else 0 : UInt8) = 8 := by
    split
    · exact Or.inr rfl
    · exact Or.inl rfl
  constructor
  · intro law
    constructor
    · by_contra none'
      have absent := (askedFor_none fgCode v.given).mpr fun p member code => none' ⟨p, member, code⟩
      have same := congrArg Term.fg (law.settled (0, 0) (2, 0))
      rw [vtDispatch_colours first, vtDispatch_colours first, absent] at same
      exact junk_shows _ flag same
    · by_contra none'
      have absent := (askedFor_none bgCode v.given).mpr fun p member code => none' ⟨p, member, code⟩
      have same := congrArg Term.bg (law.settled (0, 0) (0, 2))
      rw [vtDispatch_colours first, vtDispatch_colours first, absent] at same
      exact junk_shows _ flag same
  · rintro ⟨⟨p, given, fg⟩, ⟨q, given', bg⟩⟩
    have someFg : ∃ c, askedFor fgCode v.given = some c := by
      refine Option.ne_none_iff_exists'.mp fun absent => ?_
      exact (askedFor_none fgCode v.given).mp absent p given fg
    have someBg : ∃ c, askedFor bgCode v.given = some c := by
      refine Option.ne_none_iff_exists'.mp fun absent => ?_
      exact (askedFor_none bgCode v.given).mp absent q given' bg
    obtain ⟨fc, hasFg⟩ := someFg
    obtain ⟨bc, hasBg⟩ := someBg
    have colours : ∀ junk, (vtDispatch v 0x6d junk).t = { v.t with fg := fc, bg := bc } := by
      intro junk
      rw [vtDispatch_colours first, hasFg, hasBg]
      rfl
    constructor
    · intro junk none'
      exact absurd bg (none' q given')
    · intro junk none' _
      exact absurd fg (none' p given)
    · intro junk c asked
      rw [hasBg] at asked
      rw [colours]
      exact Option.some.inj asked
    · intro junk c asked
      rw [hasFg] at asked
      rw [colours]
      exact Option.some.inj asked
    · intro junk junk'
      rw [colours, colours]

theorem red_on_blue : SgrLaw { vgatextInit 0 0 (fun _ => ⟨0, 0, 0⟩) with
    params := fun i => if i = 0 then 31 else 44, paramCount := 2 } :=
  (sgr_law_iff (by decide)).mpr ⟨⟨31, by decide, by decide⟩, ⟨44, by decide, by decide⟩⟩

/-- `31` alone leaves the background to the stack: 2 there makes it green. -/
theorem background_from_stack : ¬ SgrLaw { vgatextInit 0 0 (fun _ => ⟨0, 0, 0⟩) with
    params := fun _ => 31, paramCount := 1 } := by
  intro law
  have kept := law.bgKept (0, 2) fun p member => by
    obtain ⟨i, _, rfl⟩ := List.mem_map.mp member
    change ¬ bgCode 31
    decide
  revert kept
  decide

end Terminal
