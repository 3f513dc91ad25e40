import Mathlib.Data.UInt
import Mathlib.Data.List.Infix

/-!
The keyboard driver of `keyboard.c`: `parse_char` on one scan code after the other. The
bytes it passes to `tty_outputc` stand beside the character it returns; a `none` there is
a read behind the end of a map.
-/
namespace Keyboard

structure Kbd where
  kShift : UInt8
  kCtrl : UInt8
  kSpcl : UInt8

structure Reply where
  kbd : Kbd
  sent : List UInt8
  ch : Option UInt8

def scancodeMap : List UInt8 :=
  [ 0x00, 0x00, 0x31, 0x32, 0x33, 0x34, 0x35, 0x36, 0x37, 0x38, 0x39, 0x30, 0x2d, 0x3d, 0x00,
    0x00, 0x71, 0x77, 0x65, 0x72, 0x74, 0x79, 0x75, 0x69, 0x6f, 0x70, 0x5b, 0x5d, 0x00, 0x00,
    0x61, 0x73, 0x64, 0x66, 0x67, 0x68, 0x6a, 0x6b, 0x6c, 0x3b, 0x27, 0x60, 0x00, 0x5c, 0x7a,
    0x78, 0x63, 0x76, 0x62, 0x6e, 0x6d, 0x2c, 0x2e, 0x2f, 0x00, 0x2a, 0x00, 0x20, 0x00]

def scancodeMapShift : List UInt8 :=
  [ 0x00, 0x00, 0x21, 0x40, 0x23, 0x24, 0x25, 0x5e, 0x26, 0x2a, 0x28, 0x29, 0x5f, 0x2b, 0x00,
    0x00, 0x51, 0x57, 0x45, 0x52, 0x54, 0x59, 0x55, 0x49, 0x4f, 0x50, 0x7b, 0x7d, 0x00, 0x00,
    0x41, 0x53, 0x44, 0x46, 0x47, 0x48, 0x4a, 0x4b, 0x4c, 0x3a, 0x22, 0x7e, 0x00, 0x7c, 0x5a,
    0x58, 0x43, 0x56, 0x42, 0x4e, 0x4d, 0x3c, 0x3e, 0x3f, 0x00, 0x2a, 0x00, 0x20, 0x00]

def specialPress (scan : UInt8) : Bool := scan = 0x51 ∨ scan = 0x49

def parseKey (k : Kbd) (press : Bool) (scan : UInt8) : Reply :=
  if scan = 0x2a ∨ scan = 0x36 then ⟨{ k with kShift := if press then 1 else 0 }, [], some 0⟩
  else if scan = 0x1d then ⟨{ k with kCtrl := if press then 1 else 0 }, [], some 0⟩
  else if ¬ press then ⟨k, [], some 0⟩
  else if scan = 0x1c then ⟨k, [], some 0x0a⟩
  else if scan = 0x0e then ⟨k, [], some 0x08⟩
  else if scan = 0x0f then ⟨k, [], some 0x20⟩
  else if k.kShift ≠ 0 then ⟨k, [], scancodeMapShift[scan.toNat]?⟩
  else if k.kCtrl ≠ 0 then ⟨k, [], scancodeMapShift[scan.toNat]?.map fun c => c - 0x41 + 1⟩
  else ⟨k, [], scancodeMap[scan.toNat]?⟩

/-- The counter of prefixes is 8 bits wide, and a code past the map leaves it as it is. -/
def parseChar (k : Kbd) (scan : UInt8) : Reply :=
  if scan = 0xe0 then ⟨{ k with kSpcl := k.kSpcl + 1 }, [], some 0⟩
  else
    let press := scan &&& 0x80 == 0
    let scan := scan &&& 0x7f
    if scan.toNat > scancodeMap.length ∧ ¬ specialPress scan then ⟨k, [], some 0⟩
    else if k.kSpcl ≠ 0 then
      let k := { k with kSpcl := 0 }
      if ¬ press then ⟨k, [], some 0⟩
      else if scan = 0x49 then ⟨k, [0x1b, 0x5b, 0x35, 0x7e], some 0⟩
      else if scan = 0x51 then ⟨k, [0x1b, 0x5b, 0x36, 0x7e], some 0⟩
      else parseKey k press scan
    else parseKey k press scan

def parseAll (bytes : List UInt8) : Kbd := bytes.foldl (fun k b => (parseChar k b).kbd) ⟨0, 0, 0⟩

/-! ## The keys held -/

/-- The byte before, and whether the last event of Ctrl and of Shift was a press. -/
structure Keys where
  last : Option UInt8
  ctrl : Bool
  shift : Bool

/-- A press or a release of Ctrl, left or, behind the prefix, right. -/
def ctrlEvent (b : UInt8) : Option Bool :=
  if b = 0x1d then some true else if b = 0x9d then some false else none

/-- A press or a release of Shift; behind the prefix the codes are none of Shift. -/
def shiftEvent (last : Option UInt8) (b : UInt8) : Option Bool :=
  if last = some 0xe0 then none
  else if b = 0x2a ∨ b = 0x36 then some true
  else if b = 0xaa ∨ b = 0xb6 then some false
  else none

def Keys.next (a : Keys) (b : UInt8) : Keys :=
  ⟨some b, (ctrlEvent b).getD a.ctrl, (shiftEvent a.last b).getD a.shift⟩

def keysAfter (bytes : List UInt8) : Keys := bytes.foldl Keys.next ⟨none, false, false⟩

structure Agree (k : Kbd) (a : Keys) : Prop where
  ctrl : k.kCtrl ≠ 0 ↔ a.ctrl = true
  shift : k.kShift ≠ 0 ↔ a.shift = true

/-- A byte that is taken for what it is: no release of Ctrl is taken for one behind the
    prefix while Ctrl is down; behind the prefix no code of Shift changes whether it is
    down; and no release of Shift meets a prefix left over from before. -/
structure Regular (spcl : UInt8) (a : Keys) (b : UInt8) : Prop where
  ctrl : b = 0x9d → spcl ≠ 0 → a.ctrl = false
  press : a.last = some 0xe0 → (b = 0x2a ∨ b = 0x36) → a.shift = true
  release : (b = 0xaa ∨ b = 0xb6) → (a.last = some 0xe0 ↔ spcl = 0) → a.shift = false

theorem forall_byte {P : UInt8 → Prop} (all : ∀ n < 256, P (UInt8.ofNat n)) (b : UInt8) : P b := by
  have here := all b.toNat b.toNat_lt
  rwa [UInt8.ofNat_toNat] at here

theorem code_bits (b : UInt8) :
    ((b &&& 0x7f = 0x2a ∨ b &&& 0x7f = 0x36) ↔ (b = 0x2a ∨ b = 0x36) ∨ (b = 0xaa ∨ b = 0xb6)) ∧
    (b &&& 0x7f = 0x1d ↔ b = 0x1d ∨ b = 0x9d) ∧
    (b = 0x2a ∨ b = 0x36 ∨ b = 0x1d → b &&& 0x80 = 0) ∧
    (b = 0xaa ∨ b = 0xb6 ∨ b = 0x9d → b &&& 0x80 ≠ 0) := by
  revert b
  apply forall_byte
  decide +kernel

theorem parseKey_shift (k : Kbd) (press : Bool) (scan : UInt8) :
    (parseKey k press scan).kbd.kShift =
    if scan = 0x2a ∨ scan = 0x36 then if press then 1 else 0 else k.kShift := by
  unfold parseKey
  by_cases shift : scan = 0x2a ∨ scan = 0x36
  · simp only [if_pos shift]
  · simp only [if_neg shift]
    split_ifs <;> rfl

theorem parseKey_ctrl (k : Kbd) (press : Bool) (scan : UInt8) : (parseKey k press scan).kbd.kCtrl =
    if scan = 0x1d then if press then 1 else 0 else k.kCtrl := by
  unfold parseKey
  by_cases ctrl : scan = 0x1d
  · subst ctrl
    simp
  · simp only [if_neg ctrl]
    split_ifs <;> rfl

section Codes
variable (k : Kbd) (b : UInt8)

def Modifier (scan : UInt8) : Prop := scan = 0x2a ∨ scan = 0x36 ∨ scan = 0x1d

theorem modifier_code {scan : UInt8} (code : Modifier scan) :
    ¬ scan.toNat > scancodeMap.length ∧ scan ≠ 0x49 ∧ scan ≠ 0x51 ∧ scan ≠ 0x60 := by
  rcases code with rfl | rfl | rfl
  · decide
  · decide
  · decide

theorem parseChar_modifier {b : UInt8} (code : Modifier (b &&& 0x7f)) : (parseChar k b).kbd =
    if k.kSpcl ≠ 0 ∧ b &&& 0x80 ≠ 0 then { k with kSpcl := 0 }
    else (parseKey { k with kSpcl := 0 } (b &&& 0x80 == 0) (b &&& 0x7f)).kbd := by
  obtain ⟨known, up, down, prefix'⟩ := modifier_code code
  have plain : b ≠ 0xe0 := fun same => prefix' (by rw [same]; rfl)
  unfold parseChar
  simp only [if_neg plain, known, false_and, if_false, if_neg up, if_neg down]
  by_cases pending : k.kSpcl = 0
  · have same : ({ k with kSpcl := 0 } : Kbd) = k := by rw [← pending]
    simp only [pending, ne_eq, not_true, if_false, false_and, same]
  · simp only [ne_eq, pending, not_false_iff, if_true, true_and, beq_iff_eq]
    split_ifs <;> rfl

theorem parseChar_other {b : UInt8} (other : ¬ Modifier (b &&& 0x7f)) :
    (parseChar k b).kbd.kShift = k.kShift ∧ (parseChar k b).kbd.kCtrl = k.kCtrl := by
  simp only [Modifier, not_or] at other
  obtain ⟨left, right, ctrl⟩ := other
  have key : ∀ k press, (parseKey k press (b &&& 0x7f)).kbd.kShift = k.kShift ∧
      (parseKey k press (b &&& 0x7f)).kbd.kCtrl = k.kCtrl := by
    intro k press
    rw [parseKey_shift, parseKey_ctrl]
    simp [left, right, ctrl]
  unfold parseChar
  dsimp only
  split_ifs
  · exact ⟨rfl, rfl⟩
  · exact ⟨rfl, rfl⟩
  · exact ⟨rfl, rfl⟩
  · exact ⟨rfl, rfl⟩
  · exact key _ _
  · exact ⟨rfl, rfl⟩
  · exact key _ _

theorem parseChar_shift : (parseChar k b).kbd.kShift =
    if b = 0x2a ∨ b = 0x36 then 1 else if (b = 0xaa ∨ b = 0xb6) ∧ k.kSpcl = 0 then 0
    else k.kShift := by
  obtain ⟨codes, ctrl, pressed, released⟩ := code_bits b
  by_cases shift : b &&& 0x7f = 0x2a ∨ b &&& 0x7f = 0x36
  · rw [parseChar_modifier k (shift.imp_right Or.inl), apply_ite Kbd.kShift,
      parseKey_shift, if_pos shift]
    rcases codes.mp shift with press | release
    · have bit := pressed (press.imp_right Or.inl)
      simp [press, bit]
    · have bit := released (release.imp_right Or.inl)
      have press : ¬ (b = 0x2a ∨ b = 0x36) := fun press => bit (pressed (press.imp_right Or.inl))
      simp [press, release, bit]
  · have neither : ¬ (b = 0x2a ∨ b = 0x36) ∧ ¬ (b = 0xaa ∨ b = 0xb6) :=
      not_or.mp fun code => shift (codes.mpr code)
    simp only [if_neg neither.1, neither.2, false_and, if_false]
    by_cases code : b &&& 0x7f = 0x1d
    · rw [parseChar_modifier k (Or.inr (Or.inr code)), apply_ite Kbd.kShift, parseKey_shift,
        if_neg shift, ite_self]
    · exact (parseChar_other k fun modifier => code ((or_assoc.mpr modifier).resolve_left shift)).1

theorem parseChar_ctrl : (parseChar k b).kbd.kCtrl =
    if b = 0x1d then 1 else if b = 0x9d ∧ k.kSpcl = 0 then 0 else k.kCtrl := by
  obtain ⟨codes, ctrl, pressed, released⟩ := code_bits b
  by_cases code : b &&& 0x7f = 0x1d
  · rw [parseChar_modifier k (Or.inr (Or.inr code)), apply_ite Kbd.kCtrl,
      parseKey_ctrl, if_pos code]
    rcases ctrl.mp code with press | release
    · have bit := pressed (Or.inr (Or.inr press))
      rw [if_pos press]
      simp [bit]
    · have bit := released (Or.inr (Or.inr release))
      have press : b ≠ 0x1d := fun press => bit (pressed (Or.inr (Or.inr press)))
      have pending : (b = 0x9d ∧ k.kSpcl = 0) ↔ k.kSpcl = 0 := and_iff_right release
      rw [if_neg press]
      simp [pending, bit]
  · have neither : ¬ b = 0x1d ∧ ¬ b = 0x9d := not_or.mp fun either => code (ctrl.mpr either)
    simp only [if_neg neither.1, neither.2, false_and, if_false]
    by_cases shift : b &&& 0x7f = 0x2a ∨ b &&& 0x7f = 0x36
    · rw [parseChar_modifier k (shift.imp_right Or.inl), apply_ite Kbd.kCtrl, parseKey_ctrl,
        if_neg code, ite_self]
    · exact (parseChar_other k fun modifier => code ((or_assoc.mpr modifier).resolve_left shift)).2

end Codes

section Steps
variable {k : Kbd} {a : Keys}

theorem ctrl_next (agree : k.kCtrl ≠ 0 ↔ a.ctrl = true) (b : UInt8) :
    ((parseChar k b).kbd.kCtrl ≠ 0 ↔ (a.next b).ctrl = true) ↔
    (b = 0x9d → k.kSpcl ≠ 0 → a.ctrl = false) := by
  rw [parseChar_ctrl]
  unfold Keys.next ctrlEvent
  by_cases press : b = 0x1d
  · simp [press]
  · by_cases release : b = 0x9d
    · by_cases pending : k.kSpcl = 0
      · simp [release, pending]
      · have clear : k.kCtrl = 0 ↔ a.ctrl = false := by simpa using not_congr agree
        simp [release, pending, clear]
    · simp [press, release, agree]

theorem shift_next (agree : k.kShift ≠ 0 ↔ a.shift = true) (b : UInt8) :
    ((parseChar k b).kbd.kShift ≠ 0 ↔ (a.next b).shift = true) ↔
      (a.last = some 0xe0 → (b = 0x2a ∨ b = 0x36) → a.shift = true) ∧
      ((b = 0xaa ∨ b = 0xb6) → (a.last = some 0xe0 ↔ k.kSpcl = 0) → a.shift = false) := by
  rw [parseChar_shift]
  unfold Keys.next shiftEvent
  by_cases press : b = 0x2a ∨ b = 0x36
  · have other : ¬ (b = 0xaa ∨ b = 0xb6) := by
      rcases press with rfl | rfl <;> decide
    by_cases behind : a.last = some 0xe0
    · simp [press, other, behind]
    · simp [press, other, behind]
  · by_cases release : b = 0xaa ∨ b = 0xb6
    · by_cases behind : a.last = some 0xe0
      · by_cases pending : k.kSpcl = 0
        · simp [press, release, behind, pending]
        · simp [press, release, behind, pending, agree]
      · by_cases pending : k.kSpcl = 0
        · simp [press, release, behind, pending]
        · simp only [if_neg press, release, true_and, if_neg pending, if_neg behind, if_true,
            Option.getD_some, agree]
          simp [behind, pending]
    · by_cases behind : a.last = some 0xe0
      · simp [press, release, behind, agree]
      · simp [press, release, behind, agree]

theorem agree_next (agree : Agree k a) (b : UInt8) :
    Agree (parseChar k b).kbd (a.next b) ↔ Regular k.kSpcl a b := by
  have ctrl := ctrl_next agree.ctrl b
  have shift := shift_next agree.shift b
  constructor
  · intro after
    exact ⟨ctrl.mp after.ctrl, (shift.mp after.shift).1, (shift.mp after.shift).2⟩
  · intro regular
    exact ⟨ctrl.mpr regular.ctrl, shift.mpr ⟨regular.press, regular.release⟩⟩

end Steps

theorem agree_start : Agree (parseAll []) (keysAfter []) :=
  ⟨by simp [parseAll, keysAfter], by simp [parseAll, keysAfter]⟩

theorem agree_snoc {bytes : List UInt8}
    (agree : Agree (parseAll bytes) (keysAfter bytes)) (b : UInt8) :
    Agree (parseAll (bytes ++ [b])) (keysAfter (bytes ++ [b])) ↔ Regular (parseAll bytes).kSpcl
    (keysAfter bytes) b := by
  have next := agree_next agree b
  rw [parseAll, keysAfter, List.foldl_append, List.foldl_append]
  exact next

/-- After every byte of a sequence the flags tell which modifiers are down, exactly if every
    byte of it is regular. -/
theorem modifiers_tracked_iff (bytes : List UInt8) :
    (∀ p, p <+: bytes → Agree (parseAll p) (keysAfter p)) ↔
      ∀ p b, p ++ [b] <+: bytes → Regular (parseAll p).kSpcl (keysAfter p) b := by
  constructor
  · intro tracked p b inside
    exact (agree_snoc (tracked p ((List.prefix_append p [b]).trans inside)) b).mp
      (tracked (p ++ [b]) inside)
  · intro regular p
    induction p using List.reverseRecOn with
    | nil => exact fun _ => agree_start
    | append_singleton p b before =>
      intro inside
      have agree := before ((List.prefix_append p [b]).trans inside)
      exact (agree_snoc agree b).mpr (regular p b inside)

/-- The right Ctrl pressed and released, and the codes some keyboards send around the
    navigation keys. -/
theorem modifiers_lost :
    ((parseAll [0xe0, 0x1d, 0xe0, 0x9d]).kCtrl, (keysAfter [0xe0, 0x1d, 0xe0, 0x9d]).ctrl) =
    (1, false) ∧
    ((parseAll [0xe0, 0x2a]).kShift, (keysAfter [0xe0, 0x2a]).shift) = (1, false) := by
  decide

/-! ## The maps -/

/-- Every lookup is inside its map, for each byte of a sequence in the state it comes to. -/
def LooksInside (bytes : List UInt8) : Prop :=
  ∀ p b, p ++ [b] <+: bytes → (parseChar (parseAll p) b).ch ≠ none

theorem parseKey_missed (k : Kbd) (press : Bool) (scan : UInt8) :
    (parseKey k press scan).ch = none ↔ press = true ∧ scancodeMap.length ≤ scan.toNat := by
  have same : scancodeMapShift.length = scancodeMap.length := rfl
  have inside : ∀ code : UInt8, code.toNat < scancodeMap.length → scan = code →
      ¬ (press = true ∧ scancodeMap.length ≤ scan.toNat) := by
    rintro code small rfl ⟨-, large⟩
    omega
  unfold parseKey
  by_cases shift : scan = 0x2a ∨ scan = 0x36
  · rw [if_pos shift]
    refine iff_of_false (by simp) ?_
    rcases shift with code | code
    · exact inside 0x2a (by decide) code
    · exact inside 0x36 (by decide) code
  rw [if_neg shift]
  by_cases ctrl : scan = 0x1d
  · rw [if_pos ctrl]
    exact iff_of_false (by simp) (inside 0x1d (by decide) ctrl)
  rw [if_neg ctrl]
  by_cases released : ¬ press
  · rw [if_pos released]
    exact iff_of_false (by simp) fun down => released down.1
  rw [if_neg released]
  by_cases enter : scan = 0x1c
  · rw [if_pos enter]
    exact iff_of_false (by simp) (inside 0x1c (by decide) enter)
  rw [if_neg enter]
  by_cases bksp : scan = 0x0e
  · rw [if_pos bksp]
    exact iff_of_false (by simp) (inside 0x0e (by decide) bksp)
  rw [if_neg bksp]
  by_cases tab : scan = 0x0f
  · rw [if_pos tab]
    exact iff_of_false (by simp) (inside 0x0f (by decide) tab)
  rw [if_neg tab]
  have down : press = true := not_not.mp released
  split_ifs
  · simp [down, same]
  · simp [down, same]
  · simp [down]

theorem code_admitted (b : UInt8) :
    b ≠ 0xe0 ∧ ¬ ((b &&& 0x7f).toNat > scancodeMap.length ∧ ¬ specialPress (b &&& 0x7f)) ∧
      (b &&& 0x80 == 0) = true ∧ scancodeMap.length ≤ (b &&& 0x7f).toNat ↔
    b = 0x3b ∨ b = 0x49 ∨ b = 0x51 := by
  revert b
  apply forall_byte
  decide +kernel

theorem parseChar_missed (k : Kbd) (b : UInt8) :
    (parseChar k b).ch = none ↔ b = 0x3b ∨ (b = 0x49 ∨ b = 0x51) ∧ k.kSpcl = 0 := by
  have admitted := code_admitted b
  unfold parseChar
  by_cases again : b = 0xe0
  · subst again
    simp
  rw [if_neg again]
  by_cases past : (b &&& 0x7f).toNat > scancodeMap.length ∧ ¬ specialPress (b &&& 0x7f)
  · simp only [if_pos past]
    refine iff_of_false (by simp) ?_
    rintro (code | ⟨code | code, -⟩)
    · exact (admitted.mpr (Or.inl code)).2.1 past
    · exact (admitted.mpr (Or.inr (Or.inl code))).2.1 past
    · exact (admitted.mpr (Or.inr (Or.inr code))).2.1 past
  have reached : (b &&& 0x80 == 0) = true ∧ scancodeMap.length ≤ (b &&& 0x7f).toNat ↔ b = 0x3b ∨
      b = 0x49 ∨ b = 0x51 :=
    ⟨fun lookup => admitted.mp ⟨again, past, lookup⟩, fun code => (admitted.mpr code).2.2⟩
  simp only [if_neg past]
  by_cases pending : k.kSpcl = 0
  · simp only [pending, ne_eq, not_true, if_false, parseKey_missed, and_true]
    exact reached
  · simp only [pending, ne_eq, not_false_iff, if_true, and_false, or_false]
    by_cases released : ¬ (b &&& 0x80 == 0) = true
    · rw [if_pos released]
      exact iff_of_false (by simp) fun code => released (reached.mpr (Or.inl code)).1
    rw [if_neg released]
    by_cases pageUp : b &&& 0x7f = 0x49
    · rw [if_pos pageUp]
      refine iff_of_false (by simp) ?_
      rintro rfl
      exact absurd pageUp (by decide)
    rw [if_neg pageUp]
    by_cases pageDown : b &&& 0x7f = 0x51
    · rw [if_pos pageDown]
      refine iff_of_false (by simp) ?_
      rintro rfl
      exact absurd pageDown (by decide)
    rw [if_neg pageDown, parseKey_missed, reached]
    constructor
    · rintro (code | code | code)
      · exact code
      · exact absurd (by rw [code]; decide) pageUp
      · exact absurd (by rw [code]; decide) pageDown
    · exact Or.inl

/-- All lookups are inside the maps exactly if F1 is never pressed and 9 and 3 of the keypad only
    behind a prefix, as the page keys. -/
theorem lookups_inside_iff (bytes : List UInt8) : LooksInside bytes ↔
    ∀ p b, p ++ [b] <+: bytes → b ≠ 0x3b ∧ (b = 0x49 ∨ b = 0x51 → (parseAll p).kSpcl ≠ 0) := by
  have one : ∀ p b, (parseChar (parseAll p) b).ch ≠ none ↔
      b ≠ 0x3b ∧ (b = 0x49 ∨ b = 0x51 → (parseAll p).kSpcl ≠ 0) := by
    intro p b
    rw [ne_eq, parseChar_missed, not_or, not_and]
  simp only [LooksInside, one]

/-- F1, and 9 of the keypad. -/
theorem lookups_outside : ¬ LooksInside [0x3b] ∧ ¬ LooksInside [0x49] := by
  constructor
  · intro inside
    exact inside [] 0x3b List.prefix_rfl (by decide)
  · intro inside
    exact inside [] 0x49 List.prefix_rfl (by decide)

end Keyboard
