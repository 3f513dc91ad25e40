import NoobOs.Driver.Console
import Mathlib.Data.List.TakeWhile

/-!
The escape sequences of `vt_process`: what it decodes from an encoded one, what reaches
`term_putc`, and which bytes keep the parameters inside their array and their type.
-/
namespace Console
open Terminal Strings

/-- Bytes one after the other, each with what the uninitialised colours are, and all calls. -/
def feed (v : Vt) : List (UInt8 × UInt8 × UInt8) → Option (Vt × List Call)
  | [] => some (v, [])
  | b :: bs => do
    let (v, calls) ← vtProcess v b.1 b.2
    let (v, rest) ← feed v bs
    return (v, calls ++ rest)

def decimalStr (n : Nat) : Str :=
  if n < 10 then [UInt8.ofNat (48 + n)] else decimalStr (n / 10) ++ [UInt8.ofNat (48 + n % 10)]

structure Csi where
  params : List Nat
  final : UInt8
  count : 1 ≤ params.length ∧ params.length ≤ maxParams
  small : ∀ p ∈ params, p < 2 ^ 31
  ends : isdigit final = false ∧ final ≠ 0x3b

def joined : List Nat → Str
  | [] => []
  | [p] => decimalStr p
  | p :: q :: ps => decimalStr p ++ 0x3b :: joined (q :: ps)

def Csi.bytes (k : Csi) : List UInt8 := 0x1b :: 0x5b :: (joined k.params ++ [k.final])

inductive Item where
  | text (c : UInt8) (plain : c ≠ 0x1b)
  | csi (k : Csi)

def Item.bytes : Item → List UInt8
  | .text c _ => [c]
  | .csi k => k.bytes

def Item.plain : Item → List UInt8
  | .text c _ => [c]
  | .csi _ => []

def given : Call → Option UInt8
  | .termPutc c => some c
  | _ => none

/-! ## Decimal numbers -/

theorem digit_byte : ∀ d < 10, isdigit (UInt8.ofNat (48 + d)) = true ∧
    (UInt8.ofNat (48 + d)).toNat - 48 = d := by
  decide

theorem decimalStr_spec (n : Nat) : (∀ c ∈ decimalStr n, isdigit c) ∧
    decimal (decimalStr n) = n := by
  induction n using Nat.strong_induction_on with
  | _ n ih =>
    rw [decimalStr]
    by_cases small : n < 10
    · obtain ⟨digit, value⟩ := digit_byte n small
      rw [if_pos small]
      constructor
      · intro c member
        rw [List.mem_singleton.mp member]
        exact digit
      · simpa [decimal] using value
    · obtain ⟨digits, value⟩ := ih (n / 10) (by omega)
      obtain ⟨digit, last⟩ := digit_byte (n % 10) (Nat.mod_lt n (by decide : 10 > 0))
      rw [if_neg small]
      constructor
      · intro c member
        rcases List.mem_append.mp member with before | here
        · exact digits c before
        · rw [List.mem_singleton.mp here]
          exact digit
      · rw [decimal_snoc, value, last]
        omega

/-! ## Decoding -/

section Feed
variable {v : Vt} {a b : List (UInt8 × UInt8 × UInt8)}

theorem feed_append (v : Vt) (a b : List (UInt8 × UInt8 × UInt8)) : feed v (a ++ b) =
    (feed v a).bind fun r => (feed r.1 b).map fun s => (s.1, r.2 ++ s.2) := by
  induction a generalizing v with
  | nil => simp [feed]
  | cons x a ih =>
    simp only [List.cons_append, feed, ih]
    cases vtProcess v x.1 x.2 with
    | none => rfl
    | some r =>
      simp only [Option.bind_eq_bind, Option.bind_some]
      cases feed r.1 a with
      | none => rfl
      | some s =>
        simp only [Option.bind_some, Option.pure_def]
        cases feed s.1 b with
        | none => rfl
        | some u => simp

theorem feed_digits (csi : v.s = .csiParam) (digits : ∀ b ∈ a, isdigit b.1) :
    feed v a = some ({ v with cur := atoiDigits (a.map Prod.fst) v.cur }, []) := by
  induction a generalizing v with
  | nil => rfl
  | cons x a ih =>
    have digit := digits x List.mem_cons_self
    have rest := ih (v := { v with cur := v.cur * 10 + (x.1 - 48).toUInt32 }) csi
      fun b member => digits b (List.mem_cons_of_mem _ member)
    simp only [feed, vtProcess, csi, if_pos digit, Option.bind_eq_bind, Option.bind_some,
      List.map_cons, atoiDigits]
    simp only [csi] at rest
    rw [rest]
    rfl

/-- The state `v₁` that a sequence is dispatched in: the terminal of `v`, and the
    parameters from `v.paramCount` on. -/
structure Parsed (v v₁ : Vt) (params : List Nat) : Prop where
  term : v₁.t = v.t
  count : v₁.paramCount = v.paramCount + params.length
  stored : ∀ i, ∀ inside : i < params.length, v₁.params (v.paramCount + i) = UInt32.ofNat params[i]
  kept : ∀ i < v.paramCount, v₁.params i = v.params i

/-- The state after `params[param_count++] = p`. -/
def store (v : Vt) (p : UInt32) : Vt :=
  { v with params := Function.update v.params v.paramCount p, paramCount := v.paramCount + 1 }

theorem vtParam_store (room : v.paramCount < maxParams) : vtParam v = some (store v v.cur) :=
  if_pos room

theorem Parsed.cons {v₁ : Vt} {p : Nat} {ps : List Nat} {cur : UInt32}
    (parsed : Parsed { store v (UInt32.ofNat p) with cur := cur } v₁ ps) :
    Parsed v v₁ (p :: ps) := by
  obtain ⟨term, count, stored, kept⟩ := parsed
  refine ⟨term, ?_, ?_, ?_⟩
  · simp only [count, store, List.length_cons]
    omega
  · intro i inside
    cases i with
    | zero =>
      rw [Nat.add_zero, kept v.paramCount (Nat.lt_succ_self _)]
      simp [store]
    | succ i =>
      rw [List.getElem_cons_succ, ← stored i (by simpa using inside)]
      congr 1
      simp only [store]
      omega
  · intro i before
    rw [kept i (Nat.lt_succ_of_lt before)]
    have other : i ≠ v.paramCount := by omega
    simp [store, other]

theorem feed_decimal (csi : v.s = .csiParam) (zero : v.cur = 0) {p : Nat}
    (spelled : a.map Prod.fst = decimalStr p) :
    feed v a = some ({ v with cur := UInt32.ofNat p }, []) := by
  obtain ⟨digits, value⟩ := decimalStr_spec p
  have each : ∀ b ∈ a, isdigit b.1 := by
    intro b member
    exact digits b.1 (spelled ▸ List.mem_map_of_mem member)
  rw [feed_digits csi each, spelled, zero]
  have number := atoiDigits_eq digits 0
  rw [← decimal, value] at number
  rw [← number]
  rfl

theorem feed_one (v : Vt) (b : UInt8 × UInt8 × UInt8) : feed v [b] = vtProcess v b.1 b.2 := by
  cases next : vtProcess v b.1 b.2 with
  | none => simp [feed, next]
  | some r => simp [feed, next]

theorem vtProcess_next (csi : v.s = .csiParam) (room : v.paramCount < maxParams)
    (junk : UInt8 × UInt8) :
    vtProcess v 0x3b junk = some ({ store v v.cur with cur := 0 }, []) := by
  simp [vtProcess, csi, vtParam_store room, show isdigit 0x3b = false by decide]

theorem vtProcess_final (csi : v.s = .csiParam) (room : v.paramCount < maxParams) {c : UInt8}
    (ends : isdigit c = false ∧ c ≠ 0x3b) (junk : UInt8 × UInt8) : vtProcess v c junk =
      some ({ (vtDispatch (store v v.cur) c junk).1 with s := .ground },
      (vtDispatch (store v v.cur) c junk).2) := by
  simp [vtProcess, csi, vtParam_store room, ends]

/-- The parameters and the final byte, from any state inside a sequence. The induction is
    on the parameters; each separator leaves `cur` at 0 for the next one. -/
theorem feed_params {p : Nat} {ps : List Nat} {c : UInt8} (csi : v.s = .csiParam) (zero : v.cur = 0)
    (room : v.paramCount + (p :: ps).length ≤ maxParams) (ends : isdigit c = false ∧ c ≠ 0x3b)
    (spelled : a.map Prod.fst = joined (p :: ps) ++ [c]) :
    ∃ v₁ junk, Parsed v v₁ (p :: ps) ∧
      feed v a = some ({ (vtDispatch v₁ c junk).1 with s := .ground },
      (vtDispatch v₁ c junk).2) := by
  induction ps generalizing v p a with
  | nil =>
    obtain ⟨digits, last, rfl, number, final⟩ := List.map_eq_append_iff.mp spelled
    obtain ⟨⟨c', junk⟩, rfl, rfl⟩ := List.map_eq_singleton_iff.mp final
    rw [joined] at number
    refine ⟨store { v with cur := UInt32.ofNat p } (UInt32.ofNat p), junk, ⟨rfl, rfl, ?_, ?_⟩, ?_⟩
    · intro i inside
      obtain rfl : i = 0 := by simpa using inside
      simp [store]
    · intro i before
      have other : i ≠ v.paramCount := by omega
      simp [store, other]
    · have step := vtProcess_final (v := { v with cur := UInt32.ofNat p }) csi room ends junk
      rw [feed_append, feed_decimal csi zero number, Option.bind_some, feed_one, step]
      rfl
  | cons q ps ih =>
    rw [joined, List.append_assoc, List.cons_append] at spelled
    obtain ⟨digits, rest, rfl, number, after⟩ := List.map_eq_append_iff.mp spelled
    obtain ⟨⟨s, junk⟩, rest', rfl, rfl, after'⟩ := List.map_eq_cons_iff.mp after
    have less : v.paramCount < maxParams := by
      simp only [List.length_cons] at room
      omega
    obtain ⟨v₁, junk', parsed, fed⟩ :=
      ih (v := { store v (UInt32.ofNat p) with cur := 0 }) (p := q) csi rfl
      (by simp only [store, List.length_cons] at room ⊢; omega) after'
    refine ⟨v₁, junk', parsed.cons, ?_⟩
    have step := vtProcess_next (v := { v with cur := UInt32.ofNat p }) csi less junk
    rw [feed_append, feed_decimal csi zero number, Option.bind_some]
    simp only [feed, step, Option.bind_eq_bind, Option.bind_some]
    have same : ({ store { v with cur := UInt32.ofNat p } (UInt32.ofNat p) with cur := 0 } : Vt) =
      { store v (UInt32.ofNat p) with cur := 0 } := rfl
    simp only [same, fed, Option.bind_some, Option.pure_def, Option.map_some, List.nil_append]

theorem feed_csi (ground : v.s = .ground) (k : Csi) (spelled : a.map Prod.fst = k.bytes) :
    ∃ v₁ junk, Parsed { v with paramCount := 0 } v₁ k.params ∧
      feed v a = some ({ (vtDispatch v₁ k.final junk).1 with s := .ground },
          (vtDispatch v₁ k.final junk).2) := by
  obtain ⟨params, final, count, small, ends⟩ := k
  obtain ⟨⟨e, junk₁⟩, rest, rfl, rfl, more⟩ := List.map_eq_cons_iff.mp spelled
  obtain ⟨⟨f, junk₂⟩, body, rfl, rfl, inner⟩ := List.map_eq_cons_iff.mp more
  cases params with
  | nil => simp at count
  | cons p ps =>
    obtain ⟨v₁, junk, parsed, fed⟩ :=
      feed_params (v := { v with s := .csiParam, paramCount := 0, cur := 0 })
      rfl rfl (by simpa using count.2) ends inner
    refine ⟨v₁, junk, ⟨parsed.term, parsed.count, parsed.stored, parsed.kept⟩, ?_⟩
    simp only [feed, vtProcess, ground, if_true, Option.bind_eq_bind, Option.bind_some, fed,
      Option.pure_def,
      List.nil_append]

end Feed

theorem vtDispatch_params (v : Vt) (c : UInt8) (junk : UInt8 × UInt8) :
    (Terminal.vtDispatch v c junk).params = v.params ∧ (Terminal.vtDispatch v c junk).paramCount =
    v.paramCount := by
  unfold Terminal.vtDispatch
  split
  · unfold vtSetattr
    split
    · exact ⟨rfl, rfl⟩
    · exact ⟨rfl, rfl⟩
  · split
    · unfold Terminal.vtScroll
      split
      · exact ⟨rfl, rfl⟩
      · split <;> exact ⟨rfl, rfl⟩
    · split <;> exact ⟨rfl, rfl⟩

theorem Guarded.given_none {dheight : Int} {calls : List Call} (guarded : Guarded dheight calls) :
    calls.filterMap given = [] := by
  rw [List.filterMap_eq_nil_iff]
  intro call member
  obtain ⟨x, y, rfl, -⟩ := guarded call member
  rfl

section Given
variable (t : Term)

theorem termScrollUp_given : (termScrollUp t).2.filterMap given = [] :=
  (termScrollUp_guarded t).given_none

theorem termNewline_given : (termNewline t).2.filterMap given = [] := by
  unfold termNewline
  by_cases below : t.cursorY - t.scrollTop ≥ t.dheight
  · simp only [if_pos below, termScrollUp_given]
  · simp only [if_neg below, List.filterMap_nil]

theorem termWrap_given : (termWrap t).2.filterMap given = [] := by
  unfold termWrap
  split
  · dsimp only
    generalize (if t.cursorY ≥ t.height then { t with cursorY := t.cursorY - 1 } else t) = u
    split
    · exact termScrollUp_given u
    · rfl
  · rfl

theorem termBkspace_given : (termBkspace t).2.filterMap given = [] := by
  unfold termBkspace
  split <;> rfl

theorem termPutc_given (c : UInt8) : (termPutc t c).2.filterMap given = [c] := by
  unfold termPutc
  by_cases newline : c = 0x0a
  · simp [if_pos newline, given, termNewline_given]
  · by_cases return' : c = 0x0d
    · simp [if_neg newline, if_pos return', given]
    · by_cases back : c = 0x08
      · simp [if_neg newline, if_neg return', if_pos back, given, termBkspace_given]
      · simp [if_neg newline, if_neg return', if_neg back, given, termPutcRaw, termWrap_given]

end Given

/-- Text and sequences: the text alone is passed on. -/
theorem feed_items {v : Vt} (ground : v.s = .ground) (items : List Item)
    {a : List (UInt8 × UInt8 × UInt8)}
    (spelled : a.map Prod.fst = items.flatMap Item.bytes) :
    ∃ v' calls, feed v a = some (v', calls) ∧ v'.s = .ground ∧
      calls.filterMap given = items.flatMap Item.plain := by
  induction items generalizing v a with
  | nil =>
    obtain rfl : a = [] := by simpa using spelled
    exact ⟨v, [], rfl, ground, rfl⟩
  | cons item items ih =>
    rw [List.flatMap_cons] at spelled
    obtain ⟨here, rest, rfl, bytes, others⟩ := List.map_eq_append_iff.mp spelled
    have first : ∃ v₁ calls₁, feed v here = some (v₁, calls₁) ∧ v₁.s = .ground ∧
        calls₁.filterMap given = item.plain := by
      cases item with
      | text c plain =>
        obtain ⟨⟨c', junk⟩, rfl, rfl⟩ := List.map_eq_singleton_iff.mp bytes
        refine ⟨{ v with t := (termPutc v.t c').1 }, _, ?_, ground, termPutc_given v.t c'⟩
        rw [feed_one]
        simp only [vtProcess, ground, if_neg plain]
      | csi k =>
        obtain ⟨v₁, junk, -, fed⟩ := feed_csi ground k bytes
        exact ⟨_, _, fed, rfl, (vtDispatch_guarded v₁ k.final junk).given_none⟩
    obtain ⟨v₁, calls₁, fed, ground₁, text⟩ := first
    obtain ⟨v', calls', fed', ground', text'⟩ := ih ground₁ others
    refine ⟨v', calls₁ ++ calls', ?_, ground', ?_⟩
    · rw [feed_append, fed, Option.bind_some, fed', Option.map_some]
    · rw [List.filterMap_append, text, text', List.flatMap_cons]

/-- An encoded sequence is decoded to its parameters and one dispatch, without a glyph; of
    text between sequences every byte, and nothing else, is passed to `term_putc`. -/
theorem csi_decoded {v : Vt} (ground : v.s = .ground) :
    (∀ (k : Csi) (input : List (UInt8 × UInt8 × UInt8)), input.map Prod.fst = k.bytes →
      ∃ v₁ v' junk calls, feed v input = some (v', calls) ∧ v'.s = .ground ∧
      v'.paramCount = k.params.length ∧
        (∀ i, ∀ inside : i < k.params.length, (v'.params i).toNat = k.params[i]) ∧
        v₁.t = v.t ∧ v₁.params = v'.params ∧ v₁.paramCount = v'.paramCount ∧
        v'.t = (Terminal.vtDispatch v₁ k.final junk).t ∧ calls = (vtDispatch v₁ k.final junk).2 ∧
        ∀ call ∈ calls, ∃ x y, call = .setCursor x y) ∧
    ∀ (items : List Item) (input : List (UInt8 × UInt8 × UInt8)), input.map Prod.fst =
    items.flatMap Item.bytes →
      ∃ v' calls, feed v input = some (v', calls) ∧ v'.s = .ground ∧
        calls.filterMap given = items.flatMap Item.plain := by
  constructor
  · intro k input spelled
    obtain ⟨v₁, junk, parsed, fed⟩ := feed_csi ground k spelled
    obtain ⟨params, count⟩ := vtDispatch_params v₁ k.final junk
    refine ⟨v₁, _, junk, _, fed, rfl, ?_, ?_, parsed.term, ?_, ?_, ?_, rfl, ?_⟩
    · simp only [vtDispatch_vt, count, parsed.count]
      omega
    · intro i inside
      have stored := parsed.stored i inside
      have small := k.small k.params[i] (List.getElem_mem inside)
      simp only [Nat.zero_add] at stored
      simp only [vtDispatch_vt, params, stored, UInt32.toNat_ofNat']
      omega
    · simp only [vtDispatch_vt, params]
    · simp only [vtDispatch_vt, count]
    · simp only [vtDispatch_vt]
    · intro call member
      obtain ⟨x, y, same, -⟩ := vtDispatch_guarded v₁ k.final junk call member
      exact ⟨x, y, same⟩
  · intro items input spelled
    exact feed_items ground items spelled

def redText : Csi := ⟨[1, 31], 0x6d, by decide, by decide, by decide⟩

theorem csi_decoded_red :
    ∃ v' calls, feed blankVt ([0x1b, 0x5b, 0x31, 0x3b, 0x33, 0x31, 0x6d].map fun c => (c, 0, 0)) =
    some (v', calls) ∧
      v'.s = .ground ∧ v'.paramCount = 2 ∧ (v'.params 1).toNat = 31 := by
  have spelled : ([0x1b, 0x5b, 0x31, 0x3b, 0x33, 0x31, 0x6d].map fun c =>
    ((c, 0, 0) : UInt8 × UInt8 × UInt8)).map
      Prod.fst = redText.bytes := by
    simp [Csi.bytes, redText, joined, decimalStr]
  obtain ⟨-, v', -, calls, fed, ground, count, params, -⟩ :=
    (csi_decoded (v := blankVt) rfl).1 redText _ spelled
  exact ⟨v', calls, fed, ground, count, params 1 (by decide)⟩

/-! ## Bytes that keep the parameters in place -/

/-- A separator or a final byte stores inside `params`, and a digit does not take `cur`
    past a signed 32-bit integer. -/
def InRange (v : Vt) (c : UInt8) : Prop :=
  v.s = .csiParam → if isdigit c then v.cur.toNat * 10 + (c.toNat - 48) < 2 ^ 31
    else v.paramCount < maxParams

def ParserSafe : Vt → List UInt8 → Prop
  | _, [] => True
  | v, c :: cs => InRange v c ∧ ∀ junk v', Terminal.vtProcess v c junk = some v' → ParserSafe v' cs

def isParam (c : UInt8) : Bool := isdigit c || c = 0x3b

/-- What stands between `ESC [` and the byte that ends it, if one does. -/
structure Control where
  body : List UInt8
  ended : Bool

/-- The control sequences of a stream of bytes. -/
def controls : List UInt8 → List Control
  | [] => []
  | [_] => []
  | c :: d :: ds =>
    if c = 0x1b then
      if d = 0x5b then
        if ds.dropWhile isParam = [] then [⟨ds, false⟩]
        else ⟨ds.takeWhile isParam, true⟩ :: controls (ds.dropWhile isParam).tail
      else controls ds
    else controls (d :: ds)
termination_by bytes => bytes.length
decreasing_by
  · have shorter := (List.dropWhile_sublist isParam (l := ds)).length_le
    simp only [List.length_cons, List.length_tail]
    omega
  · simp only [List.length_cons]
    omega
  · simp

/-- Every separator and the end make a parameter: at most eight of them, none past a signed
    32-bit integer. -/
def Control.Tame (k : Control) : Prop :=
  k.body.count 0x3b + k.ended.toNat ≤ maxParams ∧
    ∀ p ∈ k.body.splitOnP (· = 0x3b), decimal p < 2 ^ 31

def valueFrom (n : Nat) (s : Str) : Nat := s.foldl (fun n c => n * 10 + (c.toNat - 48)) n

def PiecesFit (n : Nat) : List Str → Prop
  | [] => True
  | g :: gs => valueFrom n g < 2 ^ 31 ∧ ∀ p ∈ gs, decimal p < 2 ^ 31

theorem valueFrom_ge (n : Nat) (s : Str) : n ≤ valueFrom n s := by
  induction s generalizing n with
  | nil => exact Nat.le_refl n
  | cons c s ih =>
    have more := ih (n * 10 + (c.toNat - 48))
    simp only [valueFrom, List.foldl_cons] at more ⊢
    omega

theorem piecesFit_zero (gs : List Str) : PiecesFit 0 gs ↔ ∀ p ∈ gs, decimal p < 2 ^ 31 := by
  cases gs with
  | nil => simp [PiecesFit]
  | cons g gs => simp [PiecesFit, decimal, valueFrom]

theorem piecesFit_digit {c : UInt8} (digit : isdigit c) (n : Nat) (s : Str) :
    PiecesFit n ((c :: s).splitOnP (· = 0x3b)) ↔
      n * 10 + (c.toNat - 48) < 2 ^ 31 ∧ PiecesFit (n * 10 + (c.toNat - 48))
      (s.splitOnP (· = 0x3b)) := by
  obtain ⟨g, gs, shape⟩ :=
    List.exists_cons_of_ne_nil (List.splitOnP_ne_nil (fun c : UInt8 => decide (c = 0x3b)) s)
  have other : c ≠ 0x3b := by
    rintro rfl
    exact absurd digit (by decide)
  have grows := valueFrom_ge (n * 10 + (c.toNat - 48)) g
  rw [List.splitOnP_cons_eq_if_modifyHead, shape]
  simp only [other, decide_false, Bool.false_eq_true, if_false, List.modifyHead_cons, PiecesFit]
  have value : valueFrom n (c :: g) = valueFrom (n * 10 + (c.toNat - 48)) g := rfl
  rw [value, ← and_assoc]
  apply and_congr_left
  intro _
  omega

theorem piecesFit_next (n : Nat) (s : Str) :
    PiecesFit n ((0x3b :: s).splitOnP (· = 0x3b)) ↔ n < 2 ^ 31 ∧
    PiecesFit 0 (s.splitOnP (· = 0x3b)) := by
  rw [List.splitOnP_cons_eq_if_modifyHead, piecesFit_zero]
  simp [PiecesFit, valueFrom]

section Safe
variable {v : Vt} {c : UInt8}

theorem inRange_digit (csi : v.s = .csiParam) (digit : isdigit c) :
    InRange v c ↔ v.cur.toNat * 10 + (c.toNat - 48) < 2 ^ 31 := by
  simp only [InRange, csi, forall_const, if_pos digit]

theorem inRange_store (csi : v.s = .csiParam) (other : ¬ isdigit c) :
    InRange v c ↔ v.paramCount < maxParams := by
  simp only [InRange, csi, forall_const, if_neg other]

theorem parserSafe_step {v' : Vt} (step : ∀ junk, Terminal.vtProcess v c junk = some v')
    (cs : List UInt8) :
    ParserSafe v (c :: cs) ↔ InRange v c ∧ ParserSafe v' cs := by
  rw [ParserSafe]
  apply and_congr_right
  intro _
  constructor
  · intro safe
    exact safe (0, 0) v' (step (0, 0))
  · intro safe junk next stepped
    rw [step junk, Option.some.injEq] at stepped
    exact stepped ▸ safe

/-- The parameter bytes, by induction on them: safe exactly if they store at most eight
    parameters and each fits; then what follows decides. -/
theorem parserSafe_body (body rest : List UInt8) (following : Prop) {total : Nat}
    (csi : v.s = .csiParam)
    (low : v.cur.toNat < 2 ^ 31) (few : v.paramCount ≤ maxParams) (inner : ∀ c ∈ body, isParam c)
    (sum : v.paramCount + body.count 0x3b = total)
    (onward : ∀ v' : Vt, v'.s = .csiParam → v'.paramCount = total →
    (ParserSafe v' rest ↔ following)) :
    ParserSafe v (body ++ rest) ↔
      total ≤ maxParams ∧ PiecesFit v.cur.toNat (body.splitOnP (· = 0x3b)) ∧ following := by
  induction body generalizing v with
  | nil =>
    rw [List.count_nil, Nat.add_zero] at sum
    have fits : PiecesFit v.cur.toNat [[]] := ⟨low, fun p member => absurd member List.not_mem_nil⟩
    rw [List.nil_append, onward v csi sum]
    exact ⟨fun later => ⟨sum ▸ few, fits, later⟩, fun all => all.2.2⟩
  | cons c body ih =>
    have inner' : ∀ c ∈ body, isParam c := fun d member => inner d (List.mem_cons_of_mem _ member)
    by_cases digit : isdigit c = true
    · have other : c ≠ 0x3b := by
        rintro rfl
        exact absurd digit (by decide)
      have step : ∀ junk, Terminal.vtProcess v c junk =
          some { v with cur := v.cur * 10 + (c - 48).toUInt32 } := by
        intro junk
        simp only [Terminal.vtProcess, csi, if_pos digit]
      rw [List.cons_append, parserSafe_step step, inRange_digit csi digit, piecesFit_digit digit]
      by_cases fits : v.cur.toNat * 10 + (c.toNat - 48) < 2 ^ 31
      · have number : (v.cur * 10 + (c - 48).toUInt32).toNat =
            v.cur.toNat * 10 + (c.toNat - 48) := by
          have next := append_digit digit v.cur.toNat
          rw [UInt32.ofNat_toNat] at next
          rw [next, UInt32.toNat_ofNat']
          omega
        have rest := ih (v := { v with cur := v.cur * 10 + (c - 48).toUInt32 }) csi
          (number ▸ fits) few inner'
          (by rw [List.count_cons_of_ne other] at sum; exact sum)
        simp only [number] at rest
        rw [rest]
        simp only [fits, true_and]
      · simp only [fits, false_and, and_false]
    · obtain rfl : c = 0x3b := by
        have either := inner c List.mem_cons_self
        simpa [isParam, digit] using either
      rw [List.count_cons_self] at sum
      by_cases room : v.paramCount < maxParams
      · have step : ∀ junk, Terminal.vtProcess v 0x3b junk = some { store v v.cur with
            cur := 0 } := by
          intro junk
          rw [← vtProcess_vt, vtProcess_next csi room junk]
          rfl
        have rest :=
          ih (v := { store v v.cur with cur := 0 }) csi
            (show (0 : UInt32).toNat < 2 ^ 31 by decide) room inner'
          (by simp only [store]; omega)
        rw [List.cons_append, parserSafe_step step, inRange_store csi digit, piecesFit_next, rest]
        simp only [room, low, true_and]
        rfl
      · have full : ¬ total ≤ maxParams := by omega
        rw [List.cons_append, ParserSafe, inRange_store csi digit]
        simp only [room, full, false_and]

theorem parserSafe_escape (ground : v.s = .ground) (cs : List UInt8) :
    ParserSafe v (0x1b :: cs) ↔ ParserSafe { v with s := .escape } cs := by
  have step : ∀ junk, Terminal.vtProcess v 0x1b junk = some { v with s := .escape } := by
    intro junk
    simp only [Terminal.vtProcess, ground, if_true]
  rw [parserSafe_step step]
  simp [InRange, ground]

theorem parserSafe_final (csi : v.s = .csiParam) (ends : ¬ isParam c) {cs : List UInt8}
    {following : Prop}
    (onward : ∀ v' : Vt, v'.s = .ground → (ParserSafe v' cs ↔ following)) :
    ParserSafe v (c :: cs) ↔ v.paramCount < maxParams ∧ following := by
  simp only [isParam, Bool.or_eq_true, decide_eq_true_eq, not_or, Bool.not_eq_true] at ends
  rw [ParserSafe, inRange_store csi (by simp [ends.1])]
  apply and_congr_right
  intro room
  have step : ∀ junk, ∃ v', Terminal.vtProcess v c junk = some v' ∧ v'.s = .ground := by
    intro junk
    rw [← vtProcess_vt, vtProcess_final csi room ends]
    exact ⟨_, rfl, rfl⟩
  constructor
  · intro safe
    obtain ⟨v', stepped, ground⟩ := step (0, 0)
    exact (onward v' ground).mp (safe (0, 0) v' stepped)
  · intro later junk v' stepped
    obtain ⟨next, stepped', ground⟩ := step junk
    rw [stepped', Option.some.injEq] at stepped
    exact (onward v' (stepped ▸ ground)).mpr later

theorem parserSafe_other (mode : v.s = .escape) (other : c ≠ 0x5b) (cs : List UInt8) :
    ParserSafe v (c :: cs) ↔ ParserSafe { v with s := .ground } cs := by
  have step : ∀ junk, Terminal.vtProcess v c junk = some { v with s := .ground } := by
    intro junk
    simp only [Terminal.vtProcess, mode, if_neg other]
  rw [parserSafe_step step]
  simp [InRange, mode]

theorem parserSafe_open (ground : v.s = .ground) (cs : List UInt8) :
    ParserSafe v (0x1b :: 0x5b :: cs) ↔
    ParserSafe { v with s := .csiParam, paramCount := 0, cur := 0 } cs := by
  have step : ∀ junk, Terminal.vtProcess { v with s := .escape } 0x5b junk =
      some { v with s := .csiParam, paramCount := 0, cur := 0 } := by
    intro junk
    simp only [Terminal.vtProcess, if_true]
  rw [parserSafe_escape ground, parserSafe_step step]
  simp [InRange]

theorem parserSafe_text (ground : v.s = .ground) (plain : c ≠ 0x1b) (cs : List UInt8) :
    ParserSafe v (c :: cs) ↔ ParserSafe { v with t := Terminal.termPutc v.t c } cs := by
  have step : ∀ junk, Terminal.vtProcess v c junk =
      some { v with t := Terminal.termPutc v.t c } := by
    intro junk
    simp only [Terminal.vtProcess, ground, if_neg plain]
  rw [parserSafe_step step]
  simp [InRange, ground]

/-- From the ground state the bytes are safe exactly if each of their sequences is tame. The
    induction follows how `controls` cuts the stream. -/
theorem parserSafe_iff (ground : v.s = .ground) (bytes : List UInt8) :
    ParserSafe v bytes ↔ ∀ k ∈ controls bytes, k.Tame := by
  induction bytes using controls.induct generalizing v with
  | case1 => simp [ParserSafe, controls]
  | case2 c => simp [ParserSafe, controls, InRange, ground]
  | case3 ds all =>
    have inner : ∀ c ∈ ds, isParam c := List.dropWhile_eq_nil_iff.mp all
    have body :=
      parserSafe_body (v := { v with s := .csiParam, paramCount := 0, cur := 0 }) ds [] True rfl
      (show (0 : UInt32).toNat < 2 ^ 31 by decide) (Nat.zero_le _) inner
        (Nat.zero_add _) fun _ _ _ => Iff.rfl
    rw [List.append_nil] at body
    rw [parserSafe_open ground, body]
    simp [controls, all, Control.Tame, piecesFit_zero]
  | case4 ds more ih =>
    obtain ⟨c, rest, shape⟩ := List.exists_cons_of_ne_nil more
    have ends : ¬ isParam c := by
      have stop := List.head?_dropWhile_not isParam ds
      simpa [shape] using stop
    have inner : ∀ c ∈ ds.takeWhile isParam, isParam c :=
      fun c member => List.mem_takeWhile_imp member
    have body := parserSafe_body (v := { v with s := .csiParam, paramCount := 0, cur := 0 })
      (ds.takeWhile isParam) (c :: rest)
      ((ds.takeWhile isParam).count 0x3b < maxParams ∧ ∀ k ∈ controls rest, k.Tame)
      rfl (show (0 : UInt32).toNat < 2 ^ 31 by decide) (Nat.zero_le _) inner (Nat.zero_add _) (by
        intro v' csi count
        rw [← count]
        exact parserSafe_final csi ends fun v₂ ground₂ => by simpa [shape] using ih ground₂)
    rw [← shape, List.takeWhile_append_dropWhile] at body
    rw [parserSafe_open ground, body, controls, if_pos rfl, if_pos rfl, if_neg more, shape,
      List.tail_cons,
      List.forall_mem_cons, Control.Tame]
    simp only [Bool.toNat_true, show (0 : UInt32).toNat = 0 from rfl, piecesFit_zero]
    constructor
    · rintro ⟨-, pieces, count, others⟩
      exact ⟨⟨count, pieces⟩, others⟩
    · rintro ⟨⟨count, pieces⟩, others⟩
      exact ⟨Nat.le_of_lt count, pieces, count, others⟩
  | case5 d ds other ih =>
    rw [parserSafe_escape ground, parserSafe_other rfl other, ih rfl, controls,
      if_pos rfl, if_neg other]
  | case6 c d ds plain ih =>
    rw [parserSafe_text ground plain, ih (v := { v with t := Terminal.termPutc v.t c }) ground,
      controls, if_neg plain]

end Safe

/-- From `vgatext_init` on the parser is safe on exactly the bytes whose control sequences
    have at most eight parameters, each below 2^31. -/
theorem escape_parser_safe_iff (x y : Int) (screen : Int → Cell) (bytes : List UInt8) :
    ParserSafe (vgatextInit x y screen) bytes ↔ ∀ k ∈ controls bytes, k.Tame :=
  parserSafe_iff rfl bytes

/-- Nine parameters, and a parameter of 2^31. -/
theorem parser_leaves_params :
    ¬ ParserSafe blankVt (0x1b :: 0x5b :: List.replicate 9 0x3b) ∧
    ¬ ParserSafe blankVt [0x1b, 0x5b, 0x32, 0x31, 0x34, 0x37, 0x34, 0x38, 0x33, 0x36,
    0x34, 0x38] := by
  constructor
  · rw [parserSafe_iff rfl]
    intro tame
    have first := tame ⟨List.replicate 9 0x3b, false⟩ (by simp [controls, isParam, List.replicate])
    exact absurd first.1 (by decide)
  · rw [parserSafe_iff rfl]
    intro tame
    have first := tame ⟨[0x32, 0x31, 0x34, 0x37, 0x34, 0x38, 0x33, 0x36, 0x34, 0x38], false⟩
      (by simp [controls, isParam, isdigit])
    exact absurd (first.2 [0x32, 0x31, 0x34, 0x37, 0x34, 0x38, 0x33, 0x36, 0x34, 0x38] (by decide))
      (by decide)

end Console
