import NoobOs.Proc.Brainfuck

/-!
The loop of `bf` against the language. Going back to a `[` is right. Going forward the scan
ends behind the `]` it looked for and the `for` then steps over the byte that stands there,
so the runs agree as long as that byte would have done nothing.
-/
namespace Brainfuck
open LineInput Brackets ByteMemory

/-! ## The scans -/

theorem kindOf_opening {c : UInt8} : kindOf c = .opening ↔ c = 0x5b := by
  unfold kindOf opOf
  split_ifs <;> simp_all

theorem kindOf_closing {c : UInt8} : kindOf c = .closing ↔ c = 0x5d := by
  unfold kindOf opOf
  split_ifs <;> simp_all

theorem scanForward_ends (cbuf : Nat → UInt8) (v : List UInt8) (d i fuel : Nat)
    (inner : levels kindOf d v = some 0) (here : BytesAt cbuf (i + 1) (v ++ [0x5d]))
    (inside : i + 1 + v.length < bfBufsiz) (enough : v.length + 2 ≤ fuel) :
    scanForward cbuf fuel i (d + 1) = i + v.length + 2 := by
  induction v generalizing d i fuel with
  | nil =>
    obtain rfl : d = 0 := by simpa [levels] using inner
    obtain ⟨fuel, rfl⟩ : ∃ f, fuel = f + 2 := ⟨fuel - 2, by simp at enough; omega⟩
    have bracket : cbuf (i + 1) = 0x5d := here.1
    rw [scanForward, if_pos ⟨inside, by omega⟩, bracket, if_neg (by decide),
      if_pos rfl, scanForward,
      if_neg (by omega)]
    simp
  | cons c v ih =>
    obtain ⟨fuel, rfl⟩ : ∃ f, fuel = f + 1 := ⟨fuel - 1, by simp at enough; omega⟩
    rw [List.cons_append] at here
    obtain ⟨first, later⟩ := here
    rw [List.length_cons] at inside enough ⊢
    have further : ∀ d', levels kindOf d' v = some 0 →
        scanForward cbuf fuel (i + 1) (d' + 1) = i + (v.length + 1) + 2 := by
      intro d' level
      rw [ih d' (i + 1) fuel level later (by omega) (by omega)]
      omega
    rw [scanForward, if_pos ⟨by omega, by omega⟩, first]
    cases kind : kindOf c with
    | opening =>
      rw [levels_opening kind] at inner
      rw [if_pos (kindOf_opening.mp kind)]
      exact further (d + 1) inner
    | closing =>
      have bracket := kindOf_closing.mp kind
      rw [if_neg (by rw [bracket]; decide), if_pos bracket]
      cases d with
      | zero =>
        rw [levels_unclosed kind] at inner
        cases inner
      | succ d =>
        rw [levels_closing kind] at inner
        exact further d inner
    | plain =>
      rw [levels_plain kind] at inner
      rw [if_neg fun bracket => by simp [kindOf_opening.mpr bracket] at kind,
        if_neg fun bracket => by simp [kindOf_closing.mpr bracket] at kind]
      exact further d inner

theorem scanBack_ends (cbuf : Nat → UInt8) (v : List UInt8) (e k : Nat)
    (inner : levels kindOf 0 v = some e) (here : BytesAt cbuf k (0x5b :: v)) :
    scanBack cbuf (k + 1 + v.length) (e + 1) = k := by
  induction v using List.reverseRecOn generalizing e with
  | nil =>
    obtain rfl : e = 0 := by simpa [levels] using inner.symm
    have bracket : cbuf k = 0x5b := here.1
    rw [List.length_nil, Nat.add_zero, scanBack, if_pos (by omega), bracket,
      if_neg (by decide), if_pos rfl]
    cases k with
    | zero => rfl
    | succ k => rw [scanBack, if_neg (by omega)]
  | append_singleton v c ih =>
    rw [← List.cons_append, bytesAt_append] at here
    obtain ⟨front, last, -⟩ := here
    rw [List.length_cons, show k + (v.length + 1) = k + 1 + v.length by omega] at last
    rw [levels_snoc, Option.bind_eq_some_iff] at inner
    obtain ⟨f, reached, step⟩ := inner
    rw [List.length_append, List.length_singleton, show k + 1 + (v.length + 1) =
      k + 1 + v.length + 1 by omega,
      scanBack, if_pos (by omega), last]
    have back := ih f reached front
    cases kind : kindOf c with
    | opening =>
      have bracket := kindOf_opening.mp kind
      rw [levels_opening kind] at step
      obtain rfl : f + 1 = e := by simpa [levels] using step
      rw [if_neg (by rw [bracket]; decide), if_pos bracket]
      exact back
    | closing =>
      rw [if_pos (kindOf_closing.mp kind)]
      cases f with
      | zero =>
        rw [levels_unclosed kind] at step
        cases step
      | succ f =>
        rw [levels_closing kind] at step
        obtain rfl : f = e := by simpa [levels] using step
        exact back
    | plain =>
      rw [levels_plain kind] at step
      obtain rfl : f = e := by simpa [levels] using step
      rw [if_neg fun bracket => by simp [kindOf_closing.mpr bracket] at kind,
        if_neg fun bracket => by simp [kindOf_opening.mpr bracket] at kind]
      exact back

theorem bytesAt_cbufOf (before middle rest : List UInt8) :
    BytesAt (cbufOf (before ++ (middle ++ rest))) before.length middle := by
  rw [bytesAt_iff]
  intro i inside
  rw [cbufOf, List.getD_eq_getElem?_getD, List.getElem?_append_right (by omega),
    Nat.add_sub_cancel_left,
    List.getElem?_append_left inside, List.getElem?_eq_getElem inside, Option.getD_some]

theorem forward_lands {prog : List UInt8} (short : prog.length ≤ 127) {i j : Nat}
    (found : closingOf kindOf prog i = some j) :
    scanForward (cbufOf prog) bfBufsiz i 1 = j + 1 := by
  have pair := closingOf_spec found
  have inside := pair.inside
  obtain ⟨before, x, v, y, rest, whole, place, far, opens, closes, inner⟩ := split_of_matches pair
  obtain rfl := kindOf_closing.mp closes
  have bytes := bytesAt_cbufOf (before ++ [x]) (v ++ [0x5d]) rest
  have text : before ++ [x] ++ (v ++ [0x5d] ++ rest) = prog := by simp [whole]
  rw [text, List.length_append, List.length_singleton, place] at bytes
  rw [scanForward_ends _ v 0 i bfBufsiz inner bytes (by simp only [bfBufsiz]; omega)
    (by simp only [bfBufsiz]; omega)]
  omega

theorem back_lands {prog : List UInt8} {i j : Nat} (found : openingOf kindOf prog j = some i) :
    scanBack (cbufOf prog) j 1 = i := by
  obtain ⟨before, x, v, y, rest, whole, place, far, opens, closes, inner⟩ :=
    split_of_matches (openingOf_spec found)
  obtain rfl := kindOf_opening.mp opens
  have bytes := bytesAt_cbufOf before (0x5b :: v) (y :: rest)
  rw [List.cons_append, ← whole, place] at bytes
  rw [← far]
  exact scanBack_ends _ v 0 i inner bytes

/-! ## One round -/

/-- The byte at `k` would do nothing where the cell is zero. -/
def Idle (prog : List UInt8) (k : Nat) : Prop :=
  ∀ c, prog[k]? = some c → opOf c = .pool ∨ opOf c = .other

/-- A `[` that is taken on a zero cell has such a byte behind its `]`. -/
def Harmless (prog : List UInt8) (s : Exec) : Prop :=
  opOf (cbufOf prog s.i) = .loop → s.dbuf s.dp.toNat = 0 →
    ∀ j, closingOf kindOf prog s.i = some j → Idle prog (j + 1)

/-- The loop and the standard machine are at the same point, or both behind the program. -/
structure Agrees (prog : List UInt8) (s : Exec) (t : Std) : Prop where
  place : s.i = t.pos ∨ (prog.length ≤ s.i ∧ prog.length ≤ t.pos)
  pointer : (s.dp.toNat : Int) = t.ptr % 256 ∧ -1 ≤ t.ptr ∧ t.ptr ≤ 128
  cells : s.dbuf = t.tape
  reads : s.reads = t.reads
  trace : s.trace = t.trace

section Step
variable {prog : List UInt8} {input : Stream} {s s' : Exec} {t t' : Std}

theorem Agrees.on_tape (agrees : Agrees prog s t) (below : s.dp.toNat < 128) :
    0 ≤ t.ptr ∧ t.ptr < 128 ∧ t.ptr.toNat = s.dp.toNat := by
  have pointer := agrees.pointer
  omega

theorem cbufOf_eq {i : Nat} (inside : i < prog.length) : prog[i]? = some (cbufOf prog i) := by
  simp [cbufOf, inside]

theorem step_inside (step : bfStep (cbufOf prog) prog.length input s = some s') :
    s.i < prog.length ∧ s.dp.toNat < 128 ∧
    s' = bfOp (cbufOf prog) input s (opOf (cbufOf prog s.i)) := by
  unfold bfStep at step
  split_ifs at step with inside off
  exact ⟨inside, by simpa [bfBufsiz] using off, (Option.some.inj step).symm⟩

theorem stdStep_at (input : Stream) {c : UInt8} (here : prog[t.pos]? = some c) (low : 0 ≤ t.ptr)
    (high : t.ptr < 128) :
    stdStep prog input t = stdOp prog input t (opOf c) := by
  rw [stdStep, if_pos ⟨low, high⟩, here, Option.bind_some]

theorem pointer_right (below : s.dp.toNat < 128)
    (pointer : (s.dp.toNat : Int) = t.ptr % 256 ∧ -1 ≤ t.ptr ∧ t.ptr ≤ 128) :
    ((s.dp + 1).toNat : Int) = (t.ptr + 1) % 256 ∧ -1 ≤ t.ptr + 1 ∧ t.ptr + 1 ≤ 128 := by
  have moved : (s.dp + 1).toNat = s.dp.toNat + 1 := by
    rw [UInt8.toNat_add]
    exact Nat.mod_eq_of_lt (by simp; omega)
  omega

theorem pointer_left (below : s.dp.toNat < 128)
    (pointer : (s.dp.toNat : Int) = t.ptr % 256 ∧ -1 ≤ t.ptr ∧ t.ptr ≤ 128) :
    ((s.dp - 1).toNat : Int) = (t.ptr - 1) % 256 ∧ -1 ≤ t.ptr - 1 ∧ t.ptr - 1 ≤ 128 := by
  have moved : (s.dp - 1).toNat = (255 + s.dp.toNat) % 256 := by
    rw [UInt8.toNat_sub]
    rfl
  omega

theorem loop_round (balanced : Balanced kindOf prog) (short : prog.length ≤ 127)
    (agrees : Agrees prog s t)
    (harmless : Harmless prog s) (inside : s.i < prog.length) (place : s.i = t.pos)
    (low : 0 ≤ t.ptr) (high : t.ptr < 128) (cell : t.ptr.toNat = s.dp.toNat)
    (op : opOf (cbufOf prog s.i) = .loop)
    (next : stdStep prog input t = stdOp prog input t .loop) :
    ∃ t', stdStep prog input t = some t' ∧ (Agrees prog (bfOp (cbufOf prog) input s .loop) t' ∨
      ∃ t'', stdStep prog input t' = some t'' ∧
      Agrees prog (bfOp (cbufOf prog) input s .loop) t'') := by
  have moved : s.i + 1 = t.pos + 1 := by rw [place]
  by_cases zero : s.dbuf s.dp.toNat = 0
  · obtain ⟨j, found⟩ :=
      closingOf_exists balanced (i := s.i) (by simp [cbufOf_eq inside, kindOf, op])
    have blank : t.tape t.ptr.toNat = 0 := by rw [cell, ← agrees.cells, zero]
    simp only [stdOp, blank, if_true, ← place, found, Option.map_some] at next
    refine ⟨_, next, ?_⟩
    simp only [bfOp, zero, if_true, forward_lands short found]
    cases behind : prog[j + 1]? with
    | none =>
      have far := List.getElem?_eq_none_iff.mp behind
      exact Or.inl ⟨Or.inr ⟨Nat.le_succ_of_le far, far⟩, agrees.pointer, agrees.cells,
        agrees.reads, agrees.trace⟩
    | some c =>
      have skip := stdStep_at (t := { t with pos := j + 1 }) input behind low high
      rcases harmless op zero j found c behind with pool | other
      · simp only [pool, stdOp, blank, ne_eq, not_true_eq_false, if_false] at skip
        exact Or.inr ⟨_, skip, Or.inl rfl, agrees.pointer, agrees.cells, agrees.reads, agrees.trace⟩
      · simp only [other, stdOp] at skip
        exact Or.inr ⟨_, skip, Or.inl rfl, agrees.pointer, agrees.cells, agrees.reads, agrees.trace⟩
  · have filled : ¬ t.tape t.ptr.toNat = 0 := by rwa [cell, ← agrees.cells]
    simp only [stdOp, filled, if_false] at next
    simp only [bfOp, zero, if_false]
    exact ⟨_, next, Or.inl ⟨Or.inl moved, agrees.pointer, agrees.cells, agrees.reads, agrees.trace⟩⟩

/-- A `]`: the scan back and the correction of its index land on the matching `[`. -/
theorem pool_round (balanced : Balanced kindOf prog) (agrees : Agrees prog s t)
    (inside : s.i < prog.length)
    (place : s.i = t.pos) (cell : t.ptr.toNat = s.dp.toNat) (op : opOf (cbufOf prog s.i) = .pool)
    (next : stdStep prog input t = stdOp prog input t .pool) :
    ∃ t', stdStep prog input t = some t' ∧ Agrees prog (bfOp (cbufOf prog) input s .pool) t' := by
  have moved : s.i + 1 = t.pos + 1 := by rw [place]
  by_cases zero : s.dbuf s.dp.toNat = 0
  · have blank : t.tape t.ptr.toNat = 0 := by rw [cell, ← agrees.cells, zero]
    simp only [stdOp, blank, ne_eq, not_true_eq_false, if_false] at next
    simp only [bfOp, zero, ne_eq, not_true_eq_false, if_false]
    exact ⟨_, next, Or.inl moved, agrees.pointer, agrees.cells, agrees.reads, agrees.trace⟩
  · obtain ⟨k, found⟩ :=
      openingOf_exists balanced (j := s.i) (by simp [cbufOf_eq inside, kindOf, op])
    have filled : ¬ t.tape t.ptr.toNat = 0 := by rwa [cell, ← agrees.cells]
    simp only [stdOp, filled, ne_eq, not_false_eq_true, if_true, ← place, found,
      Option.map_some] at next
    simp only [bfOp, zero, ne_eq, not_false_eq_true, if_true, back_lands found]
    exact ⟨_, next, Or.inl rfl, agrees.pointer, agrees.cells, agrees.reads, agrees.trace⟩

/-- A round of the loop is one step of the standard machine, or two when the byte that it
    steps over would have done nothing. -/
theorem round_simulated (balanced : Balanced kindOf prog) (short : prog.length ≤ 127)
    (agrees : Agrees prog s t) (harmless : Harmless prog s)
    (step : bfStep (cbufOf prog) prog.length input s = some s') :
    ∃ t', stdStep prog input t = some t' ∧
      (Agrees prog s' t' ∨ ∃ t'', stdStep prog input t' = some t'' ∧ Agrees prog s' t'') := by
  obtain ⟨inside, below, rfl⟩ := step_inside step
  obtain ⟨low, high, cell⟩ := agrees.on_tape below
  have place : s.i = t.pos := agrees.place.resolve_right fun behind => by omega
  have here : prog[t.pos]? = some (cbufOf prog s.i) := by rw [← place, cbufOf_eq inside]
  have next := stdStep_at input here low high
  have moved : s.i + 1 = t.pos + 1 := by rw [place]
  cases op : opOf (cbufOf prog s.i) with
  | right =>
    rw [op] at next
    exact ⟨_, next, Or.inl ⟨Or.inl moved, pointer_right below agrees.pointer, agrees.cells,
      agrees.reads, agrees.trace⟩⟩
  | left =>
    rw [op] at next
    exact ⟨_, next, Or.inl ⟨Or.inl moved, pointer_left below agrees.pointer, agrees.cells,
      agrees.reads, agrees.trace⟩⟩
  | inc =>
    rw [op] at next
    refine ⟨_, next, Or.inl ⟨Or.inl moved, agrees.pointer, ?_, agrees.reads, ?_⟩⟩
    · simp only [bfOp, agrees.cells, cell]
    · simp only [bfOp, agrees.cells, agrees.trace, cell]
  | dec =>
    rw [op] at next
    refine ⟨_, next, Or.inl ⟨Or.inl moved, agrees.pointer, ?_, agrees.reads, ?_⟩⟩
    · simp only [bfOp, agrees.cells, cell]
    · simp only [bfOp, agrees.cells, agrees.trace, cell]
  | put =>
    rw [op] at next
    refine ⟨_, next, Or.inl ⟨Or.inl moved, agrees.pointer, agrees.cells, agrees.reads, ?_⟩⟩
    simp only [bfOp, agrees.cells, agrees.trace, cell]
  | get =>
    rw [op] at next
    refine ⟨_, next, Or.inl ⟨Or.inl moved, agrees.pointer, ?_, ?_, ?_⟩⟩
    · simp only [bfOp, agrees.cells, agrees.reads, cell]
    · simp only [bfOp, agrees.reads]
    · simp only [bfOp, agrees.reads, agrees.trace, cell]
  | other =>
    rw [op] at next
    exact ⟨_, next, Or.inl ⟨Or.inl moved, agrees.pointer, agrees.cells, agrees.reads, agrees.trace⟩⟩
  | loop =>
    rw [op] at next
    exact loop_round balanced short agrees harmless inside place low high cell op next
  | pool =>
    rw [op] at next
    obtain ⟨t', stepped, agrees'⟩ := pool_round balanced agrees inside place cell op next
    exact ⟨t', stepped, Or.inl agrees'⟩

theorem left_together (agrees : Agrees prog s t)
    (left : bfStep (cbufOf prog) prog.length input s = none) : stdStep prog input t = none := by
  obtain ⟨pointer, least, most⟩ := agrees.pointer
  by_cases inside : s.i < prog.length
  · have off : s.dp.toNat ≥ bfBufsiz := by
      by_contra below
      simp only [bfStep, if_pos inside, if_neg below, reduceCtorEq] at left
    simp only [bfBufsiz] at off
    rw [stdStep, if_neg (by omega)]
  · have behind : prog.length ≤ t.pos := by
      have place := agrees.place
      omega
    rw [stdStep, List.getElem?_eq_none behind, Option.bind_none, ite_self]

end Step

/-! ## Whole runs -/

section Runs
variable {prog : List UInt8} {input : Stream}

theorem standard_succ {m : Nat} {t : Std}
    (step : stdStep prog input (standard prog input m) = some t) :
    standard prog input (m + 1) = t := by
  rw [standard, step, Option.getD_some]

theorem standard_left {m : Nat} (left : stdStep prog input (standard prog input m) = none)
    (k : Nat) :
    standard prog input (m + k) = standard prog input m := by
  induction k with
  | zero => rfl
  | succ k ih => rw [← Nat.add_assoc, standard, ih, left, Option.getD_none]

theorem stdStep_trace {t t' : Std} (step : stdStep prog input t = some t') :
    t.trace <+: t'.trace := by
  unfold stdStep at step
  split_ifs at step
  obtain ⟨c, -, act⟩ := Option.bind_eq_some_iff.mp step
  generalize opOf c = op at act
  cases op with
  | right | left | other =>
    cases act
    exact List.prefix_rfl
  | inc | dec | put | get =>
    cases act
    exact List.prefix_append _ _
  | loop | pool =>
    simp only [stdOp] at act
    split_ifs at act
    · obtain ⟨_, -, rfl⟩ := Option.map_eq_some_iff.mp act
      exact List.prefix_rfl
    · cases act
      exact List.prefix_rfl

theorem standard_trace (prog : List UInt8) (input : Stream) (m k : Nat) :
    (standard prog input m).trace <+: (standard prog input (m + k)).trace := by
  induction k with
  | zero => exact List.prefix_rfl
  | succ k ih =>
    apply ih.trans
    rw [← Nat.add_assoc, standard]
    cases step : stdStep prog input (standard prog input (m + k)) with
    | none => exact List.prefix_rfl
    | some t => exact stdStep_trace step

/-- After every harmless run of the loop the standard machine can be where it is, and has not
    fallen behind it unless it has stopped. -/
theorem run_simulated (balanced : Balanced kindOf prog) (short : prog.length ≤ 127) (n : Nat)
    (harmless : ∀ k < n, Harmless prog (exec prog input k)) :
    ∃ m, Agrees prog (exec prog input n) (standard prog input m) ∧
      (n ≤ m ∨ stdStep prog input (standard prog input m) = none) := by
  induction n with
  | zero => exact ⟨0, ⟨Or.inl rfl, by simp [exec, standard], rfl, rfl, rfl⟩, Or.inl (Nat.le_refl 0)⟩
  | succ n ih =>
    obtain ⟨m, agrees, ahead⟩ := ih fun k below => harmless k (by omega)
    cases step : bfStep (cbufOf prog) prog.length input (exec prog input n) with
    | none =>
      rw [exec, step, Option.getD_none]
      exact ⟨m, agrees, Or.inr (left_together agrees step)⟩
    | some s' =>
      rw [exec, step, Option.getD_some]
      obtain ⟨t', first, agrees' | ⟨t'', second, agrees'⟩⟩ :=
        round_simulated balanced short agrees (harmless n (by omega)) step
      · have running : n ≤ m := ahead.resolve_right (by rw [first]; simp)
        exact ⟨m + 1, by rwa [standard_succ first], Or.inl (by omega)⟩
      · have running : n ≤ m := ahead.resolve_right (by rw [first]; simp)
        have later := standard_succ first
        exact ⟨m + 2, by rwa [standard_succ (by rwa [later])], Or.inl (by omega)⟩

end Runs

theorem bf_follows_standard (prog : List UInt8) (input : Stream) (balanced : Balanced kindOf prog)
    (short : prog.length ≤ 127) :
    (∀ n, (∀ k < n, Harmless prog (exec prog input k)) →
      ∃ m, Agrees prog (exec prog input n) (standard prog input m)) ∧
    ((∀ n, Harmless prog (exec prog input n)) → SameBehaviour prog input) := by
  constructor
  · intro n harmless
    obtain ⟨m, agrees, -⟩ := run_simulated balanced short n harmless
    exact ⟨m, agrees⟩
  · intro harmless
    have simulated : ∀ n, ∃ m, Agrees prog (exec prog input n) (standard prog input m) ∧
        (n ≤ m ∨ stdStep prog input (standard prog input m) = none) :=
      fun n => run_simulated balanced short n fun k _ => harmless k
    constructor
    · intro n
      obtain ⟨m, agrees, -⟩ := simulated n
      exact ⟨m, agrees.trace.symm⟩
    · intro m
      obtain ⟨m', agrees, ahead⟩ := simulated m
      refine ⟨m, ?_⟩
      rw [agrees.trace]
      by_cases later : m ≤ m'
      · have grown := standard_trace prog input m (m' - m)
        rwa [Nat.add_sub_cancel' later] at grown
      · have stopped := standard_left (ahead.resolve_left later) (m - m')
        rw [Nat.add_sub_cancel' (by omega)] at stopped
        exact ⟨[], by rw [List.append_nil, stopped]⟩
    · constructor
      · rintro ⟨n, left⟩
        obtain ⟨m, agrees, -⟩ := simulated n
        exact ⟨m, left_together agrees left⟩
      · rintro ⟨m, left⟩
        obtain ⟨m', agrees, ahead⟩ := simulated (m + 1)
        have stopped : stdStep prog input (standard prog input m') = none := by
          rcases ahead with later | stopped
          · rwa [← Nat.add_sub_cancel' (show m ≤ m' by omega), standard_left left]
          · exact stopped
        refine ⟨m + 1, ?_⟩
        cases step : bfStep (cbufOf prog) prog.length input (exec prog input (m + 1)) with
        | none => rfl
        | some s' =>
          obtain ⟨t', first, -⟩ := round_simulated balanced short agrees (harmless (m + 1)) step
          rw [stopped] at first
          cases first

theorem copy_follows_standard :
    SameBehaviour [0x2c, 0x5b, 0x2e, 0x2c, 0x5d] (fun n => if n = 0 then 0x61 else 0) := by
  refine (bf_follows_standard [0x2c, 0x5b, 0x2e, 0x2c, 0x5d] (fun n => if n = 0 then 0x61 else 0)
    (by decide) (by decide)).2 ?_
  intro n _ _ j found
  have only : ∀ j < 5, ([0x2c, 0x5b, 0x2e, 0x2c, 0x5d] : List UInt8)[j]?.map kindOf =
      some .closing → j = 4 := by
    decide
  have pair := closingOf_spec found
  obtain rfl := only j pair.inside pair.2.2.1
  intro c behind
  cases behind

/-- In `[]+` the `+` is stepped over together with the loop. -/
theorem byte_after_loop_lost :
    ¬ ∀ (prog : List UInt8) (input : Stream), Balanced kindOf prog → prog.length ≤ 127 →
      SameBehaviour prog input := by
  intro right
  have silent : ∀ n, (exec [0x5b, 0x5d, 0x2b] (fun _ => 0) n).trace = [] ∧
      (n = 0 ∨ (exec [0x5b, 0x5d, 0x2b] (fun _ => 0) n).i = 3) := by
    intro n
    induction n with
    | zero => exact ⟨rfl, Or.inl rfl⟩
    | succ n ih =>
      obtain ⟨trace, start | behind⟩ := ih
      · subst start
        decide
      · have left : bfStep (cbufOf [0x5b, 0x5d, 0x2b]) 3 (fun _ => 0)
            (exec [0x5b, 0x5d, 0x2b] (fun _ => 0) n) = none := by
          rw [bfStep, behind]
          rfl
        rw [exec]
        simp only [List.length_cons, List.length_nil, Nat.zero_add, Nat.reduceAdd, left,
          Option.getD_none]
        exact ⟨trace, Or.inr behind⟩
  obtain ⟨n, before⟩ := (right [0x5b, 0x5d, 0x2b] (fun _ => 0) (by decide) (by decide)).complete 2
  rw [(silent n).1] at before
  revert before
  decide

end Brainfuck
