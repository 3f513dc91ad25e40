import NoobOs.Fs.PathLaws
import NoobOs.KLib.StringBuffers

/-!
`path_canon` on memory: the copy that `strtok_r` cuts up, the pointers into it and the buffer
that is returned. `malloc` has given the two buffers their addresses, and what `free` does to
the copy is not followed; an outer `none` is a store outside the buffers, past the array of
segments, or a loop without an end.
-/
namespace Vfs
open BoundedStack ByteMemory Strings

abbrev Snprintkf := Mem → Nat → Nat → Nat → Nat → Mem

def segLoop (b : Area) : Nat → Mem → Option Nat → List Nat → Option (Mem × List Nat)
  | 0, _, _, _ => none
  | fuel + 1, m, rest, segs => do
    let (m, tok, rest) ← strtokRAt b m rest [0x2f] rest
    match tok with
    | none => return (m, segs.reverse)
    | some tok =>
      if strcmpAt m tok [0x2e] = 0 then segLoop b fuel m rest segs
      else if strcmpAt m tok [0x2e, 0x2e] = 0 then segLoop b fuel m rest segs.tail
      else if segs.length < segsMax then segLoop b fuel m rest (tok :: segs)
      else none

def joinLoop (b : Area) : Mem → List Nat → Nat → Option (Option (Mem × Nat))
  | m, [], len => some (some (m, len))
  | m, seg :: segs, len => do
    let seglen ← strlenAt m seg
    if b.size < (len + seglen + 1) % 2 ^ 32 then return none
    let m ← memcpyAt b m (b.start + len) seg seglen
    let len := (len + seglen) % 2 ^ 32
    -- no slash behind the last one
    if segs = [] then return some (m, len)
    let m ← storeIn b m (b.start + len) 0x2f
    joinLoop b m segs ((len + 1) % 2 ^ 32)

def lastOf (b : Area) : Nat := (b.size + (2 ^ 32 - 1)) % 2 ^ 32

def copyTmp (snprintkf : Snprintkf) (b : Area) (m : Mem) (cwd path : Nat) : Option Mem :=
  if m path = 0x2f then strncpyAt b m b.start path (lastOf b)
  else some (snprintkf m b.start b.size cwd path)

def fillTmp (snprintkf : Snprintkf) (b : Area) (m : Mem) (cwd path : Nat) : Option Mem := do
  let m ← copyTmp snprintkf b m cwd path
  storeIn b m (b.start + lastOf b) 0

def pathCanonAt (snprintkf : Snprintkf) (m : Mem) (cwd path : Option Nat) (tmp buf : Nat) :
    Option (Option (Mem × Nat)) := do
  match cwd, path with
  | some cwd, some path =>
    let pathLen ← strlenAt m path
    let cwdLen ← strlenAt m cwd
    let n := (pathLen + cwdLen + 10) % 2 ^ 32
    let m ← fillTmp snprintkf ⟨tmp, n⟩ m cwd path
    let (m, segs) ← segLoop ⟨tmp, n⟩ (2 ^ 32) m (some tmp) []
    let m ← storeIn ⟨buf, n⟩ m buf 0x2f
    match ← joinLoop ⟨buf, n⟩ m segs 1 with
    | none => return none
    | some (m, len) =>
      if len = 0 then
        let m ← storeIn ⟨buf, n⟩ m buf 0x2f
        let m ← storeIn ⟨buf, n⟩ m (buf + 1) 0
        return some (m, buf + 1)
      let m ← storeIn ⟨buf, n⟩ m (buf + len) 0
      return some (m, buf)
  | _, _ => return none

/-- What the formatter does with strings outside its buffer that fit in it. -/
structure Formats (snprintkf : Snprintkf) : Prop where
  spelled : ∀ m buf siz a c s t, StrAt m a s → StrAt m c t → s.length + t.length + 1 < siz →
    (∀ i ≤ s.length, ¬ (Area.mk buf siz).Has (a + i)) →
      (∀ i ≤ t.length, ¬ (Area.mk buf siz).Has (c + i)) →
    siz < 2 ^ 32 → StrAt (snprintkf m buf siz a c) buf (s ++ 0x2f :: t)
  inside : ∀ m buf siz a c x, ¬ (Area.mk buf siz).Has x → snprintkf m buf siz a c x = m x

section Loops
variable {b : Area} {m m' : Mem} {lim : Nat} {rest : Option Nat} {segs : List Nat}
  {toks names result : List Str} {out r : Str}

/-- The strings that the stack points to, in the part of the copy that is cut up already. -/
def SegsAt (b : Area) (m : Mem) (lim : Nat) (segs : List Nat) (names : List Str) : Prop :=
  List.Forall₂ (fun o t => StrAt m o t ∧ b.start ≤ o ∧ o + t.length < lim) segs names

theorem SegsAt.kept {lim' : Nat} (stack : SegsAt b m lim segs names) (more : lim ≤ lim')
    (same : ∀ x < lim, m' x = m x) : SegsAt b m' lim' segs names := by
  refine List.Forall₂.imp ?_ stack
  rintro o t ⟨here, low, high⟩
  refine ⟨here.moved ?_, low, by omega⟩
  intro i inside
  exact same _ (by omega)

theorem strcmpAt_dots {o : Nat} {t : Str} (here : StrAt m o t) :
    (strcmpAt m o [0x2e] = 0 ↔ t = [0x2e]) ∧
    (strcmpAt m o [0x2e, 0x2e] = 0 ↔ t = [0x2e, 0x2e]) := by
  rw [strcmpAt_eq here (by decide), strcmpAt_eq here (by decide)]
  exact ⟨strcmp_eq_zero here.1 (by decide), strcmp_eq_zero here.1 (by decide)⟩

/-- The stack of pointers is the stack of segments. -/
theorem segLoop_refines (fuel : Nat) (small : b.size < 2 ^ 32)
    (left : RestAt b m [0x2f] lim rest toks)
    (stack : SegsAt b m lim segs names) (enough : toks.length < fuel)
    (ran : canonSegs toks names = some result) :
    ∃ m' segs', segLoop b fuel m rest segs = some (m', segs') ∧
    SegsAt b m' (b.start + b.size) segs' result ∧
      ∀ x, ¬ b.Has x → m' x = m x := by
  induction toks generalizing m lim rest segs names fuel with
  | nil =>
    obtain ⟨fuel, rfl⟩ := Nat.exists_eq_succ_of_ne_zero (Nat.ne_of_gt enough)
    obtain rfl := Option.some.inj ran
    refine ⟨m, segs.reverse, ?_, ?_, fun _ _ => rfl⟩
    · rw [segLoop, strtokRAt_done left small]
      rfl
    · exact List.rel_reverse (stack.kept left.2.1 fun _ _ => rfl)
  | cons tok toks ih =>
    obtain ⟨fuel, rfl⟩ := Nat.exists_eq_succ_of_ne_zero (Nat.ne_of_gt (Nat.zero_lt_of_lt enough))
    obtain ⟨m₁, o, next, call, above, here, same, left'⟩ := strtokRAt_next left small
    have stack' : SegsAt b m₁ (o + tok.length + 1) segs names :=
      stack.kept (by omega) fun x below => same x (Or.inl (by omega))
    have fewer : toks.length < fuel := by simpa using enough
    have deep : segs.length = names.length := stack.length_eq
    obtain ⟨dot, dots⟩ := strcmpAt_dots here
    have step : ∀ {segs' names'}, SegsAt b m₁ (o + tok.length + 1) segs' names' →
        canonSegs toks names' = some result →
        ∃ m' segs'', segLoop b fuel m₁ next segs' = some (m', segs'') ∧
          SegsAt b m' (b.start + b.size) segs'' result ∧ ∀ x, ¬ b.Has x → m' x = m x := by
      intro segs' names' stack' ran'
      obtain ⟨m', segs'', loop, final, same'⟩ := ih fuel left' stack' fewer ran'
      exact ⟨m', segs'', loop, final,
        fun x outside => (same' x outside).trans (same x (Or.inr outside))⟩
    rw [segLoop, call]
    simp only [Option.bind_eq_bind, Option.bind_some, dot, dots, deep]
    unfold canonSegs at ran
    split at ran
    · next isDot =>
      rw [if_pos isDot]
      exact step stack' ran
    · next notDot =>
      rw [if_neg notDot]
      split at ran
      · next areDots =>
        rw [if_pos areDots]
        refine step ?_ ran
        cases stack' with
        | nil => exact List.Forall₂.nil
        | cons _ below => exact below
      · next notDots =>
        rw [if_neg notDots]
        split at ran
        · next room =>
          rw [if_pos room]
          refine step (List.Forall₂.cons ⟨here, ?_, Nat.lt_succ_self _⟩ stack') ran
          have := left.1
          omega
        · cases ran

def SegsOff (b : Area) (m : Mem) (segs : List Nat) (names : List Str) : Prop :=
  List.Forall₂ (fun o t => StrAt m o t ∧ ∀ i ≤ t.length, ¬ b.Has (o + i)) segs names

theorem SegsOff.kept (strs : SegsOff b m segs names) (same : ∀ x, ¬ b.Has x → m' x = m x) :
    SegsOff b m' segs names := by
  refine List.Forall₂.imp ?_ strs
  rintro o t ⟨here, apart⟩
  exact ⟨here.moved fun i inside => same _ (apart i inside), apart⟩

theorem memcpyAt_extends {o : Nat} {t : Str} (here : StrAt m o t)
    (apart : ∀ i ≤ t.length, ¬ b.Has (o + i))
    (filled : BytesAt m b.start out) (room : out.length + t.length < b.size) :
    ∃ m', memcpyAt b m (b.start + out.length) o t.length = some m' ∧ BytesAt m' b.start (out ++ t) ∧
      ∀ x, ¬ b.Has x → m' x = m x := by
  obtain ⟨m', copied, others, bytes⟩ :=
    copyIn_spec (b := b) (n := t.length) m (b.start + out.length) o (by omega) (by omega)
  refine ⟨m', copied, (bytesAt_append out t b.start).mpr ⟨?_, ?_⟩, ?_⟩
  · apply filled.moved
    intro i inside
    exact others _ (by omega)
  · apply ((bytesAt_append t [0] o).mp here.2).1.moved
    intro i inside
    have outside := apart i (by omega)
    rw [Area.not_has] at outside
    exact bytes i inside (by omega)
  · intro x outside
    rw [Area.not_has] at outside
    exact others x (by omega)

theorem store8_extends (filled : BytesAt m b.start out) (c : UInt8) :
    BytesAt (store8 m (b.start + out.length) c) b.start (out ++ [c]) := by
  refine (bytesAt_append out [c] b.start).mpr ⟨?_, store8_same _ _ _, trivial⟩
  apply filled.moved
  intro i inside
  exact store8_other _ _ (by omega)

theorem store8_off {a x : Nat} (inside : b.Has a) (v : UInt8) (outside : ¬ b.Has x) :
    store8 m a v x = m x :=
  store8_other _ _ fun same => outside (same ▸ inside)

theorem canonJoin_room {n : Nat} (some' : names ≠ []) (joined : canonJoin n names out = some r) :
    out.length < n := by
  obtain ⟨t, names, rfl⟩ := List.exists_cons_of_ne_nil some'
  unfold canonJoin at joined
  split at joined
  · cases joined
  · omega

theorem joinLoop_refines (small : b.size < 2 ^ 32)
    (strs : SegsOff b m segs names)
    (filled : BytesAt m b.start out) (plain : 0 ∉ out) (room : out.length < b.size)
    (joined : canonJoin b.size names out = some r) :
    ∃ m', joinLoop b m segs out.length = some (some (m', r.length)) ∧ BytesAt m' b.start r ∧ 0 ∉ r ∧
      r.length < b.size ∧ ∀ x, ¬ b.Has x → m' x = m x := by
  induction names generalizing m segs out with
  | nil =>
    cases strs
    obtain rfl := Option.some.inj joined
    exact ⟨m, rfl, filled, plain, room, fun _ _ => rfl⟩
  | cons t names ih =>
    obtain _ | ⟨⟨here, apart⟩, strs⟩ := strs
    next o segs =>
    unfold canonJoin at joined
    split at joined
    · cases joined
    · next fits =>
      obtain ⟨m₁, copied, filled₁, same⟩ := memcpyAt_extends here apart filled (by omega)
      have plain₁ : 0 ∉ out ++ t := by
        rw [List.mem_append]
        exact fun zero => zero.elim plain here.1
      have grown : (out ++ t).length = out.length + t.length := List.length_append
      have last : segs = [] ↔ names = [] := by
        rw [← List.length_eq_zero_iff, ← List.length_eq_zero_iff, strs.length_eq]
      rw [joinLoop, strlenAt_spec here (by omega)]
      simp only [Option.bind_eq_bind, Option.bind_some,
        Nat.mod_eq_of_lt (show out.length + t.length + 1 < 2 ^ 32 by omega),
        Nat.mod_eq_of_lt (show out.length + t.length < 2 ^ 32 by omega), if_neg fits, copied, last]
      split at joined
      · next ends =>
        obtain rfl := Option.some.inj joined
        refine ⟨m₁, ?_, filled₁, plain₁, by omega, same⟩
        rw [if_pos ends, grown]
        rfl
      · next goes =>
        have inside : b.Has (b.start + (out ++ t).length) := ⟨by omega, by omega⟩
        have longer : (out ++ t ++ [0x2f]).length = out.length + t.length + 1 := by
          rw [List.length_append, grown, List.length_singleton]
        have same₂ : ∀ x, ¬ b.Has x → store8 m₁ (b.start + (out ++ t).length) 0x2f x = m x := by
          intro x outside
          rw [store8_off inside _ outside, same x outside]
        obtain ⟨m', loop, filled', plain', room', same'⟩ :=
          ih (SegsOff.kept strs same₂) (store8_extends filled₁ 0x2f)
          (by simpa using plain₁) (canonJoin_room goes joined) joined
        refine ⟨m', ?_, filled', plain', room',
          fun x outside => (same' x outside).trans (same₂ x outside)⟩
        rw [if_neg goes, ← grown, storeIn_eq inside, Option.bind_some, ← loop, longer, grown]

end Loops

/-- What `malloc` promises of the buffers for two strings: `n` bytes each, apart from each
    other, and the copy apart from the strings. -/
structure Buffers (tmp buf n cwd path : Nat) (s t : Str) : Prop where
  notNull : 0 < tmp ∧ 0 < buf
  fits : tmp + n ≤ 2 ^ 32 ∧ buf + n ≤ 2 ^ 32
  apart : tmp + n ≤ buf ∨ buf + n ≤ tmp
  offCwd : ∀ i ≤ s.length, ¬ (Area.mk tmp n).Has (cwd + i)
  offPath : ∀ i ≤ t.length, ¬ (Area.mk tmp n).Has (path + i)

section Canon
variable {snprintkf : Snprintkf} {m : Mem} {cwd path tmp buf : Nat} {s t : Str}

theorem lastOf_eq {b : Area} (some' : 0 < b.size) (small : b.size < 2 ^ 32) :
    lastOf b = b.size - 1 := by
  unfold lastOf
  omega

theorem copyTmp_spec {b : Area} (formats : Formats snprintkf) (cwdAt : StrAt m cwd s)
    (pathAt : StrAt m path t)
    (size : b.size = t.length + s.length + 10) (small : b.size < 2 ^ 32)
    (offCwd : ∀ i ≤ s.length, ¬ b.Has (cwd + i)) (offPath : ∀ i ≤ t.length, ¬ b.Has (path + i)) :
    ∃ m', copyTmp snprintkf b m cwd path = some m' ∧ StrAt m' b.start (fullPath s t) ∧
      ∀ x, ¬ b.Has x → m' x = m x := by
  have slash := pathAt.head_eq (show (0x2f : UInt8) ≠ 0 by decide)
  rw [copyTmp, fullPath, lastOf_eq (by omega) small]
  by_cases absolute : t.head? = some 0x2f
  · rw [if_pos absolute, if_pos (slash.mpr absolute)]
    obtain ⟨m', copied, others, bytes⟩ :=
      copyIn_spec (b := b) (n := b.size - 1) m b.start path (by omega) (by omega)
    refine ⟨m', copied, pathAt.moved ?_, ?_⟩
    · intro i within
      have outside := offPath i within
      rw [Area.not_has] at outside
      exact bytes i (by omega) (by omega)
    · intro x outside
      rw [Area.not_has] at outside
      exact others x (by omega)
  · rw [if_neg absolute, if_neg fun first => absolute (slash.mp first), List.append_assoc,
      List.singleton_append]
    exact ⟨_, rfl, formats.spelled m b.start b.size cwd path s t cwdAt pathAt
      (by omega) offCwd offPath small,
      fun x outside => formats.inside m b.start b.size cwd path x outside⟩

theorem fillTmp_spec {b : Area} (formats : Formats snprintkf) (cwdAt : StrAt m cwd s)
    (pathAt : StrAt m path t)
    (size : b.size = t.length + s.length + 10) (small : b.size < 2 ^ 32)
    (offCwd : ∀ i ≤ s.length, ¬ b.Has (cwd + i)) (offPath : ∀ i ≤ t.length, ¬ b.Has (path + i)) :
    ∃ m', fillTmp snprintkf b m cwd path = some m' ∧ StrAt m' b.start (fullPath s t) ∧
      ∀ x, ¬ b.Has x → m' x = m x := by
  obtain ⟨m', copied, spelled, same⟩ := copyTmp_spec formats cwdAt pathAt size small offCwd offPath
  have last := lastOf_eq (show 0 < b.size by omega) small
  have inside : b.Has (b.start + lastOf b) := ⟨by omega, by omega⟩
  have shorter := fullPath_length s t
  refine ⟨store8 m' (b.start + lastOf b) 0, ?_, spelled.moved ?_, ?_⟩
  · rw [fillTmp, copied]
    exact storeIn_eq inside _ _
  · intro i within
    exact store8_other _ _ (by omega)
  · intro x outside
    rw [store8_off inside _ outside, same x outside]

theorem canonPath_intercalate (segs : List Str) :
    canonPath segs = 0x2f :: [0x2f].intercalate segs := by
  cases segs with
  | nil => rfl
  | cons c segs =>
    induction segs generalizing c with
    | nil => simp [canonPath, List.intercalate]
    | cons d segs ih =>
      have rest := ih d
      simp only [canonPath, List.flatMap_cons] at rest ⊢
      rw [rest]
      simp [List.intercalate]

theorem joinBuf_spec {b : Area} {os : List Nat} {segs : List Str} (small : b.size < 2 ^ 32)
    (room : 1 < b.size)
    (off : SegsOff b m os segs) (joined : canonJoin b.size segs [0x2f] = some (canonPath segs)) :
    ∃ m', joinLoop b (store8 m b.start 0x2f) os 1 = some (some (m', (canonPath segs).length)) ∧
      (canonPath segs).length ≠ 0 ∧ b.Has (b.start + (canonPath segs).length) ∧
      StrAt (store8 m' (b.start + (canonPath segs).length) 0) b.start (canonPath segs) ∧
      ∀ x, ¬ b.Has x → m' x = m x := by
  have first : b.Has b.start := ⟨Nat.le_refl _, by omega⟩
  have same : ∀ x, ¬ b.Has x → store8 m b.start 0x2f x = m x :=
    fun x outside => store8_off first _ outside
  have slash : BytesAt (store8 m b.start 0x2f) b.start [0x2f] := ⟨store8_same _ _ _, trivial⟩
  obtain ⟨m', loop, bytes, plain, room', same'⟩ :=
    joinLoop_refines small (off.kept same) slash (by decide) room joined
  refine ⟨m', loop, ?_, ⟨Nat.le_add_right _ _, Nat.add_lt_add_left room' _⟩,
    ⟨plain, store8_extends bytes 0⟩,
    fun x outside => (same' x outside).trans (same x outside)⟩
  rw [canonPath_intercalate]
  simp

theorem pathCanonAt_eq {segs : List Str} (formats : Formats snprintkf) (cwdAt : StrAt m cwd s)
    (pathAt : StrAt m path t) (buffers : Buffers tmp buf (t.length + s.length + 10) cwd path s t)
    (stack : canonSegs (pieces [0x2f] (fullPath s t)) [] = some segs) :
    ∃ m', pathCanonAt snprintkf m (some cwd) (some path) tmp buf = some (some (m', buf)) ∧
      StrAt m' buf (canonPath segs) ∧ ∀ x, ¬ (Area.mk tmp (t.length + s.length + 10)).Has x →
        ¬ (Area.mk buf (t.length + s.length + 10)).Has x → m' x = m x := by
  obtain ⟨⟨notNull, -⟩, ⟨fits, -⟩, apart, offCwd, offPath⟩ := buffers
  have stack' : canonSegs (tokens [0x2f] (fullPath s t)) [] = some segs := by
    rw [tokens_eq_pieces]
    exact stack
  have joined := canonJoin_stack stack'
  have shorter := fullPath_length s t
  have few := pieces_length (fullPath s t)
  generalize size : t.length + s.length + 10 = n at *
  have small : n < 2 ^ 32 := by omega
  obtain ⟨m₁, filled, spelled, same₁⟩ :=
    fillTmp_spec (b := ⟨tmp, n⟩) formats cwdAt pathAt size.symm small offCwd offPath
  have whole : RestAt ⟨tmp, n⟩ m₁ [0x2f] tmp (some tmp) (pieces [0x2f] (fullPath s t)) := by
    refine ⟨Nat.le_refl _, Nat.le_add_right _ _, _, spelled, rfl, Nat.le_refl _, ?_⟩
    change tmp + _ < tmp + n
    omega
  obtain ⟨m₂, os, looped, stacked, same₂⟩ :=
    segLoop_refines (2 ^ 32) small whole List.Forall₂.nil (by omega) stack
  have off : SegsOff ⟨buf, n⟩ m₂ os segs := by
    refine List.Forall₂.imp ?_ stacked
    rintro o c ⟨here, low, high⟩
    refine ⟨here, ?_⟩
    intro i within
    rw [Area.not_has]
    simp only at low high ⊢
    omega
  obtain ⟨m₃, loop, some', inside, result, same₃⟩ :=
    joinBuf_spec (b := ⟨buf, n⟩) small (by simp only; omega) off joined
  refine ⟨store8 m₃ (buf + (canonPath segs).length) 0, ?_, result, ?_⟩
  · have n_eq : (t.length + s.length + 10) % 2 ^ 32 = n := by omega
    have first : (Area.mk buf n).Has buf := ⟨Nat.le_refl _, by simp only; omega⟩
    simp only [pathCanonAt, Option.bind_eq_bind, strlenAt_spec pathAt (by omega),
      strlenAt_spec cwdAt (by omega),
      Option.bind_some, n_eq, filled, looped, storeIn_eq first, loop, if_neg some',
      storeIn_eq inside]
    rfl
  · intro x offTmp offBuf
    rw [store8_off inside _ offBuf, same₃ x offBuf, same₂ x offTmp, same₁ x offTmp]

/-- `path_canon` is the reference: the segments walked from left to right, joined behind slashes.
    It never gives up, and writes in its two buffers only. -/
theorem canon_is_reference (formats : Formats snprintkf) (cwdAt : StrAt m cwd s)
    (pathAt : StrAt m path t)
    (buffers : Buffers tmp buf (t.length + s.length + 10) cwd path s t)
    (shallow : Shallow segsMax ((pieces [0x2f] (fullPath s t)).map move) []) :
    ∃ m', pathCanonAt snprintkf m (some cwd) (some path) tmp buf = some (some (m', buf)) ∧
      StrAt m' buf (0x2f :: [0x2f].intercalate
        (BoundedStack.walk ((pieces [0x2f] (fullPath s t)).map move) []).reverse) ∧
      ∀ x, ¬ (Area.mk tmp (t.length + s.length + 10)).Has x →
        ¬ (Area.mk buf (t.length + s.length + 10)).Has x → m' x = m x := by
  have stack : canonSegs (pieces [0x2f] (fullPath s t)) [] =
      some (BoundedStack.walk ((pieces [0x2f] (fullPath s t)).map move) []).reverse := by
    rw [canonSegs_walkIn, (walkIn_eq (Nat.zero_le _) _).mpr ⟨shallow, rfl⟩, Option.map_some]
  rw [← canonPath_intercalate]
  exact pathCanonAt_eq formats cwdAt pathAt buffers stack

end Canon

/-! ## A formatter -/

def cstrAt (m : Mem) (a : Nat) : Str := (List.range ((strlenAt m a).getD 0)).map fun i => m (a + i)

def formatter : Snprintkf := fun m buf siz a c =>
  if siz = 0 then m else storeBytes m buf ((cstrAt m a ++ 0x2f :: cstrAt m c).take (siz - 1) ++ [0])

theorem cstrAt_eq {m : Mem} {a : Nat} {s : Str} (here : StrAt m a s) (short : s.length < 2 ^ 32) :
    cstrAt m a = s := by
  have bytes := (bytesAt_iff s a).mp ((bytesAt_append s [0] a).mp here.2).1
  rw [cstrAt, strlenAt_spec here short, Option.getD_some]
  apply List.ext_getElem
  · simp
  · intro i left right
    rw [List.getElem_map, List.getElem_range, bytes i right]

theorem formatter_formats : Formats formatter where
  spelled := by
    intro m buf siz a c s t first second room _ _ small
    have fits : (s ++ 0x2f :: t).take (siz - 1) = s ++ 0x2f :: t := by
      apply List.take_of_length_le
      rw [List.length_append, List.length_cons]
      omega
    rw [formatter, if_neg (by omega), cstrAt_eq first (by omega), cstrAt_eq second (by omega), fits]
    refine ⟨?_, storeBytes_bytesAt _ _ _⟩
    simp [first.1, second.1]
  inside := by
    intro m buf siz a c x outside
    rw [formatter]
    split
    · rfl
    · next some' =>
      apply storeBytes_other
      have most := List.length_take_le (siz - 1) (cstrAt m a ++ 0x2f :: cstrAt m c)
      rw [List.length_append, List.length_singleton]
      rw [Area.not_has] at outside
      simp only at outside
      omega

def twoPaths : Mem :=
  storeBytes (storeBytes (fun _ => 0) 100 [0x2f, 0x61, 0]) 200 [0x2e, 0x2e, 0x2f, 0x62, 0]

theorem canon_up_and_down :
    ∃ m', pathCanonAt formatter twoPaths (some 100) (some 200) 1000 2000 = some (some (m', 2000)) ∧
    StrAt m' 2000 [0x2f, 0x62] := by
  have cwdAt : StrAt twoPaths 100 [0x2f, 0x61] := ⟨by decide, rfl, rfl, rfl, trivial⟩
  have pathAt : StrAt twoPaths 200 [0x2e, 0x2e, 0x2f, 0x62] :=
    ⟨by decide, rfl, rfl, rfl, rfl, rfl, trivial⟩
  have buffers : Buffers 1000 2000 16 100 200 [0x2f, 0x61] [0x2e, 0x2e, 0x2f, 0x62] := by
    refine ⟨by decide, by decide, by decide, ?_, ?_⟩
    · rintro i within ⟨low, -⟩
      simp at within low
      omega
    · rintro i within ⟨low, -⟩
      simp at within low
      omega
  have walked :
    walkIn segsMax ((pieces [0x2f] (fullPath [0x2f, 0x61] [0x2e, 0x2e, 0x2f, 0x62])).map move) [] =
      some [[0x62]] := by decide
  obtain ⟨shallow, stack⟩ := (walkIn_eq (Nat.zero_le _) _).mp walked
  obtain ⟨m', ran, spelled, -⟩ := canon_is_reference formatter_formats cwdAt pathAt buffers shallow
  rw [stack] at spelled
  exact ⟨m', ran, spelled⟩

end Vfs
