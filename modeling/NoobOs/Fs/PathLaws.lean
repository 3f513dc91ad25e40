import NoobOs.Fs.WorkingDirectory
import NoobOs.Lib.BoundedStack

/-!
Laws of `path_canon`: how canonical forms compose, over any sequence of `fsys_chdir`, and
for which paths the stack of segments stays in its array.
-/
namespace Vfs
open BoundedStack Strings

def move (tok : Str) : Move Str :=
  if tok = [0x2e] then .stay else if tok = [0x2e, 0x2e] then .up else .into tok

section Walk
variable {cwd path p q r : Str} {toks segs : List Str}

theorem canonSegs_walkIn (toks segs : List Str) :
    canonSegs toks segs = (walkIn segsMax (toks.map move) segs).map List.reverse := by
  induction toks generalizing segs with
  | nil => rfl
  | cons tok toks ih =>
    rw [List.map_cons, move, canonSegs]
    split
    · exact ih segs
    · split
      · exact ih segs.tail
      · rw [walkIn]
        split
        · exact ih (tok :: segs)
        · rfl

def rendered (st : List Str) : Option Str := some (canonPath st.reverse)

theorem pathCanon_walkIn (cwd path : Str) :
    pathCanon cwd path = (walkIn segsMax ((pieces [0x2f] (fullPath cwd path)).map move)
    []).map rendered := by
  rw [← tokens_eq_pieces]
  have stack := canonSegs_walkIn (tokens [0x2f] (fullPath cwd path)) []
  cases ran : walkIn segsMax ((tokens [0x2f] (fullPath cwd path)).map move) [] with
  | none =>
    rw [ran, Option.map_none] at stack
    change (canonSegs (tokens [0x2f] (fullPath cwd path)) []).bind _ = _
    rw [stack]
    rfl
  | some st =>
    rw [ran, Option.map_some] at stack
    exact (pathCanon_eq stack).1

theorem pieces_slash (s t : Str) :
    pieces [0x2f] (s ++ 0x2f :: t) = pieces [0x2f] s ++ pieces [0x2f] t := by
  rw [pieces, List.splitOnP_append_cons _ _ ((dlim_slash _).mpr rfl), List.filter_append,
    pieces, pieces]

theorem fullPath_slash (some' : p ≠ []) (cwd q : Str) :
    fullPath cwd (p ++ 0x2f :: q) = fullPath cwd p ++ 0x2f :: q := by
  obtain ⟨c, cs, rfl⟩ := List.exists_cons_of_ne_nil some'
  unfold fullPath
  rw [List.cons_append, List.head?_cons, List.head?_cons]
  split
  · rfl
  · simp

theorem fullPath_relative (relative : q.head? ≠ some 0x2f) (cwd : Str) :
    fullPath cwd q = cwd ++ 0x2f :: q := by
  rw [fullPath, if_neg relative]
  simp

theorem walkIn_components (comps : ∀ c ∈ segs, Component c) (room : segs.length ≤ segsMax) :
    walkIn segsMax (segs.map move) [] = some segs.reverse := by
  have stack : canonSegs segs [] = some ([].reverse ++ segs) :=
    canonSegs_components comps (by simpa using room)
  rw [canonSegs_walkIn] at stack
  obtain ⟨st, ran, same⟩ := Option.map_eq_some_iff.mp stack
  rw [ran, ← List.reverse_reverse st, same]
  rfl

theorem pathCanon_form (canon : pathCanon cwd p = some (some r)) :
    ∃ segs, r = canonPath segs ∧ (∀ c ∈ segs, Component c) ∧ segs.length ≤ segsMax ∧
      walkIn segsMax ((pieces [0x2f] (fullPath cwd p)).map move) [] = some segs.reverse := by
  obtain ⟨segs, stack, same, comps⟩ := pathCanon_stack canon
  refine ⟨segs, Option.some.inj same, comps, canonSegs_length stack (Nat.zero_le _), ?_⟩
  rw [canonSegs_walkIn, tokens_eq_pieces] at stack
  obtain ⟨st, ran, rfl⟩ := Option.map_eq_some_iff.mp stack
  rw [ran, List.reverse_reverse]

/-- The stack is the same whether the canonical form of a path or the path itself is gone
    through before a relative one. -/
theorem pathCanon_after (canon : pathCanon cwd p = some (some r)) (some' : p ≠ [])
    (relative : q.head? ≠ some 0x2f) :
    pathCanon r q = pathCanon cwd (p ++ 0x2f :: q) := by
  obtain ⟨segs, rfl, comps, few, walked⟩ := pathCanon_form canon
  have split : pieces [0x2f] (canonPath segs) = segs := by
    rw [← tokens_eq_pieces]
    exact tokens_canonPath fun c member => (comps c member).1
  rw [pathCanon_walkIn, pathCanon_walkIn, fullPath_relative relative, fullPath_slash some',
    pieces_slash, pieces_slash,
    List.map_append, List.map_append, walkIn_append, walkIn_append, split,
    walkIn_components comps few, walked]

theorem pathCanon_fails (fails : pathCanon cwd p = none) (some' : p ≠ []) (q : Str) :
    pathCanon cwd (p ++ 0x2f :: q) = none := by
  rw [pathCanon_walkIn, Option.map_eq_none_iff] at fails
  rw [pathCanon_walkIn, fullPath_slash some', pieces_slash, List.map_append, walkIn_append, fails]
  rfl

theorem pathCanon_idle (canon : pathCanon cwd p = some (some r)) (c : Str) :
    pathCanon c r = some (some r) := by
  obtain ⟨segs, rfl, comps, few, -⟩ := pathCanon_form canon
  exact pathCanon_canonical c comps few

end Walk

/-! ## Sequences of `chdir` -/

/-- Successful calls, with anything between them that leaves the working directory alone. -/
inductive Chdirs (v : Files) : Cwd → List Str → Cwd → Prop
  | nil (d : Cwd) : Chdirs v d [] d
  | cons {s t : InodeCache.State} {news : Nat → Nat} {d d' e : Cwd} {p : Str} {ps : List Str}
      (ran : fsysChdir v s news d (some p) = some (t, d', 0)) (rest : Chdirs v d' ps e) :
        Chdirs v d (p :: ps) e

section Chdir
variable {v : Files} {d d' e : Cwd} {p : Str} {ps : List Str}

theorem chdir_stores {s t : InodeCache.State} {news : Nat → Nat}
    (ran : fsysChdir v s news d (some p) = some (t, d', 0)) :
    pathCanon d.cdirname p = some (some d'.cdirname) := by
  simp only [fsysChdir, Option.bind_eq_bind, Option.bind_eq_some_iff, Option.pure_def] at ran
  obtain ⟨r, canon, pth, rfl, ⟨u, found⟩, -, ran⟩ := ran
  cases found with
  | none =>
    simp only [Option.some.injEq, Prod.mk.injEq] at ran
    exact absurd ran.2.2 (by decide)
  | some q =>
    simp only at ran
    split at ran
    · obtain ⟨w, -, ran⟩ := Option.bind_eq_some_iff.mp ran
      simp only [Option.some.injEq, Prod.mk.injEq] at ran
      obtain ⟨-, rfl, -⟩ := ran
      exact canon
    · simp only [Option.some.injEq, Prod.mk.injEq] at ran
      exact absurd ran.2.2 (by decide)

theorem chdirs_store (relative : ∀ q ∈ ps, q.head? ≠ some 0x2f) {cwd : Str} (some' : p ≠ [])
    (canon : pathCanon cwd p = some (some d.cdirname)) (run : Chdirs v d ps e) :
    pathCanon cwd ([0x2f].intercalate (p :: ps)) = some (some e.cdirname) := by
  induction run generalizing p with
  | nil d => simpa using canon
  | @cons s t news d d' e q ps ran rest ih =>
    have next := pathCanon_after canon some' (relative q List.mem_cons_self)
    rw [chdir_stores ran] at next
    have joined : [0x2f].intercalate (p :: q :: ps) =
        [0x2f].intercalate ((p ++ 0x2f :: q) :: ps) := by
      cases ps <;> simp [List.intercalate]
    rw [joined]
    exact ih (fun q' member => relative q' (List.mem_cons_of_mem _ member)) (by simp) next.symm

end Chdir

/-- Going on from a canonical form is going on from its path, canonical forms stay as they are,
    and successful changes by relative paths add up. -/
theorem canon_composes {cwd p q : Str} (some' : p ≠ []) (relative : q.head? ≠ some 0x2f) :
    ((do
        let r ← ← pathCanon cwd p
        pathCanon r q) = pathCanon cwd (p ++ 0x2f :: q)) ∧
    (∀ c r, pathCanon cwd p = some (some r) → pathCanon c r = some (some r)) ∧
    ∀ v d ps e, d.cdirname = cwd → (∀ q' ∈ ps, q'.head? ≠ some 0x2f) → p.head? ≠ some 0x2f →
      Chdirs v d (p :: ps) e → pathCanon cwd ([0x2f].intercalate (p :: ps)) = some
      (some e.cdirname) := by
  refine ⟨?_, fun c r canon => pathCanon_idle canon c, ?_⟩
  · cases first : pathCanon cwd p with
    | none => rw [pathCanon_fails first some' q]; rfl
    | some o =>
      obtain ⟨segs, -, rfl, -⟩ := pathCanon_stack first
      exact pathCanon_after first some' relative
  · rintro v d ps e rfl later - (_ | ⟨ran, rest⟩)
    exact chdirs_store later some' (chdir_stores ran) rest

theorem canon_composes_up : (do
      let r ← ← pathCanon [0x2f, 0x61] [0x2e, 0x2e]
      pathCanon r [0x62]) = some (some [0x2f, 0x62]) := by
  rw [(canon_composes (by decide) (by decide)).1]
  decide

/-! ## The array of segments -/

def storeIndices : List Str → Nat → List Nat
  | [], _ => []
  | tok :: toks, top =>
    if tok = [0x2e] then storeIndices toks top
    else if tok = [0x2e, 0x2e] then storeIndices toks (top - 1)
    else top :: storeIndices toks (top + 1)

/-- `path_canon` stores segment pointers inside its array only. -/
def StoresInside (cwd path : Str) : Prop :=
  ∀ i ∈ storeIndices (tokens [0x2f] (fullPath cwd path)) 0, i < segsMax

instance (cwd path : Str) : Decidable (StoresInside cwd path) :=
  inferInstanceAs (Decidable (∀ _ ∈ _, _))

def kept (toks : List Str) : Nat := toks.countP fun tok => tok ≠ [0x2e] ∧ tok ≠ [0x2e, 0x2e]
def backs (toks : List Str) : Nat := toks.count [0x2e, 0x2e]

section Depth
variable {toks segs : List Str}

theorem storeIndices_walkIn (toks segs : List Str) :
    (∀ i ∈ storeIndices toks segs.length, i < segsMax) ↔
    walkIn segsMax (toks.map move) segs ≠ none := by
  induction toks generalizing segs with
  | nil => simp [storeIndices, walkIn]
  | cons tok toks ih =>
    rw [List.map_cons, move, storeIndices]
    split
    · exact ih segs
    · split
      · have shorter := ih segs.tail
        rw [List.length_tail] at shorter
        exact shorter
      · rw [walkIn, List.forall_mem_cons]
        split
        · next room => exact (and_iff_right room).trans (ih (tok :: segs))
        · next full => simp [full]

theorem gain_moves (toks : List Str) : gain (toks.map move) = (kept toks : Int) - backs toks := by
  induction toks with
  | nil => rfl
  | cons tok toks ih =>
    rw [List.map_cons, gain, ih]
    by_cases dot : tok = [0x2e]
    · simp [move, dot, Move.gain, kept, backs]
    · by_cases dots : tok = [0x2e, 0x2e]
      · simp [move, dots, Move.gain, kept, backs]
        omega
      · simp [move, dot, dots, Move.gain, kept, backs]
        omega

theorem storesInside_iff_windows (cwd path : Str) : StoresInside cwd path ↔
    ∀ w, w <:+: pieces [0x2f] (fullPath cwd path) → kept w ≤ segsMax + backs w := by
  have walked := storeIndices_walkIn (tokens [0x2f] (fullPath cwd path)) []
  have shallow : walkIn segsMax ((tokens [0x2f] (fullPath cwd path)).map move) [] ≠ none ↔
      Shallow segsMax ((tokens [0x2f] (fullPath cwd path)).map move) [] := by
    rw [Option.ne_none_iff_exists']
    simp [walkIn_eq]
  rw [StoresInside, ← List.length_nil, walked, shallow, shallow_iff_windows, tokens_eq_pieces]
  constructor
  · intro windows w inside
    have most := windows (w.map move) (inside.map move)
    rw [gain_moves] at most
    omega
  · intro windows w inside
    obtain ⟨toks, inside', rfl⟩ := List.infix_map_iff.mp inside
    have most := windows toks inside'
    rw [gain_moves]
    omega

theorem length_le_half_weight (toks : List Str) (some' : ∀ tok ∈ toks, tok ≠ []) :
    2 * toks.length ≤ weight toks := by
  induction toks with
  | nil => simp
  | cons tok toks ih =>
    have first := List.length_pos_iff.mpr (some' tok List.mem_cons_self)
    have rest := ih fun t member => some' t (List.mem_cons_of_mem _ member)
    rw [weight_cons, List.length_cons]
    omega

theorem pieces_length (s : Str) : 2 * (pieces [0x2f] s).length ≤ s.length + 1 := by
  rw [← tokens_eq_pieces]
  have size := tokens_weight s
  have half := length_le_half_weight (tokens [0x2f] s) fun tok member => (tokens_plain member).1
  omega

end Depth

/-- The array is enough exactly if no consecutive segments have 64 more names than `..`s; for an
    absolute path of the shell it always is. -/
theorem segments_inside_iff (cwd path : Str) :
    (StoresInside cwd path ↔ ∀ w, w <:+: pieces [0x2f] (fullPath cwd path) →
    kept w ≤ segsMax + backs w) ∧
    (path.head? = some 0x2f → path.length ≤ 124 → StoresInside cwd path) := by
  refine ⟨storesInside_iff_windows cwd path, ?_⟩
  intro absolute short
  rw [storesInside_iff_windows, fullPath, if_pos absolute]
  intro w inside
  have few := pieces_length path
  have less := inside.length_le
  have names : kept w ≤ w.length := List.countP_le_length
  simp only [segsMax]
  omega

/-- `/a/a`, and 62 times `a` with slashes between them. -/
theorem relative_path_overruns : ([0x2f, 0x61, 0x2f, 0x61] : Str).length ≤ 63 ∧
    ([0x2f].intercalate (List.replicate 62 [0x61]) : Str).length ≤ 124 ∧
    ¬ StoresInside [0x2f, 0x61, 0x2f, 0x61] ([0x2f].intercalate (List.replicate 62 [0x61])) := by
  decide +kernel

end Vfs
