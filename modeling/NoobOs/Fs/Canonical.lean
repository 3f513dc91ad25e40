import NoobOs.Fs.Path

/-!
Canonical paths: what `path_canon` builds, and what `strtok_r` and the slash count of the
walk make of them again.
-/
namespace Vfs
open Strings

def Component (c : Str) : Prop := (c ≠ [] ∧ 0x2f ∉ c) ∧ c ≠ [0x2e] ∧ c ≠ [0x2e, 0x2e]

instance (c : Str) : Decidable (Component c) := inferInstanceAs (Decidable (_ ∧ _))

/-- `/` for the root, else each component after its slash. -/
def canonPath : List Str → Str
  | [] => [0x2f]
  | c :: cs => (c :: cs).flatMap fun d => 0x2f :: d

section Split
variable {s t : Str} {cs : List Str}

def weight (cs : List Str) : Nat := (cs.map fun c => c.length + 1).sum

theorem weight_cons (c : Str) (cs : List Str) : weight (c :: cs) = c.length + 1 + weight cs := by
  simp [weight]

theorem weight_append (as bs : List Str) : weight (as ++ bs) = weight as + weight bs := by
  simp [weight]

theorem weight_split (p : UInt8 → Bool) (s : Str) : weight (s.splitOnP p) = s.length + 1 := by
  induction s with
  | nil => rfl
  | cons c s ih =>
    obtain ⟨first, others, shape⟩ := List.exists_cons_of_ne_nil (List.splitOnP_ne_nil p s)
    rw [shape] at ih
    rw [List.splitOnP_cons_eq_if_modifyHead, shape]
    split
    · rw [weight_cons, ih]
      simp only [List.length_nil, List.length_cons]
      omega
    · rw [List.modifyHead_cons, weight_cons, List.length_cons, List.length_cons]
      rw [weight_cons] at ih
      omega

theorem weight_filter (p : Str → Bool) (cs : List Str) : weight (cs.filter p) ≤ weight cs := by
  induction cs with
  | nil => exact Nat.le_refl _
  | cons c cs ih =>
    rw [List.filter_cons, weight_cons]
    split
    · rw [weight_cons]
      omega
    · omega

theorem tokens_weight (s : Str) : weight (tokens [0x2f] s) ≤ s.length + 1 := by
  rw [tokens_eq_pieces, pieces, ← weight_split (dlim [0x2f]) s]
  exact weight_filter _ _

theorem dlim_slash (c : UInt8) : dlim [0x2f] c = true ↔ c = 0x2f := by
  simp [dlim]

theorem tokens_plain (member : t ∈ tokens [0x2f] s) : t ≠ [] ∧ 0x2f ∉ t := by
  rw [tokens_eq_pieces, pieces, List.mem_filter] at member
  refine ⟨by simpa using member.2, ?_⟩
  intro inside
  have plain := (mem_of_mem_piece member.1 inside).2
  rw [(dlim_slash _).mpr rfl] at plain
  cases plain

theorem pieces_flatMap (plain : ∀ c ∈ cs, c ≠ [] ∧ 0x2f ∉ c) :
    pieces [0x2f] (cs.flatMap fun c => 0x2f :: c) = cs := by
  induction cs with
  | nil => rfl
  | cons c cs ih =>
    obtain ⟨nonempty, slashless⟩ := plain c List.mem_cons_self
    have rest := ih fun d member => plain d (List.mem_cons_of_mem _ member)
    have letters : ∀ x ∈ c, dlim [0x2f] x = false := by
      intro x member
      rw [Bool.eq_false_iff, ne_eq, dlim_slash]
      rintro rfl
      exact slashless member
    rw [List.flatMap_cons, List.cons_append, pieces_skip ((dlim_slash _).mpr rfl)]
    cases cs with
    | nil =>
      rw [List.flatMap_nil, List.append_nil, pieces, List.splitOnP_eq_singleton letters]
      simp [nonempty]
    | cons d ds =>
      rw [List.flatMap_cons, List.cons_append] at rest ⊢
      rw [pieces_skip ((dlim_slash _).mpr rfl)] at rest
      rw [pieces, List.splitOnP_append_cons_of_forall_mem letters _ ((dlim_slash _).mpr rfl),
        List.filter_cons_of_pos (by simpa using nonempty)]
      exact congrArg (c :: ·) rest

theorem tokens_canonPath (plain : ∀ c ∈ cs, c ≠ [] ∧ 0x2f ∉ c) :
    tokens [0x2f] (canonPath cs) = cs := by
  rw [tokens_eq_pieces]
  cases cs with
  | nil => rfl
  | cons c cs => exact pieces_flatMap plain

theorem count_flatMap (plain : ∀ c ∈ cs, 0x2f ∉ c) :
    (cs.flatMap fun c => 0x2f :: c).count 0x2f = cs.length := by
  induction cs with
  | nil => rfl
  | cons c cs ih =>
    have rest := ih fun d member => plain d (List.mem_cons_of_mem _ member)
    rw [List.flatMap_cons, List.cons_append, List.count_cons_self, List.count_append, rest,
      List.count_eq_zero.mpr (plain c List.mem_cons_self), List.length_cons]
    omega

theorem count_canonPath (plain : ∀ c ∈ cs, 0x2f ∉ c) :
    (canonPath cs).count 0x2f = max 1 cs.length := by
  cases cs with
  | nil => rfl
  | cons c cs =>
    have count := count_flatMap plain
    simp only [canonPath, count, List.length_cons]
    omega

theorem canonPath_length (cs : List Str) (nonempty : cs ≠ []) :
    (canonPath cs).length = weight cs := by
  cases cs with
  | nil => exact absurd rfl nonempty
  | cons c cs =>
    rw [weight_cons]
    simp only [canonPath, weight, List.length_flatMap, List.map_cons, List.sum_cons,
      List.length_cons]

end Split

/-! ## `path_canon` -/

section Canon
variable {toks segs result : List Str}

theorem canonSegs_spec (ran : canonSegs toks segs = some result) :
    (∀ c ∈ result, c ∈ segs ∨ (c ∈ toks ∧ c ≠ [0x2e] ∧ c ≠ [0x2e, 0x2e])) ∧
      weight result ≤ weight segs + weight toks := by
  induction toks generalizing segs with
  | nil =>
    obtain rfl := Option.some.inj ran
    refine ⟨fun c member => Or.inl (by simpa using member), ?_⟩
    simp [weight]
  | cons tok toks ih =>
    rw [weight_cons]
    unfold canonSegs at ran
    split at ran
    · obtain ⟨kept, bound⟩ := ih ran
      refine ⟨fun c member => ?_, by omega⟩
      exact (kept c member).imp id fun later => ⟨List.mem_cons_of_mem _ later.1, later.2⟩
    · split at ran
      · obtain ⟨kept, bound⟩ := ih ran
        refine ⟨fun c member => ?_, ?_⟩
        · exact (kept c member).imp List.mem_of_mem_tail fun later =>
            ⟨List.mem_cons_of_mem _ later.1, later.2⟩
        · have shorter : weight segs.tail ≤ weight segs := by
            cases segs with
            | nil => exact Nat.le_refl _
            | cons c cs =>
              rw [weight_cons, List.tail_cons]
              omega
          omega
      · split at ran
        · next dot dots room =>
          obtain ⟨kept, bound⟩ := ih ran
          rw [weight_cons] at bound
          refine ⟨fun c member => ?_, by omega⟩
          rcases kept c member with here | later
          · rcases List.mem_cons.mp here with rfl | before
            · exact Or.inr ⟨List.mem_cons_self, dot, dots⟩
            · exact Or.inl before
          · exact Or.inr ⟨List.mem_cons_of_mem _ later.1, later.2⟩
        · cases ran

/-- With room for the whole path the joining loop never gives up. -/
theorem canonJoin_eq (n : Nat) (segs : List Str) (nonempty : segs ≠ []) (buf : Str)
    (room : buf.length + weight segs < n) :
    canonJoin n segs (buf ++ [0x2f]) = some (buf ++ segs.flatMap fun c => 0x2f :: c) := by
  induction segs generalizing buf with
  | nil => exact absurd rfl nonempty
  | cons seg segs ih =>
    rw [weight_cons] at room
    have fits : ¬ n < (buf ++ [0x2f]).length + seg.length + 1 := by
      simp only [List.length_append, List.length_cons, List.length_nil]
      omega
    unfold canonJoin
    rw [if_neg fits]
    by_cases last : segs = []
    · simp [last]
    · rw [if_neg last, ih last (buf ++ [0x2f] ++ seg)]
      · simp
      · simp only [List.length_append, List.length_cons, List.length_nil]
        omega

def fullPath (cwd path : Str) : Str :=
  if path.head? = some 0x2f then path else cwd ++ [0x2f] ++ path

theorem fullPath_length (cwd path : Str) :
    (fullPath cwd path).length ≤ path.length + cwd.length + 1 := by
  unfold fullPath
  split
  · omega
  · simp only [List.length_append, List.length_cons, List.length_nil]
    omega

theorem canonJoin_stack {cwd path : Str} {segs : List Str}
    (stack : canonSegs (tokens [0x2f] (fullPath cwd path)) [] = some segs) :
    canonJoin (path.length + cwd.length + 10) segs [0x2f] = some (canonPath segs) := by
  obtain ⟨-, bound⟩ := canonSegs_spec stack
  have size := tokens_weight (fullPath cwd path)
  have length := fullPath_length cwd path
  cases segs with
  | nil => rfl
  | cons seg segs =>
    apply canonJoin_eq _ _ (by simp) []
    simp only [List.length_nil, weight, List.map_nil, List.sum_nil] at bound size ⊢
    omega

theorem pathCanon_eq {cwd path : Str} {segs : List Str}
    (stack : canonSegs (tokens [0x2f] (fullPath cwd path)) [] = some segs) :
    pathCanon cwd path = some (some (canonPath segs)) ∧ ∀ c ∈ segs, Component c := by
  obtain ⟨kept, -⟩ := canonSegs_spec stack
  constructor
  · change (canonSegs (tokens [0x2f] (fullPath cwd path)) []).bind _ = _
    rw [stack, Option.bind_some, canonJoin_stack stack]
    rfl
  · intro c member
    rcases kept c member with none' | ⟨token, named⟩
    · cases none'
    · exact ⟨tokens_plain token, named⟩

theorem pathCanon_stack {cwd path : Str} {r : Option Str} (ran : pathCanon cwd path = some r) :
    ∃ segs, canonSegs (tokens [0x2f] (fullPath cwd path)) [] = some segs ∧
    r = some (canonPath segs) ∧
      ∀ c ∈ segs, Component c := by
  obtain ⟨segs, stack, _⟩ : ∃ segs, canonSegs (tokens [0x2f] (fullPath cwd path)) [] =
      some segs ∧ _ :=
    Option.bind_eq_some_iff.mp ran
  obtain ⟨ran', comps⟩ := pathCanon_eq stack
  exact ⟨segs, stack, Option.some.inj (ran.symm.trans ran'), comps⟩

theorem canonSegs_length (ran : canonSegs toks segs = some result) (bound : segs.length ≤ segsMax) :
    result.length ≤ segsMax := by
  induction toks generalizing segs with
  | nil =>
    obtain rfl := Option.some.inj ran
    simpa using bound
  | cons tok toks ih =>
    unfold canonSegs at ran
    split at ran
    · exact ih ran bound
    · split at ran
      · apply ih ran
        rw [List.length_tail]
        omega
      · split at ran
        next room =>
          apply ih ran
          rw [List.length_cons]
          omega
        next => cases ran

theorem canonSegs_components (comps : ∀ c ∈ toks, Component c)
    (room : segs.length + toks.length ≤ segsMax) :
    canonSegs toks segs = some (segs.reverse ++ toks) := by
  induction toks generalizing segs with
  | nil => simp [canonSegs]
  | cons tok toks ih =>
    obtain ⟨_, dot, dots⟩ := comps tok List.mem_cons_self
    rw [List.length_cons] at room
    have less : segs.length < segsMax := by omega
    rw [canonSegs, if_neg dot, if_neg dots, if_pos less,
      ih (fun c member => comps c (List.mem_cons_of_mem _ member))
      (by rw [List.length_cons]; omega)]
    simp

theorem canonPath_head (cs : List Str) : (canonPath cs).head? = some 0x2f := by
  cases cs <;> rfl

theorem pathCanon_canonical (cwd : Str) {cs : List Str} (comps : ∀ c ∈ cs, Component c)
    (room : cs.length ≤ segsMax) :
    pathCanon cwd (canonPath cs) = some (some (canonPath cs)) := by
  have full : fullPath cwd (canonPath cs) = canonPath cs := if_pos (canonPath_head cs)
  have split : tokens [0x2f] (fullPath cwd (canonPath cs)) = cs := by
    rw [full]
    exact tokens_canonPath fun c member => (comps c member).1
  have stack : canonSegs (tokens [0x2f] (fullPath cwd (canonPath cs))) [] = some cs := by
    rw [split]
    exact canonSegs_components comps (by simpa using room)
  exact (pathCanon_eq stack).1

theorem canonPath_snoc (init : List Str) (last : Str) :
    canonPath (init ++ [last]) = (init.flatMap fun c => 0x2f :: c) ++ 0x2f :: last := by
  cases init with
  | nil => simp [canonPath]
  | cons c cs => simp [canonPath]

theorem canonPath_parent (init : List Str) :
    (if (init.flatMap fun c => 0x2f :: c) = [] then [0x2f] else init.flatMap fun c => 0x2f :: c) =
      canonPath init := by
  cases init with
  | nil => rfl
  | cons c cs =>
    rw [if_neg (by simp)]
    rfl

theorem length_le_weight (cs : List Str) : cs.length ≤ weight cs := by
  induction cs with
  | nil => simp
  | cons c cs ih =>
    rw [weight_cons, List.length_cons]
    omega

theorem canonSegs_weight {cwd path : Str} {segs : List Str}
    (stack : canonSegs (tokens [0x2f] (fullPath cwd path)) [] = some segs) :
    weight segs ≤ path.length + cwd.length + 2 := by
  have bound := (canonSegs_spec stack).2
  have size := tokens_weight (fullPath cwd path)
  have length := fullPath_length cwd path
  simp only [weight, List.map_nil, List.sum_nil] at bound size ⊢
  omega

theorem canonPath_le_weight (cs : List Str) : (canonPath cs).length ≤ weight cs + 1 := by
  cases cs with
  | nil => simp [canonPath]
  | cons c cs =>
    rw [canonPath_length _ (by simp)]
    omega

theorem length_le_canonPath (cs : List Str) : cs.length ≤ (canonPath cs).length := by
  cases cs with
  | nil => simp
  | cons c cs =>
    rw [canonPath_length _ (by simp)]
    exact length_le_weight _

end Canon

end Vfs
