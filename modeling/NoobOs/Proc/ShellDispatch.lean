import NoobOs.KLib.StringBuffers

/-!
One round of `shell` in `shell.c` after a line has been read into `buf`: the line is cut up
in place, the command is then looked up by the text at the start of the buffer. `none` is a
store outside `buf`.
-/
namespace ShellDispatch
open ByteMemory Strings

def nargs : Nat := 8
def space : Str := [0x20]

def cmds : List Str :=
  [ [0x68, 0x65, 0x6c, 0x70],             -- help
    [0x65, 0x78, 0x69, 0x74],             -- exit
    [0x72, 0x6d],                         -- rm
    [0x74, 0x6f, 0x75, 0x63, 0x68],       -- touch
    [0x63, 0x6c, 0x65, 0x61, 0x72],       -- clear
    [0x74, 0x69, 0x6d, 0x65],             -- time
    [0x62, 0x66],                         -- bf
    [0x6c, 0x73, 0x70, 0x63, 0x69],       -- lspci
    [0x6d, 0x6b, 0x64, 0x69, 0x72],       -- mkdir
    [0x63, 0x64],                         -- cd
    [0x63, 0x61, 0x74],                   -- cat
    [0x6d, 0x61, 0x6c, 0x6c],             -- mall
    [0x68],                               -- h
    [0x6d, 0x75, 0x73, 0x65, 0x64],       -- mused
    [0x69, 0x63, 0x61, 0x63, 0x68],       -- icach
    [0x69, 0x70, 0x75, 0x72, 0x67, 0x65], -- ipurge
    [0x6c, 0x73, 0x69, 0x72, 0x71],       -- lsirq
    [0x6c, 0x73],                         -- ls
    [0x73, 0x74, 0x61, 0x74],             -- stat
    [0x65, 0x6e, 0x74] ]                  -- ent

/-- The rounds that are left before `idx` reaches `NARGS`; `argv` as far as it has been set. -/
def argLoop (b : Area) : Nat → Mem → Option Nat → Option Nat → List Nat → Option (Mem × List Nat)
  | 0, m, _, _, argv => some (m, argv)
  | _ + 1, m, none, _, argv => some (m, argv)
  | n + 1, m, some tok, sv, argv => do
    let (m, tok', sv) ← strtokRAt b m none space sv
    argLoop b n m tok' sv (argv ++ [tok])

/-- An empty line, a call of `ftab[i]`, or the message that prints `argv[0]`, which is `none` when
    it was never set. -/
inductive Outcome where
  | nothing
  | run (i : Nat) (m : Mem) (argv : List Nat) (argc : Nat)
  | notFound (m : Mem) (argv0 : Option Nat)

def dispatch (buf : Nat) (m : Mem) (rd : Nat) : Option Outcome := do
  if rd = 0 then return .nothing
  let (m, tok, sv) ← strtokRAt ⟨buf, 128⟩ m (some buf) space none
  let (m, argv) ← argLoop ⟨buf, 128⟩ nargs m tok sv []
  match cmds.findIdx? fun cmd => strcmpAt m buf cmd = 0 with
  | some i => return .run i m argv argv.length
  | none => return .notFound m argv[0]?

/-- The words at the addresses of `argv`. -/
def WordsAt (m : Mem) (argv : List Nat) (ts : List Str) : Prop :=
  List.Forall₂ (fun a t => StrAt m a t) argv ts

/-- What a line should lead to: the command of its first word, with the words as arguments. -/
def Served (line : Str) : Outcome → Prop
  | .nothing => tokens space line = []
  | .run i m argv argc =>
    tokens space line ≠ [] ∧ cmds[i]? = (tokens space line).head? ∧
    WordsAt m argv ((tokens space line).take nargs) ∧ argc = min nargs (tokens space line).length
  | .notFound _ argv0 => (∀ t ∈ cmds, (tokens space line).head? ≠ some t) ∧ argv0 ≠ none

/-! ## The arguments -/

section Arguments
variable {b : Area} {m : Mem} {o : Nat} {t : Str} {ts : List Str} {sv : Option Nat}

theorem argLoop_none (n : Nat) (argv : List Nat) : argLoop b n m none sv argv = some (m, argv) := by
  cases n <;> rfl

theorem argLoop_some (n : Nat) (argv : List Nat) : argLoop b (n + 1) m (some o) sv argv =
    (strtokRAt b m sv space sv).bind fun r => argLoop b n r.1 r.2.1 r.2.2 (argv ++ [o]) := by
  rw [argLoop, strtokRAt_saved]
  rfl

/-- From a word that has been cut off on: the next words are found, up to the number that is left,
    and nothing up to the end of this one changes any more. -/
theorem argLoop_spec (small : b.size < 2 ^ 32) (n : Nat) (argv : List Nat) (word : StrAt m o t)
    (left : RestAt b m space (o + t.length + 1) sv ts) :
    ∃ m' os, argLoop b (n + 1) m (some o) sv argv = some (m', argv ++ o :: os) ∧
      WordsAt m' (o :: os) ((t :: ts).take (n + 1)) ∧ ∀ x < o + t.length + 1, m' x = m x := by
  induction n generalizing m o t ts sv argv with
  | zero =>
    cases ts with
    | nil =>
      refine ⟨m, [], ?_, .cons word .nil, fun _ _ => rfl⟩
      rw [argLoop_some, strtokRAt_done left small]
      rfl
    | cons t' ts =>
      obtain ⟨m', o', next, call, above, -, same, -⟩ := strtokRAt_next left small
      refine ⟨m', [], ?_, .cons ?_ .nil, fun x below => same x (Or.inl (by omega))⟩
      · rw [argLoop_some, call]
        rfl
      · exact word.moved fun i inside => same _ (Or.inl (by omega))
  | succ n ih =>
    cases ts with
    | nil =>
      refine ⟨m, [], ?_, .cons word .nil, fun _ _ => rfl⟩
      rw [argLoop_some, strtokRAt_done left small]
      rfl
    | cons t' ts =>
      obtain ⟨m', o', next, call, above, word', same, left'⟩ := strtokRAt_next left small
      obtain ⟨m'', os, loop, words, kept⟩ := ih (argv ++ [o]) word' left'
      have unchanged : ∀ x < o + t.length + 1, m'' x = m x := by
        intro x below
        rw [kept x (by omega), same x (Or.inl (by omega))]
      refine ⟨m'', o' :: os, ?_, .cons ?_ words, unchanged⟩
      · rw [argLoop_some, call, Option.bind_some, loop, List.append_assoc, List.singleton_append]
      · exact word.moved fun i inside => unchanged _ (by omega)

end Arguments

/-! ## One line -/

section Line
variable {line : Str} {m : Mem} {buf : Nat}

/-- A line as `kgets` leaves it in the buffer. -/
structure LineAt (m : Mem) (buf : Nat) (line : Str) : Prop where
  text : StrAt m buf line
  short : line.length ≤ 127

theorem LineAt.rest (here : LineAt m buf line) :
    RestAt ⟨buf, 128⟩ m space buf (some buf) (pieces space line) :=
  ⟨Nat.le_refl _, Nat.le_add_right _ _, line, here.text, rfl,
    Nat.le_refl _, by have := here.short; simp only; omega⟩

theorem buf_small (buf : Nat) : (Area.mk buf 128).size < 2 ^ 32 := by
  simp only
  decide

theorem pieces_plain {c : UInt8} {cs : Str} (plain : dlim space c = false) :
    pieces space (c :: cs) ≠ [] := by
  intro nothing
  rcases strtokR_pieces space (c :: cs) with ⟨-, call⟩ | ⟨t, ts, save, some', -⟩
  · have stops : List.dropWhile (dlim space) (c :: cs) = c :: cs :=
      List.dropWhile_cons_of_neg (by simp [plain])
    simp only [strtokR, Option.none_or, stops] at call
    split at call <;> cases call
  · rw [nothing] at some'
    cases some'

theorem front_text (here : StrAt m buf line) {m' : Mem} {t : Str}
    (word : StrAt m' (buf + (line.takeWhile (dlim space)).length) t)
    (same : ∀ x < buf + (line.takeWhile (dlim space)).length, m' x = m x) :
    StrAt m' buf (line.takeWhile (dlim space) ++ t) := by
  obtain ⟨ends, bytes⟩ := here
  rw [← List.takeWhile_append_dropWhile (p := dlim space) (l := line), List.append_assoc,
    bytesAt_append] at bytes
  refine ⟨?_, ?_⟩
  · intro zero
    rcases List.mem_append.mp zero with blank | letter
    · exact ends (List.takeWhile_subset _ blank)
    · exact word.1 letter
  · rw [List.append_assoc, bytesAt_append]
    refine ⟨bytes.1.moved fun i inside => same _ (by omega), word.2⟩

theorem cmds_text : ∀ cmd ∈ cmds, 0 ∉ cmd ∧ 0x20 ∉ cmd := by decide

theorem strcmp_command {text : Str} (here : StrAt m buf text) {cmd : Str} (known : cmd ∈ cmds) :
    strcmpAt m buf cmd = 0 ↔ text = cmd := by
  rw [strcmpAt_eq here (cmds_text cmd known).1, strcmp_eq_zero here.1 (cmds_text cmd known).1]

theorem dispatch_words (here : LineAt m buf line) {t : Str} {ts : List Str}
    (words : pieces space line = t :: ts) :
    ∃ m' o os, WordsAt m' (o :: os) ((t :: ts).take nargs) ∧
      StrAt m' buf (line.takeWhile (dlim space) ++ t) ∧
      dispatch buf m line.length =
        some (match cmds.findIdx? fun cmd => strcmpAt m' buf cmd = 0 with
          | some i => .run i m' (o :: os) (o :: os).length
          | none => .notFound m' (some o)) := by
  have short := here.short
  have rest := here.rest
  rw [words] at rest
  obtain ⟨m₁, o, sv, call, -, word, same, left⟩ := strtokRAt_next rest (buf_small buf)
  have start := strtokRAt_start call here.text (by omega)
  obtain ⟨m', os, loop, found, kept⟩ := argLoop_spec (buf_small buf) (nargs - 1) [] word left
  refine ⟨m', o, os, found, ?_, ?_⟩
  · subst start
    apply front_text here.text
    · exact word.moved fun i inside => kept _ (by omega)
    · intro x below
      rw [kept x (by omega), same x (Or.inl below)]
  · have some' : line.length ≠ 0 := by
      intro empty
      rw [List.length_eq_zero_iff.mp empty] at words
      cases words
    have loop' : argLoop ⟨buf, 128⟩ nargs m₁ (some o) sv [] = some (m', o :: os) := loop
    rw [dispatch, if_neg some', strtokRAt_fresh, call]
    simp only [Option.bind_eq_bind, Option.bind_some, loop']
    cases cmds.findIdx? fun cmd => strcmpAt m' buf cmd = 0 with
    | some i => rfl
    | none => rfl

theorem dispatch_blank (here : LineAt m buf line) (blank : pieces space line = [])
    (some' : line ≠ []) :
    dispatch buf m line.length =
      some (match cmds.findIdx? fun cmd => strcmpAt m buf cmd = 0 with
        | some i => .run i m [] 0
        | none => .notFound m none) := by
  have rest := here.rest
  rw [blank] at rest
  have none' : line.length ≠ 0 := fun empty => some' (List.length_eq_zero_iff.mp empty)
  rw [dispatch, if_neg none', strtokRAt_fresh, strtokRAt_done rest (buf_small buf)]
  simp only [Option.bind_eq_bind, Option.bind_some, argLoop_none]
  cases cmds.findIdx? fun cmd => strcmpAt m buf cmd = 0 with
  | some i => rfl
  | none => rfl

end Line

theorem lookup_some {m : Mem} {buf : Nat} {text : Str} (here : StrAt m buf text) {i : Nat}
    (found : cmds.findIdx? (fun cmd => strcmpAt m buf cmd = 0) = some i) :
    cmds[i]? = some text := by
  obtain ⟨inside, equal, -⟩ := List.findIdx?_eq_some_iff_getElem.mp found
  rw [decide_eq_true_eq, strcmp_command here (List.getElem_mem inside)] at equal
  rw [List.getElem?_eq_getElem inside, equal]

theorem lookup_none {m : Mem} {buf : Nat} {text : Str} (here : StrAt m buf text) :
    cmds.findIdx? (fun cmd => strcmpAt m buf cmd = 0) = none ↔ text ∉ cmds := by
  rw [List.findIdx?_eq_none_iff]
  constructor
  · intro differ known
    have unequal := differ text known
    rw [decide_eq_false_iff_not, strcmp_command here known] at unequal
    exact unequal rfl
  · intro unknown cmd known
    rw [decide_eq_false_iff_not, strcmp_command here known]
    rintro rfl
    exact unknown known

theorem served_not_found {line t : Str} {ts : List Str} (words : pieces space line = t :: ts)
    (m : Mem) (o : Nat) :
    Served line (.notFound m (some o)) ↔ t ∉ cmds := by
  simp only [Served, tokens_eq_pieces, words, List.head?_cons, ne_eq,
    Option.some.injEq, reduceCtorEq,
    not_false_eq_true, and_true]
  exact ⟨fun differ known => differ t known rfl, fun unknown cmd known same =>
    unknown (same ▸ known)⟩

section Served
variable {buf : Nat} {m : Mem} {line t : Str} {ts : List Str}

theorem blank_not_served (here : LineAt m buf line) (words : pieces space line = [])
    (some' : line ≠ []) :
    ¬ ∃ out, dispatch buf m line.length = some out ∧ Served line out := by
  rintro ⟨out, call, served⟩
  rw [dispatch_blank here words some'] at call
  obtain rfl := Option.some.inj call
  revert served
  cases cmds.findIdx? fun cmd => strcmpAt m buf cmd = 0 with
  | some i => exact fun served => absurd (by rw [tokens_eq_pieces, words]) served.1
  | none => exact fun served => absurd rfl served.2

theorem indented_served_iff (here : LineAt m buf line) (words : pieces space line = t :: ts)
    (indented : line.head? = some 0x20) :
    (∃ out, dispatch buf m line.length = some out ∧ Served line out) ↔ t ∉ cmds := by
  obtain ⟨m', o, os, -, front, call⟩ := dispatch_words here words
  have blank : line.takeWhile (dlim space) ++ t ∉ cmds := by
    intro known
    obtain ⟨cs, rfl⟩ := List.head?_eq_some_iff.mp indented
    exact (cmds_text _ known).2 (by simp [dlim, space])
  rw [(lookup_none front).mpr blank] at call
  constructor
  · rintro ⟨out, same, served⟩
    rw [call] at same
    obtain rfl := Option.some.inj same
    exact (served_not_found words m' o).mp served
  · intro unknown
    exact ⟨_, call, (served_not_found words m' o).mpr unknown⟩

theorem plain_served (here : LineAt m buf line) (words : pieces space line = t :: ts)
    (plain : line.head? ≠ some 0x20) :
    ∃ out, dispatch buf m line.length = some out ∧ Served line out := by
  obtain ⟨m', o, os, found, front, call⟩ := dispatch_words here words
  have size : (o :: os).length = min nargs (t :: ts).length := by
    rw [List.Forall₂.length_eq found, List.length_take]
  have none' : line.takeWhile (dlim space) = [] := by
    cases line with
    | nil => rfl
    | cons c cs =>
      apply List.takeWhile_cons_of_neg
      simpa [dlim, space] using plain
  rw [none', List.nil_append] at front
  refine ⟨_, call, ?_⟩
  cases lookup : cmds.findIdx? fun cmd => strcmpAt m' buf cmd = 0 with
  | none => exact (served_not_found words m' o).mpr ((lookup_none front).mp lookup)
  | some i =>
    simp only [Served, tokens_eq_pieces, words, List.head?_cons]
    exact ⟨by simp, lookup_some front lookup, found, size⟩

end Served

/-- The shell serves a line that does not begin with a blank, and otherwise one whose first word is
    no command. -/
theorem shell_dispatches_iff (buf : Nat) (m : Mem) (line : Str) (here : LineAt m buf line) :
    (∃ out, dispatch buf m line.length = some out ∧ Served line out) ↔
      line = [] ∨ line.head? ≠ some 0x20 ∨ ∃ t, (tokens space line).head? = some t ∧ t ∉ cmds := by
  cases words : pieces space line with
  | nil =>
    rw [tokens_eq_pieces, words]
    by_cases empty : line = []
    · subst empty
      exact ⟨fun _ => Or.inl rfl, fun _ => ⟨.nothing, rfl, rfl⟩⟩
    · refine iff_of_false (blank_not_served here words empty) ?_
      rintro (nothing | plain | ⟨t, first, -⟩)
      · exact empty nothing
      · obtain ⟨c, cs, rfl⟩ := List.exists_cons_of_ne_nil empty
        have other : dlim space c = false := by
          simpa [dlim, space] using plain
        exact pieces_plain other words
      · cases first
  | cons t ts =>
    by_cases indented : line.head? = some 0x20
    · have some' : line ≠ [] := by
        rintro rfl
        cases words
      rw [indented_served_iff here words indented, tokens_eq_pieces, words]
      simp [some', indented]
    · exact iff_of_true (plain_served here words indented) (Or.inr (Or.inl indented))

def lineMemory (line : Str) : Mem := storeBytes (fun _ => 0) 0 (line ++ [0])

theorem lineMemory_at {line : Str} (ends : 0 ∉ line) (short : line.length ≤ 127) :
    LineAt (lineMemory line) 0 line :=
  ⟨⟨ends, storeBytes_bytesAt _ _ _⟩, short⟩

theorem ls_served : ∃ out, dispatch 0 (lineMemory [0x6c, 0x73, 0x20, 0x2f]) 4 = some out ∧
    Served [0x6c, 0x73, 0x20, 0x2f] out :=
  (shell_dispatches_iff 0 _ [0x6c, 0x73, 0x20, 0x2f] (lineMemory_at (by decide) (by decide))).mpr
    (Or.inr (Or.inl (by decide)))

/-- A blank before `ls` and it is not found. -/
theorem indented_command_not_found :
    ¬ ∀ (buf : Nat) (m : Mem) (line : Str), LineAt m buf line →
      ∃ out, dispatch buf m line.length = some out ∧ Served line out := by
  intro right
  have here : LineAt (lineMemory [0x20, 0x6c, 0x73]) 0 [0x20, 0x6c, 0x73] :=
    lineMemory_at (by decide) (by decide)
  have words : pieces space [0x20, 0x6c, 0x73] = [[0x6c, 0x73]] := by decide
  obtain ⟨out, call, served⟩ := right _ _ _ here
  obtain ⟨m', o, os, -, front, call'⟩ := dispatch_words here words
  rw [(lookup_none front).mpr (by decide), call] at call'
  obtain rfl := Option.some.inj call'
  exact (served_not_found words m' o).mp served (by decide)

end ShellDispatch
