import NoobOs.KLib.StringBuffers

/-!
Several calls of `strtok_r` on one string, and `atoi`, on memory. A string that lies in an
area can be cut up within it, and whatever is being cut up around it does not notice.
-/
namespace Strings
open ByteMemory

/-- `n` calls with one saved pointer: what they return, null or not. -/
def callsAt (b : Area) (delim : Str) :
    Nat → Mem → Option Nat → Option (Mem × List (Option Nat) × Option Nat)
  | 0, m, save => some (m, [], save)
  | n + 1, m, save => do
    let (m, p, save) ← strtokRAt b m none delim save
    let (m, ps, save) ← callsAt b delim n m save
    return (m, p :: ps, save)

/-- `while (isdigit(*str))`. -/
def atoiDigitsAt (m : Mem) : Nat → Nat → UInt32 → Option UInt32
  | 0, _, _ => none
  | fuel + 1, a, res =>
    if isdigit (m a) then atoiDigitsAt m fuel (a + 1) (res * 10 + (m a - 48).toUInt32) else some res

def atoiAt (m : Mem) (a : Nat) : Option UInt32 := do
  let a ← scan m isspace a
  if m a = 0x2b then atoiDigitsAt m (2 ^ 32) (a + 1) 0
  else if m a = 0x2d then (atoiDigitsAt m (2 ^ 32) (a + 1) 0).map fun res => 0 - res
  else atoiDigitsAt m (2 ^ 32) a 0

/-- At most `n` bytes, up to the terminator. -/
def textAt (m : Mem) : Nat → Nat → Str
  | 0, _ => []
  | n + 1, a => if m a = 0 then [] else m a :: textAt m n (a + 1)

section Numbers
variable {m : Mem} {a : Nat} {s : Str}

theorem atoiDigitsAt_eq (here : StrAt m a s) (fuel : Nat) (enough : s.length < fuel)
    (res : UInt32) :
    atoiDigitsAt m fuel a res = some (atoiDigits s res) := by
  induction s generalizing a fuel res with
  | nil =>
    obtain ⟨fuel, rfl⟩ := Nat.exists_eq_succ_of_ne_zero (Nat.ne_of_gt enough)
    rw [atoiDigitsAt, here.empty, if_neg (by decide), atoiDigits]
  | cons c s ih =>
    obtain ⟨fuel, rfl⟩ := Nat.exists_eq_succ_of_ne_zero (Nat.ne_of_gt (Nat.zero_lt_of_lt enough))
    obtain ⟨first, -, later⟩ := here.first
    rw [atoiDigitsAt, atoiDigits, first]
    split
    · exact ih later fuel (by simpa using enough) _
    · rfl

theorem atoiAt_eq (here : StrAt m a s) (short : s.length < 2 ^ 32) :
    atoiAt m a = some (atoi s) := by
  obtain ⟨skipped, there⟩ := scan_spec isspace here short
  have length := List.length_dropWhile_le isspace s
  rw [atoiAt, skipped, Option.bind_eq_bind, Option.bind_some, atoi]
  generalize s.dropWhile isspace = t at there length
  cases t with
  | nil =>
    rw [there.empty, if_neg (by decide), if_neg (by decide), atoiDigitsAt_eq there _ (by simp)]
  | cons c t =>
    obtain ⟨first, -, later⟩ := there.first
    rw [List.length_cons] at length
    rw [first]
    by_cases plus : c = 0x2b
    · rw [if_pos plus, plus, atoiDigitsAt_eq later _ (by omega)]
      rfl
    · by_cases minus : c = 0x2d
      · rw [if_neg plus, if_pos minus, minus, atoiDigitsAt_eq later _ (by omega), Option.map_some]
        rfl
      · rw [if_neg plus, if_neg minus, atoiDigitsAt_eq there _ (by rw [List.length_cons]; omega)]
        split
        · next same => cases same; exact absurd rfl plus
        · next same => cases same; exact absurd rfl minus
        · rfl

theorem textAt_eq (here : StrAt m a s) (n : Nat) : textAt m n a = s.take n := by
  induction n generalizing a s with
  | zero => rfl
  | succ n ih =>
    cases s with
    | nil => rw [textAt, if_pos here.empty, List.take_nil]
    | cons c s =>
      obtain ⟨first, nonzero, later⟩ := here.first
      rw [textAt, first, if_neg nonzero, ih later, List.take_succ_cons]

end Numbers

section Tokens
variable {b b' : Area} {m m' : Mem} {delim s t : Str} {a o lim : Nat} {save rest : Option Nat}
  {ts : List Str}

structure TokenAt (b : Area) (m : Mem) (o : Nat) (t : Str) : Prop where
  text : StrAt m o t
  low : b.start ≤ o
  high : o + t.length < b.start + b.size

def areaOf (o : Nat) (t : Str) : Area := ⟨o, t.length + 1⟩

theorem strtokRAt_mono (within : ∀ x, b'.Has x → b.Has x) {str : Option Nat}
    {r : Mem × Option Nat × Option Nat}
    (call : strtokRAt b' m str delim save = some r) : strtokRAt b m str delim save = some r := by
  unfold strtokRAt at call ⊢
  split at call
  · exact call
  · obtain ⟨start, skipped, call⟩ := Option.bind_eq_some_iff.mp call
    simp only [skipped, Option.bind_eq_bind, Option.bind_some]
    split at call
    · next empty => rw [if_pos empty, call]
    · next some' =>
      rw [if_neg some']
      obtain ⟨stop, passed, call⟩ := Option.bind_eq_some_iff.mp call
      simp only [passed, Option.bind_some]
      split at call
      · next ended => rw [if_pos ended, call]
      · next more =>
        rw [if_neg more]
        obtain ⟨m'', stored, call⟩ := Option.bind_eq_some_iff.mp call
        unfold storeIn at stored ⊢
        split at stored
        · next inside =>
          rw [if_pos (within _ inside), stored]
          exact call
        · cases stored

theorem callsAt_mono (within : ∀ x, b'.Has x → b.Has x) {n : Nat}
    {r : Mem × List (Option Nat) × Option Nat}
    (calls : callsAt b' delim n m save = some r) : callsAt b delim n m save = some r := by
  induction n generalizing m save r with
  | zero => exact calls
  | succ n ih =>
    obtain ⟨⟨m₁, p, save₁⟩, first, others⟩ := Option.bind_eq_some_iff.mp calls
    obtain ⟨⟨m₂, ps, save₂⟩, later, result⟩ := Option.bind_eq_some_iff.mp others
    simp only [callsAt, strtokRAt_mono within first, Option.bind_eq_bind,
      Option.bind_some, ih later]
    exact result

theorem RestAt.moved (left : RestAt b m delim lim rest ts) (same : ∀ x, lim ≤ x → m' x = m x) :
    RestAt b m' delim lim rest ts := by
  obtain ⟨low, high, left⟩ := left
  refine ⟨low, high, ?_⟩
  cases rest with
  | none => exact left
  | some a =>
    obtain ⟨s, here, split, above, inside⟩ := left
    exact ⟨s, here.moved fun i _ => same _ (by omega), split, above, inside⟩

theorem strtokRAt_token (small : b.size < 2 ^ 32) (left : RestAt b m delim lim rest ts) :
    (ts = [] ∧ strtokRAt b m rest delim rest = some (m, none, none)) ∨
    ∃ t ts' m' o rest', ts = t :: ts' ∧ strtokRAt b m rest delim rest = some (m', some o, rest') ∧
    TokenAt b m' o t ∧
      (∀ x, ¬ b.Has x → m' x = m x) ∧ RestAt b m' delim (o + t.length + 1) rest' ts' := by
  cases ts with
  | nil => exact Or.inl ⟨rfl, strtokRAt_done left small⟩
  | cons t ts =>
    obtain ⟨m', o, rest', call, above, text, same, left'⟩ := strtokRAt_next left small
    have low := left.1
    have high := left'.2.1
    exact Or.inr ⟨t, ts, m', o, rest', rfl, call, ⟨text, by omega, by omega⟩,
      fun x far => same x (Or.inr far), left'⟩

/-- What `n` calls return: pointers to the first tokens, and null from then on. -/
theorem callsAt_spec (small : b.size < 2 ^ 32) (n : Nat) (left : RestAt b m delim lim save ts) :
    ∃ m' ps save', callsAt b delim n m save = some (m', ps, save') ∧
      List.Forall₂ (Option.Rel (TokenAt b m')) ps ((List.range n).map fun i => ts[i]?) ∧
      (∀ x, x < lim ∨ ¬ b.Has x → m' x = m x) ∧ ∃ lim', lim ≤ lim' ∧
      RestAt b m' delim lim' save' (ts.drop n) := by
  induction n generalizing m lim save ts with
  | zero => exact ⟨m, [], save, rfl, .nil, fun _ _ => rfl, lim, Nat.le_refl _, left⟩
  | succ n ih =>
    rw [List.range_succ_eq_map, List.map_cons, List.map_map]
    cases ts with
    | nil =>
      have done : RestAt b m delim lim none [] := ⟨left.1, left.2.1, rfl⟩
      obtain ⟨m', ps, save', calls, tokens, same, lim', above, left'⟩ := ih done
      refine ⟨m', none :: ps, save', ?_, .cons .none tokens, same, lim',
        above, by simpa using left'⟩
      simp only [callsAt, strtokRAt_saved, strtokRAt_done left small, Option.bind_eq_bind,
        Option.bind_some, calls]
      rfl
    | cons t ts =>
      obtain ⟨m₁, o, save₁, call, above, token, same, left'⟩ := strtokRAt_next left small
      obtain ⟨m', ps, save', calls, tokens, same', lim', above', left''⟩ := ih left'
      have bound := left'.2.1
      have low := left.1
      refine ⟨m', some o :: ps, save', ?_, .cons (.some ⟨?_, by omega, by omega⟩) tokens, ?_,
        lim', by omega, left''⟩
      · simp only [callsAt, strtokRAt_saved, call, Option.bind_eq_bind, Option.bind_some, calls]
        rfl
      · exact token.moved fun i inside => same' _ (Or.inl (by omega))
      · intro x apart
        exact (same' x (apart.imp_left fun below => by omega)).trans
          (same x (apart.imp_left fun below => by omega))

end Tokens

end Strings
