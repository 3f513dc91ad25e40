import NoobOs.KLib.StringBuffers
import NoobOs.Lib.EntryChain
import Mathlib.Data.List.GetD

/-!
The table of `smbios.c`: structures one behind the other, each a formatted area and its strings.
`none` is a loop that runs through all addresses.
-/
namespace Smbios
open ByteMemory EntryChain Strings

/-- `while (strtab[i - 1] != 0 || strtab[i] != 0) i++`. -/
def pairFrom (m : Mem) (strtab : Nat) : Nat → Nat → Option Nat
  | 0, _ => none
  | fuel + 1, i =>
    if m (strtab + (i - 1)) ≠ 0 ∨ m (strtab + i) ≠ 0 then pairFrom m strtab fuel (i + 1) else some i

/-- `hd->len` is the second byte. -/
def smbiosHeadlen (m : Mem) (hd : Nat) : Option Nat := do
  let len := (m (hd + 1)).toNat
  let i ← pairFrom m (hd + len) (2 ^ 32) 1
  return len + i + 1

/-- `while (idx) strtab += strlen(strtab) + 1, idx--`. -/
def skipStrings (m : Mem) : Nat → Nat → Option Nat
  | 0, strtab => some strtab
  | idx + 1, strtab => do
    let l ← strlenAt m strtab
    skipStrings m idx (strtab + l + 1)

def getstr (m : Mem) (c : Nat) (idx : UInt32) : Option Nat :=
  skipStrings m (idx - 1).toNat (c + (m (c + 1)).toNat)

def GoesOn (m : Mem) (cur : Nat) : Prop := m cur ≠ 127

instance (m : Mem) : DecidablePred (GoesOn m) := fun _ => inferInstanceAs (Decidable (_ ≠ _))

def nextStructure (m : Mem) (cur : Nat) : Option Nat := (smbiosHeadlen m cur).map (cur + ·)

/-- The structures that the loop goes through, and the one it stops at. -/
def printSmbinfo (m : Mem) (start : Nat) : Option (List Nat × Nat) :=
  walk (GoesOn m) (nextStructure m) (fun cur seen => some (seen ++ [cur])) (2 ^ 32) start []

/-- A well-formed structure: at least two bytes behind its type and length, and strings that are
    neither empty nor contain a zero. -/
structure Record where
  typ : UInt8
  body : List UInt8
  strings : List Str
  sized : 2 ≤ body.length ∧ body.length + 2 ≤ 255
  plain : ∀ t ∈ strings, t ≠ [] ∧ 0 ∉ t

def terminated (ts : List Str) : List UInt8 := ts.flatMap (· ++ [0])

def stringSet (ts : List Str) : List UInt8 := if ts = [] then [0, 0] else terminated ts ++ [0]

def Record.bytes (r : Record) : List UInt8 :=
  r.typ :: UInt8.ofNat (r.body.length + 2) :: r.body ++ stringSet r.strings

def Record.size (r : Record) : Nat := r.bytes.length

def layout (rs : List Record) : List UInt8 := rs.flatMap Record.bytes

def starts : Nat → List Record → List Nat
  | _, [] => []
  | a, r :: rs => a :: starts (a + r.size) rs

/-! ## The strings of one structure -/

section Strings
variable {m : Mem} {a e n fuel : Nat} {ts : List Str}

theorem pairFrom_spec (goes : ∀ i, n ≤ i → i < e → m (a + (i - 1)) ≠ 0 ∨ m (a + i) ≠ 0)
    (stops : m (a + (e - 1)) = 0 ∧ m (a + e) = 0) (low : n ≤ e) (enough : e < fuel + n) :
    pairFrom m a fuel n = some e := by
  induction fuel generalizing n with
  | zero => omega
  | succ fuel ih =>
    rw [pairFrom]
    rcases Nat.lt_or_eq_of_le low with less | rfl
    · rw [if_pos (goes n (Nat.le_refl n) less)]
      exact ih (fun i above => goes i (by omega)) less (by omega)
    · rw [if_neg (by simp [stops.1, stops.2])]

theorem terminated_cons (t : Str) (ts : List Str) :
    terminated (t :: ts) = t ++ [0] ++ terminated ts := List.flatMap_cons

theorem zeros_apart (plain : ∀ t ∈ ts, t ≠ [] ∧ 0 ∉ t) (i : Nat)
    (before : i + 1 < (terminated ts).length) :
    (terminated ts).getD i 0 ≠ 0 ∨ (terminated ts).getD (i + 1) 0 ≠ 0 := by
  induction ts generalizing i with
  | nil => simp [terminated] at before
  | cons t ts ih =>
    have split : ∀ t ts, terminated (t :: ts) = t ++ 0 :: terminated ts := by
      intro t ts
      rw [terminated_cons, List.append_assoc, List.singleton_append]
    have nonzero : ∀ (u : Str), 0 ∉ u → ∀ j, j < u.length → ∀ rest :
        Str, (u ++ rest).getD j 0 ≠ 0 := by
      intro u ends j less rest zero
      rw [List.getD_append _ _ _ _ less, List.getD_eq_getElem _ _ less] at zero
      exact ends (zero ▸ List.getElem_mem less)
    rw [split] at before ⊢
    rw [List.length_append, List.length_cons] at before
    rcases Nat.lt_trichotomy i t.length with less | rfl | more
    · exact Or.inl (nonzero t (plain t List.mem_cons_self).2 i less _)
    · right
      rw [List.getD_append_right _ _ _ _ (Nat.le_succ _), show t.length + 1 - t.length =
        0 + 1 by omega,
        List.getD_cons_succ]
      cases ts with
      | nil => simp [terminated] at before
      | cons u us =>
        obtain ⟨some', ends⟩ := plain u (List.mem_cons_of_mem _ List.mem_cons_self)
        rw [split]
        exact nonzero u ends 0 (List.length_pos_iff.mpr some') _
    · obtain ⟨j, rfl⟩ := Nat.exists_eq_add_of_lt more
      have later := ih (fun u member => plain u (List.mem_cons_of_mem _ member)) j (by omega)
      rw [List.getD_append_right _ _ _ _ (by omega), List.getD_append_right _ _ _ _ (by omega),
        show t.length + j + 1 - t.length =
        j + 1 by omega, show t.length + j + 1 + 1 - t.length = j + 1 + 1 by omega]
      exact later

theorem terminated_last (some' : ts ≠ []) : ∃ front : List UInt8, terminated ts = front ++ [0] := by
  obtain ⟨us, u, split⟩ := (List.eq_nil_or_concat' ts).resolve_left some'
  exact ⟨terminated us ++ u, by simp [split, terminated]⟩

theorem pairFrom_stringSet (plain : ∀ t ∈ ts, t ≠ [] ∧ 0 ∉ t) (here : BytesAt m a (stringSet ts))
    (short : (stringSet ts).length < 2 ^ 32) :
    pairFrom m a (2 ^ 32) 1 = some ((stringSet ts).length - 1) := by
  have bytes : ∀ i < (stringSet ts).length, m (a + i) = (stringSet ts).getD i 0 := by
    intro i less
    rw [(bytesAt_iff _ _).mp here i less, List.getD_eq_getElem _ _ less]
  by_cases none' : ts = []
  · subst none'
    have zero : ∀ i < 2, m (a + i) = 0 := by
      intro i less
      rw [bytes i less]
      rcases Nat.lt_or_eq_of_le (Nat.le_of_lt_succ less) with first | rfl
      · rw [Nat.lt_one_iff.mp first]
        rfl
      · rfl
    exact pairFrom_spec (fun i low high => absurd high (by simp [stringSet]; omega))
      ⟨zero 0 (by omega), zero 1 (by omega)⟩
      (Nat.le_refl 1) (by simp [stringSet])
  · have set : stringSet ts = terminated ts ++ [0] := if_neg none'
    obtain ⟨front, last⟩ := terminated_last none'
    have size : (stringSet ts).length = front.length + 2 := by simp [set, last]
    have inner : ∀ i, i < front.length + 1 → (stringSet ts).getD i 0 =
        (terminated ts).getD i 0 := by
      intro i less
      rw [set, List.getD_append _ _ _ _ (by simpa [last] using less)]
    rw [size]
    apply pairFrom_spec
    · intro i low high
      rw [bytes _ (by omega), bytes _ (by omega), inner _ (by omega), inner _ (by omega)]
      have apart := zeros_apart plain (i - 1) (by simp [last]; omega)
      rwa [show i - 1 + 1 = i by omega] at apart
    · constructor
      · rw [bytes _ (by omega), inner _ (by omega), last]
        simp
      · rw [bytes _ (by omega), set, last]
        simp
    · omega
    · omega

theorem skipStrings_spec {t : Str} (plain : ∀ t ∈ ts, t ≠ [] ∧ 0 ∉ t)
    (here : BytesAt m a (terminated ts))
    (short : (terminated ts).length < 2 ^ 32) {k : Nat} (named : ts[k]? = some t) :
    skipStrings m k a = some (a + (terminated (ts.take k)).length) ∧
    StrAt m (a + (terminated (ts.take k)).length) t := by
  induction ts generalizing a k with
  | nil => simp at named
  | cons u us ih =>
    have first : StrAt m a u := by
      rw [terminated_cons, bytesAt_append] at here
      exact ⟨(plain u List.mem_cons_self).2, here.1⟩
    cases k with
    | zero =>
      cases named
      exact ⟨rfl, first⟩
    | succ k =>
      rw [terminated_cons, bytesAt_append] at here
      rw [terminated_cons, List.length_append, List.length_append, List.length_singleton] at short
      have place : a + u.length + 1 + (terminated (us.take k)).length =
          a + (terminated ((u :: us).take (k + 1))).length := by
        rw [List.take_succ_cons, terminated_cons, List.length_append, List.length_append,
          List.length_singleton]
        omega
      have behind : BytesAt m (a + u.length + 1) (terminated us) := by
        have later := here.2
        rw [List.length_append, List.length_singleton, ← Nat.add_assoc] at later
        exact later
      obtain ⟨skipped, there⟩ :=
        ih (fun t member => plain t (List.mem_cons_of_mem _ member)) behind (by omega) named
      rw [place] at skipped there
      refine ⟨?_, there⟩
      rw [skipStrings, strlenAt_spec first (by omega), Option.bind_eq_bind, Option.bind_some]
      exact skipped

end Strings

/-! ## The table -/

section Table
variable {m : Mem} {a start : Nat} {r : Record} {rs : List Record}

theorem Record.len_toNat (r : Record) :
    (UInt8.ofNat (r.body.length + 2)).toNat = r.body.length + 2 := by
  have sized := r.sized
  rw [UInt8.toNat_ofNat']
  omega

theorem Record.parts (here : BytesAt m a r.bytes) :
    m a = r.typ ∧ (m (a + 1)).toNat = r.body.length + 2 ∧ BytesAt m (a + (r.body.length + 2))
    (stringSet r.strings) := by
  obtain ⟨typ, len, rest⟩ := here
  have strings := ((bytesAt_append _ _ _).mp rest).2
  refine ⟨typ, by rw [len, r.len_toNat], ?_⟩
  rw [show a + 1 + 1 + r.body.length = a + (r.body.length + 2) by omega] at strings
  exact strings

theorem Record.size_eq (r : Record) :
    r.size = r.body.length + 2 + (stringSet r.strings).length := by
  rw [Record.size, Record.bytes, List.length_append, List.length_cons, List.length_cons]

theorem stringSet_pos (ts : List Str) : 0 < (stringSet ts).length := by
  unfold stringSet
  split <;> simp

theorem smbiosHeadlen_spec (here : BytesAt m a r.bytes) (short : r.size < 2 ^ 32) :
    smbiosHeadlen m a = some r.size := by
  obtain ⟨-, len, strings⟩ := Record.parts here
  have size := r.size_eq
  have some' := stringSet_pos r.strings
  rw [smbiosHeadlen, len, pairFrom_stringSet r.plain strings (by omega), Option.bind_eq_bind,
    Option.bind_some, size]
  exact congrArg some (by omega)

theorem terminated_length (ts : List Str) : ts.length ≤ (terminated ts).length := by
  induction ts with
  | nil => exact Nat.le_refl 0
  | cons t ts ih =>
    rw [terminated_cons, List.length_append, List.length_append, List.length_singleton,
      List.length_cons]
    omega

theorem getstr_spec (here : BytesAt m a r.bytes) (short : r.size < 2 ^ 32) {k : Nat}
    {t : Str} (one : 1 ≤ k)
    (named : r.strings[k - 1]? = some t) :
    getstr m a (UInt32.ofNat k) = some
    (a + (r.body.length + 2) + (terminated (r.strings.take (k - 1))).length) ∧
      StrAt m (a + (r.body.length + 2) + (terminated (r.strings.take (k - 1))).length) t := by
  obtain ⟨-, len, strings⟩ := Record.parts here
  have size := r.size_eq
  have some' : r.strings ≠ [] := by
    intro none'
    simp [none'] at named
  have set : stringSet r.strings = terminated r.strings ++ [0] := if_neg some'
  rw [set, List.length_append] at size
  rw [set, bytesAt_append] at strings
  have many := terminated_length r.strings
  have inside : k - 1 < r.strings.length := (List.getElem?_eq_some_iff.mp named).1
  have index : (UInt32.ofNat k - 1).toNat = k - 1 := by
    rw [UInt32.toNat_sub, UInt32.toNat_ofNat', UInt32.toNat_one]
    omega
  rw [getstr, len, index]
  exact skipStrings_spec r.plain strings.1 (by omega) named

theorem layout_append (rs rs' : List Record) : layout (rs ++ rs') = layout rs ++ layout rs' :=
  List.flatMap_append

theorem layout_cons (r : Record) (rs : List Record) : layout (r :: rs) = r.bytes ++ layout rs :=
  List.flatMap_cons

theorem starts_length (start : Nat) (rs : List Record) :
    (starts start rs).length ≤ (layout rs).length := by
  induction rs generalizing start with
  | nil => exact Nat.le_refl 0
  | cons r rs ih =>
    have some' : 0 < r.bytes.length := Nat.succ_pos _
    have later := ih (start + r.size)
    rw [starts, List.length_cons, layout_cons, List.length_append]
    omega

theorem chain_records (others : ∀ r ∈ rs, r.typ ≠ 127) (laid : BytesAt m start (layout rs))
    (fits : (layout rs).length < 2 ^ 32) :
    Chain (GoesOn m) (nextStructure m) start (starts start rs) (start + (layout rs).length) := by
  induction rs generalizing start with
  | nil => rfl
  | cons r rs ih =>
    rw [layout_cons, bytesAt_append] at laid
    rw [layout_cons, List.length_append] at fits ⊢
    have first := (Record.parts laid.1).1
    have length := smbiosHeadlen_spec laid.1 (show r.bytes.length < 2 ^ 32 by omega)
    refine ⟨rfl, ?_, start + r.size, ?_, ?_⟩
    · rw [GoesOn, first]
      exact others r List.mem_cons_self
    · rw [nextStructure, length]
      rfl
    · rw [← Nat.add_assoc]
      exact ih (fun r member => others r (List.mem_cons_of_mem _ member)) laid.2 (by omega)

theorem record_visits (ps seen : List Nat) :
    ps.foldlM (fun seen cur => some (seen ++ [cur])) seen = some (seen ++ ps) := by
  induction ps generalizing seen with
  | nil => rw [List.append_nil]; rfl
  | cons p ps ih =>
    rw [List.foldlM_cons, Option.bind_eq_bind, Option.bind_some, ih, List.append_assoc,
      List.singleton_append]

end Table

/-- The loop goes through the structures before the first of type 127, and stops there. Each string
    of a structure is found by its number. -/
theorem smbios_walked {m : Mem} {start : Nat} {rs : List Record} (closed : ∃ r ∈ rs, r.typ = 127)
    (laid : BytesAt m start (layout rs)) (fits : (layout rs).length < 2 ^ 32) :
    printSmbinfo m start = some (starts start (rs.takeWhile (·.typ ≠ 127)),
      start + (layout (rs.takeWhile (·.typ ≠ 127))).length) ∧
    ∀ before r after, rs = before ++ r :: after → ∀ k t, 1 ≤ k → r.strings[k - 1]? = some t →
      ∃ p, getstr m (start + (layout before).length) (UInt32.ofNat k) = some p ∧ StrAt m p t ∧
        p = start + (layout before).length + (r.body.length + 2) +
        (terminated (r.strings.take (k - 1))).length := by
  constructor
  · have whole :=
      List.takeWhile_append_dropWhile (p := fun r : Record => decide (r.typ ≠ 127)) (l := rs)
    have others : ∀ r ∈ rs.takeWhile (·.typ ≠ 127), r.typ ≠ 127 := by
      intro r member
      simpa using List.all_eq_true.mp List.all_takeWhile r member
    have stops := List.head?_dropWhile_not (fun r : Record => decide (r.typ ≠ 127)) rs
    cases behind : rs.dropWhile (·.typ ≠ 127) with
    | nil =>
      obtain ⟨r, member, typ⟩ := closed
      rw [behind, List.append_nil] at whole
      exact absurd typ (others r (by rw [whole]; exact member))
    | cons last after =>
      rw [behind] at whole stops
      have typ : last.typ = 127 := by simpa using stops
      rw [← whole, layout_append, layout_cons] at laid fits
      rw [bytesAt_append, bytesAt_append] at laid
      rw [List.length_append, List.length_append] at fits
      have chain := chain_records others laid.1 (by omega)
      have ends : ¬ GoesOn m (start + (layout (rs.takeWhile (·.typ ≠ 127))).length) := by
        rw [GoesOn, (Record.parts laid.2.1).1, typ]
        exact fun differ => differ rfl
      have few := starts_length start (rs.takeWhile (·.typ ≠ 127))
      rw [printSmbinfo, walk_chain chain ends (by omega), record_visits]
      rfl
  · rintro before r after rfl k t one named
    rw [layout_append, layout_cons] at laid fits
    rw [bytesAt_append, bytesAt_append] at laid
    rw [List.length_append, List.length_append] at fits
    obtain ⟨got, text⟩ := getstr_spec laid.2.1 (show r.bytes.length < 2 ^ 32 by omega) one named
    exact ⟨_, got, text, rfl⟩

def twoRecords : List Record :=
  [⟨0, [1, 0, 1], [[0x6e, 0x62]], by decide, by simp⟩, ⟨127, [2, 0], [], by decide, by simp⟩]

theorem two_records_walked : printSmbinfo (storeBytes (fun _ => 0) 16 (layout twoRecords)) 16 =
    some (starts 16 (twoRecords.takeWhile (·.typ ≠ 127)),
    16 + (layout (twoRecords.takeWhile (·.typ ≠ 127))).length) :=
  (smbios_walked ⟨_, List.mem_cons_of_mem _ List.mem_cons_self,
    rfl⟩ (storeBytes_bytesAt _ _ _) (by decide)).1

end Smbios
