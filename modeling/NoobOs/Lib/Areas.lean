import NoobOs.Lib.ByteMemory

/- Lists of bytes in memory, and loads and stores that have to stay in an area of it. -/
namespace ByteMemory

def BytesAt (m : Mem) : Nat → List UInt8 → Prop
  | _, [] => True
  | a, c :: s => m a = c ∧ BytesAt m (a + 1) s

structure Area where
  start : Nat
  size : Nat

def Area.Has (b : Area) (a : Nat) : Prop := b.start ≤ a ∧ a < b.start + b.size

instance (b : Area) (a : Nat) : Decidable (b.Has a) := inferInstanceAs (Decidable (_ ∧ _))

/-- `none` is a store outside the area. -/
def storeIn (b : Area) (m : Mem) (a : Nat) (v : UInt8) : Option Mem :=
  if b.Has a then some (store8 m a v) else none

/-- `none` is a load outside the area. -/
def loadIn (b : Area) (m : Mem) (a : Nat) : Option UInt8 := if b.Has a then some (m a) else none

def copyIn (b : Area) : Nat → Mem → Nat → Nat → Option Mem
  | 0, m, _, _ => some m
  | n + 1, m, dst, src => do
    let m ← storeIn b m dst (m src)
    copyIn b n m (dst + 1) (src + 1)

variable {m m' : Mem} {b : Area} {a n : Nat} {s : List UInt8}

theorem Area.not_has : ¬ b.Has a ↔ a < b.start ∨ b.start + b.size ≤ a := by
  unfold Area.Has
  omega

theorem bytesAt_append (s t : List UInt8) (a : Nat) :
    BytesAt m a (s ++ t) ↔ BytesAt m a s ∧ BytesAt m (a + s.length) t := by
  induction s generalizing a with
  | nil => simp [BytesAt]
  | cons c s ih =>
    have further : a + 1 + s.length = a + (c :: s).length := by
      rw [List.length_cons]
      omega
    rw [List.cons_append, BytesAt, BytesAt, ih, further, and_assoc]

theorem bytesAt_iff (s : List UInt8) (a : Nat) :
    BytesAt m a s ↔ ∀ i (inside : i < s.length), m (a + i) = s[i] := by
  induction s generalizing a with
  | nil => simp [BytesAt]
  | cons c s ih =>
    rw [BytesAt, ih]
    constructor
    · rintro ⟨first, later⟩ i inside
      cases i with
      | zero => exact first
      | succ i =>
        rw [show a + (i + 1) = a + 1 + i by omega]
        exact later i (by simpa using inside)
    · intro all
      refine ⟨all 0 (by simp), ?_⟩
      intro i inside
      rw [show a + 1 + i = a + (i + 1) by omega]
      exact all (i + 1) (by simpa using inside)

theorem BytesAt.moved {a' : Nat} (here : BytesAt m a s)
    (same : ∀ i < s.length, m' (a' + i) = m (a + i)) :
    BytesAt m' a' s := by
  rw [bytesAt_iff] at here ⊢
  intro i inside
  rw [same i inside, here i inside]

theorem storeBytes_bytesAt (m : Mem) (a : Nat) (bs : List UInt8) :
    BytesAt (storeBytes m a bs) a bs :=
  (bytesAt_iff bs a).mpr fun _ inside => storeBytes_byte m bs a inside

theorem storeIn_eq (inside : b.Has a) (m : Mem) (v : UInt8) :
    storeIn b m a v = some (store8 m a v) :=
  if_pos inside

theorem loadIn_eq (inside : b.Has a) (m : Mem) : loadIn b m a = some (m a) := if_pos inside

theorem copyIn_spec (m : Mem) (dst src : Nat) (low : b.start ≤ dst)
    (high : dst + n ≤ b.start + b.size) :
    ∃ m', copyIn b n m dst src = some m' ∧ (∀ x, x < dst ∨ dst + n ≤ x → m' x = m x) ∧
      ∀ i < n, src + i < dst ∨ dst + n ≤ src + i → m' (dst + i) = m (src + i) := by
  induction n generalizing m dst src with
  | zero => exact ⟨m, rfl, fun _ _ => rfl, fun i less => absurd less (Nat.not_lt_zero i)⟩
  | succ n ih =>
    obtain ⟨m', copied, others, bytes⟩ :=
      ih (store8 m dst (m src)) (dst + 1) (src + 1) (by omega) (by omega)
    refine ⟨m', ?_, ?_, ?_⟩
    · rw [copyIn, storeIn_eq ⟨low, by omega⟩]
      exact copied
    · intro x outside
      rw [others x (by omega), store8_other _ _ (by omega)]
    · intro i less apart
      cases i with
      | zero => rw [Nat.add_zero, Nat.add_zero, others dst (by omega), store8_same]
      | succ i =>
        have later := bytes i (by omega) (by omega)
        rw [store8_other _ _ (by omega)] at later
        rw [show dst + (i + 1) = dst + 1 + i by omega, show src + (i + 1) = src + 1 + i by omega]
        exact later

end ByteMemory
