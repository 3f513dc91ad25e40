import Mathlib.Algebra.Group.Nat.Defs
import Mathlib.Tactic.Common

/- Byte-addressed memory with little-endian 32-bit words. Addresses are
   unbounded Nat; a client keeps its own addresses inside its machine's range. -/
namespace ByteMemory

abbrev Mem := Nat → UInt8

def store8 (m : Mem) (a : Nat) (b : UInt8) : Mem := fun x => if x = a then b else m x

def load32 (m : Mem) (a : Nat) : Nat :=
  (m a).toNat + 256 * ((m (a + 1)).toNat + 256 * ((m (a + 2)).toNat + 256 * (m (a + 3)).toNat))

def store32 (m : Mem) (a v : Nat) : Mem :=
  store8 (store8 (store8 (store8 m a (UInt8.ofNat v)) (a + 1) (UInt8.ofNat (v / 256)))
    (a + 2) (UInt8.ofNat (v / 65536))) (a + 3) (UInt8.ofNat (v / 16777216))

def load16 (m : Mem) (a : Nat) : Nat := (m a).toNat + 256 * (m (a + 1)).toNat

def store16 (m : Mem) (a v : Nat) : Mem :=
  store8 (store8 m a (UInt8.ofNat v)) (a + 1) (UInt8.ofNat (v / 256))

def storeBytes (m : Mem) : Nat → List UInt8 → Mem
  | _, [] => m
  | a, b :: bs => storeBytes (store8 m a b) (a + 1) bs

/-- Two memories agree on the half-open range `[lo, hi)`. -/
def AgreeOn (m m' : Mem) (lo hi : Nat) : Prop := ∀ x, lo ≤ x → x < hi → m' x = m x

theorem store8_same (m : Mem) (a : Nat) (b : UInt8) : store8 m a b a = b := by
  simp [store8]

theorem store8_other (m : Mem) {a x : Nat} (b : UInt8) (different : x ≠ a) :
    store8 m a b x = m x := by
  simp [store8, different]

theorem store32_other (m : Mem) {a x : Nat} (v : Nat) (outside : x < a ∨ a + 4 ≤ x) :
    store32 m a v x = m x := by
  unfold store32
  rw [store8_other _ _ (by omega), store8_other _ _ (by omega), store8_other _ _ (by omega),
    store8_other _ _ (by omega)]

theorem load32_congr {m m' : Mem} {a : Nat} (same : AgreeOn m m' a (a + 4)) :
    load32 m' a = load32 m a := by
  unfold load32
  rw [same a (by omega) (by omega), same (a + 1) (by omega) (by omega),
    same (a + 2) (by omega) (by omega), same (a + 3) (by omega) (by omega)]

theorem load32_bound (m : Mem) (a : Nat) : load32 m a < 2 ^ 32 := by
  have b0 := (m a).toNat_lt
  have b1 := (m (a + 1)).toNat_lt
  have b2 := (m (a + 2)).toNat_lt
  have b3 := (m (a + 3)).toNat_lt
  unfold load32
  omega

theorem load32_store32_same (m : Mem) (a : Nat) {v : Nat} (word : v < 2 ^ 32) :
    load32 (store32 m a v) a = v := by
  have c0 : store32 m a v a = UInt8.ofNat v := by
    simp [store32, store8]
  have c1 : store32 m a v (a + 1) = UInt8.ofNat (v / 256) := by
    simp [store32, store8]
  have c2 : store32 m a v (a + 2) = UInt8.ofNat (v / 65536) := by
    simp [store32, store8]
  have c3 : store32 m a v (a + 3) = UInt8.ofNat (v / 16777216) := by
    simp [store32, store8]
  unfold load32
  rw [c0, c1, c2, c3]
  simp only [UInt8.toNat_ofNat']
  omega

theorem load32_store32_apart (m : Mem) {a b : Nat} (v : Nat)
    (apart : a + 4 ≤ b ∨ b + 4 ≤ a) : load32 (store32 m a v) b = load32 m b :=
  load32_congr fun x lo hi => store32_other m v (by omega)

theorem load32_store8_apart (m : Mem) {a b : Nat} (v : UInt8)
    (apart : a < b ∨ b + 4 ≤ a) : load32 (store8 m a v) b = load32 m b :=
  load32_congr fun x lo hi => store8_other m v (by omega)

theorem load32_zero {m : Mem} {a : Nat} (zero : ∀ x, a ≤ x → x < a + 4 → m x = 0) :
    load32 m a = 0 := by
  unfold load32
  rw [zero a (by omega) (by omega), zero (a + 1) (by omega) (by omega),
    zero (a + 2) (by omega) (by omega),
    zero (a + 3) (by omega) (by omega)]
  rfl

theorem load16_bound (m : Mem) (a : Nat) : load16 m a < 2 ^ 16 := by
  have b0 := (m a).toNat_lt
  have b1 := (m (a + 1)).toNat_lt
  unfold load16
  omega

theorem store16_other (m : Mem) {a x : Nat} (v : Nat) (outside : x < a ∨ a + 2 ≤ x) :
    store16 m a v x = m x := by
  unfold store16
  rw [store8_other _ _ (by omega), store8_other _ _ (by omega)]

theorem load16_congr {m m' : Mem} {a : Nat} (same : AgreeOn m m' a (a + 2)) :
    load16 m' a = load16 m a := by
  unfold load16
  rw [same a (by omega) (by omega), same (a + 1) (by omega) (by omega)]

theorem load16_store16_same (m : Mem) (a : Nat) {v : Nat} (half : v < 2 ^ 16) :
    load16 (store16 m a v) a = v := by
  have c0 : store16 m a v a = UInt8.ofNat v := by
    simp [store16, store8]
  have c1 : store16 m a v (a + 1) = UInt8.ofNat (v / 256) := by
    simp [store16, store8]
  unfold load16
  rw [c0, c1]
  simp only [UInt8.toNat_ofNat']
  omega

theorem load16_store16_apart (m : Mem) {a b : Nat} (v : Nat) (apart : a + 2 ≤ b ∨ b + 2 ≤ a) :
    load16 (store16 m a v) b = load16 m b :=
  load16_congr fun x lo hi => store16_other m v (by omega)

theorem storeBytes_other (m : Mem) {x : Nat} (bs : List UInt8) (a : Nat)
    (outside : x < a ∨ a + bs.length ≤ x) :
    storeBytes m a bs x = m x := by
  induction bs generalizing m a with
  | nil => rfl
  | cons b bs ih =>
    rw [List.length_cons] at outside
    rw [storeBytes, ih _ _ (by omega), store8_other _ _ (by omega)]

theorem storeBytes_byte (m : Mem) (bs : List UInt8) (a : Nat) {i : Nat} (inside : i < bs.length) :
    storeBytes m a bs (a + i) = bs[i] := by
  induction bs generalizing m a i with
  | nil => simp at inside
  | cons b bs ih =>
    cases i with
    | zero =>
      rw [storeBytes, storeBytes_other _ _ _ (by omega), Nat.add_zero, store8_same]
      rfl
    | succ i =>
      have later := ih (store8 m a b) (a + 1) (i := i) (by simpa using inside)
      rw [storeBytes, List.getElem_cons_succ, ← later]
      congr 1
      omega

def storeWords (m : Mem) : Nat → List Nat → Mem
  | _, [] => m
  | a, w :: ws => store32 (storeWords m (a + 4) ws) a w

theorem storeWords_other (m : Mem) {x : Nat} (ws : List Nat) (a : Nat)
    (outside : x < a ∨ a + 4 * ws.length ≤ x) : storeWords m a ws x = m x := by
  induction ws generalizing a with
  | nil => rfl
  | cons w ws ih =>
    rw [List.length_cons] at outside
    rw [storeWords, store32_other _ _ (by omega)]
    exact ih (a + 4) (by omega)

theorem load32_storeWords (m : Mem) (ws : List Nat) (words : ∀ w ∈ ws, w < 2 ^ 32)
    (a : Nat) {k : Nat}
    {w : Nat} (entry : ws[k]? = some w) : load32 (storeWords m a ws) (a + 4 * k) = w := by
  induction ws generalizing a k with
  | nil => simp at entry
  | cons v ws ih =>
    cases k with
    | zero =>
      obtain rfl : v = w := by simpa using entry
      exact load32_store32_same _ _ (words v List.mem_cons_self)
    | succ k =>
      rw [storeWords, load32_store32_apart _ _ (by omega)]
      have later := ih (fun x member => words x (List.mem_cons_of_mem _ member)) (a + 4)
        (by simpa using entry)
      rw [← later]
      congr 1
      omega

theorem AgreeOn.mono {m m' : Mem} {lo hi lo' hi' : Nat} (same : AgreeOn m m' lo hi)
    (lower : lo ≤ lo') (upper : hi' ≤ hi) : AgreeOn m m' lo' hi' :=
  fun x hl hh => same x (by omega) (by omega)

theorem AgreeOn.trans {m m' m'' : Mem} {lo hi : Nat} (first : AgreeOn m m' lo hi)
    (second : AgreeOn m' m'' lo hi) : AgreeOn m m'' lo hi :=
  fun x hl hh => (second x hl hh).trans (first x hl hh)

end ByteMemory
