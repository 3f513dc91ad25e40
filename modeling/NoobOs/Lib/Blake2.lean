import Mathlib.Algebra.GroupWithZero.Nat
import Mathlib.Data.Nat.Sqrt
import Mathlib.Data.Fin.VecNotation
import Mathlib.Logic.Function.Basic

/- The compression of the BLAKE2 hash functions, for any size of a word. The 16 words it works on
   are a square of four rows; a round mixes its columns and then its diagonals. -/
namespace Blake2

/-- The bits of a word, the number of rounds, and the rotations of the mixing function. -/
structure Variant where
  w : Nat
  rounds : Nat
  r₁ : Nat
  r₂ : Nat
  r₃ : Nat
  r₄ : Nat

section Compression
variable (V : Variant)

local instance sixteen : NeZero 16 := ⟨Nat.succ_ne_zero 15⟩

def primes : Fin 8 → Nat := ![2, 3, 5, 7, 11, 13, 17, 19]

/-- The first `w` bits of the fraction of the square root of a prime. -/
def iv (i : Fin 8) : BitVec V.w := BitVec.ofNat V.w (Nat.sqrt (primes i * 2 ^ (2 * V.w)))

/-- The order in which a round takes the words of the message; the eleventh is the first again. -/
def sigma : Fin 10 → Fin 16 → Fin 16 := ![
  ![0, 1, 2, 3, 4, 5, 6, 7, 8, 9, 10, 11, 12, 13, 14, 15],
  ![14, 10, 4, 8, 9, 15, 13, 6, 1, 12, 0, 2, 11, 7, 5, 3],
  ![11, 8, 12, 0, 5, 2, 15, 13, 10, 14, 3, 6, 7, 1, 9, 4],
  ![7, 9, 3, 1, 13, 12, 11, 14, 2, 6, 5, 10, 4, 0, 15, 8],
  ![9, 0, 5, 7, 2, 4, 10, 15, 14, 1, 11, 12, 6, 8, 3, 13],
  ![2, 12, 6, 10, 0, 11, 8, 3, 4, 13, 7, 5, 15, 14, 1, 9],
  ![12, 5, 1, 15, 14, 13, 4, 10, 0, 7, 6, 3, 9, 2, 8, 11],
  ![13, 11, 7, 14, 12, 1, 3, 9, 5, 0, 15, 4, 8, 6, 2, 10],
  ![6, 15, 14, 9, 11, 3, 0, 8, 12, 2, 13, 7, 1, 4, 10, 5],
  ![10, 2, 8, 4, 7, 6, 1, 5, 15, 11, 9, 14, 3, 12, 13, 0]]

abbrev Square (w : Nat) := Fin 16 → BitVec w

def cell (row column : Fin 4) : Fin 16 := ⟨4 * row + column, by omega⟩

def G (v : Square V.w) (a b c d : Fin 16) (x y : BitVec V.w) : Square V.w :=
  let v := Function.update v a (v a + v b + x)
  let v := Function.update v d ((v d ^^^ v a).rotateRight V.r₁)
  let v := Function.update v c (v c + v d)
  let v := Function.update v b ((v b ^^^ v c).rotateRight V.r₂)
  let v := Function.update v a (v a + v b + y)
  let v := Function.update v d ((v d ^^^ v a).rotateRight V.r₃)
  let v := Function.update v c (v c + v d)
  Function.update v b ((v b ^^^ v c).rotateRight V.r₄)

/-- A column, slope 0, or a diagonal, slope 1, from its word in the first row on. -/
def mixLine (slope : Fin 4) (m : Square V.w) (v : Square V.w) (i : Fin 4) : Square V.w :=
  let j : Nat := 8 * slope + 2 * i
  G V v (cell 0 i) (cell 1 (i + slope)) (cell 2 (i + 2 * slope)) (cell 3 (i + 3 * slope))
    (m (Fin.ofNat 16 j)) (m (Fin.ofNat 16 (j + 1)))

/-- `m` has the words of the message in the order of the round. -/
def round (m : Square V.w) (v : Square V.w) : Square V.w :=
  let columns := [0, 1, 2, 3].foldl (mixLine V 0 m) v
  [0, 1, 2, 3].foldl (mixLine V 1 m) columns

def work (h : Fin 8 → BitVec V.w) (t : Nat) (last : Bool) : Square V.w := fun i =>
  if state : i.val < 8 then h ⟨i, state⟩
  else
    iv V ⟨i - 8, by omega⟩ ^^^
      (if i = 12 then BitVec.ofNat V.w t
      else if i = 13 then BitVec.ofNat V.w (t / 2 ^ V.w)
      else if i = 14 ∧ last then BitVec.allOnes V.w
      else 0)

def F (h : Fin 8 → BitVec V.w) (m : Square V.w) (t : Nat) (last : Bool) : Fin 8 → BitVec V.w :=
  let v :=
    (List.range V.rounds).foldl (fun v r => round V (fun i => m (sigma (Fin.ofNat 10 r) i)) v)
    (work V h t last)
  fun i => h i ^^^ v (i.castLE (by decide)) ^^^ v (i.addNat 8)

def initial (keylen outlen : Nat) (i : Fin 8) : BitVec V.w :=
  if i = 0 then iv V 0 ^^^ 0x01010000 ^^^ (BitVec.ofNat V.w keylen <<< 8) ^^^
    BitVec.ofNat V.w outlen
  else iv V i

end Compression

theorem iv_eq (V : Variant) (i : Fin 8) {n : Nat} (least : n * n ≤ primes i * 2 ^ (2 * V.w))
    (most : primes i * 2 ^ (2 * V.w) < (n + 1) * (n + 1)) : iv V i = BitVec.ofNat V.w n := by
  rw [iv, ← Nat.eq_sqrt.mpr ⟨least, most⟩]

end Blake2
