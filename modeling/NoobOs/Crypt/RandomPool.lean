import NoobOs.Crypt.Blake2s
import NoobOs.Lib.ByteMemory

/-!
`rand.c` and the random device of `dev.c`: the 32 bytes of `ent_pool` in memory, what stirs them,
and the bytes they give. A buffer is anywhere in memory but over the pool.
-/
namespace RandomPool
open ByteMemory Blake2s

def entPool (m : Mem) (pool : Nat) : List UInt8 := (List.range 32).map fun i => m (pool + i)

def blake2sAt (stack : Blake2sCtx) (m : Mem) (out outlen : Nat) (key input : List UInt8) : Mem :=
  match blake2s stack outlen key input with
  | some bytes => storeBytes m out bytes
  | none => m

/-- What `rand_init` makes of the seconds and the milliseconds of `gettime`. -/
def seed (t m : Word) : Word := ((t * 10000 + m) * 426767 - 2786) ^^^ (t <<< 5 ||| m)

def randInit (stack : Blake2sCtx) (pool : Nat) (mem : Mem) (t m : Word) : Mem :=
  blake2sAt stack mem pool 32 (leBytes (seed t m)) (leBytes (seed t m))

def pool2 (m : Mem) (pool : Nat) (w : Word) : List UInt8 := leBytes w ++ (entPool m pool).drop 4

def insertEnt (stack : Blake2sCtx) (pool : Nat) (m : Mem) (ent : Word) : Mem :=
  blake2sAt stack m pool 32 (leBytes ent) (pool2 m pool ent)

def getRand (stack : Blake2sCtx) (pool : Nat) (m : Mem) (out outlen : Nat) : Mem :=
  if out = 0 ∨ outlen = 0 then m
  else
    let m := blake2sAt stack m out outlen [] (entPool m pool)
    blake2sAt stack m pool 32 [] (pool2 m pool (BitVec.ofNat 32 out))

/-- `read_null` of the random device; it returns `count`. -/
def readRandom (stack : Blake2sCtx) (pool : Nat) (m : Mem) (buf siz : Nat) : Mem :=
  if siz > 4 then readRandom stack pool (getRand stack pool m buf 4) (buf + 4) (siz - 4)
  else getRand stack pool m buf siz
termination_by siz

inductive Call where
  | randInit (t m : Word)
  | insertEnt (ent : Word)
  | getRand (out outlen : Nat)
  | read (buf count : Nat)

def Call.run (stack : Blake2sCtx) (pool : Nat) (m : Mem) : Call → Mem
  | .randInit t ms => RandomPool.randInit stack pool m t ms
  | .insertEnt ent => RandomPool.insertEnt stack pool m ent
  | .getRand out outlen => RandomPool.getRand stack pool m out outlen
  | .read buf count => readRandom stack pool m buf count

def Call.buffer : Call → Nat × Nat
  | .randInit _ _ => (0, 0)
  | .insertEnt _ => (0, 0)
  | .getRand out outlen => (out, outlen)
  | .read buf count => (buf, count)

/-! ## The pool by itself -/

def stir (p : List UInt8) (out : Nat) : List UInt8 :=
  digest 32 [] (leBytes (BitVec.ofNat 32 out) ++ p.drop 4)

def stirred (p : List UInt8) (buf : Nat) : Nat → List UInt8
  | 0 => p
  | k + 1 => stir (stirred p buf k) (buf + 4 * k)

def Call.pool (p : List UInt8) : Call → List UInt8
  | .randInit t m => digest 32 (leBytes (seed t m)) (leBytes (seed t m))
  | .insertEnt ent => digest 32 (leBytes ent) (leBytes ent ++ p.drop 4)
  | .getRand out outlen => if out = 0 ∨ outlen = 0 then p else stir p out
  | .read buf count => stirred p buf ((count + 3) / 4)

/-- A buffer over no byte of the pool; a read is not to address 0. -/
def Call.Apart (pool : Nat) (c : Call) : Prop :=
  (c.buffer.1 + c.buffer.2 ≤ pool ∨ pool + 32 ≤ c.buffer.1) ∧
    ∀ buf count, c = .read buf count → buf ≠ 0

section Pool
variable {stack : Blake2sCtx} {pool : Nat} {m : Mem} {buf count : Nat}

theorem digest_length {outlen : Nat} (small : outlen ≤ 32) (key message : List UInt8) :
    (digest outlen key message).length = outlen := by
  have whole : ∀ h : Vector Word 8, (h.toList.flatMap leBytes).length = 32 := by
    intro h
    rw [← outBytes, List.length_map, List.length_range]
  rw [digest, List.length_take, whole, Nat.min_eq_left small]

theorem entPool_length (m : Mem) (pool : Nat) : (entPool m pool).length = 32 := by simp [entPool]

theorem entPool_congr {m' : Mem} (same : AgreeOn m m' pool (pool + 32)) :
    entPool m' pool = entPool m pool := by
  apply List.map_congr_left
  intro i inside
  exact same _ (by omega) (by have := List.mem_range.mp inside; omega)

theorem entPool_stored {bytes : List UInt8} (length : bytes.length = 32) :
    entPool (storeBytes m pool bytes) pool = bytes := by
  apply List.ext_getElem
  · rw [entPool_length, length]
  · intro i _ inside
    simp only [entPool, List.getElem_map, List.getElem_range]
    exact storeBytes_byte m bytes pool inside

theorem blake2sAt_hash {outlen : Nat} {key : List UInt8}
    (ok : 0 < outlen ∧ outlen ≤ 32 ∧ key.length ≤ 32) (out : Nat)
    (input : List UInt8) : blake2sAt stack m out outlen key input = storeBytes m out
    (digest outlen key input) := by
  rw [blake2sAt, blake2s_hash stack ok]

theorem blake2sAt_other {out outlen x : Nat} {key : List UInt8} (input : List UInt8)
    (outside : x < out ∨ out + outlen ≤ x) :
    blake2sAt stack m out outlen key input x = m x := by
  by_cases ok : 0 < outlen ∧ outlen ≤ 32 ∧ key.length ≤ 32
  · rw [blake2sAt_hash ok, storeBytes_other _ _ _ (by rw [digest_length ok.2.1]; exact outside)]
  · rw [blake2sAt, blake2s, blake2sInit, if_pos (by omega)]
    rfl

theorem getRand_spec (stack : Blake2sCtx) (m : Mem) {out outlen : Nat}
    (some : ¬ (out = 0 ∨ outlen = 0)) (apart : out + outlen ≤ pool ∨ pool + 32 ≤ out) :
    entPool (getRand stack pool m out outlen) pool = stir (entPool m pool) out ∧
      (∀ j < outlen, outlen ≤ 32 → getRand stack pool m out outlen (out + j) =
      (digest outlen [] (entPool m pool)).getD j 0) ∧
      ∀ x, (x < out ∨ out + outlen ≤ x ∨ 32 < outlen) → (x < pool ∨ pool + 32 ≤ x) →
      getRand stack pool m out outlen x = m x := by
  have full : 0 < 32 ∧ 32 ≤ 32 ∧ ([] : List UInt8).length ≤ 32 := by decide
  have kept : entPool (blake2sAt stack m out outlen [] (entPool m pool)) pool = entPool m pool :=
    entPool_congr fun x low high => blake2sAt_other _ (by omega)
  rw [getRand, if_neg some]
  simp only [pool2, kept, blake2sAt_hash full]
  refine ⟨?_, ?_, ?_⟩
  · rw [entPool_stored (digest_length (Nat.le_refl 32) _ _), stir]
  · intro j inside small
    have ok : 0 < outlen ∧ outlen ≤ 32 ∧ ([] : List UInt8).length ≤ 32 :=
      ⟨by omega, small, by decide⟩
    have length := digest_length small [] (entPool m pool)
    rw [storeBytes_other _ _ _ (by rw [digest_length (Nat.le_refl 32)]; omega), blake2sAt_hash ok,
      storeBytes_byte _ _ _ (by rw [length]; exact inside), List.getD_eq_getElem?_getD,
      List.getElem?_eq_getElem (by rw [length]; exact inside)]
    rfl
  · intro x beside outside
    rw [storeBytes_other _ _ _ (by rw [digest_length (Nat.le_refl 32)]; exact outside)]
    by_cases small : outlen ≤ 32
    · exact blake2sAt_other _ (by omega)
    · rw [blake2sAt, blake2s, blake2sInit, if_pos (by omega)]
      rfl

theorem stirred_shift (p : List UInt8) (buf k : Nat) :
    stirred (stir p buf) (buf + 4) k = stirred p buf (k + 1) := by
  induction k with
  | zero => rfl
  | succ k ih =>
    have next : buf + 4 + 4 * k = buf + 4 * (k + 1) := by omega
    rw [stirred, ih, next]
    rfl

def wordLength (count k : Nat) : Nat := min 4 (count - 4 * k)

theorem read_spec (stack : Blake2sCtx) (m : Mem) (somewhere : buf ≠ 0)
    (apart : buf + count ≤ pool ∨ pool + 32 ≤ buf) :
    entPool (readRandom stack pool m buf count) pool = stirred (entPool m pool) buf
    ((count + 3) / 4) ∧
      (∀ k, ∀ j < wordLength count k, readRandom stack pool m buf count (buf + (4 * k + j)) =
        (digest (wordLength count k) [] (stirred (entPool m pool) buf k)).getD j 0) ∧
      ∀ x, (x < buf ∨ buf + count ≤ x) → (x < pool ∨ pool + 32 ≤ x) →
      readRandom stack pool m buf count x = m x := by
  induction count using Nat.strongRecOn generalizing m buf with
  | ind count ih =>
    by_cases more : count > 4
    · obtain ⟨stirs, bytes, others⟩ := getRand_spec stack m (show ¬ (buf = 0 ∨ 4 = 0) by omega)
        (show buf + 4 ≤ pool ∨ pool + 32 ≤ buf by omega)
      obtain ⟨rest, words, outside⟩ :=
        ih (count - 4) (by omega) (getRand stack pool m buf 4)
          (show buf + 4 ≠ 0 by omega) (by omega)
      rw [readRandom, if_pos more]
      rw [stirs] at rest words
      simp only [stirred_shift] at rest words
      refine ⟨?_, ?_, ?_⟩
      · rw [rest, show (count - 4 + 3) / 4 + 1 = (count + 3) / 4 by omega]
      · intro k j inside
        cases k with
        | zero =>
          have word : wordLength count 0 = 4 := by
            unfold wordLength
            omega
          rw [word] at inside
          rw [word, Nat.mul_zero, Nat.zero_add, outside _ (by omega) (by omega)]
          exact bytes j inside (by decide)
        | succ k =>
          have word : wordLength (count - 4) k = wordLength count (k + 1) := by
            unfold wordLength
            omega
          rw [← word] at inside
          rw [← word, ← words k j inside]
          congr 1
          omega
      · intro x beside beyond
        rw [outside x (by omega) beyond, others x (by omega) beyond]
    · by_cases none : count = 0
      · subst none
        rw [readRandom, if_neg more, getRand, if_pos (Or.inr rfl)]
        refine ⟨rfl, ?_, fun _ _ _ => rfl⟩
        intro k j inside
        simp [wordLength] at inside
      · obtain ⟨stirs, bytes, others⟩ :=
          getRand_spec stack m (show ¬ (buf = 0 ∨ count = 0) by omega) apart
        rw [readRandom, if_neg more]
        refine ⟨?_, ?_, fun x beside beyond => others x (by omega) beyond⟩
        · rw [stirs, show (count + 3) / 4 = 1 by omega]
          rfl
        · intro k j inside
          have first : k = 0 := by
            unfold wordLength at inside
            omega
          have word : wordLength count k = count := by
            unfold wordLength
            omega
          rw [word] at inside
          rw [word, first, Nat.mul_zero, Nat.zero_add]
          exact bytes j inside (by omega)

theorem randInit_pool (t ms : Word) :
    entPool (randInit stack pool m t ms) pool = digest 32 (leBytes (seed t ms))
    (leBytes (seed t ms)) := by
  rw [randInit, blake2sAt_hash ⟨by decide, Nat.le_refl 32, by simp [leBytes]⟩,
    entPool_stored (digest_length (Nat.le_refl 32) _ _)]

theorem insertEnt_pool (ent : Word) :
    entPool (insertEnt stack pool m ent) pool = digest 32 (leBytes ent)
    (leBytes ent ++ (entPool m pool).drop 4) := by
  rw [insertEnt, blake2sAt_hash ⟨by decide, Nat.le_refl 32, by simp [leBytes]⟩,
    entPool_stored (digest_length (Nat.le_refl 32) _ _), pool2]

theorem Call.run_pool (stack : Blake2sCtx) (m : Mem) {c : Call} (apart : c.Apart pool) :
    entPool (c.run stack pool m) pool = c.pool (entPool m pool) := by
  obtain ⟨beside, somewhere⟩ := apart
  cases c with
  | randInit t ms => exact randInit_pool t ms
  | insertEnt ent => exact insertEnt_pool ent
  | getRand out outlen =>
    by_cases none : out = 0 ∨ outlen = 0
    · rw [Call.run, Call.pool, if_pos none, RandomPool.getRand, if_pos none]
    · rw [Call.run, Call.pool, if_neg none]
      exact (getRand_spec stack m none beside).1
  | read buf count => exact (read_spec stack m (somewhere buf count rfl) beside).1

theorem runs_pool (stack : Blake2sCtx) (m : Mem) {calls : List Call}
    (apart : ∀ c ∈ calls, c.Apart pool) :
    entPool (calls.foldl (Call.run stack pool) m) pool = calls.foldl Call.pool
    (entPool m pool) := by
  induction calls generalizing m with
  | nil => rfl
  | cons c calls ih =>
    rw [List.foldl_cons, List.foldl_cons,
      ih _ fun c' member => apart c' (List.mem_cons_of_mem _ member),
      c.run_pool stack m (apart c (List.mem_cons_self ..))]

/-- A read after any calls: each word is the hash of a pool that only the calls and their addresses
    give, and nothing beside the buffer and the pool is stored. -/
theorem random_bytes (stack : Blake2sCtx) (m : Mem) {calls : List Call}
    (aparts : ∀ c ∈ calls, c.Apart pool)
    (somewhere : buf ≠ 0) (apart : buf + count ≤ pool ∨ pool + 32 ≤ buf) :
    let p := calls.foldl Call.pool (entPool m pool)
    let m' := calls.foldl (Call.run stack pool) m
    (∀ k, ∀ j < wordLength count k, readRandom stack pool m' buf count (buf + (4 * k + j)) =
        (digest (wordLength count k) [] (stirred p buf k)).getD j 0) ∧
      ∀ x, (x < buf ∨ buf + count ≤ x) → (x < pool ∨ pool + 32 ≤ x) →
          readRandom stack pool m' buf count x = m' x := by
  obtain ⟨-, words, others⟩ := read_spec stack (calls.foldl (Call.run stack pool) m) somewhere apart
  rw [runs_pool stack m aparts] at words
  exact ⟨words, others⟩

theorem random_bytes_six :
    let p := [Call.insertEnt 7].foldl Call.pool (entPool (fun _ => 0) 4096)
    let m' := [Call.insertEnt 7].foldl (Call.run ctx0 4096) fun _ => 0
    (∀ k, ∀ j < wordLength 6 k, readRandom ctx0 4096 m' 64 6 (64 + (4 * k + j)) =
        (digest (wordLength 6 k) [] (stirred p 64 k)).getD j 0) ∧
      ∀ x, (x < 64 ∨ 64 + 6 ≤ x) → (x < 4096 ∨ 4096 + 32 ≤ x) →
          readRandom ctx0 4096 m' 64 6 x = m' x :=
  random_bytes ctx0 _ (by simp [Call.Apart, Call.buffer]) (by decide) (by decide)

end Pool

end RandomPool
