import NoobOs.Lib.Blake2
import NoobOs.Lib.BlockStream
import NoobOs.Lib.WordMixing
import Mathlib.Data.Vector.Defs
import Mathlib.Data.UInt
import Mathlib.Tactic.IntervalCases

/-!
`blake2s.c`: the context, its compression, and the hash of input that comes in any pieces. The hash
is the one of the standard the file is taken from: the message in blocks of 64 bytes, each mixed
with the number of bytes up to its end, the last one filled with zeros and marked. A key is a block
before the message. In which pieces the message comes to `blake2s_update`, and what the context held
before, makes no difference.
-/
namespace Blake2s
open BlockStream

abbrev Word := BitVec 32

structure Blake2sCtx where
  b : Vector UInt8 64
  h : Vector Word 8
  t0 : Word
  t1 : Word
  c : Nat
  outlen : Nat

def rotr32 (x : Word) (y : Nat) : Word := (x >>> y) ^^^ (x <<< (32 - y))

def b2sGet32 (b : Vector UInt8 64) (i : Fin 16) : Word :=
  (b[4 * i.val].toBitVec.setWidth 32) ^^^ (b[4 * i.val + 1].toBitVec.setWidth 32 <<< 8) ^^^
    (b[4 * i.val + 2].toBitVec.setWidth 32 <<< 16) ^^^
      (b[4 * i.val + 3].toBitVec.setWidth 32 <<< 24)

abbrev Work := Vector Word 16

def b2sG (a b c d : Fin 16) (x y : Word) (v : Work) : Work :=
  let v := v.set a (v[a] + v[b] + x)
  let v := v.set d (rotr32 (v[d] ^^^ v[a]) 16)
  let v := v.set c (v[c] + v[d])
  let v := v.set b (rotr32 (v[b] ^^^ v[c]) 12)
  let v := v.set a (v[a] + v[b] + y)
  let v := v.set d (rotr32 (v[d] ^^^ v[a]) 8)
  let v := v.set c (v[c] + v[d])
  v.set b (rotr32 (v[b] ^^^ v[c]) 7)

def blake2sIv : Vector Word 8 :=
  #v[0x6A09E667, 0xBB67AE85, 0x3C6EF372, 0xA54FF53A, 0x510E527F, 0x9B05688C, 0x1F83D9AB, 0x5BE0CD19]

def sigma : List (Vector (Fin 16) 16) :=
  [#v[0, 1, 2, 3, 4, 5, 6, 7, 8, 9, 10, 11, 12, 13, 14, 15],
   #v[14, 10, 4, 8, 9, 15, 13, 6, 1, 12, 0, 2, 11, 7, 5, 3],
   #v[11, 8, 12, 0, 5, 2, 15, 13, 10, 14, 3, 6, 7, 1, 9, 4],
   #v[7, 9, 3, 1, 13, 12, 11, 14, 2, 6, 5, 10, 4, 0, 15, 8],
   #v[9, 0, 5, 7, 2, 4, 10, 15, 14, 1, 11, 12, 6, 8, 3, 13],
   #v[2, 12, 6, 10, 0, 11, 8, 3, 4, 13, 7, 5, 15, 14, 1, 9],
   #v[12, 5, 1, 15, 14, 13, 4, 10, 0, 7, 6, 3, 9, 2, 8, 11],
   #v[13, 11, 7, 14, 12, 1, 3, 9, 5, 0, 15, 4, 8, 6, 2, 10],
   #v[6, 15, 14, 9, 11, 3, 0, 8, 12, 2, 13, 7, 1, 4, 10, 5],
   #v[10, 2, 8, 4, 7, 6, 1, 5, 15, 11, 9, 14, 3, 12, 13, 0]]

def round (m : Fin 16 → Word) (v : Work) (s : Vector (Fin 16) 16) : Work :=
  let v := b2sG 0 4 8 12 (m s[0]) (m s[1]) v
  let v := b2sG 1 5 9 13 (m s[2]) (m s[3]) v
  let v := b2sG 2 6 10 14 (m s[4]) (m s[5]) v
  let v := b2sG 3 7 11 15 (m s[6]) (m s[7]) v
  let v := b2sG 0 5 10 15 (m s[8]) (m s[9]) v
  let v := b2sG 1 6 11 12 (m s[10]) (m s[11]) v
  let v := b2sG 2 7 8 13 (m s[12]) (m s[13]) v
  b2sG 3 4 9 14 (m s[14]) (m s[15]) v

def rounds (m : Fin 16 → Word) (v : Work) : Work := sigma.foldl (round m) v

def workVars (h : Vector Word 8) (t0 t1 : Word) (last : Bool) : Work :=
  let v : Work := h ++ blake2sIv
  let v := v.set 12 (v[12] ^^^ t0)
  let v := v.set 13 (v[13] ^^^ t1)
  if last then v.set 14 (~~~ v[14]) else v

def blake2sCompress (ctx : Blake2sCtx) (last : Bool) : Blake2sCtx :=
  let v := rounds (b2sGet32 ctx.b) (workVars ctx.h ctx.t0 ctx.t1 last)
  { ctx with h := Vector.ofFn fun i : Fin 8 => ctx.h[i] ^^^ (v[i.val] ^^^ v[i.val + 8]) }

def addCounters (ctx : Blake2sCtx) : Blake2sCtx :=
  let t0 := ctx.t0 + BitVec.ofNat 32 ctx.c
  { ctx with
    t0 := t0
    t1 := if t0 < BitVec.ofNat 32 ctx.c then ctx.t1 + 1 else ctx.t1 }

/-- `ctx->b[ctx->c++] = x` -/
def addByte (ctx : Blake2sCtx) (x : UInt8) : Blake2sCtx :=
  { ctx with b := ctx.b.setIfInBounds ctx.c x, c := ctx.c + 1 }

def updateByte (ctx : Blake2sCtx) (x : UInt8) : Blake2sCtx :=
  if ctx.c = 64 then addByte { blake2sCompress (addCounters ctx) false with c := 0 } x
  else addByte ctx x

def blake2sUpdate (ctx : Blake2sCtx) (input : List UInt8) : Blake2sCtx := input.foldl updateByte ctx

/-- The context before the key: its buffer keeps what it held where the key goes. -/
def clearCtx (ctx : Blake2sCtx) (outlen keylen : Nat) : Blake2sCtx where
  b := Vector.ofFn fun i : Fin 64 => if i.val < keylen then ctx.b[i] else 0
  h :=
    blake2sIv.set 0 (blake2sIv[0] ^^^
      (0x01010000 ^^^ (BitVec.ofNat 32 keylen <<< 8) ^^^ BitVec.ofNat 32 outlen))
  t0 := 0
  t1 := 0
  c := 0
  outlen := outlen

/-- `none` is the return of -1; `ctx` is what memory holds before. -/
def blake2sInit (ctx : Blake2sCtx) (outlen : Nat) (key : List UInt8) : Option Blake2sCtx :=
  if outlen = 0 ∨ outlen > 32 ∨ key.length > 32 then none
  else
    let ctx := clearCtx ctx outlen key.length
    some (if key.length > 0 then { blake2sUpdate ctx key with c := 64 } else ctx)

def outByte (h : Vector Word 8) (i : Nat) : UInt8 :=
  UInt8.ofBitVec (((h[i >>> 2]?.getD 0) >>> (8 * (i &&& 3))).setWidth 8)

def blake2sFinal (ctx : Blake2sCtx) : List UInt8 :=
  let ctx := addCounters ctx
  let ctx := (List.replicate (64 - ctx.c) 0).foldl addByte ctx
  let ctx := blake2sCompress ctx true
  (List.range ctx.outlen).map (outByte ctx.h)

def blake2s (ctx : Blake2sCtx) (outlen : Nat) (key input : List UInt8) : Option (List UInt8) :=
  (blake2sInit ctx outlen key).map fun ctx => blake2sFinal (blake2sUpdate ctx input)

def ctx0 : Blake2sCtx := ⟨Vector.replicate 64 0, Vector.replicate 8 0, 0, 0, 0, 0⟩

example : blake2s ctx0 32 [] [0x61, 0x62, 0x63] = some
    [0x50, 0x8C, 0x5E, 0x8C, 0x32, 0x7C, 0x14, 0xE2, 0xE1, 0xA7, 0x2B, 0xA3, 0x4E, 0xEB, 0x45, 0x2F,
     0x37, 0x45, 0x8B, 0x20, 0x9E, 0xD6, 0x3A, 0x29, 0x4D, 0x99, 0x9B, 0x4C, 0x86, 0x67,
     0x59, 0x82] := by
  decide +kernel

/-! ## The standard -/

/-- The bytes of a word from the lowest on; a block that ends early goes on with zeros. -/
def leWord (block : List UInt8) (i : Fin 16) : Word :=
  let byte k := (block.getD (4 * i.val + k) 0).toBitVec
  (byte 3 ++ byte 2 ++ byte 1 ++ byte 0 : BitVec (8 + 8 + 8 + 8))

def leBytes (w : Word) : List UInt8 :=
  [0, 8, 16, 24].map fun k => UInt8.ofBitVec ((w >>> k).setWidth 8)

/-- Words of 32 bits and ten rounds. -/
abbrev variant : Blake2.Variant := ⟨32, 10, 16, 12, 8, 7⟩

/-- The compression function; `t` is the number of bytes up to the end of the block, in 64 bits. -/
def F (h : Vector Word 8) (block : List UInt8) (t : Nat) (last : Bool) : Vector Word 8 :=
  Vector.ofFn (Blake2.F variant (fun i => h[i]) (leWord block) t last)

def paramBlock (outlen keylen : Nat) : Vector Word 8 :=
  Vector.ofFn (Blake2.initial variant keylen outlen)

def keyBlock (key : List UInt8) : List UInt8 :=
  if key = [] then [] else key ++ List.replicate (64 - key.length) 0

def mixed (h : Vector Word 8) (block : List UInt8) (t : Nat) : Vector Word 8 := F h block t false

def digest (outlen : Nat) (key message : List UInt8) : List UInt8 :=
  let d := keyBlock key ++ message
  let h := chain mixed 64 (paramBlock outlen key.length) d
  ((F h (last 64 d) d.length true).toList.flatMap leBytes).take outlen

/-! ## The rounds -/

def square (v : Work) : Blake2.Square 32 := fun i => v[i]

section Square
variable {v : Work}

theorem square_set (v : Work) (i : Fin 16) (x : Word) :
    square (v.set i x) = Function.update (square v) i x := by
  funext j
  by_cases here : j = i
  · subst here
    simp [square]
  · have apart : i.val ≠ j.val := fun same => here (Fin.ext same.symm)
    simp only [square, Function.update_of_ne here]
    exact Vector.getElem_set_ne _ _ apart

theorem rotr32_rotateRight (x : Word) {y : Nat} (narrow : y < 32) :
    rotr32 x y = x.rotateRight y := by
  apply BitVec.eq_of_getLsbD_eq
  intro j inside
  simp only [rotr32, BitVec.getLsbD_xor, BitVec.getLsbD_shiftLeft, BitVec.getLsbD_ushiftRight,
    BitVec.getLsbD_rotateRight, Nat.mod_eq_of_lt narrow]
  by_cases low : j < 32 - y
  · simp [low]
  · have gone : x.getLsbD (y + j) = false := BitVec.getLsbD_of_ge x _ (by omega)
    simp [low, inside, gone]

theorem b2sG_mixing (a b c d : Fin 16) (x y : Word) (v : Work) :
    square (b2sG a b c d x y v) = Blake2.G variant (square v) a b c d x y := by
  have entry (v : Work) (i : Fin 16) : v[i] = square v i := rfl
  have turn (x : Word) {y : Nat} (narrow : y < 32) := rotr32_rotateRight x narrow
  simp only [b2sG, Blake2.G, entry, square_set, turn _ (by decide : 16 < 32),
    turn _ (by decide : 12 < 32), turn _ (by decide : 8 < 32), turn _ (by decide : 7 < 32)]

theorem round_mixing (m : Fin 16 → Word) (s : Vector (Fin 16) 16) (v : Work) :
    square (round m v s) = Blake2.round variant (fun i => m s[i]) (square v) := by
  simp only [round, b2sG_mixing, Blake2.round, Blake2.mixLine, List.foldl_cons, List.foldl_nil]
  generalize Blake2.G variant = mix
  rfl

theorem sigma_rows : sigma = (List.range 10).map fun r =>
    Vector.ofFn (Blake2.sigma (Fin.ofNat 10 r)) := by
  decide

theorem rounds_mixing (m : Fin 16 → Word) (v : Work) :
    square (rounds m v) = (List.range 10).foldl (fun v r =>
      Blake2.round variant (fun i => m (Blake2.sigma (Fin.ofNat 10 r) i)) v) (square v) := by
  have folded : ∀ (rows : List Nat) (v : Work),
      square ((rows.map fun r => Vector.ofFn (Blake2.sigma (Fin.ofNat 10 r))).foldl (round m) v) =
        rows.foldl (fun v r =>
          Blake2.round variant (fun i => m (Blake2.sigma (Fin.ofNat 10 r) i)) v) (square v) := by
    intro rows
    induction rows with
    | nil => exact fun _ => rfl
    | cons r rows ih =>
      intro v
      simp only [List.map_cons, List.foldl_cons, ih, round_mixing, Fin.getElem_fin,
        Vector.getElem_ofFn]
  rw [rounds, sigma_rows, folded]

theorem iv_root : ∀ i : Fin 8, blake2sIv[i] = Blake2.iv variant i := by
  let roots : Fin 8 → Nat := ![0x16A09E667, 0x1BB67AE85, 0x23C6EF372, 0x2A54FF53A, 0x3510E527F,
    0x39B05688C, 0x41F83D9AB, 0x45BE0CD19]
  have bounds : ∀ i, roots i * roots i ≤ Blake2.primes i * 2 ^ (2 * 32) ∧
      Blake2.primes i * 2 ^ (2 * 32) < (roots i + 1) * (roots i + 1) := by
    decide
  have words : ∀ i : Fin 8, blake2sIv[i] = BitVec.ofNat 32 (roots i) := by decide
  intro i
  rw [words i, Blake2.iv_eq variant i (bounds i).1 (bounds i).2]

theorem workVars_square (h : Vector Word 8) (t : Nat) (last : Bool) :
    square (workVars h (BitVec.ofNat 32 t) (BitVec.ofNat 32 (t / 2 ^ 32)) last) =
      Blake2.work variant (fun i => h[i]) t last := by
  funext ⟨i, inside⟩
  simp only [square, Blake2.work, ← iv_root]
  have begins (v : Work) (same : v = h ++ blake2sIv) (j : Nat) (inside : j < 16) :
      v[j] = if state : j < 8 then h[j] else blake2sIv[j - 8] := by
    subst same
    exact Vector.getElem_append _
  have begins := begins _ rfl
  interval_cases i <;> cases last <;> simp [workVars, begins]
  exact BitVec.xor_allOnes.symm

end Square

/-! ## The words -/

section Words
variable {h : Vector Word 8} {b : Vector UInt8 64}

theorem joined (p q r s : BitVec 8) :
    (p.setWidth 32) ^^^ (q.setWidth 32 <<< 8) ^^^ (r.setWidth 32 <<< 16) ^^^
    (s.setWidth 32 <<< 24) =
      (s ++ r ++ q ++ p : BitVec (8 + 8 + 8 + 8)) := by
  apply BitVec.eq_of_getLsbD_eq
  intro j inside
  have bits : (s ++ r ++ q ++ p : BitVec (8 + 8 + 8 + 8)).getLsbD j =
      if j < 8 then p.getLsbD j else if j - 8 < 8 then q.getLsbD (j - 8) else
        if j - 8 - 8 < 8 then r.getLsbD (j - 8 - 8) else s.getLsbD (j - 8 - 8 - 8) := by
    simp only [BitVec.getLsbD_append]
  rw [bits]
  simp only [BitVec.getLsbD_xor, BitVec.getLsbD_shiftLeft, BitVec.getLsbD_setWidth]
  by_cases first : j < 8
  · simp [first, show j < 16 by omega, show j < 24 by omega, show j < 32 by omega]
  · have p' : p.getLsbD j = false := BitVec.getLsbD_of_ge p j (by omega)
    by_cases second : j < 16
    · simp [first, second, p', show j < 24 by omega, show j - 8 < 8 by omega, show j < 32 by omega,
        show j - 8 < 32 by omega]
    · have q' : q.getLsbD (j - 8) = false := BitVec.getLsbD_of_ge q _ (by omega)
      by_cases third : j < 24
      · simp [first, second, third, p', q', show j - 8 - 8 = j - 16 by omega,
          show ¬ j - 8 < 8 by omega, show j - 16 < 8 by omega,
          show j < 32 by omega, show j - 16 < 32 by omega]
      · have r' : r.getLsbD (j - 16) = false := BitVec.getLsbD_of_ge r _ (by omega)
        simp [first, second, third, p', q', r', show j - 8 - 8 - 8 = j - 24 by omega,
          show ¬ j - 8 < 8 by omega,
          show ¬ j - 8 - 8 < 8 by omega, show j < 32 by omega, show j - 24 < 32 by omega]

theorem getWord (b : Vector UInt8 64) (i : Fin 16) : b2sGet32 b i = leWord b.toList i := by
  have byte : ∀ k (inside : 4 * i.val + k < 64), b[4 * i.val + k] =
      b.toList.getD (4 * i.val + k) 0 := by
    intro k inside
    rw [List.getD_eq_getElem?_getD, List.getElem?_eq_getElem (by simpa using inside),
      Option.getD_some, Vector.getElem_toList]
  rw [b2sGet32, joined, byte 1 (by omega), byte 2 (by omega), byte 3 (by omega), show b[4 * i.val] =
    _ from byte 0 (by omega), leWord]

theorem leWord_zeros (block : List UInt8) (k : Nat) (i : Fin 16) :
    leWord (block ++ List.replicate k 0) i = leWord block i := by
  have same : ∀ j, (block ++ List.replicate k 0).getD j 0 = block.getD j 0 := by
    intro j
    simp only [List.getD_eq_getElem?_getD]
    by_cases inside : j < block.length
    · rw [List.getElem?_append_left inside]
    · rw [List.getElem?_append_right (by omega),
        List.getElem?_eq_none (show block.length ≤ j by omega), List.getElem?_replicate]
      split <;> rfl
  simp only [leWord, same]

theorem compress_F (ctx : Blake2sCtx) (t k : Nat) (block : List UInt8) (last : Bool)
    (bytes : ctx.b.toList = block ++ List.replicate k 0) (low : ctx.t0 = BitVec.ofNat 32 t)
    (high : ctx.t1 = BitVec.ofNat 32 (t / 2 ^ 32)) :
    blake2sCompress ctx last = { ctx with h := F ctx.h block t last } := by
  have words : b2sGet32 ctx.b = leWord block := by
    funext i
    rw [getWord, bytes, leWord_zeros]
  have work := rounds_mixing (leWord block)
    (workVars ctx.h (BitVec.ofNat 32 t) (BitVec.ofNat 32 (t / 2 ^ 32)) last)
  rw [workVars_square] at work
  have state : (blake2sCompress ctx last).h = F ctx.h block t last := by
    ext1 i inside
    have first := congrFun work ⟨i, by omega⟩
    have second := congrFun work ⟨i + 8, by omega⟩
    simp only [blake2sCompress, words, low, high, F, Vector.getElem_ofFn, Blake2.F,
      ← BitVec.xor_assoc]
    exact congrArg₂ (· ^^^ ·) (congrArg (ctx.h[i] ^^^ ·) first) second
  rw [← state]
  rfl

theorem vector_eight (h : Vector Word 8) :
    h = #v[h[0], h[1], h[2], h[3], h[4], h[5], h[6], h[7]] := by
  ext i inside
  interval_cases i <;> rfl

theorem outBytes (h : Vector Word 8) :
    (List.range 32).map (outByte h) = h.toList.flatMap leBytes := by
  rw [vector_eight h]
  rfl

theorem outBytes_take (h : Vector Word 8) {n : Nat} (small : n ≤ 32) :
    (List.range n).map (outByte h) = (h.toList.flatMap leBytes).take n := by
  rw [← outBytes, ← List.map_take, List.take_range, Nat.min_eq_left small]

end Words

/-! ## The context -/

/-- The context is at a stream: the bytes that wait are the first of the buffer, the count is in two
    words. -/
structure Follows (outlen : Nat) (ctx : Blake2sCtx) (s : Buffered (Vector Word 8) UInt8) :
    Prop where
  h : ctx.h = s.state
  t0 : ctx.t0 = BitVec.ofNat 32 s.count
  t1 : ctx.t1 = BitVec.ofNat 32 (s.count / 2 ^ 32)
  c : ctx.c = s.buffer.length
  room : ctx.c ≤ 64
  b : ctx.b.toList.take ctx.c = s.buffer
  outlen : ctx.outlen = outlen

section Context
variable {ctx : Blake2sCtx} {s : Buffered (Vector Word 8) UInt8} {n : Nat}

theorem carry (count c : Nat) (small : c ≤ 64) :
    (BitVec.ofNat 32 count + BitVec.ofNat 32 c = BitVec.ofNat 32 (count + c)) ∧
      (if BitVec.ofNat 32 count + BitVec.ofNat 32 c < BitVec.ofNat 32 c then BitVec.ofNat 32
      (count / 2 ^ 32) + 1
        else BitVec.ofNat 32 (count / 2 ^ 32)) = BitVec.ofNat 32 ((count + c) / 2 ^ 32) := by
  refine ⟨(BitVec.ofNat_add _ _).symm, ?_⟩
  simp only [← BitVec.ofNat_add, BitVec.lt_def, BitVec.toNat_ofNat,
    Nat.mod_eq_of_lt (show c < 2 ^ 32 by omega)]
  split
  · have up : (count + c) / 2 ^ 32 = count / 2 ^ 32 + 1 := by omega
    rw [up, BitVec.ofNat_add]
    rfl
  · have same : (count + c) / 2 ^ 32 = count / 2 ^ 32 := by omega
    rw [same]

theorem addCounters_count (follows : Follows n ctx s) : addCounters ctx =
    { ctx with
    t0 := BitVec.ofNat 32 (s.count + ctx.c), t1 :=
  BitVec.ofNat 32 ((s.count + ctx.c) / 2 ^ 32) } := by
  obtain ⟨low, high⟩ := carry s.count ctx.c follows.room
  rw [addCounters, follows.t0, follows.t1, ← low, ← high]

theorem addByte_take (room : ctx.c < 64) (x : UInt8) :
    (addByte ctx x).b.toList.take (addByte ctx x).c = ctx.b.toList.take ctx.c ++ [x] := by
  have inside : ctx.c < ctx.b.toList.length := by simpa using room
  simp only [addByte]
  rw [Vector.toList_setIfInBounds, List.take_add_one, List.take_set_of_le (Nat.le_refl _),
    List.getElem?_set_self inside]
  rfl

theorem addByte_follows (follows : Follows n ctx s) (room : ctx.c < 64) (x : UInt8) :
    Follows n (addByte ctx x) { s with buffer := s.buffer ++ [x] } where
  h := follows.h
  t0 := follows.t0
  t1 := follows.t1
  c := by rw [List.length_append, ← follows.c]; rfl
  room := room
  b := by rw [addByte_take room, follows.b]
  outlen := follows.outlen

theorem whole (follows : Follows n ctx s) (full : ctx.c = 64) :
    (addCounters ctx).b.toList = s.buffer ++ List.replicate 0 0 := by
  rw [List.replicate_zero, List.append_nil, ← follows.b, full, List.take_of_length_le (by simp)]
  rfl

theorem updateByte_follows (follows : Follows n ctx s) (x : UInt8) :
    Follows n (updateByte ctx x) (push mixed 64 s x) := by
  by_cases full : ctx.c = 64
  · have taken := compress_F (addCounters ctx) (s.count + 64) 0 s.buffer false (whole follows full)
      (by rw [addCounters_count follows, full])
      (by rw [addCounters_count follows, full])
    have emptied : Follows n { blake2sCompress (addCounters ctx) false with
        c := 0 } ⟨mixed s.state s.buffer (s.count + 64), s.count + 64, []⟩ := by
      rw [taken, addCounters_count follows, full, follows.h]
      exact ⟨rfl, rfl, rfl, rfl, Nat.zero_le _, rfl, follows.outlen⟩
    rw [updateByte, if_pos full, push, if_pos (by rw [← follows.c, full])]
    exact addByte_follows emptied (Nat.zero_lt_succ _) x
  · rw [updateByte, if_neg full, push, if_neg (by rw [← follows.c]; exact full)]
    exact addByte_follows follows (Nat.lt_of_le_of_ne follows.room full) x

theorem update_follows (follows : Follows n ctx s) (input : List UInt8) :
    Follows n (blake2sUpdate ctx input) (input.foldl (push mixed 64) s) := by
  induction input generalizing ctx s with
  | nil => exact follows
  | cons x input ih => exact ih (updateByte_follows follows x)

theorem addBytes (bytes : List UInt8) (room : ctx.c + bytes.length ≤ 64) :
    bytes.foldl addByte ctx =
    { ctx with b := (bytes.foldl addByte ctx).b, c := ctx.c + bytes.length } ∧
    (bytes.foldl addByte ctx).b.toList =
        ctx.b.toList.take ctx.c ++ bytes ++ ctx.b.toList.drop (ctx.c + bytes.length) := by
  induction bytes generalizing ctx with
  | nil => exact ⟨rfl, by simp⟩
  | cons x bytes ih =>
    rw [List.length_cons] at room
    have next : (addByte ctx x).c + bytes.length = ctx.c + (bytes.length + 1) := by
      simp only [addByte]
      omega
    obtain ⟨rest, whole⟩ := ih (next.trans_le room)
    rw [next] at rest whole
    refine ⟨rest, ?_⟩
    have beyond : (addByte ctx x).b.toList.drop (ctx.c + (bytes.length + 1)) =
        ctx.b.toList.drop (ctx.c + (bytes.length + 1)) := by
      rw [addByte, Vector.toList_setIfInBounds, List.drop_set_of_lt (by omega)]
    rw [List.foldl_cons, whole, addByte_take (by omega), beyond, List.length_cons]
    simp only [List.append_assoc, List.cons_append, List.nil_append]

theorem zeros_toList (room : ctx.c ≤ 64) :
    ((List.replicate (64 - ctx.c) 0).foldl addByte ctx) =
      { ctx with b := ((List.replicate (64 - ctx.c) 0).foldl addByte ctx).b, c := 64 } ∧
    ((List.replicate (64 - ctx.c) 0).foldl addByte ctx).b.toList =
        ctx.b.toList.take ctx.c ++ List.replicate (64 - ctx.c) 0 := by
  have up : ctx.c + (64 - ctx.c) = 64 := by omega
  have fits : ctx.c + (List.replicate (64 - ctx.c) (0 : UInt8)).length ≤ 64 := by
    rw [List.length_replicate, up]
  obtain ⟨rest, whole⟩ := addBytes _ fits
  rw [List.length_replicate, up] at rest whole
  refine ⟨rest, ?_⟩
  rw [whole, List.drop_of_length_le (by simp), List.append_nil]

theorem final_follows (follows : Follows n ctx s) (small : n ≤ 32) :
    blake2sFinal ctx =
    ((F s.state s.buffer (s.count + s.buffer.length) true).toList.flatMap leBytes).take n := by
  have kept : (addCounters ctx).c = ctx.c := rfl
  obtain ⟨same, bytes⟩ := zeros_toList (kept.trans_le follows.room)
  rw [kept] at same bytes
  have mixedIn := compress_F ((List.replicate (64 - ctx.c) 0).foldl addByte (addCounters ctx))
    (s.count + ctx.c) (64 - ctx.c) s.buffer true
    (by rw [bytes, ← follows.b]; rfl) (by rw [same, addCounters_count follows])
      (by rw [same, addCounters_count follows])
  have state : ((List.replicate (64 - ctx.c) 0).foldl addByte (addCounters ctx)).h = s.state := by
    rw [same, ← follows.h]
    rfl
  have length : ((List.replicate (64 - ctx.c) 0).foldl addByte (addCounters ctx)).outlen = n := by
    rw [same, ← follows.outlen]
    rfl
  rw [blake2sFinal, kept, mixedIn]
  simp only [state, length]
  rw [outBytes_take _ small, follows.c]

theorem updateShort (input : List UInt8) (room : ctx.c + input.length ≤ 64) :
    blake2sUpdate ctx input = input.foldl addByte ctx := by
  induction input generalizing ctx with
  | nil => rfl
  | cons x input ih =>
    rw [List.length_cons] at room
    rw [blake2sUpdate, List.foldl_cons, updateByte, if_neg (by omega)]
    exact ih (by simp only [addByte]; omega)

theorem pushShort {h : Vector Word 8} (waits input : List UInt8)
    (room : waits.length + input.length ≤ 64) :
    input.foldl (push mixed 64) ⟨h, 0, waits⟩ = ⟨h, 0, waits ++ input⟩ := by
  induction input generalizing waits with
  | nil => simp
  | cons x input ih =>
    rw [List.length_cons] at room
    rw [List.foldl_cons, push, if_neg (by simp only; omega)]
    simp only
    rw [ih (waits ++ [x]) (by rw [List.length_append, List.length_singleton]; omega),
      List.append_assoc, List.singleton_append]

end Context

/-! ## The whole hash -/

theorem clear_rest (before : Blake2sCtx) (outlen keylen : Nat) :
    (clearCtx before outlen keylen).b.toList.drop keylen = List.replicate (64 - keylen) 0 := by
  apply List.ext_getElem
  · rw [List.length_drop, Vector.length_toList, List.length_replicate]
  · intro i inside _
    rw [List.getElem_drop, Vector.getElem_toList, List.getElem_replicate]
    simp only [clearCtx, Vector.getElem_ofFn]
    exact if_neg (by omega)

theorem paramBlock_word (outlen keylen : Nat) : paramBlock outlen keylen = blake2sIv.set 0
    (blake2sIv[0] ^^^ (0x01010000 ^^^ (BitVec.ofNat 32 keylen <<< 8) ^^^
    BitVec.ofNat 32 outlen)) := by
  ext1 i inside
  simp only [paramBlock, Vector.getElem_ofFn, Blake2.initial, ← iv_root]
  rcases Nat.eq_zero_or_pos i with rfl | later
  · simp [BitVec.xor_assoc]
  · simp [Nat.ne_of_gt later, Nat.ne_of_lt later, Fin.ext_iff]

theorem clear_follows (before : Blake2sCtx) (outlen keylen : Nat) :
    Follows outlen (clearCtx before outlen keylen) (start (paramBlock outlen keylen)) where
  h := (paramBlock_word outlen keylen).symm
  t0 := rfl
  t1 := by simp [clearCtx, start]
  c := rfl
  room := Nat.zero_le _
  b := rfl
  outlen := rfl

theorem full_follows {b : Vector UInt8 64} {h : Vector Word 8} {waits : List UInt8} {outlen : Nat}
    (bytes : b.toList = waits)
    (length : waits.length = 64) : Follows outlen ⟨b, h, 0, 0, 64, outlen⟩ ⟨h, 0, waits⟩ where
  h := rfl
  t0 := rfl
  t1 := by simp
  c := length.symm
  room := Nat.le_refl 64
  b := by rw [bytes, List.take_of_length_le (Nat.le_of_eq length)]
  outlen := rfl

theorem init_follows (before : Blake2sCtx) {outlen : Nat} {key : List UInt8}
    (ok : 0 < outlen ∧ outlen ≤ 32 ∧ key.length ≤ 32) :
    ∃ ctx, blake2sInit before outlen key = some ctx ∧
      Follows outlen ctx
      ((keyBlock key).foldl (push mixed 64) (start (paramBlock outlen key.length))) := by
  obtain ⟨positive, small, short⟩ := ok
  have clear := clear_follows before outlen key.length
  rw [blake2sInit, if_neg (by omega)]
  refine ⟨_, rfl, ?_⟩
  by_cases none : key = []
  · subst none
    exact clear
  · have some : key.length > 0 := List.length_pos_of_ne_nil none
    have room : (clearCtx before outlen key.length).c + key.length ≤ 64 := by
      simp only [clearCtx]
      omega
    have length : (keyBlock key).length = 64 := by
      rw [keyBlock, if_neg none, List.length_append, List.length_replicate]
      omega
    obtain ⟨rest, bytes⟩ := addBytes key room
    have filled : (key.foldl addByte (clearCtx before outlen key.length)).b.toList =
        keyBlock key := by
      rw [bytes, keyBlock, if_neg none, show (clearCtx before outlen key.length).c = 0 from rfl,
        Nat.zero_add, clear_rest]
      rfl
    rw [if_pos some, updateShort key room, rest, start,
      pushShort [] (keyBlock key) (by rw [length]; decide), List.nil_append]
    rw [paramBlock_word]
    exact full_follows filled length

theorem updates_follow {outlen : Nat} {ctx : Blake2sCtx} {s : Buffered (Vector Word 8) UInt8}
    (follows : Follows outlen ctx s)
    (pieces : List (List UInt8)) :
    Follows outlen (pieces.foldl blake2sUpdate ctx) (pieces.flatten.foldl (push mixed 64) s) := by
  induction pieces generalizing ctx s with
  | nil => exact follows
  | cons input pieces ih =>
    rw [List.flatten_cons, List.foldl_append]
    exact ih (update_follows follows input)

theorem digest_follows {outlen : Nat} {ctx : Blake2sCtx} {key message : List UInt8}
    (small : outlen ≤ 32)
    (follows : Follows outlen ctx
    ((keyBlock key ++ message).foldl (push mixed 64) (start (paramBlock outlen key.length)))) :
    blake2sFinal ctx = digest outlen key message := by
  obtain ⟨state, count, buffer⟩ :=
    stream_holds (by decide : 0 < 64) mixed (paramBlock outlen key.length) (keyBlock key ++ message)
  have length := last_length 64 (keyBlock key ++ message)
  have reach := before_le 64 (keyBlock key ++ message)
  rw [final_follows follows small, state, count, buffer, length, Nat.add_sub_cancel' reach, digest]

theorem pieces_follow (before : Blake2sCtx) {outlen : Nat} {key : List UInt8}
    (ok : 0 < outlen ∧ outlen ≤ 32 ∧ key.length ≤ 32)
    (pieces : List (List UInt8)) :
    (blake2sInit before outlen key).map (fun ctx => blake2sFinal (pieces.foldl blake2sUpdate ctx)) =
      some (digest outlen key pieces.flatten) := by
  obtain ⟨ctx, done, follows⟩ := init_follows before ok
  rw [done, Option.map_some]
  apply congrArg some
  apply digest_follows ok.2.1
  rw [List.foldl_append]
  exact updates_follow follows pieces

/-- Whatever the context held and in whichever pieces the message comes, of any total length, what
    is stored is the hash of the standard; there is none just for a length or a key it has no hash
    for. -/
theorem pieces_hash (before : Blake2sCtx) (outlen : Nat) (key : List UInt8)
    (pieces : List (List UInt8)) :
    (blake2sInit before outlen key).map (fun ctx => blake2sFinal (pieces.foldl blake2sUpdate ctx)) =
      if 0 < outlen ∧ outlen ≤ 32 ∧ key.length ≤ 32 then some (digest outlen key pieces.flatten)
      else none := by
  split
  · rename_i ok
    exact pieces_follow before ok pieces
  · rename_i bad
    rw [blake2sInit, if_pos (by omega), Option.map_none]

theorem blake2s_hash (before : Blake2sCtx) {outlen : Nat} {key : List UInt8}
    (ok : 0 < outlen ∧ outlen ≤ 32 ∧ key.length ≤ 32)
    (input : List UInt8) : blake2s before outlen key input = some (digest outlen key input) := by
  have whole := pieces_follow before ok [input]
  rw [List.flatten_singleton] at whole
  exact whole

/-! ## The rounds lose nothing -/

section Rounds
variable {a b c d : Fin 16}

theorem assign_injective {i : Fin 16} {f : Work → Word}
    (back : ∀ v v' : Work, (∀ j : Fin 16, j ≠ i → v[j] = v'[j]) → f v = f v' → v[i] = v'[i]) :
    Function.Injective fun v : Work => v.set i (f v) := by
  intro v v' same
  have others : ∀ j : Fin 16, j ≠ i → v[j] = v'[j] := by
    intro j other
    have entry := congrArg (fun w : Work => w[j]) same
    have apart : i.val ≠ j.val := fun eq => other (Fin.ext eq.symm)
    simpa [Vector.getElem_set_ne _ _ apart] using entry
  have value : f v = f v' := by
    have entry := congrArg (fun w : Work => w[i]) same
    simpa using entry
  ext1 j inside
  by_cases here : (⟨j, inside⟩ : Fin 16) = i
  · have read := back v v' others value
    rw [← here] at read
    exact read
  · exact others ⟨j, inside⟩ here

theorem rotr32_injective {y : Nat} (positive : 0 < y) (narrow : y < 32) : Function.Injective fun x :
    Word => rotr32 x y := by
  intro x x' same
  apply WordMixing.rotl_injective (a := 32 - y) (by omega) x x'
  have rotl : ∀ x : Word, rotr32 x y = WordMixing.rotl (32 - y) x := by
    intro x
    apply BitVec.eq_of_getLsbD_eq
    intro j inside
    simp only [rotr32, WordMixing.rotl, BitVec.getLsbD_xor, BitVec.getLsbD_or,
      BitVec.getLsbD_shiftLeft, BitVec.getLsbD_ushiftRight]
    by_cases low : j < 32 - y
    · simp [low, show 32 - (32 - y) = y by omega]
    · have gone : x.getLsbD (y + j) = false := BitVec.getLsbD_of_ge x _ (by omega)
      simp [low, inside, gone, show 32 - (32 - y) = y by omega]
  rw [← rotl, ← rotl]
  exact same

theorem sum_injective (apart : b ≠ a) (x : Word) : Function.Injective fun v :
    Work => v.set a (v[a] + v[b] + x) :=
  assign_injective fun v v' others same => by
    rw [others b apart] at same
    exact add_right_cancel (add_right_cancel same)

theorem add_injective (apart : d ≠ c) : Function.Injective fun v : Work => v.set c (v[c] + v[d]) :=
  assign_injective fun v v' others same => by
    rw [others d apart] at same
    exact add_right_cancel same

theorem turn_injective (apart : a ≠ d) {y : Nat} (positive : 0 < y) (narrow : y < 32) :
    Function.Injective fun v : Work => v.set d (rotr32 (v[d] ^^^ v[a]) y) :=
  assign_injective fun v v' others same => by
    have both := rotr32_injective positive narrow same
    rw [others a apart] at both
    exact (BitVec.xor_left_inj _).mp both

theorem b2sG_injective (ab : b ≠ a) (ad : a ≠ d) (cd : d ≠ c) (bc : c ≠ b) (x y : Word) :
    Function.Injective (b2sG a b c d x y) :=
  (turn_injective bc (by decide) (by decide)).comp <| (add_injective cd).comp <|
    (turn_injective ad (by decide) (by decide)).comp <| (sum_injective ab y).comp <|
    (turn_injective bc (by decide) (by decide)).comp <| (add_injective cd).comp <|
    (turn_injective ad (by decide) (by decide)).comp (sum_injective ab x)

theorem round_injective (m : Fin 16 → Word) (s : Vector (Fin 16) 16) :
    Function.Injective fun v => round m v s :=
  (b2sG_injective (by decide) (by decide) (by decide) (by decide) (m s[14]) (m s[15])).comp <|
    (b2sG_injective (by decide) (by decide) (by decide) (by decide) (m s[12]) (m s[13])).comp <|
    (b2sG_injective (by decide) (by decide) (by decide) (by decide) (m s[10]) (m s[11])).comp <|
    (b2sG_injective (by decide) (by decide) (by decide) (by decide) (m s[8]) (m s[9])).comp <|
    (b2sG_injective (by decide) (by decide) (by decide) (by decide) (m s[6]) (m s[7])).comp <|
    (b2sG_injective (by decide) (by decide) (by decide) (by decide) (m s[4]) (m s[5])).comp <|
    (b2sG_injective (by decide) (by decide) (by decide) (by decide) (m s[2]) (m s[3])).comp
      (b2sG_injective (by decide) (by decide) (by decide) (by decide) (m s[0]) (m s[1]))

/-- For each message block the ten rounds are injective: no two working states become one. -/
theorem rounds_injective (m : Fin 16 → Word) : Function.Injective (rounds m) := by
  have folded : ∀ rows : List (Vector (Fin 16) 16), Function.Injective fun v =>
      rows.foldl (round m) v := by
    intro rows
    induction rows with
    | nil => exact fun _ _ same => same
    | cons s rows ih => exact ih.comp (round_injective m s)
  exact folded sigma

end Rounds

end Blake2s
