import Mathlib.Data.UInt

/- The hash of `crypt.c`. It is not MurmurHash3 to the letter: the tail loop counts
   `len % 3` bytes and the body adds a constant of nine hex digits. -/
namespace Crypt

def murmurScramble (k : UInt32) : UInt32 :=
  let k := k * 0xcc9e2d51
  let k := (k <<< 15) ||| (k >>> 17)
  k * 0x1b873593

/-- `memcpy(&k, key, sizeof(uint32_t))` on a little-endian machine. -/
def wordAt (key : Nat → UInt8) (pos : Nat) : UInt32 :=
  (key pos).toUInt32 ||| ((key (pos + 1)).toUInt32 <<< 8) |||
    ((key (pos + 2)).toUInt32 <<< 16) ||| ((key (pos + 3)).toUInt32 <<< 24)

def murmurBody (key : Nat → UInt8) : Nat → Nat → UInt32 → UInt32
  | 0, _, h => h
  | n + 1, pos, h =>
    let h := h ^^^ murmurScramble (wordAt key pos)
    let h := h ^^^ ((h <<< 13) ||| (h >>> 19))
    murmurBody key n (pos + 4) (h * 5 + 0xe6546bb64)

def murmurTail (key : Nat → UInt8) (pos : Nat) : Nat → UInt32 → UInt32
  | 0, k => k
  | i + 1, k => murmurTail key pos i ((k <<< 8) ||| (key (pos + i)).toUInt32)

def murmur3 (key : Nat → UInt8) (len : Nat) (seed : UInt32) : UInt32 :=
  let h := murmurBody key (len / 4) 0 seed
  let k := murmurTail key (len / 4 * 4) (len % 3) 0
  let h := h ^^^ murmurScramble k
  let h := h ^^^ UInt32.ofNat len
  let h := h ^^^ (h >>> 16)
  let h := h * 0x85ebca6b
  let h := h ^^^ (h >>> 13)
  let h := h * 0xc2b2ae35
  h ^^^ (h >>> 16)

end Crypt
