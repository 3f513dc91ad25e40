import NoobOs.Lib.RingBuffer
import Mathlib.Data.UInt

/-!
The input side of `tty.c`: `tty_inputc`, `canon_tty`, `read_tty` and the ring between
them. In `struct tty` the four bytes of `line_len` follow `line_buf`, so a store past
the line buffer lands there; `none` is a store or a load past these.
-/
namespace Tty
open RingBuffer

def ttyBufsiz : Nat := 32
def ttyLinesiz : Nat := 32

def iCrnl : Nat := 0x100
def oPost : Nat := 0x01
def onlCr : Nat := 0x04
def iSig : Nat := 0x01
def iCanon : Nat := 0x02
def echoFlag : Nat := 0x08

def vIntr : Nat := 0
def vErase : Nat := 2
def vEof : Nat := 4

def eAgain : Int := -11

structure Termios where
  cIflag : Nat
  cOflag : Nat
  cLflag : Nat
  cCc : Nat → UInt8

/-- `output` is what went to the device; no function reads it, nor `sent` and `pops`, the
    bytes pushed into the ring and how many were popped. -/
structure State where
  canonbuf : Nat → UInt8
  canonr : Nat
  canonw : Nat
  lineBuf : Nat → UInt8
  lineLen : Nat
  termios : Termios
  output : List UInt8
  sent : List UInt8
  pops : Nat

def State.canon (s : State) : Buffer UInt8 := ⟨s.canonbuf, s.canonr, s.canonw⟩

def State.setCanon (s : State) (q : Buffer UInt8) : State :=
  { s with canonbuf := q.buf, canonr := q.r, canonw := q.w }

def canonPop (s : State) : UInt8 × State :=
  let (c, q) := pop ttyBufsiz s.canon
  (c, { s.setCanon q with pops := s.pops + 1 })

def canonPush (s : State) (c : UInt8) : State :=
  { s.setCanon (push ttyBufsiz s.canon c) with sent := s.sent ++ [c] }

def canonEmpty (s : State) : Bool := s.canonr = s.canonw

def ttyOutputc (s : State) (c : UInt8) : State :=
  if s.termios.cOflag &&& oPost ≠ 0 ∧ s.termios.cOflag &&& onlCr ≠ 0 ∧ c = 0x0a then
    { s with output := s.output ++ [0x0d, c] }
  else { s with output := s.output ++ [c] }

/-- A `char` against a `cc_t`: the `char` is signed, the `cc_t` is not. -/
def isChar (c cc : UInt8) : Bool := c.toInt8.toInt = (cc.toNat : Int)

def setByte (v k : Nat) (c : UInt8) : Nat := v - v / 256 ^ k % 256 * 256 ^ k + c.toNat * 256 ^ k

/-- `line_buf[line_len++] = c`. C leaves open which of the two stores is the later one. -/
def storeLine (late : Bool) (s : State) (c : UInt8) : Option State :=
  if s.lineLen < ttyLinesiz then
    some { s with lineBuf := Function.update s.lineBuf s.lineLen c, lineLen := s.lineLen + 1 }
  else if s.lineLen < ttyLinesiz + 4 then
    some { s with
      lineLen :=
      if late then setByte (s.lineLen + 1) (s.lineLen - ttyLinesiz) c else s.lineLen + 1 }
  else none

def lineByte (s : State) (i : Nat) : Option UInt8 :=
  if i < ttyLinesiz then some (s.lineBuf i)
  else if i < ttyLinesiz + 4 then some (UInt8.ofNat (s.lineLen / 256 ^ (i - ttyLinesiz)))
  else none

/-- The `for` loop, `n` rounds from byte `i` on. -/
def commitLine : Nat → Nat → State → Option State
  | 0, _, s => some s
  | n + 1, i, s => do
    let c ← lineByte s i
    commitLine n (i + 1) (canonPush s c)

/-- The byte into the line, and the line into the ring when it ends. -/
def putLine (late : Bool) (s : State) (c : UInt8) : Option State := do
  let s ← storeLine late s c
  if c = 0x0a then
    let s ← commitLine s.lineLen 0 s
    return { s with lineLen := 0 }
  else return s

def canonTty (late : Bool) (s : State) (c : UInt8) : Option State :=
  let t := s.termios
  if isChar c (t.cCc vErase) then
    if s.lineLen > 0 then
      let s := { s with lineLen := s.lineLen - 1 }
      some (if t.cLflag &&& echoFlag ≠ 0 then ttyOutputc (ttyOutputc (ttyOutputc s 0x08) 0x20) 0x08
        else s)
    else some s
  else if isChar c (t.cCc vEof) then some s
  else do
    let s ← putLine late s c
    return if t.cLflag &&& echoFlag ≠ 0 then ttyOutputc s c else s

def ttyInputc (late : Bool) (s : State) (c : UInt8) : Option State :=
  let tm := s.termios
  let c := if tm.cIflag &&& iCrnl ≠ 0 ∧ c = 0x0d then 0x0a else c
  if tm.cLflag &&& iSig ≠ 0 ∧ isChar c (tm.cCc vIntr) then some s
  else if tm.cLflag &&& iCanon ≠ 0 then canonTty late s c
  else
    let s := canonPush s c
    some (if tm.cLflag &&& echoFlag ≠ 0 then ttyOutputc s c else s)

/-- The loop of `read_tty`: what it takes while it may take `siz` bytes more. -/
def readLoop : Nat → State → List UInt8 × State
  | 0, s => ([], s)
  | siz + 1, s =>
    if canonEmpty s then ([], s)
    else
      let (c, s) := canonPop s
      if s.termios.cLflag &&& iCanon ≠ 0 ∧ c = 0x0a then ([c], s)
      else
        let (rest, s) := readLoop siz s
        (c :: rest, s)

def readTty (s : State) (siz : Nat) : Except Int (List UInt8) × State :=
  if canonEmpty s then (.error eAgain, s)
  else
    let (bytes, s) := readLoop siz s
    (.ok bytes, s)

def ioctlTcsets (s : State) (t : Termios) : State := { s with termios := t }

def ttydefchars : List UInt8 :=
  [0x03, 0x1c, 0x08, 0x15, 0x04, 0, 1, 0, 0x11, 0x13, 0x1a, 0, 0x12, 0x0f, 0x7f, 0x16, 0]

def ttydef : Termios := ⟨0x2d22, 0x1805, 0x8a1b, fun k => ttydefchars.getD k 0⟩

/-- What `alloc_tty` returns, with any termios. -/
def allocTty (t : Termios) : State := ⟨fun _ => 0, 0, 0, fun _ => 0, 0, t, [], [], 0⟩

end Tty
