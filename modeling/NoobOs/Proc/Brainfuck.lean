import NoobOs.Lib.Brackets
import NoobOs.Proc.BrainfuckReader

/-!
The execution loop of `bf` in `shell.c`, and the language it is meant to run. The loop has
one index for the instructions; the scans for a bracket move it too, and the `for` moves it
once more after them.
-/
namespace Brainfuck
open LineInput Brackets

inductive Op where
  | right | left | inc | dec | put | get | loop | pool | other
  deriving DecidableEq

def opOf (c : UInt8) : Op :=
  if c = 0x3e then .right
  else if c = 0x3c then .left
  else if c = 0x2b then .inc
  else if c = 0x2d then .dec
  else if c = 0x2e then .put
  else if c = 0x2c then .get
  else if c = 0x5b then .loop
  else if c = 0x5d then .pool
  else .other

/-- What can be told of a run: cells set, bytes taken from `getch` and given to `putchr`. -/
inductive Event where
  | set (cell : Nat) (v : UInt8)
  | read (c : UInt8)
  | write (v : UInt8)
  deriving DecidableEq

/-! ## The loop -/

/-- `while (++i < BF_BUFSIZ && depth > 0)`: where `i` ends. -/
def scanForward (cbuf : Nat → UInt8) : Nat → Nat → Nat → Nat
  | 0, i, _ => i
  | fuel + 1, i, depth =>
    if i + 1 < bfBufsiz ∧ depth > 0 then
      scanForward cbuf fuel (i + 1)
        (if cbuf (i + 1) = 0x5b then depth + 1
          else if cbuf (i + 1) = 0x5d then depth - 1 else depth)
    else i + 1

/-- `while (--i >= 0 && depth > 0)` and the `i++` behind it: where `i` ends. -/
def scanBack (cbuf : Nat → UInt8) : Nat → Nat → Nat
  | 0, _ => 0
  | i + 1, depth =>
    if depth > 0 then
      scanBack cbuf i
        (if cbuf i = 0x5d then depth + 1 else if cbuf i = 0x5b then depth - 1 else depth)
    else i + 1

structure Exec where
  i : Nat
  dp : UInt8
  dbuf : Nat → UInt8
  reads : Nat
  trace : List Event

def bfOp (cbuf : Nat → UInt8) (input : Stream) (s : Exec) : Op → Exec :=
  let cell := s.dp.toNat
  fun
  | .right => { s with i := s.i + 1, dp := s.dp + 1 }
  | .left => { s with i := s.i + 1, dp := s.dp - 1 }
  | .inc => { s with i := s.i + 1, dbuf := Function.update s.dbuf cell (s.dbuf cell + 1),
                     trace := s.trace ++ [.set cell (s.dbuf cell + 1)] }
  | .dec => { s with i := s.i + 1, dbuf := Function.update s.dbuf cell (s.dbuf cell - 1),
                     trace := s.trace ++ [.set cell (s.dbuf cell - 1)] }
  | .put => { s with i := s.i + 1, trace := s.trace ++ [.write (s.dbuf cell)] }
  | .get =>
    { s with
    i := s.i + 1, dbuf := Function.update s.dbuf cell (input s.reads), reads := s.reads + 1,
                     trace := s.trace ++ [.read (input s.reads), .set cell (input s.reads)] }
  | .loop => { s with i := (if s.dbuf cell = 0 then scanForward cbuf bfBufsiz s.i 1 else s.i) + 1 }
  | .pool => { s with i := (if s.dbuf cell ≠ 0 then scanBack cbuf s.i 1 else s.i) + 1 }
  | .other => { s with i := s.i + 1 }

/-- One round; `none` when the loop is left, at the end of the program or with `dp` off the tape. -/
def bfStep (cbuf : Nat → UInt8) (len : Nat) (input : Stream) (s : Exec) : Option Exec :=
  if s.i < len then
    if s.dp.toNat ≥ bfBufsiz then none
    else some (bfOp cbuf input s (opOf (cbuf s.i)))
  else none

/-- `cbuf` was cleared before the program was read into it. -/
def cbufOf (prog : List UInt8) (i : Nat) : UInt8 := prog.getD i 0

/-- The loop after `n` rounds; a loop that has been left stays as it was. -/
def exec (prog : List UInt8) (input : Stream) : Nat → Exec
  | 0 => ⟨0, 0, fun _ => 0, 0, []⟩
  | n + 1 =>
    let s := exec prog input n
    (bfStep (cbufOf prog) prog.length input s).getD s

/-! ## The language -/

def kindOf (c : UInt8) : Kind :=
  match opOf c with
  | .loop => .opening
  | .pool => .closing
  | _ => .plain

/-- The standard machine: a position in the program and a pointer that may leave the tape. -/
structure Std where
  pos : Nat
  ptr : Int
  tape : Nat → UInt8
  reads : Nat
  trace : List Event

/-- Where a bracket that is taken leads: behind the one it belongs to. -/
def stdOp (prog : List UInt8) (input : Stream) (t : Std) : Op → Option Std :=
  let cell := t.ptr.toNat
  fun
  | .right => some { t with pos := t.pos + 1, ptr := t.ptr + 1 }
  | .left => some { t with pos := t.pos + 1, ptr := t.ptr - 1 }
  | .inc => some { t with pos := t.pos + 1, tape := Function.update t.tape cell (t.tape cell + 1),
                          trace := t.trace ++ [.set cell (t.tape cell + 1)] }
  | .dec => some { t with pos := t.pos + 1, tape := Function.update t.tape cell (t.tape cell - 1),
                          trace := t.trace ++ [.set cell (t.tape cell - 1)] }
  | .put => some { t with pos := t.pos + 1, trace := t.trace ++ [.write (t.tape cell)] }
  | .get => some { t with pos := t.pos + 1, tape := Function.update t.tape cell (input t.reads),
                          reads := t.reads + 1,
                          trace := t.trace ++ [.read (input t.reads), .set cell (input t.reads)] }
  | .loop =>
    if t.tape cell = 0 then (closingOf kindOf prog t.pos).map fun j => { t with pos := j + 1 }
    else some { t with pos := t.pos + 1 }
  | .pool =>
    if t.tape cell ≠ 0 then (openingOf kindOf prog t.pos).map fun i => { t with pos := i + 1 }
    else some { t with pos := t.pos + 1 }
  | .other => some { t with pos := t.pos + 1 }

/-- One instruction; `none` behind the last one, and when the pointer has left the 128 cells. -/
def stdStep (prog : List UInt8) (input : Stream) (t : Std) : Option Std :=
  if 0 ≤ t.ptr ∧ t.ptr < 128 then prog[t.pos]?.bind fun c => stdOp prog input t (opOf c) else none

def standard (prog : List UInt8) (input : Stream) : Nat → Std
  | 0 => ⟨0, 0, fun _ => 0, 0, []⟩
  | n + 1 =>
    let t := standard prog input n
    (stdStep prog input t).getD t

/-- The same cells set, bytes read and bytes written in the same order, by a run that ends if and
    only if the other does. -/
structure SameBehaviour (prog : List UInt8) (input : Stream) : Prop where
  sound : ∀ n, ∃ m, (standard prog input m).trace = (exec prog input n).trace
  complete : ∀ m, ∃ n, (standard prog input m).trace <+: (exec prog input n).trace
  ends : (∃ n, bfStep (cbufOf prog) prog.length input (exec prog input n) = none) ↔
    ∃ m, stdStep prog input (standard prog input m) = none

end Brainfuck
