import NoobOs.KLib.StringBuffers
import Mathlib.Data.Nat.Digits.Defs

/-!
`nanoprintf.h` as `printf.h` configures it: field widths and precisions, no floats, no short or
large integers, no writing back. The flag `#` is not configured either, and reads as an unknown
conversion. An `int` that a format or an argument gives stays below `2^31`, and what is put stays in
order.
-/
namespace Printf
open ByteMemory Strings

abbrev Word := BitVec 32

inductive Opt where
  | none | literal | star
  deriving DecidableEq

inductive Conv where
  | percent | char | string | signedInt | octal | hexInt | unsignedInt | pointer
  deriving DecidableEq

structure FormatSpec where
  fieldWidth : Int
  prec : Int
  precOpt : Opt
  fieldWidthOpt : Opt
  leftJustified : Bool
  leadingZeroPad : Bool
  prepend : UInt8
  caseAdjust : UInt8
  lengthLong : Bool
  convSpec : Conv
  deriving DecidableEq

/-! ## npf_parse_format_spec -/

def cleared : FormatSpec where
  fieldWidth := 0
  prec := 0
  precOpt := .none
  fieldWidthOpt := .none
  leftJustified := false
  leadingZeroPad := false
  prepend := 0
  caseAdjust := 0x20
  lengthLong := false
  convSpec := .percent

def parseFlags : Str → FormatSpec → Str × FormatSpec
  | [], fs => ([], fs)
  | c :: cur, fs =>
    if c = 0x2d then parseFlags cur { fs with leftJustified := true }
    else if c = 0x30 then parseFlags cur { fs with leadingZeroPad := true }
    else if c = 0x2b then parseFlags cur { fs with prepend := 0x2b }
    else if c = 0x20 then
      parseFlags cur (if fs.prepend = 0 then { fs with prepend := 0x20 } else fs)
    else (c :: cur, fs)

def parseDigits : Str → Int → Str × Int
  | [], n => ([], n)
  | c :: cur, n => if isdigit c then parseDigits cur (n * 10 + (c.toNat - 0x30)) else (c :: cur, n)

def parseWidth (cur : Str) (fs : FormatSpec) : Str × FormatSpec :=
  match cur with
  | [] => ([], fs)
  | c :: rest =>
    if c = 0x2a then (rest, { fs with fieldWidthOpt := .star })
    else
      let (after, n) := parseDigits cur 0
      (after, { fs with fieldWidth := n, fieldWidthOpt := if isdigit c then .literal else .none })

def parsePrec (cur : Str) (fs : FormatSpec) : Str × FormatSpec :=
  match cur with
  | [] => ([], fs)
  | c :: rest =>
    if c = 0x2e then
      match rest with
      | [] => ([], { fs with precOpt := .literal })
      | d :: rest' =>
        if d = 0x2a then (rest', { fs with precOpt := .star })
        else if d = 0x2d then
          let (after, n) := parseDigits rest' 0
          (after, { fs with prec := n })
        else
          let (after, n) := parseDigits rest 0
          (after, { fs with prec := n, precOpt := .literal })
    else (cur, fs)

def parseLength (cur : Str) (fs : FormatSpec) : Str × FormatSpec :=
  match cur with
  | [] => ([], fs)
  | c :: rest => if c = 0x6c then (rest, { fs with lengthLong := true }) else (cur, fs)

def parseConv (cur : Str) (fs : FormatSpec) : Option (Str × FormatSpec) :=
  match cur with
  | [] => none
  | c :: rest =>
    if c = 0x25 then some (rest, { fs with convSpec := .percent })
    else if c = 0x63 then some (rest, { fs with convSpec := .char })
    else if c = 0x73 then some (rest, { fs with convSpec := .string })
    else if c = 0x69 ∨ c = 0x64 then some (rest, { fs with convSpec := .signedInt })
    else if c = 0x6f then some (rest, { fs with convSpec := .octal })
    else if c = 0x75 then some (rest, { fs with convSpec := .unsignedInt })
    else if c = 0x58 then some (rest, { fs with caseAdjust := 0, convSpec := .hexInt })
    else if c = 0x78 then some (rest, { fs with convSpec := .hexInt })
    else if c = 0x70 then some (rest, { fs with convSpec := .pointer })
    else none

def parseFormatSpec (cur : Str) : Option (Str × FormatSpec) :=
  let (cur, fs) := parseFlags cur cleared
  let (cur, fs) := parseWidth cur fs
  let (cur, fs) := parsePrec cur fs
  let (cur, fs) := parseLength cur fs
  parseConv cur fs

/-! ## npf_vpprintf -/

def utoaDigit (base : Nat) (caseAdj : UInt8) (val : Nat) : UInt8 :=
  let d := val % base
  UInt8.ofNat ((if d < 10 then 0x30 else 0x37 + caseAdj.toNat) + d)

def utoaLoop (base : Nat) (caseAdj : UInt8) : Nat → Nat → Str
  | 0, _ => []
  | fuel + 1, val => utoaDigit base caseAdj val :: if val / base = 0 then []
    else utoaLoop base caseAdj fuel (val / base)

/-- The digits with the last one first; a value of 32 bits has no more than 32. -/
def utoaRev (val base : Nat) (caseAdj : UInt8) : Str := utoaLoop base caseAdj 32 val

/-- `cbuf` for a string: up to the NUL or the precision. -/
def stringBytes (m : Mem) : Nat → Option Int → Nat → Option Str
  | 0, _, _ => none
  | fuel + 1, limit, s =>
    if limit.all (0 < ·) ∧ m s ≠ 0 then
      (stringBytes m fuel (limit.map (· - 1)) (s + 1)).map (m s :: ·)
    else some []

/-- The converted text in `cbuf`, numbers reversed; `args` are the arguments left. -/
structure Converted where
  cbuf : Str
  signC : UInt8
  zero : Bool
  args : List Word
  deriving DecidableEq

/-- Zero with a precision of zero is no text at all. -/
def number (fs : FormatSpec) (val base : Nat) : Str :=
  if val = 0 ∧ fs.precOpt ≠ .none ∧ fs.prec = 0 then [] else utoaRev val base fs.caseAdjust

def baseOf : Conv → Nat
  | .octal => 8
  | .unsignedInt => 10
  | _ => 16

def convert (m : Mem) (fs : FormatSpec) (args : List Word) : Option Converted :=
  match fs.convSpec, args with
  | .percent, args => some ⟨[0x25], 0, false, args⟩
  | .char, w :: args => some ⟨[UInt8.ofNat w.toNat], 0, false, args⟩
  | .string, w :: args => do
    let limit := if fs.precOpt = .none then none else some fs.prec
    let cbuf ← if w = 0 then some [] else stringBytes m (2 ^ 32) limit w.toNat
    pure ⟨cbuf, 0, false, args⟩
  | .signedInt, w :: args =>
    let negative := w.toInt < 0
    some ⟨number fs (if negative then (0 - w).toNat else w.toNat) 10, if negative then 0x2d
      else fs.prepend, w = 0, args⟩
  | conv, w :: args => some ⟨number fs w.toNat (baseOf conv), 0, w = 0, args⟩
  | _, [] => none

def starWidth (fs : FormatSpec) (args : List Word) : Option (FormatSpec × List Word) :=
  if fs.fieldWidthOpt = .star then
    match args with
    | [] => none
    | w :: args =>
      some (if w.toInt < 0 then { fs with fieldWidth := -w.toInt, leftJustified := true }
        else { fs with fieldWidth := w.toInt }, args)
  else some (fs, args)

def starPrec (fs : FormatSpec) (args : List Word) : Option (FormatSpec × List Word) :=
  if fs.precOpt = .star then
    match args with
    | [] => none
    | w :: args => some (if w.toInt < 0 then { fs with prec := 0, precOpt := .none }
      else { fs with prec := w.toInt }, args)
  else some (fs, args)

def defaultPrec (fs : FormatSpec) : FormatSpec :=
  if fs.precOpt = .none ∧ fs.convSpec = .pointer then { fs with prec := 8 } else fs

/-- A precision overrides the flag `0` of an integer. -/
def ignoreZero (fs : FormatSpec) : FormatSpec :=
  if fs.precOpt ≠ .none ∧ fs.convSpec ∈ [.signedInt, .octal, .hexInt, .unsignedInt] then
    { fs with leadingZeroPad := false }
  else fs

def padChar (fs : FormatSpec) (zero : Bool) : UInt8 :=
  if fs.fieldWidthOpt = .none then 0
  else if fs.leadingZeroPad && !fs.leftJustified then
    if fs.precOpt ≠ .none ∧ fs.prec = 0 ∧ zero then 0x20 else 0x30
  else 0x20

def signOf (c : UInt8) : Str := if c = 0 then [] else [c]

/-- The field around the payload; before zeros the sign goes first. -/
def justify (left : Bool) (padC signC : UInt8) (fieldPad : Nat) (payload : UInt8 → Str) : Str :=
  let pads := List.replicate fieldPad padC
  if left then payload signC ++ (if padC ≠ 0 then pads else [])
  else if padC = 0 then payload signC
  else if padC = 0x30 then signOf signC ++ pads ++ payload 0
  else pads ++ payload signC

def emit (fs : FormatSpec) (v : Converted) : Str :=
  let precPad := if fs.convSpec = .string then 0 else max 0 (fs.prec - v.cbuf.length)
  let fieldPad := max 0 (fs.fieldWidth - v.cbuf.length - (signOf v.signC).length - precPad)
  justify fs.leftJustified (padChar fs v.zero) v.signC fieldPad.toNat fun signC =>
    if fs.convSpec = .string then v.cbuf
    else signOf signC ++ List.replicate precPad.toNat 0x30 ++ v.cbuf.reverse

/-- The loop over the format; every turn takes at least one byte of it. -/
def vpprintfLoop (m : Mem) : Nat → Str → List Word → Option Str
  | 0, _, _ => some []
  | _, [], _ => some []
  | fuel + 1, c :: cur, args =>
    match (if c = 0x25 then parseFormatSpec cur else none) with
    | none => (vpprintfLoop m fuel cur args).map (c :: ·)
    | some (cur, fs) => do
      let (fs, args) ← starWidth fs args
      let (fs, args) ← starPrec fs args
      let fs := ignoreZero (defaultPrec fs)
      let v ← convert m fs args
      let out ← vpprintfLoop m fuel cur v.args
      pure (emit fs v ++ out)

/-- The bytes put for a format and its arguments; `none` if an argument is missing. -/
def vpprintf (m : Mem) (format : Str) (args : List Word) : Option Str :=
  vpprintfLoop m format.length format args

/-- `pc_cnt.n`, an `int`, once they are put. -/
def counted (out : Str) : Int := (BitVec.ofNat 32 out.length).toInt

/-! ## npf_vsnprintf -/

def bufputc (dst len : Nat) (s : Mem × Nat) (c : UInt8) : Mem × Nat :=
  if s.2 < len then (store8 s.1 (dst + s.2) c, s.2 + 1) else s

/-- The memory and the value returned. Neither the format nor an argument is in the buffer. -/
def vsnprintf (m : Mem) (buffer bufsz : Nat) (format : Str) (args : List Word) :
    Option (Mem × Int) := do
  let out ← vpprintf m format args
  let m := if buffer = 0 then m else (out.foldl (bufputc buffer bufsz) (m, 0)).1
  let n := counted out
  let m :=
    if buffer ≠ 0 ∧ bufsz ≠ 0 then
      store8 m (buffer + if n < 0 then 0 else min n.toNat (bufsz - 1)) 0
    else m
  pure (m, n)

theorem counted_eq {out : Str} (short : out.length < 2 ^ 31) : counted out = out.length := by
  have small : (BitVec.ofNat 32 out.length).toNat = out.length := Nat.mod_eq_of_lt (by omega)
  rw [counted, BitVec.toInt_eq_toNat_of_lt (by omega), small]

end Printf
