import NoobOs.Crypt.Murmur
import NoobOs.KLib.Strings

/-!
`getuser` and `chkcred` of `crypt.c` and the `login` loop of `proc.c`. Files are
the text `read` puts into the buffer. `none` is a null pointer that is read
through, which ends in the page-fault handler and never returns.
-/
namespace Crypt
open Strings

def nl : Str := [0x0a]
def colon : Str := [0x3a]
def dollar : Str := [0x24]

def uiAllocated : Nat := 0x80
def maxCmtlen : Nat := 32

structure UserInfo where
  username : Str
  uid : UInt32
  gid : UInt32
  comment : Str
  home : Str
  interp : Str
  passReq : Nat

def UserInfo.zero : UserInfo := ⟨[], 0, 0, [], [], [], 0⟩

/-- The loop over the lines. The seven fields are seven calls of `strtok_r`; the
    first three texts are always looked at, the rest only on a match. -/
def getuserFrom (uname : Option Str) (uid : UInt32) :
    List Str → UserInfo → Option (UserInfo × Nat)
  | [], info => some (info, 0)
  | line :: lines, info => do
    let f := tokens colon line
    let id := atoi (← f[2]?)
    let gid := atoi (← f[3]?)
    let hit ← match uname with
      | none => if id = uid then some true else none
      | some u => f[0]?.map fun name => strcmp name u == 0
    if hit then
      let name ← f[0]?
      let cmt ← f[4]?
      let home ← f[5]?
      let intp ← f[6]?
      let pass ← f[1]?
      return (⟨name.take maxCmtlen, id, gid, cmt.take maxCmtlen, home.take maxCmtlen,
        intp.take maxCmtlen, (if pass.head? = some 0x78 then 1 else 0) ||| uiAllocated⟩, 1)
    else getuserFrom uname uid lines info

def getuser (passwd : Str) (uname : Option Str) (uid : UInt32) (info : UserInfo) :
    Option (UserInfo × Nat) :=
  getuserFrom uname uid (tokens nl passwd) { info with passReq := uiAllocated }

/-- What was typed for a prompt: the text, and what the buffer holds behind its
    terminator. -/
structure Typed where
  text : Str
  rest : Nat → UInt8

def Typed.buf (t : Typed) (i : Nat) : UInt8 :=
  if h : i < t.text.length then t.text[i] else if i = t.text.length then 0 else t.rest i

/-- The text `fu` that marks the only password scheme. -/
def schemeFu : Str := [0x66, 0x75]

def chkcredFrom (usr : Str) (cred : Typed) : List Str → Option Bool
  | [] => some false
  | line :: lines => do
    let f := tokens colon line
    let name ← f[0]?
    if strcmp name usr = 0 then
      let p := (f[1]?.map (tokens dollar)).getD []
      let typ ← p[0]?
      if strcmp typ schemeFu ≠ 0 then return false
      let sed := atoi (← p[1]?)
      let h := atoi (← p[2]?)
      if h = murmur3 cred.buf cred.text.length sed then return true
      chkcredFrom usr cred lines
    else chkcredFrom usr cred lines

def chkcred (passwd shadow usr : Str) (cred : Typed) (info : UserInfo) :
    Option (UserInfo × Bool) := do
  if info.passReq &&& uiAllocated = 0 then
    let (info, r) ← getuser passwd (some usr) 0 info
    if r ≠ 0 ∧ info.passReq &&& 1 = 0 then return (info, true)
    return (info, ← chkcredFrom usr cred (tokens nl shadow))
  return (info, ← chkcredFrom usr cred (tokens nl shadow))

structure Attempt where
  user : Str
  psw : Typed
  ended : 0 ∉ user

def attempt (passwd shadow : Str) (a : Attempt) : Option (Option UserInfo) := do
  let (info, r) ← getuser passwd (some a.user) 0 UserInfo.zero
  if r ≠ 0 ∧ info.passReq &&& 1 = 0 then return some info
  let (info, ok) ← chkcred passwd shadow a.user a.psw info
  return if ok then some info else none

structure Cred where
  uid : UInt32
  euid : UInt32
  suid : UInt32
  gid : UInt32
  egid : UInt32
  sgid : UInt32
  deriving DecidableEq

/-- The loop: the round that succeeded and the credentials it leaves. -/
def login (passwd shadow : Str) (cred : Cred) : List Attempt → Option (Attempt × Cred)
  | [] => none
  | a :: rest => do
    match ← attempt passwd shadow a with
    | some info => return (a, { cred with euid := info.uid, egid := info.gid })
    | none => login passwd shadow cred rest

/-! ## What the password file says -/

def entries (passwd : Str) : List (List Str) :=
  ((passwd.splitOnP (dlim nl)).filter fun line => line ≠ []).map (·.splitOnP (dlim colon))

/-- A text read whole into the buffer, each line with seven fields, a name and two
    numbers that fit their type. -/
structure WellFormed (passwd : Str) : Prop where
  ended : 0 ∉ passwd
  whole : passwd.length < 1024
  lines : ∀ f ∈ entries passwd, ∃ name pass uid gid cmt home intp,
    f = [name, pass, uid, gid, cmt, home, intp] ∧ name ≠ [] ∧
    (uid ≠ [] ∧ (∀ c ∈ uid, isdigit c) ∧ decimal uid < 2 ^ 32) ∧
    gid ≠ [] ∧ (∀ c ∈ gid, isdigit c) ∧ decimal gid < 2 ^ 32

/-- The shadow entry of the typed name matches the typed password. -/
def ShadowMatches (shadow : Str) (a : Attempt) : Prop :=
  chkcredFrom a.user a.psw (tokens nl shadow) = some true

/-- A line of the password file allows these ids to this attempt. -/
def Authorised (passwd shadow : Str) (a : Attempt) (cred : Cred) : Prop :=
  ∃ pass uid gid cmt home intp, [a.user, pass, uid, gid, cmt, home, intp] ∈ entries passwd ∧
    cred.euid.toNat = decimal uid ∧ cred.egid.toNat = decimal gid ∧
    (pass.head? ≠ some 0x78 ∨ ShadowMatches shadow a)

/-- The typed name is on no line, each line has at least four texts to read, and yet
    the name has a matching shadow entry. -/
def Ghost (passwd shadow : Str) (a : Attempt) : Prop :=
  (∀ f ∈ entries passwd, f.head? ≠ some a.user) ∧
  (∀ f ∈ entries passwd, 4 ≤ (f.filter fun t => t ≠ []).length) ∧ ShadowMatches shadow a

end Crypt
