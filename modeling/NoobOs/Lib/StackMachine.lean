import NoobOs.Lib.ByteMemory
import Mathlib.Data.List.Induction
import Mathlib.Logic.Function.Basic
import Mathlib.Logic.Relation

/- A 32-bit processor with its stack in memory, at one level of privilege: pushes, pops, calls,
   interrupts through a table of gates, and code placed at addresses. Every instruction that sets
   flags sets them all; paging and segment limits are left out. -/
namespace StackMachine
open ByteMemory

abbrev Word := BitVec 32

inductive Reg where
  | eax | ecx | edx | ebx | esp | ebp | esi | edi
  deriving DecidableEq

inductive Seg where
  | cs | ss | ds | es | fs | gs
  deriving DecidableEq

structure Cpu where
  reg : Reg → Word
  seg : Seg → BitVec 16
  eip : Word
  eflags : Word
  mem : Mem

def Cpu.setReg (c : Cpu) (r : Reg) (w : Word) : Cpu := { c with reg := Function.update c.reg r w }
def Cpu.setSeg (c : Cpu) (s : Seg) (w : BitVec 16) : Cpu :=
  { c with seg := Function.update c.seg s w }
def Cpu.word (c : Cpu) (a : Word) : Word := BitVec.ofNat 32 (load32 c.mem a.toNat)
def Cpu.setWord (c : Cpu) (a w : Word) : Cpu := { c with mem := store32 c.mem a.toNat w.toNat }

def Cpu.push (c : Cpu) (w : Word) : Cpu :=
  (c.setWord (c.reg .esp - 4) w).setReg .esp (c.reg .esp - 4)
def Cpu.pushAll (c : Cpu) (ws : List Word) : Cpu := ws.foldl Cpu.push c

def Cpu.stack (c : Cpu) (k : Nat) : Word := c.word (c.reg .esp + BitVec.ofNat 32 (4 * k))
def Cpu.drop (c : Cpu) (k : Nat) : Cpu := c.setReg .esp (c.reg .esp + BitVec.ofNat 32 (4 * k))

/-! ## Flags -/

def flagIf : Nat := 9
def flagSf : Nat := 7

def statusMask : Word := 0x8d5

def parity (w : Word) : Bool := (List.range 8).countP (w.getLsbD ·) % 2 = 0

def bit (b : Bool) (i : Nat) : Word := if b then 1 <<< i else 0

/-- Carry, auxiliary carry and overflow as given, the others by the result. -/
def setFlags (old : Word) (cf af ovf : Bool) (r : Word) : Word :=
  old &&& ~~~statusMask ||| bit cf 0 ||| bit (parity r) 2 ||| bit af 4 ||| bit (r = 0) 6 |||
    bit r.msb flagSf |||
    bit ovf 11

def addFlags (old a b : Word) : Word :=
  let r := a + b
  setFlags old (r < a) ((a ^^^ b ^^^ r).getLsbD 4) (a.msb = b.msb ∧ r.msb ≠ a.msb) r

def negFlags (old a : Word) : Word :=
  let r := 0 - a
  setFlags old (a ≠ 0) ((a ^^^ r).getLsbD 4) (a = 0x80000000) r

/-- The auxiliary carry, which is undefined then, stays. -/
def testFlags (old a : Word) : Word := setFlags old false (old.getLsbD 4) false a

theorem setFlags_sf (old : Word) (cf af ovf : Bool) (r : Word) :
    (setFlags old cf af ovf r).getLsbD flagSf = r.msb := by
  simp only [setFlags, bit, flagSf, statusMask]
  cases cf <;> cases af <;> cases ovf <;> cases r.msb <;> cases parity r
    <;> cases decide (r = 0) <;> simp

theorem setFlags_if (old : Word) (cf af ovf : Bool) (r : Word) :
    (setFlags old cf af ovf r).getLsbD flagIf = old.getLsbD flagIf := by
  simp only [setFlags, bit, flagIf, flagSf, statusMask]
  cases cf <;> cases af <;> cases ovf <;> cases r.msb <;> cases parity r
    <;> cases decide (r = 0) <;> simp

/-! ## Instructions -/

/-- `load r b k` is `mov r, [b + k]`, `store b k r` the other way; `loadAt` and `storeAt` name an
    address. -/
inductive Op where
  | pushImm (w : Word)
  | pushReg (r : Reg)
  | pushSeg (s : Seg)
  | popReg (r : Reg)
  | popSeg (s : Seg)
  | pushad
  | popad
  | pushfd
  | popfd
  | movReg (r q : Reg)
  | movImm (r : Reg) (w : Word)
  | movLow (r : Reg) (w : BitVec 16)
  | movSeg (s : Seg) (r : Reg)
  | load (r b : Reg) (k : Nat)
  | store (b : Reg) (k : Nat) (r : Reg)
  | loadAt (r : Reg) (a : Word)
  | storeAt (a : Word) (r : Reg)
  | storeImm (b : Reg) (k : Nat) (w : Word)
  | pushMem (b : Reg) (k : Nat)
  | addImm (r : Reg) (w : Word)
  | neg (r : Reg)
  | test (r : Reg)
  | sti
  deriving DecidableEq

def Op.exec (c : Cpu) : Op → Cpu
  | .pushImm w => c.push w
  | .pushReg r => c.push (c.reg r)
  | .pushSeg s => c.push ((c.seg s).setWidth 32)
  | .popReg r => (c.drop 1).setReg r (c.stack 0)
  | .popSeg s => (c.drop 1).setSeg s ((c.stack 0).setWidth 16)
  | .pushad => c.pushAll [c.reg .eax, c.reg .ecx, c.reg .edx, c.reg .ebx, c.reg .esp, c.reg .ebp,
    c.reg .esi, c.reg .edi]
  | .popad =>
    ((((((((c.drop 8).setReg .edi (c.stack 0)).setReg .esi (c.stack 1)).setReg .ebp
      (c.stack 2)).setReg .ebx
      (c.stack 4)).setReg .edx (c.stack 5)).setReg .ecx (c.stack 6)).setReg .eax (c.stack 7))
  | .pushfd => c.push c.eflags
  | .popfd => { c.drop 1 with eflags := c.stack 0 }
  | .movReg r q => c.setReg r (c.reg q)
  | .movImm r w => c.setReg r w
  | .movLow r w => c.setReg r (c.reg r &&& 0xffff0000 ||| w.setWidth 32)
  | .movSeg s r => c.setSeg s ((c.reg r).setWidth 16)
  | .load r b k => c.setReg r (c.word (c.reg b + BitVec.ofNat 32 k))
  | .store b k r => c.setWord (c.reg b + BitVec.ofNat 32 k) (c.reg r)
  | .loadAt r a => c.setReg r (c.word a)
  | .storeAt a r => c.setWord a (c.reg r)
  | .storeImm b k w => c.setWord (c.reg b + BitVec.ofNat 32 k) w
  | .pushMem b k => c.push (c.word (c.reg b + BitVec.ofNat 32 k))
  | .addImm r w => { c.setReg r (c.reg r + w) with eflags := addFlags c.eflags (c.reg r) w }
  | .neg r => { c.setReg r (0 - c.reg r) with eflags := negFlags c.eflags (c.reg r) }
  | .test r => { c with eflags := testFlags c.eflags (c.reg r) }
  | .sti => { c with eflags := c.eflags ||| bit true flagIf }

def execs (c : Cpu) (ops : List Op) : Cpu := ops.foldl Op.exec c

inductive Instr where
  | op (o : Op)
  | jmp (a : Word)
  | js (a : Word)
  | call (a : Word)
  | ret
  | int (n : Nat)
  | iret
  deriving DecidableEq

def plain (ops : List Op) : List Instr := ops.map .op

/-- An entry of the table of gates. -/
structure Gate where
  offset : Word
  seg : BitVec 16
  flag : UInt8

def gateAt (m : Mem) (idt n : Nat) : Gate where
  offset := BitVec.ofNat 32 (load16 m (idt + 8 * n) + 65536 * load16 m (idt + 8 * n + 6))
  seg := BitVec.ofNat 16 (load16 m (idt + 8 * n + 2))
  flag := m (idt + 8 * n + 5)

/-- Present, and an interrupt gate of 32 bits. -/
def Gate.Usable (g : Gate) : Prop := g.flag &&& 0x80 ≠ 0 ∧ g.flag &&& 0x1f = 0x0e

instance (g : Gate) : Decidable g.Usable := inferInstanceAs (Decidable (_ ∧ _))

/-- TF, IF, NT, RF and VM. -/
def gateMask : Word := 0x34300

/-- An interrupt, with the error code that some exceptions push; other gates are left out. -/
def Cpu.interrupt (c : Cpu) (idt n : Nat) (err : Option Word) : Option Cpu :=
  let g := gateAt c.mem idt n
  if g.Usable then
    let c := c.pushAll ([c.eflags, (c.seg .cs).setWidth 32, c.eip] ++ err.toList)
    some { c.setSeg .cs g.seg with eip := g.offset, eflags := c.eflags &&& ~~~gateMask }
  else none

/-- To code of the same privilege; the stack is switched as well if the privilege is another one. -/
def Cpu.iret (c : Cpu) : Cpu :=
  let cs := (c.stack 1).setWidth 16
  let back := { (c.drop 3).setSeg .cs cs with eip := c.stack 0, eflags := c.stack 2 }
  if cs &&& 3 = c.seg .cs &&& 3 then back
  else (back.setReg .esp (c.stack 3)).setSeg .ss ((c.stack 4).setWidth 16)

structure Machine where
  code : Word → Option (Instr × Word)
  idt : Nat

/-- `c.eip` is behind the instruction already. -/
def Instr.exec (idt : Nat) (c : Cpu) : Instr → Option Cpu
  | .op o => some (o.exec c)
  | .jmp a => some { c with eip := a }
  | .js a => some (if c.eflags.getLsbD flagSf then { c with eip := a } else c)
  | .call a => some { c.push c.eip with eip := a }
  | .ret => some { c.drop 1 with eip := c.stack 0 }
  | .int n => c.interrupt idt n none
  | .iret => some c.iret

def Machine.step (M : Machine) (c : Cpu) : Option Cpu := do
  let (i, next) ← M.code c.eip
  i.exec M.idt { c with eip := next }

def Reaches (M : Machine) : Cpu → Cpu → Prop := Relation.ReflTransGen fun c c' => M.step c = some c'

def Machine.add (M : Machine) (a : Word) (is : List Instr) : Machine :=
  { M with code := fun x => (M.code x).or (is[(x - a).toNat]?.map (·, x + 1)) }

/-- The instructions stand one behind the other from `a` to `e`. -/
def Placed (M : Machine) : Word → List Instr → Word → Prop
  | a, [], e => a = e
  | a, i :: is, e => ∃ next, M.code a = some (i, next) ∧ Placed M next is e

def codeEnd (M : Machine) : Word → List Instr → Option Word
  | a, [] => some a
  | a, i :: is =>
    match M.code a with
    | some (j, next) => if i = j then codeEnd M next is else none
    | none => none

def Words (m : Mem) (a : Nat) (ws : List Word) : Prop :=
  ∀ k w, ws[k]? = some w → load32 m (a + 4 * k) = w.toNat

/-! ## The stack -/

section Stack
variable {c : Cpu} {ws : List Word} {w : Word}

theorem toNat_back {a : Word} {k : Nat} (room : k ≤ a.toNat) :
    (a - BitVec.ofNat 32 k).toNat = a.toNat - k := by
  have bound := a.isLt
  rw [BitVec.toNat_sub, BitVec.toNat_ofNat]
  omega

theorem toNat_off {a : Word} {k : Nat} (fits : a.toNat + k < 2 ^ 32) :
    (a + BitVec.ofNat 32 k).toNat = a.toNat + k := by
  rw [BitVec.toNat_add, BitVec.toNat_ofNat]
  omega

theorem words_congr {m m' : Mem} {a : Nat} (same : AgreeOn m m' a (a + 4 * ws.length))
    (words : Words m a ws) :
    Words m' a ws := by
  intro k w found
  have less := (List.getElem?_eq_some_iff.mp found).1
  rw [← words k w found]
  exact load32_congr (same.mono (by omega) (by omega))

theorem words_append {m : Mem} {a : Nat} (us : List Word) :
    Words m a (us ++ ws) ↔ Words m a us ∧ Words m (a + 4 * us.length) ws := by
  constructor
  · intro words
    constructor
    · intro k w found
      have less := (List.getElem?_eq_some_iff.mp found).1
      exact words k w (by rwa [List.getElem?_append_left less])
    · intro k w found
      have later :=
        words (us.length + k) w
          (by rwa [List.getElem?_append_right (Nat.le_add_right _ _), Nat.add_sub_cancel_left])
      rw [← later]
      congr 1
      omega
  · rintro ⟨first, second⟩ k w found
    rcases Nat.lt_or_ge k us.length with less | past
    · rw [List.getElem?_append_left less] at found
      exact first k w found
    · obtain ⟨l, rfl⟩ := Nat.exists_eq_add_of_le past
      rw [List.getElem?_append_right past, Nat.add_sub_cancel_left] at found
      rw [← second l w found]
      congr 1
      omega

theorem words_set {m : Mem} {a : Nat} (us : List Word) {vs : List Word} {v : Word}
    (words : Words m a (us ++ v :: vs)) (w : Word) :
    Words (store32 m (a + 4 * us.length) w.toNat) a (us ++ w :: vs) := by
  intro k u found
  by_cases same : k = us.length
  · subst same
    rw [List.getElem?_append_right (Nat.le_refl _), Nat.sub_self, List.getElem?_cons_zero,
      Option.some.injEq] at found
    rw [← found]
    exact load32_store32_same m _ w.isLt
  · have other : (us ++ v :: vs)[k]? = some u := by
      rw [← found]
      rcases Nat.lt_or_ge k us.length with less | past
      · rw [List.getElem?_append_left less, List.getElem?_append_left less]
      · obtain ⟨l, rfl⟩ := Nat.exists_eq_add_of_lt (Nat.lt_of_le_of_ne past (Ne.symm same))
        rw [List.getElem?_append_right past, List.getElem?_append_right past,
          show us.length + l + 1 - us.length = l + 1 by omega]
        rfl
    rw [load32_store32_apart _ _ (by omega)]
    exact words k u other

theorem pushAll_eq (room : 4 * ws.length ≤ (c.reg .esp).toNat) :
    c.pushAll ws = { c with
      reg := Function.update c.reg .esp (c.reg .esp - BitVec.ofNat 32 (4 * ws.length))
      mem :=
        storeWords c.mem ((c.reg .esp).toNat - 4 * ws.length) (ws.reverse.map BitVec.toNat) } := by
  induction ws using List.reverseRecOn with
  | nil => simp [Cpu.pushAll, storeWords]
  | append_singleton ws w ih =>
    rw [List.length_append, List.length_singleton] at room ⊢
    have before : c.pushAll (ws ++ [w]) = (c.pushAll ws).push w := by
      rw [Cpu.pushAll, List.foldl_append]
      rfl
    have pointer : c.reg .esp - BitVec.ofNat 32 (4 * ws.length) - 4 =
        c.reg .esp - BitVec.ofNat 32 (4 * (ws.length + 1)) := by
      bv_omega
    have place : (c.reg .esp - BitVec.ofNat 32 (4 * (ws.length + 1))).toNat =
        (c.reg .esp).toNat - 4 * (ws.length + 1) :=
      toNat_back room
    rw [before, ih (by omega), Cpu.push]
    simp only [Cpu.setWord, Cpu.setReg, Function.update_self, Function.update_idem, pointer, place]
    rw [List.reverse_append, List.reverse_singleton, List.singleton_append,
      List.map_cons, storeWords,
      show (c.reg .esp).toNat - 4 * (ws.length + 1) + 4 =
      (c.reg .esp).toNat - 4 * ws.length by omega]

theorem words_store (m : Mem) (a : Nat) (ws : List Word) :
    Words (storeWords m a (ws.map BitVec.toNat)) a ws := by
  intro k w found
  apply load32_storeWords
  · intro n member
    obtain ⟨w', -, rfl⟩ := List.mem_map.mp member
    exact w'.isLt
  · rw [List.getElem?_map, found]
    rfl

theorem pushAll_words (ws : List Word) (room : 4 * ws.length ≤ (c.reg .esp).toNat) :
    Words (c.pushAll ws).mem ((c.reg .esp).toNat - 4 * ws.length) ws.reverse := by
  rw [pushAll_eq room]
  exact words_store _ _ _

theorem pushAll_pointer (ws : List Word) (room : 4 * ws.length ≤ (c.reg .esp).toNat) :
    (c.pushAll ws).reg .esp = c.reg .esp - BitVec.ofNat 32 (4 * ws.length) := by
  rw [pushAll_eq room]
  exact Function.update_self Reg.esp _ c.reg

theorem pushAll_outside (ws : List Word) (room : 4 * ws.length ≤ (c.reg .esp).toNat) {x : Nat}
    (outside : x < (c.reg .esp).toNat - 4 * ws.length ∨ (c.reg .esp).toNat ≤ x) :
    (c.pushAll ws).mem x = c.mem x := by
  rw [pushAll_eq room]
  apply storeWords_other
  rw [List.length_map, List.length_reverse]
  omega

theorem pushAll_reg {q : Reg} (other : q ≠ .esp) (ws : List Word) :
    (c.pushAll ws).reg q = c.reg q := by
  induction ws generalizing c with
  | nil => rfl
  | cons w ws ih => exact ih.trans (Function.update_of_ne other _ c.reg)

theorem pushAll_seg (ws : List Word) : (c.pushAll ws).seg = c.seg := by
  induction ws generalizing c with
  | nil => rfl
  | cons w ws ih => exact ih

theorem pushAll_flags (ws : List Word) : (c.pushAll ws).eflags = c.eflags := by
  induction ws generalizing c with
  | nil => rfl
  | cons w ws ih => exact ih

theorem push_words (room : 4 ≤ (c.reg .esp).toNat)
    (words : Words c.mem (c.reg .esp).toNat ws) (w : Word) :
    Words (c.push w).mem ((c.push w).reg .esp).toNat (w :: ws) := by
  have place : ((c.push w).reg .esp).toNat = (c.reg .esp).toNat - 4 := by
    simp only [Cpu.push, Cpu.setReg, Function.update_self]
    exact toNat_back room
  have mem : (c.push w).mem = store32 c.mem ((c.reg .esp).toNat - 4) w.toNat :=
    congrArg (store32 c.mem · w.toNat) (toNat_back room)
  rw [place, mem]
  intro k u found
  cases k with
  | zero =>
    cases found
    exact load32_store32_same _ _ w.isLt
  | succ k =>
    rw [load32_store32_apart _ _ (by omega), ← words k u found]
    congr 1
    omega

theorem push_outside (room : 4 ≤ (c.reg .esp).toNat) (w : Word) {x : Nat}
    (outside : x < (c.reg .esp).toNat - 4 ∨ (c.reg .esp).toNat ≤ x) : (c.push w).mem x = c.mem x :=
  pushAll_outside [w] room (by simpa using outside)

theorem stack_word {k : Nat} (words : Words c.mem (c.reg .esp).toNat ws)
    (fits : (c.reg .esp).toNat + 4 * ws.length ≤ 2 ^ 32) (found : ws[k]? = some w) :
    c.stack k = w := by
  have less := (List.getElem?_eq_some_iff.mp found).1
  rw [Cpu.stack, Cpu.word, toNat_off (by omega), words k w found, BitVec.ofNat_toNat,
    BitVec.setWidth_eq]

theorem push_stack (room : 4 ≤ (c.reg .esp).toNat) (w : Word) : (c.push w).stack 0 = w := by
  have bound := (c.reg .esp).isLt
  have place : ((c.push w).reg .esp).toNat = (c.reg .esp).toNat - 4 := by
    simp only [Cpu.push, Cpu.setReg, Function.update_self]
    exact toNat_back room
  have words :=
    push_words room (fun k u found => by simp at found : Words c.mem (c.reg .esp).toNat []) w
  exact stack_word words (by rw [place, List.length_singleton]; omega) rfl

theorem push_drop (c : Cpu) (w : Word) : (c.push w).drop 1 = c.setWord (c.reg .esp - 4) w := by
  have pointer : c.reg .esp - 4 + BitVec.ofNat 32 (4 * 1) = c.reg .esp := by bv_omega
  simp only [Cpu.push, Cpu.drop, Cpu.setReg, Cpu.setWord, Function.update_self,
    Function.update_idem, pointer, Function.update_eq_self]

@[simp] theorem drop_stack (c : Cpu) (i k : Nat) : (c.drop i).stack k = c.stack (i + k) := by
  have offset : c.reg .esp + BitVec.ofNat 32 (4 * i) + BitVec.ofNat 32 (4 * k) =
      c.reg .esp + BitVec.ofNat 32 (4 * (i + k)) := by
    rw [Nat.mul_add, BitVec.ofNat_add]
    bv_omega
  simp only [Cpu.stack, Cpu.drop, Cpu.setReg, Function.update_self, offset]
  rfl

@[simp] theorem drop_drop (c : Cpu) (i k : Nat) : (c.drop i).drop k = c.drop (i + k) := by
  have offset : c.reg .esp + BitVec.ofNat 32 (4 * i) + BitVec.ofNat 32 (4 * k) =
      c.reg .esp + BitVec.ofNat 32 (4 * (i + k)) := by
    rw [Nat.mul_add, BitVec.ofNat_add]
    bv_omega
  simp only [Cpu.drop, Cpu.setReg, Function.update_self, Function.update_idem, offset]

@[simp] theorem setSeg_stack (c : Cpu) (s : Seg) (w : BitVec 16) (k : Nat) :
    (c.setSeg s w).stack k = c.stack k := rfl

@[simp] theorem setSeg_drop (c : Cpu) (s : Seg) (w : BitVec 16) (k : Nat) :
    (c.setSeg s w).drop k = (c.drop k).setSeg s w := rfl

theorem setReg_stack (c : Cpu) {q : Reg} (other : q ≠ .esp) (w : Word) (k : Nat) :
    (c.setReg q w).stack k = c.stack k := by
  simp only [Cpu.stack, Cpu.setReg, Function.update_of_ne other.symm]
  rfl

theorem setReg_drop (c : Cpu) {q : Reg} (other : q ≠ .esp) (w : Word) (k : Nat) :
    (c.setReg q w).drop k = (c.drop k).setReg q w := by
  simp only [Cpu.drop, Cpu.setReg, Function.update_of_ne other.symm, Function.update_comm other]

end Stack

/-! ## Code -/

section Code
variable {M : Machine} {a b e : Word} {is js : List Instr} {ops : List Op} {c c' : Cpu}

theorem placed_append (is : List Instr) : Placed M a (is ++ js) e ↔ ∃ b, Placed M a is b ∧
    Placed M b js e := by
  induction is generalizing a with
  | nil => exact ⟨fun placed => ⟨a, rfl, placed⟩,
    fun ⟨b, here, placed⟩ => (show a = b from here) ▸ placed⟩
  | cons i is ih =>
    constructor
    · rintro ⟨next, code, rest⟩
      obtain ⟨b, first, second⟩ := ih.mp rest
      exact ⟨b, ⟨next, code, first⟩, second⟩
    · rintro ⟨b, ⟨next, code, first⟩, second⟩
      exact ⟨next, code, ih.mpr ⟨b, first, second⟩⟩

theorem placed_add {x : Word} {ks : List Instr} (placed : Placed M a is e) :
    Placed (M.add x ks) a is e := by
  induction is generalizing a with
  | nil => exact placed
  | cons i is ih =>
    obtain ⟨next, code, rest⟩ := placed
    refine ⟨next, ?_, ih rest⟩
    simp only [Machine.add, code, Option.some_or]

theorem placed_of_codeEnd (found : codeEnd M a is = some e) : Placed M a is e := by
  induction is generalizing a with
  | nil => exact Option.some.inj found
  | cons i is ih =>
    rw [codeEnd] at found
    split at found
    · rename_i j next code
      split at found
      · rename_i same
        subst same
        exact ⟨next, code, ih found⟩
      · exact absurd found (by simp)
    · exact absurd found (by simp)

theorem exec_eip (c : Cpu) (a : Word) (o : Op) :
    o.exec { c with eip := a } = { o.exec c with eip := a } := by
  cases o <;> rfl

theorem execs_eip (c : Cpu) (a : Word) (ops : List Op) :
    execs { c with eip := a } ops = { execs c ops with eip := a } := by
  induction ops generalizing c with
  | nil => rfl
  | cons o ops ih =>
    rw [execs, List.foldl_cons, exec_eip]
    exact ih (o.exec c)

theorem execs_append (c : Cpu) (xs ys : List Op) : execs c (xs ++ ys) = execs (execs c xs) ys :=
  List.foldl_append

theorem reaches_of_eq (same : c = c') : Reaches M c c' := same ▸ Relation.ReflTransGen.refl

theorem reaches_ops (placed : Placed M a (plain ops) b) (here : c.eip = a) :
    Reaches M c { execs c ops with eip := b } := by
  induction ops generalizing a c with
  | nil =>
    obtain rfl : a = b := placed
    subst here
    exact Relation.ReflTransGen.refl
  | cons o ops ih =>
    obtain ⟨next, code, rest⟩ := placed
    have step : M.step c = some { o.exec c with eip := next } := by
      rw [Machine.step, here, code, Option.bind_eq_bind, Option.bind_some]
      exact congrArg some (exec_eip c next o)
    have later := ih (c := { o.exec c with eip := next }) rest rfl
    rw [execs_eip] at later
    exact Relation.ReflTransGen.head step later

theorem reaches_instr {i : Instr} (placed : Placed M a (i :: is) e) :
    ∃ next, Placed M next is e ∧
      ∀ c c', c.eip = a → i.exec M.idt { c with eip := next } = some c' → Reaches M c c' := by
  obtain ⟨next, code, rest⟩ := placed
  refine ⟨next, rest, fun c c' here done => Relation.ReflTransGen.single ?_⟩
  rw [Machine.step, here, code, Option.bind_eq_bind, Option.bind_some]
  exact done

theorem reaches_call {f : Word} (placed : Placed M a (.call f :: is) e) :
    ∃ next, Placed M next is e ∧ ∀ c, c.eip = a → Reaches M c { c.push next with eip := f } := by
  obtain ⟨next, rest, run⟩ := reaches_instr placed
  exact ⟨next, rest, fun c here => run c _ here rfl⟩

theorem reaches_jmp {f : Word} (placed : Placed M a (.jmp f :: is) e) :
    ∀ c, c.eip = a → Reaches M c { c with eip := f } := by
  obtain ⟨next, rest, run⟩ := reaches_instr placed
  exact fun c here => run c _ here rfl

theorem reaches_iret (placed : Placed M a (.iret :: is) e) :
    ∀ c, c.eip = a → Reaches M c c.iret := by
  obtain ⟨next, rest, run⟩ := reaches_instr placed
  exact fun c here => run c _ here rfl

/-- Back at the caller of a C function: `c` is where it was entered. -/
structure Returned (c c' : Cpu) : Prop where
  eip : c'.eip = c.stack 0
  esp : c'.reg .esp = c.reg .esp + 4
  saved : ∀ r, r ∈ [Reg.ebx, .esi, .edi, .ebp] → c'.reg r = c.reg r
  segs : c'.seg = c.seg

end Code

end StackMachine
