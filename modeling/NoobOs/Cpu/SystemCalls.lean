import NoobOs.Cpu.Entry
import NoobOs.Syscall.Dispatch

/-!
A system call from `syscall` of `sysc.asm`, through the gate and its stub, to `isr_handler` and
back. What the C code does between is any code that returns and leaves the stack above it alone.
-/
namespace SystemCalls
open StackMachine ByteMemory Entry

structure Wrapper where
  syscall : Word
  err : Word
  errno : Word

def save : List Op := [.pushReg .ebx, .pushReg .esi, .pushReg .edi, .pushReg .ebp]

def arguments : List Op :=
  [.load .eax .esp 20, .load .ebx .esp 24, .load .ecx .esp 28, .load .edx .esp 32,
    .load .esi .esp 36, .load .edi .esp 40,
    .load .ebp .esp 44]

def restore : List Op := [.popReg .ebp, .popReg .edi, .popReg .esi, .popReg .ebx, .test .eax]

/-- The first part of the function, down to its label `.err`. -/
def syscall (W : Wrapper) : List Instr :=
  plain (save ++ arguments) ++ .int 48 :: (plain restore ++ [.js W.err, .ret])

def syscallErr (W : Wrapper) : List Instr :=
  plain [.neg .eax, .storeAt W.errno .eax, .movImm .eax (-1)] ++ [.ret]

structure Linked (M : Machine) (W : Wrapper) : Prop where
  syscall : Placed M W.syscall (syscall W) W.err
  err : ∃ e, Placed M W.err (syscallErr W) e

def sysRegs (r : Entry.Regs) : Syscall.Regs where
  eax := ⟨r.eax⟩
  ebx := ⟨r.ebx⟩
  ecx := ⟨r.ecx⟩
  edx := ⟨r.edx⟩
  esi := ⟨r.esi⟩
  edi := ⟨r.edi⟩
  ebp := ⟨r.ebp⟩

/-! ## Into the kernel -/

section Into
variable {M : Machine} {L : Labels} {c : Cpu} {n a1 a2 a3 a4 a5 a6 back : Word}

/-- At `int 48`: the number and the arguments are in registers. -/
def inRegs (c : Cpu) (n a1 a2 a3 a4 a5 a6 : Word) : Reg → Word
  | .eax => n
  | .ecx => a2
  | .edx => a3
  | .ebx => a1
  | .esp => c.reg .esp - 16
  | .ebp => a6
  | .esi => a4
  | .edi => a5

def saved (c : Cpu) : List Word := [c.reg .ebx, c.reg .esi, c.reg .edi, c.reg .ebp]

theorem saved_words {ws : List Word} (words : Words c.mem (c.reg .esp).toNat ws)
    (room : 16 ≤ (c.reg .esp).toNat) :
    Words (execs c save).mem ((c.reg .esp).toNat - 16) ((saved c).reverse ++ ws) := by
  refine (words_append _).mpr ⟨pushAll_words (saved c) room, ?_⟩
  rw [show (c.reg .esp).toNat - 16 + 4 * (saved c).reverse.length = (c.reg .esp).toNat from
    Nat.sub_add_cancel room]
  exact words_congr (fun x low _ => pushAll_outside (saved c) room (Or.inr low)) words

theorem arguments_eq (words : Words c.mem (c.reg .esp).toNat [back, n, a1, a2, a3, a4, a5, a6])
    (room : 16 ≤ (c.reg .esp).toNat) (fits : (c.reg .esp).toNat + 32 ≤ 2 ^ 32) :
    execs c (save ++ arguments) = { execs c save with reg := inRegs c n a1 a2 a3 a4 a5 a6 } := by
  have pointer : (execs c save).reg .esp = c.reg .esp - 16 :=
    pushAll_pointer (saved c) room
  have place : ((execs c save).reg .esp).toNat = (c.reg .esp).toNat - 16 := by
    rw [pointer]
    exact toNat_back (k := 16) room
  have top := saved_words words room
  rw [← place] at top
  have found (k : Nat) (w : Word)
      (there : ((saved c).reverse ++ [back, n, a1, a2, a3, a4, a5, a6])[k]? = some w) :
      (execs c save).stack k = w :=
    stack_word top (by rw [place]; show _ + 48 ≤ _; omega) there
  rw [execs_append]
  generalize execs c save = P at *
  have loads : execs P arguments = { P with reg := fun
      | .eax => P.stack 5
      | .ecx => P.stack 7
      | .edx => P.stack 8
      | .ebx => P.stack 6
      | .esp => P.reg .esp
      | .ebp => P.stack 11
      | .esi => P.stack 9
      | .edi => P.stack 10 } := by
    simp only [execs, arguments, List.foldl_cons, List.foldl_nil, Op.exec, Cpu.setReg]
    congr 1
    funext q
    cases q <;> rfl
  rw [loads, found 5 n rfl, found 6 a1 rfl, found 7 a2 rfl, found 8 a3 rfl, found 9 a4 rfl,
    found 10 a5 rfl, found 11 a6 rfl, pointer]
  rfl

end Into

/-! ## Out of the kernel -/

section OutOf
variable {M : Machine} {L : Labels} {W : Wrapper} {c h h' t : Cpu} {r : Entry.Regs} {a e ret : Word}

def leave (L : Labels) : List Op :=
  .popReg .eax :: restoreRegs ++ [.loadAt .eax L.sysRval, .addImm .esp 8]

theorem stub_leaves (placed : Placed M a (plain (leave L) ++ [.iret]) e)
    (here : t.eip = a) (sp : Word)
    (pointer : t.reg .esp = sp - 4) (low : 4 ≤ sp.toNat) (kept : Words t.mem sp.toNat r.words)
    (fits : sp.toNat + 68 ≤ 2 ^ 32)
    (ring : r.cs.setWidth 16 &&& 3 = t.seg .cs &&& 3) :
    Reaches M t { t with
      reg := Function.update (r.reg (sp + 68)) .eax (t.word L.sysRval)
      seg := r.seg (t.seg .ss)
      eip := r.eip
      eflags := r.eflags } := by
  obtain ⟨b, body, rest⟩ := (placed_append _).mp placed
  refine (reaches_ops body here).trans ?_
  refine (reaches_iret rest _ rfl).trans ?_
  have up : t.reg .esp + 4 = sp := by
    rw [pointer]
    bv_omega
  have popped : (execs t [.popReg .eax]).reg .esp = sp := up
  have back := restoreRegs_eq (s := execs t [.popReg .eax]) (r := r) (by rw [popped]; exact kept)
    (by rw [popped]; exact fits)
  rw [popped] at back
  have split : execs t (leave L) =
      execs (execs (execs t [.popReg .eax]) restoreRegs) [.loadAt .eax L.sysRval,
      .addImm .esp 8] := by
    rw [← execs_append, ← execs_append]
    rfl
  rw [split, back]
  have high : (execs { execs t [.popReg .eax] with
      reg := r.reg (sp + 48)
      seg := Function.update (r.seg (t.seg .ss)) .cs (t.seg .cs) } [.loadAt .eax L.sysRval,
      .addImm .esp 8]).reg .esp = sp + 56 := by
    show sp + 48 + 8 = _
    bv_omega
  have left := leave_eq (s := { execs { execs t [.popReg .eax] with
      reg := r.reg (sp + 48)
      seg := Function.update (r.seg (t.seg .ss)) .cs (t.seg .cs) } [.loadAt .eax L.sysRval,
      .addImm .esp 8] with eip := b })
    high rfl kept fits ring
  have regs :
    Function.update (Function.update (Function.update (r.reg (sp + 48)) .eax (t.word L.sysRval))
    .esp (sp + 48 + 8)) .esp
      (sp + 68) = Function.update (r.reg (sp + 68)) .eax (t.word L.sysRval) := by
    funext q
    cases q <;> rfl
  rw [← regs]
  exact reaches_of_eq left

/-- What the C code gave, or -1 with its negation in `errno` if it is negative. -/
def Result (W : Wrapper) (w : Word) (m : Mem) (c' : Cpu) : Prop :=
  if w.msb then c'.reg .eax = -1 ∧ c'.mem = store32 m W.errno.toNat (0 - w).toNat
  else c'.reg .eax = w ∧ c'.mem = m

/-- The callee-saved registers and the return address, as they lie on the stack. -/
def below (c : Cpu) (ret : Word) : List Word :=
  [c.reg .ebp, c.reg .edi, c.reg .esi, c.reg .ebx, ret]

def restored (c t : Cpu) : Reg → Word
  | .ebx => c.reg .ebx
  | .esi => c.reg .esi
  | .edi => c.reg .edi
  | .ebp => c.reg .ebp
  | .esp => t.reg .esp + 16
  | .eax => t.reg .eax
  | .ecx => t.reg .ecx
  | .edx => t.reg .edx

theorem restore_eq (stack : Words t.mem (t.reg .esp).toNat (below c ret))
    (fits : (t.reg .esp).toNat + 20 ≤ 2 ^ 32) :
    execs t restore = { t with
    reg := restored c t, eflags := testFlags t.eflags (t.reg .eax) } := by
  have found (k : Nat) (w : Word) (there : (below c ret)[k]? = some w) : t.stack k = w :=
    stack_word stack fits there
  have pops : execs t restore = { t with
      reg := fun
        | .ebx => t.stack 3
        | .esi => t.stack 2
        | .edi => t.stack 1
        | .ebp => t.stack 0
        | .esp => t.reg .esp + 16
        | .eax => t.reg .eax
        | .ecx => t.reg .ecx
        | .edx => t.reg .edx
      eflags := testFlags t.eflags (t.reg .eax) } := by
    simp only [execs, restore, List.foldl_cons, List.foldl_nil, Op.exec, ne_eq, reduceCtorEq,
      not_false_eq_true, setReg_stack,
      setReg_drop, drop_drop, drop_stack]
    simp only [Cpu.drop, Cpu.setReg]
    congr 1
    funext q
    cases q <;> rfl
  rw [pops, found 0 _ rfl, found 1 _ rfl, found 2 _ rfl, found 3 _ rfl]
  rfl

theorem wrapper_returns (linked : Linked M W)
    (placed : Placed M a (plain restore ++ [.js W.err, .ret]) W.err) (here : t.eip = a)
    (stack : Words t.mem (t.reg .esp).toNat (below c ret)) (fits : (t.reg .esp).toNat + 20 ≤ 2 ^ 32)
    (apart : W.errno.toNat + 4 ≤ (t.reg .esp).toNat + 16 ∨
    (t.reg .esp).toNat + 20 ≤ W.errno.toNat) :
    ∃ c', Reaches M t c' ∧ c'.eip = ret ∧ c'.reg .esp = t.reg .esp + 20 ∧
      (∀ r, r ∈ [Reg.ebx, .esi, .edi, .ebp] → c'.reg r = c.reg r) ∧ c'.seg = t.seg ∧
      c'.eflags.getLsbD flagIf = t.eflags.getLsbD flagIf ∧ Result W (t.reg .eax) t.mem c' := by
  obtain ⟨b, body, rest⟩ := (placed_append _).mp placed
  let u : Cpu := { t with reg := restored c t, eflags := testFlags t.eflags (t.reg .eax), eip := b }
  have run : Reaches M t u := by
    have run := reaches_ops body here
    rwa [restore_eq stack fits] at run
  have bound := (t.reg .esp).isLt
  have place : (t.reg .esp + 16).toNat = (t.reg .esp).toNat + 16 := toNat_off (k := 16) (by omega)
  have back : Words t.mem (t.reg .esp + 16).toNat [ret] := by
    rw [place]
    exact ((words_append (below c ret |>.take 4)).mp stack).2
  have flags : u.eflags.getLsbD flagSf = (t.reg .eax).msb := setFlags_sf _ _ _ _ _
  obtain ⟨next, rest', jump⟩ := reaches_instr rest
  by_cases negative : (t.reg .eax).msb = true
  · obtain ⟨e, there⟩ := linked.err
    obtain ⟨d, error, last⟩ := (placed_append _).mp there
    obtain ⟨_, _, returns⟩ := reaches_instr last
    have jumped := jump u { u with
      eip := W.err } rfl (by rw [Instr.exec]; simp only [flags, negative, if_true])
    let v : Cpu :=
      { execs { u with
        eip := W.err } [.neg .eax, .storeAt W.errno .eax, .movImm .eax (-1)] with eip := d }
    have pointer : (v.reg .esp).toNat = (t.reg .esp).toNat + 16 := place
    have kept : Words v.mem (v.reg .esp).toNat [ret] := by
      rw [place] at back
      rw [pointer]
      exact words_congr (fun x low high =>
        store32_other _ _ (by rw [List.length_singleton] at high; omega)) back
    have top : v.stack 0 = ret := stack_word kept (by rw [pointer]; show _ + 4 ≤ _; omega) rfl
    refine ⟨_, (run.trans jumped).trans ((reaches_ops error rfl).trans (returns v _ rfl rfl)), top,
      ?_, ?_, rfl, ?_, ?_⟩
    · show t.reg .esp + 16 + 4 = _
      bv_omega
    · intro r member
      simp only [List.mem_cons, List.not_mem_nil, or_false] at member
      rcases member with rfl | rfl | rfl | rfl <;> rfl
    · exact (setFlags_if _ _ _ _ _).trans (setFlags_if _ _ _ _ _)
    · rw [Result, if_pos negative]
      exact ⟨rfl, rfl⟩
  · obtain ⟨_, _, returns⟩ := reaches_instr rest'
    have jumped := jump u { u with
      eip := next } rfl (by rw [Instr.exec]; simp only [flags, negative]; rfl)
    have top : u.stack 0 = ret :=
      stack_word (c := u) back (by show (t.reg .esp + 16).toNat + 4 ≤ _; omega) rfl
    refine ⟨_, (run.trans jumped).trans (returns _ _ rfl rfl), top, ?_, ?_, rfl,
      setFlags_if _ _ _ _ _, ?_⟩
    · show t.reg .esp + 16 + 4 = _
      bv_omega
    · intro r member
      simp only [List.mem_cons, List.not_mem_nil, or_false] at member
      rcases member with rfl | rfl | rfl | rfl <;> rfl
    · rw [Result, if_neg negative]
      exact ⟨rfl, rfl⟩

end OutOf

section Call
variable {M : Machine} {L : Labels} {W : Wrapper} {c : Cpu} {n a1 a2 a3 a4 a5 a6 back : Word}

structure AtTrap (c : Cpu) (args : Reg → Word) (back behind : Word) (d : Cpu) : Prop where
  eip : d.eip = behind
  reg : d.reg = args
  seg : d.seg = c.seg
  eflags : d.eflags = c.eflags
  stack : Words d.mem ((c.reg .esp).toNat - 16) (below c back)
  outside : ∀ x, x < (c.reg .esp).toNat - 16 ∨ (c.reg .esp).toNat ≤ x → d.mem x = c.mem x

theorem reaches_trap (linked : Linked M W) (here : c.eip = W.syscall)
    (words : Words c.mem (c.reg .esp).toNat [back, n, a1, a2, a3, a4, a5, a6])
    (room : 16 ≤ (c.reg .esp).toNat)
    (fits : (c.reg .esp).toNat + 32 ≤ 2 ^ 32) :
    ∃ d behind, Placed M behind (plain restore ++ [.js W.err, .ret]) W.err ∧
      AtTrap c (inRegs c n a1 a2 a3 a4 a5 a6) back behind d ∧
      ∀ c₀, d.interrupt M.idt 48 none = some c₀ → Reaches M c c₀ := by
  obtain ⟨b, body, rest⟩ := (placed_append _).mp linked.syscall
  obtain ⟨behind, tail, trap⟩ := reaches_instr rest
  have stack : Words (execs c save).mem ((c.reg .esp).toNat - 16) (below c back) := by
    have all := saved_words words room
    rw [show (saved c).reverse ++ [back, n, a1, a2, a3, a4, a5, a6] =
      below c back ++ [n, a1, a2, a3, a4, a5, a6] from rfl] at all
    exact ((words_append _).mp all).1
  have outside : ∀ x, x < (c.reg .esp).toNat - 16 ∨ (c.reg .esp).toNat ≤ x →
      (execs c save).mem x = c.mem x := fun x away =>
    pushAll_outside (saved c) room away
  have seg : (execs c save).seg = c.seg := pushAll_seg (saved c)
  have eflags : (execs c save).eflags = c.eflags := pushAll_flags (saved c)
  have run := reaches_ops body here
  rw [arguments_eq words room fits] at run
  generalize execs c save = s at *
  exact ⟨{ s with reg := inRegs c n a1 a2 a3 a4 a5 a6, eip := behind }, behind, tail,
    ⟨rfl, rfl, seg, eflags, stack, outside⟩,
    fun c₀ taken => run.trans (trap _ c₀ rfl taken)⟩

/-- `isr_handler` gets the number and the six arguments as `sys_hand` reads them, and `syscall`
    returns as a C function does, with the word in `sys_rval` or with -1. -/
theorem system_call (loaded : Loaded M L) (linked : Linked M W) (table : TableIn M L c.mem)
    (here : c.eip = W.syscall)
    (ring : c.seg .cs &&& 3 = 0) (stackSeg : c.seg .ss = 0x10)
    (words : Words c.mem (c.reg .esp).toNat [back, n, a1, a2, a3, a4, a5, a6])
    (room : 92 ≤ (c.reg .esp).toNat) (fits : (c.reg .esp).toNat + 32 ≤ 2 ^ 32)
    (clear : M.idt + 8 * 49 ≤ (c.reg .esp).toNat - 16 ∨ (c.reg .esp).toNat ≤ M.idt)
    (apart : W.errno.toNat + 4 ≤ (c.reg .esp).toNat ∨ (c.reg .esp).toNat + 4 ≤ W.errno.toNat) :
    ∃ h r, Reaches M c h ∧ h.eip = L.isrHandler ∧ h.seg = kernel 8 ∧
    h.eflags.getLsbD flagIf = false ∧
      h.stack 1 = c.reg .esp - 84 ∧ Words h.mem ((c.reg .esp).toNat - 84)
      (Entry.Regs.words r) ∧ r.intNo = 48 ∧
      sysRegs r = ⟨⟨n⟩, ⟨a1⟩, ⟨a2⟩, ⟨a3⟩, ⟨a4⟩, ⟨a5⟩, ⟨a6⟩⟩ ∧
      (∀ x, x < (c.reg .esp).toNat - 92 ∨ (c.reg .esp).toNat ≤ x → h.mem x = c.mem x) ∧
      ∀ h', Returned h h' → AgreeOn h.mem h'.mem ((c.reg .esp).toNat - 84)
      ((c.reg .esp).toNat + 4) →
        ∃ c', Reaches M h' c' ∧ Returned c c' ∧ c'.eflags.getLsbD flagIf = c.eflags.getLsbD flagIf ∧
          Result W (h'.word L.sysRval) h'.mem c' := by
  obtain ⟨d, behind, tail, trap, run⟩ := reaches_trap linked here words (by omega) fits
  have bound := (c.reg .esp).isLt
  have pointer : d.reg .esp = c.reg .esp - 16 := by
    rw [trap.reg]
    rfl
  have place : (d.reg .esp).toNat = (c.reg .esp).toNat - 16 := by
    rw [pointer]
    exact toNat_back (k := 16) (by omega)
  have atTable : TableIn M L d.mem := by
    obtain ⟨before, same⟩ := table
    exact ⟨before, same.trans fun x low high => trap.outside x (by omega)⟩
  obtain ⟨e, sysPlaced⟩ := loaded.sys
  obtain ⟨c₀, h, next, taken, enters, after, handling⟩ :=
    reaches_handler (n := 48) loaded atTable (by decide)
    (show (none : Option Word).isSome = hasError 48 from rfl) (by omega) (Or.inr rfl)
      (sysPlaced : Placed M (stub L 48) _ e)
  have argument : h.stack 1 = c.reg .esp - 84 := by
    rw [handling.argument, pointer]
    bv_omega
  have masked : h.eflags.getLsbD flagIf = false := by
    rw [handling.eflags, BitVec.getLsbD_and, show (~~~gateMask).getLsbD flagIf = false from rfl,
      Bool.and_false]
  have frame := handling.frame
  have numbers : sysRegs (interrupted d 48 0) = ⟨⟨n⟩, ⟨a1⟩, ⟨a2⟩, ⟨a3⟩, ⟨a4⟩, ⟨a5⟩, ⟨a6⟩⟩ := by
    simp only [sysRegs, interrupted, Regs.of, trap.reg, inRegs]
  have frameAt : (c.reg .esp).toNat - 84 = (d.reg .esp).toNat - 68 := by omega
  refine ⟨h, interrupted d 48 0, (run c₀ taken).trans enters, handling.eip, handling.seg, masked,
    argument, frameAt ▸ frame, rfl,
    numbers, fun x away => ?_, fun h' back' same => ?_⟩
  · rw [handling.outside x (by omega), trap.outside x (by omega)]
  · have spPlace : (d.reg .esp - 68).toNat = (d.reg .esp).toNat - 68 :=
      toNat_back (k := 68) (by omega)
    have kept : Words h'.mem (d.reg .esp - 68).toNat (interrupted d 48 0).words := by
      rw [spPlace]
      exact words_congr (same.mono (by omega) (by show _ + 68 ≤ _; omega)) frame
    have sameRing : ((interrupted d 48 0).cs).setWidth 16 &&& 3 = h'.seg .cs &&& 3 := by
      show ((d.seg .cs).setWidth 32).setWidth 16 &&& 3 = _
      rw [BitVec.setWidth_setWidth_of_le _ (by decide), BitVec.setWidth_eq, trap.seg, ring,
        back'.segs, handling.seg]
      decide
    have left := stub_leaves after (back'.eip.trans handling.back) (d.reg .esp - 68)
      (by rw [back'.esp, handling.esp]; bv_omega) (by omega) kept (by omega) sameRing
    have up : d.reg .esp - 68 + 68 = d.reg .esp := by bv_omega
    have gone := of_restores d (d.reg .esp - 68) (BitVec.ofNat 32 48) 0 d.eip
    have kernelStack : h'.seg .ss = 0x10 := by
      rw [back'.segs, handling.seg]
      rfl
    rw [up, interrupted, gone.1, kernelStack, gone.2, trap.seg, ← stackSeg,
      Function.update_eq_self] at left
    have stillThere : Words h'.mem (d.reg .esp).toNat (below c back) := by
      rw [place]
      refine words_congr (fun x low high => ?_) trap.stack
      have inside : x < (c.reg .esp).toNat + 4 := by
        have length : (below c back).length = 5 := rfl
        omega
      rw [same x (by omega) inside, handling.outside x (by omega)]
    let u : Cpu :=
      { reg := Function.update d.reg .eax (h'.word L.sysRval), seg := c.seg, eip := d.eip,
        eflags := d.eflags, mem := h'.mem }
    have there : u.reg .esp = d.reg .esp := rfl
    obtain ⟨c', returns, eip, esp, saved, seg, flag, result⟩ :=
      wrapper_returns (t := u) linked tail trap.eip stillThere
      (by rw [there]; omega) (by rw [there]; omega)
    have eflags : u.eflags = c.eflags := trap.eflags
    rw [eflags] at flag
    rw [there, pointer] at esp
    exact ⟨c', left.trans returns, ⟨eip.trans (stack_word words (by exact fits) (k := 0) rfl).symm,
      esp.trans (by bv_omega), saved, seg⟩, flag, result⟩

def wrapper : Wrapper := ⟨0x7000, 0x7013, 0x4010⟩

def program : Machine := (image.add 0x7000 (syscall wrapper)).add 0x7013 (syscallErr wrapper)

def caller : Cpu :=
  { cpu with
    eip := 0x7000
    mem :=
      storeWords cpu.mem 0x9000
        (([0x6000, 4, 1, 0x8000, 5, 0, 0, 0] : List Word).map BitVec.toNat) }

theorem program_linked : Linked program wrapper where
  syscall := placed_of_codeEnd (by decide +kernel)
  err := ⟨_, placed_of_codeEnd (e := 0x7017) (by decide +kernel)⟩

theorem system_call_write :
    ∃ h r, Reaches program caller h ∧ h.eip = 0x3000 ∧ h.seg = kernel 8 ∧
    h.eflags.getLsbD flagIf = false ∧
      h.stack 1 = 0x9000 - 84 ∧ Words h.mem (0x9000 - 84) (Entry.Regs.words r) ∧ r.intNo = 48 ∧
      sysRegs r = ⟨4, 1, 0x8000, 5, 0, 0, 0⟩ ∧
      (∀ x, x < 0x9000 - 92 ∨ 0x9000 ≤ x → h.mem x = caller.mem x) ∧
      ∀ h', Returned h h' → AgreeOn h.mem h'.mem (0x9000 - 84) (0x9000 + 4) →
        ∃ c', Reaches program h' c' ∧ Returned caller c' ∧
        c'.eflags.getLsbD flagIf = caller.eflags.getLsbD flagIf ∧
          Result wrapper (h'.word 0x4000) h'.mem c' :=
  system_call ((image_loaded.add _ _).add _ _) program_linked
    ⟨fun _ => 0, fun x _ high => storeWords_other _ _ _ (Or.inl (Nat.lt_trans high (by decide)))⟩
      rfl (by decide) rfl
    (words_store cpu.mem 0x9000 [0x6000, 4, 1, 0x8000, 5, 0, 0, 0]) (by decide) (by decide)
      (by decide) (by decide)

end Call

end SystemCalls
