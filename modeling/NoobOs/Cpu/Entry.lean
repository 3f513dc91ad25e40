import NoobOs.Lib.StackMachine

/-!
How the kernel is entered and left: the stubs of `int.asm`, the gates of `idt.c` that lead to them,
and the frame (`struct regs`) they give a handler. All code is at one level of privilege.
-/
namespace Entry
open StackMachine ByteMemory

/-- Where the linker puts the code, `sys_rval` and the entries of `itab`. -/
structure Labels where
  isrStub : Word
  irqStub : Word
  sysStub : Word
  intret : Word
  childret : Word
  isrHandler : Word
  irqHandler : Word
  generalEoi : Word
  sysRval : Word
  itab : Nat → Word

/-! ## int.asm -/

def saveRegs : List Op := [.pushad, .pushSeg .gs, .pushSeg .fs, .pushSeg .es, .pushSeg .ds]

def kernelSegs : List Op :=
  [.movLow .eax 0x10, .movSeg .es .eax, .movSeg .ds .eax, .movSeg .ss .eax, .movSeg .gs .eax,
    .movSeg .fs .eax]

/-- `regs.esp` is 28. -/
def frameEsp : List Op := [.movReg .eax .esp, .store .eax 28 .esp]

def enter : List Op := saveRegs ++ kernelSegs ++ frameEsp

def restoreRegs : List Op := [.popSeg .ds, .popSeg .es, .popSeg .fs, .popSeg .gs, .popad]

/-- It runs on into `intret`. -/
def isrStub (L : Labels) : List Instr :=
  plain (enter ++ [.pushReg .eax]) ++ [.call L.isrHandler, .op (.addImm .esp 4)]

def intret : List Instr := plain (restoreRegs ++ [.addImm .esp 8]) ++ [.iret]

def irqStub (L : Labels) : List Instr :=
  plain (enter ++ [.pushReg .esp]) ++ [.call L.irqHandler, .op (.addImm .esp 4), .jmp L.intret]

def sysStub (L : Labels) : List Instr :=
  plain (enter ++ [.pushReg .esp]) ++ [.call L.isrHandler] ++
    plain (.popReg .eax :: restoreRegs ++ [.loadAt .eax L.sysRval, .addImm .esp 8]) ++ [.iret]

def childret (L : Labels) : List Instr :=
  [.op (.pushImm 0), .call L.generalEoi, .op (.addImm .esp 4), .op .sti, .jmp L.intret]

/-- The numbers of the macro `_ex_e`: the processor pushes an error code. -/
def hasError (n : Nat) : Bool := n ∈ [8, 10, 11, 12, 13, 14, 17, 21, 30]

def exNe (n : Nat) (stub : Word) : List Instr :=
  [.op (.pushImm 0), .op (.pushImm (BitVec.ofNat 32 n)), .jmp stub]
def exE (n : Nat) (stub : Word) : List Instr := [.op (.pushImm (BitVec.ofNat 32 n)), .jmp stub]

/-- The code of an entry of `itab`. -/
def vector (L : Labels) (n : Nat) : List Instr :=
  if n < 32 then (if hasError n then exE n L.isrStub else exNe n L.isrStub)
  else if n < 48 then exNe n L.irqStub
  else exNe 48 L.sysStub

structure Loaded (M : Machine) (L : Labels) : Prop where
  isr : Placed M L.isrStub (isrStub L) L.intret
  intret : ∃ e, Placed M L.intret intret e
  irq : ∃ e, Placed M L.irqStub (irqStub L) e
  sys : ∃ e, Placed M L.sysStub (sysStub L) e
  childret : ∃ e, Placed M L.childret (childret L) e
  vectors : ∀ n < 49, ∃ e, Placed M (L.itab n) (vector L n) e

/-! ## idt.c -/

def exU : UInt8 := 0xee

/-- The reserved byte of the gate is left as it is. -/
def setG (idt : Nat) (m : Mem) (a : Word) (idx : Nat) (flg : UInt8) : Mem :=
  let g := idt + 8 * idx
  let m := store8 m (g + 5) flg
  let m := store16 m (g + 2) 0x08
  let m := store16 m g (a.toNat % 65536)
  store16 m (g + 6) (a.toNat / 65536 % 65536)

def fillIdt (idt : Nat) (itab : Nat → Word) (m : Mem) : Mem :=
  (List.range 49).foldl (fun m i => setG idt m (itab i) i exU) m

/-- `struct regs` up to `eflags`; what follows is pushed for another privilege only. -/
structure Regs where
  ds : Word
  es : Word
  fs : Word
  gs : Word
  edi : Word
  esi : Word
  ebp : Word
  esp : Word
  ebx : Word
  edx : Word
  ecx : Word
  eax : Word
  intNo : Word
  errCode : Word
  eip : Word
  cs : Word
  eflags : Word

def Regs.words (r : Regs) : List Word :=
  [r.ds, r.es, r.fs, r.gs, r.edi, r.esi, r.ebp, r.esp, r.ebx, r.edx, r.ecx, r.eax, r.intNo,
    r.errCode, r.eip, r.cs, r.eflags]

/-- The frame of a processor that was at `eip`, with the address of the frame itself. -/
def Regs.of (c : Cpu) (fp n err eip cs eflags : Word) : Regs where
  ds := (c.seg .ds).setWidth 32
  es := (c.seg .es).setWidth 32
  fs := (c.seg .fs).setWidth 32
  gs := (c.seg .gs).setWidth 32
  edi := c.reg .edi
  esi := c.reg .esi
  ebp := c.reg .ebp
  esp := fp
  ebx := c.reg .ebx
  edx := c.reg .edx
  ecx := c.reg .ecx
  eax := c.reg .eax
  intNo := n
  errCode := err
  eip := eip
  cs := cs
  eflags := eflags

/-- What a handler finds of the processor it interrupts. -/
def interrupted (c : Cpu) (n : Nat) (err : Word) : Regs :=
  Regs.of c (c.reg .esp - 68) (BitVec.ofNat 32 n) err c.eip ((c.seg .cs).setWidth 32) c.eflags

/-- The registers that `popad` and the rest of `intret` load. -/
def Regs.reg (r : Regs) (esp : Word) : Reg → Word
  | .eax => r.eax
  | .ecx => r.ecx
  | .edx => r.edx
  | .ebx => r.ebx
  | .esp => esp
  | .ebp => r.ebp
  | .esi => r.esi
  | .edi => r.edi

def Regs.seg (r : Regs) (ss : BitVec 16) : Seg → BitVec 16
  | .cs => r.cs.setWidth 16
  | .ss => ss
  | .ds => r.ds.setWidth 16
  | .es => r.es.setWidth 16
  | .fs => r.fs.setWidth 16
  | .gs => r.gs.setWidth 16

/-! ## Entering -/

section Enter
variable {M : Machine} {L : Labels} {c s : Cpu} {a e f : Word} {n : Nat}

def kernel (cs : BitVec 16) : Seg → BitVec 16
  | .cs => cs
  | _ => 0x10

def pushes (s : Cpu) : List Word :=
  [s.reg .eax, s.reg .ecx, s.reg .edx, s.reg .ebx, s.reg .esp, s.reg .ebp, s.reg .esi, s.reg .edi,
    (s.seg .gs).setWidth 32, (s.seg .fs).setWidth 32, (s.seg .es).setWidth 32,
    (s.seg .ds).setWidth 32]

theorem saveRegs_pushes (s : Cpu) : execs s saveRegs = s.pushAll (pushes s) := rfl

theorem selector (w : Word) :
    (w &&& 0xffff0000 ||| BitVec.setWidth 32 (0x10 : BitVec 16)).setWidth 16 =
    (0x10 : BitVec 16) := by
  rw [BitVec.setWidth_or, BitVec.setWidth_and]
  simp

theorem kernelSegs_eq (s : Cpu) : execs s kernelSegs =
    { s.setReg .eax (s.reg .eax &&& 0xffff0000 ||| BitVec.setWidth 32 (0x10 : BitVec 16)) with
      seg := kernel (s.seg .cs) } := by
  simp only [execs, kernelSegs, List.foldl_cons, List.foldl_nil, Op.exec, Cpu.setSeg, Cpu.setReg,
    Function.update_self, selector]
  congr 1
  funext g
  cases g <;> rfl

theorem enter_eq (s : Cpu) {q : Reg} (argument : q = .eax ∨ q = .esp) (fp : Word)
    (top : (s.pushAll (pushes s)).reg .esp = fp) : execs s (enter ++ [.pushReg q]) =
      ({ ((s.pushAll (pushes s)).setReg .eax fp).setWord (fp + 28) fp with
      seg := kernel (s.seg .cs) }).push fp := by
  have segs : (s.pushAll (pushes s)).seg = s.seg := rfl
  rw [enter, execs_append, execs_append, execs_append, saveRegs_pushes, kernelSegs_eq, segs]
  generalize s.pushAll (pushes s) = p at *
  rcases argument with rfl | rfl <;>
    simp [execs, frameEsp, Op.exec, Cpu.setReg, Cpu.setWord, Cpu.push, top]

/-- Every stub comes to its handler with the frame on the stack and its address as the argument. -/
theorem enter_frame {q : Reg} {is : List Instr} (argument : q = .eax ∨ q = .esp)
    (placed : Placed M a (plain (enter ++ [.pushReg q]) ++ .call f :: is) e) (here : s.eip = a)
    (room : 56 ≤ (s.reg .esp).toNat) {n err eip cs eflags : Word}
    (words : Words s.mem (s.reg .esp).toNat [n, err, eip, cs, eflags]) :
    ∃ next h, Placed M next is e ∧ Reaches M s h ∧ h.eip = f ∧ h.reg .esp = s.reg .esp - 56 ∧
      (∀ r, r ≠ .eax → r ≠ .esp → h.reg r = s.reg r) ∧ h.seg = kernel (s.seg .cs) ∧
      h.eflags = s.eflags ∧
      Words h.mem (h.reg .esp).toNat
        (next :: (s.reg .esp - 48) :: (Regs.of s (s.reg .esp - 48) n err eip cs eflags).words) ∧
      ∀ x, x < (s.reg .esp).toNat - 56 ∨ (s.reg .esp).toNat ≤ x → h.mem x = s.mem x := by
  obtain ⟨b, body, rest⟩ := (placed_append _).mp placed
  obtain ⟨next, rest', call⟩ := reaches_call rest
  have length : (pushes s).length = 12 := rfl
  have top : (s.pushAll (pushes s)).reg .esp = s.reg .esp - 48 := pushAll_pointer _ (by omega)
  have bound := (s.reg .esp).isLt
  have fp : (s.reg .esp - 48).toNat = (s.reg .esp).toNat - 48 := toNat_back (k := 48) (by omega)
  have slot : (s.reg .esp - 48 + 28).toNat = (s.reg .esp).toNat - 48 + 4 * 7 := by
    rw [← fp]
    exact toNat_off (a := s.reg .esp - 48) (k := 28) (by omega)
  -- the frame before its own address is stored in it
  have saved : Words (s.pushAll (pushes s)).mem ((s.reg .esp).toNat - 48)
      ((pushes s).reverse ++ [n, err, eip, cs, eflags]) := by
    refine (words_append _).mpr ⟨pushAll_words _ (by omega), ?_⟩
    rw [List.length_reverse, length, show (s.reg .esp).toNat - 48 + 4 * 12 =
      (s.reg .esp).toNat by omega]
    exact words_congr (fun x low _ => pushAll_outside _ (by omega) (Or.inr low)) words
  let Q : Cpu :=
    { ((s.pushAll (pushes s)).setReg .eax (s.reg .esp - 48)).setWord (s.reg .esp - 48 + 28)
      (s.reg .esp - 48) with
    seg := kernel (s.seg .cs) }
  have pointer : Q.reg .esp = s.reg .esp - 48 := top
  have memory : Q.mem = store32 (s.pushAll (pushes s)).mem ((s.reg .esp).toNat - 48 + 4 * 7)
      (s.reg .esp - 48).toNat :=
    congrArg (store32 (s.pushAll (pushes s)).mem · (s.reg .esp - 48).toNat) slot
  have frame : Words Q.mem (Q.reg .esp).toNat
      (Regs.of s (s.reg .esp - 48) n err eip cs eflags).words := by
    rw [pointer, fp, memory]
    exact words_set [(s.seg .ds).setWidth 32, (s.seg .es).setWidth 32, (s.seg .fs).setWidth 32,
      (s.seg .gs).setWidth 32, s.reg .edi, s.reg .esi, s.reg .ebp] saved (s.reg .esp - 48)
  have outside : ∀ x, x < (s.reg .esp).toNat - 48 ∨ (s.reg .esp).toNat ≤ x → Q.mem x = s.mem x := by
    intro x away
    rw [memory, store32_other _ _ (by omega)]
    exact pushAll_outside _ (by omega) (by omega)
  have argumentPointer : (Q.push (s.reg .esp - 48)).reg .esp = s.reg .esp - 52 := by
    simp only [Cpu.push, Cpu.setReg, Function.update_self, pointer]
    bv_omega
  have argumentPlace : ((Q.push (s.reg .esp - 48)).reg .esp).toNat = (s.reg .esp).toNat - 52 := by
    rw [argumentPointer]
    exact toNat_back (k := 52) (by omega)
  have argumentFrame := push_words (by rw [pointer, fp]; omega) frame (s.reg .esp - 48)
  refine ⟨next, { ({ Q.push (s.reg .esp - 48) with eip := b } : Cpu).push next with eip := f },
    rest', ?_, rfl, ?_, ?_, rfl, rfl, ?_, ?_⟩
  · have run := reaches_ops body here
    rw [enter_eq s argument _ top] at run
    exact run.trans (call _ rfl)
  · show (Q.push (s.reg .esp - 48)).reg .esp - 4 = _
    rw [argumentPointer]
    bv_omega
  · intro r notEax notEsp
    simp only [Cpu.push, Cpu.setReg, Cpu.setWord, Function.update_of_ne notEsp, Q,
      Function.update_of_ne notEax]
    rw [pushAll_eq (by omega)]
    exact Function.update_of_ne notEsp _ _
  · exact push_words (c := { Q.push (s.reg .esp - 48) with eip := b })
      (by rw [argumentPlace]; omega) argumentFrame next
  · intro x away
    rw [← outside x (by omega)]
    refine (push_outside (c := { Q.push (s.reg .esp - 48) with eip := b })
      (by rw [argumentPlace]; omega) next
      (by rw [argumentPlace]; omega)).trans ?_
    exact push_outside (by rw [pointer, fp]; omega) _ (by rw [pointer, fp]; omega)

end Enter

/-! ## Leaving -/

section Leave
variable {M : Machine} {L : Labels} {s : Cpu} {r : Regs} {a e : Word}

theorem restoreRegs_eq (frame : Words s.mem (s.reg .esp).toNat r.words)
    (fits : (s.reg .esp).toNat + 68 ≤ 2 ^ 32) :
    execs s restoreRegs = { s with
      reg := r.reg (s.reg .esp + 48)
      seg := Function.update (r.seg (s.seg .ss)) .cs (s.seg .cs) } := by
  have found (k : Nat) (w : Word) (there : r.words[k]? = some w) : s.stack k = w :=
    stack_word frame fits there
  simp only [execs, restoreRegs, List.foldl_cons, List.foldl_nil, Op.exec, setSeg_drop, drop_drop,
    setSeg_stack, drop_stack]
  rw [found 0 r.ds rfl, found 1 r.es rfl, found 2 r.fs rfl, found 3 r.gs rfl, found 4 r.edi rfl,
    found 5 r.esi rfl,
    found 6 r.ebp rfl, found 8 r.ebx rfl, found 9 r.edx rfl, found 10 r.ecx rfl, found 11 r.eax rfl]
  simp only [Cpu.drop, Cpu.setReg, Cpu.setSeg]
  congr 1
  · funext q
    cases q <;> rfl
  · funext g
    cases g <;> rfl

theorem frame_top {m : Mem} {b : Nat} (frame : Words m b r.words) :
    Words m (b + 56) [r.eip, r.cs, r.eflags] :=
  ((words_append [r.ds, r.es, r.fs, r.gs, r.edi, r.esi, r.ebp, r.esp, r.ebx, r.edx, r.ecx, r.eax,
    r.intNo, r.errCode]).mp frame).2

theorem leave_eq {sp : Word} {ss cs : BitVec 16} (pointer : s.reg .esp = sp + 56)
    (segs : s.seg = Function.update (r.seg ss) .cs cs) (frame : Words s.mem sp.toNat r.words)
    (fits : sp.toNat + 68 ≤ 2 ^ 32)
    (ring : r.cs.setWidth 16 &&& 3 = cs &&& 3) :
    s.iret =
      { reg := Function.update s.reg .esp (sp + 68), seg := r.seg ss, eip := r.eip,
        eflags := r.eflags, mem := s.mem } := by
  have place : (s.reg .esp).toNat = sp.toNat + 56 := by
    rw [pointer]
    exact toNat_off (k := 56) (by omega)
  have top : Words s.mem (s.reg .esp).toNat [r.eip, r.cs, r.eflags] := by
    rw [place]
    exact frame_top frame
  have code : s.seg .cs = cs := by
    rw [segs]
    exact Function.update_self Seg.cs _ _
  simp only [Cpu.iret, stack_word top (k := 0) (by rw [place]; exact fits) rfl,
    stack_word top (k := 1) (by rw [place]; exact fits) rfl,
    stack_word top (k := 2) (by rw [place]; exact fits) rfl, code, if_pos ring, Cpu.drop,
    Cpu.setReg, Cpu.setSeg, pointer]
  congr 1
  · congr 1
    bv_omega
  · rw [segs, Function.update_idem]
    funext g
    cases g <;> rfl

/-- The same where the frame is for another privilege: the stack is switched too. -/
theorem leave_outer_eq {sp esp0 ss0 : Word} {ss cs : BitVec 16} (pointer : s.reg .esp = sp + 56)
    (segs : s.seg = Function.update (r.seg ss) .cs cs)
    (frame : Words s.mem sp.toNat (r.words ++ [esp0, ss0]))
    (fits : sp.toNat + 76 ≤ 2 ^ 32) (ring : r.cs.setWidth 16 &&& 3 ≠ cs &&& 3) :
    s.iret =
    { reg := Function.update s.reg .esp esp0, seg := r.seg (ss0.setWidth 16), eip := r.eip,
      eflags := r.eflags, mem := s.mem } := by
  have place : (s.reg .esp).toNat = sp.toNat + 56 := by
    rw [pointer]
    exact toNat_off (k := 56) (by omega)
  have top : Words s.mem (s.reg .esp).toNat [r.eip, r.cs, r.eflags, esp0, ss0] := by
    rw [place]
    exact ((words_append [r.ds, r.es, r.fs, r.gs, r.edi, r.esi, r.ebp, r.esp, r.ebx, r.edx, r.ecx,
      r.eax, r.intNo, r.errCode]).mp frame).2
  have code : s.seg .cs = cs := by
    rw [segs]
    exact Function.update_self Seg.cs _ _
  have found (k : Nat) (w : Word) (there : [r.eip, r.cs, r.eflags, esp0, ss0][k]? = some w) :
      s.stack k = w :=
    stack_word top (by rw [place]; show _ + 20 ≤ _; omega) there
  simp only [Cpu.iret, found 0 _ rfl, found 1 _ rfl, found 2 _ rfl, found 3 _ rfl, found 4 _ rfl,
    code, if_neg ring, Cpu.drop,
    Cpu.setReg, Cpu.setSeg, Function.update_idem]
  congr 1
  rw [segs, Function.update_idem]
  funext g
  cases g <;> rfl

theorem intret_pops (placed : Placed M a intret e) (here : s.eip = a)
    (frame : Words s.mem (s.reg .esp).toNat r.words)
    (fits : (s.reg .esp).toNat + 68 ≤ 2 ^ 32) :
    ∃ t : Cpu, Reaches M s t.iret ∧ t.reg = r.reg (s.reg .esp + 56) ∧ t.mem = s.mem ∧
      t.seg = Function.update (r.seg (s.seg .ss)) .cs (s.seg .cs) := by
  obtain ⟨b, body, rest⟩ := (placed_append _).mp placed
  have run := reaches_ops body here
  rw [execs_append, restoreRegs_eq frame fits] at run
  refine ⟨_, run.trans (reaches_iret rest _ rfl), ?_, rfl, rfl⟩
  have up : s.reg .esp + 48 + 8 = s.reg .esp + 56 := by bv_omega
  rw [← up]
  funext q
  cases q <;> rfl

/-- The way out of every interrupt but a system call, and into a new process. -/
theorem intret_restores (placed : Placed M a intret e) (here : s.eip = a)
    (frame : Words s.mem (s.reg .esp).toNat r.words)
    (fits : (s.reg .esp).toNat + 68 ≤ 2 ^ 32) (ring : r.cs.setWidth 16 &&& 3 = s.seg .cs &&& 3) :
    Reaches M s
      { reg := r.reg (s.reg .esp + 68), seg := r.seg (s.seg .ss), eip := r.eip, eflags := r.eflags,
        mem := s.mem } := by
  obtain ⟨t, run, regs, mem, segs⟩ := intret_pops placed here frame fits
  have pointer : t.reg .esp = s.reg .esp + 56 := by rw [regs]; rfl
  have left := leave_eq pointer segs (by rw [mem]; exact frame) fits ring
  have same : Function.update (r.reg (s.reg .esp + 56)) .esp (s.reg .esp + 68) =
      r.reg (s.reg .esp + 68) := by
    funext q
    cases q <;> rfl
  rw [left, regs, same, mem] at run
  exact run

theorem intret_outer {esp0 ss0 : Word} (placed : Placed M a intret e) (here : s.eip = a)
    (frame : Words s.mem (s.reg .esp).toNat (r.words ++ [esp0, ss0]))
    (fits : (s.reg .esp).toNat + 76 ≤ 2 ^ 32)
    (ring : r.cs.setWidth 16 &&& 3 ≠ s.seg .cs &&& 3) :
    Reaches M s
    { reg := r.reg esp0, seg := r.seg (ss0.setWidth 16), eip := r.eip, eflags := r.eflags,
      mem := s.mem } := by
  obtain ⟨t, run, regs, mem, segs⟩ :=
    intret_pops placed here ((words_append _).mp frame).1 (by omega)
  have pointer : t.reg .esp = s.reg .esp + 56 := by rw [regs]; rfl
  have left := leave_outer_eq pointer segs (by rw [mem]; exact frame) fits ring
  have same : Function.update (r.reg (s.reg .esp + 56)) .esp esp0 = r.reg esp0 := by
    funext q
    cases q <;> rfl
  rw [left, regs, same, mem] at run
  exact run

end Leave

/-! ## The gates -/

section Gates
variable {m : Mem} {idt : Nat} {itab : Nat → Word} {a : Word} {flg : UInt8} {i j : Nat}

theorem setG_outside {x : Nat} (outside : x < idt + 8 * i ∨ idt + 8 * i + 8 ≤ x) :
    setG idt m a i flg x = m x := by
  unfold setG
  rw [store16_other _ _ (by omega), store16_other _ _ (by omega), store16_other _ _ (by omega),
    store8_other _ _ (by omega)]

theorem gateAt_congr {m' : Mem} (same : AgreeOn m m' (idt + 8 * i) (idt + 8 * i + 8)) :
    gateAt m' idt i = gateAt m idt i := by
  unfold gateAt
  rw [load16_congr (same.mono (Nat.le_refl _) (by omega)),
    load16_congr (same.mono (by omega) (by omega)),
    load16_congr (same.mono (by omega) (by omega)), same (idt + 8 * i + 5) (by omega) (by omega)]

theorem setG_gate : gateAt (setG idt m a i flg) idt i = ⟨a, 8, flg⟩ := by
  have bound := a.isLt
  have low : load16 (setG idt m a i flg) (idt + 8 * i) = a.toNat % 65536 := by
    rw [setG, load16_store16_apart _ _ (by omega), load16_store16_same _ _ (by omega)]
  have high : load16 (setG idt m a i flg) (idt + 8 * i + 6) = a.toNat / 65536 % 65536 := by
    rw [setG, load16_store16_same _ _ (by omega)]
  have seg : load16 (setG idt m a i flg) (idt + 8 * i + 2) = 8 := by
    rw [setG, load16_store16_apart _ _ (by omega), load16_store16_apart _ _ (by omega),
      load16_store16_same _ _ (by omega)]
  have flag : setG idt m a i flg (idt + 8 * i + 5) = flg := by
    rw [setG, store16_other _ _ (by omega), store16_other _ _ (by omega),
      store16_other _ _ (by omega), store8_same]
  rw [gateAt, low, high, seg, flag, show a.toNat % 65536 + 65536 * (a.toNat / 65536 % 65536) =
    a.toNat by omega, BitVec.ofNat_toNat]
  rfl

theorem setG_other (other : i ≠ j) : gateAt (setG idt m a j flg) idt i = gateAt m idt i :=
  gateAt_congr fun x low high => setG_outside (by omega)

theorem fillIdt_gate (entry : i < 49) : gateAt (fillIdt idt itab m) idt i = ⟨itab i, 8, exU⟩ := by
  suffices filled : ∀ n, i < n →
      gateAt ((List.range n).foldl (fun m k => setG idt m (itab k) k exU) m) idt i =
        ⟨itab i, 8, exU⟩ from filled 49 entry
  intro n
  induction n with
  | zero => exact fun none => absurd none (Nat.not_lt_zero i)
  | succ n ih =>
    intro less
    rw [List.range_succ, List.foldl_append, List.foldl_cons, List.foldl_nil]
    rcases Nat.lt_succ_iff_lt_or_eq.mp less with before | rfl
    · rw [setG_other (Nat.ne_of_lt before)]
      exact ih before
    · exact setG_gate

end Gates

/-! ## A machine that has the code -/

def labels : Labels where
  isrStub := 0x2000
  irqStub := 0x2100
  sysStub := 0x2200
  intret := 0x2010
  childret := 0x2300
  isrHandler := 0x3000
  irqHandler := 0x3100
  generalEoi := 0x3200
  sysRval := 0x4000
  itab n := BitVec.ofNat 32 (0x1000 + 4 * n)

def image : Machine where
  code a :=
    let block : Option (Nat × List Instr) :=
      if a < 0x1000 then none
      else if a < 0x10c4 then
        some (0x1000 + (a.toNat - 0x1000) / 4 * 4, vector labels ((a.toNat - 0x1000) / 4))
      else [(0x2000, isrStub labels), (0x2010, intret), (0x2100, irqStub labels),
        (0x2200, sysStub labels),
        (0x2300, childret labels)].find? fun (start, is) =>
          start ≤ a.toNat && a.toNat < start + is.length
    block.bind fun (start, is) => is[a.toNat - start]?.map (·, a + 1)
  idt := 0x5000

theorem Loaded.add {M : Machine} {L : Labels} (loaded : Loaded M L) (a : Word) (is : List Instr) :
    Loaded (M.add a is) L where
  isr := placed_add loaded.isr
  intret := loaded.intret.imp fun _ => placed_add
  irq := loaded.irq.imp fun _ => placed_add
  sys := loaded.sys.imp fun _ => placed_add
  childret := loaded.childret.imp fun _ => placed_add
  vectors n entry := (loaded.vectors n entry).imp fun _ => placed_add

theorem image_loaded : Loaded image labels where
  isr := placed_of_codeEnd (by decide +kernel)
  intret := ⟨_, placed_of_codeEnd (e := 0x2017) (by decide +kernel)⟩
  irq := ⟨_, placed_of_codeEnd (e := 0x2111) (by decide +kernel)⟩
  sys := ⟨_, placed_of_codeEnd (e := 0x2218) (by decide +kernel)⟩
  childret := ⟨_, placed_of_codeEnd (e := 0x2305) (by decide +kernel)⟩
  vectors n entry := by
    have ends : ∀ n < 49, (codeEnd image (labels.itab n) (vector labels n)).isSome := by
      decide +kernel
    obtain ⟨e, found⟩ := Option.isSome_iff_exists.mp (ends n entry)
    exact ⟨e, placed_of_codeEnd found⟩

/-- The table of gates is the one that `fill_idt` makes, on whatever was there. -/
def TableIn (M : Machine) (L : Labels) (m : Mem) : Prop :=
  ∃ before, AgreeOn (fillIdt M.idt L.itab before) m M.idt (M.idt + 8 * 49)

def cpu : Cpu where
  reg r := if r = .esp then 0x9000 else 7
  seg g := if g = .cs then 8 else 0x10
  eip := 0x6000
  eflags := 0x202
  mem := fillIdt 0x5000 labels.itab (fun _ => 0)

theorem cpu_table : TableIn image labels cpu.mem := ⟨fun _ => 0, fun _ _ _ => rfl⟩

/-! ## Interrupts -/

def stub (L : Labels) (n : Nat) : Word :=
  if n < 32 then L.isrStub else if n < 48 then L.irqStub else L.sysStub

def handler (L : Labels) (n : Nat) : Word := if n < 32 then L.isrHandler else L.irqHandler

section Interrupts
variable {M : Machine} {L : Labels} {c h h' : Cpu} {err : Option Word} {n : Nat}

theorem table_gate (table : TableIn M L c.mem) (entry : n < 49) :
    gateAt c.mem M.idt n = ⟨L.itab n, 8, exU⟩ := by
  obtain ⟨before, same⟩ := table
  rw [gateAt_congr (same.mono (by omega) (by omega)), fillIdt_gate entry]

theorem hasError_less (error : hasError n = true) : n < 32 := by
  simp only [hasError, decide_eq_true_eq, List.mem_cons, List.not_mem_nil, or_false] at error
  omega

theorem vector_eq (entry : n < 49) : vector L n =
    plain (if hasError n then [.pushImm (BitVec.ofNat 32 n)]
    else [.pushImm 0, .pushImm (BitVec.ofNat 32 n)]) ++ [.jmp (stub L n)] := by
  by_cases error : hasError n = true
  · simp only [vector, stub, if_pos error, if_pos (hasError_less error)]
    rfl
  · rw [vector, stub, if_neg error]
    split
    · rfl
    · split
      · rfl
      · obtain rfl : n = 48 := by omega
        rfl

/-- A stub is reached with five words on the stack of what was interrupted. -/
structure AtStub (L : Labels) (c : Cpu) (n : Nat) (err : Word) (s : Cpu) : Prop where
  eip : s.eip = stub L n
  esp : s.reg .esp = c.reg .esp - 20
  reg : ∀ q, q ≠ .esp → s.reg q = c.reg q
  seg : s.seg = Function.update c.seg .cs 8
  eflags : s.eflags = c.eflags &&& ~~~gateMask
  words : Words s.mem ((c.reg .esp).toNat - 20) [BitVec.ofNat 32 n, err, c.eip,
    (c.seg .cs).setWidth 32, c.eflags]
  outside : ∀ x, x < (c.reg .esp).toNat - 20 ∨ (c.reg .esp).toNat ≤ x → s.mem x = c.mem x

theorem atStub_pushed {ws : List Word} {w : Word} (length : 4 * ws.length = 20)
    (pushed : ws.reverse = [BitVec.ofNat 32 n, w, c.eip, (c.seg .cs).setWidth 32, c.eflags])
    (room : 20 ≤ (c.reg .esp).toNat) :
    AtStub L c n w { (c.pushAll ws).setSeg .cs 8 with
    eip := stub L n, eflags := c.eflags &&& ~~~gateMask } where
  eip := rfl
  esp := (pushAll_pointer _ (by omega)).trans (by rw [length]; rfl)
  reg q other := pushAll_reg other ws
  seg := congrArg (Function.update · Seg.cs 8) (pushAll_seg ws)
  eflags := rfl
  words := by
    have words := pushAll_words (c := c) ws (by omega)
    rwa [length, pushed] at words
  outside x away := pushAll_outside _ (by omega) (by omega)

theorem reaches_stub (loaded : Loaded M L) (table : TableIn M L c.mem) (entry : n < 49)
    (code : err.isSome = hasError n)
    (room : 20 ≤ (c.reg .esp).toNat) :
    ∃ c₀ s, c.interrupt M.idt n err = some c₀ ∧ Reaches M c₀ s ∧ AtStub L c n (err.getD 0) s := by
  have gate := table_gate table entry
  have usable (a : Word) : (⟨a, 8, exU⟩ : Gate).Usable := by
    constructor
    · show exU &&& 0x80 ≠ 0
      decide
    · show exU &&& 0x1f = 0x0e
      decide
  obtain ⟨e, placed⟩ := loaded.vectors n entry
  rw [vector_eq entry] at placed
  obtain ⟨b, body, rest⟩ := (placed_append _).mp placed
  refine ⟨_,
    { (c.pushAll ([c.eflags, (c.seg .cs).setWidth 32, c.eip] ++
    [err.getD 0, BitVec.ofNat 32 n])).setSeg .cs 8 with
      eip := stub L n, eflags := c.eflags &&& ~~~gateMask }, by
        rw [Cpu.interrupt, gate]; exact if_pos (usable _), ?_,
    atStub_pushed rfl rfl room⟩
  refine (reaches_ops body rfl).trans ?_
  refine (reaches_jmp rest _ rfl).trans ?_
  cases err with
  | none =>
    rw [if_neg (show ¬hasError n = true by rw [← code]; decide), pushAll_flags]
    exact Relation.ReflTransGen.refl
  | some w =>
    rw [if_pos (show hasError n = true from code.symm), pushAll_flags]
    exact Relation.ReflTransGen.refl

theorem of_congr {c s : Cpu} (reg : ∀ q, q ≠ .esp → s.reg q = c.reg q)
    (seg : s.seg = Function.update c.seg .cs 8)
    (fp n err eip cs eflags : Word) :
    Regs.of s fp n err eip cs eflags = Regs.of c fp n err eip cs eflags := by
  have regs : s.reg = Function.update c.reg .esp (s.reg .esp) := by
    funext q
    by_cases pointer : q = .esp
    · rw [pointer, Function.update_self]
    · rw [Function.update_of_ne pointer, reg q pointer]
  rw [Regs.of, regs, seg]
  rfl

theorem of_restores (c : Cpu) (fp n err eip : Word) :
    (Regs.of c fp n err eip ((c.seg .cs).setWidth 32) c.eflags).reg (c.reg .esp) = c.reg ∧
      (Regs.of c fp n err eip ((c.seg .cs).setWidth 32) c.eflags).seg 0x10 =
      Function.update c.seg .ss 0x10 := by
  constructor
  · funext q
    cases q <;> rfl
  · funext g
    cases g <;> simp [Regs.seg, Regs.of]

/-- A handler at `f` runs on the kernel's segments with interrupts off; its argument is the frame of
    what it interrupts, and nothing above the stack pointer or far below it is changed. -/
structure Handling (c : Cpu) (n : Nat) (err f next : Word) (h : Cpu) : Prop where
  eip : h.eip = f
  seg : h.seg = kernel 8
  eflags : h.eflags = c.eflags &&& ~~~gateMask
  esp : h.reg .esp = c.reg .esp - 76
  back : h.stack 0 = next
  argument : h.stack 1 = c.reg .esp - 68
  frame : Words h.mem ((c.reg .esp).toNat - 68) (interrupted c n err).words
  outside : ∀ x, x < (c.reg .esp).toNat - 76 ∨ (c.reg .esp).toNat ≤ x → h.mem x = c.mem x

theorem reaches_handler {q : Reg} {is : List Instr} {f e : Word} (loaded : Loaded M L)
    (table : TableIn M L c.mem)
    (entry : n < 49) (code : err.isSome = hasError n) (room : 76 ≤ (c.reg .esp).toNat)
    (argument : q = .eax ∨ q = .esp)
    (placed : Placed M (stub L n) (plain (enter ++ [.pushReg q]) ++ .call f :: is) e) :
    ∃ c₀ h next, c.interrupt M.idt n err = some c₀ ∧ Reaches M c₀ h ∧ Placed M next is e ∧
      Handling c n (err.getD 0) f next h := by
  obtain ⟨c₀, s, taken, run, stubbed⟩ := reaches_stub (n := n) loaded table entry code (by omega)
  have bound := (c.reg .esp).isLt
  have place : (s.reg .esp).toNat = (c.reg .esp).toNat - 20 := by
    rw [stubbed.esp]
    exact toNat_back (k := 20) (by omega)
  have below : s.reg .esp - 48 = c.reg .esp - 68 := by
    rw [stubbed.esp]
    bv_omega
  obtain ⟨next, h, rest, enters, there, top, -, segs, flags, frame, outside⟩ :=
    enter_frame argument placed stubbed.eip (by omega) (place ▸ stubbed.words)
  have down : h.reg .esp = c.reg .esp - 76 := by
    rw [top, stubbed.esp]
    bv_omega
  have downPlace : (h.reg .esp).toNat = (c.reg .esp).toNat - 76 := by
    rw [down]
    exact toNat_back (k := 76) room
  rw [of_congr stubbed.reg stubbed.seg, below] at frame
  have fits : (h.reg .esp).toNat + 76 ≤ 2 ^ 32 := by omega
  have code : s.seg .cs = 8 := by
    rw [stubbed.seg]
    exact Function.update_self Seg.cs _ _
  have regs := ((words_append [next, c.reg .esp - 68]).mp frame).2
  rw [show (h.reg .esp).toNat + 4 * [next, c.reg .esp - 68].length = (c.reg .esp).toNat - 68 from by
    rw [downPlace, List.length_cons, List.length_singleton]
    omega] at regs
  refine ⟨c₀, h, next, taken, run.trans enters, rest, there, by rw [segs, code],
    flags.trans stubbed.eflags, down,
    stack_word frame fits (k := 0) rfl, stack_word frame fits (k := 1) rfl, regs, fun x away => ?_⟩
  rw [outside x (by omega), stubbed.outside x (by omega)]

theorem stub_placed (loaded : Loaded M L) (entry : n < 48) :
    ∃ q is e, (q = Reg.eax ∨ q = Reg.esp) ∧
      Placed M (stub L n) (plain (enter ++ [.pushReg q]) ++ .call (handler L n) :: is) e ∧
      ∀ next, Placed M next is e → ∀ t :
      Cpu, t.eip = next → Reaches M t { execs t [.addImm .esp 4] with eip := L.intret } := by
  by_cases isr : n < 32
  · refine ⟨.eax, [.op (.addImm .esp 4)], L.intret, Or.inl rfl, ?_, fun next placed t here =>
      reaches_ops placed here⟩
    rw [stub, handler, if_pos isr, if_pos isr]
    exact loaded.isr
  · obtain ⟨e, placed⟩ := loaded.irq
    refine ⟨.esp, [.op (.addImm .esp 4), .jmp L.intret], e, Or.inr rfl, ?_,
      fun next placed t here => ?_⟩
    · rw [stub, handler, if_neg isr, if_neg isr, if_pos entry]
      exact placed
    · obtain ⟨b, body, rest⟩ := (placed_append (plain [.addImm .esp 4])).mp placed
      exact (reaches_ops body here).trans (reaches_jmp rest _ rfl)

theorem handler_leaves {r : Regs} (loaded : Loaded M L) (room : 76 ≤ (c.reg .esp).toNat)
    {w f next : Word}
    (handling : Handling c n w f next h)
    (after : ∀ t : Cpu, t.eip = next → Reaches M t { execs t [.addImm .esp 4] with
    eip := L.intret })
    (back : Returned h h') (kept : Words h'.mem ((c.reg .esp).toNat - 68) r.words)
      (ring : r.cs.setWidth 16 &&& 3 = (0 : BitVec 16)) :
    Reaches M h' { reg := r.reg (c.reg .esp), seg := r.seg 0x10, eip := r.eip, eflags := r.eflags,
                   mem := h'.mem } := by
  have place : (c.reg .esp - 68).toNat = (c.reg .esp).toNat - 68 := toNat_back (k := 68) (by omega)
  have bound := (c.reg .esp).isLt
  have base : (execs h' [.addImm .esp 4]).reg .esp = c.reg .esp - 68 := by
    show h'.reg .esp + 4 = _
    rw [back.esp, handling.esp]
    bv_omega
  refine (after h' (back.eip.trans handling.back)).trans ?_
  obtain ⟨e', placed⟩ := loaded.intret
  have kernelCode : h'.seg = kernel 8 := by rw [back.segs, handling.seg]
  have same : r.cs.setWidth 16 &&& 3 = h'.seg .cs &&& 3 := by
    rw [ring, kernelCode]
    decide
  have restored := intret_restores (s := { execs h' [.addImm .esp 4] with eip := L.intret })
    (r := r) placed rfl
    (by rw [base, place]; exact kept) (by rw [base, place]; omega) same
  rw [base, show c.reg .esp - 68 + 68 = c.reg .esp by bv_omega] at restored
  have stackSeg : h'.seg .ss = 0x10 := by
    rw [kernelCode]
    rfl
  rw [← stackSeg]
  exact restored

/-- The code an interrupt interrupts does not see it, but for what the handler leaves in memory. -/
theorem interrupt_transparent (loaded : Loaded M L) (table : TableIn M L c.mem) (entry : n < 48)
    (code : err.isSome = hasError n) (ring : c.seg .cs &&& 3 = 0) (room : 76 ≤ (c.reg .esp).toNat) :
    ∃ c₀ h next, c.interrupt M.idt n err = some c₀ ∧ Reaches M c₀ h ∧
    Handling c n (err.getD 0) (handler L n) next h ∧
      ∀ h', Returned h h' → AgreeOn h.mem h'.mem ((c.reg .esp).toNat - 68) (c.reg .esp).toNat →
        Reaches M h' { c with seg := Function.update c.seg .ss 0x10, mem := h'.mem } := by
  obtain ⟨q, is, e, argument, placed, after⟩ := stub_placed loaded entry
  obtain ⟨c₀, h, next, taken, run, rest, handling⟩ :=
    reaches_handler loaded table (by omega) code room argument placed
  refine ⟨c₀, h, next, taken, run, handling, fun h' back same => ?_⟩
  have kept : Words h'.mem ((c.reg .esp).toNat - 68) (interrupted c n (err.getD 0)).words :=
    words_congr (same.mono (Nat.le_refl _) (by show _ + 68 ≤ _; omega)) handling.frame
  have ringFrame : ((interrupted c n (err.getD 0)).cs).setWidth 16 &&& 3 = (0 : BitVec 16) := by
    show ((c.seg .cs).setWidth 32).setWidth 16 &&& 3 = _
    rw [BitVec.setWidth_setWidth_of_le _ (by decide), BitVec.setWidth_eq, ring]
  have restored := handler_leaves loaded room handling (after next rest) back kept ringFrame
  have gone := of_restores c (c.reg .esp - 68) (BitVec.ofNat 32 n) (err.getD 0) c.eip
  rw [interrupted, gone.1, gone.2] at restored
  exact restored

theorem interrupt_transparent_timer :
    ∃ c₀ h next, cpu.interrupt image.idt 32 none = some c₀ ∧ Reaches image c₀ h ∧
    Handling cpu 32 0 labels.irqHandler next h ∧
      ∀ h', Returned h h' → AgreeOn h.mem h'.mem (0x9000 - 68) 0x9000 →
        Reaches image h' { cpu with seg := Function.update cpu.seg .ss 0x10, mem := h'.mem } :=
  interrupt_transparent image_loaded cpu_table (by decide) (by decide) (by decide) (by decide)

end Interrupts

end Entry
