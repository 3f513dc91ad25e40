import NoobOs.Cpu.Entry

/-!
`task_switch` and `alloc_proc` of `proc.c` on the processor: what a process finds when it is
switched to again, over every order of switches. The base registers of the operands are the
compiler's choice, and the code of a process is any code that leaves the stacks and contexts of the
others alone.
-/
namespace TaskSwitch
open StackMachine ByteMemory Entry

/-- The code of `task_switch`: `prv` and `nxt` hold the addresses of the two `struct proc`. -/
structure Asm where
  entry : Word
  resume : Word
  done : Word
  prv : Reg
  nxt : Reg
  prv_other : prv ≠ .esp
  nxt_other : nxt ≠ .esp

def out (A : Asm) : List Op :=
  [.pushfd, .pushReg .ebp, .store A.prv 36 .esp, .storeImm A.prv 40 A.resume, .load .esp A.nxt 36,
    .pushMem A.nxt 40]

def back : List Op := [.popReg .ebp, .popfd]

structure Linked (M : Machine) (A : Asm) : Prop where
  out : Placed M A.entry (plain (out A) ++ [.ret]) A.resume
  back : Placed M A.resume (plain back) A.done

/-- Where `procs` and the stacks lie; the stack that the kernel boots on is one of them. -/
structure Layout (P S : Type) where
  addr : P → Word
  lo : S → Nat
  hi : S → Nat
  addr_bound : ∀ p, (addr p).toNat + 44 ≤ 2 ^ 32
  hi_bound : ∀ t, hi t < 2 ^ 32
  cons_apart : ∀ p q, p ≠ q → (addr p).toNat + 44 ≤ (addr q).toNat + 36 ∨
    (addr q).toNat + 44 ≤ (addr p).toNat + 36
  stacks_apart : ∀ t u, t ≠ u → hi t ≤ lo u ∨ hi u ≤ lo t
  stack_con : ∀ t p, hi t ≤ (addr p).toNat + 36 ∨ (addr p).toNat + 44 ≤ lo t

variable {P S : Type}

def Layout.con (K : Layout P S) (p : P) : Nat := (K.addr p).toNat + 36

/-! ## alloc_proc -/

def csU : BitVec 16 := 0x1b
def dataSeg (cs : BitVec 16) : Word := if cs = csU then 0x23 else 0x10

/-- The fields of the frame that are written, by their places in `struct regs`. -/
def frameFields (esp f : Word) (cs : BitVec 16) : List (Nat × Word) :=
  [(72, dataSeg cs), (0, dataSeg cs), (4, dataSeg cs), (8, dataSeg cs), (12, dataSeg cs),
    (68, esp), (28, esp),
    (60, cs.setWidth 32), (56, f), (64, 0x202)]

def storeFields (a : Nat) (fs : List (Nat × Word)) (m : Mem) : Mem :=
  fs.foldl (fun m x => store32 m (a + x.1) x.2.toNat) m

def allocProc (L : Labels) (addr top f : Word) (cs : BitVec 16) (m : Mem) : Mem :=
  let esp := top - 76
  let m := storeFields esp.toNat (frameFields esp f cs) m
  store32 (store32 m (addr.toNat + 36) esp.toNat) (addr.toNat + 40) L.childret.toNat

section Fields
variable {fs : List (Nat × Word)} {a k : Nat}

theorem storeFields_other {x n : Nat} (below : ∀ y ∈ fs, y.1 + 4 ≤ n)
    (outside : x < a ∨ a + n ≤ x) (m : Mem) :
    storeFields a fs m x = m x := by
  induction fs generalizing m with
  | nil => rfl
  | cons y fs ih =>
    have first := below y List.mem_cons_self
    have rest := ih (fun z member => below z (List.mem_cons_of_mem _ member))
      (store32 m (a + y.1) y.2.toNat)
    exact rest.trans (store32_other _ _ (by omega))

theorem storeFields_apart (apart : ∀ y ∈ fs, k + 4 ≤ y.1 ∨ y.1 + 4 ≤ k) (m : Mem) :
    load32 (storeFields a fs m) (a + k) = load32 m (a + k) := by
  induction fs generalizing m with
  | nil => rfl
  | cons y fs ih =>
    have first := apart y List.mem_cons_self
    have rest := ih (fun z member => apart z (List.mem_cons_of_mem _ member))
      (store32 m (a + y.1) y.2.toNat)
    exact rest.trans (load32_store32_apart _ _ (by omega))

theorem storeFields_load (apart : fs.Pairwise fun x y => x.1 + 4 ≤ y.1 ∨ y.1 + 4 ≤ x.1) {w : Word}
    (member : (k, w) ∈ fs) (m : Mem) :
    load32 (storeFields a fs m) (a + k) = w.toNat := by
  induction fs generalizing m with
  | nil => simp at member
  | cons y fs ih =>
    obtain ⟨first, rest⟩ := List.pairwise_cons.mp apart
    rcases List.mem_cons.mp member with rfl | later
    · exact (storeFields_apart first _).trans (load32_store32_same _ _ w.isLt)
    · exact ih rest later (store32 m (a + y.1) y.2.toNat)

end Fields

/-! ## One switch -/

section Switch
variable {M : Machine} {A : Asm} {K : Layout P S} {c : Cpu} {cur next : P} {t : S}

def switched (A : Asm) (c : Cpu) : Cpu :=
  { (execs c (out A)).drop 1 with eip := (execs c (out A)).stack 0 }

theorem reaches_switched (linked : Linked M A) (here : c.eip = A.entry) :
    Reaches M c (switched A c) := by
  obtain ⟨b, body, rest⟩ := (placed_append _).mp linked.out
  obtain ⟨next, -, run⟩ := reaches_instr rest
  exact (reaches_ops body here).trans (run _ _ rfl rfl)

structure Switching (A : Asm) (K : Layout P S) (cur next : P) (t : S) (c : Cpu) : Prop where
  here : c.eip = A.entry
  other : next ≠ cur
  prv : c.reg A.prv = K.addr cur
  nxt : c.reg A.nxt = K.addr next
  low : K.lo t + 12 ≤ (c.reg .esp).toNat
  high : (c.reg .esp).toNat ≤ K.hi t

def put (A : Asm) (K : Layout P S) (cur : P) (c : Cpu) : Mem :=
  let s := (c.reg .esp).toNat
  let m := store32 (store32 c.mem (s - 4) c.eflags.toNat) (s - 8) (c.reg .ebp).toNat
  store32 (store32 m (K.con cur) (s - 8)) (K.con cur + 4) A.resume.toNat

theorem put_other {x : Nat} (stack : x < (c.reg .esp).toNat - 8 ∨ (c.reg .esp).toNat ≤ x)
    (room : 8 ≤ (c.reg .esp).toNat)
    (con : x < K.con cur ∨ K.con cur + 8 ≤ x) : put A K cur c x = c.mem x := by
  simp only [put]
  rw [store32_other _ _ (by omega), store32_other _ _ (by omega), store32_other _ _ (by omega),
    store32_other _ _ (by omega)]

theorem out_saves (sw : Switching A K cur next t c) :
    execs c [.pushfd, .pushReg .ebp, .store A.prv 36 .esp, .storeImm A.prv 40 A.resume] =
    { c with reg := Function.update c.reg .esp (c.reg .esp - 8), mem := put A K cur c } := by
  have low := sw.low
  have bound := K.addr_bound cur
  have four : (c.reg .esp - 4).toNat = (c.reg .esp).toNat - 4 := toNat_back (k := 4) (by omega)
  have eight : (c.reg .esp - 8).toNat = (c.reg .esp).toNat - 8 := toNat_back (k := 8) (by omega)
  have twice : c.reg .esp - 4 - 4 = c.reg .esp - 8 := by bv_omega
  have con : (K.addr cur + BitVec.ofNat 32 36).toNat = K.con cur := toNat_off (by omega)
  have conEip : (K.addr cur + BitVec.ofNat 32 40).toNat = K.con cur + 4 := toNat_off (by omega)
  simp only [execs, List.foldl_cons, List.foldl_nil, Op.exec, Cpu.push, Cpu.setReg, Cpu.setWord,
    Function.update_self,
    Function.update_idem, Function.update_of_ne A.prv_other,
    Function.update_of_ne (show Reg.ebp ≠ Reg.esp by decide), sw.prv, twice,
    four, eight, con, conEip]
  rfl

/-- What the code of a switch does, where the saved context of `next` is `sp` and `ip`. -/
theorem switched_eq (sp ip : Word) (sw : Switching A K cur next t c)
    (esp : load32 (put A K cur c) (K.con next) = sp.toNat)
    (eip : load32 (put A K cur c) (K.con next + 4) = ip.toNat) (room : 4 ≤ sp.toNat) :
    switched A c = { c with
      reg := Function.update c.reg .esp sp
      eip := ip
      mem := store32 (put A K cur c) (sp.toNat - 4) ip.toNat } := by
  have bound := K.addr_bound next
  have con : (K.addr next + BitVec.ofNat 32 36).toNat = K.con next := toNat_off (by omega)
  have conEip : (K.addr next + BitVec.ofNat 32 40).toNat = K.con next + 4 := toNat_off (by omega)
  have saves : execs c (out A) =
    execs (execs c [.pushfd, .pushReg .ebp, .store A.prv 36 .esp, .storeImm A.prv 40 A.resume])
      [.load .esp A.nxt 36, .pushMem A.nxt 40] := by
    rw [← execs_append]
    rfl
  have below : (sp - 4).toNat = sp.toNat - 4 := toNat_back (k := 4) room
  have loads : execs c (out A) =
      ({ c with reg := Function.update c.reg .esp sp, mem := put A K cur c } : Cpu).push ip := by
    rw [saves, out_saves sw]
    simp only [execs, List.foldl_cons, List.foldl_nil, Op.exec, Cpu.setReg, Cpu.word,
      Function.update_idem,
      Function.update_of_ne A.nxt_other, sw.nxt, con, conEip, esp, eip, BitVec.ofNat_toNat,
      BitVec.setWidth_eq]
  rw [switched, loads, push_drop, push_stack (by simpa only [Function.update_self] using room)]
  simp only [Cpu.setWord, Function.update_self, below]

end Switch

/-! ## A new process -/

section Child
variable {M : Machine} {L : Labels} {t : Cpu}

theorem childret_calls (loaded : Loaded M L) (here : t.eip = L.childret)
    (room : 8 ≤ (t.reg .esp).toNat) :
    ∃ h, Reaches M t h ∧ h.eip = L.generalEoi ∧ h.stack 1 = 0 ∧ h.seg = t.seg ∧
      (∀ x, x < (t.reg .esp).toNat - 8 ∨ (t.reg .esp).toNat ≤ x → h.mem x = t.mem x) ∧
      ∀ h', Returned h h' →
        ∃ w, Reaches M h' w ∧ w.eip = L.intret ∧ w.reg .esp = t.reg .esp ∧ w.mem = h'.mem ∧
        w.seg = h'.seg := by
  obtain ⟨e, placed⟩ := loaded.childret
  obtain ⟨a, first, rest⟩ := (placed_append (plain [.pushImm 0])).mp placed
  obtain ⟨next, behind, call⟩ := reaches_call rest
  obtain ⟨b, body, last⟩ := (placed_append (plain [.addImm .esp 4, .sti])).mp behind
  have bound := (t.reg .esp).isLt
  have pointer : (t.pushAll [0, next]).reg .esp = t.reg .esp - 8 := pushAll_pointer [0, next] room
  have words := pushAll_words (c := t) [0, next] room
  have place : ((t.pushAll [0, next]).reg .esp).toNat = (t.reg .esp).toNat - 8 := by
    rw [pointer]
    exact toNat_back (k := 8) room
  have top : Words (t.pushAll [0, next]).mem ((t.pushAll [0, next]).reg .esp).toNat [next, 0] := by
    rw [place]
    exact words
  have fits : ((t.pushAll [0, next]).reg .esp).toNat + 8 ≤ 2 ^ 32 := by omega
  refine ⟨{ t.pushAll [0, next] with eip := L.generalEoi },
    (reaches_ops first here).trans (call _ rfl), rfl,
    stack_word (c := t.pushAll [0, next]) top fits (k := 1) rfl, pushAll_seg _, fun x away =>
      pushAll_outside [0, next] room away,
    fun h' back => ?_⟩
  have returned : h'.eip = next :=
    back.eip.trans (stack_word (c := t.pushAll [0, next]) top fits (k := 0) rfl)
  refine ⟨{ execs h' [.addImm .esp 4, .sti] with eip := L.intret },
    (reaches_ops body returned).trans (reaches_jmp last _ rfl), rfl,
    ?_, rfl, rfl⟩
  have up : h'.reg .esp = t.reg .esp - 8 + 4 := by
    rw [back.esp, ← pointer]
  show h'.reg .esp + 4 = _
  rw [up]
  bv_omega

end Child

/-! ## Waiting -/

def readRegs (m : Mem) (a : Nat) : Entry.Regs :=
  let word k := BitVec.ofNat 32 (load32 m (a + 4 * k))
  ⟨word 0, word 1, word 2, word 3, word 4, word 5, word 6, word 7, word 8, word 9, word 10, word 11,
    word 12, word 13, word 14,
    word 15, word 16⟩

/-- A process that does not run: where it called `task_switch`, or the function and segment it is to
    start with. -/
inductive Saved where
  | suspended (d : Cpu)
  | fresh (f : Word) (cs : BitVec 16)

structure Suspended (A : Asm) (m : Mem) (con lo hi : Nat) (d : Cpu) : Prop where
  low : lo + 12 ≤ (d.reg .esp).toNat
  high : (d.reg .esp).toNat ≤ hi
  esp : load32 m con = (d.reg .esp).toNat - 8
  eip : load32 m (con + 4) = A.resume.toNat
  top : Words m ((d.reg .esp).toNat - 8) [d.reg .ebp, d.eflags]
  stack : AgreeOn d.mem m (d.reg .esp).toNat hi

structure Fresh (L : Labels) (m : Mem) (con lo hi : Nat) (f : Word) (cs : BitVec 16) : Prop where
  low : lo + 84 ≤ hi
  esp : load32 m con = hi - 76
  eip : load32 m (con + 4) = L.childret.toNat
  frameEip : (readRegs m (hi - 76)).eip = f
  frameCs : (readRegs m (hi - 76)).cs = cs.setWidth 32
  frameFlags : (readRegs m (hi - 76)).eflags = 0x202
  frameSegs : ∀ g, g ≠ .cs → (readRegs m (hi - 76)).seg ((dataSeg cs).setWidth 16) g =
    (dataSeg cs).setWidth 16
  outer : Words m (hi - 8) [BitVec.ofNat 32 (hi - 76), dataSeg cs]

def Parked (A : Asm) (L : Labels) (m : Mem) (con lo hi : Nat) : Saved → Prop
  | .suspended d => Suspended A m con lo hi d
  | .fresh f cs => Fresh L m con lo hi f cs

/-- The processor, the process that runs, the stacks, and what is known of the processes that wait;
    a free entry of `procs` has none. -/
structure State (P S : Type) where
  cpu : Cpu
  cur : P
  stk : P → S
  saved : P → Option Saved

section Waiting
variable {A : Asm} {L : Labels} {K : Layout P S}

theorem readRegs_congr {m m' : Mem} {a : Nat} (same : AgreeOn m m' a (a + 68)) :
    readRegs m' a = readRegs m a := by
  have word (k : Nat) (less : k < 17) : load32 m' (a + 4 * k) = load32 m (a + 4 * k) :=
    load32_congr (same.mono (by omega) (by omega))
  simp only [readRegs]
  rw [word 0 (by omega), word 1 (by omega), word 2 (by omega), word 3 (by omega), word 4 (by omega),
    word 5 (by omega),
    word 6 (by omega), word 7 (by omega), word 8 (by omega), word 9 (by omega), word 10 (by omega),
    word 11 (by omega),
    word 12 (by omega), word 13 (by omega), word 14 (by omega), word 15 (by omega),
    word 16 (by omega)]

theorem readRegs_words (m : Mem) (a : Nat) : Words m a (readRegs m a).words := by
  intro k w found
  rw [show (readRegs m a).words = (List.range 17).map fun k =>
    BitVec.ofNat 32 (load32 m (a + 4 * k)) from rfl, List.getElem?_map] at found
  obtain ⟨j, entry, rfl⟩ := Option.map_eq_some_iff.mp found
  obtain ⟨less, rfl⟩ := List.getElem?_eq_some_iff.mp entry
  rw [List.getElem_range, BitVec.toNat_ofNat, Nat.mod_eq_of_lt (load32_bound m _)]

theorem parked_congr {m m' : Mem} {con lo hi : Nat} {x : Saved} (parked : Parked A L m con lo hi x)
    (stack : AgreeOn m m' lo hi) (same : AgreeOn m m' con (con + 8)) :
    Parked A L m' con lo hi x := by
  have esp : load32 m' con = load32 m con := load32_congr (same.mono (by omega) (by omega))
  have eip : load32 m' (con + 4) = load32 m (con + 4) :=
    load32_congr (same.mono (by omega) (by omega))
  cases x with
  | suspended d =>
    have low := parked.low
    have high := parked.high
    exact ⟨low, high, esp.trans parked.esp, eip.trans parked.eip,
      words_congr (stack.mono (by omega) (by show _ + 8 ≤ _; omega)) parked.top,
      parked.stack.trans (stack.mono (by omega) (by omega))⟩
  | fresh f cs =>
    have low := parked.low
    have regs : readRegs m' (hi - 76) = readRegs m (hi - 76) :=
      readRegs_congr (stack.mono (by omega) (by omega))
    refine ⟨low, esp.trans parked.esp, eip.trans parked.eip, ?_, ?_, ?_, ?_,
      words_congr (stack.mono (by omega) (by show _ + 8 ≤ _; omega)) parked.outer⟩
    · rw [regs, parked.frameEip]
    · rw [regs, parked.frameCs]
    · rw [regs, parked.frameFlags]
    · intro g other
      rw [regs, parked.frameSegs g other]

def context (A : Asm) (L : Labels) (hi : Nat) : Saved → Nat × Word
  | .suspended d => ((d.reg .esp).toNat - 8, A.resume)
  | .fresh _ _ => (hi - 76, L.childret)

theorem parked_context {m : Mem} {con lo hi : Nat} {x : Saved} (parked : Parked A L m con lo hi x) :
    load32 m con = (context A L hi x).1 ∧ load32 m (con + 4) = (context A L hi x).2.toNat ∧
    lo + 4 ≤ (context A L hi x).1 ∧
      (context A L hi x).1 ≤ hi := by
  cases x with
  | suspended d =>
    have low := parked.low
    have high := parked.high
    exact ⟨parked.esp, parked.eip, by simp only [context]; omega, by simp only [context]; omega⟩
  | fresh f cs =>
    have low := parked.low
    exact ⟨parked.esp, parked.eip, by simp only [context]; omega, by simp only [context]; omega⟩

variable {c : Cpu} {cur next : P} {t u : S} {x : Saved}

theorem put_suspends (sw : Switching A K cur next t c) :
    Suspended A (put A K cur c) (K.con cur) (K.lo t) (K.hi t) c := by
  have low := sw.low
  have high := sw.high
  have apart : K.hi t ≤ K.con cur ∨ K.con cur + 8 ≤ K.lo t := by
    have apart := K.stack_con t cur
    simp only [Layout.con]
    omega
  have bound := (c.reg .esp).isLt
  refine ⟨low, high, ?_, ?_, ?_, ?_⟩
  · rw [put, load32_store32_apart _ _ (by omega), load32_store32_same _ _ (by omega)]
  · rw [put, load32_store32_same _ _ A.resume.isLt]
  · intro k w found
    have place : k < 2 := (List.getElem?_eq_some_iff.mp found).1
    rw [put, load32_store32_apart _ _ (by omega), load32_store32_apart _ _ (by omega)]
    match k, place with
    | 0, _ =>
      cases found
      exact load32_store32_same _ _ (c.reg .ebp).isLt
    | 1, _ =>
      cases found
      rw [load32_store32_apart _ _ (by omega), show (c.reg .esp).toNat - 8 + 4 * 1 =
        (c.reg .esp).toNat - 4 by omega]
      exact load32_store32_same _ _ c.eflags.isLt
  · exact fun y above below => put_other (Or.inr above) (by omega) (by omega)

theorem switched_parked (sw : Switching A K cur next t c)
    (parked : Parked A L c.mem (K.con next) (K.lo u) (K.hi u) x) :
    switched A c = { c with
      reg := Function.update c.reg .esp (BitVec.ofNat 32 (context A L (K.hi u) x).1)
      eip := (context A L (K.hi u) x).2
      mem :=
        store32 (put A K cur c) ((context A L (K.hi u) x).1 - 4)
          (context A L (K.hi u) x).2.toNat } := by
  obtain ⟨esp, eip, low, high⟩ := parked_context parked
  have bound := K.hi_bound u
  have stackLow := sw.low
  have stackHigh := sw.high
  have cons := K.cons_apart next cur sw.other
  have stack := K.stack_con t next
  have untouched : AgreeOn c.mem (put A K cur c) (K.con next) (K.con next + 8) := by
    intro y above below
    simp only [Layout.con] at above below
    exact put_other (by omega) (by omega) (by simp only [Layout.con]; omega)
  have place : (BitVec.ofNat 32 (context A L (K.hi u) x).1).toNat = (context A L (K.hi u) x).1 := by
    rw [BitVec.toNat_ofNat]
    omega
  have result := switched_eq (BitVec.ofNat 32 (context A L (K.hi u) x).1)
    (context A L (K.hi u) x).2 sw
    (by rw [load32_congr (untouched.mono (by omega) (by omega)), esp, place])
    (by rw [load32_congr (untouched.mono (by omega) (by omega)), eip]) (by rw [place]; omega)
  rw [place] at result
  exact result

theorem frame_place {hi : Nat} (bound : hi < 2 ^ 32) (room : 76 ≤ hi) :
    (BitVec.ofNat 32 hi - 76).toNat = hi - 76 := by
  have top : (BitVec.ofNat 32 hi).toNat = hi := by
    rw [BitVec.toNat_ofNat]
    omega
  have back := toNat_back (a := BitVec.ofNat 32 hi) (k := 76) (by omega)
  rw [top] at back
  exact back

theorem allocProc_fresh {addr f : Word} {cs : BitVec 16} {lo hi : Nat} (m : Mem)
    (bound : hi < 2 ^ 32) (room : lo + 84 ≤ hi)
    (apart : hi ≤ addr.toNat + 36 ∨ addr.toNat + 44 ≤ lo) :
    Fresh L (allocProc L addr (BitVec.ofNat 32 hi) f cs m) (addr.toNat + 36) lo hi f cs := by
  have esp : (BitVec.ofNat 32 hi - 76).toNat = hi - 76 := frame_place bound (by omega)
  have keys : (frameFields (BitVec.ofNat 32 hi - 76) f cs).Pairwise fun x y => x.1 + 4 ≤ y.1 ∨
      y.1 + 4 ≤ x.1 := by
    simp [frameFields]
  have field {k : Nat} {w : Word} (member : (k, w) ∈ frameFields (BitVec.ofNat 32 hi - 76) f cs)
    (inside : k ≤ 72) :
      load32 (allocProc L addr (BitVec.ofNat 32 hi) f cs m) (hi - 76 + k) = w.toNat := by
    rw [allocProc, load32_store32_apart _ _ (by omega), load32_store32_apart _ _ (by omega), esp]
    exact storeFields_load keys member m
  have word {k : Nat} {w : Word} (member : (4 * k, w) ∈ frameFields (BitVec.ofNat 32 hi - 76) f cs)
    (inside : k ≤ 18) :
      BitVec.ofNat 32 (load32 (allocProc L addr (BitVec.ofNat 32 hi) f cs m) (hi - 76 + 4 * k)) =
          w := by
    rw [field member (by omega), BitVec.ofNat_toNat, BitVec.setWidth_eq]
  refine ⟨room, ?_, ?_, ?_, ?_, ?_, ?_, ?_⟩
  · rw [allocProc, load32_store32_apart _ _ (by omega), load32_store32_same _ _ (by omega), esp]
  · rw [allocProc, load32_store32_same _ _ L.childret.isLt]
  · exact word (k := 14) (by simp [frameFields]) (by decide)
  · exact word (k := 15) (by simp [frameFields]) (by decide)
  · exact word (k := 16) (by simp [frameFields]) (by decide)
  · intro g other
    cases g with
    | cs => exact absurd rfl other
    | ss => rfl
    | ds => exact congrArg (BitVec.setWidth 16) (word (k := 0) (by simp [frameFields]) (by decide))
    | es => exact congrArg (BitVec.setWidth 16) (word (k := 1) (by simp [frameFields]) (by decide))
    | fs => exact congrArg (BitVec.setWidth 16) (word (k := 2) (by simp [frameFields]) (by decide))
    | gs => exact congrArg (BitVec.setWidth 16) (word (k := 3) (by simp [frameFields]) (by decide))
  · intro k w found
    have less : k < 2 := (List.getElem?_eq_some_iff.mp found).1
    match k, less with
    | 0, _ =>
      cases found
      have outer :=
        field (k := 68) (w := BitVec.ofNat 32 hi - 76) (by simp [frameFields]) (by decide)
      rw [show hi - 76 + 68 = hi - 8 + 4 * 0 by omega, esp] at outer
      rw [outer, BitVec.toNat_ofNat]
      omega
    | 1, _ =>
      cases found
      have outer := field (k := 72) (w := dataSeg cs) (by simp [frameFields]) (by decide)
      rwa [show hi - 76 + 72 = hi - 8 + 4 * 1 by omega] at outer

theorem allocProc_other {addr f : Word} {cs : BitVec 16} {lo hi : Nat} (m : Mem)
    (bound : hi < 2 ^ 32) (room : lo + 84 ≤ hi)
    {x : Nat} (stack : x < lo ∨ hi ≤ x) (con : x < addr.toNat + 36 ∨ addr.toNat + 44 ≤ x) :
    allocProc L addr (BitVec.ofNat 32 hi) f cs m x = m x := by
  have esp : (BitVec.ofNat 32 hi - 76).toNat = hi - 76 := frame_place bound (by omega)
  rw [allocProc, store32_other _ _ (by omega), store32_other _ _ (by omega), esp]
  exact storeFields_other (n := 76) (by simp [frameFields]) (by omega) m


theorem switched_outside (sw : Switching A K cur next t c) (parked :
    Parked A L c.mem (K.con next) (K.lo u) (K.hi u) x) {y : Nat}
    (outside : y < K.lo u ∨ K.hi u ≤ y) : (switched A c).mem y = put A K cur c y := by
  obtain ⟨-, -, low, high⟩ := parked_context parked
  rw [switched_parked sw parked]
  exact store32_other _ _ (by omega)

theorem switched_suspends (sw : Switching A K cur next t c)
    (parked : Parked A L c.mem (K.con next) (K.lo u) (K.hi u) x)
    (other : t ≠ u) : Parked A L (switched A c).mem (K.con cur) (K.lo t) (K.hi t)
    (.suspended c) := by
  have apart := K.stacks_apart t u other
  have con := K.stack_con u cur
  refine parked_congr (m := put A K cur c) (x := .suspended c) (put_suspends sw) (fun y low high =>
    ?_) fun y low high => ?_
  · exact switched_outside sw parked (by omega)
  · simp only [Layout.con] at low high
    exact switched_outside sw parked (by omega)

theorem switched_elsewhere {p : P} {v : S} {z : Saved} (sw : Switching A K cur next t c)
    (parked : Parked A L c.mem (K.con next) (K.lo u) (K.hi u) x)
    (here : Parked A L c.mem (K.con p) (K.lo v) (K.hi v) z)
    (notCur : p ≠ cur) (left : v ≠ t) (entered : v ≠ u) :
    Parked A L (switched A c).mem (K.con p) (K.lo v) (K.hi v) z := by
  have apartLeft := K.stacks_apart v t left
  have apartEntered := K.stacks_apart v u entered
  have cons := K.cons_apart p cur notCur
  have conLeft := K.stack_con t p
  have conEntered := K.stack_con u p
  have conCur := K.stack_con v cur
  have low := sw.low
  have high := sw.high
  refine parked_congr here (fun y above below => ?_) fun y above below => ?_
  · rw [switched_outside sw parked (by omega)]
    exact put_other (by omega) (by omega) (by simp only [Layout.con]; omega)
  · simp only [Layout.con] at above below
    rw [switched_outside sw parked (by omega)]
    exact put_other (by omega) (by omega) (by simp only [Layout.con]; omega)

theorem switched_entered (sw : Switching A K cur next t c)
    (parked : Parked A L c.mem (K.con next) (K.lo u) (K.hi u) x)
    (other : u ≠ t) : AgreeOn c.mem (switched A c).mem (context A L (K.hi u) x).1 (K.hi u) := by
  obtain ⟨-, -, above, below⟩ := parked_context parked
  have apart := K.stacks_apart u t other
  have con := K.stack_con u cur
  have stackLow := sw.low
  have stackHigh := sw.high
  intro y low high
  rw [switched_parked sw parked]
  exact (store32_other _ _ (by omega)).trans (put_other (by omega) (by omega)
    (by simp only [Layout.con]; omega))

theorem back_eq {d : Cpu} {w fl : Word} (words : Words d.mem (d.reg .esp).toNat [w, fl])
    (fits : (d.reg .esp).toNat + 8 ≤ 2 ^ 32) :
    execs d back = { d with
      reg := Function.update (Function.update d.reg .esp (d.reg .esp + 8)) .ebp w
      eflags := fl } := by
  simp only [execs, back, List.foldl_cons, List.foldl_nil, Op.exec, ne_eq, reduceCtorEq,
    not_false_eq_true, setReg_stack, setReg_drop,
    drop_drop, drop_stack, stack_word words fits (k := 0) rfl, stack_word words fits (k := 1) rfl]
  rfl

def State.Alive (s : State P S) (p : P) : Prop := p = s.cur ∨ s.saved p ≠ none

structure Inv (A : Asm) (L : Labels) (K : Layout P S) (s : State P S) : Prop where
  away : s.saved s.cur = none
  parked : ∀ p x, s.saved p = some x →
    Parked A L s.cpu.mem (K.con p) (K.lo (s.stk p)) (K.hi (s.stk p)) x
  distinct : ∀ p q, p ≠ q → s.Alive p → s.Alive q → s.stk p ≠ s.stk q

variable {s : State P S}

theorem Inv.not_cur (inv : Inv A L K s) {p : P} {x : Saved} (waits : s.saved p = some x) :
    p ≠ s.cur := by
  rintro rfl
  exact absurd (inv.away.symm.trans waits) (by simp)

theorem inv_elsewhere {next p : P} {x y : Saved} (inv : Inv A L K s)
    (sw : Switching A K s.cur next (s.stk s.cur) s.cpu)
    (enters : s.saved next = some x) (waits : s.saved p = some y) (other : p ≠ next) :
    Parked A L (switched A s.cpu).mem (K.con p) (K.lo (s.stk p)) (K.hi (s.stk p)) y :=
  switched_elsewhere sw (inv.parked next x enters) (inv.parked p y waits) (inv.not_cur waits)
    (inv.distinct p s.cur (inv.not_cur waits) (Or.inr (by simp [waits])) (Or.inl rfl))
    (inv.distinct p next other (Or.inr (by simp [waits])) (Or.inr (by simp [enters])))

end Waiting

/-! ## Runs -/

section Runs
variable [DecidableEq P] {A : Asm} {L : Labels} {K : Layout P S}

/-- The process works, calls `task_switch` from `schedule` or `exit_cur`, or makes another process.
    -/
inductive Step (A : Asm) (L : Labels) (K : Layout P S) : State P S → State P S → Prop
  | work (s : State P S) (c : Cpu)
      (away : ∀ q, q ≠ s.cur → s.saved q ≠ none →
        AgreeOn s.cpu.mem c.mem (K.lo (s.stk q)) (K.hi (s.stk q)))
      (cons : ∀ q, AgreeOn s.cpu.mem c.mem (K.con q) (K.con q + 8)) :
        Step A L K s { s with cpu := c }
  | switch (s : State P S) (next : P) (sw : Switching A K s.cur next (s.stk s.cur) s.cpu)
    (waits : s.saved next ≠ none) :
      Step A L K s { s with
        cpu := switched A s.cpu
        cur := next
        saved :=
          Function.update (Function.update s.saved next none) s.cur (some (.suspended s.cpu)) }
  | exit (s : State P S) (next : P) (sw : Switching A K s.cur next (s.stk s.cur) s.cpu)
    (waits : s.saved next ≠ none) :
      Step A L K s { s with
        cpu := switched A s.cpu, cur := next, saved := Function.update s.saved next none }
  | spawn (s : State P S) (p : P) (t : S) (f : Word) (cs : BitVec 16)
      (free : p ≠ s.cur ∧ s.saved p = none)
      (unused : ∀ q, q = s.cur ∨ s.saved q ≠ none → s.stk q ≠ t) (room : K.lo t + 84 ≤ K.hi t) :
      Step A L K s { s with
        cpu :=
          { s.cpu with mem := allocProc L (K.addr p) (BitVec.ofNat 32 (K.hi t)) f cs s.cpu.mem }
        stk := Function.update s.stk p t
        saved := Function.update s.saved p (some (.fresh f cs)) }

variable {s s' : State P S}

theorem inv_switch {next : P} (inv : Inv A L K s)
    (sw : Switching A K s.cur next (s.stk s.cur) s.cpu) (waits : s.saved next ≠ none) :
    Inv A L K { s with
      cpu := switched A s.cpu
      cur := next
      saved :=
        Function.update (Function.update s.saved next none) s.cur (some (.suspended s.cpu)) } := by
  obtain ⟨x, enters⟩ := Option.ne_none_iff_exists'.mp waits
  have apart : s.stk s.cur ≠ s.stk next :=
    inv.distinct s.cur next sw.other.symm (Or.inl rfl) (Or.inr waits)
  refine ⟨?_, fun p y found => ?_, fun p q different aliveP aliveQ => ?_⟩
  · exact (Function.update_of_ne sw.other _ _).trans (Function.update_self next none s.saved)
  · by_cases left : p = s.cur
    · subst left
      have same : some (Saved.suspended s.cpu) = some y :=
        (Function.update_self s.cur _ _).symm.trans found
      cases same
      exact switched_suspends sw (inv.parked next x enters) apart
    · simp only [Function.update_of_ne left] at found
      by_cases entered : p = next
      · subst entered
        simp at found
      · rw [Function.update_of_ne entered] at found
        exact inv_elsewhere inv sw enters found entered
  · have before (r : P) (alive : r = next ∨
        Function.update (Function.update s.saved next none) s.cur (some (Saved.suspended s.cpu)) r ≠
        none) : s.Alive r := by
      by_cases left : r = s.cur
      · exact Or.inl left
      · by_cases entered : r = next
        · exact Or.inr (entered ▸ waits)
        · simpa [left, entered, State.Alive] using alive
    exact inv.distinct p q different (before p aliveP) (before q aliveQ)

theorem inv_exit {next : P} (inv : Inv A L K s) (sw : Switching A K s.cur next (s.stk s.cur) s.cpu)
    (waits : s.saved next ≠ none) :
    Inv A L K
    { s with
    cpu := switched A s.cpu, cur := next, saved := Function.update s.saved next none } := by
  obtain ⟨x, enters⟩ := Option.ne_none_iff_exists'.mp waits
  refine ⟨Function.update_self next none s.saved, fun p y found => ?_,
    fun p q different aliveP aliveQ => ?_⟩
  · by_cases entered : p = next
    · subst entered
      simp at found
    · simp only [Function.update_of_ne entered] at found
      exact inv_elsewhere inv sw enters found entered
  · have before (r : P) (alive : r = next ∨ Function.update s.saved next none r ≠ none) :
        s.Alive r := by
      by_cases entered : r = next
      · exact Or.inr (entered ▸ waits)
      · exact Or.inr (by simpa [entered] using alive)
    exact inv.distinct p q different (before p aliveP) (before q aliveQ)

theorem inv_spawn {p : P} {t : S} (inv : Inv A L K s) (f : Word) (cs : BitVec 16)
    (free : p ≠ s.cur ∧ s.saved p = none)
    (unused : ∀ q, q = s.cur ∨ s.saved q ≠ none → s.stk q ≠ t) (room : K.lo t + 84 ≤ K.hi t) :
    Inv A L K { s with
      cpu := { s.cpu with mem := allocProc L (K.addr p) (BitVec.ofNat 32 (K.hi t)) f cs s.cpu.mem }
      stk := Function.update s.stk p t
      saved := Function.update s.saved p (some (.fresh f cs)) } := by
  refine ⟨(Function.update_of_ne free.1.symm _ _).trans inv.away, fun q y found => ?_,
    fun q r different aliveQ aliveR => ?_⟩
  · by_cases made : q = p
    · subst made
      have same : some (Saved.fresh f cs) = some y := (Function.update_self q _ _).symm.trans found
      cases same
      simp only [Function.update_self]
      exact allocProc_fresh _ (K.hi_bound t) room (K.stack_con t q)
    · simp only [Function.update_of_ne made] at found ⊢
      have apart := K.stacks_apart (s.stk q) t (unused q (Or.inr (by simp [found])))
      have cons := K.cons_apart q p made
      have stackCon := K.stack_con (s.stk q) p
      have conStack := K.stack_con t q
      refine parked_congr (inv.parked q y found) (fun x low high => ?_) fun x low high => ?_
      · exact allocProc_other _ (K.hi_bound t) room (by omega) (by omega)
      · simp only [Layout.con] at low high
        exact allocProc_other _ (K.hi_bound t) room (by omega) (by omega)
  · have before (u : P) (alive : u = s.cur ∨
      Function.update s.saved p (some (Saved.fresh f cs)) u ≠ none) (other : u ≠ p) :
        s.Alive u := by
      rwa [Function.update_of_ne other] at alive
    by_cases first : q = p
    · subst first
      simp only [Function.update_self, Function.update_of_ne different.symm]
      exact (unused r (before r aliveR different.symm)).symm
    · by_cases second : r = p
      · subst second
        simp only [Function.update_self, Function.update_of_ne first]
        exact unused q (before q aliveQ first)
      · simp only [Function.update_of_ne first, Function.update_of_ne second]
        exact inv.distinct q r different (before q aliveQ first) (before r aliveR second)

theorem inv_step (inv : Inv A L K s) (step : Step A L K s s') : Inv A L K s' := by
  cases step with
  | work c away cons =>
    refine ⟨inv.away, fun p x found => ?_, inv.distinct⟩
    have waits : s.saved p = some x := found
    exact parked_congr (inv.parked p x waits) (away p (inv.not_cur waits) (by simp [waits]))
      (cons p)
  | switch next sw waits => exact inv_switch inv sw waits
  | exit next sw waits => exact inv_exit inv sw waits
  | spawn p t f cs free unused room => exact inv_spawn inv f cs free unused room

theorem inv_run (boot : ∀ p, s.saved p = none) (run : Relation.ReflTransGen (Step A L K) s s') :
    Inv A L K s' := by
  induction run with
  | refl =>
    refine ⟨boot _, fun p x found => absurd found (by simp [boot p]),
      fun p q different aliveP aliveQ => ?_⟩
    have one : p = s.cur := aliveP.resolve_right (by simp [boot p])
    have two : q = s.cur := aliveQ.resolve_right (by simp [boot q])
    exact absurd (one.trans two.symm) different
  | tail _ step ih => exact inv_step ih step

/-! Two processes: the one that boots, `false`, makes the other one. -/

def asm : Asm := ⟨0x7300, 0x7307, 0x7309, .edx, .eax, by decide, by decide⟩

def program : Machine := image.add 0x7300 (plain (out asm) ++ .ret :: plain back)

theorem program_linked : Linked program asm :=
  ⟨placed_of_codeEnd (by decide +kernel), placed_of_codeEnd (by decide +kernel)⟩

def layout : Layout Bool Bool where
  addr p := if p then 0x7200 else 0x7100
  lo t := if t then 0xa000 else 0x8000
  hi t := if t then 0xb000 else 0x9000
  addr_bound p := by cases p <;> decide
  hi_bound t := by cases t <;> decide
  cons_apart p q := by cases p <;> cases q <;> decide
  stacks_apart t u := by cases t <;> cases u <;> decide
  stack_con t p := by cases t <;> cases p <;> decide

def calling (cur : Bool) (m : Mem) : Cpu :=
  { cpu with
    reg := fun r => if r = .esp then (if cur then 0xaf00 else 0x8f00)
    else if r = .edx then layout.addr cur else layout.addr (!cur)
    eip := 0x7300
    mem := m }

theorem calling_switches (cur : Bool) (m : Mem) :
    Switching asm layout cur (!cur) cur (calling cur m) where
  here := rfl
  other := by cases cur <;> decide
  prv := rfl
  nxt := rfl
  low := by
    show layout.lo cur + 12 ≤ (if cur then (0xaf00 : Word) else 0x8f00).toNat
    cases cur <;> decide
  high := by
    show (if cur then (0xaf00 : Word) else 0x8f00).toNat ≤ layout.hi cur
    cases cur <;> decide

def booted : State Bool Bool := ⟨cpu, false, id, fun _ => none⟩

def spawned : State Bool Bool :=
  { booted with
    cpu := calling false (allocProc labels (layout.addr true) (BitVec.ofNat 32 (layout.hi true))
    0x6000 8 cpu.mem)
    stk := Function.update id true true
    saved := Function.update (fun _ => none) true (some (.fresh 0x6000 8)) }

theorem booted_spawns : Relation.ReflTransGen (Step asm labels layout) booted spawned :=
  .tail (.tail .refl (.spawn booted true true 0x6000 8 ⟨by decide, rfl⟩ (fun q alive => by
    obtain rfl : q = false := alive.resolve_right (fun waits => waits rfl)
    decide) (by decide)))
    (.work _ _ (fun _ _ _ _ _ _ => rfl) fun _ _ _ _ => rfl)

def answered : State Bool Bool :=
  { cpu := calling true (switched asm spawned.cpu).mem
    cur := true
    stk := spawned.stk
    saved :=
      Function.update (Function.update spawned.saved true none) false
        (some (.suspended spawned.cpu)) }

theorem booted_answers : Relation.ReflTransGen (Step asm labels layout) booted answered :=
  .tail (.tail booted_spawns (.switch spawned true (calling_switches false _) (by simp [spawned])))
    (.work _ _ (fun _ _ _ _ _ _ => rfl) fun _ _ _ _ => rfl)

/-- After any order of switches, work, exits and new processes, a process that is switched to goes
    on behind its own call with its own stack, frame pointer and flags; the other registers are
    those of the process that left. -/
theorem switch_resumes {M : Machine} {next : P} {d : Cpu} (linked : Linked M A)
    (boot : ∀ p, s.saved p = none)
    (run : Relation.ReflTransGen (Step A L K) s s') (waits : s'.saved next = some (.suspended d))
    (sw : Switching A K s'.cur next (s'.stk s'.cur) s'.cpu) :
    ∃ c, Reaches M s'.cpu c ∧ c.eip = A.done ∧ c.reg .esp = d.reg .esp ∧ c.reg .ebp = d.reg .ebp ∧
    c.eflags = d.eflags ∧
      (∀ r, r ≠ .esp → r ≠ .ebp → c.reg r = s'.cpu.reg r) ∧ c.seg = s'.cpu.seg ∧
      AgreeOn d.mem c.mem (d.reg .esp).toNat (K.hi (s'.stk next)) := by
  have inv := inv_run boot run
  have parked : Suspended A s'.cpu.mem (K.con next) (K.lo (s'.stk next)) (K.hi (s'.stk next)) d :=
    inv.parked next _ waits
  have other : s'.stk next ≠ s'.stk s'.cur :=
    inv.distinct next s'.cur sw.other (Or.inr (by simp [waits])) (Or.inl rfl)
  have entered := switched_entered sw (inv.parked next _ waits) other
  have landed := switched_parked sw (inv.parked next _ waits)
  have low := parked.low
  have high := parked.high
  have bound := (d.reg .esp).isLt
  have pointer : BitVec.ofNat 32 ((d.reg .esp).toNat - 8) = d.reg .esp - 8 := by bv_omega
  have place : (d.reg .esp - 8).toNat = (d.reg .esp).toNat - 8 := toNat_back (k := 8) (by omega)
  simp only [context, pointer] at landed entered
  have esp : (switched A s'.cpu).reg .esp = d.reg .esp - 8 := by
    simp only [landed, Function.update_self]
  have top : Words (switched A s'.cpu).mem ((switched A s'.cpu).reg .esp).toNat [d.reg .ebp,
      d.eflags] := by
    rw [esp, place]
    exact words_congr (entered.mono (by omega) (by show _ + 8 ≤ _; omega)) parked.top
  have here : (switched A s'.cpu).eip = A.resume := by rw [landed]
  have run := reaches_ops linked.back here
  rw [back_eq top (by rw [esp, place]; omega), esp, show d.reg .esp - 8 + 8 =
    d.reg .esp by bv_omega] at run
  refine ⟨_, (reaches_switched linked sw.here).trans run, rfl, ?_, ?_, rfl,
    fun r notEsp notEbp => ?_, by rw [landed], ?_⟩
  · simp only [Function.update_of_ne (show Reg.esp ≠ Reg.ebp by decide), Function.update_self]
  · simp only [Function.update_self]
  · refine (Function.update_of_ne notEbp _ _).trans ((Function.update_of_ne notEsp _ _).trans ?_)
    simp only [landed, Function.update_of_ne notEsp]
  · exact parked.stack.trans (entered.mono (by omega) (Nat.le_refl _))

theorem switch_resumes_booted :
    ∃ c, Reaches program answered.cpu c ∧ c.eip = 0x7309 ∧ c.reg .esp = 0x8f00 ∧
    c.reg .ebp = spawned.cpu.reg .ebp ∧
      c.eflags = spawned.cpu.eflags ∧ (∀ r, r ≠ .esp → r ≠ .ebp → c.reg r = answered.cpu.reg r) ∧
      c.seg = answered.cpu.seg ∧
      AgreeOn spawned.cpu.mem c.mem 0x8f00 0x9000 :=
  switch_resumes (d := spawned.cpu) program_linked
    (fun _ => rfl) booted_answers rfl (calling_switches true _)

/-- A process that was made by `alloc_proc` and is switched to for the first time comes to its
    function, with interrupts on and the data segment of its privilege, once `general_eoi` is done.
    -/
theorem switch_starts {M : Machine} {next : P} {f : Word} {cs : BitVec 16} (loaded : Loaded M L)
    (linked : Linked M A)
    (boot : ∀ p, s.saved p = none) (run : Relation.ReflTransGen (Step A L K) s s')
    (waits : s'.saved next = some (.fresh f cs))
    (sw : Switching A K s'.cur next (s'.stk s'.cur) s'.cpu) (ring : s'.cpu.seg .cs &&& 3 = 0) :
    ∃ h, Reaches M s'.cpu h ∧ h.eip = L.generalEoi ∧ h.stack 1 = 0 ∧
      ∀ h', Returned h h' → AgreeOn h.mem h'.mem (K.hi (s'.stk next) - 76) (K.hi (s'.stk next)) →
        ∃ c, Reaches M h' c ∧ c.eip = f ∧ c.eflags = 0x202 ∧ c.seg .cs = cs ∧ c.mem = h'.mem ∧
          (∀ g, g ≠ .cs → g ≠ .ss → c.seg g = (dataSeg cs).setWidth 16) ∧
          if cs &&& 3 = 0 then c.reg .esp = BitVec.ofNat 32 (K.hi (s'.stk next) - 8) ∧
          c.seg .ss = s'.cpu.seg .ss
          else c.reg .esp = BitVec.ofNat 32 (K.hi (s'.stk next) - 76) ∧
          c.seg .ss = (dataSeg cs).setWidth 16 := by
  have inv := inv_run boot run
  have parked : Fresh L s'.cpu.mem (K.con next) (K.lo (s'.stk next)) (K.hi (s'.stk next)) f cs :=
    inv.parked next _ waits
  have other : s'.stk next ≠ s'.stk s'.cur :=
    inv.distinct next s'.cur sw.other (Or.inr (by simp [waits])) (Or.inl rfl)
  have entered := switched_entered sw (inv.parked next _ waits) other
  have landed := switched_parked sw (inv.parked next _ waits)
  have low := parked.low
  have bound := K.hi_bound (s'.stk next)
  simp only [context] at landed entered
  have there := reaches_switched linked sw.here
  generalize switched A s'.cpu = t at *
  generalize K.hi (s'.stk next) = hi at *
  have esp : t.reg .esp = BitVec.ofNat 32 (hi - 76) := by
    simp only [landed, Function.update_self]
  have place : (t.reg .esp).toNat = hi - 76 := by
    rw [esp, BitVec.toNat_ofNat]
    omega
  have seg : t.seg = s'.cpu.seg := by rw [landed]
  obtain ⟨h, enters, eip, argument, segs, outside, leaves⟩ :=
    childret_calls loaded (by rw [landed] : t.eip = L.childret) (by omega)
  refine ⟨h, there.trans enters, eip, argument, fun h' back same => ?_⟩
  obtain ⟨w, returns, wEip, wEsp, wMem, wSeg⟩ := leaves h' back
  have frame : AgreeOn s'.cpu.mem w.mem (hi - 76) hi := by
    rw [wMem]
    exact (entered.trans fun x above below => outside x (by omega)).trans same
  have regs : readRegs w.mem (hi - 76) = readRegs s'.cpu.mem (hi - 76) :=
    readRegs_congr (frame.mono (Nat.le_refl _) (by omega))
  have code : ((readRegs w.mem (hi - 76)).cs).setWidth 16 = cs := by
    rw [regs, parked.frameCs, BitVec.setWidth_setWidth_of_le _ (by decide), BitVec.setWidth_eq]
  have wPlace : (w.reg .esp).toNat = hi - 76 := by rw [wEsp, place]
  have all : Words w.mem (w.reg .esp).toNat ((readRegs w.mem (hi - 76)).words ++
      [BitVec.ofNat 32 (hi - 76), dataSeg cs]) := by
    rw [wPlace]
    refine (words_append _).mpr ⟨readRegs_words _ _, ?_⟩
    rw [show hi - 76 + 4 * (readRegs w.mem (hi - 76)).words.length =
      hi - 8 by show _ + 68 = _; omega]
    exact words_congr (frame.mono (by omega) (by show _ + 8 ≤ _; omega)) parked.outer
  have ringHere : w.seg .cs &&& 3 = 0 := by rw [wSeg, back.segs, segs, seg, ring]
  obtain ⟨e, intretPlaced⟩ := loaded.intret
  have dataSegs (ss : BitVec 16) (g : Seg) (notCs : g ≠ .cs) (notSs : g ≠ .ss) :
      (readRegs w.mem (hi - 76)).seg ss g = (dataSeg cs).setWidth 16 := by
    rw [regs, ← parked.frameSegs g notCs]
    cases g <;> first | rfl | exact absurd rfl notCs | exact absurd rfl notSs
  have atStart : (readRegs w.mem (hi - 76)).eip = f := by rw [regs, parked.frameEip]
  have flags : (readRegs w.mem (hi - 76)).eflags = 0x202 := by rw [regs, parked.frameFlags]
  by_cases kernelCode : cs &&& 3 = 0
  · have started := intret_restores intretPlaced wEip ((words_append _).mp all).1 (by omega)
      (by rw [code, kernelCode, ringHere])
    refine ⟨_, returns.trans started, atStart, flags, code, wMem, dataSegs _, ?_⟩
    rw [if_pos kernelCode]
    refine ⟨?_, ?_⟩
    · show w.reg .esp + 68 = _
      rw [wEsp, esp]
      bv_omega
    · show w.seg .ss = _
      rw [wSeg, back.segs, segs, seg]
  · have started :=
      intret_outer intretPlaced wEip all (by omega) (by rw [code, ringHere]; exact kernelCode)
    refine ⟨_, returns.trans started, atStart, flags, code, wMem, dataSegs _, ?_⟩
    rw [if_neg kernelCode]
    exact ⟨rfl, rfl⟩

theorem switch_starts_spawned :
    ∃ h, Reaches program spawned.cpu h ∧ h.eip = 0x3200 ∧ h.stack 1 = 0 ∧
      ∀ h', Returned h h' → AgreeOn h.mem h'.mem (0xb000 - 76) 0xb000 →
        ∃ c, Reaches program h' c ∧ c.eip = 0x6000 ∧ c.eflags = 0x202 ∧ c.seg .cs = 8 ∧
        c.mem = h'.mem ∧
          (∀ g, g ≠ .cs → g ≠ .ss → c.seg g = 0x10) ∧
          if (8 : BitVec 16) &&& 3 = 0 then
          c.reg .esp = BitVec.ofNat 32 (0xb000 - 8) ∧ c.seg .ss = 0x10
          else c.reg .esp = BitVec.ofNat 32 (0xb000 - 76) ∧ c.seg .ss = 0x10 :=
  switch_starts (image_loaded.add _ _) program_linked (fun _ => rfl) booted_spawns rfl
    (calling_switches false _) (by decide)

end Runs

end TaskSwitch
