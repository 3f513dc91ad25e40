import NoobOs.Ext2.Geometry
import Mathlib.Data.List.Nodup
import Mathlib.Data.List.ReduceOption
import Mathlib.Logic.Function.Basic

/-!
The life of a superblock in `ext2fs.c`: `sget`, `sput`, `ext2_fill_super` and `ext2_putsb` on
one block device. What can fail in `ext2_fill_super`, the read of the root inode included, is
that of `Ext2.ext2FillSuper` and `Ext2.ext2ReadIno`; here are the objects it allocates, named by
their addresses. Buffers that a function frees before it returns are left out. `none` is an
access to freed memory, a null pointer followed, a store outside an array, or a shift or a
division without a result.
-/
namespace SuperLifetime
open ByteMemory
open Ext2 (BlockGroup imageAt ext2SuperMagic ext2MaxGroupLoaded)

/-- `struct ext2_sb_info`: the objects it loaded and their counts. -/
structure SbInfo where
  sGroupDesc : List (Option Nat)
  sInodeBitmap : List (Option Nat)
  sBlockBitmap : List (Option Nat)
  sGroupCount : Nat
  sLoadedBlockBitmaps : Nat

def SbInfo.objects (info : SbInfo) : List Nat :=
  (info.sGroupDesc ++ info.sInodeBitmap ++ info.sBlockBitmap).reduceOption

inductive FsType where
  | ext2FsType
  deriving DecidableEq

structure SuperBlock where
  sBlocksize : Nat
  sMagic : Nat
  sRefs : Nat
  sRoot : Option Nat
  sType : Option FsType
  genericSbp : Option Nat

def SuperBlock.zero : SuperBlock := ⟨0, 0, 0, none, none, none⟩
def SbInfo.zero : SbInfo :=
  ⟨List.replicate ext2MaxGroupLoaded none, List.replicate ext2MaxGroupLoaded none,
    List.replicate ext2MaxGroupLoaded none, 0, 0⟩

/-- `bd->bd_sb`, the memory of the two kinds of object, and the addresses in use. -/
structure State where
  bdSb : Option Nat
  sb : Nat → SuperBlock
  info : Nat → SbInfo
  alive : List Nat

structure Device where
  disk : Mem
  bdStart : UInt32

def Device.image (c : Device) : Ext2.Superblock := imageAt c.disk c.bdStart

def setSb (s : State) (p : Nat) (v : SuperBlock) : State :=
  { s with sb := Function.update s.sb p v }
def setInfo (s : State) (p : Nat) (v : SbInfo) : State :=
  { s with info := Function.update s.info p v }

def free (s : State) (p : Nat) : Option State :=
  if p ∈ s.alive then some { s with alive := s.alive.erase p } else none

/-- An array of the info: each group that is loaded gets a descriptor and two bitmaps, at
    `3 * i`, `3 * i + 1` and `3 * i + 2` of the addresses that `malloc` returns. -/
def stored (descs : List (Option BlockGroup)) (new : Nat → Nat) (k : Nat) : List (Option Nat) :=
  descs.mapIdx fun i desc => desc.map fun _ => new (3 * i + k)

structure Fresh where
  sb : Nat
  info : Nat
  loaded : Nat → Nat
  root : Nat

/-- The state and the return code. No inode of the device is in the cache before it has a
    superblock, so `iget` reads the root. -/
def ext2FillSuper (c : Device) (new : Fresh) (s : State) (p : Nat) : Option (State × Int) :=
  match Ext2.ext2FillSuper c.disk c.bdStart with
  | .error _ => none
  | .ok none => some (s, 1)
  | .ok (some sb) => do
    let info : SbInfo :=
      { sGroupDesc := stored sb.info.sGroupDesc new.loaded 0
        sInodeBitmap := stored sb.info.sGroupDesc new.loaded 1
        sBlockBitmap := stored sb.info.sGroupDesc new.loaded 2
        sGroupCount := sb.info.sGroupCount
        sLoadedBlockBitmaps := 0 }
    let s := { s with bdSb := some p, alive := info.objects ++ new.info :: s.alive }
    let s := setInfo s new.info info
    let _ ← Ext2.ext2ReadIno c.disk sb 2
    let s := setSb s p { s.sb p with
      sBlocksize := sb.sBlocksize.toNat, sMagic := ext2SuperMagic, genericSbp :=
        some new.info, sRoot := some new.root }
    return (s, 0)

def inUse (s : State) : Option Bool :=
  match s.bdSb with
  | none => some false
  | some p => if p ∈ s.alive then some ((s.sb p).sRefs ≠ 0) else none

/-- The superblock `sget` returns; the code of `read_super` is ignored. -/
def sget (c : Device) (new : Fresh) (s : State) : Option (State × Option Nat) := do
  if ← inUse s then return (s, s.bdSb)
  let p := new.sb
  let s := setSb { s with bdSb := some p, alive := p :: s.alive } p SuperBlock.zero
  let (s, _) ← ext2FillSuper c new s p
  return (setSb s p { s.sb p with sRefs := 1 }, some p)

def freeEntry (s : State) (o : Option Nat) : Option State :=
  match o with
  | none => some s
  | some p => free s p

def ext2PutsbFrom (info : SbInfo) : Nat → Nat → State → Option State
  | 0, _, s => some s
  | rounds + 1, i, s => do
    let s ← freeEntry s (← info.sBlockBitmap[i]?)
    let s ← freeEntry s (← info.sInodeBitmap[i]?)
    let s ← freeEntry s (← info.sGroupDesc[i]?)
    ext2PutsbFrom info rounds (i + 1) s

def ext2Putsb (s : State) (p : Nat) : Option State := do
  let i ← (s.sb p).genericSbp
  let s ← ext2PutsbFrom (s.info i) (s.info i).sLoadedBlockBitmaps 0 s
  free s i

/-- `iput` of the root follows the pointer. -/
def sput (s : State) (p : Nat) : Option State :=
  if p ∈ s.alive then do
    let refs := ((s.sb p).sRefs + (2 ^ 32 - 1)) % 2 ^ 32
    let s := setSb s p { s.sb p with sRefs := refs }
    if refs > 0 then return s
    let _ ← (s.sb p).sRoot
    let s ← if (s.sb p).sType = some .ext2FsType then ext2Putsb s p else some s
    free s p
  else none

/-! ## Runs of mounts and unmounts -/

inductive Request where
  | sget (new : Fresh)
  | sput (p : Nat)

structure Sys where
  state : State
  gets : Nat → Nat
  puts : Nat → Nat

def start : Sys :=
  ⟨⟨none, fun _ => SuperBlock.zero, fun _ => SbInfo.zero, []⟩, fun _ => 0, fun _ => 0⟩

/-- `malloc` returns new addresses, and a superblock is put by those who got it. -/
def Legal (x : Sys) : Request → Prop
  | .sget new => (∀ q ∈ new.sb :: new.info :: (List.range 24).map new.loaded, q ∉ x.state.alive) ∧
    (new.sb :: new.info :: (List.range 24).map new.loaded).Nodup
  | .sput p => x.puts p < x.gets p

def step (c : Device) (x : Sys) : Request → Option (Sys × Option Nat)
  | .sget new => do
    let (s, ret) ← sget c new x.state
    match ret with
    | none => return ({ x with state := s }, none)
    | some p =>
      if p ∈ x.state.alive then
        return ({ x with state := s, gets := Function.update x.gets p (x.gets p + 1) }, ret)
      else return (⟨s, Function.update x.gets p 1, Function.update x.puts p 0⟩, ret)
  | .sput p => do
    let s ← sput x.state p
    return ({ x with state := s, puts := Function.update x.puts p (x.puts p + 1) }, none)

def loaded (s : State) (p : Nat) : List Nat :=
  match (s.sb p).genericSbp with
  | none => []
  | some i => (s.info i).objects

/-- A superblock stays alive until it was put as often as got, and a freed one has left the
    device and taken what it loaded along. -/
structure Kept (x : Sys) : Prop where
  alive : ∀ p, x.puts p < x.gets p → p ∈ x.state.alive
  freed : ∀ p, 0 < x.gets p → p ∉ x.state.alive →
    x.state.bdSb ≠ some p ∧ ∀ q ∈ loaded x.state p, q ∉ x.state.alive

/-- On a device without ext2 `sget` reports failure and leaves `bd_sb` alone; else it returns
    the superblock that is alive. -/
def Answers (c : Device) (x y : Sys) (ret : Option Nat) : Request → Prop
  | .sget _ => if c.image.magic ≠ ext2SuperMagic then ret = none ∧ y.state.bdSb = x.state.bdSb
    else ret ≠ none ∧ ∀ q, 0 < x.gets q → q ∈ x.state.alive → ret = some q
  | .sput _ => True

/-- Every call of the run returns, answers as it should and keeps the superblocks. -/
def Correct (c : Device) : Sys → List Request → Prop
  | _, [] => True
  | x, r :: rs => ∃ y ret, step c x r = some (y, ret) ∧ Answers c x y ret r ∧
    Kept y ∧ Correct c y rs

def LegalRun (c : Device) : Sys → List Request → Prop
  | _, [] => True
  | x, r :: rs => Legal x r ∧ ∀ y ret, step c x r = some (y, ret) → LegalRun c y rs

/-- An ext2 volume whose block size is not cut to 0, whose groups fit in the arrays of the
    info, and whose root inode is taken for one of a group that is loaded. -/
structure Loadable (c : Device) : Prop where
  magic : c.image.magic = ext2SuperMagic
  log : c.image.logBlockSiz.toNat < 22
  perGroup : c.image.blocksPerGroup ≠ 0
  inodes : c.image.inodesPerGroup ≠ 0
  few : c.image.codeCount ≤ ext2MaxGroupLoaded
  root : 2 / c.image.inodesPerGroup.toNat < c.image.codeCount

section Filling
variable {c : Device}

theorem ext2FillSuper_blank (other : c.image.magic ≠ ext2SuperMagic) :
    Ext2.ext2FillSuper c.disk c.bdStart = .ok none := by
  unfold Device.image at other
  simp only [Ext2.ext2FillSuper, ne_eq, other, not_false_eq_true, if_true]
  rfl

theorem ext2FillSuper_found (magic : c.image.magic = ext2SuperMagic) :
    Ext2.ext2FillSuper c.disk c.bdStart ≠ .ok none := by
  unfold Device.image at magic
  intro ran
  unfold Ext2.ext2FillSuper at ran
  simp only [magic, ne_eq, not_true_eq_false, if_false] at ran
  split at ran
  · cases ran
  · obtain ⟨n, -, descs, -, desc, -, done⟩ := by simpa only [Ext2.bind_ok_iff] using ran
    cases done

theorem loadable_iff (magic : c.image.magic = ext2SuperMagic) :
    Loadable c ↔ ∃ sb, Ext2.ext2FillSuper c.disk c.bdStart = .ok (some sb) ∧
      ∃ record, Ext2.ext2ReadIno c.disk sb 2 = some record := by
  constructor
  · intro loadable
    obtain ⟨sb, ran⟩ :=
      Ext2.ext2FillSuper_mounts magic loadable.log loadable.perGroup loadable.inodes loadable.few
    obtain ⟨d, record, -, read⟩ := (Ext2.readInoDesc_mounted magic ran 2).mpr loadable.root
    exact ⟨sb, ran, record, read⟩
  · rintro ⟨sb, ran, record, read⟩
    obtain ⟨log, perGroup, inodes, few, descs, rfl, -, -⟩ := Ext2.ext2FillSuper_spec magic ran
    have block := (Ext2.blocksize_ne_zero (Nat.lt_trans log (by decide))).mpr log
    obtain ⟨d, desc, -⟩ := Option.bind_eq_some_iff.mp read
    have found := Ext2.readInoDesc_ok_iff.mpr ⟨inodes, block, desc⟩
    exact ⟨magic, log, perGroup, inodes, few,
      (Ext2.readInoDesc_mounted magic ran 2).mp ⟨d, record, found, read⟩⟩

theorem stored_among {descs : List (Option BlockGroup)} {new : Nat → Nat} {k q : Nat}
    (size : descs.length = ext2MaxGroupLoaded) (less : k < 3)
    (member : q ∈ (stored descs new k).reduceOption) :
    q ∈ (List.range 24).map new := by
  rw [List.reduceOption_mem_iff, stored, List.mem_mapIdx] at member
  obtain ⟨i, inside, entry⟩ := member
  obtain ⟨desc, -, rfl⟩ := Option.map_eq_some_iff.mp entry
  rw [size, ext2MaxGroupLoaded] at inside
  rw [List.mem_map]
  exact ⟨3 * i + k, List.mem_range.mpr (by omega), rfl⟩

end Filling

section Steps
variable {c : Device} {x y : Sys} {p : Nat}

/-- One superblock was got and none put; its count stays at 1. -/
structure Held (x : Sys) (p : Nat) : Prop where
  bdSb : x.state.bdSb = some p
  alive : p ∈ x.state.alive
  once : p ∉ x.state.alive.erase p
  refs : (x.state.sb p).sRefs = 1
  type : (x.state.sb p).sType = none
  root : ∃ r, (x.state.sb p).sRoot = some r
  got : 0 < x.gets p
  kept : x.puts p = 0
  alone : ∀ q, 0 < x.gets q → q = p

theorem Held.proper (held : Held x p) : Kept x := by
  constructor
  · intro q more
    rw [held.alone q (by omega)]
    exact held.alive
  · intro q got gone
    rw [held.alone q got] at gone
    exact absurd held.alive gone

theorem sget_held (held : Held x p) (new : Fresh) :
    ∃ y, step c x (.sget new) = some (y, some p) ∧ Held y p ∧ y.state = x.state := by
  have used : inUse x.state = some true := by
    simp [inUse, held.bdSb, held.alive, held.refs]
  have same : sget c new x.state = some (x.state, some p) := by
    simp [sget, used, held.bdSb]
  refine ⟨{ x with gets := Function.update x.gets p (x.gets p + 1) }, ?_, ?_, rfl⟩
  · simp [step, same, held.alive]
  · refine ⟨held.bdSb, held.alive, held.once, held.refs, held.type,
      held.root, by simp, held.kept, ?_⟩
    intro q got
    by_cases here : q = p
    · exact here
    · exact held.alone q (by simpa [here] using got)

theorem sput_held (held : Held x p) :
    ∃ y, step c x (.sput p) = some (y, none) ∧ y.gets = x.gets ∧ p ∉ y.state.alive ∧
    y.state.bdSb = some p := by
  obtain ⟨r, root⟩ := held.root
  obtain ⟨s, put, gone, device⟩ : ∃ s, sput x.state p = some s ∧ p ∉ s.alive ∧ s.bdSb = some p := by
    refine ⟨{ setSb x.state p { x.state.sb p with
      sRefs := 0 } with alive := x.state.alive.erase p }, ?_, held.once,
      held.bdSb⟩
    simp [sput, held.alive, held.refs, setSb, root, held.type, free]
  exact ⟨{ x with state := s, puts := Function.update x.puts p (x.puts p + 1) },
    by simp [step, put], rfl, gone, device⟩

theorem sget_start (loadable : Loadable c) {new : Fresh} (ok : Legal start (.sget new)) :
    ∃ y, step c start (.sget new) = some (y, some new.sb) ∧ Held y new.sb := by
  obtain ⟨-, distinct⟩ := ok
  obtain ⟨sb, filled, record, root⟩ := (loadable_iff loadable.magic).mp loadable
  obtain ⟨-, -, -, -, descs, same, size, -⟩ := Ext2.ext2FillSuper_spec loadable.magic filled
  obtain rfl : sb.info.sGroupDesc = descs := by rw [same]; rfl
  let info : SbInfo :=
    ⟨stored sb.info.sGroupDesc new.loaded 0, stored sb.info.sGroupDesc new.loaded 1,
      stored sb.info.sGroupDesc new.loaded 2,
      sb.info.sGroupCount, 0⟩
  have among : ∀ q ∈ info.objects, q ∈ (List.range 24).map new.loaded := by
    intro q member
    rw [SbInfo.objects, List.reduceOption_append, List.reduceOption_append] at member
    rcases List.mem_append.mp member with arrays | blocks
    · rcases List.mem_append.mp arrays with descs | inodes
      · exact stored_among size (by decide) descs
      · exact stored_among size (by decide) inodes
    · exact stored_among size (by decide) blocks
  have outside : new.sb ∉ info.objects ++ [new.info] := by
    intro member
    apply (List.nodup_cons.mp distinct).1
    rcases List.mem_append.mp member with first | last
    · exact List.mem_cons_of_mem _ (among _ first)
    · rw [List.mem_singleton.mp last]
      exact List.mem_cons_self
  let s : State := setSb ⟨some new.sb, fun _ => SuperBlock.zero, fun _ => SbInfo.zero,
    [new.sb]⟩ new.sb SuperBlock.zero
  let t : State := setInfo { s with alive := info.objects ++ [new.info, new.sb] } new.info info
  let v : SuperBlock := ⟨sb.sBlocksize.toNat, ext2SuperMagic, 1, some new.root, none, some new.info⟩
  have ran : sget c new start.state = some (setSb t new.sb v, some new.sb) := by
    simp [sget, inUse, start, ext2FillSuper, filled, root, setSb, setInfo,
      SuperBlock.zero, s, t, v, info]
  refine ⟨⟨setSb t new.sb v, Function.update start.gets new.sb 1,
    Function.update start.puts new.sb 0⟩, ?_, ?_⟩
  · have new' : new.sb ∉ start.state.alive := by simp [start]
    simp only [step, ran, Option.bind_eq_bind, Option.bind_some, if_neg new', Option.pure_def]
  · refine ⟨rfl, by simp [setSb, t, setInfo], ?_, by simp [setSb, v], by simp [setSb, v],
      ⟨new.root, by simp [setSb, v]⟩,
      by simp, by simp, ?_⟩
    · have erased : (info.objects ++ [new.info, new.sb]).erase new.sb =
          info.objects ++ [new.info] := by
        have split : info.objects ++ [new.info, new.sb] =
          (info.objects ++ [new.info]) ++ [new.sb] := by simp
        rw [split, List.erase_append_right _ outside]
        simp
      change new.sb ∉ (info.objects ++ [new.info, new.sb]).erase new.sb
      rwa [erased]
    · intro q got
      by_contra other
      simp [start, other] at got

theorem step_unloadable (other : ¬ Loadable c) (new : Fresh) {ret : Option Nat}
    (ran : step c start (.sget new) = some (y, ret)) : ¬ Answers c start y ret (.sget new) := by
  by_cases magic : c.image.magic = ext2SuperMagic
  · have fails : ext2FillSuper c new (setSb { start.state with
      bdSb := some new.sb, alive := [new.sb] } new.sb
        SuperBlock.zero) new.sb = none := by
      rw [loadable_iff magic] at other
      unfold ext2FillSuper
      split
      · rfl
      · next blank => exact absurd blank (ext2FillSuper_found magic)
      · next sb filled =>
        have missing : Ext2.ext2ReadIno c.disk sb 2 = none := by
          by_contra there
          exact other ⟨sb, filled, Option.ne_none_iff_exists'.mp there⟩
        simp only [missing, Option.bind_eq_bind, Option.bind_none]
    have stuck : sget c new start.state = none := by
      simp only [sget, inUse, start, Option.bind_eq_bind, Option.bind_some, Bool.false_eq_true,
        if_false] at fails ⊢
      rw [fails, Option.bind_none]
    simp [step, stuck] at ran
  · have got : sget c new start.state ≠ none ∧ ∀ s r, sget c new start.state = some (s, r) →
        r = some new.sb := by
      simp [sget, inUse, start, ext2FillSuper, ext2FillSuper_blank magic]
    intro answers
    rw [Answers, if_pos magic] at answers
    obtain ⟨⟨s, r⟩, here⟩ := Option.ne_none_iff_exists'.mp got.1
    obtain rfl := got.2 s r here
    have new' : new.sb ∉ start.state.alive := by simp [start]
    simp only [step, here, Option.bind_eq_bind, Option.bind_some, if_neg new', Option.pure_def,
      Option.some.injEq,
      Prod.mk.injEq] at ran
    rw [← ran.2] at answers
    exact absurd answers.1 (by simp)

theorem held_correct_iff (magic : c.image.magic = ext2SuperMagic) (held : Held x p)
    {rs : List Request}
    (legal : LegalRun c x rs) : Correct c x rs ↔ ∀ q, Request.sput q ∉ rs := by
  induction rs generalizing x with
  | nil => simp [Correct]
  | cons r rs ih =>
    obtain ⟨ok, later⟩ := legal
    cases r with
    | sget new =>
      obtain ⟨y, ran, held', same⟩ := sget_held (c := c) held new
      have rest := ih held' (later y _ ran)
      have answers : Answers c x y (some p) (.sget new) := by
        rw [Answers, if_neg (by simpa using magic)]
        exact ⟨by simp, fun q got _ => by rw [held.alone q got]⟩
      constructor
      · rintro ⟨y', ret, ran', -, -, correct⟩ q member
        rw [ran, Option.some.injEq, Prod.mk.injEq] at ran'
        obtain ⟨rfl, -⟩ := ran'
        exact rest.mp correct q (by simpa using member)
      · intro none'
        exact ⟨y, some p, ran, answers, held'.proper,
          rest.mpr fun q member => none' q (List.mem_cons_of_mem _ member)⟩
    | sput q =>
      have counted : x.puts q < x.gets q := ok
      obtain rfl : q = p := held.alone q (by omega)
      obtain ⟨y, ran, gets, gone, device⟩ := sput_held (c := c) held
      constructor
      · rintro ⟨y', ret, ran', -, proper, -⟩
        rw [ran, Option.some.injEq, Prod.mk.injEq] at ran'
        obtain ⟨rfl, -⟩ := ran'
        exact absurd device (proper.freed q (by rw [gets]; exact held.got) gone).1
      · intro none'
        exact absurd List.mem_cons_self (none' q)

end Steps

/-- A run of `sget` and `sput` on a device treats its superblocks as it should exactly when
    nothing is put, and nothing is got unless the device has an ext2 volume that fits. -/
theorem superblock_lifetime_iff (c : Device) (rs : List Request) (legal : LegalRun c start rs) :
    Correct c start rs ↔ (∀ p, Request.sput p ∉ rs) ∧
    ((∃ new, Request.sget new ∈ rs) → Loadable c) := by
  cases rs with
  | nil => simp [Correct]
  | cons r rs =>
    obtain ⟨ok, later⟩ := legal
    cases r with
    | sput p =>
      have counted : (0 : Nat) < 0 := ok
      omega
    | sget new =>
      by_cases loadable : Loadable c
      · obtain ⟨y, ran, held⟩ := sget_start loadable ok
        have rest := held_correct_iff loadable.magic held (later y _ ran)
        constructor
        · rintro ⟨y', ret, ran', -, -, correct⟩
          rw [ran, Option.some.injEq, Prod.mk.injEq] at ran'
          obtain ⟨rfl, -⟩ := ran'
          refine ⟨fun q member => rest.mp correct q (by simpa using member), fun _ => loadable⟩
        · rintro ⟨none', -⟩
          refine ⟨y, some new.sb, ran, ?_, held.proper,
            rest.mpr fun q member => none' q (List.mem_cons_of_mem _ member)⟩
          rw [Answers, if_neg (by simpa using loadable.magic)]
          exact ⟨by simp, fun q got => absurd got (by simp [start])⟩
      · constructor
        · rintro ⟨y, ret, ran, answers, -⟩
          exact absurd answers (step_unloadable loadable new ran)
        · rintro ⟨-, condition⟩
          exact absurd (condition ⟨new, List.mem_cons_self⟩) loadable

def smallVolume : Device := ⟨Ext2.smallImage 15, 0⟩
def blankDevice : Device := ⟨Ext2.zeroed, 0⟩

def someFresh : Fresh := ⟨1, 2, fun i => i + 3, 100⟩

theorem smallVolume_image :
    smallVolume.image = ⟨15, 64, 1, 0, 8192, 16, 0xef53, 128⟩ := by decide +kernel

theorem smallVolume_loadable : Loadable smallVolume := by
  refine ⟨?_, ?_, ?_, ?_, ?_, ?_⟩
  all_goals rw [smallVolume_image]; decide

theorem someFresh_legal : Legal start (.sget someFresh) := by
  constructor
  · simp [start]
  · decide

theorem superblock_of_small_volume : Correct smallVolume start [.sget someFresh] :=
  (superblock_lifetime_iff smallVolume [.sget someFresh] ⟨someFresh_legal,
    fun _ _ _ => trivial⟩).mpr
    ⟨by simp, fun _ => smallVolume_loadable⟩

/-- Mounting and unmounting leaves `bd_sb` at the freed superblock with what it loaded, and a
    device without ext2 gets a superblock all the same. -/
theorem superblock_left_behind :
    (LegalRun smallVolume start [.sget someFresh, .sput 1] ∧
    ¬ Correct smallVolume start [.sget someFresh, .sput 1]) ∧
    LegalRun blankDevice start [.sget someFresh] ∧
    ¬ Correct blankDevice start [.sget someFresh] := by
  obtain ⟨y, ran, held⟩ := sget_start smallVolume_loadable someFresh_legal
  have legal : LegalRun smallVolume y [.sput 1] := by
    refine ⟨?_, fun _ _ _ => trivial⟩
    have got : 0 < y.gets 1 := held.got
    have kept : y.puts 1 = 0 := held.kept
    simp only [Legal]
    omega
  refine ⟨⟨⟨someFresh_legal, ?_⟩, ?_⟩, ⟨someFresh_legal, fun _ _ _ => trivial⟩, ?_⟩
  · intro y' ret ran'
    rw [ran, Option.some.injEq, Prod.mk.injEq] at ran'
    obtain ⟨rfl, -⟩ := ran'
    exact legal
  · rintro ⟨y', ret, ran', -, -, correct⟩
    rw [ran, Option.some.injEq, Prod.mk.injEq] at ran'
    obtain ⟨rfl, -⟩ := ran'
    exact (held_correct_iff smallVolume_loadable.magic held legal).mp correct 1 List.mem_cons_self
  · rintro ⟨y', ret, ran', answers, -⟩
    refine step_unloadable ?_ someFresh ran' answers
    intro loadable
    exact absurd loadable.magic (by decide +kernel)

end SuperLifetime
