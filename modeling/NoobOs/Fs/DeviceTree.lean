import NoobOs.Fs.CounterWrap
import NoobOs.Fs.SystemCalls
import NoobOs.Lib.LinkedChain

/-!
The device file system of `dev.c`: the directory of at most 16 entries, the table of
character devices, the list of block devices, and the inode cache they are fetched
through. Device structures are static, so zeroed at first, and named by their addresses; 0
is the null pointer. `none` is a store or a read outside an array, a null pointer
followed, or a walk that does not end.
-/
namespace DeviceTree
open Strings LinkedChain Runs
open InodeCache (Inode Image ReadInode ilru scanFuel newNode key)
open FileCalls (mkdev major minor isBlk isChr devOps)
open Vfs (noIno bare InOrder OneEach)

def maxMaj : Nat := 10
def maxMin : Nat := 5
def nameMax : Nat := 32
def dirMax : Nat := 16

structure DirEntry where
  name : Str
  used : Bool
  node : Option Image

structure DirData where
  entry : List DirEntry
  count : Nat

structure DevFs where
  chrdevTab : Nat → Nat → Option Nat
  root : DirData
  nextDev : Nat
  devt : Nat → Nat
  next : Nat → Nat

def devBlkDev : Nat := 1

/-- The superblock of the file system, by its address. -/
def devblock : Nat := 0

def dirAdd (dir : DirData) (name : Str) (n : Image) : Option DirData := do
  let i ← dir.entry.findIdx? fun e => !e.used
  if name.length < nameMax then return ⟨dir.entry.set i ⟨name, true, some n⟩, dir.count + 1⟩
  else none

def lookupFrom (name : Str) : List DirEntry → Option Nat
  | [] => some noIno
  | e :: es => if strcmp name e.name = 0 then e.node.map fun n => n.node.ino else lookupFrom name es

def lookupDev (pdata : Option DirData) (name : Str) : Option Nat :=
  match pdata with
  | none => some noIno
  | some data => lookupFrom name (data.entry.take data.count)

def registerDev (d : DevFs) (maj min dev : Nat) : Option (DevFs × Int) :=
  if maj < maxMaj ∧ min < maxMin then
    if d.chrdevTab maj min ≠ none then some (d, -1)
    else some ({ d with
      chrdevTab :=
      Function.update d.chrdevTab maj (Function.update (d.chrdevTab maj) min (some dev)) }, 0)
  else none

/-- The inode both kinds of node get; the other fields are as `malloc` returns them. -/
def deviceNode (mode ino rdev : Nat) : Image where
  node := { Inode.zero with
    mode := mode, ino := ino, sb := some devblock, fops := some devOps, refs := 1, rdev := rdev }
  hnext := none
  pprev := none
  next := none
  prev := none

def enter (d : DevFs) (mode : Nat) (name : Str) (dev maj min : Nat) : Option DevFs := do
  let root ← dirAdd d.root name (deviceNode mode d.nextDev (mkdev maj min))
  return { d with
    root := root, nextDev := d.nextDev + 1, devt := Function.update d.devt dev (mkdev maj min) }

/-- The result of `register_dev` is ignored. -/
def creatDevfs (d : DevFs) (name : Str) (dev maj min : Nat) : Option DevFs := do
  let (d, _) ← registerDev d maj min dev
  enter d 0o020666 name dev maj min

def lastDev (next : Nat → Nat) : Nat → Nat → Option Nat
  | 0, _ => none
  | fuel + 1, d => if next d = 0 then some d else lastDev next fuel (next d)

def creatBlockdev (d : DevFs) (name : Str) (dev maj min : Nat) : Option DevFs := do
  let last ← lastDev d.next scanFuel devBlkDev
  enter { d with next := Function.update d.next last dev } 0o060666 name dev maj min

def devblkFrom (d : DevFs) (dev : Nat) : Nat → Nat → Option (Option Nat)
  | 0, _ => none
  | fuel + 1, p =>
    if d.next p = 0 then some none
    else if d.devt (d.next p) = dev then some (some (d.next p))
    else devblkFrom d dev fuel (d.next p)

def deviceGetDevblk (d : DevFs) (dev : Nat) : Option (Option Nat) :=
  devblkFrom d dev scanFuel devBlkDev

def getdev (d : DevFs) (n : Inode) : Option (Option Nat) :=
  if isBlk n.mode then deviceGetDevblk d n.rdev
  else if major n.rdev < maxMaj ∧ minor n.rdev < maxMin then
    some (d.chrdevTab (major n.rdev) (minor n.rdev))
  else none

def devnode : Image where
  node := { Inode.zero with
    mode := 0o040766, sb := some devblock, ops := some devOps, fops := some devOps, refs := 1 }
  hnext := none
  pprev := none
  next := none
  prev := none

/-- `dev_inoder` with the entries as they stand. -/
def devInoder (d : DevFs) : ReadInode := .dev devnode (d.root.entry.map DirEntry.node)

def blankEntry : DirEntry := ⟨[], false, none⟩

def blankDevFs : DevFs where
  chrdevTab _ _ := none
  root := ⟨List.replicate dirMax blankEntry, 0⟩
  nextDev := 1
  devt _ := 0
  next _ := 0

def nulldev : Nat := 2
def zerodev : Nat := 3
def randdev : Nat := 4

inductive Kind where
  | chr
  | blk
  deriving DecidableEq

structure Creation where
  kind : Kind
  name : Str
  dev : Nat
  maj : Nat
  min : Nat
  deriving DecidableEq

def create (d : DevFs) (c : Creation) : Option DevFs :=
  match c.kind with
  | .chr => creatDevfs d c.name c.dev c.maj c.min
  | .blk => creatBlockdev d c.name c.dev c.maj c.min

def initCalls : List Creation :=
  [⟨.chr, [0x6e, 0x75, 0x6c, 0x6c], nulldev, 1, 1⟩, ⟨.chr, [0x7a, 0x65, 0x72, 0x6f], zerodev, 1, 2⟩,
    ⟨.chr, [0x72, 0x61, 0x6e, 0x64, 0x6f, 0x6d], randdev, 1, 3⟩]

def initDevs : Option DevFs := initCalls.foldlM create blankDevFs

/-! ## Device numbers -/

theorem mkdev_eq {maj : Nat} (low : maj < 4096) (min : Nat) :
    mkdev maj min = (min / 256) * 2 ^ 20 + (maj * 2 ^ 8 + min % 256) := by
  have name : maj &&& 0xfff = maj := by
    have := Nat.and_two_pow_sub_one_eq_mod maj 12
    rw [Nat.mod_eq_of_lt low] at this
    exact this
  have rest : min &&& 0xff = min % 256 := Nat.and_two_pow_sub_one_eq_mod min 8
  have small : min % 256 < 2 ^ 8 := Nat.mod_lt _ (by decide)
  have inner : maj <<< 8 ||| min % 256 = maj * 2 ^ 8 + min % 256 := by
    rw [← Nat.shiftLeft_add_eq_or_of_lt small, Nat.shiftLeft_eq]
  have high : (min / 0x100 * 0x100) <<< 12 = (min / 256) <<< 20 := by
    rw [Nat.shiftLeft_eq, Nat.shiftLeft_eq]
    omega
  have fits : maj * 2 ^ 8 + min % 256 < 2 ^ 20 := by omega
  unfold mkdev
  rw [name, rest, inner, high, Nat.or_comm, ← Nat.shiftLeft_add_eq_or_of_lt fits, Nat.shiftLeft_eq]

theorem mkdev_injective {maj min maj' min' : Nat} (low : maj < 4096) (low' : maj' < 4096)
    (same : mkdev maj min = mkdev maj' min') : maj = maj' ∧ min = min' := by
  rw [mkdev_eq low, mkdev_eq low'] at same
  omega

theorem major_mkdev {maj min : Nat} (low : maj < 4096) (small : min < 256) :
    major (mkdev maj min) = maj := by
  have mask := Nat.and_two_pow_sub_one_eq_mod (mkdev maj min >>> 8) 12
  rw [major, show (0xfff : Nat) = 2 ^ 12 - 1 from rfl, mask,
    Nat.shiftRight_eq_div_pow, mkdev_eq low]
  omega

theorem high_bits : ∀ x < 256, x &&& 0xfff00 = 0 := by
  decide +kernel

theorem minor_mkdev {maj min : Nat} (low : maj < 4096) (small : min < 256) :
    minor (mkdev maj min) = min := by
  have mask : mkdev maj min &&& 0xff = mkdev maj min % 256 := Nat.and_two_pow_sub_one_eq_mod _ 8
  have value := mkdev_eq low min
  have high : mkdev maj min >>> 12 &&& 0xfff00 = 0 := by
    apply high_bits
    rw [Nat.shiftRight_eq_div_pow]
    omega
  rw [minor, mask, high, Nat.or_zero]
  omega

/-! ## What the registries stand for -/

def Kind.mode : Kind → Nat
  | .chr => 0o020666
  | .blk => 0o060666

/-- The creations a caller may make: few, apart from each other, and in range. -/
structure Listed (made : List Creation) : Prop where
  few : made.length ≤ dirMax
  names : (made.map Creation.name).Nodup
  name : ∀ c ∈ made, c.name.length < nameMax ∧ 0 ∉ c.name
  numbers : ∀ c ∈ made, ∀ c' ∈ made, c.kind = c'.kind → c.maj = c'.maj → c.min = c'.min → c = c'
  chr : ∀ c ∈ made, c.kind = .chr → c.maj < maxMaj ∧ c.min < maxMin
  blk : ∀ c ∈ made, c.kind = .blk → c.maj < 4096 ∧ c.min < 2 ^ 16
  devices : (made.map Creation.dev).Nodup
  real : ∀ c ∈ made, c.dev ≠ 0 ∧ c.dev ≠ devBlkDev

def blkDevs (made : List Creation) : List Nat :=
  (made.filter fun c => c.kind = .blk).map Creation.dev

def entryOf (c : Creation) (ino : Nat) : DirEntry :=
  ⟨c.name, true, some (deviceNode c.kind.mode ino (mkdev c.maj c.min))⟩

def entries (made : List Creation) : List DirEntry := made.mapIdx fun i c => entryOf c (i + 1)

structure Holds (d : DevFs) (made : List Creation) : Prop where
  entry : d.root.entry = entries made ++ List.replicate (dirMax - made.length) blankEntry
  count : d.root.count = made.length
  nextDev : d.nextDev = made.length + 1
  chr : ∀ c ∈ made, c.kind = .chr → d.chrdevTab c.maj c.min = some c.dev
  empty : ∀ maj min, d.chrdevTab maj min ≠ none → ∃ c ∈ made, c.kind = .chr ∧
    c.maj = maj ∧ c.min = min
  chain : Chain d.next (d.next devBlkDev) (blkDevs made)
  ends : ∀ p, p ≠ devBlkDev → p ∉ blkDevs made → d.next p = 0
  devt : ∀ c ∈ made, d.devt c.dev = mkdev c.maj c.min

theorem blank_holds : Holds blankDevFs [] := by
  refine ⟨rfl, rfl, rfl, ?_, ?_, Chain.nil, fun _ _ _ => rfl, ?_⟩
  · simp
  · simp [blankDevFs]
  · simp

section Create
variable {d d' : DevFs} {made : List Creation} {c : Creation}

theorem entries_length (made : List Creation) : (entries made).length = made.length := by
  simp [entries]

theorem entries_used {made : List Creation} {e : DirEntry} (member : e ∈ entries made) :
    e.used = true := by
  obtain ⟨i, inside, rfl⟩ := List.mem_mapIdx.mp member
  rfl

theorem entries_snoc (made : List Creation) (c : Creation) :
    entries (made ++ [c]) = entries made ++ [entryOf c (made.length + 1)] := by
  simp [entries]

theorem dirAdd_entries (room : made.length < dirMax) (short : c.name.length < nameMax) :
    dirAdd ⟨entries made ++ List.replicate (dirMax - made.length) blankEntry, made.length⟩ c.name
        (deviceNode c.kind.mode (made.length + 1) (mkdev c.maj c.min)) =
      some ⟨entries (made ++ [c]) ++ List.replicate (dirMax - (made ++ [c]).length) blankEntry,
      made.length + 1⟩ := by
  obtain ⟨k, left⟩ : ∃ k, dirMax - made.length = k + 1 := ⟨dirMax - made.length - 1, by omega⟩
  have left' : dirMax - (made ++ [c]).length = k := by
    simp only [List.length_append, List.length_singleton]
    omega
  have place : (entries made ++ blankEntry :: List.replicate k blankEntry).findIdx?
      (fun e => !e.used) = some made.length := by
    rw [List.findIdx?_append]
    have none' : (entries made).findIdx? (fun e => !e.used) = none := by
      rw [List.findIdx?_eq_none_iff]
      intro e member
      simp [entries_used member]
    simp [none', List.findIdx?_cons, blankEntry, entries_length]
  rw [left, left', List.replicate_succ, entries_snoc]
  simp only [dirAdd, place, Option.bind_eq_bind, Option.bind_some, if_pos short, Option.pure_def]
  have stored : (entries made ++ blankEntry :: List.replicate k blankEntry).set made.length
      (entryOf c (made.length + 1)) = entries made ++ [entryOf c (made.length + 1)] ++
          List.replicate k blankEntry := by
    rw [← entries_length made, List.set_append_right _ _ (Nat.le_refl _)]
    simp
  rw [← stored]
  rfl

theorem lastDev_append {next : Nat → Nat} {dev : Nat} {xs : List Nat} {p : Nat}
    (chain : Chain next (next p) xs)
    (fresh : dev ≠ 0) (loose : next dev = 0) (apart : dev ∉ p :: xs)
    (single : (p :: xs).Nodup) {fuel : Nat}
    (enough : xs.length < fuel) :
    ∃ last ∈ p :: xs, lastDev next fuel p = some last ∧
      Chain (Function.update next last dev) (Function.update next last dev p) (xs ++ [dev]) := by
  obtain ⟨fuel, rfl⟩ : ∃ n, fuel = n + 1 := ⟨fuel - 1, by omega⟩
  induction xs generalizing p fuel with
  | nil =>
    have ending : next p = 0 := (chain_null_iff chain).mpr rfl
    have other : dev ≠ p := fun same => apart (by simp [same])
    refine ⟨p, List.mem_cons_self, by simp [lastDev, ending], ?_⟩
    rw [Function.update_self]
    refine Chain.cons fresh ?_
    rw [Function.update_of_ne other, loose]
    exact Chain.nil
  | cons y ys ih =>
    obtain ⟨here, real, rest⟩ := chain_uncons chain
    obtain ⟨outside, single'⟩ := List.nodup_cons.mp single
    simp only [List.length_cons] at enough
    obtain ⟨fuel, rfl⟩ : ∃ n, fuel = n + 1 := ⟨fuel - 1, by omega⟩
    obtain ⟨last, member, walked, chain'⟩ :=
      ih rest (fun inside => apart (List.mem_cons_of_mem _ inside)) single' fuel (by omega)
    refine ⟨last, List.mem_cons_of_mem _ member, ?_, ?_⟩
    · rw [lastDev, here, if_neg real, walked]
    · have other : p ≠ last := fun same => outside (same ▸ member)
      rw [Function.update_of_ne other, here]
      exact Chain.cons real chain'

theorem devblkFrom_chain {xs : List Nat} {p fuel : Nat} (chain : Chain d.next (d.next p) xs)
    (enough : xs.length < fuel)
    (dev : Nat) : devblkFrom d dev fuel p = some (xs.find? fun q => d.devt q = dev) := by
  obtain ⟨fuel, rfl⟩ : ∃ n, fuel = n + 1 := ⟨fuel - 1, by omega⟩
  induction xs generalizing p fuel with
  | nil => simp [devblkFrom, (chain_null_iff chain).mpr rfl]
  | cons y ys ih =>
    obtain ⟨here, real, rest⟩ := chain_uncons chain
    simp only [List.length_cons] at enough
    obtain ⟨fuel, rfl⟩ : ∃ n, fuel = n + 1 := ⟨fuel - 1, by omega⟩
    rw [devblkFrom, here, if_neg real, List.find?_cons]
    by_cases same : d.devt y = dev
    · simp [same]
    · simp [same, ih rest fuel (by omega)]

theorem mem_blkDevs {dev : Nat} : dev ∈ blkDevs made ↔ ∃ c ∈ made, c.kind = .blk ∧ c.dev = dev := by
  simp [blkDevs, and_assoc]

theorem blkDevs_snoc (made : List Creation) (c : Creation) :
    blkDevs (made ++ [c]) = blkDevs made ++ if c.kind = .blk then [c.dev] else [] := by
  by_cases block : c.kind = .blk
  · simp [blkDevs, block]
  · simp [blkDevs, block]

theorem Listed.short (listed : Listed made) : (blkDevs made).length < scanFuel := by
  have few := listed.few
  have fewer := List.length_filter_le (fun c : Creation => decide (c.kind = .blk)) made
  simp only [dirMax] at few
  simp only [blkDevs, List.length_map, scanFuel]
  omega

theorem Listed.front {cs : List Creation} (listed : Listed (made ++ cs)) : Listed made := by
  have inside : ∀ a ∈ made, a ∈ made ++ cs := fun a member => List.mem_append_left _ member
  refine ⟨?_, ?_, fun a ma => listed.name a (inside a ma),
    fun a ma b mb => listed.numbers a (inside a ma) b (inside b mb), fun a ma =>
      listed.chr a (inside a ma),
    fun a ma => listed.blk a (inside a ma), ?_, fun a ma => listed.real a (inside a ma)⟩
  · have := listed.few
    rw [List.length_append] at this
    omega
  · have := listed.names
    rw [List.map_append] at this
    exact this.of_append_left
  · have := listed.devices
    rw [List.map_append] at this
    exact this.of_append_left

theorem Listed.fresh (listed : Listed (made ++ [c])) {a : Creation} (member : a ∈ made) :
    a.dev ≠ c.dev := by
  have apart := listed.devices
  rw [List.map_append, List.nodup_append] at apart
  exact apart.2.2 a.dev (List.mem_map_of_mem member) c.dev (by simp)

theorem enter_holds (holds : Holds d made) (listed : Listed (made ++ [c]))
    (tab : Nat → Nat → Option Nat)
    (next : Nat → Nat)
    (chr : ∀ a ∈ made ++ [c], a.kind = .chr → tab a.maj a.min = some a.dev)
    (empty : ∀ maj min, tab maj min ≠ none → ∃ a ∈ made ++ [c], a.kind = .chr ∧
    a.maj = maj ∧ a.min = min)
    (chain : Chain next (next devBlkDev) (blkDevs (made ++ [c])))
    (ends : ∀ p, p ≠ devBlkDev → p ∉ blkDevs (made ++ [c]) → next p = 0) :
    ∃ d', enter { d with chrdevTab := tab, next := next } c.kind.mode c.name c.dev c.maj c.min =
    some d' ∧
      Holds d' (made ++ [c]) := by
  have few := listed.few
  simp only [List.length_append, List.length_singleton] at few
  have added := dirAdd_entries (c := c) (show made.length < dirMax by omega)
    (listed.name c (by simp)).1
  have root : d.root = ⟨entries made ++ List.replicate (dirMax - made.length) blankEntry,
      made.length⟩ := by
    rw [← holds.entry, ← holds.count]
  have entered : enter { d with
    chrdevTab := tab, next := next } c.kind.mode c.name c.dev c.maj c.min =
      some ⟨tab, ⟨entries (made ++ [c]) ++
        List.replicate (dirMax - (made ++ [c]).length) blankEntry, made.length + 1⟩,
        made.length + 1 + 1, Function.update d.devt c.dev (mkdev c.maj c.min), next⟩ := by
    simp only [enter, root, holds.nextDev, added, Option.bind_eq_bind, Option.bind_some,
      Option.pure_def]
  refine ⟨_, entered, rfl, by simp, by simp, chr, empty, chain, ends, ?_⟩
  intro a member
  simp only
  rcases List.mem_append.mp member with old | new
  · rw [Function.update_of_ne (listed.fresh old)]
    exact holds.devt a old
  · rw [List.mem_singleton.mp new, Function.update_self]

theorem creatDevfs_holds (holds : Holds d made) (listed : Listed (made ++ [c]))
    (kind : c.kind = .chr) :
    ∃ d', creatDevfs d c.name c.dev c.maj c.min = some d' ∧ Holds d' (made ++ [c]) := by
  have range := listed.chr c (by simp) kind
  have same : blkDevs (made ++ [c]) = blkDevs made := by simp [blkDevs_snoc, kind]
  -- an earlier device under the same number would have been the same creation
  have free : d.chrdevTab c.maj c.min = none := by
    by_contra taken
    obtain ⟨a, member, sort, maj, min⟩ := holds.empty _ _ taken
    have one := listed.numbers a (by simp [member]) c (by simp) (sort.trans kind.symm) maj min
    exact listed.fresh member (by rw [one])
  obtain ⟨d', entered, holds'⟩ := enter_holds holds listed
    (Function.update d.chrdevTab c.maj (Function.update (d.chrdevTab c.maj) c.min (some c.dev)))
      d.next
    (by
      intro a member sort
      by_cases number : a.maj = c.maj ∧ a.min = c.min
      · have one := listed.numbers a member c (by simp) (sort.trans kind.symm) number.1 number.2
        simp [one]
      · have old : a ∈ made := by
          rcases List.mem_append.mp member with old | new
          · exact old
          · exact absurd (by simp [List.mem_singleton.mp new]) number
        have before := holds.chr a old sort
        by_cases row : a.maj = c.maj
        · have column : a.min ≠ c.min := fun column => number ⟨row, column⟩
          rw [row] at before ⊢
          simp [column, before]
        · simp [row, before])
    (by
      intro maj min taken
      by_cases number : maj = c.maj ∧ min = c.min
      · exact ⟨c, by simp, kind, number.1.symm, number.2.symm⟩
      · have before : d.chrdevTab maj min ≠ none := by
          by_cases row : maj = c.maj
          · have column : min ≠ c.min := fun column => number ⟨row, column⟩
            rw [row] at taken ⊢
            simpa [column] using taken
          · simpa [row] using taken
        obtain ⟨a, member, rest⟩ := holds.empty maj min before
        exact ⟨a, by simp [member], rest⟩)
    (same ▸ holds.chain) (same ▸ holds.ends)
  refine ⟨d', ?_, holds'⟩
  rw [kind] at entered
  simp only [creatDevfs, registerDev, if_pos range, free, ne_eq, not_true_eq_false, if_false,
    Option.bind_eq_bind,
    Option.bind_some]
  exact entered

theorem creatBlockdev_holds (holds : Holds d made) (listed : Listed (made ++ [c]))
    (kind : c.kind = .blk) :
    ∃ d', creatBlockdev d c.name c.dev c.maj c.min = some d' ∧ Holds d' (made ++ [c]) := by
  have extended : blkDevs (made ++ [c]) = blkDevs made ++ [c.dev] := by simp [blkDevs_snoc, kind]
  have real := listed.real c (by simp)
  have outside : c.dev ∉ blkDevs made := by
    intro inside
    obtain ⟨a, member, _, same⟩ := mem_blkDevs.mp inside
    exact listed.fresh member same
  have head : devBlkDev ∉ blkDevs made := by
    intro inside
    obtain ⟨a, member, _, same⟩ := mem_blkDevs.mp inside
    exact (listed.real a (by simp [member])).2 same
  obtain ⟨last, member, walked, chain⟩ := lastDev_append holds.chain real.1
    (holds.ends _ real.2 outside) (by simp [real.2, outside])
    (List.nodup_cons.mpr ⟨head, chain_nodup holds.chain⟩) listed.front.short
  obtain ⟨d', entered, holds'⟩ :=
    enter_holds holds listed d.chrdevTab (Function.update d.next last c.dev)
    (by
      intro a inside sort
      rcases List.mem_append.mp inside with old | new
      · exact holds.chr a old sort
      · rw [List.mem_singleton.mp new, kind] at sort
        exact absurd sort (by decide))
    (by
      intro maj min taken
      obtain ⟨a, inside, rest⟩ := holds.empty maj min taken
      exact ⟨a, by simp [inside], rest⟩)
    (by rwa [extended])
    (by
      intro p apart off
      rw [extended] at off
      simp only [List.mem_append, List.mem_singleton, not_or] at off
      have other : p ≠ last := by
        rintro rfl
        rcases List.mem_cons.mp member with first | later
        · exact apart first
        · exact off.1 later
      rw [Function.update_of_ne other]
      exact holds.ends p apart off.1)
  refine ⟨d', ?_, holds'⟩
  rw [kind] at entered
  simp only [creatBlockdev, walked, Option.bind_eq_bind, Option.bind_some]
  exact entered

theorem create_holds (holds : Holds d made) (listed : Listed (made ++ [c])) :
    ∃ d', create d c = some d' ∧ Holds d' (made ++ [c]) := by
  cases kind : c.kind with
  | chr =>
    obtain ⟨d', ran, holds'⟩ := creatDevfs_holds holds listed kind
    exact ⟨d', by simp [create, kind, ran], holds'⟩
  | blk =>
    obtain ⟨d', ran, holds'⟩ := creatBlockdev_holds holds listed kind
    exact ⟨d', by simp [create, kind, ran], holds'⟩

end Create

/-! ## Reading the registries back -/

section Lookup
variable {d : DevFs} {made : List Creation} {c : Creation}

theorem lookupFrom_created (listed : Listed made) {i : Nat} (here : made[i]? = some c) (k : Nat) :
    lookupFrom c.name (made.mapIdx fun i c => entryOf c (i + k)) = some (i + k) := by
  have ends : ∀ a ∈ made, 0 ∉ a.name := fun a member => (listed.name a member).2
  have apart := listed.names
  clear listed
  induction made generalizing i k with
  | nil => simp at here
  | cons a made ih =>
    rw [List.map_cons, List.nodup_cons] at apart
    rw [List.mapIdx_cons, lookupFrom]
    cases i with
    | zero =>
      obtain rfl : a = c := by simpa using here
      have found : strcmp a.name a.name = 0 :=
        (strcmp_eq_zero (ends a (by simp)) (ends a (by simp))).mpr rfl
      rw [entryOf, if_pos found]
      rfl
    | succ i =>
      have later : made[i]? = some c := by simpa using here
      have member : c ∈ made := List.mem_of_getElem? later
      have other : strcmp c.name a.name ≠ 0 := by
        rw [ne_eq, strcmp_eq_zero (ends c (by simp [member])) (ends a (by simp))]
        intro same
        exact apart.1 (List.mem_map.mpr ⟨c, member, same⟩)
      have rest := ih later (k + 1) (fun b mb => ends b (by simp [mb])) apart.2
      rw [entryOf, if_neg other]
      simpa only [Nat.add_right_comm _ 1 k, Nat.add_assoc, Nat.add_comm 1 k] using rest

theorem lookupFrom_unknown {name : Str} (ends : 0 ∉ name) (listed : Listed made)
    (unknown : ∀ c ∈ made, c.name ≠ name)
    {es : List DirEntry} (named : ∀ e ∈ es, ∃ c ∈ made, e.name = c.name) :
    lookupFrom name es = some noIno := by
  induction es with
  | nil => rfl
  | cons e es ih =>
    obtain ⟨c, member, same⟩ := named e (by simp)
    have other : strcmp name e.name ≠ 0 := by
      rw [same, ne_eq, strcmp_eq_zero ends (listed.name c member).2]
      exact fun equal => unknown c member equal.symm
    rw [lookupFrom, if_neg other]
    exact ih fun e' member' => named e' (by simp [member'])

theorem entries_named {e : DirEntry} (member : e ∈ entries made) : ∃ c ∈ made, e.name = c.name := by
  obtain ⟨i, inside, rfl⟩ := List.mem_mapIdx.mp member
  exact ⟨_, List.getElem_mem inside, rfl⟩

theorem Holds.searched (holds : Holds d made) : d.root.entry.take d.root.count = entries made := by
  rw [holds.entry, holds.count, ← entries_length made]
  exact List.take_left

theorem lookupDev_created (holds : Holds d made) (listed : Listed made) {i : Nat}
    (here : made[i]? = some c) :
    lookupDev (some d.root) c.name = some (i + 1) := by
  rw [lookupDev, holds.searched]
  exact lookupFrom_created listed here 1

theorem lookupDev_unknown (holds : Holds d made) (listed : Listed made) {name : Str}
    (ends : 0 ∉ name)
    (unknown : ∀ c ∈ made, c.name ≠ name) : lookupDev (some d.root) name = some noIno := by
  rw [lookupDev, holds.searched]
  exact lookupFrom_unknown ends listed unknown fun _ => entries_named

theorem find_numbered {i : Nat} (here : made[i]? = some c) (k : Nat) (rest : List (Option Image)) :
    ((made.mapIdx fun i c => (entryOf c (i + k)).node) ++ rest).find?
    (fun e => e.any fun n => n.node.ino = i + k) =
      some (some (deviceNode c.kind.mode (i + k) (mkdev c.maj c.min))) := by
  induction made generalizing i k with
  | nil => simp at here
  | cons a made ih =>
    rw [List.mapIdx_cons, List.cons_append, List.find?_cons]
    cases i with
    | zero =>
      obtain rfl : a = c := by simpa using here
      simp [entryOf, deviceNode]
    | succ i =>
      have later : made[i]? = some c := by simpa using here
      have other : ¬ 0 + k = i + 1 + k := by omega
      have tail := ih later (k + 1)
      simp only [entryOf, Option.any_some, deviceNode, other, decide_false] at tail ⊢
      simpa only [Nat.add_right_comm _ 1 k, Nat.add_assoc, Nat.add_comm 1 k] using tail

theorem newNode_created (holds : Holds d made) {i : Nat} (here : made[i]? = some c)
    (sDev : Nat → Nat)
    {read : Nat → ReadInode} (reads : read devblock = devInoder d) :
    (newNode ⟨sDev, read⟩ devblock (i + 1)).mode = c.kind.mode ∧
      (newNode ⟨sDev, read⟩ devblock (i + 1)).rdev = mkdev c.maj c.min := by
  have nodes : d.root.entry.map DirEntry.node = (made.mapIdx fun i c => (entryOf c (i + 1)).node) ++
      List.replicate (dirMax - made.length) none := by
    rw [holds.entry, List.map_append, List.map_replicate]
    congr 1
    apply List.ext_getElem?
    intro j
    simp [entries, Function.comp_def]
  have found := find_numbered here 1 (List.replicate (dirMax - made.length) none)
  simp only [newNode, reads, devInoder, ReadInode.call, InodeCache.devInoder, Nat.add_one_ne_zero,
    if_false, nodes, found]
  exact ⟨rfl, rfl⟩

theorem Listed.major_low (listed : Listed made) (member : c ∈ made) : c.maj < 4096 := by
  cases kind : c.kind with
  | chr =>
    have := (listed.chr c member kind).1
    simp only [maxMaj] at this
    omega
  | blk => exact (listed.blk c member kind).1

theorem getdev_created (holds : Holds d made) (listed : Listed made) (member : c ∈ made) {n : Inode}
    (mode : n.mode = c.kind.mode) (rdev : n.rdev = mkdev c.maj c.min) :
    getdev d n = some (some c.dev) := by
  cases kind : c.kind with
  | chr =>
    have range := listed.chr c member kind
    simp only [maxMaj, maxMin] at range
    have maj : major n.rdev = c.maj := by rw [rdev, major_mkdev (by omega) (by omega)]
    have min : minor n.rdev = c.min := by rw [rdev, minor_mkdev (by omega) (by omega)]
    have other : isBlk n.mode = false := by
      rw [mode, kind]
      decide
    rw [getdev, other, maj, min, if_neg (by decide), if_pos (listed.chr c member kind),
      holds.chr c member kind]
  | blk =>
    have block : isBlk n.mode = true := by
      rw [mode, kind]
      decide
    rw [getdev, if_pos block, deviceGetDevblk, devblkFrom_chain holds.chain listed.short,
      Option.some.injEq]
    apply InodeCache.find_unique (mem_blkDevs.mpr ⟨c, member, kind, rfl⟩)
    · simp [holds.devt c member, rdev]
    · intro q inside same
      obtain ⟨a, old, sort, rfl⟩ := mem_blkDevs.mp inside
      rw [decide_eq_true_eq, holds.devt a old, rdev] at same
      obtain ⟨maj, min⟩ := mkdev_injective (listed.major_low old) (listed.major_low member) same
      rw [listed.numbers a old c member (sort.trans kind.symm) maj min]

end Lookup

/-! ## Runs of creations and of the inode cache -/

structure Sys where
  dev : DevFs
  cache : InodeCache.State
  made : List Creation

inductive Request where
  | creat (c : Creation)
  | cache (r : InodeCache.Request)

/-- A creation is one more of the list, under a number nobody has fetched yet; a fetch reads
    the inodes of the file system with `dev_inoder`. -/
def Legal (sDev : Nat → Nat) (x : Sys) : Request → Prop
  | .creat c => Listed (x.made ++ [c]) ∧
    ∀ p ∈ x.cache.alive, key sDev (x.cache.cache.inode p) ≠ (some (sDev devblock), x.dev.nextDev)
  | .cache r => Vfs.Allowed x.cache r ∧ ∀ read sb ino new, r = .iget read sb ino new →
    read devblock = devInoder x.dev

def step (sDev : Nat → Nat) (x : Sys) : Request → Option Sys
  | .creat c => (create x.dev c).map fun d => { x with dev := d, made := x.made ++ [c] }
  | .cache r => (InodeCache.step sDev x.cache r).map fun s => { x with cache := s }

def machine (sDev : Nat → Nat) : Machine Sys Request := ⟨Legal sDev, step sDev⟩

def boot : Option Sys := initDevs.map fun d => ⟨d, InodeCache.start, initCalls⟩

structure Inv (sDev : Nat → Nat) (x : Sys) : Prop where
  holds : Holds x.dev x.made
  listed : Listed x.made
  order : InOrder sDev x.cache
  filled : ∀ p ∈ x.cache.alive, ∀ i c, x.made[i]? = some c →
    key sDev (x.cache.cache.inode p) = (some (sDev devblock), i + 1) →
    (x.cache.cache.inode p).mode = c.kind.mode ∧ (x.cache.cache.inode p).rdev = mkdev c.maj c.min

section Steps
variable {sDev : Nat → Nat} {x : Sys}

theorem cache_step {s : InodeCache.State} (order : InOrder sDev s) {r : InodeCache.Request}
    (ok : Vfs.Allowed s r) :
    ∃ t, InodeCache.step sDev s r = some t ∧ InOrder sDev t ∧ ∀ q ∈ t.alive,
      (q ∈ s.alive ∧ key sDev (t.cache.inode q) = key sDev (s.cache.inode q) ∧
        (t.cache.inode q).mode = (s.cache.inode q).mode ∧
        (t.cache.inode q).rdev = (s.cache.inode q).rdev) ∨
      ∃ read sb ino, r = .iget read (some sb) ino q ∧
      bare (t.cache.inode q) = bare (newNode ⟨sDev, read⟩ sb ino) := by
  have same : ∀ {m n : Inode}, bare m = bare n → key sDev m = key sDev n ∧ m.mode = n.mode ∧
      m.rdev = n.rdev :=
    fun bares => ⟨Vfs.key_bare sDev bares, Vfs.eq_of_bare Inode.mode (fun _ => rfl) bares,
      Vfs.eq_of_bare Inode.rdev (fun _ => rfl) bares⟩
  obtain ⟨t, ran, order'⟩ := Vfs.step_order order ok
  refine ⟨t, ran, order', ?_⟩
  cases r with
  | iget read sb ino new =>
    cases sb with
    | none =>
      obtain rfl : s = t := by simpa [InodeCache.step, InodeCache.take, InodeCache.iget] using ran
      exact fun q member => Or.inl ⟨member, rfl, rfl, rfl⟩
    | some sb =>
      obtain ⟨t', p, taken, _, shape⟩ := Vfs.take_order order read sb ino ok.1 ok.2
      obtain rfl : t' = t := by simpa [InodeCache.step, taken] using ran
      rcases shape with ⟨_, _, alive, bares⟩ | ⟨rfl, _, alive, mine, others⟩
      · exact fun q member => Or.inl ⟨alive ▸ member, same (bares q)⟩
      · intro q member
        by_cases here : q = p
        · subst here
          exact Or.inr ⟨read, sb, ino, rfl, mine⟩
        · rw [alive] at member
          rw [others q here]
          exact Or.inl ⟨(List.mem_cons.mp member).resolve_left here, rfl, rfl, rfl⟩
  | iput p =>
    obtain ⟨t', dropped, _, alive, bares⟩ := Vfs.drop_order order ok
    obtain rfl : t' = t := Option.some.inj (dropped.symm.trans ran)
    exact fun q member => Or.inl ⟨alive ▸ member, same (bares q)⟩
  | imount p mnt =>
    obtain rfl := Option.some.inj ran
    intro q member
    refine Or.inl ⟨member, ?_⟩
    by_cases here : q = p
    · subst here
      simp [InodeCache.imount, InodeCache.Cache.setNode, key]
    · simp [InodeCache.imount, InodeCache.Cache.setNode, here]
  | purgeLru =>
    obtain ⟨chains, idle, loose⟩ := order
    obtain ⟨c, purged, content, _⟩ := Vfs.purgeLru_loose loose
    simp only [InodeCache.step, purged, Option.bind_eq_bind, Option.bind_some, Option.pure_def,
      Option.some.injEq] at ran
    subst ran
    intro q member
    rw [content]
    exact Or.inl ⟨(List.mem_filter.mp member).1, rfl, rfl, rfl⟩

theorem step_inv (alone : ∀ sb, sDev sb = sDev devblock → sb = devblock)
    (inv : Inv sDev x) {r : Request}
    (ok : Legal sDev x r) : ∃ y, step sDev x r = some y ∧ Inv sDev y := by
  cases r with
  | creat c =>
    obtain ⟨listed, unfetched⟩ := ok
    obtain ⟨d, created, holds⟩ := create_holds inv.holds listed
    refine ⟨{ x with dev := d, made := x.made ++ [c] }, by rw [step, created, Option.map_some],
      holds, listed,
      inv.order, ?_⟩
    intro p member i a here keyed
    by_cases old : i < x.made.length
    · simp only [List.getElem?_append_left old] at here
      exact inv.filled p member i a here keyed
    · have inside := (List.getElem?_eq_some_iff.mp here).1
      simp only [List.length_append, List.length_singleton] at inside
      obtain rfl : i = x.made.length := by omega
      rw [← inv.holds.nextDev] at keyed
      exact absurd keyed (unfetched p member)
  | cache r =>
    obtain ⟨allowed, reads⟩ := ok
    obtain ⟨s, ran, order, origin⟩ := cache_step inv.order allowed
    refine ⟨{ x with cache := s }, by rw [step, ran, Option.map_some], inv.holds,
      inv.listed, order, ?_⟩
    intro q member i c here keyed
    rcases origin q member with ⟨old, sameKey, mode, rdev⟩ | ⟨read, sb, ino, rfl, filled⟩
    · rw [mode, rdev]
      exact inv.filled q old i c here (sameKey.symm.trans keyed)
    · -- the number is of this file system, so it was read with `dev_inoder`
      have fresh : key sDev (newNode ⟨sDev, read⟩ sb ino) = (some (sDev devblock), i + 1) :=
        (Vfs.key_bare sDev filled).symm.trans keyed
      simp only [key, newNode, Option.map_some, Prod.mk.injEq, Option.some.injEq] at fresh
      obtain rfl := alone sb fresh.1
      obtain rfl := fresh.2
      obtain ⟨mode, rdev⟩ := newNode_created inv.holds here sDev (reads read _ _ _ rfl)
      exact ⟨(Vfs.eq_of_bare Inode.mode (fun _ => rfl) filled).trans mode,
        (Vfs.eq_of_bare Inode.rdev (fun _ => rfl) filled).trans rdev⟩

theorem initCalls_listed : Listed initCalls := by
  refine ⟨by decide, by decide, by decide, by decide, by decide, by decide, by decide, by decide⟩

theorem creations_hold {d : DevFs} {made cs : List Creation} (holds : Holds d made)
    (listed : Listed (made ++ cs)) :
    ∃ d', cs.foldlM create d = some d' ∧ Holds d' (made ++ cs) := by
  induction cs generalizing d made with
  | nil => exact ⟨d, rfl, by simpa using holds⟩
  | cons c cs ih =>
    have split : made ++ c :: cs = made ++ [c] ++ cs := by simp
    rw [split] at listed ⊢
    obtain ⟨d₁, created, holds₁⟩ := create_holds holds (listed.front)
    obtain ⟨d₂, rest, holds₂⟩ := ih holds₁ listed
    exact ⟨d₂, by simp [List.foldlM_cons, created, rest], holds₂⟩

theorem boot_inv (sDev : Nat → Nat) : ∃ b, boot = some b ∧ b.made = initCalls ∧
    b.cache = InodeCache.start ∧ Inv sDev b := by
  obtain ⟨d, made, holds⟩ :=
    creations_hold blank_holds (show Listed ([] ++ initCalls) from initCalls_listed)
  refine ⟨⟨d, InodeCache.start, initCalls⟩, ?_, rfl, rfl, holds, initCalls_listed,
    Vfs.start_order sDev, ?_⟩
  · rw [boot, initDevs, made, Option.map_some]
  · intro p member
    simp [InodeCache.start] at member

theorem kind_of_mode (k : Kind) : (isChr k.mode ↔ k = .chr) ∧ (isBlk k.mode ↔ k = .blk) := by
  cases k <;> decide

theorem fetch_created (alone : ∀ sb, sDev sb = sDev devblock → sb = devblock) (inv : Inv sDev x)
    {i : Nat} {c : Creation}
    (here : x.made[i]? = some c) {read : Nat → ReadInode}
    (reads : read devblock = devInoder x.dev) {new : Nat}
    (fresh : new ∉ x.cache.alive) (place : new ≠ ilru ∧ new < 2 ^ 32) :
    ∃ cache p, InodeCache.iget ⟨sDev, read⟩ x.cache.cache (some devblock) (i + 1) new = some
    (cache, some p) ∧
      (cache.inode p).mode = c.kind.mode ∧ (cache.inode p).rdev = mkdev c.maj c.min := by
  let r : InodeCache.Request := .iget read (some devblock) (i + 1) new
  have ok : Legal sDev x (.cache r) := by
    refine ⟨⟨fresh, place⟩, ?_⟩
    intro read' sb ino new' same
    obtain ⟨rfl, _⟩ := InodeCache.Request.iget.inj same
    exact reads
  obtain ⟨t, p, taken, order, shape⟩ := Vfs.take_order inv.order read devblock (i + 1) fresh place
  obtain ⟨y, ran, inv'⟩ := step_inv alone inv ok
  have reached : step sDev x (.cache r) = some { x with cache := t } := by
    simp [step, r, InodeCache.step, taken]
  obtain rfl := Option.some.inj (ran.symm.trans reached)
  have fetched : InodeCache.iget ⟨sDev, read⟩ x.cache.cache (some devblock) (i + 1) new =
      some (t.cache, some p) := by
    simp only [InodeCache.take, Option.bind_eq_bind, Option.bind_eq_some_iff] at taken
    obtain ⟨⟨cache, found⟩, ran', rest⟩ := taken
    cases found with
    | none => simp at rest
    | some q =>
      by_cases old : q ∈ x.cache.alive
      · simp only [if_pos old, Option.pure_def, Option.some.injEq, Prod.mk.injEq] at rest
        obtain ⟨rfl, rfl⟩ := rest
        exact ran'
      · simp only [if_neg old, Option.pure_def, Option.some.injEq, Prod.mk.injEq] at rest
        obtain ⟨rfl, rfl⟩ := rest
        exact ran'
  refine ⟨t.cache, p, fetched, ?_⟩
  rcases shape with ⟨member, same, alive, bares⟩ | ⟨rfl, _, alive, mine, _⟩
  · exact inv'.filled p (alive ▸ member) i c here ((Vfs.key_bare sDev (bares p)).trans same)
  · exact inv'.filled p (alive ▸ List.mem_cons_self) i c here (Vfs.key_bare sDev mine)

end Steps

/-- In every state reached from `init_devs` by creations and calls of the inode cache, a
    created name leads through `lookup_dev`, `iget` and `getdev` to its own device, and no
    other name is found. -/
theorem device_names_reach_devices (sDev : Nat → Nat)
    (alone : ∀ sb, sDev sb = sDev devblock → sb = devblock) :
    ∃ b, boot = some b ∧ ∀ x, Reach (machine sDev) b x →
      (∀ r, Legal sDev x r → ∃ y, step sDev x r = some y) ∧
      (∀ c ∈ x.made, ∃ ino, lookupDev (some x.dev.root) c.name = some ino ∧ ino ≠ noIno ∧
        ∀ read new, read devblock = devInoder x.dev → new ∉ x.cache.alive →
        new ≠ ilru ∧ new < 2 ^ 32 →
          ∃ cache p, InodeCache.iget ⟨sDev, read⟩ x.cache.cache (some devblock) ino new = some
          (cache, some p) ∧
            getdev x.dev (cache.inode p) = some (some c.dev) ∧
            (cache.inode p).rdev = mkdev c.maj c.min ∧
            (isChr (cache.inode p).mode ↔ c.kind = .chr) ∧
            (isBlk (cache.inode p).mode ↔ c.kind = .blk)) ∧
      ∀ name, 0 ∉ name → (∀ c ∈ x.made, c.name ≠ name) → lookupDev (some x.dev.root) name =
      some noIno := by
  obtain ⟨b, booted, _, _, start⟩ := boot_inv sDev
  refine ⟨b, booted, ?_⟩
  intro x reach
  have inv : Inv sDev x := by
    apply reach_invariant (Inv sDev) start ?_ reach
    intro x r y inv ok ran
    obtain ⟨y', ran', inv'⟩ := step_inv alone inv ok
    obtain rfl := Option.some.inj (ran'.symm.trans ran)
    exact inv'
  refine ⟨?_, ?_, ?_⟩
  · intro r ok
    obtain ⟨y, ran, _⟩ := step_inv alone inv ok
    exact ⟨y, ran⟩
  · intro c member
    obtain ⟨i, inside, here⟩ := List.mem_iff_getElem.mp member
    have here' : x.made[i]? = some c := List.getElem?_eq_some_iff.mpr ⟨inside, here⟩
    have few := inv.listed.few
    refine ⟨i + 1, lookupDev_created inv.holds inv.listed here', ?_, ?_⟩
    · simp only [noIno, dirMax] at few ⊢
      omega
    · intro read new reads fresh place
      obtain ⟨cache, p, fetched, mode, rdev⟩ := fetch_created alone inv here' reads fresh place
      refine ⟨cache, p, fetched, getdev_created inv.holds inv.listed member mode rdev, rdev, ?_⟩
      rw [mode]
      exact kind_of_mode c.kind
  · intro name ends unknown
    exact lookupDev_unknown inv.holds inv.listed ends unknown

theorem device_names_reach_disk : ∃ b x ino cache p, boot = some b ∧
    Reach (machine id) b x ∧ lookupDev (some x.dev.root) [0x73, 0x64, 0x61] = some ino ∧
    InodeCache.iget ⟨id, fun _ => devInoder x.dev⟩ x.cache.cache (some devblock) ino 64 = some
    (cache, some p) ∧
    getdev x.dev (cache.inode p) = some (some 5) := by
  let disk : Creation := ⟨.blk, [0x73, 0x64, 0x61], 5, 8, 0⟩
  obtain ⟨b, booted, made, cache, start⟩ := boot_inv id
  obtain ⟨b', booted', results⟩ := device_names_reach_devices id fun sb same => same
  obtain rfl := Option.some.inj (booted.symm.trans booted')
  have ok : Legal id b (.creat disk) := by
    refine ⟨?_, by simp [cache, InodeCache.start]⟩
    rw [made]
    refine ⟨by decide, by decide, by decide, by decide, by decide, by decide, by decide, by decide⟩
  obtain ⟨x, ran⟩ := (results b ⟨[], Run.nil b⟩).1 _ ok
  have reach : Reach (machine id) b x := ⟨[.creat disk], Run.cons ok ran (Run.nil x)⟩
  have shape : x.made = b.made ++ [disk] ∧ x.cache = b.cache := by
    obtain ⟨d, _, same⟩ := Option.map_eq_some_iff.mp ran
    rw [← same]
    exact ⟨rfl, rfl⟩
  obtain ⟨ino, found, _, fetch⟩ := (results x reach).2.1 disk (by simp [shape.1])
  obtain ⟨cache', p, fetched, device, _⟩ := fetch (fun _ => devInoder x.dev) 64 rfl
    (by simp [shape.2, cache, InodeCache.start]) (by decide)
  exact ⟨b, x, ino, cache', p, booted, reach, found, fetched, device⟩

end DeviceTree
