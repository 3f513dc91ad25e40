import NoobOs.Ext2.ReadIno
import NoobOs.KLib.Strings

/-!
The two scanners of a directory in `ext2.c`, `ext2_lookup` and `ext2_readdir`, and the walk
of `nlsdir` over the records the second one writes. Offsets and counts are 32 bits wide, and
the fuel of a loop is the number of states it can be in, so `none` is a loop that never ends.
-/
namespace Ext2
open ByteMemory Strings

structure Directory where
  sb : SuperBlock
  iBlock : Vector UInt32 15

def Directory.blocks (d : Directory) : List UInt32 := d.iBlock.toList.take 12

structure Direntry where
  ino : Nat
  recLen : Nat
  fileType : UInt8
  name : Str
  deriving DecidableEq

def direntryAt (buf : Mem) (off : Nat) : Direntry where
  ino := load32 buf off
  recLen := load16 buf (off + 4)
  fileType := buf (off + 7)
  name := bytes buf (off + 8) (buf (off + 6)).toNat

def memcmp : List UInt8 → List UInt8 → UInt8
  | c :: cs, d :: ds => if c = d then memcmp cs ds else c - d
  | _, _ => 0

def notFound : Nat := 0xffffffff

def lookupBlock (buf : Mem) (blocksiz : Nat) (name : Str) : Nat → Nat → Option (Option Nat)
  | 0, _ => none
  | fuel + 1, off =>
    if off < blocksiz then
      let ent := direntryAt buf off
      if ent.ino ≠ 0 ∧ ent.name.length = name.length ∧ memcmp ent.name name = 0 then
        some (some ent.ino)
      else lookupBlock buf blocksiz name fuel ((off + ent.recLen) % 2 ^ 32)
    else some none

def lookupBlocks (disk : Mem) (sb : SuperBlock) (name : Str) : List UInt32 → Mem → Option Nat
  | [], _ => some notFound
  | blk :: blks, buf =>
    if blk = 0 then lookupBlocks disk sb name blks buf
    else do
      let buf := ext2Read disk sb blk 1 buf
      match ← lookupBlock buf sb.sBlocksize.toNat name (2 ^ 32) 0 with
      | some ino => return ino
      | none => lookupBlocks disk sb name blks buf

def ext2Lookup (disk : Mem) (d : Directory) (name : Str) : Option Nat :=
  lookupBlocks disk d.sb name d.blocks zeroed

/-- `sizeof(struct nnux_dirent)`, which is 14 bytes before the name and 2 of padding. -/
def direntSize : Nat := 16

def reclen (e : Direntry) : Nat := direntSize + e.name.length + 1

/-- The stores through `cur`, in their order. -/
def putDirent (dirp : Mem) (read : Nat) (e : Direntry) (off : Nat) : Mem :=
  let dirp := store32 dirp read e.ino
  let dirp := store32 dirp (read + 4) off
  let dirp := storeBytes dirp (read + 14) e.name
  let dirp := store8 dirp (read + 13) e.fileType
  store32 dirp (read + 8) (reclen e)

/-- The inner loop of `ext2_readdir`: `read` and the result buffer. -/
def readdirBlock (buf : Mem) (blocksiz count : Nat) : Nat → Nat → Nat → Mem → Option (Nat × Mem)
  | 0, _, _, _ => none
  | fuel + 1, off, read, dirp =>
    if off < blocksiz ∧ read < count then
      let e := direntryAt buf off
      let next := (off + e.recLen) % 2 ^ 32
      if e.ino ≠ 0 then
        readdirBlock buf blocksiz count fuel next ((read + reclen e) % 2 ^ 32)
          (putDirent dirp read e off)
      else readdirBlock buf blocksiz count fuel next read dirp
    else some (read, dirp)

def readdirBlocks (disk : Mem) (sb : SuperBlock) (count : Nat) :
    List UInt32 → Mem → Nat → Mem → Option (Nat × Mem)
  | [], _, read, dirp => some (read, dirp)
  | blk :: blks, buf, read, dirp =>
    if blk = 0 then readdirBlocks disk sb count blks buf read dirp
    else do
      let buf := ext2Read disk sb blk 1 buf
      let (read, dirp) ← readdirBlock buf sb.sBlocksize.toNat count (2 ^ 64) 0 read dirp
      readdirBlocks disk sb count blks buf read dirp

/-- The bytes reported and the buffer at `dirp`. -/
def ext2Readdir (disk : Mem) (d : Directory) (dirp : Mem) (count : UInt32) : Option (Nat × Mem) :=
  readdirBlocks disk d.sb count.toNat d.blocks zeroed 0 dirp

def cstr (m : Mem) : Nat → Nat → Option Str
  | 0, _ => none
  | fuel + 1, a => if m a = 0 then some [] else (cstr m fuel (a + 1)).map (m a :: ·)

def nlsdirWalk (buf : Mem) (nread : Nat) : Nat → Nat → Option (List (Nat × Str))
  | 0, _ => none
  | fuel + 1, off =>
    if off < nread then do
      let name ← cstr buf (2 ^ 32) (off + 14)
      let rest ← nlsdirWalk buf nread fuel ((off + load32 buf (off + 8)) % 2 ^ 32)
      return (load32 buf off, name) :: rest
    else some []

/-! ## Well-formed directories -/

def blockBytes (disk : Mem) (sb : SuperBlock) (blk : UInt32) : Mem := ext2Read disk sb blk 1 zeroed

/-- The chain of entries from an offset on, up to exactly the end of the block. -/
inductive Records (buf : Mem) (blocksiz : Nat) : Nat → List Direntry → Prop where
  | done : Records buf blocksiz blocksiz []
  | entry {off : Nat} {es : List Direntry} (inside : off < blocksiz)
      (room : 8 + (direntryAt buf off).name.length ≤ (direntryAt buf off).recLen)
      (low : (direntryAt buf off).ino < notFound)
      (rest : Records buf blocksiz (off + (direntryAt buf off).recLen) es) :
      Records buf blocksiz off (direntryAt buf off :: es)

/-- The entries of the mapped blocks, one block after another. -/
inductive Listing (disk : Mem) (sb : SuperBlock) : List UInt32 → List Direntry → Prop where
  | nil : Listing disk sb [] []
  | hole {blks : List UInt32} {es : List Direntry} (rest : Listing disk sb blks es) :
    Listing disk sb (0 :: blks) es
  | block {blk : UInt32} {blks : List UInt32} {es es' : List Direntry} (mapped : blk ≠ 0)
      (here : Records (blockBytes disk sb blk) sb.sBlocksize.toNat 0 es)
        (rest : Listing disk sb blks es') :
      Listing disk sb (blk :: blks) (es ++ es')

/-- The first 12 blocks are well formed and hold these entries, deleted ones included. -/
def WellFormed (disk : Mem) (d : Directory) (es : List Direntry) : Prop :=
  Listing disk d.sb d.blocks es

def live (es : List Direntry) : List Direntry := es.filter fun e => e.ino ≠ 0

def named (name : Str) (es : List Direntry) : Option Direntry :=
  (live es).find? fun e => e.name = name

section Scan
variable {disk buf : Mem} {sb : SuperBlock} {name : Str}

theorem ext2Read_again (disk : Mem) (sb : SuperBlock) (blk old : UInt32) :
    ext2Read disk sb blk 1 (blockBytes disk sb old) = blockBytes disk sb blk := by
  funext i
  simp only [blockBytes, ext2Read, bread, ataReadSectors]
  split
  · rfl
  · rfl

theorem memcmp_eq_zero {s d : List UInt8} (same : s.length = d.length) :
    memcmp s d = 0 ↔ s = d := by
  induction s generalizing d with
  | nil =>
    obtain rfl : d = [] := List.length_eq_zero_iff.mp same.symm
    simp [memcmp]
  | cons x xs ih =>
    cases d with
    | nil => simp at same
    | cons y ys =>
      by_cases here : x = y
      · have rest := ih (d := ys) (by simpa using same)
        simp [memcmp, here, rest]
      · simp [memcmp, here, sub_eq_zero]

theorem matched_iff {e : Direntry} :
    (e.ino ≠ 0 ∧ e.name.length = name.length ∧ memcmp e.name name = 0) ↔
    (e.ino ≠ 0 ∧ e.name = name) := by
  constructor
  · rintro ⟨used, same, equal⟩
    exact ⟨used, (memcmp_eq_zero same).mp equal⟩
  · rintro ⟨used, rfl⟩
    exact ⟨used, rfl, (memcmp_eq_zero rfl).mpr rfl⟩

theorem Records.bound {blocksiz off : Nat} {es : List Direntry}
    (records : Records buf blocksiz off es) :
    off + 8 * es.length ≤ blocksiz := by
  induction records with
  | done => simp
  | entry inside room low rest ih =>
    rw [List.length_cons]
    omega

theorem named_cons (e : Direntry) (es : List Direntry) :
    named name (e :: es) = if e.ino ≠ 0 ∧ e.name = name then some e else named name es := by
  by_cases used : e.ino ≠ 0
  · by_cases same : e.name = name
    · simp [named, live, used, same]
    · simp [named, live, used, same]
  · simp [named, live, used]

theorem named_append (es es' : List Direntry) :
    named name (es ++ es') = (named name es).or (named name es') := by
  simp [named, live, List.find?_append]

theorem lookupBlock_records {blocksiz off : Nat} {es : List Direntry}
    (records : Records buf blocksiz off es)
    (word : blocksiz < 2 ^ 32) (name : Str) (fuel : Nat) (enough : es.length < fuel) :
    lookupBlock buf blocksiz name fuel off = some ((named name es).map Direntry.ino) := by
  obtain ⟨fuel, rfl⟩ : ∃ n, fuel = n + 1 := ⟨fuel - 1, by omega⟩
  induction records generalizing fuel with
  | done => simp [lookupBlock, named, live]
  | @entry off es inside room low rest ih =>
    rw [List.length_cons] at enough
    obtain ⟨fuel, rfl⟩ : ∃ n, fuel = n + 1 := ⟨fuel - 1, by omega⟩
    have further := rest.bound
    have unwrapped : (off + (direntryAt buf off).recLen) % 2 ^ 32 =
        off + (direntryAt buf off).recLen :=
      Nat.mod_eq_of_lt (by omega)
    rw [lookupBlock, if_pos inside]
    simp only [matched_iff, named_cons, unwrapped]
    split
    · rfl
    · exact ih fuel (by omega)

theorem lookupBlocks_listing {blks : List UInt32} {es : List Direntry}
    (listing : Listing disk sb blks es)
    (fresh : ∀ blk, ext2Read disk sb blk 1 buf = blockBytes disk sb blk) :
    lookupBlocks disk sb name blks buf = some
    (((named name es).map Direntry.ino).getD notFound) := by
  induction listing generalizing buf with
  | nil => rfl
  | hole rest ih =>
    rw [lookupBlocks, if_pos rfl]
    exact ih fresh
  | @block blk blks es es' mapped here rest ih =>
    have short := here.bound
    have word := sb.sBlocksize.toNat_lt
    have scanned := lookupBlock_records here word name (2 ^ 32) (by omega)
    rw [lookupBlocks, if_neg mapped]
    simp only [fresh, scanned, Option.bind_eq_bind, Option.bind_some, named_append]
    cases named name es with
    | some e => rfl
    | none => exact ih fun blk' => ext2Read_again disk sb blk' blk

theorem ext2Lookup_eq {d : Directory} {es : List Direntry} (wellFormed : WellFormed disk d es) :
    ext2Lookup disk d name = some (((named name es).map Direntry.ino).getD notFound) :=
  lookupBlocks_listing wellFormed fun _ => rfl

end Scan

/-! ## The records written -/

def size (es : List Direntry) : Nat := (es.map reclen).sum

/-- The entries that get a record: another is begun while fewer than `count` bytes are. -/
def listed (count : Nat) : Nat → List Direntry → List Direntry
  | _, [] => []
  | read, e :: es => if read < count then e :: listed count (read + reclen e) es else []

/-- A buffer with the records of these entries from `off` on; the bytes behind each name are
    those the buffer held before. -/
def Encoded (old dirp : Mem) : Nat → List Direntry → Prop
  | _, [] => True
  | off, e :: es => load32 dirp off = e.ino ∧ load32 dirp (off + 8) = reclen e ∧
    bytes dirp (off + 14) e.name.length = e.name ∧
      AgreeOn old dirp (off + 14 + e.name.length) (off + reclen e) ∧
    Encoded old dirp (off + reclen e) es

section Write
variable {disk buf old dirp dirp' : Mem} {sb : SuperBlock} (count : Nat)

theorem size_cons (e : Direntry) (es : List Direntry) : size (e :: es) = reclen e + size es := by
  simp [size]

theorem size_append (es es' : List Direntry) : size (es ++ es') = size es + size es' := by
  simp [size]

theorem listed_full {count read : Nat} (full : count ≤ read) (es : List Direntry) :
    listed count read es = [] := by
  cases es with
  | nil => rfl
  | cons e es => rw [listed, if_neg (by omega)]

theorem listed_append (read : Nat) (es es' : List Direntry) :
    listed count read (es ++ es') =
      listed count read es ++ listed count (read + size (listed count read es)) es' := by
  induction es generalizing read with
  | nil => rfl
  | cons e es ih =>
    by_cases more : read < count
    · simp only [List.cons_append, listed, if_pos more, size_cons, ih, Nat.add_assoc]
    · simp only [List.cons_append, listed, if_neg more, List.nil_append]
      rw [listed_full (by omega) es']

theorem listed_all {count read : Nat} {es : List Direntry} (enough : read + size es ≤ count) :
    listed count read es = es := by
  induction es generalizing read with
  | nil => rfl
  | cons e es ih =>
    rw [size_cons] at enough
    have some' : 0 < reclen e := by simp [reclen]
    rw [listed, if_pos (by omega), ih (by omega)]

theorem size_listed_le (read : Nat) (es : List Direntry) :
    size (listed count read es) ≤ size es := by
  induction es generalizing read with
  | nil => exact Nat.le_refl _
  | cons e es ih =>
    rw [listed]
    split
    · have rest := ih (read + reclen e)
      rw [size_cons, size_cons]
      omega
    · simp [size]

theorem bytes_congr {a n : Nat} (same : AgreeOn dirp dirp' a (a + n)) :
    bytes dirp' a n = bytes dirp a n := by
  apply List.map_congr_left
  intro i member
  have := List.mem_range.mp member
  exact same (a + i) (by omega) (by omega)

theorem Encoded.congr {old' : Mem} {off : Nat} {es : List Direntry}
    (encoded : Encoded old dirp off es)
    (same : AgreeOn dirp dirp' off (off + size es)) (same' : ∀ x, off ≤ x → old' x = old x) :
    Encoded old' dirp' off es := by
  induction es generalizing off with
  | nil => trivial
  | cons e es ih =>
    obtain ⟨ino, len, name, gap, rest⟩ := encoded
    rw [size_cons] at same
    have long : reclen e = 17 + e.name.length := by
      simp only [reclen, direntSize]
      omega
    refine ⟨?_, ?_, ?_, ?_, ?_⟩
    · rw [load32_congr (same.mono (by omega) (by omega)), ino]
    · rw [load32_congr (same.mono (by omega) (by omega)), len]
    · rw [bytes_congr (same.mono (by omega) (by omega)), name]
    · intro x lower upper
      rw [same x (by omega) (by omega), gap x lower upper, same' x (by omega)]
    · exact ih rest (same.mono (by omega) (by omega)) fun x lower => same' x (by omega)

theorem putDirent_other (dirp : Mem) (read : Nat) (e : Direntry) (off : Nat) {x : Nat}
    (outside : x < read ∨ read + 14 + e.name.length ≤ x) :
    putDirent dirp read e off x = dirp x := by
  simp only [putDirent]
  rw [store32_other _ _ (by omega), store8_other _ _ (by omega), storeBytes_other _ _ _ (by omega),
    store32_other _ _ (by omega), store32_other _ _ (by omega)]

theorem putDirent_encoded (dirp : Mem) (read off : Nat) {e : Direntry} (word : e.ino < 2 ^ 32)
    (short : e.name.length < 256) : Encoded dirp (putDirent dirp read e off) read [e] := by
  refine ⟨?_, ?_, ?_, ?_, trivial⟩
  · simp only [putDirent]
    rw [load32_store32_apart _ _ (by omega), load32_store8_apart _ _ (by omega)]
    have kept :
      load32 (storeBytes (store32 (store32 dirp read e.ino) (read + 4) off)
      (read + 14) e.name) read =
        load32 (store32 (store32 dirp read e.ino) (read + 4) off) read :=
      load32_congr fun x lower upper => storeBytes_other _ _ _ (by omega)
    rw [kept, load32_store32_apart _ _ (by omega), load32_store32_same _ _ word]
  · simp only [putDirent]
    apply load32_store32_same
    simp only [reclen, direntSize]
    omega
  · apply List.ext_getElem
    · simp [bytes]
    · intro i inside inside'
      simp only [bytes, List.getElem_map, List.getElem_range, putDirent]
      rw [store32_other _ _ (by omega), store8_other _ _ (by omega), storeBytes_byte _ _ _ inside']
  · intro x lower upper
    exact putDirent_other dirp read e off (by omega)

theorem Encoded.append {off : Nat} {es es' : List Direntry} (first : Encoded old dirp off es)
    (second : Encoded old dirp (off + size es) es') : Encoded old dirp off (es ++ es') := by
  induction es generalizing off with
  | nil => exact second
  | cons e es ih =>
    obtain ⟨ino, len, name, gap, rest⟩ := first
    rw [size_cons, ← Nat.add_assoc] at second
    exact ⟨ino, len, name, gap, ih rest second⟩

/-- The records of these entries are all that was stored. -/
structure Written (old dirp : Mem) (read : Nat) (es : List Direntry) : Prop where
  encoded : Encoded old dirp read es
  before : ∀ x, x < read → dirp x = old x
  behind : ∀ x, read + size es ≤ x → dirp x = old x

theorem Written.nil (dirp : Mem) (read : Nat) : Written dirp dirp read [] :=
  ⟨trivial, fun _ _ => rfl, fun _ _ => rfl⟩

theorem Written.append {read : Nat} {es es' : List Direntry} (first : Written old dirp read es)
    (second : Written dirp dirp' (read + size es) es') : Written old dirp' read (es ++ es') := by
  refine ⟨Encoded.append ?_ ?_, ?_, ?_⟩
  · exact first.encoded.congr (fun x _ upper => second.before x upper) fun _ _ => rfl
  · exact second.encoded.congr (fun _ _ _ => rfl) fun x lower => (first.behind x lower).symm
  · intro x lower
    rw [second.before x (by omega), first.before x lower]
  · intro x upper
    rw [size_append] at upper
    rw [second.behind x (by omega), first.behind x (by omega)]

theorem putDirent_written (dirp : Mem) (read off : Nat) {e : Direntry} (word : e.ino < 2 ^ 32)
    (short : e.name.length < 256) : Written dirp (putDirent dirp read e off) read [e] := by
  refine ⟨putDirent_encoded dirp read off word short, ?_, ?_⟩
  · intro x lower
    exact putDirent_other dirp read e off (by omega)
  · intro x upper
    simp only [size, List.map_cons, List.map_nil, List.sum_cons, List.sum_nil, reclen,
      direntSize] at upper
    exact putDirent_other dirp read e off (by omega)

theorem direntryAt_name (buf : Mem) (off : Nat) : (direntryAt buf off).name.length < 256 := by
  simp only [direntryAt, bytes, List.length_map, List.length_range]
  exact (buf (off + 6)).toNat_lt

theorem live_cons (e : Direntry) (es : List Direntry) :
    live (e :: es) = if e.ino ≠ 0 then e :: live es else live es := by
  simp [live, List.filter_cons]

theorem readdirBlock_records {blocksiz off : Nat} {es : List Direntry}
    (records : Records buf blocksiz off es)
    (word : blocksiz < 2 ^ 32) (read : Nat) (dirp : Mem)
    (fits : read + size (live es) < 2 ^ 32) (fuel : Nat)
    (enough : es.length < fuel) :
    ∃ dirp', readdirBlock buf blocksiz count fuel off read dirp =
        some (read + size (listed count read (live es)), dirp') ∧
      Written dirp dirp' read (listed count read (live es)) := by
  obtain ⟨fuel, rfl⟩ : ∃ n, fuel = n + 1 := ⟨fuel - 1, by omega⟩
  induction records generalizing fuel read dirp with
  | done => exact ⟨dirp, by simp [readdirBlock, live, listed, size], Written.nil dirp read⟩
  | @entry off es inside room low rest ih =>
    rw [List.length_cons] at enough
    obtain ⟨fuel, rfl⟩ : ∃ n, fuel = n + 1 := ⟨fuel - 1, by omega⟩
    by_cases more : read < count
    · have further := rest.bound
      have unwrapped : (off + (direntryAt buf off).recLen) % 2 ^ 32 =
          off + (direntryAt buf off).recLen :=
        Nat.mod_eq_of_lt (by omega)
      rw [live_cons] at fits ⊢
      rw [readdirBlock, if_pos ⟨inside, more⟩]
      by_cases used : (direntryAt buf off).ino ≠ 0
      · rw [if_pos used, size_cons] at fits
        have counted : (read + reclen (direntryAt buf off)) % 2 ^ 32 =
            read + reclen (direntryAt buf off) :=
          Nat.mod_eq_of_lt (by omega)
        have one := putDirent_written dirp read off (load32_bound buf off) (direntryAt_name buf off)
        obtain ⟨dirp', ran, written⟩ := ih (read + reclen (direntryAt buf off))
          (putDirent dirp read (direntryAt buf off) off) (by omega) fuel (by omega)
        refine ⟨dirp', ?_, ?_⟩
        · simp only [if_pos used, unwrapped, counted, ran, listed, if_pos more,
            size_cons, Nat.add_assoc]
        · rw [if_pos used, listed, if_pos more]
          exact one.append (by simpa [size] using written)
      · rw [if_neg used] at fits
        obtain ⟨dirp', ran, written⟩ := ih read dirp fits fuel (by omega)
        refine ⟨dirp', ?_, ?_⟩
        · simp only [if_neg used, unwrapped, ran]
        · rwa [if_neg used]
    · refine ⟨dirp, ?_, ?_⟩
      · rw [readdirBlock, if_neg fun both => more both.2, listed_full (by omega)]
        simp [size]
      · rw [listed_full (by omega)]
        exact Written.nil dirp read

theorem live_append (es es' : List Direntry) : live (es ++ es') = live es ++ live es' := by
  simp [live]

theorem readdirBlocks_listing {blks : List UInt32} {es : List Direntry}
    (listing : Listing disk sb blks es)
    (fresh : ∀ blk, ext2Read disk sb blk 1 buf = blockBytes disk sb blk) (read : Nat) (dirp : Mem)
    (fits : read + size (live es) < 2 ^ 32) :
    ∃ dirp', readdirBlocks disk sb count blks buf read dirp = some
    (read + size (listed count read (live es)), dirp') ∧
      Written dirp dirp' read (listed count read (live es)) := by
  induction listing generalizing buf read dirp with
  | nil => exact ⟨dirp, rfl, Written.nil dirp read⟩
  | hole rest ih =>
    rw [readdirBlocks, if_pos rfl]
    exact ih fresh read dirp fits
  | @block blk blks es es' mapped here rest ih =>
    rw [live_append, size_append] at fits
    have short := here.bound
    have word := sb.sBlocksize.toNat_lt
    obtain ⟨dirp₁, ran, written⟩ :=
      readdirBlock_records count here word read dirp (by omega) (2 ^ 64) (by omega)
    have fewer := size_listed_le count read (live es)
    obtain ⟨dirp₂, ran', written'⟩ := ih (fun blk' => ext2Read_again disk sb blk' blk)
      (read + size (listed count read (live es))) dirp₁ (by omega)
    refine ⟨dirp₂, ?_, ?_⟩
    · rw [readdirBlocks, if_neg mapped]
      simp only [fresh, ran, Option.bind_eq_bind, Option.bind_some, ran', live_append,
        listed_append, size_append,
        Nat.add_assoc]
    · rw [live_append, listed_append]
      exact written.append written'

theorem blockBytes_tail (disk : Mem) (sb : SuperBlock) (blk : UInt32) {i : Nat} (far : reach ≤ i) :
    blockBytes disk sb blk i = 0 := by
  have served : ∀ n, ataServed n ≤ 256 := by
    intro n
    unfold ataServed
    split <;> omega
  have few := served (1 * sb.sBlocksize / 512 : UInt32).toNat
  simp only [blockBytes, ext2Read, bread, ataReadSectors, reach] at far ⊢
  rw [if_neg (by omega)]
  rfl

theorem entry_near {off : Nat} (tail : ∀ i, reach ≤ i → buf i = 0)
    (moves : 0 < (direntryAt buf off).recLen) :
    off + (direntryAt buf off).recLen ≤ reach + 65535 := by
  have length : (direntryAt buf off).recLen < 2 ^ 16 := load16_bound buf (off + 4)
  by_cases far : reach ≤ off
  · have empty : (direntryAt buf off).recLen = 0 := by
      simp [direntryAt, load16, tail (off + 4) (by omega), tail (off + 4 + 1) (by omega)]
    omega
  · omega

/-- No entry begins past what the driver reads, so a well-formed block is small. -/
theorem Records.small {blocksiz off : Nat} {es : List Direntry}
    (records : Records buf blocksiz off es)
    (tail : ∀ i, reach ≤ i → buf i = 0) (low : off ≤ reach + 65535) : blocksiz ≤ reach + 65535 := by
  induction records with
  | done => exact low
  | @entry off es inside room _ rest ih => exact ih (entry_near tail (by omega))

theorem Records.size_le {blocksiz off : Nat} {es : List Direntry}
    (records : Records buf blocksiz off es) :
    3 * off + size (live es) ≤ 3 * blocksiz := by
  induction records with
  | done => simp [live, size]
  | @entry off es inside room low rest ih =>
    have long : reclen (direntryAt buf off) = 17 + (direntryAt buf off).name.length := by
      simp only [reclen, direntSize]
      omega
    rw [live_cons]
    split
    · rw [size_cons]
      omega
    · omega

theorem Listing.size_le {blks : List UInt32} {es : List Direntry}
    (listing : Listing disk sb blks es) :
    size (live es) ≤ 3 * (reach + 65535) * blks.length := by
  induction listing with
  | nil => simp [live, size]
  | hole rest ih =>
    rw [List.length_cons, Nat.mul_add_one]
    exact Nat.le_add_right_of_le ih
  | @block blk blks es es' mapped here rest ih =>
    have one := here.size_le
    have small := here.small (fun i far => blockBytes_tail disk sb blk far) (by omega)
    rw [live_append, size_append, List.length_cons, Nat.mul_add_one, Nat.add_comm (size (live es))]
    apply Nat.add_le_add ih
    omega

theorem WellFormed.size_lt {d : Directory} {es : List Direntry}
    (wellFormed : WellFormed disk d es) :
    size (live es) < 2 ^ 24 := by
  have whole := Listing.size_le wellFormed
  have twelve : d.blocks.length = 12 := by simp [Directory.blocks]
  rw [twelve, reach] at whole
  omega

/-- `ext2_readdir` writes the first entries, one after another, until `count` is reached. -/
theorem ext2Readdir_eq {d : Directory} {es : List Direntry}
    (wellFormed : WellFormed disk d es) (dirp : Mem)
    (count : UInt32) :
    ∃ dirp', ext2Readdir disk d dirp count = some (size (listed count.toNat 0 (live es)), dirp') ∧
      Written dirp dirp' 0 (listed count.toNat 0 (live es)) := by
  have fits := wellFormed.size_lt
  have fresh : ∀ blk, ext2Read disk d.sb blk 1 zeroed = blockBytes disk d.sb blk := fun _ => rfl
  obtain ⟨dirp', ran, written⟩ :=
    readdirBlocks_listing count.toNat wellFormed fresh 0 dirp (by omega)
  exact ⟨dirp', by simpa [ext2Readdir] using ran, written⟩

end Write

/-! ## The walk over the records -/

section Walk
variable {disk dirp : Mem}

theorem cstr_name {a : Nat} {name : Str} (stored : bytes dirp a name.length = name)
    (ends : 0 ∉ name)
    (terminated : dirp (a + name.length) = 0) {fuel : Nat} (enough : name.length < fuel) :
    cstr dirp fuel a = some name := by
  obtain ⟨fuel, rfl⟩ : ∃ n, fuel = n + 1 := ⟨fuel - 1, by omega⟩
  induction name generalizing a fuel with
  | nil =>
    have here : dirp a = 0 := by simpa using terminated
    simp [cstr, here]
  | cons c cs ih =>
    simp only [List.length_cons] at stored terminated enough
    obtain ⟨fuel, rfl⟩ : ∃ n, fuel = n + 1 := ⟨fuel - 1, by omega⟩
    rw [bytes, List.range_succ_eq_map, List.map_cons, List.map_map, List.cons.injEq] at stored
    obtain ⟨first, rest⟩ := stored
    have nonzero : dirp a ≠ 0 := by
      intro zero
      apply ends
      rw [← first, Nat.add_zero, zero]
      exact List.mem_cons_self
    have shifted : bytes dirp (a + 1) cs.length = cs := by
      refine Eq.trans (List.map_congr_left ?_) rest
      intro i _
      simp [Nat.add_assoc, Nat.add_comm 1 i]
    have tail := ih shifted (fun inside => ends (List.mem_cons_of_mem _ inside))
      (by rw [← terminated]; congr 1; omega) fuel (by omega)
    rw [cstr, if_neg nonzero, tail]
    simpa using first

/-- Walking the records in a zeroed buffer by `d_reclen` reads the entries back. -/
theorem nlsdirWalk_encoded {es : List Direntry} {off : Nat} (encoded : Encoded zeroed dirp off es)
    (ends : ∀ e ∈ es, 0 ∉ e.name) (short : ∀ e ∈ es, e.name.length < 256)
    (word : off + size es < 2 ^ 32) {fuel : Nat}
    (enough : es.length < fuel) :
    nlsdirWalk dirp (off + size es) fuel off = some (es.map fun e => (e.ino, e.name)) := by
  obtain ⟨fuel, rfl⟩ : ∃ n, fuel = n + 1 := ⟨fuel - 1, by omega⟩
  induction es generalizing off fuel with
  | nil => simp [nlsdirWalk, size]
  | cons e es ih =>
    obtain ⟨ino, len, name, gap, rest⟩ := encoded
    rw [List.length_cons] at enough
    obtain ⟨fuel, rfl⟩ : ∃ n, fuel = n + 1 := ⟨fuel - 1, by omega⟩
    rw [size_cons] at word ⊢
    have long : reclen e = 17 + e.name.length := by
      simp only [reclen, direntSize]
      omega
    have terminated : dirp (off + 14 + e.name.length) = 0 := gap _ (Nat.le_refl _) (by omega)
    have length := short e (by simp)
    have read : cstr dirp (2 ^ 32) (off + 14) = some e.name :=
      cstr_name name (ends e (by simp)) terminated (by omega)
    have unwrapped : (off + reclen e) % 2 ^ 32 = off + reclen e := Nat.mod_eq_of_lt (by omega)
    have tail := ih rest (fun a member => ends a (by simp [member])) (fun a member =>
      short a (by simp [member]))
      (by omega) fuel (by omega)
    rw [Nat.add_assoc] at tail
    rw [nlsdirWalk, if_pos (by omega)]
    simp only [read, len, unwrapped, tail, ino, Option.bind_eq_bind, Option.bind_some,
      Option.pure_def, List.map_cons]

theorem Records.each {buf : Mem} {blocksiz off : Nat} {es : List Direntry}
    (records : Records buf blocksiz off es) :
    ∀ e ∈ es, e.ino < notFound ∧ e.name.length < 256 := by
  induction records with
  | done => simp
  | @entry off es inside room low rest ih =>
    intro e member
    rcases List.mem_cons.mp member with rfl | later
    · exact ⟨low, direntryAt_name buf off⟩
    · exact ih e later

theorem Listing.each {sb : SuperBlock} {blks : List UInt32} {es : List Direntry}
    (listing : Listing disk sb blks es) :
    ∀ e ∈ es, e.ino < notFound ∧ e.name.length < 256 := by
  induction listing with
  | nil => simp
  | hole rest ih => exact ih
  | block mapped here rest ih =>
    intro e member
    rcases List.mem_append.mp member with first | later
    · exact here.each e first
    · exact ih e later

theorem WellFormed.each {d : Directory} {es : List Direntry} (wellFormed : WellFormed disk d es) :
    ∀ e ∈ live es, e.ino < notFound ∧ e.name.length < 256 :=
  fun e member => Listing.each wellFormed e (List.mem_filter.mp member).1

theorem length_le_size (es : List Direntry) : es.length ≤ size es := by
  induction es with
  | nil => exact Nat.le_refl _
  | cons e es ih =>
    rw [List.length_cons, size_cons, reclen]
    omega

end Walk

/-- `ext2_lookup` returns the number of the first live entry of the name, and `nlsdir` walking
    what `ext2_readdir` wrote reads back the live entries, in their order. -/
theorem listing_and_lookup_agree (disk : Mem) (d : Directory) (es : List Direntry)
    (wellFormed : WellFormed disk d es) :
    (∀ name, ext2Lookup disk d name =
        some ((((live es).find? fun e => e.name = name).map Direntry.ino).getD notFound) ∧
      (ext2Lookup disk d name = some notFound ↔ ∀ e ∈ live es, e.name ≠ name)) ∧
    ∀ count : UInt32, size (live es) ≤ count.toNat → (∀ e ∈ live es, 0 ∉ e.name) →
      ∃ read dirp records, ext2Readdir disk d zeroed count = some (read, dirp) ∧
        nlsdirWalk dirp read (2 ^ 32) 0 = some records ∧
        records = (live es).map (fun e => (e.ino, e.name)) ∧
        ∀ r ∈ records, ext2Lookup disk d r.2 ≠ some notFound := by
  have missing : ∀ name, ext2Lookup disk d name = some notFound ↔ ∀ e ∈ live es, e.name ≠ name := by
    intro name
    rw [ext2Lookup_eq wellFormed, Option.some.injEq, named]
    cases found : (live es).find? fun e => e.name = name with
    | none =>
      have none' := List.find?_eq_none.mp found
      simpa using none'
    | some e =>
      have member := List.mem_of_find?_eq_some found
      have same : e.name = name := by simpa using List.find?_some found
      have low := (wellFormed.each e member).1
      simp only [Option.map_some, Option.getD_some]
      constructor
      · intro bad
        omega
      · intro none'
        exact absurd same (none' e member)
  refine ⟨fun name => ⟨ext2Lookup_eq wellFormed, missing name⟩, ?_⟩
  intro count enough ends
  obtain ⟨dirp, ran, written⟩ := ext2Readdir_eq wellFormed zeroed count
  have small := wellFormed.size_lt
  have few := length_le_size (live es)
  rw [listed_all (by omega)] at ran written
  have walked := nlsdirWalk_encoded written.encoded ends
    (fun e member => (wellFormed.each e member).2) (by omega)
    (show (live es).length < 2 ^ 32 by omega)
  rw [Nat.zero_add] at walked
  refine ⟨_, dirp, _, ran, walked, rfl, ?_⟩
  intro r member
  obtain ⟨e, here, rfl⟩ := List.mem_map.mp member
  rw [ne_eq, missing]
  exact fun none' => none' e here rfl

def smallEntries : List Direntry := [⟨2, 12, 2, [0x2e]⟩, ⟨0, 12, 1, [0x62]⟩, ⟨5, 1000, 1, [0x61]⟩]

def smallDisk : Mem :=
  storeBytes zeroed 1024 [2, 0, 0, 0, 12, 0, 1, 2, 0x2e, 0, 0, 0, 0, 0, 0, 0, 12, 0, 1,
    1, 0x62, 0, 0, 0,
    5, 0, 0, 0, 0xe8, 3, 1, 1, 0x61]

def smallDir : Directory :=
  ⟨⟨1024, 0, ⟨1024, 128, 1, [], 1⟩⟩, ⟨#[1, 0, 0, 0, 0, 0, 0, 0, 0, 0, 0, 0, 0, 0, 0], rfl⟩⟩

theorem Records.step {buf : Mem} {blocksiz off next : Nat} {e : Direntry} {es : List Direntry}
    (here : direntryAt buf off = e) (inside : off < blocksiz) (room : 8 + e.name.length ≤ e.recLen)
    (low : e.ino < notFound) (onward : off + e.recLen = next)
    (rest : Records buf blocksiz next es) :
    Records buf blocksiz off (e :: es) := by
  subst here onward
  exact Records.entry inside room low rest

theorem listing_holes (disk : Mem) (sb : SuperBlock) (n : Nat) :
    Listing disk sb (List.replicate n 0) [] := by
  induction n with
  | zero => exact Listing.nil
  | succ n ih => exact Listing.hole ih

theorem smallDir_wellFormed : WellFormed smallDisk smallDir smallEntries := by
  have blocks : smallDir.blocks = 1 :: List.replicate 11 0 := rfl
  have block : Records (blockBytes smallDisk smallDir.sb 1) 1024 0 smallEntries := by
    refine Records.step (by decide +kernel) (by decide) (by decide) (by decide) rfl ?_
    refine Records.step (by decide +kernel) (by decide) (by decide) (by decide) rfl ?_
    exact Records.step (by decide +kernel) (by decide) (by decide) (by decide) rfl Records.done
  have listing := Listing.block (by decide) block (listing_holes smallDisk smallDir.sb 11)
  rwa [List.append_nil, ← blocks] at listing

theorem small_directory_listed :
    ∃ read dirp, ext2Readdir smallDisk smallDir zeroed 1024 = some (read, dirp) ∧
    nlsdirWalk dirp read (2 ^ 32) 0 = some [(2, [0x2e]), (5, [0x61])] ∧
    ext2Lookup smallDisk smallDir [0x61] = some 5 ∧
    ext2Lookup smallDisk smallDir [0x62] = some notFound := by
  obtain ⟨lookup, listing⟩ :=
    listing_and_lookup_agree smallDisk smallDir smallEntries smallDir_wellFormed
  obtain ⟨read, dirp, records, ran, walked, shape, _⟩ := listing 1024 (by decide) (by decide)
  refine ⟨read, dirp, ran, ?_, (lookup [0x61]).1, (lookup [0x62]).2.mpr (by decide)⟩
  rw [walked, shape]
  rfl

end Ext2
