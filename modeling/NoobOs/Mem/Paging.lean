import NoobOs.Lib.ByteMemory
import NoobOs.Lib.BitFields

/-!
The page tables of `paging.c`: one page directory, and one page table for the first 4 MiB.
`page_init` fills them at their addresses; once paging is on, each store to them goes through the
mapping they hold. Cached translations are not modelled, nor are the pages of the code that runs.
-/
namespace Paging
open ByteMemory BitFields

abbrev Word := BitVec 32

def pageAttr : Word := 0x7
def pagePs : Word := 1 <<< 7
def pdirAttr : Word := 0x7
def pdirPcd : Word := 1 <<< 4
def pdirPwt : Word := 1 <<< 3
def nopages : Nat := 0x400

def entry (m : Mem) (table : Word) (i : Nat) : Word :=
  BitVec.ofNat 32 (load32 m (table.toNat + 4 * i))
def setEntry (m : Mem) (table : Word) (i : Nat) (w : Word) : Mem :=
  store32 m (table.toNat + 4 * i) w.toNat

def regionEntry (phys : Word) : Word :=
  phys &&& 0xffc00000 ||| pdirAttr ||| pagePs ||| pdirPcd ||| pdirPwt

/-- `pagedir[idx] = ...`, where `set` stores an entry of the directory. -/
def map4mmio {α : Type} (set : Nat → Word → α) (virt phys : Word) : α :=
  set (virt >>> 22).toNat (regionEntry phys)

def fillPages (pagetab : Word) (m : Mem) : Nat → Mem
  | 0 => m
  | i + 1 => setEntry (fillPages pagetab m i) pagetab i (BitVec.ofNat 32 (i * 0x1000) ||| pageAttr)

/-- `pagetab` and `pagedir` are what `malloc_align` returns. -/
def pageInit (pagetab pagedir : Word) (m : Mem) : Mem :=
  let m := fillPages pagetab m nopages
  let m := setEntry m pagetab 0 (entry m pagetab 0 &&& ~~~1)
  let m := setEntry m pagedir 0 (pagetab ||| pdirAttr)
  map4mmio (setEntry m pagedir) 0xfec00000 0xfec00000

/-- The walk of the processor from the directory on; `none` is a page fault. -/
def translate (m : Mem) (cr3 a : Word) : Option Word :=
  let pde := entry m cr3 (a >>> 22).toNat
  if pde &&& 1 = 0 then none
  else if pde &&& pagePs ≠ 0 then some (pde &&& 0xffc00000 ||| a &&& 0x3fffff)
  else
    let pte := entry m (pde &&& 0xfffff000) ((a >>> 12) &&& 0x3ff).toNat
    if pte &&& 1 = 0 then none else some (pte &&& 0xfffff000 ||| a &&& 0xfff)

/-- A store with paging on; `none` is a page fault. -/
def storeEntry (m : Mem) (cr3 table : Word) (i : Nat) (w : Word) : Option Mem :=
  (translate m cr3 (table + BitVec.ofNat 32 (4 * i))).map fun a => store32 m a.toNat w.toNat

def allocPage (pagetab cr3 : Word) (m : Mem) (vaddr paddr : Word) : Option Mem :=
  if (paddr ||| vaddr) &&& 0xfff ≠ 0 then some m
  else storeEntry m cr3 pagetab ((vaddr >>> 12) &&& 0x3ff).toNat (paddr ||| pageAttr)

inductive Call where
  | allocPage (v p : Word)
  | map4mmio (v p : Word)

/-- `page_init` has loaded `cr3` with `pagedir`. -/
def Call.run (pagetab pagedir : Word) (m : Mem) : Call → Option Mem
  | .allocPage v p => Paging.allocPage pagetab pagedir m v p
  | .map4mmio v p => Paging.map4mmio (storeEntry m pagedir pagedir) v p

def runCalls (pagetab pagedir : Word) (m : Mem) (calls : List Call) : Option Mem :=
  calls.foldlM (Call.run pagetab pagedir) m

/-! ## What the calls are for -/

def Call.covers (a : Word) : Call → Bool
  | .allocPage v _ => a >>> 12 = v >>> 12
  | .map4mmio v _ => a >>> 22 = v >>> 22

def Call.target (a : Word) : Call → Word
  | .allocPage _ p => p ||| a &&& 0xfff
  | .map4mmio _ p => p &&& 0xffc00000 ||| a &&& 0x3fffff

/-- As the last call for it says, or as it was. -/
def mapped (calls : List Call) (before : Word → Option Word) (a : Word) : Option Word :=
  match calls.reverse.find? (Call.covers a) with
  | some c => some (c.target a)
  | none => before a

/-- Pages are page-aligned, and in no region that `map_4mmio` maps. -/
def Proper (calls : List Call) : Prop :=
  ∀ v p, Call.allocPage v p ∈ calls → v &&& 0xfff = 0 ∧ p &&& 0xfff = 0 ∧
    ∀ v' p', Call.map4mmio v' p' ∈ calls → v >>> 22 ≠ v' >>> 22

/-- Pages are in the first 4 MiB, which are the ones the page table is for. -/
def Low (calls : List Call) : Prop := ∀ v p, Call.allocPage v p ∈ calls → v >>> 22 = 0

/-- No call moves the page of a table: the entry it sets is not the one of such a page, or maps it
    to itself, and the first 4 MiB stay in place. -/
structure Steady (pagetab pagedir : Word) (calls : List Call) : Prop where
  pages : ∀ v p, Call.allocPage v p ∈ calls → ∀ t ∈ [pagetab, pagedir],
    ((v >>> 12) &&& 0x3ff : Word) = (t >>> 12) &&& 0x3ff → p = t
  regions : ∀ v p, Call.map4mmio v p ∈ calls → v >>> 22 = 0 → p >>> 22 = 0

/-- The calls return and the walk goes where they say; `page_init` leaves the first page unmapped
    and maps the others of the first 4 MiB, and its region of controllers, to themselves. -/
def PagesRight (pagetab pagedir : Word) (m : Mem) (calls : List Call) : Prop :=
  (∃ m', runCalls pagetab pagedir (pageInit pagetab pagedir m) calls = some m' ∧
    ∀ a, translate m' pagedir a = mapped calls (translate (pageInit pagetab pagedir m) pagedir) a) ∧
  (∀ a : Word, a >>> 22 = 0 →
    translate (pageInit pagetab pagedir m) pagedir a = if a >>> 12 = 0 then none else some a) ∧
  ∀ a : Word, a >>> 22 = 0x3fb → translate (pageInit pagetab pagedir m) pagedir a = some a

def Leads (e table : Word) : Prop := e &&& 1 ≠ 0 ∧ e &&& pagePs = 0 ∧ e &&& 0xfffff000 = table

def extMemBase : Nat := 0x200000
def extMemSiz : Nat := 2 ^ 20

structure HeapPage (t : Word) : Prop where
  aligned : t &&& 0xfff = 0
  low : extMemBase ≤ t.toNat
  high : t.toNat + 4096 ≤ extMemBase + extMemSiz

/-- Two pages that `malloc_align` returns: in the heap, and cleared. -/
structure Tables (pagetab pagedir : Word) (m : Mem) : Prop where
  tab : HeapPage pagetab
  dir : HeapPage pagedir
  apart : pagetab ≠ pagedir
  clear : ∀ i < 1024, entry m pagedir i = 0

/-! ## Entries -/

section Entries
variable {m m' : Mem} {t t' w : Word} {i j : Nat}

theorem entry_set_same (m : Mem) (t w : Word) (i : Nat) : entry (setEntry m t i w) t i = w := by
  rw [entry, setEntry, load32_store32_same _ _ w.isLt, BitVec.ofNat_toNat, BitVec.setWidth_eq]

theorem entry_set_other (m : Mem) (t w : Word) (different : j ≠ i) :
    entry (setEntry m t i w) t j = entry m t j := by
  rw [entry, setEntry, load32_store32_apart _ _ (by omega), entry]

theorem aligned_mod (aligned : t &&& 0xfff = 0) : t.toNat % 4096 = 0 := by
  have bits : t.toNat &&& 2 ^ 12 - 1 = 0 := congrArg BitVec.toNat aligned
  rwa [Nat.and_two_pow_sub_one_eq_mod] at bits

theorem frame_aligned (e : Word) : e &&& 0xfffff000 &&& 0xfff = 0 := by
  rw [BitVec.and_assoc]
  exact BitVec.and_zero

theorem entry_set_apart (aligned : t &&& 0xfff = 0) (aligned' : t' &&& 0xfff = 0) (apart : t' ≠ t)
    (less : i < 1024)
    (less' : j < 1024) (w : Word) : entry (setEntry m t i w) t' j = entry m t' j := by
  have first := aligned_mod aligned
  have second := aligned_mod aligned'
  have different : t'.toNat ≠ t.toNat := fun same => apart (BitVec.toNat_inj.mp same)
  rw [entry, setEntry, load32_store32_apart _ _ (by omega), entry]

theorem region_index (a : Word) : (a >>> 22).toNat = a.toNat / 2 ^ 22 := by
  rw [BitVec.toNat_ushiftRight, Nat.shiftRight_eq_div_pow]

theorem region_less (a : Word) : (a >>> 22).toNat < 1024 := by
  have bound := a.isLt
  rw [region_index]
  omega

theorem page_index (a : Word) : ((a >>> 12) &&& 0x3ff).toNat = a.toNat / 2 ^ 12 % 2 ^ 10 := by
  have bits : ((a >>> 12) &&& 0x3ff).toNat = (a >>> 12).toNat &&& 2 ^ 10 - 1 := BitVec.toNat_and _ _
  rw [bits, Nat.and_two_pow_sub_one_eq_mod, BitVec.toNat_ushiftRight, Nat.shiftRight_eq_div_pow]

theorem page_less (a : Word) : ((a >>> 12) &&& 0x3ff).toNat < 1024 := by
  rw [page_index]
  omega

theorem region_zero_iff (a : Word) : a >>> 22 = 0 ↔ a.toNat / 2 ^ 22 = 0 := by
  rw [← region_index]
  exact BitVec.toNat_inj.symm

theorem page_eq_iff (a v : Word) : a >>> 12 = v >>> 12 ↔ a.toNat / 2 ^ 12 = v.toNat / 2 ^ 12 := by
  rw [← BitVec.toNat_inj, BitVec.toNat_ushiftRight, BitVec.toNat_ushiftRight,
    Nat.shiftRight_eq_div_pow,
    Nat.shiftRight_eq_div_pow]

end Entries

/-! ## One walk -/

section Walk
variable {m m' : Mem} {cr3 a table : Word}

theorem translate_congr (pde : entry m' cr3 (a >>> 22).toNat = entry m cr3 (a >>> 22).toNat)
    (pte : ∀ table, Leads (entry m cr3 (a >>> 22).toNat) table →
      entry m' table ((a >>> 12) &&& 0x3ff).toNat = entry m table ((a >>> 12) &&& 0x3ff).toNat) :
    translate m' cr3 a = translate m cr3 a := by
  simp only [translate, pde]
  by_cases absent : entry m cr3 (a >>> 22).toNat &&& 1 = 0
  · rw [if_pos absent, if_pos absent]
  · by_cases large : entry m cr3 (a >>> 22).toNat &&& pagePs = 0
    · rw [pte _ ⟨absent, large, rfl⟩]
    · rw [if_neg absent, if_neg absent, if_pos large, if_pos large]

theorem translate_small (leads : Leads (entry m cr3 (a >>> 22).toNat) table) : translate m cr3 a =
    if entry m table ((a >>> 12) &&& 0x3ff).toNat &&& 1 = 0 then none
    else some (entry m table ((a >>> 12) &&& 0x3ff).toNat &&& 0xfffff000 ||| a &&& 0xfff) := by
  obtain ⟨present, small, frame⟩ := leads
  simp only [translate]
  rw [if_neg present, if_neg fun large => large small, frame]

theorem translate_large (present : entry m cr3 (a >>> 22).toNat &&& 1 ≠ 0)
    (large : entry m cr3 (a >>> 22).toNat &&& pagePs ≠ 0) :
    translate m cr3 a = some (entry m cr3 (a >>> 22).toNat &&& 0xffc00000 ||| a &&& 0x3fffff) := by
  simp only [translate]
  rw [if_neg present, if_pos large]

end Walk

/-! ## One call -/

/-- No directory entry leads back to the directory, and none but the first to the table; the pages
    of both are mapped to themselves. -/
structure Inv (pagetab pagedir : Word) (m : Mem) : Prop where
  dir : ∀ i < 1024, ¬ Leads (entry m pagedir i) pagedir
  tab : ∀ i < 1024, i ≠ 0 → ¬ Leads (entry m pagedir i) pagetab
  first : entry m pagedir 0 = pagetab ||| pdirAttr ∨ ∃ p : Word, p >>> 22 = 0 ∧
    entry m pagedir 0 = regionEntry p
  own : ∀ t ∈ [pagetab, pagedir], entry m pagetab ((t >>> 12) &&& 0x3ff).toNat = t ||| pageAttr

section Calls
variable {m : Mem} {pagetab pagedir a v p e t table : Word} {i : Nat}

theorem Leads.aligned (leads : Leads e table) : table &&& 0xfff = 0 := by
  rw [← leads.2.2]
  exact frame_aligned e

theorem HeapPage.region (heap : HeapPage t) (page : a >>> 12 = t >>> 12) : a >>> 22 = 0 := by
  obtain ⟨-, -, high⟩ := heap
  rw [page_eq_iff] at page
  rw [region_zero_iff]
  unfold extMemBase extMemSiz at high
  omega

theorem page_offset (aligned : t &&& 0xfff = 0) (page : a >>> 12 = t >>> 12) :
    t ||| a &&& 0xfff = a := by
  have frame : a &&& 0xfffff000 = t &&& 0xfffff000 := by
    have shifted : ∀ x : Word, x >>> 12 <<< 12 = x &&& 0xfffff000 :=
      fun x => BitVec.shiftLeft_ushiftRight
    rw [← shifted, ← shifted, page]
  have whole : t &&& 0xfffff000 = t := all_under aligned
  have parts := mask_parts a 0xfffff000
  rw [frame, whole] at parts
  exact parts

theorem region_bits (p : Word) :
    regionEntry p &&& 1 ≠ 0 ∧ regionEntry p &&& pagePs ≠ 0 ∧
    regionEntry p &&& 0xffc00000 = p &&& 0xffc00000 := by
  have flags : regionEntry p = p &&& 0xffc00000 ||| 0x9f := by
    unfold regionEntry
    rw [BitVec.or_assoc, BitVec.or_assoc, BitVec.or_assoc]
    rfl
  rw [flags, bits_set (by decide), bits_set (by decide), bits_beside (by decide), BitVec.and_assoc]
  exact ⟨by decide, by decide, by rfl⟩

theorem region_translate (dir : pagedir &&& 0xfff = 0) (inv : Inv pagetab pagedir m)
    (v p a : Word) :
    translate (setEntry m pagedir (v >>> 22).toNat (regionEntry p)) pagedir a =
      if a >>> 22 = v >>> 22 then some (p &&& 0xffc00000 ||| a &&& 0x3fffff)
      else translate m pagedir a := by
  by_cases same : a >>> 22 = v >>> 22
  · obtain ⟨present, large, frame⟩ := region_bits p
    have here := entry_set_same m pagedir (regionEntry p) (v >>> 22).toNat
    rw [if_pos same]
    rw [← same] at here ⊢
    rw [translate_large (by rw [here]; exact present) (by rw [here]; exact large), here, frame]
  · have other : (a >>> 22).toNat ≠ (v >>> 22).toNat :=
      fun same' => same (BitVec.toNat_inj.mp same')
    rw [if_neg same]
    apply translate_congr
    · exact entry_set_other m pagedir _ other
    · intro table leads
      apply entry_set_apart dir leads.aligned _ (region_less v) (page_less a)
      rintro rfl
      exact inv.dir _ (region_less a) leads

theorem first_leads (tab : pagetab &&& 0xfff = 0) : Leads (pagetab ||| pdirAttr) pagetab := by
  refine ⟨?_, ?_, ?_⟩
  · rw [bits_set (by decide)]
    decide
  · have low : pagetab &&& pagePs = pagetab &&& 0xfff &&& pagePs := by
      rw [BitVec.and_assoc]
      rfl
    rw [bits_beside (by decide), low, tab]
    exact BitVec.zero_and
  · rw [bits_beside (by decide)]
    exact all_under tab

theorem page_entry (aligned : t &&& 0xfff = 0) :
    (t ||| pageAttr) &&& 1 ≠ 0 ∧ (t ||| pageAttr) &&& 0xfffff000 = t := by
  refine ⟨?_, ?_⟩
  · rw [bits_set (by decide)]
    decide
  · rw [bits_beside (by decide)]
    exact all_under aligned

theorem page_pde (tab : pagetab &&& 0xfff = 0) (dir : pagedir &&& 0xfff = 0)
    (apart : pagetab ≠ pagedir) (v w : Word)
    (less : i < 1024) :
    entry (setEntry m pagetab ((v >>> 12) &&& 0x3ff).toNat w) pagedir i = entry m pagedir i :=
  entry_set_apart tab dir apart.symm (page_less v) less w

theorem page_translate (tab : pagetab &&& 0xfff = 0) (dir : pagedir &&& 0xfff = 0)
    (apart : pagetab ≠ pagedir)
    (inv : Inv pagetab pagedir m) (first : entry m pagedir 0 = pagetab ||| pdirAttr)
    (alignedP : p &&& 0xfff = 0) (low : v >>> 22 = 0) (a : Word) :
    translate (setEntry m pagetab ((v >>> 12) &&& 0x3ff).toNat (p ||| pageAttr)) pagedir a =
      if a >>> 12 = v >>> 12 then some (p ||| a &&& 0xfff) else translate m pagedir a := by
  have pde := page_pde (m := m) tab dir apart v (p ||| pageAttr) (region_less a)
  have lowV := (region_zero_iff v).mp low
  by_cases region : a >>> 22 = 0
  · have lowA := (region_zero_iff a).mp region
    have leads : Leads (entry m pagedir (a >>> 22).toNat) pagetab := by
      rw [region]
      exact first ▸ first_leads tab
    have leads' := leads
    rw [← pde] at leads'
    rw [translate_small leads', translate_small leads]
    by_cases same : a >>> 12 = v >>> 12
    · obtain ⟨present, frame⟩ := page_entry alignedP
      rw [if_pos same, same, entry_set_same, if_neg present, frame]
    · have other : ((a >>> 12) &&& 0x3ff).toNat ≠ ((v >>> 12) &&& 0x3ff).toNat := by
        rw [page_eq_iff] at same
        rw [page_index, page_index]
        omega
      rw [if_neg same, entry_set_other _ _ _ other]
  · have other : ¬ a >>> 12 = v >>> 12 := by
      intro same
      rw [page_eq_iff] at same
      rw [region_zero_iff] at region
      omega
    rw [if_neg other]
    apply translate_congr pde
    intro table leads
    apply entry_set_apart tab leads.aligned _ (page_less v) (page_less a)
    rintro rfl
    exact inv.tab _ (region_less a) (fun zero => region (BitVec.toNat_inj.mp zero)) leads

/-! ## Stores to the tables -/

/-- The pages of the tables stay where they are. -/
theorem Inv.stays (inv : Inv pagetab pagedir m) (tab : pagetab &&& 0xfff = 0) (heap : HeapPage t)
    (member : t ∈ [pagetab, pagedir]) (page : a >>> 12 = t >>> 12) :
    translate m pagedir a = some a := by
  have region := heap.region page
  rcases inv.first with small | ⟨p, low, large⟩
  · have leads : Leads (entry m pagedir (a >>> 22).toNat) pagetab := by
      rw [region]
      exact small ▸ first_leads tab
    obtain ⟨present, frame⟩ := page_entry heap.aligned
    rw [translate_small leads, page, inv.own t member, if_neg present, frame,
      page_offset heap.aligned page]
  · obtain ⟨present, big, frame⟩ := region_bits p
    have here : entry m pagedir (a >>> 22).toNat = regionEntry p := by
      rw [region]
      exact large
    have shifted : ∀ x : Word, x >>> 22 <<< 22 = x &&& 0xffc00000 :=
      fun x => BitVec.shiftLeft_ushiftRight
    have none' : ∀ x : Word, x >>> 22 = 0 → x &&& 0xffc00000 = 0 := by
      intro x zero
      rw [← shifted, zero]
      rfl
    have parts := mask_parts a 0xffc00000
    rw [none' a region] at parts
    rw [translate_large (by rw [here]; exact present) (by rw [here]; exact big), here,
      frame, none' p low]
    exact congrArg some parts

theorem storeEntry_eq (inv : Inv pagetab pagedir m) (tab : pagetab &&& 0xfff = 0)
    (heap : HeapPage t)
    (member : t ∈ [pagetab, pagedir]) (less : i < 1024) (w : Word) :
    storeEntry m pagedir t i w = some (setEntry m t i w) := by
  have page := aligned_mod heap.aligned
  have high := heap.high
  unfold extMemBase extMemSiz at high
  have place : (t + BitVec.ofNat 32 (4 * i)).toNat = t.toNat + 4 * i := by
    rw [BitVec.toNat_add, BitVec.toNat_ofNat]
    omega
  have inside : (t + BitVec.ofNat 32 (4 * i)) >>> 12 = t >>> 12 := by
    rw [page_eq_iff, place]
    omega
  rw [storeEntry, inv.stays tab heap member inside, Option.map_some, place]
  rfl

theorem inv_region (inv : Inv pagetab pagedir m) (tab : pagetab &&& 0xfff = 0)
    (dir : pagedir &&& 0xfff = 0)
    (apart : pagetab ≠ pagedir) {v p : Word} (low : v >>> 22 = 0 → p >>> 22 = 0) :
    Inv pagetab pagedir (setEntry m pagedir (v >>> 22).toNat (regionEntry p)) := by
  have kept : ∀ i table, Leads
    (entry (setEntry m pagedir (v >>> 22).toNat (regionEntry p)) pagedir i) table →
      Leads (entry m pagedir i) table := by
    intro i table leads
    by_cases same : i = (v >>> 22).toNat
    · subst same
      rw [entry_set_same] at leads
      exact absurd leads.2.1 (region_bits p).2.1
    · rwa [entry_set_other _ _ _ same] at leads
  refine ⟨?_, ?_, ?_, ?_⟩
  · exact fun i less leads => inv.dir i less (kept i _ leads)
  · exact fun i less some' leads => inv.tab i less some' (kept i _ leads)
  · by_cases zero : v >>> 22 = 0
    · rw [zero]
      exact Or.inr ⟨p, low zero, entry_set_same _ _ _ _⟩
    · have other : 0 ≠ (v >>> 22).toNat := fun same => zero (BitVec.toNat_inj.mp same.symm)
      rw [entry_set_other _ _ _ other]
      exact inv.first
  · intro t member
    rw [entry_set_apart dir tab apart (region_less v) (page_less t)]
    exact inv.own t member

theorem inv_page (inv : Inv pagetab pagedir m) (tab : pagetab &&& 0xfff = 0)
    (dir : pagedir &&& 0xfff = 0)
    (apart : pagetab ≠ pagedir) {v p : Word}
    (steady : ∀ t ∈ [pagetab, pagedir], ((v >>> 12) &&& 0x3ff : Word) =
    (t >>> 12) &&& 0x3ff → p = t) :
    Inv pagetab pagedir (setEntry m pagetab ((v >>> 12) &&& 0x3ff).toNat (p ||| pageAttr)) := by
  refine ⟨?_, ?_, ?_, ?_⟩
  · intro i less leads
    rw [page_pde tab dir apart v _ less] at leads
    exact inv.dir i less leads
  · intro i less some' leads
    rw [page_pde tab dir apart v _ less] at leads
    exact inv.tab i less some' leads
  · rw [page_pde tab dir apart v _ (by decide)]
    exact inv.first
  · intro t member
    by_cases same : ((v >>> 12) &&& 0x3ff : Word) = (t >>> 12) &&& 0x3ff
    · rw [← same, entry_set_same, steady t member same]
    · have other : ((t >>> 12) &&& 0x3ff).toNat ≠ ((v >>> 12) &&& 0x3ff).toNat :=
        fun index => same (BitVec.toNat_inj.mp index.symm)
      rw [entry_set_other _ _ _ other]
      exact inv.own t member

/-! ## Runs -/

theorem mapped_snoc (calls : List Call) (c : Call) (before : Word → Option Word) (a : Word) :
    mapped (calls ++ [c]) before a = if c.covers a then some (c.target a)
    else mapped calls before a := by
  rw [mapped, List.reverse_append, List.reverse_singleton, List.singleton_append, List.find?_cons]
  cases c.covers a <;> rfl

theorem runCalls_snoc (calls : List Call) (c : Call) :
    runCalls pagetab pagedir m (calls ++ [c]) = (runCalls pagetab pagedir m calls).bind fun m' =>
      c.run pagetab pagedir m' := by
  rw [runCalls, List.foldlM_append]
  simp only [List.foldlM_cons, List.foldlM_nil, bind_pure]
  rfl

theorem runCalls_one (c : Call) : runCalls pagetab pagedir m [c] = c.run pagetab pagedir m := by
  simp only [runCalls, List.foldlM_cons, List.foldlM_nil, bind_pure]

theorem Proper.before {calls : List Call} {c : Call} (proper : Proper (calls ++ [c])) :
    Proper calls := by
  intro v p member
  obtain ⟨alignedV, alignedP, other⟩ := proper v p (List.mem_append_left [c] member)
  exact ⟨alignedV, alignedP, fun v' p' member' => other v' p' (List.mem_append_left [c] member')⟩

theorem Steady.before {calls : List Call} {c : Call}
    (steady : Steady pagetab pagedir (calls ++ [c])) :
    Steady pagetab pagedir calls :=
  ⟨fun v p member => steady.pages v p (List.mem_append_left [c] member),
    fun v p member => steady.regions v p (List.mem_append_left [c] member)⟩

theorem allocPage_eq (inv : Inv pagetab pagedir m) (tab : HeapPage pagetab)
    (alignedV : v &&& 0xfff = 0)
    (alignedP : p &&& 0xfff = 0) : allocPage pagetab pagedir m v p =
      some (setEntry m pagetab ((v >>> 12) &&& 0x3ff).toNat (p ||| pageAttr)) := by
  have both : (p ||| v) &&& 0xfff = 0 := by
    rw [BitVec.and_or_distrib_right, alignedV, alignedP]
    rfl
  rw [allocPage, if_neg fun unaligned => unaligned both]
  exact storeEntry_eq inv tab.aligned tab List.mem_cons_self (page_less v) _

theorem map4mmio_eq (inv : Inv pagetab pagedir m) (tab : HeapPage pagetab)
    (dir : HeapPage pagedir) (v p : Word) :
    map4mmio (storeEntry m pagedir pagedir) v p = some
    (setEntry m pagedir (v >>> 22).toNat (regionEntry p)) :=
  storeEntry_eq inv tab.aligned dir (List.mem_cons_of_mem _ List.mem_cons_self) (region_less v) _

/-- Each call stores one entry and changes what it is for: by induction on the calls, the last
    first. -/
theorem run_spec (tab : HeapPage pagetab) (dir : HeapPage pagedir) (apart : pagetab ≠ pagedir)
    (inv : Inv pagetab pagedir m) (calls : List Call) (proper : Proper calls)
    (steady : Steady pagetab pagedir calls) :
    ∃ m', runCalls pagetab pagedir m calls = some m' ∧ Inv pagetab pagedir m' ∧
      (∀ i < 1024, (∀ v p, Call.map4mmio v p ∈ calls → (v >>> 22).toNat ≠ i) →
        entry m' pagedir i = entry m pagedir i) ∧
      (Low calls → entry m pagedir 0 = pagetab ||| pdirAttr →
        ∀ a, translate m' pagedir a = mapped calls (translate m pagedir) a) := by
  induction calls using List.reverseRecOn with
  | nil => exact ⟨m, rfl, inv, fun _ _ _ => rfl, fun _ _ _ => rfl⟩
  | append_singleton calls c ih =>
    have last : c ∈ calls ++ [c] := List.mem_append_right calls List.mem_cons_self
    obtain ⟨m', ran, inv', pdes, walked⟩ := ih proper.before steady.before
    rw [runCalls_snoc, ran, Option.bind_some]
    cases c with
    | allocPage v p =>
      obtain ⟨alignedV, alignedP, other⟩ := proper v p last
      refine ⟨_, allocPage_eq inv' tab alignedV alignedP,
        inv_page inv' tab.aligned dir.aligned apart (steady.pages v p last), fun i less away =>
          ?_, fun low first a => ?_⟩
      · rw [page_pde tab.aligned dir.aligned apart v _ less]
        exact pdes i less fun v' p' member => away v' p' (List.mem_append_left _ member)
      · have region := low v p last
        have first' : entry m' pagedir 0 = pagetab ||| pdirAttr := by
          rw [pdes 0 (by decide) fun v' p' member zero => ?_]
          · exact first
          · have same : v' >>> 22 = 0 := BitVec.toNat_inj.mp zero
            exact other v' p' (List.mem_append_left _ member) (region.trans same.symm)
        have rest := walked (fun v' p' member => low v' p' (List.mem_append_left _ member)) first
        rw [mapped_snoc, ← rest a,
          page_translate tab.aligned dir.aligned apart inv' first' alignedP region]
        simp only [Call.covers, Call.target, decide_eq_true_eq]
    | map4mmio v p =>
      refine ⟨_, map4mmio_eq inv' tab dir v p,
        inv_region inv' tab.aligned dir.aligned apart (steady.regions v p last), fun i less away =>
          ?_, fun low first a => ?_⟩
      · rw [entry_set_other _ _ _ (away v p last).symm]
        exact pdes i less fun v' p' member => away v' p' (List.mem_append_left _ member)
      · have rest := walked (fun v' p' member => low v' p' (List.mem_append_left _ member)) first
        rw [mapped_snoc, ← rest a, region_translate dir.aligned inv']
        simp only [Call.covers, Call.target, decide_eq_true_eq]

end Calls

/-! ## What page_init sets -/

section Init
variable {m : Mem} {pagetab pagedir a : Word} {i j n : Nat}

theorem fillPages_entry (less : i < n) :
    entry (fillPages pagetab m n) pagetab i = BitVec.ofNat 32 (i * 0x1000) ||| pageAttr := by
  induction n with
  | zero => omega
  | succ n ih =>
    rw [fillPages]
    by_cases last : i = n
    · subst last
      exact entry_set_same _ _ _ _
    · rw [entry_set_other _ _ _ last]
      exact ih (by omega)

theorem fillPages_apart (tab : pagetab &&& 0xfff = 0) (dir : pagedir &&& 0xfff = 0)
    (apart : pagetab ≠ pagedir)
    (bound : n ≤ nopages) (less : j < 1024) :
    entry (fillPages pagetab m n) pagedir j = entry m pagedir j := by
  induction n with
  | zero => rfl
  | succ n ih =>
    rw [fillPages, entry_set_apart tab dir apart.symm bound less]
    exact ih (Nat.le_of_succ_le bound)

theorem pageInit_pte (tables : Tables pagetab pagedir m) (less : i < 1024) :
    entry (pageInit pagetab pagedir m) pagetab i =
      if i = 0 then 0x6 else BitVec.ofNat 32 (i * 0x1000) ||| pageAttr := by
  have tab := tables.tab.aligned
  have dir := tables.dir.aligned
  have region : ((0xfec00000 : Word) >>> 22).toNat = 0x3fb := rfl
  rw [pageInit, map4mmio, region, entry_set_apart dir tab tables.apart (by decide) less,
    entry_set_apart dir tab tables.apart (by decide) less]
  by_cases first : i = 0
  · subst first
    rw [if_pos rfl, entry_set_same, fillPages_entry (by decide)]
    decide
  · rw [if_neg first, entry_set_other _ _ _ first]
    exact fillPages_entry less

theorem pageInit_pde (tables : Tables pagetab pagedir m) (less : i < 1024) :
    entry (pageInit pagetab pagedir m) pagedir i =
      if i = 0x3fb then 0xfec0009f else if i = 0 then pagetab ||| pdirAttr else 0 := by
  have tab := tables.tab.aligned
  have dir := tables.dir.aligned
  have region : ((0xfec00000 : Word) >>> 22).toNat = 0x3fb := rfl
  rw [pageInit, map4mmio, region]
  by_cases mmio : i = 0x3fb
  · subst mmio
    rw [if_pos rfl, entry_set_same]
    rfl
  · rw [if_neg mmio, entry_set_other _ _ _ mmio]
    by_cases first : i = 0
    · subst first
      rw [if_pos rfl, entry_set_same]
    · rw [if_neg first, entry_set_other _ _ _ first,
        entry_set_apart tab dir tables.apart.symm (by decide) less,
        fillPages_apart tab dir tables.apart (Nat.le_refl _) less]
      exact tables.clear i less

theorem pageInit_own (tables : Tables pagetab pagedir m) {t : Word} (heap : HeapPage t) :
    entry (pageInit pagetab pagedir m) pagetab ((t >>> 12) &&& 0x3ff).toNat = t ||| pageAttr := by
  have page := aligned_mod heap.aligned
  have low := heap.low
  have high := heap.high
  unfold extMemBase extMemSiz at high
  unfold extMemBase at low
  have index : ((t >>> 12) &&& 0x3ff).toNat = t.toNat / 4096 := by
    rw [page_index]
    omega
  have own : BitVec.ofNat 32 (t.toNat / 4096 * 0x1000) = t := by
    rw [← BitVec.toNat_inj, BitVec.toNat_ofNat]
    omega
  rw [pageInit_pte tables (page_less t), index, if_neg (by omega), own]

theorem pageInit_first (tables : Tables pagetab pagedir m) :
    entry (pageInit pagetab pagedir m) pagedir 0 = pagetab ||| pdirAttr := by
  rw [pageInit_pde tables (by decide), if_neg (by decide), if_pos rfl]

theorem inv_pageInit (tables : Tables pagetab pagedir m) :
    Inv pagetab pagedir (pageInit pagetab pagedir m) := by
  have large : ∀ table, ¬ Leads 0xfec0009f table := fun table leads => absurd leads.2.1 (by decide)
  have absent : ∀ table, ¬ Leads 0 table := fun table leads => absurd leads.1 (by decide)
  refine ⟨?_, ?_, Or.inl (pageInit_first tables), ?_⟩
  · intro i less leads
    rw [pageInit_pde tables less] at leads
    by_cases mmio : i = 0x3fb
    · rw [if_pos mmio] at leads
      exact large _ leads
    · rw [if_neg mmio] at leads
      by_cases first : i = 0
      · rw [if_pos first] at leads
        exact tables.apart ((first_leads tables.tab.aligned).2.2.symm.trans leads.2.2)
      · rw [if_neg first] at leads
        exact absent _ leads
  · intro i less later leads
    rw [pageInit_pde tables less, if_neg later] at leads
    by_cases mmio : i = 0x3fb
    · rw [if_pos mmio] at leads
      exact large _ leads
    · rw [if_neg mmio] at leads
      exact absent _ leads
  · intro t member
    rcases List.mem_cons.mp member with rfl | member
    · exact pageInit_own tables tables.tab
    · rw [List.mem_singleton] at member
      exact pageInit_own tables (member ▸ tables.dir)

theorem pageInit_low (tables : Tables pagetab pagedir m) (low : a >>> 22 = 0) :
    translate (pageInit pagetab pagedir m) pagedir a = if a >>> 12 = 0 then none else some a := by
  have leads : Leads (entry (pageInit pagetab pagedir m) pagedir (a >>> 22).toNat) pagetab := by
    rw [low]
    exact pageInit_first tables ▸ first_leads tables.tab.aligned
  have small := (region_zero_iff a).mp low
  have index : ((a >>> 12) &&& 0x3ff).toNat = a.toNat / 2 ^ 12 := by
    rw [page_index]
    omega
  have page : a >>> 12 = 0 ↔ a.toNat / 2 ^ 12 = 0 := page_eq_iff a 0
  rw [translate_small leads, pageInit_pte tables (page_less a), index]
  by_cases zero : a >>> 12 = 0
  · rw [if_pos zero, if_pos (page.mp zero)]
    rfl
  · have frame : BitVec.ofNat 32 (a.toNat / 2 ^ 12 * 0x1000) = a &&& 0xfffff000 := by
      have shifted : a >>> 12 <<< 12 = a &&& 0xfffff000 := BitVec.shiftLeft_ushiftRight
      rw [← shifted, ← BitVec.toNat_inj, BitVec.toNat_shiftLeft, BitVec.toNat_ushiftRight,
        Nat.shiftRight_eq_div_pow,
        Nat.shiftLeft_eq, BitVec.toNat_ofNat]
    rw [if_neg zero, if_neg (mt page.mpr zero), frame, bits_set (by decide), if_neg (by decide),
      bits_beside (by decide),
      BitVec.and_assoc, BitVec.and_self]
    exact congrArg some (mask_parts a 0xfffff000)

theorem pageInit_mmio (tables : Tables pagetab pagedir m) (region : a >>> 22 = 0x3fb) :
    translate (pageInit pagetab pagedir m) pagedir a = some a := by
  have here : entry (pageInit pagetab pagedir m) pagedir (a >>> 22).toNat = 0xfec0009f := by
    rw [region, pageInit_pde tables (by decide)]
    exact if_pos rfl
  have frame : a &&& 0xffc00000 = 0xfec00000 := by
    have shifted : a >>> 22 <<< 22 = a &&& 0xffc00000 := BitVec.shiftLeft_ushiftRight
    rw [← shifted, region]
    rfl
  have parts := mask_parts a 0xffc00000
  rw [frame] at parts
  rw [translate_large (by rw [here]; decide) (by rw [here]; decide), here]
  exact congrArg some parts

end Init

/-! ## All sequences of calls -/

section Sequences
variable {m : Mem} {pagetab pagedir v p : Word} {calls : List Call} {i : Nat}

theorem mapped_page (member : Call.allocPage v p ∈ calls) (before : Word → Option Word) :
    mapped calls before v ≠ none := by
  have covered : (calls.reverse.find? (Call.covers v)).isSome := by
    rw [List.find?_isSome]
    exact ⟨_, List.mem_reverse.mpr member, by simp only [Call.covers, decide_true]⟩
  obtain ⟨c, found⟩ := Option.isSome_iff_exists.mp covered
  rw [mapped, found]
  exact Option.some_ne_none _

theorem far_page_absent (tables : Tables pagetab pagedir m) (proper : Proper calls)
    (steady : Steady pagetab pagedir calls)
    (member : Call.allocPage v p ∈ calls) (far : v >>> 22 ≠ 0) (far' : v >>> 22 ≠ 0x3fb) :
    ∃ m', runCalls pagetab pagedir (pageInit pagetab pagedir m) calls = some m' ∧
    translate m' pagedir v = none := by
  have other : ∀ v' p', Call.map4mmio v' p' ∈ calls → (v' >>> 22).toNat ≠ (v >>> 22).toNat := by
    intro v' p' member' same
    exact (proper v p member).2.2 v' p' member' (BitVec.toNat_inj.mp same).symm
  have first : (v >>> 22).toNat ≠ 0 := fun zero => far (BitVec.toNat_inj.mp zero)
  have mmio : (v >>> 22).toNat ≠ 0x3fb := fun same => far' (BitVec.toNat_inj.mp same)
  obtain ⟨m', ran, -, pdes, -⟩ :=
    run_spec tables.tab tables.dir tables.apart (inv_pageInit tables) calls proper steady
  have pde := pdes _ (region_less v) other
  rw [pageInit_pde tables (region_less v), if_neg mmio, if_neg first] at pde
  refine ⟨m', ran, ?_⟩
  rw [translate, pde]
  exact if_pos (by decide)

theorem zero_tables : Tables 0x202000 0x204000 (fun _ => 0) := by
  refine ⟨⟨by decide, by decide, by decide⟩,
    ⟨by decide, by decide, by decide⟩, by decide, fun i _ => ?_⟩
  rw [entry, load32_zero fun _ _ _ => rfl]
  rfl

end Sequences

end Paging
