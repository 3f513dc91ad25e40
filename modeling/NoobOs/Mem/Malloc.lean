import NoobOs.Mem.Accounting

/-!
`malloc` and `free` of `mem.c`, and the aligned pair over them. A fill past the end of the
address space leaves the memory that is mapped, and `page_fault_hand` of `paging.c` never
returns.
-/
namespace Buddy
open ByteMemory LinkedChain DyadicTiling Runs

def memset (m : Mem) (s : Nat) (c : UInt8) (len : Nat) : Option Mem :=
  if s + len ≤ 2 ^ 32 then some fun x => if s ≤ x ∧ x < s + len then c else m x else none

/-- `malloc(siz)`; the fill is not skipped for a null pointer. -/
def malloc (h : Heap) (siz : Nat) : Option (Heap × Nat) := do
  let (h, ptr) ← kmAlloc h siz
  let m ← memset h.mem ptr 0 siz
  return ({ h with mem := m }, ptr)

def free (h : Heap) (ptr : Nat) : Option Heap := kmFree h ptr

def mallocAlign (h : Heap) (siz align : Nat) : Option (Heap × Nat) :=
  if align &&& ((align + 2 ^ 32 - 1) % 2 ^ 32) ≠ 0 then some (h, 0)
  else do
    let (h, raw) ← malloc h ((siz + align + 2 ^ 32 - 1 + 4) % 2 ^ 32)
    if raw = 0 then return (h, 0)
    let rawaddr := (raw + 4) % 2 ^ 32
    let aAddr := alignUp rawaddr align
    return ({ h with mem := store32 h.mem (aAddr - 4) raw }, aAddr)

def freeAlign (h : Heap) (ptr : Nat) : Option Heap := free h (load32 h.mem (ptr - 4))

section Malloc
variable {s : State} {fl : Nat → List Nat} {siz p : Nat} {h : Heap}

theorem malloc_parts (ran : malloc s.heap siz = some (h, p)) :
    ∃ h₀, kmAlloc s.heap siz = some (h₀, p) ∧ p + siz ≤ 2 ^ 32 ∧
      h = { h₀ with mem := fun x => if p ≤ x ∧ x < p + siz then 0 else h₀.mem x } := by
  unfold malloc at ran
  cases first : kmAlloc s.heap siz with
  | none => simp [first] at ran
  | some r =>
    obtain ⟨h₀, q⟩ := r
    by_cases inside : q + siz ≤ 2 ^ 32
    · simp only [first, memset, if_pos inside, Option.bind_eq_bind, Option.bind_some,
        Option.pure_def,
        Option.some.injEq, Prod.mk.injEq] at ran
      obtain ⟨rfl, rfl⟩ := ran
      exact ⟨h₀, rfl, inside, rfl⟩
    · simp only [first, memset, if_neg inside, Option.bind_eq_bind, Option.bind_some,
        Option.bind_none] at ran
      exact absurd ran (by simp)

/-- A size that wraps is filled past the end of memory, so one that comes back did not wrap. -/
theorem malloc_inRange (lay : Layout s.heap fl (usedBy s.live)) (word : siz < 2 ^ 32)
    (ran : malloc s.heap siz = some (h, p)) (real : p ≠ 0) : InRange siz := by
  obtain ⟨h₀, ran₀, inside, _⟩ := malloc_parts ran
  by_cases low : siz ≤ 2 ^ 31 - 12
  · simp only [InRange, rounded, hdrSiz]
    omega
  · by_cases high : 2 ^ 32 - 11 ≤ siz
    · obtain ⟨fits, small⟩ := wrapped_total word high
      rcases kmAlloc_cases lay rfl fits (small_order small) (by decide) with ⟨ran', _⟩
        | ⟨_, o, _, ran', _⟩
      · obtain ⟨_, null⟩ := Prod.mk.inj (Option.some.inj (ran₀.symm.trans ran'))
        exact absurd null real
      · obtain ⟨_, place⟩ := Prod.mk.inj (Option.some.inj (ran₀.symm.trans ran'))
        simp only [addr, extMemBase, hdrSiz] at place
        omega
    · rw [kmAlloc_endless (by omega) (by omega)] at ran₀
      exact absurd ran₀ (by simp)

theorem malloc_step (inv : Inv s fl) (word : siz < 2 ^ 32) (ran : malloc s.heap siz = some (h, p))
    (real : p ≠ 0) :
    ∃ ord o fl', InRange siz ∧ size2ord (rounded siz + hdrSiz) = some ord ∧ p = addr o + hdrSiz ∧
      Inv ⟨h, ⟨⟨ord, o⟩, siz⟩ :: s.live⟩ fl' := by
  have range := malloc_inRange inv.layout word ran real
  obtain ⟨h₀, ran₀, _, rfl⟩ := malloc_parts ran
  obtain ⟨ord, order, _, _⟩ := size2ord_spec range
  obtain ⟨t, q, fl', ran', _, inv', shape⟩ := alloc_step inv range order
  obtain ⟨rfl, rfl⟩ := Prod.mk.inj (Option.some.inj (ran₀.symm.trans ran'))
  rcases shape with ⟨null, _⟩ | ⟨_, o, _, _, place, live⟩
  · exact absurd null real
  · have member : Live.mk ⟨ord, o⟩ siz ∈ t.live := by
      rw [live]
      exact List.mem_cons_self
    have filled := inv'.fill (m := fun x => if p ≤ x ∧ x < p + siz then 0
      else t.heap.mem x) member (by
      intro x outside
      simp only [Live.ptr, ← place] at outside
      exact if_neg (by omega))
    rw [live] at filled
    exact ⟨ord, o, fl', range, order, place, filled⟩

end Malloc

/-! ## Aligned buffers -/

section Aligned
variable {m : Mem} {s : State} {h : Heap} {siz raw j : Nat}

theorem power_check (small : 2 ^ j < 2 ^ 32) : 2 ^ j &&& ((2 ^ j + 2 ^ 32 - 1) % 2 ^ 32) = 0 := by
  have pos := Nat.two_pow_pos j
  have mask : (2 ^ j + 2 ^ 32 - 1) % 2 ^ 32 = 2 ^ j - 1 := by omega
  rw [mask, Nat.and_two_pow_sub_one_eq_mod, Nat.mod_self]

theorem aligned_inside (fits : raw + (siz + 2 ^ j + 3) < 2 ^ 32) (small : j ≤ 32) :
    2 ^ j ∣ alignUp (raw + 4) (2 ^ j) ∧ raw + 4 ≤ alignUp (raw + 4) (2 ^ j) ∧
      alignUp (raw + 4) (2 ^ j) + siz ≤ raw + (siz + 2 ^ j + 3) := by
  have pos := Nat.two_pow_pos j
  obtain ⟨ge, lt, multiple⟩ := alignUp_spec (x := raw + 4) (k := j) (by omega) small
  exact ⟨multiple, ge, by omega⟩

theorem mallocAlign_eq (fits : siz + 2 ^ j + 3 < 2 ^ 32)
    (inner : malloc s.heap (siz + 2 ^ j + 3) = some (h, raw))
    (real : raw ≠ 0) (inside : raw + (siz + 2 ^ j + 3) < 2 ^ 32) :
    mallocAlign s.heap siz (2 ^ j) =
      some ({ h with mem := store32 h.mem (alignUp (raw + 4) (2 ^ j) - 4) raw },
      alignUp (raw + 4) (2 ^ j)) := by
  have pos := Nat.two_pow_pos j
  have request : (siz + 2 ^ j + 2 ^ 32 - 1 + 4) % 2 ^ 32 = siz + 2 ^ j + 3 := by omega
  have slot : (raw + 4) % 2 ^ 32 = raw + 4 := Nat.mod_eq_of_lt (by omega)
  rw [mallocAlign, if_neg (not_not_intro (power_check (by omega))), request]
  simp only [inner, Option.bind_eq_bind, Option.bind_some, if_neg real, slot, Option.pure_def]

end Aligned

/-- An aligned buffer lies in the buffer `malloc` returned, above the back pointer, and freeing it
    after any stores into it frees that block. -/
theorem aligned_buffer (m : Mem) (s : State) (reach : Reach machine (start m) s) (siz j : Nat)
    (fits : siz + 2 ^ j + 3 < 2 ^ 32) (h : Heap) (raw : Nat)
    (inner : malloc s.heap (siz + 2 ^ j + 3) = some (h, raw)) (real : raw ≠ 0) :
    ∃ h' a, mallocAlign s.heap siz (2 ^ j) = some (h', a) ∧ 2 ^ j ∣ a ∧
      raw ≤ a - 4 ∧ a - 4 + 4 ≤ a ∧ a + siz ≤ raw + (siz + 2 ^ j + 3) ∧
      raw + (siz + 2 ^ j + 3) ≤ raw - hdrSiz + 2 ^ (h.mem (raw - hdrSiz + 8)).toNat ∧
      ∀ m', (∀ x, x < a ∨ a + siz ≤ x → m' x = h'.mem x) →
        ∃ h'', freeAlign { h' with mem := m' } a = free { h' with mem := m' } raw ∧
          free { h' with mem := m' } raw = some h'' ∧ ∀ k, k ≤ maxOrd →
              freeList h'' k = freeList s.heap k := by
  obtain ⟨fl, inv⟩ := reach_inv reach
  obtain ⟨ord, o, fl', range, order, place, inv'⟩ := malloc_step inv fits inner real
  have header := inv'.headers _ List.mem_cons_self
  have room : rounded (siz + 2 ^ j + 3) + hdrSiz ≤ 2 ^ ord := inv'.fits _ List.mem_cons_self
  have ge := rounded_ge (siz + 2 ^ j + 3)
  have inside : raw + (siz + 2 ^ j + 3) < 2 ^ 32 := by
    have bound := inv'.layout.tiled.inside _ (live_tile List.mem_cons_self)
    simp only [Block.Inside, maxOrd] at bound
    simp only [addr, extMemBase] at place
    omega
  have small : j ≤ 32 := (Nat.pow_le_pow_iff_right (show 1 < 2 by omega)).mp (by omega)
  obtain ⟨multiple, above, within⟩ := aligned_inside inside small
  refine ⟨_, _, mallocAlign_eq fits inner real inside, multiple, by omega, by omega, within, ?_,
    fun m' same => ?_⟩
  · have order' : (h.mem (raw - hdrSiz + 8)).toNat = ord := by
      rw [place, Nat.add_sub_cancel]
      exact header.ord
    rw [order']
    omega
  · have back : load32 m' (alignUp (raw + 4) (2 ^ j) - 4) = raw := by
      rw [load32_congr (m := store32 h.mem (alignUp (raw + 4) (2 ^ j) - 4) raw) fun x _ high =>
        same x (by omega)]
      exact load32_store32_same _ _ (by omega)
    -- every store since `malloc` went into the inner buffer
    have stored : ∀ x, x < raw ∨ raw + (siz + 2 ^ j + 3) ≤ x → m' x = h.mem x := by
      intro x outside
      rw [same x (by omega)]
      exact store32_other _ _ (by omega)
    have filled := inv'.fill (m := m') List.mem_cons_self (by
      intro x outside
      refine stored x ?_
      simpa only [Live.ptr, ← place] using outside)
    obtain ⟨h'', freed, lists⟩ := inv.freed_lists filled rfl
    refine ⟨h'', ?_, ?_, fun k _ => lists k⟩
    · rw [freeAlign]
      simp only [back]
    · simpa only [free, Live.ptr, ← place] using freed

theorem first_aligned_buffer :
    ∃ h a, mallocAlign (start fun _ => 0).heap 100 (2 ^ 4) = some (h, a) ∧ 2 ^ 4 ∣ a ∧
    extMemBase + hdrSiz ≤ a - 4 ∧ a + 100 ≤ extMemBase + hdrSiz + 119 := by
  have inner : (malloc (start fun _ => 0).heap (100 + 2 ^ 4 + 3)).map Prod.snd =
      some (extMemBase + hdrSiz) := by
    decide +kernel
  obtain ⟨⟨h, raw⟩, ran, rfl⟩ := Option.map_eq_some_iff.mp inner
  obtain ⟨h', a, aligned, multiple, back, _, inside, _⟩ :=
    aligned_buffer (fun _ => 0) (start fun _ => 0)
    ⟨[], Run.nil _⟩ 100 4 (by decide) h _ ran (by decide)
  exact ⟨h', a, aligned, multiple, back, inside⟩

end Buddy
