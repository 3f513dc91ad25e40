import NoobOs.Mem.Operations

/-!
`km_init` over any region. It lists a single block of the largest order, wherever the
rounded base leaves it, and however many such blocks the region has.
-/
namespace Buddy
open ByteMemory LinkedChain

def FreeBlock (h : Heap) (k a : Nat) : Prop := k ≤ maxOrd ∧ ∃ xs, freeList h k = some xs ∧ a ∈ xs

/-- The region is given up, or the listed blocks tile a non-empty part of it. -/
def SetUp (h : Heap) (mem siz : Nat) : Prop :=
  (h.base = 0 ∧ ∀ k, k ≤ maxOrd → freeList h k = some []) ∨
    mem ≤ h.base ∧ h.base + h.siz ≤ mem + siz ∧ 0 < h.siz ∧
      (∀ k, k ≤ maxOrd → ∃ xs, freeList h k = some xs ∧ xs.Nodup) ∧
      (∀ x, (h.base ≤ x ∧ x < h.base + h.siz) ↔ ∃ k a, FreeBlock h k a ∧ a ≤ x ∧ x < a + 2 ^ k) ∧
      ∀ k a k' a' x, FreeBlock h k a → FreeBlock h k' a' → a ≤ x ∧ x < a + 2 ^ k →
        a' ≤ x ∧ x < a' + 2 ^ k' → k = k' ∧ a = a'

def maxBlock (siz : Nat) : Nat := 2 ^ maxOrdFor siz maxOrd

theorem maxOrdFor_le (siz : Nat) : ∀ k, maxOrdFor siz k ≤ k
  | 0 => Nat.le_refl _
  | k + 1 => by
    have below := maxOrdFor_le siz k
    unfold maxOrdFor
    split
    · omega
    · omega

theorem maxOrdFor_fits {siz : Nat} (some' : 1 ≤ siz) : ∀ k, 2 ^ maxOrdFor siz k ≤ siz
  | 0 => some'
  | k + 1 => by
    unfold maxOrdFor
    split
    · exact maxOrdFor_fits some' k
    · omega

section Region
variable (m : Mem) {mem siz : Nat}

theorem aligned_bounds (large : 32 ≤ siz) (inside : mem + siz ≤ 2 ^ 32) :
    mem ≤ alignUp mem (maxBlock siz) ∧ alignUp mem (maxBlock siz) < mem + maxBlock siz := by
  have fits : maxBlock siz ≤ siz := maxOrdFor_fits (by omega) maxOrd
  have pos : 0 < maxBlock siz := Nat.two_pow_pos _
  have low : maxOrdFor siz maxOrd ≤ 32 := Nat.le_trans (maxOrdFor_le siz maxOrd) (by decide)
  obtain ⟨ge, lt, _⟩ := alignUp_spec (x := mem) (show mem + maxBlock siz - 1 < 2 ^ 32 by omega) low
  exact ⟨ge, lt⟩

/-- The base never reaches the region's end, so the region is never given up. -/
theorem kmInit_eq (large : 32 ≤ siz) (word : siz < 2 ^ 32) (inside : mem + siz ≤ 2 ^ 32) :
    kmInit m mem siz =
      ⟨store32 m (alignUp mem (maxBlock siz)) 0, alignUp mem (maxBlock siz),
        (mem + siz - alignUp mem (maxBlock siz)) / maxBlock siz * maxBlock siz,
        Function.update (fun _ => 0) (maxOrdFor siz maxOrd)
        (alignUp mem (maxBlock siz)), 0, 0, 0⟩ := by
  have order := maxOrdFor_le siz maxOrd
  have fits : maxBlock siz ≤ siz := maxOrdFor_fits (by omega) maxOrd
  have pos : 0 < maxBlock siz := Nat.two_pow_pos _
  have low : maxOrdFor siz maxOrd ≤ 32 := Nat.le_trans order (by decide)
  obtain ⟨ge, lt⟩ := aligned_bounds large inside
  have adjust : (alignUp mem (maxBlock siz) + 2 ^ 32 - mem) % 2 ^ 32 =
    alignUp mem (maxBlock siz) - mem := by omega
  have room : ¬ siz ≤ alignUp mem (maxBlock siz) - mem := by omega
  have left : siz - (alignUp mem (maxBlock siz) - mem) =
    mem + siz - alignUp mem (maxBlock siz) := by omega
  have cut : (siz - (alignUp mem (maxBlock siz) - mem)) &&& (2 ^ 32 - maxBlock siz) =
      (mem + siz - alignUp mem (maxBlock siz)) / maxBlock siz * maxBlock siz := by
    rw [left]
    exact and_clear_low (by omega) low
  have unfolded : kmInit m mem siz =
      if siz ≤ (alignUp mem (maxBlock siz) + 2 ^ 32 - mem) % 2 ^ 32 then
        ⟨m, 0, 0, fun _ => 0, 0, 0, 0⟩
      else ⟨store32 m (alignUp mem (maxBlock siz)) 0, alignUp mem (maxBlock siz),
        (siz - (alignUp mem (maxBlock siz) + 2 ^ 32 - mem) % 2 ^ 32) &&& (2 ^ 32 - maxBlock siz),
        Function.update (fun _ => 0) (maxOrdFor siz maxOrd) (alignUp mem (maxBlock siz)),
        0, 0, 0⟩ := rfl
  rw [unfolded, adjust, if_neg room, cut]

theorem aligned_null (large : 32 ≤ siz) (word : siz < 2 ^ 32) : alignUp 0 (maxBlock siz) = 0 := by
  obtain ⟨_, lt⟩ := aligned_bounds large (show 0 + siz ≤ 2 ^ 32 by omega)
  have fits : maxBlock siz ≤ siz := maxOrdFor_fits (by omega) maxOrd
  have low : maxOrdFor siz maxOrd ≤ 32 := Nat.le_trans (maxOrdFor_le siz maxOrd) (by decide)
  have multiple : maxBlock siz ∣ alignUp 0 (maxBlock siz) :=
    (alignUp_spec (show 0 + maxBlock siz - 1 < 2 ^ 32 by omega) low).2.2
  exact Nat.eq_zero_of_dvd_of_lt multiple (by omega)

theorem freeList_kmInit (large : 32 ≤ siz) (word : siz < 2 ^ 32)
    (inside : mem + siz ≤ 2 ^ 32) (k : Nat) :
    freeList (kmInit m mem siz) k =
      some (if k = maxOrdFor siz maxOrd ∧ mem ≠ 0 then [alignUp mem (maxBlock siz)] else []) := by
  obtain ⟨ge, _⟩ := aligned_bounds large inside
  rw [freeList, kmInit_eq m large word inside]
  refine walk_of_chain ?_ walkFuel ?_
  · simp only
    by_cases top : k = maxOrdFor siz maxOrd
    · subst top
      simp only [Function.update_self, true_and]
      by_cases zero : mem = 0
      · subst zero
        rw [if_neg (fun real => real rfl), aligned_null large word]
        exact Chain.nil
      · rw [if_pos zero]
        refine Chain.cons (by omega) ?_
        rw [load32_store32_same _ _ (by decide)]
        exact Chain.nil
    · rw [if_neg (fun both => top both.1), Function.update_of_ne top]
      exact Chain.nil
  · split
    · rw [List.length_singleton]
      decide
    · exact Nat.two_pow_pos 32

theorem freeBlock_kmInit (large : 32 ≤ siz) (word : siz < 2 ^ 32)
    (inside : mem + siz ≤ 2 ^ 32) (k a : Nat) :
    FreeBlock (kmInit m mem siz) k a ↔
      k = maxOrdFor siz maxOrd ∧ mem ≠ 0 ∧ a = alignUp mem (maxBlock siz) := by
  unfold FreeBlock
  constructor
  · rintro ⟨_, xs, listed, member⟩
    rw [freeList_kmInit m large word inside] at listed
    obtain rfl := Option.some.inj listed
    by_cases here : k = maxOrdFor siz maxOrd ∧ mem ≠ 0
    · rw [if_pos here] at member
      exact ⟨here.1, here.2, List.mem_singleton.mp member⟩
    · rw [if_neg here] at member
      exact absurd member List.not_mem_nil
  · rintro ⟨rfl, real, rfl⟩
    refine ⟨maxOrdFor_le siz maxOrd, _, freeList_kmInit m large word inside _, ?_⟩
    rw [if_pos ⟨rfl, real⟩]
    exact List.mem_singleton.mpr rfl

theorem SetUp.single (large : 32 ≤ siz) (word : siz < 2 ^ 32) (inside : mem + siz ≤ 2 ^ 32)
    (real : mem ≠ 0)
    (right' : SetUp (kmInit m mem siz) mem siz) :
    alignUp mem (maxBlock siz) + maxBlock siz ≤ mem + siz ∧
      mem + siz < alignUp mem (maxBlock siz) + 2 * maxBlock siz := by
  have pos : 0 < maxBlock siz := Nat.two_pow_pos _
  obtain ⟨ge, lt⟩ := aligned_bounds large inside
  have listed := freeBlock_kmInit m large word inside
  have heap := kmInit_eq m large word inside
  have base : (kmInit m mem siz).base = alignUp mem (maxBlock siz) := by rw [heap]
  have size : (kmInit m mem siz).siz =
      (mem + siz - alignUp mem (maxBlock siz)) / maxBlock siz * maxBlock siz := by rw [heap]
  have parts := Nat.div_add_mod' (mem + siz - alignUp mem (maxBlock siz)) (maxBlock siz)
  have rest := Nat.mod_lt (mem + siz - alignUp mem (maxBlock siz)) pos
  rcases right' with ⟨null, _⟩ | ⟨_, _, some', _, tiled, _⟩
  · rw [base] at null
    omega
  · rw [base] at tiled
    -- the part set up and the one listed block have the same bytes, so the same end
    have covers : ∀ x,
        (alignUp mem (maxBlock siz) ≤ x ∧ x < alignUp mem (maxBlock siz) + (kmInit m mem siz).siz) ↔
          alignUp mem (maxBlock siz) ≤ x ∧ x < alignUp mem (maxBlock siz) + maxBlock siz := by
      intro x
      rw [tiled x]
      constructor
      · rintro ⟨k, a, free, here⟩
        obtain ⟨rfl, _, rfl⟩ := (listed k a).mp free
        exact here
      · intro here
        exact ⟨_, _, (listed _ _).mpr ⟨rfl, real, rfl⟩, here⟩
    have first := covers (alignUp mem (maxBlock siz) + maxBlock siz)
    have last := covers (alignUp mem (maxBlock siz) + maxBlock siz - 1)
    have whole : (kmInit m mem siz).siz = maxBlock siz := by omega
    rw [size] at whole
    omega

theorem setUp_null (large : 32 ≤ siz) (word : siz < 2 ^ 32) : SetUp (kmInit m 0 siz) 0 siz := by
  left
  refine ⟨?_, fun k _ => ?_⟩
  · rw [kmInit_eq m large word (by omega)]
    exact aligned_null large word
  · rw [freeList_kmInit m large word (by omega), if_neg (fun both => both.2 rfl)]

theorem setUp_single (large : 32 ≤ siz) (word : siz < 2 ^ 32) (inside : mem + siz ≤ 2 ^ 32)
    (real : mem ≠ 0)
    (fits : alignUp mem (maxBlock siz) + maxBlock siz ≤ mem + siz)
    (single : mem + siz < alignUp mem (maxBlock siz) + 2 * maxBlock siz) :
    SetUp (kmInit m mem siz) mem siz := by
  have pos : 0 < maxBlock siz := Nat.two_pow_pos _
  have listed := freeBlock_kmInit m large word inside
  have heap := kmInit_eq m large word inside
  have base : (kmInit m mem siz).base = alignUp mem (maxBlock siz) := by rw [heap]
  have once : (mem + siz - alignUp mem (maxBlock siz)) / maxBlock siz = 1 :=
    Nat.div_eq_of_lt_le (by omega) (by omega)
  have whole : (kmInit m mem siz).siz = maxBlock siz := by
    rw [heap]
    simp only [once, Nat.one_mul]
  right
  rw [base, whole]
  refine ⟨(aligned_bounds large inside).1, fits, pos,
    fun k _ => ⟨_, freeList_kmInit m large word inside k, ?_⟩, fun x => ?_, ?_⟩
  · split
    · exact List.nodup_singleton _
    · exact List.nodup_nil
  · constructor
    · intro here
      exact ⟨_, _, (listed _ _).mpr ⟨rfl, real, rfl⟩, here⟩
    · rintro ⟨k, a, free, here⟩
      obtain ⟨rfl, _, rfl⟩ := (listed k a).mp free
      exact here
  · intro k a k' a' x free free' _ _
    obtain ⟨rfl, _, rfl⟩ := (listed k a).mp free
    obtain ⟨rfl, _, rfl⟩ := (listed k' a').mp free'
    exact ⟨rfl, rfl⟩

/-- The region is set up right if and only if exactly one of its largest blocks fits behind the
    rounded base, or the base is 0. -/
theorem setUp_iff (large : 32 ≤ siz) (word : siz < 2 ^ 32) (inside : mem + siz ≤ 2 ^ 32) :
    SetUp (kmInit m mem siz) mem siz ↔
      mem = 0 ∨ alignUp mem (maxBlock siz) + maxBlock siz ≤ mem + siz ∧
        mem + siz < alignUp mem (maxBlock siz) + 2 * maxBlock siz := by
  by_cases zero : mem = 0
  · subst zero
    exact ⟨fun _ => Or.inl rfl, fun _ => setUp_null m large word⟩
  · constructor
    · intro right'
      exact Or.inr (right'.single m large word inside zero)
    · intro condition
      obtain ⟨fits, single⟩ := condition.resolve_left zero
      exact setUp_single m large word inside zero fits single

end Region

theorem extMem_set_up : SetUp (kmallocInit fun _ => 0) extMemBase extMemSiz :=
  (setUp_iff _ (by decide) (by decide) (by decide)).mpr (Or.inr (by decide))

/-- A megabyte from 0x200010 on: nothing of it is left, and the megabyte after it is listed. -/
theorem unaligned_region_lost :
    (kmInit (fun _ => 0) 0x200010 0x100000).siz = 0 ∧
      FreeBlock (kmInit (fun _ => 0) 0x200010 0x100000) 20 0x300000 ∧
      ¬ SetUp (kmInit (fun _ => 0) 0x200010 0x100000) 0x200010 0x100000 := by
  refine ⟨by decide +kernel, ?_, fun right' => ?_⟩
  · exact (freeBlock_kmInit _ (by decide) (by decide) (by decide) 20 0x300000).mpr (by decide)
  · have single := right'.single _ (by decide) (by decide) (by decide) (by decide)
    exact absurd single (by decide)

end Buddy
