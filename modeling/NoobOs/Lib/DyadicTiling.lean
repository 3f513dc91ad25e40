import Mathlib.Data.Nat.Bitwise
import Mathlib.Data.Set.Insert
import Mathlib.Order.Interval.Finset.Nat
import Mathlib.Tactic.Ring

/- Tilings of [0, 2^top) by dyadic blocks. Every tile carries a tag of an
   arbitrary type, so that one block cannot be counted under two roles. -/
namespace DyadicTiling

structure Block where
  ord : Nat
  off : Nat
  deriving DecidableEq, Repr

def Block.Has (b : Block) (x : Nat) : Prop := b.off ≤ x ∧ x < b.off + 2 ^ b.ord
def Block.Aligned (b : Block) : Prop := 2 ^ b.ord ∣ b.off
def Block.Inside (b : Block) (top : Nat) : Prop := b.off + 2 ^ b.ord ≤ 2 ^ top

instance (b : Block) (x : Nat) : Decidable (b.Has x) :=
  inferInstanceAs (Decidable (_ ∧ _))

/-- The other half of the block one order up. -/
def Block.buddy (b : Block) : Block := ⟨b.ord, b.off ^^^ 2 ^ b.ord⟩

def Block.lower (b : Block) : Block := ⟨b.ord - 1, b.off⟩
def Block.upper (b : Block) : Block := ⟨b.ord - 1, b.off + 2 ^ (b.ord - 1)⟩
def Block.parent (b : Block) : Block := ⟨b.ord + 1, min b.off (b.off ^^^ 2 ^ b.ord)⟩

theorem size_pos (k : Nat) : 0 < 2 ^ k := Nat.two_pow_pos k

theorem size_succ (k : Nat) : 2 ^ (k + 1) = 2 ^ k + 2 ^ k := by
  rw [Nat.pow_succ]; omega

theorem has_start (b : Block) : b.Has b.off :=
  ⟨Nat.le_refl _, Nat.lt_add_of_pos_right (size_pos b.ord)⟩

theorem xor_size {o k : Nat} (aligned : 2 ^ k ∣ o) :
    (2 ^ (k + 1) ∣ o ∧ o ^^^ 2 ^ k = o + 2 ^ k) ∨
      (2 ^ k ≤ o ∧ 2 ^ (k + 1) ∣ o - 2 ^ k ∧ o ^^^ 2 ^ k = o - 2 ^ k) := by
  obtain ⟨q, rfl⟩ := aligned
  have shifted : (2 ^ k * q) ^^^ 2 ^ k = 2 ^ k * (q ^^^ 1) := by
    have both := Nat.shiftLeft_xor_distrib (a := q) (b := 1) (i := k)
    simp only [Nat.shiftLeft_eq, Nat.one_mul] at both
    rw [Nat.mul_comm, ← both, Nat.mul_comm]
  rw [shifted]
  rcases Nat.even_or_odd q with even | odd
  · left
    rw [Nat.xor_one_of_even even]
    obtain ⟨r, rfl⟩ := even
    exact ⟨⟨r, by rw [size_succ]; ring⟩, by ring⟩
  · right
    rw [Nat.xor_one_of_odd odd]
    obtain ⟨r, rfl⟩ := odd
    refine ⟨Nat.le_mul_of_pos_right _ (by omega), ⟨r, ?_⟩, ?_⟩
    · rw [size_succ, Nat.mul_add, Nat.mul_one, Nat.add_sub_cancel]; ring
    · rw [Nat.add_sub_cancel, Nat.mul_add, Nat.mul_one, Nat.add_sub_cancel]

theorem buddy_ne {b : Block} (aligned : b.Aligned) : b.off ^^^ 2 ^ b.ord ≠ b.off := by
  have pos := size_pos b.ord
  rcases xor_size aligned with ⟨_, eq⟩ | ⟨le, _, eq⟩ <;> omega

theorem buddy_aligned {b : Block} (aligned : b.Aligned) : b.buddy.Aligned := by
  rcases xor_size aligned with ⟨_, eq⟩ | ⟨_, _, eq⟩
  · simp only [Block.Aligned, Block.buddy, eq]
    exact Nat.dvd_add aligned (Nat.dvd_refl _)
  · simp only [Block.Aligned, Block.buddy, eq]
    exact Nat.dvd_sub aligned (Nat.dvd_refl _)

theorem parent_aligned {b : Block} (aligned : b.Aligned) : b.parent.Aligned := by
  have pos := size_pos b.ord
  rcases xor_size aligned with ⟨up, eq⟩ | ⟨le, down, eq⟩
  · simp only [Block.Aligned, Block.parent, eq]
    rwa [Nat.min_eq_left (by omega)]
  · simp only [Block.Aligned, Block.parent, eq]
    rwa [Nat.min_eq_right (by omega)]

theorem parent_has_iff {b : Block} (aligned : b.Aligned) (x : Nat) :
    b.parent.Has x ↔ b.Has x ∨ b.buddy.Has x := by
  have pos := size_pos b.ord
  have double := size_succ b.ord
  rcases xor_size aligned with ⟨_, eq⟩ | ⟨_, _, eq⟩ <;>
    simp only [Block.Has, Block.parent, Block.buddy, eq] <;> omega

theorem buddy_inside {b : Block} {top : Nat} (aligned : b.Aligned) (inside : b.Inside top)
    (below : b.ord < top) : b.buddy.Inside top := by
  rcases xor_size aligned with ⟨up, eq⟩ | ⟨_, _, eq⟩
  · simp only [Block.Inside, Block.buddy, eq]
    have whole : 2 ^ (b.ord + 1) ∣ 2 ^ top := Nat.pow_dvd_pow 2 below
    have strict : b.off < 2 ^ top := by
      have pos := size_pos b.ord
      simp only [Block.Inside] at inside
      omega
    have step := Nat.le_of_dvd (Nat.sub_pos_of_lt strict) (Nat.dvd_sub whole up)
    have double := size_succ b.ord
    omega
  · simp only [Block.Inside, Block.buddy, eq] at inside ⊢
    omega

theorem parent_inside {b : Block} {top : Nat} (aligned : b.Aligned) (inside : b.Inside top)
    (below : b.ord < top) : b.parent.Inside top := by
  have other := buddy_inside aligned inside below
  have double := size_succ b.ord
  rcases xor_size aligned with ⟨_, eq⟩ | ⟨_, _, eq⟩ <;>
    simp only [Block.Inside, Block.parent, Block.buddy, eq] at inside other ⊢ <;> omega

theorem nested {b c : Block} (ab : b.Aligned) (ac : c.Aligned) (smaller : b.ord ≤ c.ord)
    {x : Nat} (hb : b.Has x) (hc : c.Has x) : ∀ y, b.Has y → c.Has y := by
  obtain ⟨j, hj⟩ := ab
  obtain ⟨i, hi⟩ : 2 ^ b.ord ∣ c.off := Nat.dvd_trans (Nat.pow_dvd_pow 2 smaller) ac
  obtain ⟨n, hn⟩ : 2 ^ b.ord ∣ 2 ^ c.ord := Nat.pow_dvd_pow 2 smaller
  simp only [Block.Has] at hb hc ⊢
  rw [hj] at hb ⊢
  rw [hi, hn] at hc ⊢
  have low : i ≤ j := by
    by_contra less
    have step := Nat.mul_le_mul_left (2 ^ b.ord) (show j + 1 ≤ i by omega)
    rw [Nat.mul_add] at step
    omega
  have high : j + 1 ≤ i + n := by
    by_contra less
    have step := Nat.mul_le_mul_left (2 ^ b.ord) (show i + n ≤ j by omega)
    rw [Nat.mul_add] at step
    omega
  have lowStep := Nat.mul_le_mul_left (2 ^ b.ord) low
  have highStep := Nat.mul_le_mul_left (2 ^ b.ord) high
  rw [Nat.mul_add, Nat.mul_add] at highStep
  intro y hy
  omega

theorem same_order_eq {b c : Block} (ab : b.Aligned) (ac : c.Aligned) (order : b.ord = c.ord)
    {x : Nat} (hb : b.Has x) (hc : c.Has x) : b = c := by
  have left := nested ab ac (Nat.le_of_eq order) hb hc b.off (has_start b)
  have right := nested ac ab (Nat.le_of_eq order.symm) hc hb c.off (has_start c)
  cases b
  cases c
  simp only [Block.Has] at *
  simp only [Block.mk.injEq]
  omega

structure Tiles {κ : Type} (top : Nat) (T : Set (κ × Block)) : Prop where
  aligned : ∀ t ∈ T, t.2.Aligned
  inside : ∀ t ∈ T, t.2.Inside top
  cover : ∀ x, x < 2 ^ top → ∃ t ∈ T, t.2.Has x
  unique : ∀ t ∈ T, ∀ u ∈ T, ∀ x, t.2.Has x → u.2.Has x → t = u

theorem Tiles.apart {κ : Type} {top : Nat} {T : Set (κ × Block)} (tiles : Tiles top T)
    {t u : κ × Block} (mt : t ∈ T) (mu : u ∈ T) (different : t ≠ u) :
    t.2.off + 2 ^ t.2.ord ≤ u.2.off ∨ u.2.off + 2 ^ u.2.ord ≤ t.2.off := by
  by_contra overlap
  have pt := size_pos t.2.ord
  have pu := size_pos u.2.ord
  refine different (tiles.unique t mt u mu (max t.2.off u.2.off) ?_ ?_)
  · simp only [Block.Has]; omega
  · simp only [Block.Has]; omega

theorem Tiles.replace {κ : Type} {top : Nat} {T S R T' : Set (κ × Block)} (tiles : Tiles top T)
    (sub : S ⊆ T) (aligned : ∀ t ∈ R, t.2.Aligned) (inside : ∀ t ∈ R, t.2.Inside top)
    (same : ∀ x, (∃ t ∈ S, t.2.Has x) ↔ ∃ t ∈ R, t.2.Has x)
    (unique : ∀ t ∈ R, ∀ u ∈ R, ∀ x, t.2.Has x → u.2.Has x → t = u)
    (result : ∀ t, t ∈ T' ↔ t ∈ T ∧ t ∉ S ∨ t ∈ R) : Tiles top T' where
  aligned := by
    intro t member
    rcases (result t).mp member with ⟨old, _⟩ | new
    · exact tiles.aligned t old
    · exact aligned t new
  inside := by
    intro t member
    rcases (result t).mp member with ⟨old, _⟩ | new
    · exact tiles.inside t old
    · exact inside t new
  cover := by
    intro x bound
    obtain ⟨t, member, here⟩ := tiles.cover x bound
    by_cases removed : t ∈ S
    · obtain ⟨u, new, here'⟩ := (same x).mp ⟨t, removed, here⟩
      exact ⟨u, (result u).mpr (Or.inr new), here'⟩
    · exact ⟨t, (result t).mpr (Or.inl ⟨member, removed⟩), here⟩
  unique := by
    -- an old tile never meets a new one: the new one's points belonged to removed tiles
    have mixed : ∀ t ∈ T, t ∉ S → ∀ u ∈ R, ∀ x, t.2.Has x → ¬ u.2.Has x := by
      intro t old kept u new x ht hu
      obtain ⟨r, removed, hr⟩ := (same x).mpr ⟨u, new, hu⟩
      exact kept (tiles.unique t old r (sub removed) x ht hr ▸ removed)
    intro t mt u mu x ht hu
    rcases (result t).mp mt with ⟨told, tkept⟩ | tnew <;>
      rcases (result u).mp mu with ⟨uold, ukept⟩ | unew
    · exact tiles.unique t told u uold x ht hu
    · exact absurd hu (mixed t told tkept u unew x ht)
    · exact absurd ht (mixed u uold ukept t tnew x hu)
    · exact unique t tnew u unew x ht hu

theorem Tiles.retag {κ : Type} {top : Nat} {T T' : Set (κ × Block)} (tiles : Tiles top T)
    {i j : κ} {b : Block} (member : (i, b) ∈ T)
    (result : ∀ t, t ∈ T' ↔ t ∈ T ∧ t ≠ (i, b) ∨ t = (j, b)) : Tiles top T' := by
  refine tiles.replace (S := {(i, b)}) (R := {(j, b)}) ?_ ?_ ?_ ?_ ?_ (by simpa using result)
  · simpa using member
  · simpa using tiles.aligned _ member
  · simpa using tiles.inside _ member
  · simp
  · simp

theorem Tiles.split {κ : Type} {top : Nat} {T T' : Set (κ × Block)} (tiles : Tiles top T)
    {i lo hi : κ} {b : Block} (member : (i, b) ∈ T) (large : 0 < b.ord)
    (result : ∀ t, t ∈ T' ↔ t ∈ T ∧ t ≠ (i, b) ∨ t = (lo, b.lower) ∨ t = (hi, b.upper)) :
    Tiles top T' := by
  obtain ⟨k, hk⟩ : ∃ k, b.ord = k + 1 := ⟨b.ord - 1, by omega⟩
  have double := size_succ k
  have aligned := tiles.aligned _ member
  have inside := tiles.inside _ member
  simp only [Block.Aligned, Block.Inside, hk] at aligned inside
  have half : 2 ^ k ∣ b.off := Nat.dvd_trans (Nat.pow_dvd_pow 2 (by omega)) aligned
  have pos := size_pos k
  refine tiles.replace (S := {(i, b)}) (R := {(lo, b.lower), (hi, b.upper)})
    (by simpa using member) ?_ ?_ ?_ ?_ (by simpa using result)
  · rintro t (rfl | rfl)
    · simpa [Block.Aligned, Block.lower, hk] using half
    · simpa [Block.Aligned, Block.upper, hk] using half
  · rintro t (rfl | rfl)
    · simp only [Block.Inside, Block.lower, hk, Nat.add_sub_cancel]; omega
    · simp only [Block.Inside, Block.upper, hk, Nat.add_sub_cancel]; omega
  · intro x
    simp only [Set.mem_singleton_iff, exists_eq_left, Set.mem_insert_iff, or_and_right, exists_or,
      Block.Has, Block.lower, Block.upper, hk, Nat.add_sub_cancel]
    omega
  · rintro t (rfl | rfl) u (rfl | rfl) x ht hu
    · rfl
    · simp only [Block.Has, Block.lower, Block.upper, hk, Nat.add_sub_cancel] at ht hu
      omega
    · simp only [Block.Has, Block.lower, Block.upper, hk, Nat.add_sub_cancel] at ht hu
      omega
    · rfl

theorem Tiles.merge {κ : Type} {top : Nat} {T T' : Set (κ × Block)} (tiles : Tiles top T)
    {i j l : κ} {b : Block} (member : (i, b) ∈ T) (other : (j, b.buddy) ∈ T)
    (below : b.ord < top)
    (result : ∀ t, t ∈ T' ↔ t ∈ T ∧ t ≠ (i, b) ∧ t ≠ (j, b.buddy) ∨ t = (l, b.parent)) :
    Tiles top T' := by
  have aligned := tiles.aligned _ member
  refine tiles.replace (S := {(i, b), (j, b.buddy)}) (R := {(l, b.parent)}) ?_ ?_ ?_ ?_ ?_
    (by simpa [not_or] using result)
  · rintro t (rfl | rfl)
    · exact member
    · exact other
  · simpa using parent_aligned aligned
  · simpa using parent_inside aligned (tiles.inside _ member) below
  · intro x
    simpa [or_and_right, exists_or] using (parent_has_iff aligned x).symm
  · simp

section Coalesced
variable {κ : Type} {top : Nat} {T : Set (κ × Block)} {free : κ}

/-- No two buddies below the top order both carry the tag `free`. -/
def Coalesced (top : Nat) (free : κ) (T : Set (κ × Block)) : Prop :=
  ∀ b : Block, b.ord < top → (free, b) ∈ T → (free, b.buddy) ∉ T

def Clear (free : κ) (T : Set (κ × Block)) (b : Block) : Prop :=
  ∀ t ∈ T, t.1 ≠ free → ∀ x, b.Has x → ¬ t.2.Has x

theorem clear_of_free (tiles : Tiles top T) {b : Block} (member : (free, b) ∈ T) :
    Clear free T b := by
  intro t mt tag x hb ht
  have same := tiles.unique _ member t mt x hb ht
  exact tag (congrArg Prod.fst same).symm

/-- Completeness of coalescing: a clear aligned range lies inside one free tile.
    Induction on the order: the halves are covered, and if neither cover is
    larger than its half, the halves themselves are two free buddies. -/
theorem clear_covered (tiles : Tiles top T) (coalesced : Coalesced top free T) :
    ∀ (k : Nat) (b : Block), b.ord = k → b.Aligned → b.Inside top → Clear free T b →
      ∃ c, (free, c) ∈ T ∧ b.ord ≤ c.ord ∧ ∀ x, b.Has x → c.Has x := by
  intro k
  induction k with
  | zero =>
    intro b hk aligned inside clear
    have bound : b.off < 2 ^ top := by
      simp only [Block.Inside, hk] at inside
      omega
    obtain ⟨⟨tag, c⟩, member, here⟩ := tiles.cover b.off bound
    have same : tag = free := by
      by_contra other
      exact clear _ member other b.off (has_start b) here
    subst same
    exact ⟨c, member, by omega, nested aligned (tiles.aligned _ member) (by omega)
      (has_start b) here⟩
  | succ k ih =>
    intro b hk aligned inside clear
    have double := size_succ k
    have half : 2 ^ k ∣ b.off := by
      have step := aligned
      simp only [Block.Aligned, hk] at step
      exact Nat.dvd_trans (Nat.pow_dvd_pow 2 (by omega)) step
    -- the lower half as a block whose parent is `b`
    let h : Block := ⟨k, b.off⟩
    have hal : h.Aligned := half
    have xor : b.off ^^^ 2 ^ k = b.off + 2 ^ k := by
      rcases xor_size half with ⟨_, eq⟩ | ⟨le, up, _⟩
      · exact eq
      · have step := aligned
        simp only [Block.Aligned, hk] at step
        have odd : 2 ^ (k + 1) ∣ 2 ^ k := by
          have := Nat.dvd_sub step up
          rwa [Nat.sub_sub_self le] at this
        have small := Nat.le_of_dvd (size_pos k) odd
        have pos := size_pos k
        omega
    have parent : h.parent = b := by
      cases b
      simp only [Block.parent, h, Block.mk.injEq] at *
      exact ⟨hk.symm, by rw [xor]; omega⟩
    have below : h.ord < top := by
      simp only [Block.Inside, hk] at inside
      have : 2 ^ (k + 1) ≤ 2 ^ top := by omega
      exact (Nat.pow_le_pow_iff_right (by omega)).mp this
    have hin : h.Inside top := by
      simp only [Block.Inside, hk, h] at inside ⊢
      omega
    have halves : ∀ x, b.Has x ↔ h.Has x ∨ h.buddy.Has x := by
      intro x
      rw [← parent]
      exact parent_has_iff hal x
    have clearLow : Clear free T h :=
      fun t mt tag x hx => clear t mt tag x ((halves x).mpr (.inl hx))
    have clearHigh : Clear free T h.buddy :=
      fun t mt tag x hx => clear t mt tag x ((halves x).mpr (.inr hx))
    obtain ⟨c, mc, cord, chas⟩ := ih h rfl hal hin clearLow
    obtain ⟨d, md, dord, dhas⟩ := ih h.buddy rfl (buddy_aligned hal)
      (buddy_inside hal hin below) clearHigh
    have ac := tiles.aligned _ mc
    have ad := tiles.aligned _ md
    by_cases larger : b.ord ≤ c.ord
    · exact ⟨c, mc, larger, nested aligned ac larger ((halves h.off).mpr (.inl (has_start h)))
        (chas h.off (has_start h))⟩
    · by_cases larger' : b.ord ≤ d.ord
      · exact ⟨d, md, larger', nested aligned ad larger'
          ((halves h.buddy.off).mpr (.inr (has_start h.buddy)))
          (dhas h.buddy.off (has_start h.buddy))⟩
      · exfalso
        have ec : h = c := same_order_eq hal ac (by simp only [h] at cord ⊢; omega)
          (has_start h) (chas h.off (has_start h))
        have ed : h.buddy = d := same_order_eq (buddy_aligned hal) ad
          (by simp only [Block.buddy, h] at dord ⊢; omega) (has_start h.buddy)
          (dhas h.buddy.off (has_start h.buddy))
        rw [← ec] at mc
        rw [← ed] at md
        exact coalesced h below mc md

/-- The free tiles are exactly the maximal clear dyadic blocks. -/
theorem free_iff_maximal (tiles : Tiles top T) (coalesced : Coalesced top free T) (b : Block) :
    (free, b) ∈ T ↔ b.Aligned ∧ b.Inside top ∧ Clear free T b ∧
      (b.ord < top → ¬ Clear free T b.parent) := by
  constructor
  · intro member
    have aligned := tiles.aligned _ member
    have inside := tiles.inside _ member
    refine ⟨aligned, inside, clear_of_free tiles member, ?_⟩
    intro below clear
    obtain ⟨c, mc, cord, chas⟩ := clear_covered tiles coalesced _ b.parent rfl
      (parent_aligned aligned) (parent_inside aligned inside below) clear
    have here := chas b.off ((parent_has_iff aligned b.off).mpr (.inl (has_start b)))
    have same := tiles.unique _ member _ mc b.off (has_start b) here
    have order := congrArg (fun t => t.2.ord) same
    simp only [Block.parent] at cord order
    omega
  · rintro ⟨aligned, inside, clear, maximal⟩
    obtain ⟨c, mc, cord, chas⟩ := clear_covered tiles coalesced _ b rfl aligned inside clear
    have ac := tiles.aligned _ mc
    by_cases order : b.ord = c.ord
    · rw [same_order_eq aligned ac order (has_start b) (chas b.off (has_start b))]
      exact mc
    · exfalso
      have below : b.ord < top := by
        have cin := tiles.inside _ mc
        simp only [Block.Inside] at cin
        have : 2 ^ c.ord ≤ 2 ^ top := by omega
        have := (Nat.pow_le_pow_iff_right (by omega : 1 < 2)).mp this
        omega
      refine maximal below ?_
      have inner := nested (parent_aligned aligned) ac (by simp only [Block.parent]; omega)
        ((parent_has_iff aligned b.off).mpr (.inl (has_start b))) (chas b.off (has_start b))
      intro t mt tag x hx
      exact clear_of_free tiles mc t mt tag x (inner x hx)

end Coalesced

/-! ## Sizes -/

def totalSize : List Block → Nat
  | [] => 0
  | b :: bs => 2 ^ b.ord + totalSize bs

theorem totalSize_card {bs : List Block}
    (disjoint : bs.Pairwise fun b c => ∀ x, b.Has x → ¬ c.Has x) :
    ∃ bytes : Finset Nat, bytes.card = totalSize bs ∧ ∀ x, x ∈ bytes ↔ ∃ b ∈ bs, b.Has x := by
  induction bs with
  | nil => exact ⟨∅, rfl, by simp⟩
  | cons b bs ih =>
    obtain ⟨first, rest⟩ := List.pairwise_cons.mp disjoint
    obtain ⟨bytes, card, members⟩ := ih rest
    have own : ∀ x, x ∈ Finset.Ico b.off (b.off + 2 ^ b.ord) ↔ b.Has x := fun x => Finset.mem_Ico
    have apart : Disjoint (Finset.Ico b.off (b.off + 2 ^ b.ord)) bytes := by
      rw [Finset.disjoint_left]
      intro x here there
      obtain ⟨c, member, has⟩ := (members x).mp there
      exact first c member x ((own x).mp here) has
    refine ⟨Finset.Ico b.off (b.off + 2 ^ b.ord) ∪ bytes, ?_, fun x => ?_⟩
    · rw [Finset.card_union_of_disjoint apart, card, Nat.card_Ico,
        Nat.add_sub_cancel_left, totalSize]
    · rw [Finset.mem_union, own, members]
      simp

theorem totalSize_le {top : Nat} {bs : List Block} (inside : ∀ b ∈ bs, b.Inside top)
    (disjoint : bs.Pairwise fun b c => ∀ x, b.Has x → ¬ c.Has x) : totalSize bs ≤ 2 ^ top := by
  obtain ⟨bytes, card, members⟩ := totalSize_card disjoint
  have bounded : bytes ⊆ Finset.range (2 ^ top) := by
    intro x member
    obtain ⟨b, mb, has⟩ := (members x).mp member
    have within := inside b mb
    simp only [Block.Has, Block.Inside] at has within
    exact Finset.mem_range.mpr (by omega)
  have le := Finset.card_le_card bounded
  rwa [card, Finset.card_range] at le

end DyadicTiling
