import NoobOs.Fs.Inode
import Mathlib.Data.List.Perm.Subperm

/- The invariant of the inode cache and what `iget`, `iput` and `purge_lru` do to it. -/
namespace InodeCache
open RingList HookedChain Lists

def key (sDev : Nat → Nat) (n : Inode) : Option Nat × Nat := (n.sb.map sDev, n.ino)

/-- `alive` are the inodes allocated and not freed; those in use hang off the hash
    chain of their key, the idle ones are on the ring. -/
structure Cached (sDev : Nat → Nat) (c : Cache) (alive : List Nat) (chains : Nat → List Nat)
    (idle : List Nat) : Prop where
  table : Table c.hash chains
  ring : Ring c.lru ilru idle
  sentinel : (c.inode ilru).sb = none
  hashed : ∀ h p, p ∈ chains h ↔ p ∈ alive ∧ 0 < (c.inode p).refs ∧
    ∃ sb, (c.inode p).sb = some sb ∧ h = ihash (sDev sb) (c.inode p).ino
  resting : ∀ p, p ∈ idle ↔ p ∈ alive ∧ (c.inode p).refs = 0
  known : ∀ p ∈ alive, (c.inode p).sb ≠ none
  unique : ∀ p ∈ alive, ∀ q ∈ alive, key sDev (c.inode p) = key sDev (c.inode q) → p = q
  real : ∀ p ∈ alive, p ≠ ilru ∧ p < 2 ^ 32
  counter : ∀ p ∈ alive, (c.inode p).refs < 2 ^ 16
  distinct : alive.Nodup

section Scans
variable {sbs : SuperBlocks} {c : Cache} {dev ino : Nat}

def isKey (sDev : Nat → Nat) (c : Cache) (dev ino : Nat) (p : Nat) : Bool :=
  key sDev (c.inode p) = (some dev, ino)

theorem matches_eq {p sb : Nat} (known : (c.inode p).sb = some sb) :
    (c.inode p).matches sbs sb dev ino = isKey sbs.sDev c dev ino p := by
  simp [Inode.matches, isKey, key, known]

theorem scanHash_chain {s : Slot Nat Nat} {xs : List Nat} (hooked : Hooked c.hash s xs)
    (known : ∀ p ∈ xs, (c.inode p).sb ≠ none) (fuel : Nat) (enough : xs.length < fuel) :
    scanHash sbs c dev ino fuel (c.hash.get s) = some (xs.find? (isKey sbs.sDev c dev ino)) := by
  induction xs generalizing s fuel with
  | nil =>
    obtain ⟨fuel, rfl⟩ : ∃ n, fuel = n + 1 := ⟨fuel - 1, by simp at enough; omega⟩
    have null : c.hash.get s = none := hooked
    rw [null]
    rfl
  | cons x xs ih =>
    obtain ⟨fuel, rfl⟩ : ∃ n, fuel = n + 1 := ⟨fuel - 1, by simp at enough; omega⟩
    obtain ⟨head, _, tail⟩ := hooked
    obtain ⟨sb, owner⟩ := Option.ne_none_iff_exists'.mp (known x List.mem_cons_self)
    have rest := ih tail (fun p member => known p (List.mem_cons_of_mem _ member)) fuel
      (by simp at enough; omega)
    simp only [Chains.get] at rest
    rw [head]
    simp only [scanHash, owner, Option.bind_eq_bind, Option.bind_some, matches_eq owner,
      List.find?_cons]
    cases found : isKey sbs.sDev c dev ino x with
    | true => rfl
    | false => simpa using rest

theorem scanLru_ring {m : Nat} {xs : List Nat} (linked : Linked c.lru m xs ilru)
    (outside : ilru ∉ xs) (fuel : Nat) (enough : xs.length < fuel) :
    scanLru sbs c dev ino fuel m = some ((m :: xs).find? (isKey sbs.sDev c dev ino)) := by
  have test : ∀ p, ((c.inode p).sb.any fun sb => (c.inode p).matches sbs sb dev ino) =
      isKey sbs.sDev c dev ino p := by
    intro p
    cases owner : (c.inode p).sb with
    | none => simp [isKey, key, owner]
    | some sb => simp [matches_eq owner]
  induction xs generalizing m fuel with
  | nil =>
    obtain ⟨fuel, rfl⟩ : ∃ n, fuel = n + 1 := ⟨fuel - 1, by simp at enough; omega⟩
    simp only [scanLru, test, linked.1, List.find?_cons]
    cases isKey sbs.sDev c dev ino m <;> simp
  | cons x xs ih =>
    obtain ⟨fuel, rfl⟩ : ∃ n, fuel = n + 1 := ⟨fuel - 1, by simp at enough; omega⟩
    obtain ⟨next, _, tail⟩ := linked
    have rest := ih tail (fun member => outside (List.mem_cons_of_mem _ member)) fuel
      (by simp at enough; omega)
    have onward : x ≠ ilru := fun same => outside (same ▸ List.mem_cons_self)
    rw [List.find?_cons]
    simp only [scanLru, test, next, Option.bind_eq_bind, Option.bind_some, if_neg onward]
    cases isKey sbs.sDev c dev ino m with
    | true => rfl
    | false => simpa using rest

end Scans

theorem scan_short {xs : List Nat} (nodup : xs.Nodup)
    (real : ∀ p ∈ xs, p ≠ ilru ∧ p < 2 ^ 32) : xs.length < scanFuel := by
  have nodup' : (ilru :: xs).Nodup :=
    List.nodup_cons.mpr ⟨fun member => (real _ member).1 rfl, nodup⟩
  have sub : (ilru :: xs) ⊆ List.range (2 ^ 32) := by
    intro p member
    rw [List.mem_range]
    rcases List.mem_cons.mp member with rfl | inside
    · decide
    · exact (real p inside).2
  have le := (nodup'.subperm sub).length_le
  rw [List.length_range, List.length_cons] at le
  exact le

theorem find_unique {xs : List Nat} {test : Nat → Bool} {p : Nat} (member : p ∈ xs)
    (holds : test p) (only : ∀ x ∈ xs, test x → x = p) : xs.find? test = some p := by
  cases found : xs.find? test with
  | none => exact absurd holds (List.find?_eq_none.mp found p member)
  | some x =>
    have here := List.mem_of_find?_eq_some found
    have tested := List.find?_some found
    rw [only x here tested]

theorem mem_update_cons {chains : Nat → List Nat} {p q h k : Nat} :
    q ∈ Function.update chains k (p :: chains k) h ↔ (q = p ∧ h = k) ∨ q ∈ chains h := by
  by_cases same : h = k
  · subst same
    simp
  · simp [same]

theorem mem_update_erase {chains : Nat → List Nat} {p q h k : Nat} (nodup : (chains k).Nodup) :
    q ∈ Function.update chains k ((chains k).erase p) h ↔ q ∈ chains h ∧ ¬ (q = p ∧ h = k) := by
  by_cases same : h = k
  · subst same
    simp [nodup.mem_erase_iff, and_comm]
  · simp [same]

section Operations
variable {sDev : Nat → Nat} {sbs : SuperBlocks} {c : Cache} {alive : List Nat}
  {chains : Nat → List Nat}
  {idle : List Nat} {p : Nat}

/-- After a change to one inode `p`, old or new, it is enough to know where `p`
    is linked and that everything else is linked as before. -/
theorem Cached.rebuild (cached : Cached sDev c alive chains idle) (c' : Cache)
    {alive' : List Nat} {chains' : Nat → List Nat} {idle' : List Nat} {n : Inode} {sb : Nat}
    (place : p ≠ ilru ∧ p < 2 ^ 32) (content : c'.inode = Function.update c.inode p n)
    (owner : n.sb = some sb) (counter : n.refs < 2 ^ 16)
    (others : ∀ q ∈ alive, q ≠ p → key sDev (c.inode q) ≠ key sDev n)
    (table : Table c'.hash chains') (ring : Ring c'.lru ilru idle')
    (hashed : ∀ h q, q ∈ chains' h ↔
      if q = p then 0 < n.refs ∧ h = ihash (sDev sb) n.ino else q ∈ chains h)
    (resting : ∀ q, q ∈ idle' ↔ if q = p then n.refs = 0 else q ∈ idle)
    (members : ∀ q, q ∈ alive' ↔ q = p ∨ q ∈ alive) (distinct : alive'.Nodup) :
    Cached sDev c' alive' chains' idle' := by
  have here : c'.inode p = n := by simp [content]
  have there : ∀ q, q ≠ p → c'.inode q = c.inode q := by
    intro q other
    simp [content, other]
  refine ⟨table, ring, ?_, ?_, ?_, ?_, ?_, ?_, ?_, distinct⟩
  · rw [there ilru place.1.symm]
    exact cached.sentinel
  · intro h q
    rw [hashed, members]
    by_cases same : q = p
    · subst same
      simp [here, owner]
    · rw [if_neg same, there q same, cached.hashed h q]
      simp [same]
  · intro q
    rw [resting, members]
    by_cases same : q = p
    · subst same
      simp [here]
    · rw [if_neg same, there q same, cached.resting q]
      simp [same]
  · intro q member
    by_cases same : q = p
    · subst same
      simp [here, owner]
    · rw [there q same]
      exact cached.known q (((members q).mp member).resolve_left same)
  · intro q mq r mr keys
    by_cases sameQ : q = p <;> by_cases sameR : r = p
    · exact sameQ.trans sameR.symm
    · subst sameQ
      rw [here, there r sameR] at keys
      exact absurd keys.symm (others r (((members r).mp mr).resolve_left sameR) sameR)
    · subst sameR
      rw [here, there q sameQ] at keys
      exact absurd keys (others q (((members q).mp mq).resolve_left sameQ) sameQ)
    · rw [there q sameQ, there r sameR] at keys
      exact cached.unique q (((members q).mp mq).resolve_left sameQ) r
        (((members r).mp mr).resolve_left sameR) keys
  · intro q member
    rcases (members q).mp member with rfl | old
    · exact place
    · exact cached.real q old
  · intro q member
    by_cases same : q = p
    · subst same
      rwa [here]
    · rw [there q same]
      exact cached.counter q (((members q).mp member).resolve_left same)

theorem Cached.relink (cached : Cached sDev c alive chains idle) (member : p ∈ alive)
    (c' : Cache) {chains' : Nat → List Nat} {idle' : List Nat} {n : Inode} {sb : Nat}
    (content : c'.inode = Function.update c.inode p n) (owner : (c.inode p).sb = some sb)
    (sameSb : n.sb = (c.inode p).sb) (sameIno : n.ino = (c.inode p).ino)
    (counter : n.refs < 2 ^ 16) (table : Table c'.hash chains') (ring : Ring c'.lru ilru idle')
    (hashed : ∀ h q, q ∈ chains' h ↔
      if q = p then 0 < n.refs ∧ h = ihash (sDev sb) n.ino else q ∈ chains h)
    (resting : ∀ q, q ∈ idle' ↔ if q = p then n.refs = 0 else q ∈ idle) :
    Cached sDev c' alive chains' idle' := by
  apply cached.rebuild c' (cached.real p member) content (sameSb.trans owner) counter _ table ring
    hashed resting _ cached.distinct
  · intro q mq other keys
    apply other
    apply cached.unique q mq p member
    simpa only [key, sameSb, sameIno] using keys
  · intro q
    constructor
    · exact Or.inr
    · rintro (rfl | old)
      · exact member
      · exact old

theorem Cached.retouch (cached : Cached sDev c alive chains idle) (member : p ∈ alive)
    {n : Inode} (sameSb : n.sb = (c.inode p).sb) (sameIno : n.ino = (c.inode p).ino)
    (side : n.refs = 0 ↔ (c.inode p).refs = 0) (counter : n.refs < 2 ^ 16) :
    Cached sDev (c.setNode p n) alive chains idle := by
  obtain ⟨sb, owner⟩ := Option.ne_none_iff_exists'.mp (cached.known p member)
  apply cached.relink member (c.setNode p n) rfl owner sameSb sameIno counter cached.table
    cached.ring
  · intro h q
    by_cases same : q = p
    · subst same
      rw [if_pos rfl, cached.hashed h q, sameIno, Nat.pos_iff_ne_zero, Nat.pos_iff_ne_zero, ne_eq,
        ne_eq, side]
      simp [member, owner]
    · rw [if_neg same]
  · intro q
    by_cases same : q = p
    · subst same
      rw [if_pos rfl, cached.resting q, side]
      simp [member]
    · rw [if_neg same]

theorem Cached.idle_short (cached : Cached sDev c alive chains idle) :
    idle.length < scanFuel := by
  apply scan_short (List.nodup_cons.mp cached.ring.distinct).2
  exact fun q member => cached.real q ((cached.resting q).mp member).1

theorem Cached.chain_short (cached : Cached sDev c alive chains idle) (h : Nat) :
    (chains h).length < scanFuel := by
  apply scan_short (cached.table.nodup h)
  exact fun q member => cached.real q ((cached.hashed h q).mp member).1

theorem Cached.scanHash_eq (cached : Cached sbs.sDev c alive chains idle) (dev ino h : Nat) :
    scanHash sbs c dev ino scanFuel (c.hash.first h) =
      some ((chains h).find? (isKey sbs.sDev c dev ino)) := by
  apply scanHash_chain (cached.table.hooked h) _ _ (cached.chain_short h)
  exact fun q member => cached.known q ((cached.hashed h q).mp member).1

theorem Cached.scanLru_eq (cached : Cached sbs.sDev c alive chains idle) (dev ino : Nat) :
    scanLru sbs c dev ino scanFuel ilru = some (idle.find? (isKey sbs.sDev c dev ino)) := by
  rw [scanLru_ring cached.ring.linked (List.nodup_cons.mp cached.ring.distinct).1 _
    cached.idle_short]
  have head : isKey sbs.sDev c dev ino ilru = false := by
    simp [isKey, key, cached.sentinel]
  rw [List.find?_cons_of_neg (by simp [head])]

theorem Cached.hashed_key (cached : Cached sDev c alive chains idle) {dev ino : Nat}
    (member : p ∈ alive) (same : key sDev (c.inode p) = (some dev, ino))
    (used : 0 < (c.inode p).refs) : p ∈ chains (ihash dev ino) := by
  obtain ⟨sb, owner⟩ := Option.ne_none_iff_exists'.mp (cached.known p member)
  simp only [key, owner, Option.map_some, Prod.mk.injEq, Option.some.injEq] at same
  exact (cached.hashed _ p).mpr ⟨member, used, sb, owner, by rw [same.1, same.2]⟩

theorem isKey_iff {dev ino : Nat} :
    isKey sDev c dev ino p = true ↔ key sDev (c.inode p) = (some dev, ino) := by
  simp [isKey]

theorem iget_hashed (cached : Cached sbs.sDev c alive chains idle) {sb ino : Nat} (new : Nat)
    (member : p ∈ alive) (same : key sbs.sDev (c.inode p) = (some (sbs.sDev sb), ino))
    (used : 0 < (c.inode p).refs) :
    iget sbs c (some sb) ino new = some (incRefs c p, some p) := by
  have found : (chains (ihash (sbs.sDev sb) ino)).find? (isKey sbs.sDev c (sbs.sDev sb) ino) =
      some p := by
    apply find_unique (cached.hashed_key member same used) (isKey_iff.mpr same)
    intro q mq tested
    exact cached.unique q ((cached.hashed _ q).mp mq).1 p member
      ((isKey_iff.mp tested).trans same.symm)
  simp only [iget, cached.scanHash_eq, found, Option.bind_eq_bind, Option.bind_some,
    Option.pure_def]

theorem no_hash_hit (cached : Cached sDev c alive chains idle) {dev ino h : Nat}
    (absent : ∀ q ∈ alive, key sDev (c.inode q) = (some dev, ino) → (c.inode q).refs = 0) :
    (chains h).find? (isKey sDev c dev ino) = none := by
  rw [List.find?_eq_none]
  intro q mq tested
  obtain ⟨alive, used, _⟩ := (cached.hashed h q).mp mq
  have zero := absent q alive (isKey_iff.mp tested)
  omega

theorem iget_idle (cached : Cached sbs.sDev c alive chains idle) {sb ino : Nat} (new : Nat)
    (member : p ∈ alive) (same : key sbs.sDev (c.inode p) = (some (sbs.sDev sb), ino))
    (unused : (c.inode p).refs = 0) :
    ∃ c', iget sbs c (some sb) ino new = some (c', some p) ∧
      c'.inode = Function.update c.inode p { c.inode p with refs := 1 } ∧
      Cached sbs.sDev c' alive
        (Function.update chains (ihash (sbs.sDev sb) ino) (p :: chains (ihash (sbs.sDev sb) ino)))
        (idle.erase p) := by
  have resting : p ∈ idle := (cached.resting p).mpr ⟨member, unused⟩
  have notHashed : ∀ h, p ∉ chains h := by
    intro h hashed
    have used := ((cached.hashed h p).mp hashed).2.1
    omega
  have onlyOne : ∀ q ∈ alive, key sbs.sDev (c.inode q) = (some (sbs.sDev sb), ino) → q = p :=
    fun q mq keys => cached.unique q mq p member (keys.trans same.symm)
  have miss := no_hash_hit (h := ihash (sbs.sDev sb) ino) cached fun q mq keys =>
    onlyOne q mq keys ▸ unused
  have found : idle.find? (isKey sbs.sDev c (sbs.sDev sb) ino) = some p := by
    apply find_unique resting (isKey_iff.mpr same)
    exact fun q mq tested => onlyOne q ((cached.resting q).mp mq).1 (isKey_iff.mp tested)
  obtain ⟨lru, removed, ring⟩ := listDel_ring cached.ring resting
  obtain ⟨sb', owner⟩ := Option.ne_none_iff_exists'.mp (cached.known p member)
  have spelled := same
  simp only [key, owner, Option.map_some, Prod.mk.injEq, Option.some.injEq] at spelled
  let c' : Cache := ⟨Function.update c.inode p { c.inode p with refs := 1 }, lru,
    hlistAddHead c.hash p (ihash (sbs.sDev sb) ino)⟩
  refine ⟨c', ?_, rfl, ?_⟩
  · simp only [iget, cached.scanHash_eq, miss, cached.scanLru_eq, found, unused, removed,
      Option.bind_eq_bind, Option.bind_some, Option.pure_def, if_pos, incRefs, Cache.setNode,
      Nat.zero_add, Nat.reducePow, Nat.reduceMod, c']
  · apply cached.relink member c' rfl owner rfl rfl (by simp)
      (hlistAddHead_table cached.table notHashed) ring
    · intro h q
      rw [mem_update_cons, spelled.1, spelled.2]
      by_cases other : q = p
      · subst other
        simp [notHashed h]
      · simp [other]
    · intro q
      by_cases other : q = p
      · subst other
        simpa using (List.nodup_cons.mp cached.ring.distinct).2.not_mem_erase
      · simp [other, List.mem_erase_of_ne other]

def newNode (sbs : SuperBlocks) (sb ino : Nat) : Inode :=
  let blank : Inode :=
    { Inode.zero with ino := ino, dev := sbs.sDev sb, sb := some sb, refs := 1 }
  { ((sbs.readInode sb).call ⟨blank, none, none, none, none⟩).node with
    ino := ino, dev := sbs.sDev sb, sb := some sb, refs := 1 }

theorem call_node (r : ReadInode) {i j : Image} (same : i.node = j.node) :
    (r.call i).node = (r.call j).node := by
  cases r with
  | absent => exact same
  | ext2 disk => simp [ReadInode.call, ext2Inoder, same]
  | dev devnode entry =>
    simp only [ReadInode.call, devInoder, same]
    split
    · rfl
    · split
      · rfl
      · exact same

theorem readNew_inode (sb ino new : Nat) :
    (readNew sbs c sb ino new).inode = Function.update c.inode new (newNode sbs sb ino) := by
  funext q
  by_cases same : q = new
  · subst same
    simp only [readNew, newNode, Cache.setNode, Cache.setImage, Function.update_self]
    rw [call_node (sbs.readInode sb)]
    simp [Cache.image]
  · simp [readNew, Cache.setNode, Cache.setImage, same]

theorem ring_set {l : Links Nat} {xs : List Nat} (ring : Ring l ilru xs) (apart : p ∉ ilru :: xs)
    (v w : Option Nat) : Ring ((l.setNext p v).setPrev p w) ilru xs := by
  have other : ∀ q, q = ilru ∨ q ∈ xs → q ≠ p := by
    rintro q place rfl
    exact apart (List.mem_cons.mpr place)
  refine ⟨ring.distinct, linked_congr ring.linked ?_ ?_⟩
  · intro q place
    simp [Links.setNext, Links.setPrev, other q place]
  · intro q place
    simp [Links.setNext, Links.setPrev, other q place]

theorem table_set {t : Chains Nat Nat} (table : Table t chains) (apart : ∀ h, p ∉ chains h)
    (v : Option Nat) (w : Option (Slot Nat Nat)) :
    Table ((t.set (.next p) v).setPprev p w) chains := by
  have other : ∀ h, ∀ q ∈ chains h, q ≠ p := by
    rintro h q member rfl
    exact apart h member
  refine ⟨fun h => hooked_congr (table.hooked h) ?_ ?_ ?_, table.nodup, table.apart⟩
  · simp [get_set_other]
  · intro q member
    simp [get_set_other, other h q member]
  · intro q member
    simp [Chains.setPprev, other h q member]

theorem iget_missing (cached : Cached sbs.sDev c alive chains idle) {sb ino new : Nat}
    (fresh : new ∉ alive) (place : new ≠ ilru ∧ new < 2 ^ 32)
    (missing : ∀ q ∈ alive, key sbs.sDev (c.inode q) ≠ (some (sbs.sDev sb), ino)) :
    iget sbs c (some sb) ino new = some (readNew sbs c sb ino new, some new) ∧
      Cached sbs.sDev (readNew sbs c sb ino new) (new :: alive)
        (Function.update chains (ihash (sbs.sDev sb) ino) (new :: chains (ihash (sbs.sDev sb) ino)))
        idle := by
  have miss := no_hash_hit (h := ihash (sbs.sDev sb) ino) cached fun q mq keys =>
    absurd keys (missing q mq)
  have notIdle : idle.find? (isKey sbs.sDev c (sbs.sDev sb) ino) = none := by
    rw [List.find?_eq_none]
    exact fun q mq tested => missing q ((cached.resting q).mp mq).1 (isKey_iff.mp tested)
  have notHashed : ∀ h, new ∉ chains h := fun h hashed => fresh ((cached.hashed h new).mp hashed).1
  have offRing : new ∉ ilru :: idle := by
    intro member
    rcases List.mem_cons.mp member with same | resting
    · exact place.1 same
    · exact fresh ((cached.resting new).mp resting).1
  constructor
  · simp only [iget, cached.scanHash_eq, miss, cached.scanLru_eq, notIdle, Option.bind_eq_bind,
      Option.bind_some, Option.pure_def]
  · apply cached.rebuild _ place (readNew_inode sb ino new) rfl (by simp [newNode])
    · intro q mq _ keys
      exact missing q mq keys
    · exact hlistAddHead_table (table_set (table_set cached.table notHashed _ _) notHashed _ _)
        notHashed
    · exact ring_set (ring_set (ring_set cached.ring offRing _ _) offRing _ _) offRing _ _
    · intro h q
      rw [mem_update_cons]
      by_cases other : q = new
      · subst other
        simp [newNode, notHashed h]
      · simp [other]
    · intro q
      by_cases other : q = new
      · subst other
        simp only [if_pos, newNode]
        simpa using fun resting => offRing (List.mem_cons_of_mem _ resting)
      · simp [other]
    · intro q
      exact List.mem_cons
    · exact List.nodup_cons.mpr ⟨fresh, cached.distinct⟩

/-- Dropping a reference; the last one moves the inode to the ring. -/
theorem iput_spec (cached : Cached sDev c alive chains idle) (member : p ∈ alive)
    (held : 0 < (c.inode p).refs) :
    ∃ c' chains' idle', iput c p = some c' ∧
      c'.inode = Function.update c.inode p { c.inode p with refs := (c.inode p).refs - 1 } ∧
      Cached sDev c' alive chains' idle' := by
  have counter := cached.counter p member
  obtain ⟨sb, owner⟩ := Option.ne_none_iff_exists'.mp (cached.known p member)
  by_cases last : (c.inode p).refs = 1
  · have hashed : p ∈ chains (ihash (sDev sb) (c.inode p).ino) :=
      (cached.hashed _ p).mpr ⟨member, held, sb, owner, rfl⟩
    have notIdle : p ∉ idle := by
      intro resting
      have zero := ((cached.resting p).mp resting).2
      omega
    have offRing : p ∉ ilru :: idle := by
      intro place
      rcases List.mem_cons.mp place with same | resting
      · exact (cached.real p member).1 same
      · exact notIdle resting
    obtain ⟨lru, added, ring⟩ := listAdd_ring cached.ring offRing
    obtain ⟨hash, removed, table⟩ := hlistDel_table cached.table hashed
    let c' : Cache := ⟨Function.update c.inode p { c.inode p with refs := 0 }, lru, hash⟩
    refine ⟨c', _, _, ?_, ?_, cached.relink member c' rfl owner rfl rfl (by simp) table ring ?_ ?_⟩
    · simp [iput, last, Cache.setNode, added, removed, c']
    · simp [last, c']
    · intro h q
      rw [mem_update_erase (cached.table.nodup _)]
      by_cases other : q = p
      · subst other
        simp only [true_and, if_pos, Nat.lt_irrefl, false_and, iff_false, not_and, not_not]
        exact fun inside => cached.table.apart _ _ q inside hashed
      · simp [other]
    · intro q
      by_cases other : q = p
      · simp [other]
      · simp [other]
  · refine ⟨_, chains, idle, ?_, rfl,
      cached.retouch (n := { c.inode p with refs := (c.inode p).refs - 1 }) member rfl rfl ?_ ?_⟩
    · have positive : (c.inode p).refs ≠ 0 := by omega
      have more : 0 < (c.inode p).refs - 1 := by omega
      simp [iput, positive, more, Cache.setNode]
    · simp only
      omega
    · simp only
      omega

/-- `iget` returns the cached inode of the key with one more reference, or a fresh
    one with its first. -/
theorem iget_spec (sbs : SuperBlocks) (cached : Cached sbs.sDev c alive chains idle)
    {sb ino new : Nat}
    (fresh : new ∉ alive) (place : new ≠ ilru ∧ new < 2 ^ 32)
    (room : ∀ q ∈ alive, key sbs.sDev (c.inode q) = (some (sbs.sDev sb), ino) →
      (c.inode q).refs + 1 < 2 ^ 16) :
    ∃ c' p alive' chains' idle', iget sbs c (some sb) ino new = some (c', some p) ∧
      Cached sbs.sDev c' alive' chains' idle' ∧
      ((p ∈ alive ∧ key sbs.sDev (c.inode p) = (some (sbs.sDev sb), ino) ∧ alive' = alive ∧
          c'.inode = Function.update c.inode p { c.inode p with refs := (c.inode p).refs + 1 }) ∨
        (p = new ∧ (∀ q ∈ alive, key sbs.sDev (c.inode q) ≠ (some (sbs.sDev sb), ino)) ∧
          alive' = new :: alive ∧ c'.inode =
          Function.update c.inode new (newNode sbs sb ino))) := by
  by_cases hit : ∃ p ∈ alive, key sbs.sDev (c.inode p) = (some (sbs.sDev sb), ino)
  · obtain ⟨p, member, same⟩ := hit
    have less := room p member same
    by_cases unused : (c.inode p).refs = 0
    · obtain ⟨c', ran, content, cached'⟩ := iget_idle cached new member same unused
      refine ⟨c', p, alive, _, _, ran, cached', Or.inl ⟨member, same, rfl, ?_⟩⟩
      rw [content, unused]
    · have ran := iget_hashed cached new member same (Nat.pos_of_ne_zero unused)
      have counted : incRefs c p =
          c.setNode p { c.inode p with refs := (c.inode p).refs + 1 } := by
        simp only [incRefs, Nat.mod_eq_of_lt less]
      rw [counted] at ran
      refine ⟨_, p, alive, chains, idle, ran, cached.retouch member rfl rfl ?_ less,
        Or.inl ⟨member, same, rfl, rfl⟩⟩
      simp only
      omega
  · have missing : ∀ q ∈ alive, key sbs.sDev (c.inode q) ≠ (some (sbs.sDev sb), ino) :=
      fun q member same => hit ⟨q, member, same⟩
    obtain ⟨ran, cached'⟩ := iget_missing cached fresh place missing
    exact ⟨_, new, _, _, _, ran, cached', Or.inr ⟨rfl, missing, rfl, readNew_inode sb ino new⟩⟩

/-- The purge frees the ring from its front until it is empty. -/
theorem purgeLru_ring {xs : List Nat} (ring : Ring c.lru ilru xs) (fuel : Nat)
    (enough : xs.length < fuel) :
    ∃ lru, purgeLru fuel c = some ({ c with lru := lru }, xs) ∧ Ring lru ilru [] := by
  induction xs generalizing c fuel with
  | nil =>
    obtain ⟨fuel, rfl⟩ : ∃ n, fuel = n + 1 := ⟨fuel - 1, by simp at enough; omega⟩
    refine ⟨c.lru, ?_, ring⟩
    simp [purgeLru, ring.linked.1]
  | cons x xs ih =>
    obtain ⟨fuel, rfl⟩ : ∃ n, fuel = n + 1 := ⟨fuel - 1, by simp at enough; omega⟩
    have other : x ≠ ilru := by
      rintro rfl
      exact (List.nodup_cons.mp ring.distinct).1 List.mem_cons_self
    obtain ⟨lru, removed, ring'⟩ := listDel_ring ring List.mem_cons_self
    rw [List.erase_cons_head] at ring'
    obtain ⟨lru', purged, empty⟩ := ih (c := { c with lru := lru }) ring' fuel
      (by simp at enough; omega)
    refine ⟨lru', ?_, empty⟩
    simp only [purgeLru, ring.linked.1, Option.bind_eq_bind, Option.bind_some, if_neg other,
      freeInode, removed, Option.pure_def, purged]

theorem purgeLru_spec (cached : Cached sDev c alive chains idle) :
    ∃ c', purgeLru scanFuel c = some (c', idle) ∧ c'.inode = c.inode ∧
      Cached sDev c' (alive.filter fun p => p ∉ idle) chains [] := by
  obtain ⟨lru, ran, ring⟩ := purgeLru_ring cached.ring scanFuel cached.idle_short
  have kept : ∀ p, p ∈ alive.filter (fun p => p ∉ idle) ↔ p ∈ alive ∧ 0 < (c.inode p).refs := by
    intro p
    simp only [List.mem_filter, decide_eq_true_eq, cached.resting p]
    constructor
    · rintro ⟨member, busy⟩
      exact ⟨member, Nat.pos_of_ne_zero fun zero => busy ⟨member, zero⟩⟩
    · rintro ⟨member, used⟩
      exact ⟨member, fun resting => by omega⟩
  have sub : ∀ p ∈ alive.filter (fun p => p ∉ idle), p ∈ alive := fun p mp => ((kept p).mp mp).1
  refine ⟨_, ran, rfl, cached.table, ring, cached.sentinel, ?_, ?_, ?_, ?_, ?_, ?_, ?_⟩
  · intro h p
    rw [cached.hashed h p, kept]
    simp only [and_assoc, and_self_left]
  · intro p
    rw [kept]
    simp only [List.not_mem_nil, false_iff, not_and]
    intro used
    omega
  · exact fun p mp => cached.known p (sub p mp)
  · exact fun p mp q mq => cached.unique p (sub p mp) q (sub q mq)
  · exact fun p mp => cached.real p (sub p mp)
  · exact fun p mp => cached.counter p (sub p mp)
  · exact cached.distinct.filter _

end Operations

end InodeCache
