import NoobOs.Fs.PathReference

/-!
`look_bs` splits a canonical path at its last slash and looks up the part before it;
`lookup_vfs` walks the whole of it. Both are compared through the same reference walk.
-/
namespace Vfs
open InodeCache Runs Strings

def marks (v : Files) (s : State) (sb ino : Nat) : Option Nat := mountOn v (content v s sb ino)

section Split
variable {v : Files} {s : State} {news : Nat → Nat} {cwd path : Str}

theorem getComps_canonPath (init : List Str) {last : Str} (comp : Component last) :
    getComps (canonPath (init ++ [last])) = some (init.flatMap fun c => 0x2f :: c, some last) := by
  obtain ⟨⟨nonempty, slashless⟩, _⟩ := comp
  obtain ⟨x, xs, rfl⟩ := List.exists_cons_of_ne_nil nonempty
  rw [getComps, canonPath_snoc, strrchr_last slashless]

theorem canonPath_ne_root (init : List Str) {last : Str} (comp : Component last) :
    canonPath (init ++ [last]) ≠ [0x2f] := by
  intro same
  have length := congrArg List.length same
  have nonempty := List.length_pos_iff.mpr comp.1.1
  rw [canonPath_snoc] at length
  simp only [List.length_append, List.length_cons, List.length_nil] at length
  omega

theorem lookBs_canonPath {init : List Str} {last : Str} (comp : Component last)
    (canon : pathCanon cwd path = some (some (canonPath (init ++ [last])))) :
    lookBs v s news cwd (some path) =
      (lookupVfsI v s news (canonPath init)).map fun r => (r.1, r.2, some last) := by
  simp only [lookBs, canon, Option.bind_eq_bind, Option.bind_some,
    if_neg (canonPath_ne_root init comp),
    getComps_canonPath init comp, canonPath_parent, Option.pure_def]
  cases lookupVfsI v s news (canonPath init) <;> rfl

theorem lookupVfs_eq {p : Str} (canon : pathCanon cwd path = some (some p)) :
    lookupVfs v s news cwd path = lookupVfsI v s news p := by
  simp [lookupVfs, canon]

theorem Supply.mono {m n : Nat} (supply : Supply news s n) (less : m ≤ n) : Supply news s m :=
  fun i below => supply i (Nat.lt_of_lt_of_le below less)

theorem At.last_component {t u : State} {k q : Nat} {cur : Nat × Nat} {name : Str}
    {found : Option Nat}
    (there : At v s t news k cur q)
    (outcome : match refStep v (content v s) (marks v s) cur name with
      | none => found = none ∧ ∃ k cur q, At v s u news k cur q
      | some last => ∃ k q, found = some q ∧ At v s u news k last q) :
    (found ≠ none ↔ lookupFs v (t.cache.inode q) name ≠ noIno) ∧
      ∀ r, found = some r →
        (u.cache.inode r).sb =
          some (cross v (marks v s) cur.1 (lookupFs v (t.cache.inode q) name)).1 ∧
          (u.cache.inode r).ino =
              (cross v (marks v s) cur.1 (lookupFs v (t.cache.inode q) name)).2 := by
  have entry := there.lookupFs_eq name
  rw [refStep] at outcome
  cases found' : dirEntry v (content v s cur.1 cur.2) name with
  | none =>
    rw [found'] at outcome entry
    simp only [Option.map_none] at outcome
    simp [outcome.1, entry]
  | some ino =>
    rw [found'] at outcome entry
    simp only [Option.map_some] at outcome
    obtain ⟨k', r, rfl, there'⟩ := outcome
    have present := dirEntry_ne found'
    rw [Option.getD_some] at entry
    refine ⟨by simp [entry, present], ?_⟩
    intro r' same
    cases same
    rw [entry]
    exact ⟨there'.owner, there'.number⟩

end Split

/-- For a canonical form other than the root, `look_bs` names the parent and the last
    component; it fails with the lookup of the parent, and `lookup_vfs` finds the inode
    that the parent directory has under that name. -/
theorem parent_and_full_lookup_agree (v : Files) (s : State)
    (reach : Reach (openMachine v.sDev) start s)
    (distinct : Function.Injective v.sDev) (root : Nat)
    (mounted : v.rootMnt.bind v.mntSb = some root)
    (cwd path p : Str) (canon : pathCanon cwd path = some (some p)) (below : p ≠ [0x2f])
    (news : Nat → Nat)
    (supply : Supply news s (2 * p.length + 2)) :
    ∃ parent name, getComps p = some (parent, some name) ∧ 0x2f ∉ name ∧
    parent ++ [0x2f] ++ name = p ∧
      ∃ t dir, lookBs v s news cwd (some path) = some (t, dir, some name) ∧
        (∃ t' dir', lookupVfs v s news cwd (if parent = [] then [0x2f] else parent) =
        some (t', dir') ∧
          (dir = none ↔ dir' = none)) ∧
        ∃ u found, lookupVfs v s news cwd path = some (u, found) ∧
          (found ≠ none ↔ ∃ q, dir = some q ∧ lookupFs v (t.cache.inode q) name ≠ noIno) ∧
          ∀ q r, dir = some q → found = some r → ∃ sb, (t.cache.inode q).sb = some sb ∧
            (u.cache.inode r).sb = some
            (cross v (marks v s) sb (lookupFs v (t.cache.inode q) name)).1 ∧
            (u.cache.inode r).ino =
            (cross v (marks v s) sb (lookupFs v (t.cache.inode q) name)).2 := by
  obtain ⟨segs, stack, same, comps⟩ := pathCanon_stack canon
  obtain rfl := Option.some.inj same
  have nonempty : segs ≠ [] := by
    rintro rfl
    exact below rfl
  obtain ⟨init, name, rfl⟩ := (List.eq_nil_or_concat' segs).resolve_left nonempty
  have comp := comps name (by simp)
  have comps' : ∀ c ∈ init, Component c := fun c member => comps c (List.mem_append_left _ member)
  have size := canonSegs_length stack (Nat.zero_le _)
  have room := length_le_canonPath (init ++ [name])
  simp only [List.length_append, List.length_cons, List.length_nil] at size room
  have order := reach_order reach
  have marked : ∀ sb ino, mountOn v (content v s sb ino) = marks v s sb ino := fun _ _ => rfl
  have enough : 2 * (init ++ [name]).length + 2 ≤ 2 * (canonPath (init ++ [name])).length + 2 := by
    simp only [List.length_append, List.length_cons, List.length_nil]
    omega
  obtain ⟨t, dir, looked, outcome⟩ := lookup_refines distinct order marked mounted
    (fun c mc => (comps' c mc).1) (supply.mono (by omega))
  obtain ⟨u, found, looked', outcome'⟩ := lookup_refines distinct order marked mounted
    (fun c mc => (comps c mc).1) (supply.mono enough)
  refine ⟨_, name, getComps_canonPath init comp, comp.1.2, ?_, t, dir, ?_, ⟨t, dir, ?_, Iff.rfl⟩,
    u, found, ?_, ?_⟩
  · rw [canonPath_snoc]
    simp
  · rw [lookBs_canonPath comp canon, looked]
    rfl
  · rw [canonPath_parent, lookupVfs_eq (pathCanon_canonical cwd comps' (by omega)), looked]
  · rw [lookupVfs_eq canon, looked']
  rw [refWalk_snoc] at outcome'
  cases walked : refWalk v (content v s) (marks v s) root init with
  | none =>
    rw [walked] at outcome outcome'
    simp [outcome.1, outcome'.1]
  | some cur =>
    rw [walked] at outcome outcome'
    obtain ⟨k, q, rfl, there⟩ := outcome
    rw [Option.bind_some] at outcome'
    obtain ⟨agree, inode⟩ := there.last_component outcome'
    refine ⟨by simpa using agree, ?_⟩
    intro q' r same same'
    cases same
    exact ⟨cur.1, there.owner, inode r same'⟩

theorem parent_of_device_node : ∃ t q u r,
    lookBs twoFs devMounted (fun i => 32 + i) [0x2f, 0x64] (some [0x6e]) = some
    (t, some q, some [0x6e]) ∧
      lookupVfs twoFs devMounted (fun i => 32 + i) [0x2f, 0x64] [0x6e] = some (u, some r) ∧
      ∃ sb, (t.cache.inode q).sb = some sb ∧
        (u.cache.inode r).ino =
        (cross twoFs (marks twoFs devMounted) sb (lookupFs twoFs (t.cache.inode q) [0x6e])).2 := by
  obtain ⟨parent, name, cut, -, -, t, dir, looked, -, u, found, looked', agree, inode⟩ :=
    parent_and_full_lookup_agree twoFs devMounted devMounted_reach (fun _ _ same => same) 1 rfl
      [0x2f, 0x64] [0x6e]
      [0x2f, 0x64, 0x2f, 0x6e] (by decide) (by decide) (fun i => 32 + i)
        (devMounted_supply (by decide))
  obtain rfl : name = [0x6e] := by
    have cut' : getComps [0x2f, 0x64, 0x2f, 0x6e] = some ([0x2f, 0x64], some [0x6e]) := by decide
    exact Option.some.inj (Prod.mk.inj (Option.some.inj (cut.symm.trans cut'))).2
  have present : (lookupVfs twoFs devMounted (fun i => 32 + i) [0x2f, 0x64] [0x6e]).map
    (fun r => r.2.isSome) =
      some true := by
    decide +kernel
  rw [looked', Option.map_some, Option.some.injEq, Option.isSome_iff_exists] at present
  obtain ⟨r, rfl⟩ := present
  obtain ⟨q, rfl, -⟩ := agree.mp (by simp)
  obtain ⟨sb, owner, -, number⟩ := inode q r rfl rfl
  exact ⟨t, q, u, r, looked, looked', sb, owner, number⟩

end Vfs
