import NoobOs.Fs.CallEffects

/-!
The outcome of each call: no null pointer is called unless a guard tests the wrong one,
and a missing operation is an error code, but for the hooks of `open` and `close`.
-/
namespace FileCalls
open FileTable Runs Strings
open InodeCache (Inode drop)
open Vfs (Files InOrder content lookupVfs lookBs bare)

structure Inv (v : Files) (x : Sys) : Prop where
  order : InOrder v.sDev x.cache
  kinds : ∀ sb ino, Kind (content v x.cache sb ino)
  sound : Sound x.cache x.files

/-- The next state is as it should be, and no null pointer is called but where a guard
    `slip`s. -/
def Safe (slip : Prop) (v : Files) : Except Fault (Sys × Int) → Prop
  | .ok (y, _) => Inv v y
  | .error .outside => True
  | .error .null => slip

def Supplied (x : Sys) : Req → Prop
  | .open' cwd path _ news _ => Vfs.Supply news x.cache (2 * (path.length + cwd.length) + 10)
  | .creat cwd path news | .unlink cwd path news =>
    ∀ p, path = some p → Vfs.Supply news x.cache (2 * (p.length + cwd.length) + 10)
  | _ => True

/-- The calls on which a guard tests another pointer than the one used: a write to a
    device with a `read` and no `write`, and a parent inode without a table. -/
def Slips (v : Files) (k : Kernel) (x : Sys) : Req → Prop
  | .write fd _ => ∃ f a, slot x.files fd = some (some f) ∧ (x.files.file f).inode = some a ∧
    (x.files.file f).fops = some devOps ∧ ¬ Writable k (x.cache.cache.inode a)
  | .creat cwd path news | .unlink cwd path news => ∃ c p name,
    lookBs v x.cache news cwd path = some (c, some p, name) ∧ (c.cache.inode p).ops = none
  | _ => False

def calls (v : Files) (k : Kernel) : Machine Sys Req where
  legal := Supplied
  step x r := (exec v k x r).toOption.map Prod.fst

/-- The pointer of the device that a function of `dev.c` goes on to. -/
def devPtr : Fn → Option (DevOps → Option Fn)
  | .readDevfs => some DevOps.read
  | .writeDevfs => some DevOps.write
  | .openDevfs => some DevOps.open'
  | .closeDevfs => some DevOps.close
  | .ioctlDevfs => some DevOps.ioctl
  | _ => none

/-- No table, no pointer in it, or one that goes on to a device without the pointer. -/
def Lacks (k : Kernel) (n : Inode) (fops : Option Nat) (op : FileOps → Option Fn) : Prop :=
  ∀ t fn, fops = some t → op (k.fops t) = some fn →
    ∃ dev, devPtr fn = some dev ∧ ∀ d, getdev k n = some d → dev d = none

def LacksAt (k : Kernel) (x : Sys) (fd : Int) (op : FileOps → Option Fn) : Prop :=
  ∃ f a, slot x.files fd = some (some f) ∧ (x.files.file f).inode = some a ∧
    Lacks k (x.cache.cache.inode a) (x.files.file f).fops op

/-- The call comes to an operation that is not there. The `open` and `close` of a file are
    hooks, which need not be there. -/
def Missing (v : Files) (k : Kernel) (x : Sys) : Req → Prop
  | .read fd count => count ≠ 0 ∧ LacksAt k x fd FileOps.read
  | .write fd count => count ≠ 0 ∧ LacksAt k x fd FileOps.write
  | .ioctl fd _ => LacksAt k x fd FileOps.ioctl
  | .getdents fd count => count ≠ 0 ∧ LacksAt k x fd FileOps.readdir
  | .creat cwd path news => ∃ c p name t, lookBs v x.cache news cwd path = some (c, some p, name) ∧
    (c.cache.inode p).ops = some t ∧ (k.iops t).creat = none
  | .unlink cwd path news => ∃ c p name t, lookBs v x.cache news cwd path = some (c, some p, name) ∧
    (c.cache.inode p).ops = some t ∧ (k.iops t).unlink = none
  | _ => False

/-- Without its hook, an `open` or a `close` goes on. -/
def GoesOn (v : Files) (k : Kernel) (x : Sys) : Req → Prop
  | .open' cwd path flags news new => ∀ c p, lookupVfs v x.cache news cwd path = some (c, some p) →
    Lacks k (c.cache.inode p) (c.cache.inode p).fops FileOps.open' → flags &&& 3 ≠ 3 →
      findfreefd x.files ≠ -1 →
      ∃ y, exec v k x (.open' cwd path flags news new) = .ok (y, findfreefd x.files)
  | .close fd => InTable fd → LacksAt k x fd FileOps.close →
    ∃ y, exec v k x (.close fd) = .ok (y, 0)
  | _ => True

/-- The cache has the same inodes, with the same references where the counters are exact
    and have room for the lookup. -/
structure Unmoved (v : Files) (c d : InodeCache.State) : Prop where
  contents : ∀ sb ino, content v d sb ino = content v c sb ino
  kept : ∀ q ∈ c.alive, q ∈ d.alive ∧ bare (d.cache.inode q) = bare (c.cache.inode q)
  counts : ∀ chains idle, InodeCache.Inv v.sDev c chains idle →
    (∀ p ∈ c.alive, (c.cache.inode p).refs ≤ 65533) →
    ∀ key, Vfs.refsOf v.sDev d key = Vfs.refsOf v.sDev c key

def Refused (v : Files) (x : Sys) (r : Except Fault (Sys × Int)) : Prop :=
  ∃ y code, r = .ok (y, code) ∧ code < 0 ∧ y.files = x.files ∧ Unmoved v x.cache y.cache

/-! ## Every call -/

section Steps
variable {slip : Prop} {v : Files} {k : Kernel} {x : Sys} {c d : InodeCache.State}
  {s t : State} {root : Nat}

theorem kind_of_alive (order : InOrder v.sDev c)
    (kinds : ∀ sb ino, Kind (content v c sb ino)) {p : Nat}
    (member : p ∈ c.alive) : Kind (c.cache.inode p) := by
  obtain ⟨sb, owner⟩ := order.owner member
  have cached := Vfs.content_cached order member owner rfl
  exact (kinds sb _).congr (congrArg bare cached).symm

theorem Inv.next (inv : Inv v x) (grown : Grown v x.cache c) (sound : Sound c t) :
    Inv v ⟨c, t⟩ := by
  refine ⟨grown.order, ?_, sound⟩
  intro sb ino
  rw [grown.contents]
  exact inv.kinds sb ino

theorem settle_grown (order : InOrder v.sDev c) {events : List Event} (given : GivesUp c events) :
    ∃ d, settle k ⟨c, t⟩ events = .ok ⟨d, t⟩ ∧ Grown v c d := by
  induction events generalizing c with
  | nil => exact ⟨c, rfl, Grown.refl order⟩
  | cons e rest ih =>
    have others : GivesUp c rest := fun e' later => given e' (List.mem_cons_of_mem _ later)
    rcases given e List.mem_cons_self with ⟨a, member, rfl⟩ | ⟨f, rfl⟩
    · obtain ⟨d, dropped, grown⟩ := drop_grown order member
      have still : GivesUp d rest := by
        intro e' later
        exact (others e' later).imp_left fun ⟨a, member, same⟩ => ⟨a, (grown.kept a member).1, same⟩
      obtain ⟨d', settled, grown'⟩ := ih grown.order still
      exact ⟨d', by simp [settle, dropped, settled], grown.trans grown'⟩
    · obtain ⟨d, settled, grown⟩ := ih order others
      exact ⟨d, by simp [settle, settled], grown⟩

theorem onTable_eq (order : InOrder v.sDev c) (logged : Logged c s t) (code : Int) :
    ∃ d, onTable k s.log c t code = .ok (⟨d, t⟩, code) ∧ Grown v c d := by
  obtain ⟨events, log, given⟩ := logged
  obtain ⟨d, settled, grown⟩ := settle_grown (k := k) (t := t) order given
  refine ⟨d, ?_, grown⟩
  simp only [onTable, log, List.drop_left, settled]
  rfl

theorem onTable_safe (inv : Inv v ⟨c, t⟩) (logged : Logged c s t) (code : Int) :
    Safe slip v (onTable k s.log c t code) := by
  obtain ⟨d, result, grown⟩ := onTable_eq (k := k) inv.order logged code
  rw [result]
  exact inv.next grown (inv.sound.grown grown)

theorem onFile_safe (inv : Inv v x) {r : Except Fault (State × Int)} (fine : Fine slip x.files r) :
    Safe slip v (onFile x r) := by
  cases r with
  | error fault => cases fault <;> exact fine
  | ok y => exact inv.next (Grown.refl inv.order) (inv.sound.within (Same.within fine))

theorem booted_guarded_fine (tame : Tame k) {n : Inode} (kind : Kind n) {op : FileOps → Option Fn}
    (ext2 : op ext2Fops ≠ some .writeDevfs)
    (dev : n.fops = some devOps → op devFops = some .writeDevfs → Writable (booted k) n ∨ slip) :
    Fine slip s (guarded ((booted k).withCache c) s n n.fops op) := by
  have tame' : Tame ((booted k).withCache c) := tame
  apply guarded_fine tame'
  intro t table pointer
  rcases kind.fops with none' | here | here
  · rw [none'] at table
    cases table
  · cases here.symm.trans table
    have pointer' : op ((booted k).fops ext2Ops) = some .writeDevfs := pointer
    rw [booted_ext2Fops] at pointer'
    exact absurd pointer' ext2
  · cases here.symm.trans table
    have pointer' : op ((booted k).fops devOps) = some .writeDevfs := pointer
    rw [booted_devFops] at pointer'
    exact dev here pointer'

theorem descriptor_fine (tame : Tame k) (inv : Inv v x) {op : FileOps → Option Fn} {fd : Int}
    (ext2 : op ext2Fops ≠ some .writeDevfs) (dev : op devFops ≠ some .writeDevfs) (f a : Nat)
    (held : slot x.files fd = some (some f)) (inode : (x.files.file f).inode = some a) :
    Fine slip x.files (guarded ((booted k).withCache x.cache) x.files (x.cache.cache.inode a)
    (x.files.file f).fops op) := by
  obtain ⟨a', -, inode', fops, kind⟩ := inv.sound f (slot_mem held)
  obtain rfl := Option.some.inj (inode.symm.trans inode')
  rw [fops]
  exact booted_guarded_fine tame kind ext2 fun _ pointer => absurd pointer dev

theorem write_fine (tame : Tame k) (inv : Inv v x) {fd : Int} {count : Nat}
    (meets : ¬ Slips v (booted k) x (.write fd count) ∨ slip) (f a : Nat)
    (held : slot x.files fd = some (some f))
    (inode : (x.files.file f).inode = some a) :
    Fine slip x.files
      (guarded ((booted k).withCache x.cache) x.files (x.cache.cache.inode a)
      (x.files.file f).fops FileOps.write) := by
  obtain ⟨a', -, inode', fops, kind⟩ := inv.sound f (slot_mem held)
  obtain rfl := Option.some.inj (inode.symm.trans inode')
  rw [fops]
  apply booted_guarded_fine tame kind (by decide)
  intro here _
  refine meets.imp_left fun meets => ?_
  by_contra unwritable
  exact meets ⟨f, a, held, inode, fops.trans here, unwritable⟩

theorem openHook_fine (tame : Tame k) {n : Inode} (kind : Kind n) :
    Fine slip x.files (openHook ((booted k).withCache c) x n) := by
  have tame' : Tame ((booted k).withCache c) := tame
  have tables : ((booted k).withCache c).fops = (booted k).fops := rfl
  unfold openHook
  split
  · exact Same.refl x.files
  · next t table =>
    split
    · exact Same.refl x.files
    · next present =>
      apply callPtr_fine tame' present
      intro pointer
      rw [tables] at pointer
      rcases kind.fops with none' | here | here
      · rw [none'] at table
        cases table
      · cases here.symm.trans table
        simp [ext2Fops] at pointer
      · cases here.symm.trans table
        simp [devFops] at pointer

theorem openPath_safe (tame : Tame k) (inv : Inv v x) (distinct : Function.Injective v.sDev)
    (mounted : v.rootMnt.bind v.mntSb = some root) {cwd path : Str} {flags new : Nat}
    {news : Nat → Nat}
    (supply : Vfs.Supply news x.cache (2 * (path.length + cwd.length) + 10)) :
    Safe slip v (openPath v (booted k) x cwd path flags news new) := by
  unfold openPath
  split
  · exact inv
  · rcases lookupVfs_grown distinct inv.order mounted supply with overrun
      | ⟨c, found, looked, grown, member⟩
    · rw [overrun]
      exact trivial
    · rw [looked]
      have sound := inv.sound.grown grown
      have inv' := inv.next grown sound
      cases found with
      | none => exact inv'
      | some p =>
        have kind := kind_of_alive inv'.order inv'.kinds (member p rfl)
        have finish : ∀ files hooked, Same files x.files →
          Safe slip v (onTable (booted k) files.log c
            (fsysOpen (hooks (booted k)) files flags
              (some ⟨p, (c.cache.inode p).fops, (c.cache.inode p).mode⟩) new hooked).1
            (fsysOpen (hooks (booted k)) files flags
              (some ⟨p, (c.cache.inode p).fops, (c.cache.inode p).mode⟩) new hooked).2) := by
          intro files hooked same
          obtain ⟨sound', logged⟩ :=
            fsysOpen_sound (k := k) (sound.within same.within) flags new hooked
            (member p rfl) kind (c.cache.inode p).mode
          exact onTable_safe (inv.next grown sound') logged _
        simp only
        split
        · exact finish x.files 0 (Same.refl x.files)
        · have hook : Fine slip x.files (openHook ((booted k).withCache c) x (c.cache.inode p)) :=
            openHook_fine tame kind
          cases result : openHook ((booted k).withCache c) x (c.cache.inode p) with
          | error fault =>
            rw [result] at hook
            cases fault <;> exact hook
          | ok y =>
            rw [result] at hook
            exact finish y.1 y.2 hook

theorem booted_creat {n : Inode} (kind : Kind n) {t : Nat} (table : n.ops = some t) :
    ((booted k).iops t).creat = none := by
  rcases kind.ops with none' | here | here
  · rw [none'] at table
    cases table
  · cases here.symm.trans table
    simp [ext2Iops]
  · cases here.symm.trans table
    simp [devIops]

theorem createFs_follows {n : Inode} (bare : n.ops = none) : createFs k s n = .error .null := by
  simp [createFs, bare]

theorem unlinkFs_follows {n : Inode} (bare : n.ops = none) : unlinkFs k s n = .error .null := by
  simp [unlinkFs, bare]

theorem createFs_refuses {n : Inode} (kind : Kind n) (table : n.ops ≠ none) :
    createFs ((booted k).withCache c) s n = .ok (s, eNosys) := by
  obtain ⟨t, here⟩ := Option.ne_none_iff_exists'.mp table
  simp [createFs, here, Kernel.withCache, booted_creat kind here]

theorem unlinkFs_refuses {n : Inode} (kind : Kind n) (table : n.ops ≠ none) :
    unlinkFs ((booted k).withCache c) s n = .ok (s, eNosys) := by
  obtain ⟨t, here⟩ := Option.ne_none_iff_exists'.mp table
  simp [unlinkFs, here, Kernel.withCache, booted_creat kind here]

section Parent
variable {cwd : Str} {path : Option Str} {news : Nat → Nat}
  {op : Kernel → State → Inode → Except Fault (State × Int)}
  (inv : Inv v x) (distinct : Function.Injective v.sDev)
    (mounted : v.rootMnt.bind v.mntSb = some root)
  (supply : ∀ p, path = some p → Vfs.Supply news x.cache (2 * (p.length + cwd.length) + 10))
  (follows : ∀ c n, n.ops = none → op ((booted k).withCache c) x.files n = .error .null)
  (refuses : ∀ c n, Kind n → n.ops ≠ none → op ((booted k).withCache c) x.files n =
    .ok (x.files, eNosys))
include inv distinct mounted supply follows refuses

theorem onParent_cases :
    (lookBs v x.cache news cwd path = none ∧ onParent v (booted k) x op cwd path news =
    .error .outside) ∨
    (∃ c name, lookBs v x.cache news cwd path = some (c, none, name) ∧ Grown v x.cache c ∧
      onParent v (booted k) x op cwd path news = .ok (⟨c, x.files⟩, eFault)) ∨
    (∃ c p name, lookBs v x.cache news cwd path = some (c, some p, name) ∧
    (c.cache.inode p).ops = none ∧
      onParent v (booted k) x op cwd path news = .error .null) ∨
    ∃ c p name d, lookBs v x.cache news cwd path = some (c, some p, name) ∧
    (c.cache.inode p).ops ≠ none ∧
      drop c p = some d ∧ Grown v x.cache d ∧ onParent v (booted k) x op cwd path news = .ok
      (⟨d, x.files⟩, eNosys) := by
  unfold onParent
  rcases lookBs_grown distinct inv.order mounted supply with overrun
    | ⟨c, found, name, looked, grown, member⟩
  · exact Or.inl ⟨overrun, by rw [overrun]⟩
  · right
    cases found with
    | none => exact Or.inl ⟨c, name, looked, grown, by rw [looked]⟩
    | some p =>
      right
      have inv' := inv.next grown (inv.sound.grown grown)
      have kind := kind_of_alive inv'.order inv'.kinds (member p rfl)
      by_cases table : (c.cache.inode p).ops = none
      · refine Or.inl ⟨c, p, name, looked, table, ?_⟩
        rw [looked]
        simp only [follows c _ table]
        rfl
      · obtain ⟨d, dropped, grown'⟩ := drop_grown grown.order (member p rfl)
        refine Or.inr ⟨c, p, name, d, looked, table, dropped, grown.trans grown', ?_⟩
        rw [looked]
        simp only [refuses c _ kind table, bind, Except.bind, dropped]
        rfl

theorem onParent_safe
    (meets : (¬ ∃ c p name, lookBs v x.cache news cwd path = some (c, some p, name) ∧
      (c.cache.inode p).ops = none) ∨
      slip) : Safe slip v (onParent v (booted k) x op cwd path news) := by
  rcases onParent_cases inv distinct mounted supply follows refuses with
    ⟨-, ran⟩ | ⟨c, name, -, grown, ran⟩ | ⟨c, p, name, looked, table, ran⟩
      | ⟨c, p, name, d, -, -, -, grown, ran⟩
  · rw [ran]
    exact trivial
  · rw [ran]
    exact inv.next grown (inv.sound.grown grown)
  · rw [ran]
    exact meets.resolve_left fun meets => meets ⟨c, p, name, looked, table⟩
  · rw [ran]
    exact inv.next grown (inv.sound.grown grown)

theorem onParent_refused {p : Nat} {name : Option Str}
    (found : lookBs v x.cache news cwd path = some (c, some p, name))
    (table : (c.cache.inode p).ops ≠ none) :
    Refused v x (onParent v (booted k) x op cwd path news) := by
  rcases onParent_cases inv distinct mounted supply follows refuses with
    ⟨overrun, -⟩ | ⟨c', name', looked, -⟩ | ⟨c', p', name', looked, absent, -⟩ |
      ⟨c', p', name', d, looked, -, dropped, grown, ran⟩
  · rw [overrun] at found
    cases found
  · rw [looked] at found
    cases found
  · rw [looked] at found
    cases found
    exact absurd absent table
  · refine ⟨⟨d, x.files⟩, eNosys, ran, by decide, rfl, grown.contents, grown.kept, ?_⟩
    intro chains idle exact' room key
    exact lookBs_balanced exact' room mounted supply looked dropped key

end Parent

theorem exec_safe (tame : Tame k) (inv : Inv v x) (distinct : Function.Injective v.sDev)
    (mounted : v.rootMnt.bind v.mntSb = some root) {r : Req} (supplied : Supplied x r)
    (meets : ¬ Slips v (booted k) x r ∨ slip) : Safe slip v (exec v (booted k) x r) := by
  have codes : ∀ code < 0, Fine slip x.files (.ok (x.files, code)) := fun _ _ => Same.refl x.files
  have table : ∀ t code, Within t x.files ∧ Logged x.cache x.files t →
      Safe slip v (onTable (booted k) x.files.log x.cache t code) :=
    fun t code turned =>
      onTable_safe (inv.next (Grown.refl inv.order) (inv.sound.within turned.1)) turned.2 code
  cases r with
  | open' cwd path flags news new => exact openPath_safe tame inv distinct mounted supplied
  | close fd =>
    simp only [exec]
    cases closed : fsysClose (hooks (booted k)) x.files fd with
    | none => exact trivial
    | some y => exact table _ _ (fsysClose_within inv.sound closed)
  | dup oldfd =>
    simp only [exec]
    cases duped : fsysDup (hooks (booted k)) x.files oldfd with
    | none => exact trivial
    | some y => exact table _ _ (fsysDup_within inv.sound duped)
  | dup2 oldfd newfd =>
    simp only [exec]
    cases duped : fsysDup2 (hooks (booted k)) x.files oldfd newfd with
    | none => exact trivial
    | some y => exact table _ _ (fsysDup2_within inv.sound duped)
  | read fd count =>
    apply onFile_safe inv
    exact transfer_cases codes (fun _ => trivial) (fun _ => Same.refl x.files)
      (descriptor_fine tame inv (by decide) (by decide))
  | write fd count =>
    apply onFile_safe inv
    exact transfer_cases codes (fun _ => trivial) (fun _ => Same.refl x.files)
      (write_fine tame inv meets)
  | ioctl fd arg =>
    apply onFile_safe inv
    exact fsysIoctl_cases codes (fun _ => trivial)
      (descriptor_fine tame inv (by decide) (by decide))
  | getdents fd count =>
    apply onFile_safe inv
    exact fsysGetdents_cases codes (fun _ => trivial) (fun _ => Same.refl x.files)
      (descriptor_fine tame inv (by decide) (by decide))
  | creat cwd path news =>
    exact onParent_safe inv distinct mounted supplied (fun _ _ => createFs_follows)
      (fun _ _ => createFs_refuses) meets
  | unlink cwd path news =>
    exact onParent_safe inv distinct mounted supplied (fun _ _ => unlinkFs_follows)
      (fun _ _ => unlinkFs_refuses) meets

end Steps

/-! ## A missing operation -/

section Refusals
variable {v : Files} {k : Kernel} {x : Sys} {c : InodeCache.State} {s : State} {root : Nat}

theorem viaDevice_lacks {n : Inode} {missing : Int} {op : DevOps → Option Fn}
    (lacks : ∀ d, getdev k n = some d → op d = none) :
    viaDevice k s n missing op = .ok (s, missing) := by
  unfold viaDevice
  split
  · rfl
  · next d device => rw [if_pos (lacks d device)]

theorem writeDevfs_lacks {n : Inode} (writable : Writable k n)
    (lacks : ∀ d, getdev k n = some d → d.write = none) :
    writeDevfs k s n = .ok (s, eNosys) := by
  unfold writeDevfs
  split
  · rfl
  · next d device =>
    have unread : d.read = none := by
      by_contra present
      exact writable d device present (lacks d device)
    rw [if_pos unread]

theorem guarded_lacks {n : Inode} (kind : Kind n) {op : FileOps → Option Fn}
    (ext2 : ∀ fn, op ext2Fops = some fn → devPtr fn = none)
    (dev : ∀ fn, op devFops = some fn → fn = .readDevfs ∨ fn = .writeDevfs ∨ fn = .ioctlDevfs)
    (writable : n.fops = some devOps → op devFops = some .writeDevfs → Writable (booted k) n)
    (lacks : Lacks (booted k) n n.fops op) :
    guarded ((booted k).withCache c) s n n.fops op = .ok (s, eNosys) := by
  rcases kind.fops with none' | here | here
  · rw [none']
    rfl
  · rw [here] at lacks ⊢
    cases pointer : op ext2Fops with
    | none => simp [guarded, Kernel.withCache, pointer]
    | some fn =>
      obtain ⟨d, through, -⟩ := lacks ext2Ops fn rfl (by rw [booted_ext2Fops, pointer])
      rw [ext2 fn pointer] at through
      cases through
  · rw [here] at lacks
    cases pointer : op devFops with
    | none => simp [guarded, Kernel.withCache, here, pointer]
    | some fn =>
      obtain ⟨d, through, absent⟩ := lacks devOps fn rfl (by rw [booted_devFops, pointer])
      have called : guarded ((booted k).withCache c) s n n.fops op =
          callPtr ((booted k).withCache c) s n (some fn) := by
        simp [guarded, Kernel.withCache, here, pointer]
      rw [called]
      rcases dev fn pointer with rfl | rfl | rfl
      · cases through
        exact viaDevice_lacks absent
      · cases through
        exact writeDevfs_lacks (writable here pointer) absent
      · cases through
        exact viaDevice_lacks absent

theorem Unmoved.refl (v : Files) (c : InodeCache.State) : Unmoved v c c :=
  ⟨fun _ _ => rfl, fun _ member => ⟨member, rfl⟩, fun _ _ _ _ _ => rfl⟩

def Coded (s : State) (r : Except Fault (State × Int)) : Prop := ∃ code < 0, r = .ok (s, code)

theorem onFile_refused {r : Except Fault (State × Int)} (coded : Coded x.files r) :
    Refused v x (onFile x r) := by
  obtain ⟨code, negative, rfl⟩ := coded
  exact ⟨x, code, rfl, negative, rfl, Unmoved.refl v x.cache⟩

theorem descriptor_coded (inv : Inv v x) {op : FileOps → Option Fn} {fd : Int}
    (ext2 : ∀ fn, op ext2Fops = some fn → devPtr fn = none)
    (dev : ∀ fn, op devFops = some fn → fn = .readDevfs ∨ fn = .writeDevfs ∨ fn = .ioctlDevfs)
    (writable : ∀ f a, slot x.files fd = some (some f) → (x.files.file f).inode = some a →
      (x.files.file f).fops = some devOps → op devFops = some .writeDevfs → Writable (booted k)
      (x.cache.cache.inode a))
    (lacks : LacksAt (booted k) x fd op) (f a : Nat) (held : slot x.files fd = some (some f))
    (inode : (x.files.file f).inode = some a) : Coded x.files
      (guarded ((booted k).withCache x.cache) x.files (x.cache.cache.inode a)
      (x.files.file f).fops op) := by
  obtain ⟨f', a', held', inode', lacks⟩ := lacks
  obtain rfl := Option.some.inj (Option.some.inj (held'.symm.trans held))
  obtain rfl := Option.some.inj (inode'.symm.trans inode)
  obtain ⟨a, -, same, fops, kind⟩ := inv.sound f' (slot_mem held)
  obtain rfl := Option.some.inj (inode.symm.trans same)
  have able := writable f' a' held inode
  rw [fops] at able lacks ⊢
  exact ⟨eNosys, by decide, guarded_lacks kind ext2 dev able lacks⟩

theorem LacksAt.inside {fd : Int} {op : FileOps → Option Fn} (lacks : LacksAt k x fd op)
    (outside : slot x.files fd = none) :
    Coded x.files (.error .outside) := by
  obtain ⟨f, a, held, -⟩ := lacks
  rw [held] at outside
  cases outside

theorem exec_refused (inv : Inv v x) (distinct : Function.Injective v.sDev)
    (mounted : v.rootMnt.bind v.mntSb = some root) {r : Req} (supplied : Supplied x r)
    (meets : ¬ Slips v (booted k) x r) (missing : Missing v (booted k) x r) :
    Refused v x (exec v (booted k) x r) := by
  have codes : ∀ code < 0, Coded x.files (.ok (x.files, code)) :=
    fun code negative => ⟨code, negative, rfl⟩
  cases r with
  | open' cwd path flags news new => exact missing.elim
  | close fd => exact missing.elim
  | dup oldfd => exact missing.elim
  | dup2 oldfd newfd => exact missing.elim
  | read fd count =>
    obtain ⟨some', lacks⟩ := missing
    apply onFile_refused
    exact transfer_cases codes lacks.inside (fun zero => absurd zero some')
      (descriptor_coded inv (by decide) (by decide) (fun _ _ _ _ _ pointer =>
        absurd pointer (by decide)) lacks)
  | write fd count =>
    obtain ⟨some', lacks⟩ := missing
    apply onFile_refused
    refine transfer_cases codes lacks.inside (fun zero => absurd zero some')
      (descriptor_coded inv (by decide) (by decide) ?_ lacks)
    intro f a held inode here _
    by_contra unwritable
    exact meets ⟨f, a, held, inode, here, unwritable⟩
  | ioctl fd arg =>
    apply onFile_refused
    exact fsysIoctl_cases codes missing.inside
      (descriptor_coded inv (by decide) (by decide) (fun _ _ _ _ _ pointer =>
        absurd pointer (by decide)) missing)
  | getdents fd count =>
    obtain ⟨some', lacks⟩ := missing
    apply onFile_refused
    exact fsysGetdents_cases codes lacks.inside (fun zero => absurd zero some')
      (descriptor_coded inv (by decide) (by decide) (fun _ _ _ _ _ pointer =>
        absurd pointer (by decide)) lacks)
  | creat cwd path news =>
    obtain ⟨c, p, name, t, looked, table, -⟩ := missing
    exact onParent_refused inv distinct mounted supplied (fun _ _ => createFs_follows)
      (fun _ _ => createFs_refuses)
      looked (by simp [table])
  | unlink cwd path news =>
    obtain ⟨c, p, name, t, looked, table, -⟩ := missing
    exact onParent_refused inv distinct mounted supplied (fun _ _ => unlinkFs_follows)
      (fun _ _ => unlinkFs_refuses)
      looked (by simp [table])

theorem openHook_lacks {n : Inode} (kind : Kind n)
    (lacks : Lacks (booted k) n n.fops FileOps.open') :
    openHook ((booted k).withCache c) x n = .ok (x.files, 0) := by
  rcases kind.fops with none' | here | here
  · simp [openHook, none']
  · simp [openHook, here, Kernel.withCache, ext2Fops]
  · rw [here] at lacks
    obtain ⟨dev, through, absent⟩ := lacks devOps .openDevfs rfl (by rw [booted_devFops]; rfl)
    cases through
    have called : openHook ((booted k).withCache c) x n =
        openDevfs ((booted k).withCache c) x.files n := by
      simp [openHook, here, Kernel.withCache, devFops, callPtr]
    rw [called]
    exact viaDevice_lacks absent

theorem exec_goesOn (inv : Inv v x) (distinct : Function.Injective v.sDev)
    (mounted : v.rootMnt.bind v.mntSb = some root) {r : Req} (supplied : Supplied x r) :
    GoesOn v (booted k) x r := by
  cases r with
  | open' cwd path flags news new =>
    intro c p looked lacks mode free
    obtain ⟨c', found, looked', grown, member⟩ :=
      (lookupVfs_grown distinct inv.order mounted supplied).resolve_left (by rw [looked]; simp)
    cases looked.symm.trans looked'
    have inv' := inv.next grown (inv.sound.grown grown)
    have kind := kind_of_alive inv'.order inv'.kinds (member p rfl)
    have filed :=
      (fsysOpen_sound (k := k) inv'.sound flags new 0 (member p rfl) kind (c.cache.inode p).mode).2
    have code : (fsysOpen (hooks (booted k)) x.files flags
        (some ⟨p, (c.cache.inode p).fops, (c.cache.inode p).mode⟩) new 0).2 =
        findfreefd x.files := by
      simp [fsysOpen, mode, free]
    obtain ⟨d, ran, -⟩ := onTable_eq (k := booted k) grown.order filed (findfreefd x.files)
    refine ⟨⟨d, (fsysOpen (hooks (booted k)) x.files flags
      (some ⟨p, (c.cache.inode p).fops, (c.cache.inode p).mode⟩) new 0).1⟩, ?_⟩
    simp only [exec, openPath, if_neg mode, looked, if_neg free, openHook_lacks kind lacks, bind,
      Except.bind, code]
    exact ran
  | close fd =>
    rintro within ⟨f, a, held, -, -⟩
    obtain ⟨t, closed, -⟩ := fsysClose_held (hooks (booted k)) within held
    obtain ⟨d, ran, -⟩ :=
      onTable_eq (k := booted k) inv.order (fsysClose_within inv.sound closed).2 0
    refine ⟨⟨d, t⟩, ?_⟩
    simp only [exec, closed]
    exact ran
  | dup oldfd => exact trivial
  | dup2 oldfd newfd => exact trivial
  | read fd count => exact trivial
  | write fd count => exact trivial
  | ioctl fd arg => exact trivial
  | getdents fd count => exact trivial
  | creat cwd path news => exact trivial
  | unlink cwd path news => exact trivial

end Refusals

end FileCalls
