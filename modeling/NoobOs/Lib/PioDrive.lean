import NoobOs.Lib.ByteMemory

/- A disk drive behind task-file registers, which hands its sectors over word by word. How many
   looks at its status it is busy for before a transfer is a parameter, and so is what a command
   does while it is busy or has words to hand over; registers are not taken then. A sector that
   cannot be read ends a command with an error, which stands until the next command. -/
namespace PioDrive
open ByteMemory

/-- What a drive that is busy comes to. -/
inductive Next where
  | read (sector left : Nat)
  | write (sector left : Nat)
  | done

inductive Phase where
  | idle (err : Bool)
  | busy (waits : Nat) (next : Next)
  | sending (sector left word : Nat)
  | receiving (sector left : Nat) (words : List Nat)

structure Drive where
  disk : Mem
  seccount : UInt8
  lbaLo : UInt8
  lbaMid : UInt8
  lbaHi : UInt8
  device : UInt8
  clock : Nat
  phase : Phase

def Drive.fresh (disk : Mem) : Drive :=
  { disk := disk, seccount := 0, lbaLo := 0, lbaMid := 0, lbaHi := 0, device := 0, clock := 0,
    phase := .idle false }

/-- The sector a command begins with, and how many it is for. -/
def Drive.address (d : Drive) : Nat :=
  (d.device &&& 0x0f).toNat * 2 ^ 24 + d.lbaHi.toNat * 2 ^ 16 + d.lbaMid.toNat *
    2 ^ 8 + d.lbaLo.toNat

def Drive.sectors (d : Drive) : Nat := if d.seccount = 0 then 256 else d.seccount.toNat

/-- A byte of words that are sent one after the other. -/
def byteOf (words : List Nat) (i : Nat) : UInt8 :=
  if i % 2 = 0 then UInt8.ofNat (words.getD (i / 2) 0) else UInt8.ofNat (words.getD (i / 2) 0 / 256)

def putSector (disk : Mem) (sector : Nat) (words : List Nat) : Mem := fun x =>
  if 512 * sector ≤ x ∧ x < 512 * sector + 512 then byteOf words (x - 512 * sector) else disk x

section Device
variable (bad : Nat → Bool) (delay : Nat → Nat)

def target : Next → Phase
  | .read sector left => if bad sector then .idle true else .sending sector left 0
  | .write sector left => .receiving sector left []
  | .done => .idle false

def enter (d : Drive) (next : Next) : Drive :=
  { d with
    clock := d.clock + 1
    phase := match delay d.clock with
      | 0 => target bad next
      | waits + 1 => .busy waits next }

def Phase.tick : Phase → Phase
  | .busy 0 next => target bad next
  | .busy (waits + 1) next => .busy waits next
  | phase => phase

def tick (d : Drive) : Drive := { d with phase := d.phase.tick bad }

def Phase.status : Phase → UInt8
  | .idle err => if err then 0x41 else 0x40
  | .busy .. => 0x80
  | .sending .. => 0x48
  | .receiving .. => 0x48

def readStatus (d : Drive) : UInt8 × Drive := ((d.phase.tick bad).status, tick bad d)

def writeReg (d : Drive) (reg : Nat) (v : UInt8) : Drive :=
  match d.phase with
  | .idle _ =>
    match reg with
    | 2 => { d with seccount := v }
    | 3 => { d with lbaLo := v }
    | 4 => { d with lbaMid := v }
    | 5 => { d with lbaHi := v }
    | 6 => { d with device := v }
    | _ => d
  | _ => d

/-- `early` is a command that does not wait for the drive. -/
def command (early : Drive → UInt8 → Drive) (d : Drive) (cmd : UInt8) : Drive :=
  match d.phase with
  | .idle _ =>
    if cmd = 0x20 then enter bad delay d (.read d.address d.sectors)
    else if cmd = 0x30 then enter bad delay d (.write d.address d.sectors)
    else if cmd = 0xe7 then enter bad delay d .done
    else { d with phase := .idle true }
  | _ => early d cmd

def afterRead (d : Drive) (sector left : Nat) : Drive :=
  if left = 1 then { d with phase := .idle false }
  else enter bad delay d (.read (sector + 1) (left - 1))

def afterWrite (d : Drive) (sector left : Nat) : Drive :=
  enter bad delay d (if left = 1 then .done else .write (sector + 1) (left - 1))

def readData (d : Drive) : Nat × Drive :=
  match d.phase with
  | .sending sector left word =>
    (load16 d.disk (512 * sector + 2 * word),
      if word + 1 < 256 then { d with phase := .sending sector left (word + 1) }
      else afterRead bad delay d sector left)
  | _ => (0, d)

def writeData (d : Drive) (w : Nat) : Drive :=
  match d.phase with
  | .receiving sector left words =>
    if words.length + 1 < 256 then { d with phase := .receiving sector left (words ++ [w]) }
    else afterWrite bad delay { d with disk := putSector d.disk sector (words ++ [w]) } sector left
  | _ => d

end Device

/-! ## Waiting -/

/-- The looks at its status a drive takes to come out of being busy. -/
def Phase.waits : Phase → Nat
  | .busy waits _ => waits + 1
  | _ => 0

def Phase.settled (bad : Nat → Bool) : Phase → Phase
  | .busy _ next => target bad next
  | phase => phase

section Waiting
variable {bad : Nat → Bool} {delay : Nat → Nat} {d : Drive} {phase : Phase}

@[simp] theorem target_waits (next : Next) : (target bad next).waits = 0 := by
  cases next with
  | read sector left =>
    rw [target]
    split <;> rfl
  | write sector left => rfl
  | done => rfl

@[simp] theorem target_settled (next : Next) : (target bad next).settled bad = target bad next := by
  cases next with
  | read sector left =>
    rw [target]
    split <;> rfl
  | write sector left => rfl
  | done => rfl

theorem settled_quiet (quiet : phase.waits = 0) : phase.settled bad = phase := by
  cases phase with
  | busy waits next => cases quiet
  | _ => rfl

theorem tick_quiet (quiet : phase.waits = 0) : phase.tick bad = phase := by
  cases phase with
  | busy waits next => cases quiet
  | _ => rfl

theorem tick_waits : (phase.tick bad).waits = phase.waits - 1 := by
  cases phase with
  | busy waits next =>
    cases waits with
    | zero => exact target_waits next
    | succ waits => rfl
  | _ => rfl

theorem tick_settled : (phase.tick bad).settled bad = phase.settled bad := by
  cases phase with
  | busy waits next =>
    cases waits with
    | zero => exact target_settled next
    | succ waits => rfl
  | _ => rfl

theorem status_busy (busy : 0 < phase.waits) : phase.status = 0x80 := by
  cases phase with
  | busy waits next => rfl
  | _ => cases busy

@[simp] theorem enter_waits (next : Next) :
    (enter bad delay d next).phase.waits = delay d.clock := by
  unfold enter
  dsimp only
  split
  · rename_i none
    rw [target_waits, none]
  · rename_i some
    rw [some]
    rfl

@[simp] theorem enter_settled (next : Next) :
    (enter bad delay d next).phase.settled bad = target bad next := by
  unfold enter
  dsimp only
  split
  · exact target_settled next
  · rfl

theorem enter_soon {limit : Nat} (prompt : ∀ n, delay n ≤ limit) (next : Next) :
    (enter bad delay d next).phase.waits ≤ limit := by
  rw [enter_waits]
  exact prompt _

theorem idle_quiet {err : Bool} (idle : d.phase = .idle err) : d.phase.waits = 0 := by
  rw [idle]
  rfl

@[simp] theorem enter_disk (next : Next) : (enter bad delay d next).disk = d.disk := rfl

end Waiting

/-! ## Sectors -/

section Sectors
variable {bad : Nat → Bool} {delay : Nat → Nat} {d : Drive} {limit : Nat}

def reading (bad : Nat → Bool) (sector left : Nat) : Phase :=
  if left = 0 then .idle false else target bad (.read sector left)

def writing (sector left : Nat) : Phase :=
  if left = 0 then .idle false else .receiving sector left []

theorem afterRead_comes (bad : Nat → Bool) (prompt : ∀ n, delay n ≤ limit) (sector : Nat)
    {left : Nat} (more : 0 < left) :
    (afterRead bad delay d sector left).phase.settled bad = reading bad (sector + 1) (left - 1) ∧
      (afterRead bad delay d sector left).phase.waits ≤ limit ∧
      (afterRead bad delay d sector left).disk = d.disk ∧
      (left = 1 → (afterRead bad delay d sector left).phase = .idle false) := by
  unfold afterRead reading
  by_cases last : left = 1
  · rw [if_pos last, if_pos (by omega)]
    exact ⟨rfl, Nat.zero_le _, rfl, fun _ => rfl⟩
  · rw [if_neg last, if_neg (by omega)]
    exact ⟨enter_settled _, enter_soon prompt _, rfl, fun one => absurd one last⟩

theorem afterWrite_comes (bad : Nat → Bool) (prompt : ∀ n, delay n ≤ limit) (sector : Nat)
    {left : Nat} (more : 0 < left) :
    (afterWrite bad delay d sector left).phase.settled bad = writing (sector + 1) (left - 1) ∧
      (afterWrite bad delay d sector left).phase.waits ≤ limit ∧
      (afterWrite bad delay d sector left).disk = d.disk := by
  unfold afterWrite writing
  refine ⟨?_, enter_soon prompt _, rfl⟩
  by_cases last : left = 1
  · rw [if_pos last, if_pos (by omega)]
    exact enter_settled _
  · rw [if_neg last, if_neg (by omega)]
    exact enter_settled _

/-- A flush that does not wait leaves the sectors and what the drive comes to as they are. -/
def Steadfast (bad : Nat → Bool) (early : Drive → UInt8 → Drive) (limit : Nat) : Prop :=
  ∀ d, d.phase.waits ≤ limit → (early d 0xe7).phase.settled bad = d.phase.settled bad ∧
    (early d 0xe7).phase.waits ≤ limit ∧ (early d 0xe7).disk = d.disk

theorem command_flush {early : Drive → UInt8 → Drive} (steadfast : Steadfast bad early limit)
    (prompt : ∀ n, delay n ≤ limit) {sector left : Nat}
    (comes : d.phase.settled bad = writing sector left) (soon : d.phase.waits ≤ limit) :
    (command bad delay early d 0xe7).phase.settled bad = writing sector left ∧
      (command bad delay early d 0xe7).phase.waits ≤ limit ∧
      (command bad delay early d 0xe7).disk = d.disk := by
  unfold command
  split
  · rename_i err same
    rw [if_neg (by decide), if_neg (by decide), if_pos rfl, enter_settled, enter_disk]
    refine ⟨?_, enter_soon prompt _, rfl⟩
    unfold writing at comes ⊢
    rw [same] at comes
    split at comes
    · rename_i none
      rw [if_pos none]
      rfl
    · cases comes
  · obtain ⟨settled, waits, disk⟩ := steadfast d soon
    exact ⟨settled.trans comes, waits, disk⟩

end Sectors

/-! ## Words -/

section Words
variable (m m' : Mem) (a b : Nat)

theorem load16_bytes : UInt8.ofNat (load16 m a) = m a ∧
    UInt8.ofNat (load16 m a / 256) = m (a + 1) := by
  have first := (m a).toNat_lt
  have low : load16 m a % 256 = (m a).toNat := by
    unfold load16
    omega
  have high : load16 m a / 256 = (m (a + 1)).toNat := by
    unfold load16
    omega
  constructor
  · apply UInt8.toNat_inj.mp
    rw [UInt8.toNat_ofNat']
    exact low
  · rw [high, UInt8.ofNat_toNat]

theorem store16_load16 (x : Nat) :
    store16 m' a (load16 m b) x = if x = a then m b else if x = a + 1 then m (b + 1) else m' x := by
  obtain ⟨low, high⟩ := load16_bytes m b
  unfold store16 store8
  rw [low, high]
  by_cases first : x = a
  · have apart : ¬ x = a + 1 := by omega
    rw [if_neg apart, if_pos first, if_pos first]
  · simp only [first, if_false]

theorem getD_map_range (f : Nat → Nat) {n k : Nat} (inside : k < n) :
    ((List.range n).map f).getD k 0 = f k := by
  rw [List.getD_eq_getElem?_getD, List.getElem?_map, List.getElem?_range inside]
  rfl

theorem byteOf_range {n i : Nat} (inside : i < 2 * n) :
    byteOf ((List.range n).map fun k => load16 m (a + 2 * k)) i = m (a + i) := by
  obtain ⟨low, high⟩ := load16_bytes m (a + 2 * (i / 2))
  rw [byteOf, getD_map_range _ (by omega), low, high]
  split
  · congr 1
    omega
  · congr 1
    omega

end Words

end PioDrive
