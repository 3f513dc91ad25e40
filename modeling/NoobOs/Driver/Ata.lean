import NoobOs.Lib.PioDrive
import NoobOs.Ext2.Disk

/-!
The driver of `ide.c` for one drive, port by port: `ata_read_sectors` and `ata_write_sectors` with
their polls. The drive is busy for any times that the polls wait for, and no write fails; the FLUSH
that `ata_write_sectors` gives behind each sector, within the write, has to leave it where it is.
Between two calls it is idle, and the calls read and write one array of sectors; but a sector that
cannot be read is the end of every later call, whose first poll sees the error still.
-/
namespace Ata
open ByteMemory PioDrive
open Ext2 (ataServed)

def ataPrimaryBase : Nat := 0x1f0
def ataPrimaryCtrl : Nat := 0x3f6
def ataRegSeccount : Nat := 0x02
def ataRegLbaLo : Nat := 0x03
def ataRegLbaMid : Nat := 0x04
def ataRegLbaHi : Nat := 0x05
def ataRegHddevsel : Nat := 0x06
def ataRegStatus : Nat := 0x07
def ataRegCommand : Nat := 0x07
def ataLbaMaster : UInt8 := 0xe0
def ataSrBsy : UInt8 := 0x80
def ataSrDrq : UInt8 := 0x08
def ataSrErr : UInt8 := 0x01
def ataCmdReadPio : UInt8 := 0x20
def ataCmdWritePio : UInt8 := 0x30
def ataCmdFlush : UInt8 := 0xe7

section Driver
variable (bad : Nat → Bool) (delay : Nat → Nat) (early : Drive → UInt8 → Drive)

/-! ## The ports -/

def inb (port : Nat) (d : Drive) : UInt8 × Drive :=
  if port = ataPrimaryCtrl ∨ port = ataPrimaryBase + ataRegStatus then readStatus bad d else (0, d)

def outb (port : Nat) (v : UInt8) (d : Drive) : Drive :=
  if port = ataPrimaryBase + ataRegCommand then command bad delay early d v
  else writeReg d (port - ataPrimaryBase) v

/-! ## ide.c -/

def ataDelay (d : Drive) : Drive :=
  let d := (inb bad ataPrimaryCtrl d).2
  let d := (inb bad ataPrimaryCtrl d).2
  let d := (inb bad ataPrimaryCtrl d).2
  (inb bad ataPrimaryCtrl d).2

def poll (ready : UInt8 → Bool) : Nat → Drive → Bool × Drive
  | 0, d => (false, d)
  | timeout + 1, d =>
    let r := inb bad (ataPrimaryBase + ataRegStatus) d
    if r.1 &&& ataSrErr ≠ 0 then (false, r.2) else if ready r.1 then (true, r.2)
    else poll ready timeout r.2

def timeout : Nat := 100000

def notBusy (status : UInt8) : Bool := status &&& ataSrBsy = 0

def hasData (status : UInt8) : Bool := status &&& ataSrDrq ≠ 0

def ataPollBsy (d : Drive) : Bool × Drive := poll bad notBusy timeout (ataDelay bad d)

def ataPollDrq (d : Drive) : Bool × Drive := poll bad hasData timeout d

def issue (lba : UInt32) (secCount : Nat) (cmd : UInt8) (d : Drive) : Drive :=
  let lbaSelect := ataLbaMaster ||| ((lba >>> 24) &&& 0x0f).toUInt8
  let d := outb bad delay early (ataPrimaryBase + ataRegHddevsel) lbaSelect d
  let d := ataDelay bad d
  let d := outb bad delay early (ataPrimaryBase + ataRegSeccount) (UInt8.ofNat secCount) d
  let d := outb bad delay early (ataPrimaryBase + ataRegLbaLo) lba.toUInt8 d
  let d := outb bad delay early (ataPrimaryBase + ataRegLbaMid) (lba >>> 8).toUInt8 d
  let d := outb bad delay early (ataPrimaryBase + ataRegLbaHi) (lba >>> 16).toUInt8 d
  outb bad delay early (ataPrimaryBase + ataRegCommand) cmd d

def inWords (s : Nat) : Nat → Nat → Mem → Drive → Mem × Drive
  | 0, _, buf, d => (buf, d)
  | n + 1, i, buf, d =>
    let r := readData bad delay d
    inWords s n (i + 1) (store16 buf (2 * (s * 256 + i)) r.1) r.2

def outWords (buf : Mem) (s : Nat) : Nat → Nat → Drive → Drive
  | 0, _, d => d
  | n + 1, i, d => outWords buf s n (i + 1) (writeData bad delay d (load16 buf (2 * (s * 256 + i))))

def readLoop (secCount : Nat) : Nat → Nat → Mem → Drive → Int × Mem × Drive
  | 0, _, buf, d => (secCount, buf, d)
  | rounds + 1, s, buf, d =>
    let bsy := ataPollBsy bad d
    if bsy.1 then
      let drq := ataPollDrq bad bsy.2
      if drq.1 then
        let r := inWords bad delay s 256 0 buf drq.2
        readLoop secCount rounds (s + 1) r.1 r.2
      else (-1, buf, drq.2)
    else (-1, buf, bsy.2)

def ataReadSectors (lba : UInt32) (secCount : Nat) (buf : Mem) (d : Drive) : Int × Mem × Drive :=
  let bsy := ataPollBsy bad d
  if bsy.1 then
    readLoop bad delay secCount secCount 0 buf
    (issue bad delay early lba secCount ataCmdReadPio bsy.2)
  else (-1, buf, bsy.2)

def writeLoop (buf : Mem) : Nat → Nat → Drive → Int × Drive
  | 0, _, d => (0, d)
  | rounds + 1, s, d =>
    let bsy := ataPollBsy bad d
    if bsy.1 then
      let drq := ataPollDrq bad bsy.2
      if drq.1 then
        let d := outWords bad delay buf s 256 0 drq.2
        let d := outb bad delay early (ataPrimaryBase + ataRegCommand) ataCmdFlush d
        let bsy := ataPollBsy bad d
        if bsy.1 then writeLoop buf rounds (s + 1) bsy.2 else (-1, bsy.2)
      else (-1, drq.2)
    else (-1, bsy.2)

def ataWriteSectors (lba : UInt32) (count : Nat) (buf : Mem) (d : Drive) : Int × Drive :=
  let bsy := ataPollBsy bad d
  if bsy.1 then
    writeLoop bad delay early buf count 0 (issue bad delay early lba count ataCmdWritePio bsy.2)
  else (-1, bsy.2)

end Driver

/-! ## The polls -/

section Polls
variable {bad : Nat → Bool} {delay : Nat → Nat} {d : Drive} {n : Nat}

/-- The looks at the status that the four reads of `ata_delay` and the poll behind them are. -/
def patience : Nat := 100004

def fine : Phase → Bool
  | .idle err => !err
  | _ => true

theorem inb_status (d : Drive) :
    inb bad (ataPrimaryBase + ataRegStatus) d = ((d.phase.tick bad).status, tick bad d) :=
  if_pos (Or.inr rfl)

theorem inb_ctrl (d : Drive) : (inb bad ataPrimaryCtrl d).2 = tick bad d := by
  rw [inb, if_pos (Or.inl rfl)]
  rfl

theorem tick_still (quiet : d.phase.waits = 0) : tick bad d = d := by
  rw [tick, tick_quiet quiet]

theorem delay_eq (d : Drive) : ataDelay bad d = tick bad (tick bad (tick bad (tick bad d))) := by
  simp only [ataDelay, inb_ctrl]

theorem delay_still (quiet : d.phase.waits = 0) : ataDelay bad d = d := by
  simp only [delay_eq, tick_still quiet]

theorem poll_bsy (some : 0 < n) (soon : d.phase.waits ≤ n) :
    poll bad notBusy n d = (fine (d.phase.settled bad),
    { d with phase := d.phase.settled bad }) := by
  induction n generalizing d with
  | zero => cases some
  | succ n ih =>
    have rest : (d.phase.tick bad).waits = d.phase.waits - 1 := tick_waits
    have comes : (d.phase.tick bad).settled bad = d.phase.settled bad := tick_settled
    simp only [poll, inb_status]
    by_cases busy : 0 < (d.phase.tick bad).waits
    · rw [status_busy busy, if_neg (by decide), if_neg (by decide)]
      have later := ih (d := tick bad d) (by omega) (by simp only [tick]; omega)
      simp only [tick, comes] at later ⊢
      exact later
    · have quiet : (d.phase.tick bad).waits = 0 := by omega
      rw [settled_quiet quiet] at comes
      rw [tick, ← comes]
      generalize d.phase.tick bad = phase at quiet
      cases phase with
      | idle err => cases err <;> rfl
      | busy waits next => cases quiet
      | sending sector left word =>
        have status : (Phase.sending sector left word).status = 0x48 := rfl
        rw [status, if_neg (by decide), if_pos (by decide)]
        rfl
      | receiving sector left words =>
        have status : (Phase.receiving sector left words).status = 0x48 := rfl
        rw [status, if_neg (by decide), if_pos (by decide)]
        rfl

theorem ataPollBsy_eq (soon : d.phase.waits ≤ patience) :
    ataPollBsy bad d = (fine (d.phase.settled bad), { d with phase := d.phase.settled bad }) := by
  have comes : (tick bad (tick bad (tick bad (tick bad d)))).phase.settled bad =
      d.phase.settled bad := by
    simp only [tick, tick_settled]
  have fewer : (tick bad (tick bad (tick bad (tick bad d)))).phase.waits ≤ timeout := by
    simp only [tick, tick_waits]
    unfold patience at soon
    unfold timeout
    omega
  rw [ataPollBsy, delay_eq, poll_bsy (by decide) fewer, comes]
  rfl

theorem ataPollBsy_still (quiet : d.phase.waits = 0) : ataPollBsy bad d = (fine d.phase, d) := by
  rw [ataPollBsy_eq (by rw [quiet]; exact Nat.zero_le _), settled_quiet quiet]

theorem ataPollBsy_idle {err : Bool} (idle : d.phase = .idle err) :
    ataPollBsy bad d = (!err, d) := by
  rw [ataPollBsy_still (idle_quiet idle), idle]
  rfl

theorem poll_idle {err : Bool} (idle : d.phase = .idle err) (n : Nat) :
    poll bad hasData n d = (false, d) := by
  have quiet := idle_quiet idle
  induction n with
  | zero => rfl
  | succ n ih =>
    simp only [poll, inb_status, tick_still quiet, tick_quiet quiet]
    cases err with
    | true =>
      have status : d.phase.status = 0x41 := by
        rw [idle]
        rfl
      rw [status, if_pos (by decide)]
    | false =>
      have status : d.phase.status = 0x40 := by
        rw [idle]
        rfl
      rw [status, if_neg (by decide), if_neg (by decide)]
      exact ih

theorem ataPollDrq_data (data : (∃ sector left word, d.phase = .sending sector left word) ∨
    ∃ sector left words, d.phase = .receiving sector left words) : ataPollDrq bad d =
    (true, d) := by
  have general : ∀ n, 0 < n → poll bad hasData n d = (true, d) := by
    intro n some
    obtain ⟨m, rfl⟩ : ∃ m, n = m + 1 := ⟨n - 1, by omega⟩
    obtain ⟨status, quiet⟩ : d.phase.status = 0x48 ∧ d.phase.waits = 0 := by
      rcases data with ⟨sector, left, word, phase⟩ | ⟨sector, left, words, phase⟩ <;> rw [phase]
        <;> exact ⟨rfl, rfl⟩
    simp only [poll, inb_status, tick_still quiet, tick_quiet quiet]
    rw [status, if_neg (by decide), if_pos (by decide)]
  exact general timeout (by decide)

end Polls

/-! ## A sector -/

section Sector
variable {bad : Nat → Bool} {delay : Nat → Nat} {d : Drive}

theorem afterRead_phase (phase : Phase) (sector left : Nat) :
    afterRead bad delay { d with phase := phase } sector left =
    afterRead bad delay d sector left := by
  unfold afterRead
  split <;> rfl

theorem inWords_eq {sector left s n i : Nat} (buf : Mem) (phase : d.phase = .sending sector left i)
    (last : i + n = 256) (some : 0 < n) :
    inWords bad delay s n i buf d =
      (fun x => if 512 * s + 2 * i ≤ x ∧ x < 512 * s + 512 then d.disk
      (512 * sector + (x - 512 * s)) else buf x,
        afterRead bad delay d sector left) := by
  induction n generalizing i buf d with
  | zero => omega
  | succ n ih =>
    have stored : ∀ x, store16 buf (2 * (s * 256 + i)) (load16 d.disk (512 * sector + 2 * i)) x =
        if x = 512 * s + 2 * i ∨ x = 512 * s + 2 * i + 1 then d.disk (512 * sector + (x - 512 * s))
        else buf x := by
      intro x
      have place : 2 * (s * 256 + i) = 512 * s + 2 * i := by omega
      rw [place, store16_load16]
      by_cases first : x = 512 * s + 2 * i
      · rw [if_pos first, if_pos (Or.inl first)]
        congr 1
        omega
      · by_cases second : x = 512 * s + 2 * i + 1
        · rw [if_neg first, if_pos second, if_pos (Or.inr second)]
          congr 1
          omega
        · rw [if_neg first, if_neg second, if_neg (by omega)]
    by_cases more : i + 1 < 256
    · have read : readData bad delay d =
          (load16 d.disk (512 * sector + 2 * i),
          { d with phase := .sending sector left (i + 1) }) := by
        rw [readData, phase]
        simp only [if_pos more]
      rw [inWords, read]
      simp only
      rw [ih (d := { d with phase := .sending sector left (i + 1) }) _ rfl (by omega) (by omega),
        afterRead_phase]
      congr 1
      funext x
      rw [stored]
      by_cases rest : 512 * s + 2 * (i + 1) ≤ x ∧ x < 512 * s + 512
      · rw [if_pos rest, if_pos (by omega)]
      · rw [if_neg rest]
        by_cases here : x = 512 * s + 2 * i ∨ x = 512 * s + 2 * i + 1
        · rw [if_pos here, if_pos (by omega)]
        · rw [if_neg here, if_neg (by omega)]
    · have read : readData bad delay d =
          (load16 d.disk (512 * sector + 2 * i), afterRead bad delay d sector left) := by
        rw [readData, phase]
        simp only [if_neg more]
      obtain rfl : n = 0 := by omega
      rw [inWords, read]
      simp only [inWords]
      congr 1
      funext x
      rw [stored]
      by_cases here : x = 512 * s + 2 * i ∨ x = 512 * s + 2 * i + 1
      · rw [if_pos here, if_pos (by omega)]
      · rw [if_neg here, if_neg (by omega)]

theorem outWords_eq {sector left s n i : Nat} (buf : Mem)
    (phase : d.phase = .receiving sector left ((List.range i).map fun k =>
      load16 buf (512 * s + 2 * k))) (last : i + n = 256)
    (some : 0 < n) : outWords bad delay buf s n i d =
      afterWrite bad delay { d with
      disk := putSector d.disk sector ((List.range 256).map fun k => load16 buf (512 * s + 2 * k)) }
        sector left := by
  induction n generalizing i d with
  | zero => omega
  | succ n ih =>
    have place : 2 * (s * 256 + i) = 512 * s + 2 * i := by omega
    have words : ((List.range i).map fun k => load16 buf (512 * s + 2 * k)) ++
      [load16 buf (512 * s + 2 * i)] =
        (List.range (i + 1)).map fun k => load16 buf (512 * s + 2 * k) := by
      rw [List.range_succ, List.map_append, List.map_singleton]
    have length : ((List.range i).map fun k => load16 buf (512 * s + 2 * k)).length = i := by
      rw [List.length_map, List.length_range]
    rw [outWords, place]
    by_cases more : i + 1 < 256
    · have written : writeData bad delay d (load16 buf (512 * s + 2 * i)) =
          { d with
              phase :=
              .receiving sector left ((List.range (i + 1)).map fun k =>
                load16 buf (512 * s + 2 * k)) } := by
        rw [writeData, phase]
        simp only [length, if_pos more, words]
      rw [written, ih (d := { d with phase := _ }) rfl (by omega) (by omega)]
      rfl
    · have written : writeData bad delay d (load16 buf (512 * s + 2 * i)) =
          afterWrite bad delay { d with
            disk :=
            putSector d.disk sector ((List.range (i + 1)).map fun k =>
              load16 buf (512 * s + 2 * k)) }
            sector left := by
        rw [writeData, phase]
        simp only [length, if_neg more, words]
      obtain rfl : n = 0 := by omega
      have whole : i + 1 = 256 := by omega
      rw [written, outWords, whole]

/-- Sectors of one memory, from one place on, put into another. -/
def filled (src : Mem) (origin place count : Nat) (dst : Mem) : Mem := fun x =>
  if 512 * place ≤ x ∧ x < 512 * (place + count) then src (512 * origin + (x - 512 * place))
  else dst x

theorem filled_none (src : Mem) (origin place : Nat) (dst : Mem) :
    filled src origin place 0 dst = dst := by
  funext x
  exact if_neg (by omega)

theorem filled_more (src : Mem) (origin place count : Nat) (dst : Mem) :
    filled src (origin + 1) (place + 1) count (filled src origin place 1 dst) =
    filled src origin place (count + 1) dst := by
  funext x
  unfold filled
  by_cases later : 512 * (place + 1) ≤ x ∧ x < 512 * (place + 1 + count)
  · have same : 512 * (origin + 1) + (x - 512 * (place + 1)) =
      512 * origin + (x - 512 * place) := by omega
    rw [if_pos later, if_pos (by omega), same]
  · rw [if_neg later]
    by_cases here : 512 * place ≤ x ∧ x < 512 * (place + 1)
    · rw [if_pos here, if_pos (by omega)]
    · rw [if_neg here, if_neg (by omega)]

theorem putSector_filled (disk buf : Mem) (sector s : Nat) :
    putSector disk sector ((List.range 256).map fun k => load16 buf (512 * s + 2 * k)) =
    filled buf s sector 1 disk := by
  funext x
  unfold putSector filled
  by_cases inside : 512 * sector ≤ x ∧ x < 512 * sector + 512
  · rw [if_pos inside, if_pos (by omega), byteOf_range _ _ (by omega)]
  · rw [if_neg inside, if_neg (by omega)]

theorem inSector_eq {sector left s : Nat} (buf : Mem) (phase : d.phase = .sending sector left 0) :
    inWords bad delay s 256 0 buf d =
    (filled d.disk sector s 1 buf, afterRead bad delay d sector left) := by
  rw [inWords_eq buf phase (Nat.zero_add 256) (by decide)]
  rfl

theorem outSector_eq {sector left s : Nat} (buf : Mem)
    (phase : d.phase = .receiving sector left []) :
    outWords bad delay buf s 256 0 d = afterWrite bad delay
    { d with disk := filled buf s sector 1 d.disk } sector left := by
  rw [outWords_eq buf phase (Nat.zero_add 256) (by decide), putSector_filled]

end Sector

/-! ## The loops -/

def readable (bad : Nat → Bool) : Nat → Nat → Nat
  | _, 0 => 0
  | sector, left + 1 => if bad sector then 0 else readable bad (sector + 1) left + 1

section Loops
variable {bad : Nat → Bool} {delay : Nat → Nat} {early : Drive → UInt8 → Drive} {d : Drive}

def AtRead (bad : Nat → Bool) (sector left : Nat) (d : Drive) : Prop :=
  (left = 0 → d.phase = .idle false) ∧ d.phase.settled bad = reading bad sector left ∧
    d.phase.waits ≤ patience

def AtWrite (bad : Nat → Bool) (sector left : Nat) (d : Drive) : Prop :=
  (left = 0 → d.phase = .idle false) ∧ d.phase.settled bad = writing sector left ∧
    d.phase.waits ≤ patience

theorem readLoop_spec (prompt : ∀ n, delay n ≤ patience) (secCount : Nat) {sector left rounds : Nat}
    (enough : left ≤ rounds)
    (s : Nat) (buf : Mem) (ready : AtRead bad sector left d) :
    ∃ d', readLoop bad delay secCount rounds s buf d =
        (if readable bad sector left = left ∧ left = rounds then (secCount : Int) else -1,
          filled d.disk sector s (readable bad sector left) buf, d') ∧
      d'.disk = d.disk ∧ d'.phase = .idle (decide (readable bad sector left < left)) := by
  induction left generalizing sector rounds s buf d with
  | zero =>
    have idle := ready.1 rfl
    rw [readable, filled_none]
    cases rounds with
    | zero => exact ⟨d, rfl, rfl, idle⟩
    | succ rounds =>
      refine ⟨d, ?_, rfl, idle⟩
      rw [readLoop, ataPollBsy_idle idle, ataPollDrq, poll_idle idle]
      rfl
  | succ left ih =>
    obtain ⟨-, comes, soon⟩ := ready
    obtain ⟨rounds, rfl⟩ : ∃ r, rounds = r + 1 := ⟨rounds - 1, by omega⟩
    rw [reading, if_neg (by omega), target] at comes
    rw [readLoop, ataPollBsy_eq soon, comes, readable]
    cases unread : bad sector with
    | true =>
      simp only [if_true, fine, Bool.not_true, Bool.false_eq_true, if_false, filled_none]
      refine ⟨{ d with phase := .idle true }, ?_, rfl, ?_⟩
      · rw [if_neg (by omega)]
      · rw [decide_eq_true (Nat.succ_pos left)]
    | false =>
      simp only [Bool.false_eq_true, if_false, fine, if_true]
      rw [ataPollDrq_data (.inl ⟨_, _, _, rfl⟩)]
      simp only [if_true]
      rw [inSector_eq buf rfl, afterRead_phase]
      simp only
      obtain ⟨comes', soon', disk, done⟩ :=
        afterRead_comes bad (d := d) prompt sector (Nat.succ_pos left)
      have enough' : left ≤ rounds := by omega
      obtain ⟨d', looped, disk', phase'⟩ := ih enough' (s + 1) (filled d.disk sector s 1 buf)
        ⟨fun none => done (by omega), comes', soon'⟩
      refine ⟨d', ?_, disk'.trans disk, ?_⟩
      · rw [looped, disk, filled_more]
        simp only [Nat.add_right_cancel_iff]
      · rw [phase']
        simp only [Nat.add_lt_add_iff_right]

theorem flushed (steadfast : Steadfast bad early patience) (prompt : ∀ n, delay n ≤ patience)
    {sector left : Nat} (comes : d.phase.settled bad = writing sector left)
    (soon : d.phase.waits ≤ patience) :
    ∃ d', ataPollBsy bad (outb bad delay early (ataPrimaryBase + ataRegCommand) ataCmdFlush d) =
    (true, d') ∧ d'.disk = d.disk ∧
      AtWrite bad sector left d' := by
  obtain ⟨comes', soon', disk⟩ := command_flush steadfast prompt comes soon
  have sent : outb bad delay early (ataPrimaryBase + ataRegCommand) ataCmdFlush d =
    command bad delay early d 0xe7 := if_pos rfl
  have quiet : (writing sector left).waits = 0 ∧ fine (writing sector left) = true := by
    unfold writing
    split <;> exact ⟨rfl, rfl⟩
  rw [sent, ataPollBsy_eq soon', comes', quiet.2]
  refine ⟨_, rfl, disk, ?_, ?_, ?_⟩
  · intro none
    exact if_pos none
  · exact settled_quiet quiet.1
  · show (writing sector left).waits ≤ patience
    rw [quiet.1]
    exact Nat.zero_le _

theorem writeLoop_spec (steadfast : Steadfast bad early patience) (prompt : ∀ n, delay n ≤ patience)
    {sector left rounds : Nat} (enough : left ≤ rounds) (s : Nat) (buf : Mem)
    (ready : AtWrite bad sector left d) :
    ∃ d', writeLoop bad delay early buf rounds s d = (if left = rounds then 0 else -1, d') ∧
    d'.disk = filled buf s sector left d.disk ∧
      d'.phase = .idle false := by
  induction left generalizing sector rounds s d with
  | zero =>
    have idle := ready.1 rfl
    rw [filled_none]
    cases rounds with
    | zero => exact ⟨d, rfl, rfl, idle⟩
    | succ rounds =>
      refine ⟨d, ?_, rfl, idle⟩
      rw [writeLoop, ataPollBsy_idle idle, ataPollDrq, poll_idle idle]
      rfl
  | succ left ih =>
    obtain ⟨-, comes, soon⟩ := ready
    obtain ⟨rounds, rfl⟩ : ∃ r, rounds = r + 1 := ⟨rounds - 1, by omega⟩
    rw [writing, if_neg (by omega)] at comes
    rw [writeLoop, ataPollBsy_eq soon, comes]
    simp only [fine, if_true]
    rw [ataPollDrq_data (.inr ⟨_, _, _, rfl⟩)]
    simp only [if_true]
    rw [outSector_eq buf rfl]
    simp only
    obtain ⟨comes', soon', disk⟩ := afterWrite_comes bad
      (d := { d with
        phase := .receiving sector (left + 1) [], disk := filled buf s sector 1 d.disk }) prompt
        sector (Nat.succ_pos left)
    obtain ⟨d₁, polled, disk₁, ready₁⟩ := flushed steadfast prompt comes' soon'
    have enough' : left ≤ rounds := by omega
    obtain ⟨d', looped, disk', phase'⟩ := ih enough' (s + 1) ready₁
    refine ⟨d', ?_, ?_, phase'⟩
    · rw [polled]
      simp only [if_true]
      rw [looped]
      simp only [Nat.add_right_cancel_iff]
    · rw [disk', disk₁, disk, filled_more]

end Loops

/-! ## Calls -/

section Calls
variable {bad : Nat → Bool} {delay : Nat → Nat} {early : Drive → UInt8 → Drive} {d : Drive}

theorem select_bits (x : UInt32) :
    ((ataLbaMaster ||| ((x >>> 24) &&& 0x0f).toUInt8) &&& (0x0f : UInt8)).toNat =
    x.toNat / 2 ^ 24 % 16 := by
  have apart : ∀ n < 16, (0xe0 ||| n) &&& 15 = n := by decide
  have bits : ((x >>> 24) &&& 0x0f).toNat = x.toNat / 2 ^ 24 % 16 := by
    rw [UInt32.toNat_and, UInt32.toNat_shiftRight, Nat.shiftRight_eq_div_pow]
    exact Nat.and_two_pow_sub_one_eq_mod _ 4
  have byte : ((x >>> 24) &&& 0x0f).toUInt8.toNat = x.toNat / 2 ^ 24 % 16 := by
    rw [UInt32.toNat_toUInt8, bits]
    omega
  rw [UInt8.toNat_and, UInt8.toNat_or, byte]
  exact apart _ (Nat.mod_lt _ (by decide))

theorem byte_at (x : UInt32) (k : UInt32) (small : k.toNat < 32) :
    ((x >>> k).toUInt8).toNat = x.toNat / 2 ^ k.toNat % 256 := by
  rw [UInt32.toNat_toUInt8, UInt32.toNat_shiftRight, Nat.mod_eq_of_lt small,
    Nat.shiftRight_eq_div_pow]

theorem issue_eq (lba : UInt32) (secCount : Nat) (cmd : UInt8) (idle : d.phase = .idle false) :
    ∃ d₁, issue bad delay early lba secCount cmd d = command bad delay early d₁ cmd ∧
    d₁.phase = .idle false ∧ d₁.disk = d.disk ∧
      d₁.address = lba.toNat % 2 ^ 28 ∧ d₁.sectors = ataServed secCount := by
  refine ⟨{ d with
    device := ataLbaMaster ||| ((lba >>> 24) &&& 0x0f).toUInt8, seccount :=
      UInt8.ofNat secCount, lbaLo := lba.toUInt8,
    lbaMid := (lba >>> 8).toUInt8, lbaHi := (lba >>> 16).toUInt8 }, ?_, idle, rfl, ?_, ?_⟩
  · have select : ∀ v, outb bad delay early (ataPrimaryBase + ataRegHddevsel) v d =
        { d with device := v } := by
      intro v
      rw [outb, if_neg (by decide)]
      unfold writeReg
      rw [idle]
      rfl
    have still : ∀ v, ataDelay bad { d with device := v } = { d with device := v } :=
      fun v => delay_still (idle_quiet idle)
    simp only [issue, select, still]
    obtain ⟨disk, seccount, lbaLo, lbaMid, lbaHi, device, clock, phase⟩ := d
    cases idle
    rfl
  · have high := byte_at lba 16 (by decide)
    have mid := byte_at lba 8 (by decide)
    have low : lba.toUInt8.toNat = lba.toNat % 256 := UInt32.toNat_toUInt8 lba
    simp only [Drive.address, select_bits, high, mid, low, UInt32.reduceToNat]
    omega
  · simp only [Drive.sectors, ataServed, ← UInt8.toNat_inj, UInt8.toNat_ofNat', UInt8.toNat_zero]

theorem read_started (bad : Nat → Bool) (early : Drive → UInt8 → Drive)
    (prompt : ∀ n, delay n ≤ patience) (idle : d.phase = .idle false) (some : 0 < d.sectors) :
    AtRead bad d.address d.sectors (command bad delay early d ataCmdReadPio) ∧
    (command bad delay early d ataCmdReadPio).disk = d.disk := by
  have sent : command bad delay early d ataCmdReadPio =
      enter bad delay d (.read d.address d.sectors) := by
    unfold command
    rw [idle]
    rfl
  rw [sent, enter_disk]
  refine ⟨⟨fun none => absurd none (by omega), ?_, enter_soon prompt _⟩, rfl⟩
  rw [enter_settled, reading, if_neg (by omega)]

theorem write_started (bad : Nat → Bool) (early : Drive → UInt8 → Drive)
    (prompt : ∀ n, delay n ≤ patience) (idle : d.phase = .idle false) (some : 0 < d.sectors) :
    AtWrite bad d.address d.sectors (command bad delay early d ataCmdWritePio) ∧
    (command bad delay early d ataCmdWritePio).disk = d.disk := by
  have sent : command bad delay early d ataCmdWritePio =
      enter bad delay d (.write d.address d.sectors) := by
    unfold command
    rw [idle]
    rfl
  rw [sent, enter_disk]
  refine ⟨⟨fun none => absurd none (by omega), ?_, enter_soon prompt _⟩, rfl⟩
  rw [enter_settled, writing, if_neg (by omega)]
  rfl

inductive Call where
  | read (lba : UInt32) (secCount : Nat) (buf : Mem)
  | write (lba : UInt32) (count : Nat) (buf : Mem)

def Call.count : Call → Nat
  | .read _ secCount _ => secCount
  | .write _ count _ => count

def Call.run (bad : Nat → Bool) (delay : Nat → Nat) (early : Drive → UInt8 → Drive) (d : Drive) :
    Call → (Int × Mem) × Drive
  | .read lba secCount buf =>
    let r := ataReadSectors bad delay early lba secCount buf d
    ((r.1, r.2.1), r.2.2)
  | .write lba count buf =>
    let r := ataWriteSectors bad delay early lba count buf d
    ((r.1, buf), r.2)

/-- An array of sectors, and whether a sector that cannot be read was asked for. -/
structure Medium where
  disk : Mem
  failed : Bool

def Call.medium (bad : Nat → Bool) (m : Medium) : Call → (Int × Mem) × Medium
  | .read lba secCount buf =>
    if m.failed then ((-1, buf), m)
    else
      let first := lba.toNat % 2 ^ 28
      let got := readable bad first (ataServed secCount)
      ((if got = ataServed secCount ∧ ataServed secCount = secCount then (secCount : Int)
        else -1, filled m.disk first 0 got buf),
        ⟨m.disk, decide (got < ataServed secCount)⟩)
  | .write lba count buf =>
    if m.failed then ((-1, buf), m)
    else ((if ataServed count = count then 0 else -1, buf),
      ⟨filled buf 0 (lba.toNat % 2 ^ 28) (ataServed count) m.disk, false⟩)

def answers {S : Type} (step : S → Call → (Int × Mem) × S) : S → List Call → List (Int × Mem) × S
  | s, [] => ([], s)
  | s, call :: calls =>
    let r := step s call
    let rest := answers step r.2 calls
    (r.1 :: rest.1, rest.2)

theorem served_le {count : Nat} (some : 0 < count) : ataServed count ≤ count := by
  unfold ataServed
  split <;> omega

theorem served_pos (count : Nat) : 0 < ataServed count := by
  unfold ataServed
  split <;> omega

/-- Between calls the drive is idle. -/
structure Shows (d : Drive) (m : Medium) : Prop where
  disk : d.disk = m.disk
  phase : d.phase = .idle m.failed

theorem read_shows (bad : Nat → Bool) (prompt : ∀ n, delay n ≤ patience)
    (idle : d.phase = .idle false) (lba : UInt32)
    {secCount : Nat} (some : 0 < secCount) (buf : Mem) :
    (Call.run bad delay early d (.read lba secCount buf)).1 =
    (Call.medium bad ⟨d.disk, false⟩ (.read lba secCount buf)).1 ∧
      Shows (Call.run bad delay early d (.read lba secCount buf)).2
      (Call.medium bad ⟨d.disk, false⟩ (.read lba secCount buf)).2 := by
  obtain ⟨d₁, issued, idle₁, disk₁, address, sectors⟩ :
    ∃ d₁, issue bad delay early lba secCount ataCmdReadPio d =
      command bad delay early d₁ ataCmdReadPio ∧ _ := issue_eq lba secCount ataCmdReadPio idle
  obtain ⟨ready, same⟩ :=
    read_started bad early prompt idle₁ (by rw [sectors]; exact served_pos secCount)
  rw [address, sectors] at ready
  obtain ⟨d', looped, disk', phase'⟩ := readLoop_spec prompt secCount (served_le some) 0 buf ready
  rw [same, disk₁] at looped disk'
  have called : ataReadSectors bad delay early lba secCount buf d =
      readLoop bad delay secCount secCount 0 buf (command bad delay early d₁ ataCmdReadPio) := by
    rw [ataReadSectors, ataPollBsy_idle idle, ← issued]
    rfl
  simp only [Call.run, Call.medium, called, looped]
  exact ⟨rfl, disk', phase'⟩

theorem write_shows (steadfast : Steadfast bad early patience) (prompt : ∀ n, delay n ≤ patience)
    (idle : d.phase = .idle false) (lba : UInt32)
    {count : Nat} (some : 0 < count) (buf : Mem) :
    (Call.run bad delay early d (.write lba count buf)).1 =
    (Call.medium bad ⟨d.disk, false⟩ (.write lba count buf)).1 ∧
      Shows (Call.run bad delay early d (.write lba count buf)).2
      (Call.medium bad ⟨d.disk, false⟩ (.write lba count buf)).2 := by
  obtain ⟨d₁, issued, idle₁, disk₁, address, sectors⟩ :
    ∃ d₁, issue bad delay early lba count ataCmdWritePio d =
      command bad delay early d₁ ataCmdWritePio ∧ _ := issue_eq lba count ataCmdWritePio idle
  obtain ⟨ready, same⟩ :=
    write_started bad early prompt idle₁ (by rw [sectors]; exact served_pos count)
  rw [address, sectors] at ready
  obtain ⟨d', looped, disk', phase'⟩ := writeLoop_spec steadfast prompt (served_le some) 0 buf ready
  rw [same, disk₁] at disk'
  have called : ataWriteSectors bad delay early lba count buf d =
      writeLoop bad delay early buf count 0 (command bad delay early d₁ ataCmdWritePio) := by
    rw [ataWriteSectors, ataPollBsy_idle idle, ← issued]
    rfl
  simp only [Call.run, Call.medium, called, looped]
  exact ⟨rfl, disk', phase'⟩

theorem failed_shows (idle : d.phase = .idle true) (call : Call) :
    (call.run bad delay early d).1 = (call.medium bad ⟨d.disk, true⟩).1 ∧
      Shows (call.run bad delay early d).2 (call.medium bad ⟨d.disk, true⟩).2 := by
  have polled : ataPollBsy bad d = (false, d) := ataPollBsy_idle idle
  cases call with
  | read lba secCount buf =>
    simp only [Call.run, Call.medium, ataReadSectors, polled]
    exact ⟨rfl, rfl, idle⟩
  | write lba count buf =>
    simp only [Call.run, Call.medium, ataWriteSectors, polled]
    exact ⟨rfl, rfl, idle⟩

theorem run_shows (steadfast : Steadfast bad early patience) (prompt : ∀ n, delay n ≤ patience)
    {m : Medium} (shows : Shows d m) {call : Call} (some : 0 < call.count) :
    (call.run bad delay early d).1 = (call.medium bad m).1 ∧ Shows (call.run bad delay early d).2
    (call.medium bad m).2 := by
  obtain ⟨disk, failed⟩ := m
  obtain ⟨rfl, idle⟩ := shows
  cases failed with
  | true => exact failed_shows idle call
  | false =>
    cases call with
    | read lba secCount buf => exact read_shows bad prompt idle lba some buf
    | write lba count buf => exact write_shows steadfast prompt idle lba some buf

/-- A drive that takes no command while it is busy or has words to hand over. -/
def ignores (d : Drive) (_ : UInt8) : Drive := d

theorem ignores_steadfast (bad : Nat → Bool) : Steadfast bad ignores patience :=
  fun _ soon => ⟨rfl, soon, rfl⟩

theorem fresh_shows (disk : Mem) : Shows (Drive.fresh disk) ⟨disk, false⟩ := ⟨rfl, rfl⟩

theorem readable_all (sector left : Nat) : readable (fun _ => false) sector left = left := by
  induction left generalizing sector with
  | zero => rfl
  | succ left ih => rw [readable, if_neg Bool.false_ne_true, ih]

/-- What the file system's reads take a call for is what comes of it on a drive that can read all
    its sectors. -/
theorem ataReadSectors_buffer (delay : Nat → Nat) (early : Drive → UInt8 → Drive)
    (prompt : ∀ n, delay n ≤ patience) (d : Drive) (idle : d.phase = .idle false)
    (lba : UInt32) (secCount : Nat) (some : 0 < secCount) (buf : Mem) :
    (ataReadSectors (fun _ => false) delay early lba secCount buf d).2.1 =
    Ext2.ataReadSectors d.disk lba secCount buf := by
  have called : (ataReadSectors (fun _ => false) delay early lba secCount buf d).2.1 =
      filled d.disk (lba.toNat % 2 ^ 28) 0
          (readable (fun _ => false) (lba.toNat % 2 ^ 28) (ataServed secCount)) buf :=
    congrArg Prod.snd (read_shows (fun _ => false) prompt idle lba some buf).1
  have fewer := served_le some
  rw [called, readable_all]
  funext x
  unfold filled Ext2.ataReadSectors
  rw [Nat.min_eq_right fewer]
  by_cases inside : x < 512 * ataServed secCount
  · rw [if_pos inside, if_pos (by omega)]
    rfl
  · rw [if_neg inside, if_neg (by omega)]

theorem ataReadSectors_buffer_one :
    (ataReadSectors (fun _ => false) (fun _ => 3) ignores 5 1 (fun _ => 1) (Drive.fresh fun x =>
      UInt8.ofNat x)).2.1 =
      Ext2.ataReadSectors (fun x => UInt8.ofNat x) 5 1 fun _ => 1 :=
  ataReadSectors_buffer (fun _ => 3) ignores (fun _ => by decide) _ rfl 5 1 Nat.one_pos _

end Calls

end Ata
