import NoobOs.KLib.PrintfResults

/-!
`snprintkf` into a buffer, and the status lines of `printf.c`, which put a message through one. The
buffers are apart from what is printed.
-/
namespace Printf
open ByteMemory Strings

/-! ## snprintkf -/

section Buffer
variable {m : Mem} {buffer bufsz : Nat} {format out : Str} {ws : List Word}

theorem bufputc_fold (buffer len : Nat) (out : Str) (m : Mem) (cur : Nat) (inside : cur ≤ len) :
    (out.foldl (bufputc buffer len) (m, cur)).1 = storeBytes m (buffer + cur)
    (out.take (len - cur)) := by
  induction out generalizing m cur with
  | nil => rw [List.take_nil]; rfl
  | cons c out ih =>
    rw [List.foldl_cons, bufputc]
    by_cases room : cur < len
    · rw [if_pos room, ih _ (cur + 1) room, show len - cur = (len - (cur + 1)) + 1 by omega,
        List.take_succ_cons, storeBytes]
      rfl
    · have full : cur = len := by omega
      rw [if_neg room, ih m cur inside, full, Nat.sub_self]
      rfl

/-- As much of the text as fits with its NUL, and nothing outside the buffer. -/
structure Printed (m m' : Mem) (buffer bufsz : Nat) (out : Str) : Prop where
  text : 0 < bufsz → BytesAt m' buffer (out.take (bufsz - 1) ++ [0])
  outside : ∀ x, x < buffer ∨ buffer + bufsz ≤ x → m' x = m x

theorem vsnprintf_printed (buffer bufsz : Nat) (done : vpprintf m format ws = some out)
    (counts : out.length < 2 ^ 31) (somewhere : buffer ≠ 0) :
    ∃ m', vsnprintf m buffer bufsz format ws = some (m', (out.length : Int)) ∧
      Printed m m' buffer bufsz out := by
  have count := counted_eq counts
  have unsigned : ¬ (out.length : Int) < 0 := Int.not_lt.mpr (Int.natCast_nonneg _)
  have stored := bufputc_fold buffer bufsz out m 0 (Nat.zero_le _)
  rw [Nat.add_zero, Nat.sub_zero] at stored
  have length : (out.take bufsz).length = min bufsz out.length := List.length_take
  rcases Nat.eq_zero_or_pos bufsz with rfl | positive
  · refine ⟨storeBytes m buffer (out.take 0), ?_, fun positive => absurd positive (Nat.lt_irrefl 0),
      fun x _ => rfl⟩
    simp [vsnprintf, done, somewhere, stored, count]
  · refine ⟨store8 (storeBytes m buffer (out.take bufsz)) (buffer + min out.length (bufsz - 1)) 0,
      ?_, fun _ => ?_, fun x away => ?_⟩
    · simp [vsnprintf, done, somewhere, Nat.ne_of_gt positive, stored, count, unsigned]
    · have short : (out.take (bufsz - 1)).length = min out.length (bufsz - 1) := by
        rw [List.length_take, Nat.min_comm]
      refine (bytesAt_append _ _ _).mpr ⟨?_, ?_⟩
      · refine (bytesAt_iff _ _).mpr fun i inside => ?_
        rw [short] at inside
        rw [store8_other _ _ (by omega), storeBytes_byte m (out.take bufsz) buffer (by omega),
          List.getElem_take, List.getElem_take]
      · rw [short]
        exact ⟨store8_same _ _ _, trivial⟩
    · rw [store8_other _ _ (by omega)]
      exact storeBytes_other _ _ _ (by omega)

/-- What `snprintkf` leaves of a format that is made of literal bytes and directives, and what it
    returns. -/
theorem snprintkf_meaning {chunks : List Chunk} {args rest : List Arg} (ok : ∀ a ∈ args, a.Ok m)
    (means : meaning chunks args = some (out, rest)) (counts : out.length < 2 ^ 31)
    (somewhere : buffer ≠ 0) :
    ∃ m', vsnprintf m buffer bufsz (chunks.flatMap Chunk.text) (args.map Arg.value) =
        some (m', (out.length : Int)) ∧ Printed m m' buffer bufsz out :=
  vsnprintf_printed _ _ (vpprintf_meaning ok means) counts somewhere

def plainDirective (flags : List Flag) (kind : Kind) : Directive :=
  ⟨flags, .omitted, .omitted, false, kind, nofun⟩

theorem snprintkf_seven :
    ∃ m', vsnprintf (fun _ => 0) 16 3 [0x61, 0x25, 0x2b, 0x64] [7] = some (m', 3) ∧
      Printed (fun _ => 0) m' 16 3 [0x61, 0x2b, 0x37] :=
  snprintkf_meaning (by simp [Arg.Ok])
    (show meaning [.literal 0x61 (by decide), .directive (plainDirective [.plus] .d)] [.word 7] =
      some ([0x61, 0x2b, 0x37], []) by
    simp [meaning, Directive.meaning, plainDirective, Width.value, Precision.value, item, signFlag,
      intNumeral, numeral, digitChar, field, leastDigits]) (by decide) (by decide)

end Buffer

/-! ## Status lines -/

/-- The formats of `print_info` and `print_error` differ in the bytes between the mark and the tag.
    -/
def statusFormat (colour : Str) : Str :=
  [0x5b, 0x20, 0x20, 0x1b, 0x0c, 0x25, 0x63] ++ colour ++
    [0x25, 0x2d, 0x36, 0x73, 0x1b, 0x0f, 0x5d, 0x20, 0x25, 0x2d, 0x35, 0x39, 0x73, 0x0a]

/-- A message through a buffer of 60 bytes at `buf`, behind a mark and a tag. -/
def statusLine (colour : Str) (m : Mem) (buf : Word) (s mark : Word) (fmt : Str)
    (args : List Word) : Option Str := do
  let (m, _) ← vsnprintf m buf.toNat 60 fmt args
  vpprintf m (statusFormat colour) [mark, s, buf]

def printInfo (m : Mem) (buf s : Word) (mto : Int) (fmt : Str) (args : List Word) : Option Str :=
  if mto < 2 then statusLine [0x1b, 0x07] m buf s (if mto = 0 then 0xc0 else 0xc3) fmt args
  else if mto < 4 then statusLine [0x1b, 0x07] m buf s (if mto = 2 then 0xda else 0xc3) fmt args
  else do
    let _ ← vsnprintf m buf.toNat 60 fmt args
    pure []

def printError (m : Mem) (buf s : Word) (mto : Int) (fmt : Str) (args : List Word) : Option Str :=
  statusLine [] m buf s (if mto = 0 then 0xc0 else 0xc3) fmt args

section Status
variable {m : Mem} {buf s : Word} {t fmt out : Str} {ws : List Word}

def literals (s : Str) (plain : ∀ c ∈ s, c ≠ 0 ∧ c ≠ 0x25) : List Chunk :=
  s.pmap (fun c plain => .literal c plain) plain

theorem literals_text (plain : ∀ c ∈ t, c ≠ 0 ∧ c ≠ 0x25) :
    (literals t plain).flatMap Chunk.text = t := by
  induction t with
  | nil => rfl
  | cons c t ih =>
    rw [literals, List.pmap_cons, List.flatMap_cons]
    exact congrArg (c :: ·) (ih fun x member => plain x (List.mem_cons_of_mem _ member))

theorem literals_meaning (plain : ∀ c ∈ t, c ≠ 0 ∧ c ≠ 0x25) (chunks : List Chunk)
    (args : List Arg) :
    meaning (literals t plain ++ chunks) args = (meaning chunks args).map fun (out, rest) =>
      (t ++ out, rest) := by
  induction t with
  | nil => simp [literals]
  | cons c t ih =>
    have rest := ih fun x member => plain x (List.mem_cons_of_mem _ member)
    rw [literals, List.pmap_cons, List.cons_append, meaning]
    rw [literals] at rest
    rw [rest, Option.map_map]
    rfl

def leftString (d : Digits) (leading : d.text.head?.all (· ≠ 0x30) ∧ d.text ≠ []) : Directive :=
  ⟨[.minus], .literal d leading, .omitted, false, .s, nofun⟩

theorem leftString_meaning (d : Digits) (leading : d.text.head?.all (· ≠ 0x30) ∧ d.text ≠ [])
    (p : Word) (args : List Arg) :
    (leftString d leading).meaning (.string p t :: args) = some
    (t ++ List.replicate (decimal d.text - t.length) 0x20, args) := by
  simp [Directive.meaning, leftString, Width.value, Precision.value, item, cut, field, leastDigits]

def six : Digits := ⟨[0x36], by simp [isdigit], by decide⟩
def fiftyNine : Digits := ⟨[0x35, 0x39], by simp [isdigit], by decide⟩

def statusChunks (colour : Str) (plain : ∀ c ∈ colour, c ≠ 0 ∧ c ≠ 0x25) : List Chunk :=
  literals [0x5b, 0x20, 0x20, 0x1b, 0x0c] (by simp) ++ (.directive (plainDirective [] .c) ::
    (literals colour plain ++ (.directive (leftString six (by decide)) ::
      (literals [0x1b, 0x0f, 0x5d, 0x20] (by simp) ++
      (.directive (leftString fiftyNine (by decide)) ::
        literals [0x0a] (by simp))))))

theorem statusChunks_text (plain : ∀ c ∈ t, c ≠ 0 ∧ c ≠ 0x25) :
    (statusChunks t plain).flatMap Chunk.text = statusFormat t := by
  simp only [statusChunks, List.flatMap_append, List.flatMap_cons, literals_text, statusFormat]
  simp [Chunk.text, Directive.text, leftString, plainDirective, Width.text, Precision.text,
    Flag.byte, Kind.byte, six, fiftyNine]

/-- What is shown of a text: up to a NUL in it. -/
def visible (s : Str) : Str := s.takeWhile (· ≠ 0)

theorem visible_strAt {m : Mem} {a : Nat} {s : Str} (here : BytesAt m a (s ++ [0])) :
    StrAt m a (visible s) := by
  induction s generalizing a with
  | nil => exact ⟨by simp [visible], here⟩
  | cons c s ih =>
    obtain ⟨first, rest⟩ := here
    obtain ⟨ends, bytes⟩ := ih rest
    by_cases nul : c = 0
    · subst nul
      exact ⟨by simp [visible], first, trivial⟩
    · have split : visible (c :: s) = c :: visible s := by simp [visible, nul]
      rw [split]
      exact ⟨by simpa [Ne.symm nul] using ends, first, bytes⟩

theorem visible_length (s : Str) : (visible s).length ≤ s.length :=
  List.IsPrefix.length_le (List.takeWhile_prefix _)

/-- A status line: the tag and the message are blanks up to 6 and 59 bytes. -/
def line (colour t shown : Str) (mark : UInt8) : Str :=
  [0x5b, 0x20, 0x20, 0x1b, 0x0c] ++
    (mark :: (colour ++ (t ++ List.replicate (6 - t.length) 0x20 ++ ([0x1b, 0x0f, 0x5d, 0x20] ++
    (shown ++ List.replicate (59 - shown.length) 0x20 ++ [0x0a])))))

theorem statusLine_eq {colour : Str} (plain : ∀ c ∈ colour, c ≠ 0 ∧ c ≠ 0x25)
    (done : vpprintf m fmt ws = some out) (counts : out.length < 2 ^ 31)
    (tag : s ≠ 0 ∧ StrAt m s.toNat t ∧ t.length < 2 ^ 31) (somewhere : buf ≠ 0)
    (apart : s.toNat + t.length < buf.toNat ∨ buf.toNat + 60 ≤ s.toNat) (mark : Word) :
    statusLine colour m buf s mark fmt ws = some
    (line colour t (visible (out.take 59)) (UInt8.ofNat mark.toNat)) := by
  obtain ⟨m', stored, text, outside⟩ := vsnprintf_printed buf.toNat 60 done counts
    (fun zero => somewhere (BitVec.eq_of_toNat_eq zero))
  have shown : StrAt m' buf.toNat (visible (out.take 59)) := visible_strAt (text (by decide))
  have short : (visible (out.take 59)).length < 2 ^ 31 := by
    have bound := visible_length (out.take 59)
    rw [List.length_take] at bound
    omega
  have tag' : StrAt m' s.toNat t := tag.2.1.moved fun i inside => outside _ (by omega)
  have means : meaning (statusChunks colour plain) [.word mark, .string s t,
    .string buf (visible (out.take 59))] =
      some (line colour t (visible (out.take 59)) (UInt8.ofNat mark.toNat), []) := by
    have char : (plainDirective [] .c).meaning
        [.word mark, .string s t, .string buf (visible (out.take 59))] =
        some ([UInt8.ofNat mark.toNat], [.string s t, .string buf (visible (out.take 59))]) := by
      simp [Directive.meaning, plainDirective, Width.value, Precision.value, item, field,
        leastDigits]
    have newline : meaning (literals [0x0a] (by simp)) [] = some ([0x0a], []) := rfl
    simp only [statusChunks, literals_meaning, meaning, char, leftString_meaning, newline,
      Option.bind_eq_bind, Option.bind_some,
      Option.pure_def, Option.map_some]
    rfl
  have put := vpprintf_meaning (m := m') (fun a member => by
    simp only [List.mem_cons, List.not_mem_nil, or_false] at member
    rcases member with rfl | rfl | rfl
    · trivial
    · exact ⟨tag.1, tag', tag.2.2⟩
    · exact ⟨somewhere, shown, short⟩) means
  rw [statusChunks_text] at put
  rw [statusLine, stored]
  exact put

def infoMark (mto : Int) : UInt8 :=
  if mto < 2 then (if mto = 0 then 0xc0 else 0xc3) else if mto = 2 then 0xda else 0xc3

/-- Every status line of a tag has the same length, whatever the message: it is cut at 59 bytes or
    filled up to them. -/
theorem status_lines (done : vpprintf m fmt ws = some out) (counts : out.length < 2 ^ 31)
    (tag : s ≠ 0 ∧ StrAt m s.toNat t ∧ t.length < 2 ^ 31) (somewhere : buf ≠ 0)
    (apart : s.toNat + t.length < buf.toNat ∨ buf.toNat + 60 ≤ s.toNat) (mto : Int) :
    (mto < 4 → printInfo m buf s mto fmt ws =
    some (line [0x1b, 0x07] t (visible (out.take 59)) (infoMark mto))) ∧
      printError m buf s mto fmt ws = some
      (line [] t (visible (out.take 59)) (if mto = 0 then 0xc0 else 0xc3)) ∧
      ∀ colour mark, (line colour t (visible (out.take 59)) mark).length =
      70 + colour.length + max 6 t.length := by
  refine ⟨fun known => ?_, ?_, fun colour mark => ?_⟩
  · by_cases low : mto < 2
    · rw [printInfo, if_pos low, statusLine_eq (by simp) done counts tag somewhere apart,
        infoMark, if_pos low]
      split <;> rfl
    · rw [printInfo, if_neg low, if_pos known,
        statusLine_eq (by simp) done counts tag somewhere apart, infoMark, if_neg low]
      split <;> rfl
  · rw [printError, statusLine_eq (by simp) done counts tag somewhere apart]
    split <;> rfl
  · have bound := visible_length (out.take 59)
    rw [List.length_take] at bound
    simp only [line, List.length_append, List.length_cons, List.length_nil, List.length_replicate]
    omega

theorem status_lines_tty :
    ((1 : Int) < 4 → printInfo (storeBytes (fun _ => 0) 8 [0x74, 0x74, 0x79, 0]) 64 8 1
    [0x6f, 0x6b] [] =
      some (line [0x1b, 0x07] [0x74, 0x74, 0x79] [0x6f, 0x6b] (infoMark 1))) ∧
      printError (storeBytes (fun _ => 0) 8 [0x74, 0x74, 0x79, 0]) 64 8 1 [0x6f, 0x6b] [] =
        some (line [] [0x74, 0x74, 0x79] [0x6f, 0x6b] 0xc3) ∧
      ∀ colour mark, (line colour [0x74, 0x74, 0x79] [0x6f, 0x6b] mark).length =
      70 + colour.length + 6 :=
  status_lines (show vpprintf _ [0x6f, 0x6b] [] = some [0x6f, 0x6b] from rfl) (by decide)
    ⟨by decide, ⟨by decide, storeBytes_bytesAt _ 8 [0x74, 0x74, 0x79, 0]⟩, by decide⟩
      (by decide) (by decide) 1

end Status

end Printf
