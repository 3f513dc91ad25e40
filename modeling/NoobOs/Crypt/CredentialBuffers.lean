import NoobOs.Crypt.Login
import NoobOs.KLib.FieldBuffers

/-!
`getuser` and `chkcred` on the buffer that the file was read into: up to three tokenizers
run in it, each with a pointer of its own, and each stores zeros where it cuts. What they
find is what the functions on texts find.
-/
namespace Crypt
open ByteMemory Strings

def getuserLoop (b : Area) (uname : Option Str) (uid : UInt32) :
    Nat → Mem → Option Nat → Option Nat → UserInfo → Option (UserInfo × Nat)
  | 0, _, _, _, _ => none
  | _ + 1, _, none, _, info => some (info, 0)
  | fuel + 1, m, some line, linesav, info => do
    let (m, f, _) ← callsAt b colon 7 m (some line)
    let id ← atoiAt m (← f[2]?.join)
    let gid ← atoiAt m (← f[3]?.join)
    let hit ← match uname with
      | none => if id = uid then some true else none
      | some u => f[0]?.join.map fun name => strcmpAt m name u == 0
    if hit then
      let name ← f[0]?.join
      let cmt ← f[4]?.join
      let home ← f[5]?.join
      let intp ← f[6]?.join
      let pass ← f[1]?.join
      return (⟨textAt m maxCmtlen name, id, gid, textAt m maxCmtlen cmt, textAt m maxCmtlen home,
        textAt m maxCmtlen intp, (if m pass = 0x78 then 1 else 0) ||| uiAllocated⟩, 1)
    else
      let (m, line, linesav) ← strtokRAt b m none nl linesav
      getuserLoop b uname uid fuel m line linesav info

def getuserBuf (b : Area) (m : Mem) (uname : Option Str) (uid : UInt32) (info : UserInfo) :
    Option (UserInfo × Nat) := do
  let (m, line, linesav) ← strtokRAt b m (some b.start) nl none
  getuserLoop b uname uid (2 ^ 32) m line linesav { info with passReq := uiAllocated }

def chkcredLoop (b : Area) (usr : Str) (cred : Typed) :
    Nat → Mem → Option Nat → Option Nat → Option Bool
  | 0, _, _, _ => none
  | _ + 1, _, none, _ => some false
  | fuel + 1, m, some line, linesav => do
    let (m, f, _) ← callsAt b colon 2 m (some line)
    let name ← f[0]?.join
    if strcmpAt m name usr = 0 then
      let (m, typ, psav) ← strtokRAt b m f[1]?.join dollar none
      if strcmpAt m (← typ) schemeFu ≠ 0 then return false
      let (m, p, _) ← callsAt b dollar 2 m psav
      let sed ← atoiAt m (← p[0]?.join)
      let h ← atoiAt m (← p[1]?.join)
      if h = murmur3 cred.buf cred.text.length sed then return true
      let (m, line, linesav) ← strtokRAt b m none nl linesav
      chkcredLoop b usr cred fuel m line linesav
    else
      let (m, line, linesav) ← strtokRAt b m none nl linesav
      chkcredLoop b usr cred fuel m line linesav

def chkcredBuf (b : Area) (m : Mem) (usr : Str) (cred : Typed) : Option Bool := do
  let (m, line, linesav) ← strtokRAt b m (some b.start) nl none
  chkcredLoop b usr cred (2 ^ 32) m line linesav

/-! ## One line within the buffer -/

section Lines
variable {b : Area} {m : Mem} {o : Nat} {line : Str}

theorem areaOf_within (here : TokenAt b m o line) (x : Nat) (inside : (areaOf o line).Has x) :
    b.Has x := by
  obtain ⟨low, high⟩ := inside
  have := here.low
  have := here.high
  simp only [areaOf] at low high
  exact ⟨by omega, by omega⟩

theorem cut_string (delim : Str) (n : Nat) (here : TokenAt b m o line) (small : b.size < 2 ^ 32) :
    ∃ m' ps save, callsAt b delim n m (some o) = some (m', ps, save) ∧
      List.Forall₂ (Option.Rel (TokenAt (areaOf o line) m')) ps
      ((List.range n).map fun i => (pieces delim line)[i]?) ∧
      (∀ x, ¬ (areaOf o line).Has x → m' x = m x) ∧
      ∃ lim, o ≤ lim ∧ RestAt (areaOf o line) m' delim lim save ((pieces delim line).drop n) := by
  have high := here.high
  have low := here.low
  have left : RestAt (areaOf o line) m delim o (some o) (pieces delim line) :=
    ⟨Nat.le_refl _, by simp only [areaOf]; omega, line, here.text, rfl,
      Nat.le_refl _, by simp only [areaOf]; omega⟩
  obtain ⟨m', ps, save, calls, tokens, same, rest⟩ :=
    callsAt_spec (by simp only [areaOf]; omega) n left
  exact ⟨m', ps, save, callsAt_mono (areaOf_within here) calls, tokens,
    fun x far => same x (Or.inr far), rest⟩

theorem next_line {m' : Mem} {linesav : Option Nat} {lines : List Str} (small : b.size < 2 ^ 32)
    (left : RestAt b m nl (o + line.length + 1) linesav lines)
    (same : ∀ x, ¬ (areaOf o line).Has x → m' x = m x) :
    (lines = [] ∧ strtokRAt b m' none nl linesav = some (m', none, none)) ∨
    ∃ line' lines' m'' o' linesav', lines = line' :: lines' ∧
      strtokRAt b m' none nl linesav = some (m'', some o', linesav') ∧ TokenAt b m'' o' line' ∧
      RestAt b m'' nl (o' + line'.length + 1) linesav' lines' := by
  have left' : RestAt b m' nl (o + line.length + 1) linesav lines := by
    apply left.moved
    intro x behind
    apply same
    rintro ⟨-, inside⟩
    simp only [areaOf] at inside
    omega
  rw [strtokRAt_saved]
  rcases strtokRAt_token small left' with done | ⟨line', lines', m'', o', linesav', rfl,
    call, here, -, rest⟩
  · exact Or.inl done
  · exact Or.inr ⟨line', lines', m'', o', linesav', rfl, call, here, rest⟩

theorem first_line {text : Str} (here : StrAt m b.start text) (fits : text.length < b.size)
    (small : b.size < 2 ^ 32) :
    (tokens nl text = [] ∧ strtokRAt b m (some b.start) nl none = some (m, none, none)) ∨
    ∃ line lines m' o linesav, tokens nl text = line :: lines ∧
      strtokRAt b m (some b.start) nl none = some (m', some o, linesav) ∧ TokenAt b m' o line ∧
      RestAt b m' nl (o + line.length + 1) linesav lines := by
  have left : RestAt b m nl b.start (some b.start) (tokens nl text) :=
    ⟨Nat.le_refl _, by omega, text, here, (tokens_eq_pieces text).symm, Nat.le_refl _, by omega⟩
  rw [strtokRAt_fresh]
  rcases strtokRAt_token small left with done
    | ⟨line, lines, m', o, linesav, split, call, here, -, rest⟩
  · exact Or.inl done
  · exact Or.inr ⟨line, lines, m', o, linesav, split, call, here, rest⟩

theorem lines_refine {α : Type} {loop : Nat → Mem → Option Nat → Option Nat → Option α}
    {spec : List Str → Option α} (small : b.size < 2 ^ 32)
    (done : ∀ fuel m linesav, loop (fuel + 1) m none linesav = spec [])
    (step : ∀ fuel {m o line linesav lines}, TokenAt b m o line →
      (∀ m', (∀ x, ¬ (areaOf o line).Has x → m' x = m x) →
        ((strtokRAt b m' none nl linesav).bind fun r => loop fuel r.1 r.2.1 r.2.2) = spec lines) →
      loop (fuel + 1) m (some o) linesav = spec (line :: lines))
    {linesav : Option Nat} {lines : List Str} (fuel : Nat) (enough : lines.length + 1 < fuel)
    (here : TokenAt b m o line)
    (left : RestAt b m nl (o + line.length + 1) linesav lines) :
    loop fuel m (some o) linesav = spec (line :: lines) := by
  induction lines generalizing fuel m o line linesav with
  | nil =>
    obtain ⟨fuel, rfl⟩ : ∃ k, fuel = k + 2 :=
      ⟨fuel - 2, by simp only [List.length_nil] at enough; omega⟩
    apply step _ here
    intro m' same
    rcases next_line small left same with ⟨-, call⟩ | ⟨line', lines', m'', o', linesav', split, -⟩
    · rw [call]
      exact done fuel m' none
    · cases split
  | cons line' lines ih =>
    obtain ⟨fuel, rfl⟩ := Nat.exists_eq_succ_of_ne_zero (Nat.ne_of_gt (Nat.zero_lt_of_lt enough))
    apply step _ here
    intro m' same
    rcases next_line small left same with ⟨none', -⟩ | ⟨line'', lines', m'', o', linesav', split,
      call, here', left'⟩
    · cases none'
    · cases split
      rw [call]
      exact ih fuel (by simpa using enough) here' left'

theorem file_refines {α : Type} (loop : Nat → Mem → Option Nat → Option Nat → Option α)
    (spec : List Str → Option α) (small : b.size < 2 ^ 32)
    (done : ∀ fuel m linesav, loop (fuel + 1) m none linesav = spec [])
    (step : ∀ fuel {m o line linesav lines}, TokenAt b m o line →
      (∀ m', (∀ x, ¬ (areaOf o line).Has x → m' x = m x) →
        ((strtokRAt b m' none nl linesav).bind fun r => loop fuel r.1 r.2.1 r.2.2) = spec lines) →
      loop (fuel + 1) m (some o) linesav = spec (line :: lines))
    {text : Str} (here : StrAt m b.start text) (fits : text.length < b.size) :
    ((strtokRAt b m (some b.start) nl none).bind fun r => loop (2 ^ 32) r.1 r.2.1 r.2.2) = spec
    (tokens nl text) := by
  have count : (tokens nl text).length ≤ text.length + 1 := tokensFrom_length _ _ _
  rcases first_line here fits small with ⟨none', call⟩
    | ⟨line, lines, m', o, linesav, split, call, at', left⟩
  · rw [none', call]
    exact done _ m none
  · rw [split, List.length_cons] at count
    rw [split, call]
    exact lines_refine small done step _ (by omega) at' left

theorem rel_short (here : TokenAt b m o line) {m' : Mem} {p : Nat} {t : Str}
    (rel : TokenAt (areaOf o line) m' p t) (small : b.size < 2 ^ 32) :
    StrAt m' p t ∧ t.length < 2 ^ 32 := by
  have low := rel.low
  have high := rel.high
  have low' := here.low
  have high' := here.high
  simp only [areaOf] at low high
  exact ⟨rel.text, by omega⟩

theorem filled {m' : Mem} {p0 p1 p4 p5 p6 : Option Nat} {t0 t1 t4 t5 t6 : Option Str}
    (r0 : Option.Rel (TokenAt (areaOf o line) m') p0 t0)
    (r1 : Option.Rel (TokenAt (areaOf o line) m') p1 t1)
    (r4 : Option.Rel (TokenAt (areaOf o line) m') p4 t4)
    (r5 : Option.Rel (TokenAt (areaOf o line) m') p5 t5)
    (r6 : Option.Rel (TokenAt (areaOf o line) m') p6 t6) (id gid : UInt32) :
    (p0.bind fun name => p4.bind fun cmt => p5.bind fun home => p6.bind fun intp =>
      p1.bind fun pass =>
      (pure (⟨textAt m' maxCmtlen name, id, gid, textAt m' maxCmtlen cmt, textAt m' maxCmtlen home,
        textAt m' maxCmtlen intp, (if m' pass = 0x78 then 1 else 0) ||| uiAllocated⟩, 1) :
        Option (UserInfo × Nat))) =
    t0.bind fun name => t4.bind fun cmt => t5.bind fun home => t6.bind fun intp =>
      t1.bind fun pass =>
      pure (⟨name.take maxCmtlen, id, gid, cmt.take maxCmtlen, home.take maxCmtlen,
        intp.take maxCmtlen, (if pass.head? = some 0x78 then 1 else 0) ||| uiAllocated⟩, 1) := by
  cases r0 with
  | none => rfl
  | some name =>
    cases r4 with
    | none => rfl
    | some cmt =>
      cases r5 with
      | none => rfl
      | some home =>
        cases r6 with
        | none => rfl
        | some intp =>
          cases r1 with
          | none => rfl
          | some pass =>
            simp only [Option.bind_some, textAt_eq name.text, textAt_eq cmt.text,
              textAt_eq home.text,
              textAt_eq intp.text, pass.text.head_eq (by decide : (0x78 : UInt8) ≠ 0)]

theorem getuserLoop_line {uname : Option Str} (ended : ∀ u, uname = some u → 0 ∉ u) (uid : UInt32)
    (info : UserInfo) (small : b.size < 2 ^ 32) (fuel : Nat) {linesav : Option Nat}
    {lines : List Str}
    (here : TokenAt b m o line)
    (rest : ∀ m', (∀ x, ¬ (areaOf o line).Has x → m' x = m x) →
      ((strtokRAt b m' none nl linesav).bind fun r =>
        getuserLoop b uname uid fuel r.1 r.2.1 r.2.2 info) =
        getuserFrom uname uid lines info) :
    getuserLoop b uname uid (fuel + 1) m (some o) linesav info = getuserFrom uname uid
    (line :: lines) info := by
  obtain ⟨m', ps, save, calls, tokens, same, -⟩ := cut_string colon 7 here small
  have next := rest m' same
  rw [show List.range 7 = [0, 1, 2, 3, 4, 5, 6] from rfl] at tokens
  simp only [List.map_cons, List.map_nil] at tokens
  obtain ⟨p0, ps0, r0, tokens0, rfl⟩ := List.forall₂_cons_right_iff.mp tokens
  obtain ⟨p1, ps1, r1, tokens1, rfl⟩ := List.forall₂_cons_right_iff.mp tokens0
  obtain ⟨p2, ps2, r2, tokens2, rfl⟩ := List.forall₂_cons_right_iff.mp tokens1
  obtain ⟨p3, ps3, r3, tokens3, rfl⟩ := List.forall₂_cons_right_iff.mp tokens2
  obtain ⟨p4, ps4, r4, tokens4, rfl⟩ := List.forall₂_cons_right_iff.mp tokens3
  obtain ⟨p5, ps5, r5, tokens5, rfl⟩ := List.forall₂_cons_right_iff.mp tokens4
  obtain ⟨p6, ps6, r6, -, rfl⟩ := List.forall₂_cons_right_iff.mp tokens5
  have fill := filled r0 r1 r4 r5 r6
  rw [getuserLoop, getuserFrom, tokens_eq_pieces, calls]
  dsimp only [Option.bind_eq_bind, Option.bind_some, List.getElem?_cons_zero,
    List.getElem?_cons_succ, Option.join_some]
  generalize (pieces colon line)[0]? = t0 at *
  generalize (pieces colon line)[2]? = t2 at *
  generalize (pieces colon line)[3]? = t3 at *
  cases r2 with
  | none => rfl
  | @some _ idText at2 =>
    obtain ⟨text2, short2⟩ := rel_short here at2 small
    dsimp only [Option.bind_some]
    rw [atoiAt_eq text2 short2]
    dsimp only [Option.bind_some]
    cases r3 with
    | none => rfl
    | some at3 =>
      obtain ⟨text3, short3⟩ := rel_short here at3 small
      dsimp only [Option.bind_some]
      rw [atoiAt_eq text3 short3]
      dsimp only [Option.bind_some]
      cases uname with
      | none =>
        dsimp only
        by_cases hit : atoi idText = uid
        · rw [if_pos hit, if_pos hit, if_pos rfl, if_pos rfl]
          exact fill _ _
        · rw [if_neg hit, if_neg hit]
          rfl
      | some u =>
        cases r0 with
        | none => rfl
        | @some _ name at0 =>
          dsimp only [Option.map_some, Option.bind_some]
          rw [strcmpAt_eq at0.text (ended u rfl)]
          by_cases hit : (strcmp name u == 0) = true
          · rw [if_pos hit, if_pos hit]
            exact fill _ _
          · rw [if_neg hit, if_neg hit]
            exact next

theorem getuserBuf_refines {passwd : Str} (here : StrAt m b.start passwd)
    (fits : passwd.length < b.size)
    (small : b.size < 2 ^ 32) {uname : Option Str} (ended : ∀ u, uname = some u → 0 ∉ u)
    (uid : UInt32) (info : UserInfo) :
    getuserBuf b m uname uid info = getuser passwd uname uid info :=
  file_refines
    (fun fuel m line linesav => getuserLoop b uname uid fuel m line linesav { info with
      passReq := uiAllocated })
    (fun lines => getuserFrom uname uid lines { info with passReq := uiAllocated }) small
      (fun _ _ _ => rfl)
    (fun fuel => getuserLoop_line ended uid _ small fuel) here fits

theorem scheme_tokens {m₁ : Mem} {p : Option Nat} {pass : Option Str} (here : TokenAt b m o line)
    (rel : Option.Rel (TokenAt (areaOf o line) m₁) p pass) (small : b.size < 2 ^ 32) :
    ((pass.map (tokens dollar)).getD [] = [] ∧
    strtokRAt b m₁ p dollar none = some (m₁, none, none)) ∨
    ∃ typ ts m₂ q psav m₃ ps save, (pass.map (tokens dollar)).getD [] = typ :: ts ∧
      strtokRAt b m₁ p dollar none = some (m₂, some q, psav) ∧ StrAt m₂ q typ ∧
      callsAt b dollar 2 m₂ psav = some (m₃, ps, save) ∧
      List.Forall₂ (Option.Rel (TokenAt (areaOf o line) m₃)) ps [ts[0]?, ts[1]?] ∧
      ∀ x, ¬ (areaOf o line).Has x → m₃ x = m₁ x := by
  cases rel with
  | none => exact Or.inl ⟨rfl, rfl⟩
  | @some a pass token =>
    have high := here.high
    have low := token.low
    have high' := token.high
    have few : (areaOf o line).size < 2 ^ 32 := by
      simp only [areaOf]
      have := here.low
      omega
    have left : RestAt (areaOf o line) m₁ dollar a (some a) (tokens dollar pass) :=
      ⟨low, by omega, pass, token.text, (tokens_eq_pieces pass).symm, Nat.le_refl _, high'⟩
    rw [Option.map_some, Option.getD_some, strtokRAt_fresh]
    rcases strtokRAt_token few left with ⟨none', call⟩
      | ⟨typ, ts, m₂, q, psav, split, call, token', same, left'⟩
    · exact Or.inl ⟨none', strtokRAt_mono (areaOf_within here) call⟩
    · obtain ⟨m₃, ps, save, calls, tokens, same', -⟩ := callsAt_spec few 2 left'
      refine Or.inr ⟨typ, ts, m₂, q, psav, m₃, ps, save, split,
        strtokRAt_mono (areaOf_within here) call, token'.text,
        callsAt_mono (areaOf_within here) calls, tokens, ?_⟩
      intro x far
      exact (same' x (Or.inr far)).trans (same x far)

theorem chkcredLoop_line {usr : Str} (ended : 0 ∉ usr) (cred : Typed)
    (small : b.size < 2 ^ 32) (fuel : Nat)
    {linesav : Option Nat} {lines : List Str} (here : TokenAt b m o line)
    (rest : ∀ m', (∀ x, ¬ (areaOf o line).Has x → m' x = m x) →
      ((strtokRAt b m' none nl linesav).bind fun r => chkcredLoop b usr cred fuel r.1 r.2.1 r.2.2) =
        chkcredFrom usr cred lines) :
    chkcredLoop b usr cred (fuel + 1) m (some o) linesav = chkcredFrom usr cred
    (line :: lines) := by
  obtain ⟨m₁, ps, save, calls, tokens₁, same₁, -⟩ := cut_string colon 2 here small
  rw [show List.range 2 = [0, 1] from rfl] at tokens₁
  simp only [List.map_cons, List.map_nil] at tokens₁
  obtain ⟨p0, ps0, r0, tokens0, rfl⟩ := List.forall₂_cons_right_iff.mp tokens₁
  obtain ⟨p1, ps1, r1, -, rfl⟩ := List.forall₂_cons_right_iff.mp tokens0
  rw [chkcredLoop, chkcredFrom, tokens_eq_pieces, calls]
  dsimp only [Option.bind_eq_bind, Option.bind_some, List.getElem?_cons_zero,
    List.getElem?_cons_succ, Option.join_some]
  generalize (pieces colon line)[0]? = t0 at r0
  generalize (pieces colon line)[1]? = t1 at r1
  cases r0 with
  | none => rfl
  | @some _ name at0 =>
    dsimp only [Option.bind_some]
    rw [strcmpAt_eq at0.text ended]
    by_cases named : strcmp name usr = 0
    · rw [if_pos named, if_pos named]
      rcases scheme_tokens here r1 small with
        ⟨none', call⟩ | ⟨typ, ts, m₂, q, psav, m₃, ps', save', split', call, text, calls',
          tokens', same₃⟩
      · rw [none', call]
        rfl
      · obtain ⟨q0, qs, s0, tokens₂, rfl⟩ := List.forall₂_cons_right_iff.mp tokens'
        obtain ⟨q1, qs', s1, -, rfl⟩ := List.forall₂_cons_right_iff.mp tokens₂
        have next := rest m₃ fun x far => (same₃ x far).trans (same₁ x far)
        simp only [split', call, Option.bind_some,
          strcmpAt_eq text (by decide : 0 ∉ schemeFu), calls',
          List.getElem?_cons_zero, List.getElem?_cons_succ, Option.join_some]
        split
        · rfl
        · generalize ts[0]? = seed at s0
          generalize ts[1]? = hash at s1
          cases s0 with
          | none => rfl
          | some at0 =>
            obtain ⟨text0, short0⟩ := rel_short here at0 small
            simp only [Option.bind_some, atoiAt_eq text0 short0]
            cases s1 with
            | none => rfl
            | some at1 =>
              obtain ⟨text1, short1⟩ := rel_short here at1 small
              simp only [Option.bind_some, atoiAt_eq text1 short1]
              split
              · rfl
              · exact next
    · rw [if_neg named, if_neg named]
      exact rest m₁ same₁

theorem chkcredBuf_refines {shadow : Str} (here : StrAt m b.start shadow)
    (fits : shadow.length < b.size)
    (small : b.size < 2 ^ 32) {usr : Str} (ended : 0 ∉ usr) (cred : Typed) :
    chkcredBuf b m usr cred = chkcredFrom usr cred (tokens nl shadow) :=
  file_refines (chkcredLoop b usr cred) (chkcredFrom usr cred) small (fun _ _ _ => rfl)
    (fun fuel => chkcredLoop_line ended cred small fuel) here fits

end Lines

end Crypt
