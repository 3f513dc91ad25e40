import NoobOs.Crypt.Login

/- Who `login` lets in. -/
namespace Crypt
open Strings

structure Line (line name pass uid gid cmt home intp : Str) : Prop where
  fields : line.splitOnP (dlim colon) = [name, pass, uid, gid, cmt, home, intp]
  named : name ≠ []
  ended : 0 ∉ name

section Lines
variable {line name pass uid gid cmt home intp : Str}

theorem Line.tokens_eq (l : Line line name pass uid gid cmt home intp) :
    tokens colon line = [name, pass, uid, gid, cmt, home, intp].filter fun t => t ≠ [] := by
  rw [tokens_eq_pieces, pieces, l.fields]

theorem Line.first (l : Line line name pass uid gid cmt home intp) :
    (tokens colon line)[0]? = some name := by
  rw [l.tokens_eq, List.filter_cons_of_pos (by simpa using l.named)]
  rfl

/-- A line with seven texts has no empty field, so each text is its field. -/
theorem Line.full (l : Line line name pass uid gid cmt home intp)
    (seven : 7 ≤ (tokens colon line).length) :
    tokens colon line = [name, pass, uid, gid, cmt, home, intp] := by
  rw [l.tokens_eq] at seven ⊢
  rw [List.filter_eq_self, ← List.length_filter_eq_length_iff]
  exact Nat.le_antisymm (List.length_filter_le _ _) seven

theorem getuserFrom_line (l : Line line name pass uid gid cmt home intp) {u : Str} (ended : 0 ∉ u)
    (lines : List Str) (info : UserInfo) :
    (tokens colon line).length < 4 ∧ getuserFrom (some u) 0 (line :: lines) info = none ∨
    4 ≤ (tokens colon line).length ∧ name ≠ u ∧
      getuserFrom (some u) 0 (line :: lines) info = getuserFrom (some u) 0 lines info ∨
    name = u ∧ ∀ info' r, getuserFrom (some u) 0 (line :: lines) info = some (info', r) →
      r = 1 ∧ info'.uid = atoi uid ∧ info'.gid = atoi gid ∧
        info'.passReq = (if pass.head? = some 0x78 then 1 else 0) ||| uiAllocated := by
  by_cases short : (tokens colon line).length < 4
  · left
    refine ⟨short, ?_⟩
    have missing : (tokens colon line)[3]? = none := List.getElem?_eq_none (by omega)
    simp only [getuserFrom, missing]
    cases (tokens colon line)[2]? <;> rfl
  · right
    obtain ⟨t2, here2⟩ : ∃ t, (tokens colon line)[2]? = some t :=
      ⟨_, List.getElem?_eq_getElem (by omega)⟩
    obtain ⟨t3, here3⟩ : ∃ t, (tokens colon line)[3]? = some t :=
      ⟨_, List.getElem?_eq_getElem (by omega)⟩
    by_cases same : name = u
    · right
      refine ⟨same, ?_⟩
      intro info' r found
      have hit : (strcmp name u == 0) = true := by
        simpa using (strcmp_eq_zero l.ended ended).mpr same
      by_cases seven : 7 ≤ (tokens colon line).length
      · simp only [getuserFrom, l.full seven, List.getElem?_cons_zero, List.getElem?_cons_succ,
          Option.map_some, hit, Option.bind_eq_bind, Option.bind_some, if_true, Option.pure_def,
          Option.some.injEq, Prod.mk.injEq] at found
        obtain ⟨rfl, rfl⟩ := found
        exact ⟨rfl, rfl, rfl, rfl⟩
      · exfalso
        have missing : (tokens colon line)[6]? = none := List.getElem?_eq_none (by omega)
        simp only [getuserFrom, here2, here3, l.first, Option.map_some, hit, missing,
          Option.bind_eq_bind, Option.bind_some, if_true, Option.bind_none, Option.bind_fun_none,
          reduceCtorEq] at found
    · left
      refine ⟨by omega, same, ?_⟩
      have miss : (strcmp name u == 0) = false := by
        simpa using fun zero => same ((strcmp_eq_zero l.ended ended).mp zero)
      simp only [getuserFrom, here2, here3, l.first, Option.map_some, miss, Option.bind_eq_bind,
        Option.bind_some, Bool.false_eq_true, if_false]

end Lines

section Getuser
variable {passwd : Str} {u : Str}

theorem line_of_entry (wf : WellFormed passwd) {line : Str} (member : line ∈ tokens nl passwd) :
    ∃ name pass uid gid cmt home intp, Line line name pass uid gid cmt home intp ∧
      [name, pass, uid, gid, cmt, home, intp] ∈ entries passwd ∧
      ((∀ c ∈ uid, isdigit c) ∧ decimal uid < 2 ^ 32) ∧
      (∀ c ∈ gid, isdigit c) ∧ decimal gid < 2 ^ 32 := by
  rw [tokens_eq_pieces] at member
  have entry : line.splitOnP (dlim colon) ∈ entries passwd := List.mem_map_of_mem member
  obtain ⟨name, pass, uid, gid, cmt, home, intp, fields, named, ⟨_, uidOk⟩, _, gidOk⟩ :=
    wf.lines _ entry
  refine ⟨name, pass, uid, gid, cmt, home, intp, ⟨fields, named, ?_⟩, fields ▸ entry, uidOk, gidOk⟩
  intro zero
  have inLine : (0 : UInt8) ∈ line := (mem_of_mem_piece (fields ▸ List.mem_cons_self) zero).1
  exact wf.ended ((mem_of_mem_piece (List.mem_of_mem_filter member) inLine).1)

theorem getuserFrom_unlisted (wf : WellFormed passwd) (ended : 0 ∉ u) {lines : List Str}
    (part : ∀ line ∈ lines, line ∈ tokens nl passwd)
    (unlisted : ∀ f ∈ entries passwd, f.head? ≠ some u)
    (readable : ∀ f ∈ entries passwd, 4 ≤ (f.filter fun t => t ≠ []).length) (info : UserInfo) :
    getuserFrom (some u) 0 lines info = some (info, 0) := by
  induction lines with
  | nil => rfl
  | cons line lines ih =>
    obtain ⟨name, pass, uid, gid, cmt, home, intp, l, entry, _⟩ :=
      line_of_entry wf (part line List.mem_cons_self)
    have enough := readable _ entry
    rw [← l.tokens_eq] at enough
    rcases getuserFrom_line l ended lines info with ⟨short, _⟩ | ⟨_, _, next⟩ | ⟨same, _⟩
    · omega
    · rw [next]
      exact ih fun x member => part x (List.mem_cons_of_mem _ member)
    · exact absurd (congrArg some same) (unlisted _ entry)

theorem getuserFrom_returns (wf : WellFormed passwd) (ended : 0 ∉ u) {lines : List Str}
    (part : ∀ line ∈ lines, line ∈ tokens nl passwd) {info info' : UserInfo} {r : Nat}
    (found : getuserFrom (some u) 0 lines info = some (info', r)) :
    (r = 0 ∧ info' = info ∧ ∀ line ∈ lines, (line.splitOnP (dlim colon)).head? ≠ some u ∧
      4 ≤ (tokens colon line).length) ∨
    r = 1 ∧ ∃ pass uid gid cmt home intp, [u, pass, uid, gid, cmt, home, intp] ∈ entries passwd ∧
      info'.uid.toNat = decimal uid ∧ info'.gid.toNat = decimal gid ∧
      info'.passReq = (if pass.head? = some 0x78 then 1 else 0) ||| uiAllocated := by
  induction lines with
  | nil =>
    simp only [getuserFrom, Option.some.injEq, Prod.mk.injEq] at found
    exact Or.inl ⟨found.2.symm, found.1.symm, by simp⟩
  | cons line lines ih =>
    obtain ⟨name, pass, uid, gid, cmt, home, intp, l, entry, ⟨uidDigits, uidFits⟩, gidDigits,
      gidFits⟩ := line_of_entry wf (part line List.mem_cons_self)
    rcases getuserFrom_line l ended lines info with ⟨_, fault⟩ | ⟨enough, other, next⟩
      | ⟨same, filled⟩
    · simp [fault] at found
    · rw [next] at found
      rcases ih (fun x member => part x (List.mem_cons_of_mem _ member)) found with
        ⟨none', kept, seen⟩ | hit
      · refine Or.inl ⟨none', kept, ?_⟩
        intro x member
        rcases List.mem_cons.mp member with rfl | later
        · rw [l.fields]
          exact ⟨by simpa using other, enough⟩
        · exact seen x later
      · exact Or.inr hit
    · obtain ⟨one, uidIs, gidIs, passIs⟩ := filled info' r found
      refine Or.inr ⟨one, pass, uid, gid, cmt, home, intp, same ▸ entry, ?_, ?_, passIs⟩
      · rw [uidIs, atoi_digits uidDigits, UInt32.toNat_ofNat', Nat.mod_eq_of_lt uidFits]
      · rw [gidIs, atoi_digits gidDigits, UInt32.toNat_ofNat', Nat.mod_eq_of_lt gidFits]

end Getuser

section Login
variable {passwd shadow : Str} {a : Attempt} {cred cred' : Cred}

/-- `getuser` marks the record, so `chkcred` goes to the shadow file straight away. -/
theorem chkcred_marked {usr : Str} {psw : Typed} {info : UserInfo}
    (marked : info.passReq &&& uiAllocated ≠ 0) :
    chkcred passwd shadow usr psw info =
      (chkcredFrom usr psw (tokens nl shadow)).map fun ok => (info, ok) := by
  unfold chkcred
  rw [if_neg marked]
  cases chkcredFrom usr psw (tokens nl shadow) <;> rfl

theorem attempt_unfound {info : UserInfo} (marked : info.passReq &&& uiAllocated ≠ 0)
    (found : getuser passwd (some a.user) 0 UserInfo.zero = some (info, 0)) :
    attempt passwd shadow a =
      (chkcredFrom a.user a.psw (tokens nl shadow)).map fun ok => if ok then some info
      else none := by
  unfold attempt
  rw [found]
  simp only [Option.bind_eq_bind, Option.bind_some, ne_eq, not_true_eq_false, false_and, if_false,
    chkcred_marked marked]
  cases chkcredFrom a.user a.psw (tokens nl shadow) <;> rfl

theorem attempt_found {info : UserInfo} (marked : info.passReq &&& uiAllocated ≠ 0)
    (found : getuser passwd (some a.user) 0 UserInfo.zero = some (info, 1)) :
    attempt passwd shadow a = if info.passReq &&& 1 = 0 then some (some info) else
      (chkcredFrom a.user a.psw (tokens nl shadow)).map fun ok => if ok then some info
      else none := by
  unfold attempt
  rw [found]
  simp only [Option.bind_eq_bind, Option.bind_some, ne_eq, one_ne_zero, not_false_eq_true, true_and,
    chkcred_marked marked]
  split
  · rfl
  · cases chkcredFrom a.user a.psw (tokens nl shadow) <;> rfl

theorem shadow_of_accepted {o : Option Bool} {info info' : UserInfo}
    (accepted : (o.map fun ok => if ok then some info else none) = some (some info')) :
    o = some true ∧ info' = info := by
  cases o with
  | none => simp at accepted
  | some ok => cases ok <;> simp_all

theorem attempt_accepts (wf : WellFormed passwd) {info : UserInfo}
    (accepted : attempt passwd shadow a = some (some info)) :
    Authorised passwd shadow a { cred with euid := info.uid, egid := info.gid } ∨
      Ghost passwd shadow a := by
  cases found : getuser passwd (some a.user) 0 UserInfo.zero with
  | none =>
    unfold attempt at accepted
    rw [found] at accepted
    simp at accepted
  | some pair =>
    obtain ⟨info₀, r⟩ := pair
    rcases getuserFrom_returns wf a.ended (fun _ member => member) found with
      ⟨rfl, rfl, seen⟩ | ⟨rfl, pass, uid, gid, cmt, home, intp, entry, uidIs, gidIs, passIs⟩
    · right
      rw [attempt_unfound (by decide) found] at accepted
      refine ⟨?_, ?_, (shadow_of_accepted accepted).1⟩
      · intro f member
        obtain ⟨line, here, rfl⟩ := List.mem_map.mp member
        exact (seen line (by rw [tokens_eq_pieces]; exact here)).1
      · intro f member
        obtain ⟨line, here, rfl⟩ := List.mem_map.mp member
        have enough := (seen line (by rw [tokens_eq_pieces]; exact here)).2
        rw [tokens_eq_pieces, pieces] at enough
        exact enough
    · left
      have marked : info₀.passReq &&& uiAllocated ≠ 0 := by
        rw [passIs]
        split <;> decide
      rw [attempt_found marked found] at accepted
      by_cases free : info₀.passReq &&& 1 = 0
      · rw [if_pos free] at accepted
        obtain rfl : info₀ = info := by simpa using accepted
        refine ⟨pass, uid, gid, cmt, home, intp, entry, uidIs, gidIs, Or.inl ?_⟩
        intro marksX
        rw [passIs, if_pos marksX] at free
        exact absurd free (by decide)
      · rw [if_neg free] at accepted
        obtain ⟨matched, rfl⟩ := shadow_of_accepted accepted
        exact ⟨pass, uid, gid, cmt, home, intp, entry, uidIs, gidIs, Or.inr matched⟩

theorem login_ghost (wf : WellFormed passwd) (ghost : Ghost passwd shadow a) :
    login passwd shadow cred [a] = some (a, { cred with euid := 0, egid := 0 }) := by
  obtain ⟨unlisted, readable, matched⟩ := ghost
  have found : getuser passwd (some a.user) 0 UserInfo.zero =
      some ({ UserInfo.zero with passReq := uiAllocated }, 0) :=
    getuserFrom_unlisted wf a.ended (fun _ member => member) unlisted readable _
  have round : attempt passwd shadow a = _ := attempt_unfound (by decide) found
  rw [matched] at round
  unfold login
  rw [round]
  rfl

theorem ghost_not_authorised (ghost : Ghost passwd shadow a) :
    ¬ Authorised passwd shadow a cred := by
  rintro ⟨pass, uid, gid, cmt, home, intp, entry, _⟩
  exact ghost.1 _ entry rfl

theorem login_ends {attempts : List Attempt}
    (ended : login passwd shadow cred attempts = some (a, cred')) :
    a ∈ attempts ∧ ∃ info, attempt passwd shadow a = some (some info) ∧
      cred' = { cred with euid := info.uid, egid := info.gid } := by
  induction attempts with
  | nil => simp [login] at ended
  | cons b rest ih =>
    unfold login at ended
    cases round : attempt passwd shadow b with
    | none => simp [round] at ended
    | some result =>
      simp only [round, Option.bind_eq_bind, Option.bind_some] at ended
      cases result with
      | none =>
        obtain ⟨later, accepted⟩ := ih ended
        exact ⟨List.mem_cons_of_mem _ later, accepted⟩
      | some info =>
        simp only [Option.pure_def, Option.some.injEq, Prod.mk.injEq] at ended
        obtain ⟨rfl, rfl⟩ := ended
        exact ⟨List.mem_cons_self, info, round, rfl⟩

/-- Whatever is typed from a set of names and passwords, `login` ends with ids a line of
    the password file allows, exactly if none of them is a ghost. -/
theorem login_authorised_iff (wf : WellFormed passwd) (typed : Set Attempt) :
    (∀ attempts : List Attempt, (∀ b ∈ attempts, b ∈ typed) → ∀ b c,
      login passwd shadow cred attempts = some (b, c) → Authorised passwd shadow b c) ↔
    ∀ b ∈ typed, ¬ Ghost passwd shadow b := by
  constructor
  · intro allowed b member ghost
    have authorised := allowed [b] (by simpa using member) b _ (login_ghost wf ghost)
    exact ghost_not_authorised ghost authorised
  · intro noGhost attempts part b c ended
    obtain ⟨member, info, accepted, rfl⟩ := login_ends ended
    rcases attempt_accepts wf accepted with authorised | ghost
    · exact authorised
    · exact absurd ghost (noGhost b (part b member))

end Login

def ascii (s : String) : Str := s.toList.map fun c => c.toNat.toUInt8

def trimmedPasswd : Str := ascii "root:x:0:0:root:/root:/bin/sh\nt:-:621:621:okay:/home:/bin/sh"

def staleShadow : Str := ascii
  "root:$fu$621$3240274238: : : : : : : :\nuser:$fu$7$1858366113: : : : : : : :\n"

def typedUser : Attempt := ⟨ascii "user", ⟨ascii "pw", fun _ => 0⟩, by decide +kernel⟩
def typedT : Attempt := ⟨ascii "t", ⟨ascii "pw", fun _ => 0⟩, by decide +kernel⟩

theorem trimmedPasswd_entries : entries trimmedPasswd =
    [["root", "x", "0", "0", "root", "/root", "/bin/sh"].map ascii,
      ["t", "-", "621", "621", "okay", "/home", "/bin/sh"].map ascii] := by decide +kernel

theorem trimmedPasswd_wellFormed : WellFormed trimmedPasswd := by
  refine ⟨by decide +kernel, by decide +kernel, ?_⟩
  intro f member
  rw [trimmedPasswd_entries] at member
  simp only [List.mem_cons, List.not_mem_nil, or_false] at member
  rcases member with rfl | rfl
  · exact ⟨_, _, _, _, _, _, _, rfl, by decide +kernel⟩
  · exact ⟨_, _, _, _, _, _, _, rfl, by decide +kernel⟩

theorem login_authorised_t :
    login trimmedPasswd staleShadow ⟨0, 0, 0, 0, 0, 0⟩ [typedT] =
      some (typedT, ⟨0, 621, 0, 0, 621, 0⟩) ∧
    (∀ attempts : List Attempt, (∀ b ∈ attempts, b ∈ ({typedT} : Set Attempt)) → ∀ b c,
      login trimmedPasswd staleShadow ⟨0, 0, 0, 0, 0, 0⟩ attempts = some (b, c) →
        Authorised trimmedPasswd staleShadow b c) := by
  refine ⟨by rfl, (login_authorised_iff trimmedPasswd_wellFormed {typedT}).mpr ?_⟩
  rintro b rfl ⟨unlisted, _, _⟩
  have listed : ["t", "-", "621", "621", "okay", "/home", "/bin/sh"].map ascii ∈
      entries trimmedPasswd := by
    rw [trimmedPasswd_entries]
    exact List.mem_cons_of_mem _ List.mem_cons_self
  exact unlisted _ listed rfl

/-- `user` is on no line any more, and is let in as root. -/
theorem login_of_unlisted_user :
    WellFormed trimmedPasswd ∧
    login trimmedPasswd staleShadow ⟨0, 0, 0, 0, 0, 0⟩ [typedUser] =
      some (typedUser, ⟨0, 0, 0, 0, 0, 0⟩) ∧
    ¬ Authorised trimmedPasswd staleShadow typedUser ⟨0, 0, 0, 0, 0, 0⟩ := by
  refine ⟨trimmedPasswd_wellFormed, ?_, ?_⟩
  · rfl
  · rintro ⟨pass, uid, gid, cmt, home, intp, entry, _⟩
    have named : (entries trimmedPasswd).all (fun f => f.head? ≠ some typedUser.user) := by
      rw [trimmedPasswd_entries]
      decide +kernel
    have other := List.all_eq_true.mp named _ entry
    simp at other

end Crypt
