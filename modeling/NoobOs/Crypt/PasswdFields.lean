import NoobOs.Crypt.CredentialCalls

/-!
Which line of the password file `getuser` selects, and what it makes of its seven fields. The
tokenizer merges separators, so an empty field moves the fields behind it forward.
-/
namespace Crypt
open ByteMemory Strings FileTable FileCalls
open Vfs (Files Cwd)
open Shell (Behaved Ready)

structure PasswdEntry where
  name : Str
  pass : Str
  uid : Str
  gid : Str
  cmt : Str
  home : Str
  intp : Str

namespace PasswdEntry

def fields (e : PasswdEntry) : List Str := [e.name, e.pass, e.uid, e.gid, e.cmt, e.home, e.intp]

def Full (e : PasswdEntry) : Prop := ∀ t ∈ e.fields, t ≠ []

def Bare (e : PasswdEntry) : Prop := e.pass = [] ∧ e.cmt = [] ∧ e.home = [] ∧ e.intp = []

def marked (e : PasswdEntry) : Bool := e.pass.head? = some 0x78

/-- What `getuser` reads of `e` is what `g` says. -/
structure Agrees (e g : PasswdEntry) : Prop where
  name : e.name = g.name
  uid : decimal e.uid % 2 ^ 32 = decimal g.uid
  gid : decimal e.gid % 2 ^ 32 = decimal g.gid
  cmt : e.cmt = g.cmt
  home : e.home = g.home
  intp : e.intp = g.intp
  pass : e.marked = g.marked

structure Ok (e : PasswdEntry) : Prop where
  named : e.name ≠ []
  uid : e.uid ≠ [] ∧ ∀ c ∈ e.uid, isdigit c
  gid : e.gid ≠ [] ∧ ∀ c ∈ e.gid, isdigit c
  short : ∀ t ∈ e.fields, t.length ≤ 31

end PasswdEntry

structure PasswdFile (text : Str) (es : List PasswdEntry) : Prop where
  lines : entries text = es.map PasswdEntry.fields
  ok : ∀ e ∈ es, e.Ok

def Asked (uname : Option Str) (uid : UInt32) (e : PasswdEntry) : Bool :=
  match uname with
  | some u => e.name = u
  | none => decimal e.uid = uid.toNat

structure Filled (e : PasswdEntry) (info : UserInfo) : Prop where
  username : info.username = e.name
  uid : info.uid.toNat = decimal e.uid
  gid : info.gid.toNat = decimal e.gid
  comment : info.comment = e.cmt
  home : info.home = e.home
  interp : info.interp = e.intp
  passReq : info.passReq = (if e.marked then 1 else 0) ||| uiAllocated

/-- The first line asked for fills the record, and the result is 0 exactly if there is none. -/
def Selects (es : List PasswdEntry) (uname : Option Str) (uid : UInt32) (info : UserInfo)
    (stat : Nat) : Prop :=
  match es.find? (Asked uname uid) with
  | none => stat = 0
  | some e => stat ≠ 0 ∧ Filled e info

/-- By name, some text can be read of every line up to the one asked for, and all of that one. By
    number, only the first line is looked at, so it has to say what the one asked for says. -/
def Legible (es : List PasswdEntry) (uid : UInt32) : Option Str → Prop
  | some u => (∀ e ∈ es.takeWhile (fun e => e.name ≠ u), ¬ e.Bare) ∧
      ∀ e, es.find? (Asked (some u) uid) = some e → e.Full ∧ e.Agrees e
  | none => ∀ e, es.head? = some e → e.Full ∧ ∃ g, es.find? (Asked none uid) = some g ∧ e.Agrees g

/-! ## One line -/

def PasswdEntry.record (e : PasswdEntry) : UserInfo :=
  ⟨e.name, UInt32.ofNat (decimal e.uid), UInt32.ofNat (decimal e.gid), e.cmt, e.home, e.intp,
    (if e.marked then 1 else 0) ||| uiAllocated⟩

theorem record_eq (e : PasswdEntry) :
    (⟨e.name, UInt32.ofNat (decimal e.uid), UInt32.ofNat (decimal e.gid), e.cmt, e.home, e.intp,
      (if e.pass.head? = some 0x78 then 1 else 0) ||| uiAllocated⟩ : UserInfo) = e.record := by
  simp only [PasswdEntry.record, PasswdEntry.marked, decide_eq_true_eq]

section Entries
variable {e g : PasswdEntry} {line : Str}

theorem mark_inj {a b : Bool}
    (same : ((if a then 1 else 0) ||| uiAllocated) = ((if b then 1 else 0) ||| uiAllocated)) :
    a = b := by
  revert a b
  decide

theorem filled_record : Filled g e.record ↔ e.Agrees g := by
  constructor
  · rintro ⟨name, uid, gid, cmt, home, intp, pass⟩
    simp only [PasswdEntry.record, UInt32.toNat_ofNat'] at name uid gid cmt home intp pass
    exact ⟨name, uid, gid, cmt, home, intp, mark_inj pass⟩
  · rintro ⟨name, uid, gid, cmt, home, intp, pass⟩
    refine ⟨name, ?_, ?_, cmt, home, intp, ?_⟩
    · rw [← uid, PasswdEntry.record, UInt32.toNat_ofNat']
    · rw [← gid, PasswdEntry.record, UInt32.toNat_ofNat']
    · rw [PasswdEntry.record, pass]

def PasswdEntry.texts (e : PasswdEntry) : List Str := e.fields.filter fun t => t ≠ []

theorem texts_full (full : e.Full) : e.texts = e.fields :=
  List.filter_eq_self.mpr fun t member => decide_eq_true (full t member)

theorem texts_broken (broken : ¬ e.Full) : e.texts.length ≤ 6 := by
  have fewer : e.texts.length < e.fields.length := by
    apply List.length_filter_lt_length_iff_exists.mpr
    simpa [PasswdEntry.Full] using broken
  exact Nat.le_of_lt_succ fewer

theorem texts_length (ok : e.Ok) :
    e.texts.length = 3 + ([e.pass, e.cmt, e.home, e.intp].filter fun t => t ≠ []).length := by
  simp only [PasswdEntry.texts, PasswdEntry.fields, ← List.countP_eq_length_filter,
    List.countP_cons, List.countP_nil,
    ne_eq, decide_not, ok.named, ok.uid.1, ok.gid.1, decide_false, Bool.not_false, if_true]
  omega

theorem bare_iff (ok : e.Ok) : e.Bare ↔ e.texts.length = 3 := by
  rw [texts_length ok]
  simp [PasswdEntry.Bare]

structure Stands (line : Str) (e : PasswdEntry) : Prop where
  fields : line.splitOnP (dlim colon) = e.fields
  ended : 0 ∉ line
  ok : e.Ok

variable {uid : UInt32}

theorem Stands.tokens_eq (here : Stands line e) : tokens colon line = e.texts := by
  rw [tokens_eq_pieces, pieces, here.fields, PasswdEntry.texts]

theorem Stands.name_ended (here : Stands line e) : 0 ∉ e.name := by
  intro zero
  have piece : e.name ∈ line.splitOnP (dlim colon) := here.fields ▸ List.mem_cons_self
  exact here.ended (mem_of_mem_piece piece zero).1

theorem Stands.takes (here : Stands line e) {t : Str} (member : t ∈ e.fields) :
    t.take maxCmtlen = t :=
  List.take_of_length_le (Nat.le_succ_of_le (here.ok.short t member))

theorem Stands.full (here : Stands line e) (full : e.Full) (uname : Option Str) (lines : List Str)
    (info : UserInfo) :
    getuserFrom uname uid (line :: lines) info =
      match uname with
      | none => if decimal e.uid % 2 ^ 32 = uid.toNat then some (e.record, 1) else none
      | some u => if strcmp e.name u = 0 then some (e.record, 1)
        else getuserFrom (some u) uid lines info := by
  have name : e.name.take maxCmtlen = e.name := here.takes (by simp [PasswdEntry.fields])
  have cmt : e.cmt.take maxCmtlen = e.cmt := here.takes (by simp [PasswdEntry.fields])
  have home : e.home.take maxCmtlen = e.home := here.takes (by simp [PasswdEntry.fields])
  have intp : e.intp.take maxCmtlen = e.intp := here.takes (by simp [PasswdEntry.fields])
  rw [getuserFrom, here.tokens_eq, texts_full full]
  dsimp only [PasswdEntry.fields, Option.bind_eq_bind, Option.bind_some, List.getElem?_cons_zero,
    List.getElem?_cons_succ, Option.map_some]
  rw [atoi_digits here.ok.uid.2, atoi_digits here.ok.gid.2, name, cmt, home, intp]
  cases uname with
  | none =>
    have number : UInt32.ofNat (decimal e.uid) = uid ↔ decimal e.uid % 2 ^ 32 = uid.toNat := by
      rw [← UInt32.toNat_inj, UInt32.toNat_ofNat']
    dsimp only
    by_cases hit : decimal e.uid % 2 ^ 32 = uid.toNat
    · rw [if_pos (number.mpr hit), if_pos rfl, if_pos hit]
      exact congrArg some (congrArg (·, 1) (record_eq e))
    · rw [if_neg fun same => hit (number.mp same), if_neg hit]
      rfl
  | some u =>
    dsimp only [Option.bind_some]
    by_cases hit : strcmp e.name u = 0
    · rw [if_pos (beq_iff_eq.mpr hit), if_pos hit]
      exact congrArg some (congrArg (·, 1) (record_eq e))
    · rw [if_neg fun same => hit (beq_iff_eq.mp same), if_neg hit]

theorem Stands.bare (here : Stands line e) (bare : e.Bare) (uname : Option Str) (lines : List Str)
    (info : UserInfo) :
    getuserFrom uname uid (line :: lines) info = none := by
  have three := (bare_iff here.ok).mp bare
  have missing : e.texts[3]? = none := List.getElem?_eq_none (by omega)
  rw [getuserFrom, here.tokens_eq, missing]
  cases e.texts[2]? <;> rfl

theorem Stands.broken (here : Stands line e) (broken : ¬ e.Full) (readable : ¬ e.Bare)
    (uname : Option Str)
    (lines : List Str) (info : UserInfo) :
    getuserFrom uname uid (line :: lines) info =
      match uname with
      | none => none
      | some u => if strcmp e.name u = 0 then none else getuserFrom (some u) uid lines info := by
  have few := texts_broken broken
  have enough := texts_length here.ok
  have other := (bare_iff here.ok).not.mp readable
  have first : e.texts[0]? = some e.name := by
    rw [PasswdEntry.texts, PasswdEntry.fields,
      List.filter_cons_of_pos (by simpa using here.ok.named)]
    rfl
  obtain ⟨t2, here2⟩ : ∃ t, e.texts[2]? = some t := ⟨_, List.getElem?_eq_getElem (by omega)⟩
  obtain ⟨t3, here3⟩ : ∃ t, e.texts[3]? = some t := ⟨_, List.getElem?_eq_getElem (by omega)⟩
  have missing : e.texts[6]? = none := List.getElem?_eq_none (by omega)
  rw [getuserFrom, here.tokens_eq, here2, here3, first, missing]
  dsimp only [Option.bind_eq_bind, Option.bind_some, Option.map_some, Option.bind_none]
  simp only [Option.bind_fun_none]
  cases uname with
  | none =>
    dsimp only
    split <;> rfl
  | some u =>
    dsimp only [Option.bind_some]
    by_cases hit : strcmp e.name u = 0
    · rw [if_pos (beq_iff_eq.mpr hit), if_pos hit]
    · rw [if_neg fun same => hit (beq_iff_eq.mp same), if_neg hit]

end Entries

/-! ## The whole file -/

section Files
variable {lines : List Str} {es : List PasswdEntry} {uid : UInt32} {info : UserInfo}

theorem getuserFrom_named {u : Str} (ended : 0 ∉ u) (stand : List.Forall₂ Stands lines es) :
    (∃ r, getuserFrom (some u) uid lines info = some r ∧ Selects es (some u) uid r.1 r.2) ↔
    Legible es uid (some u) := by
  induction stand with
  | nil => exact iff_of_true ⟨(info, 0), rfl, rfl⟩ ⟨by simp, by simp⟩
  | @cons line e lines es here stand ih =>
    by_cases named : e.name = u
    · have hit : strcmp e.name u = 0 := (strcmp_eq_zero here.name_ended ended).mpr named
      have first : (e :: es).find? (Asked (some u) uid) = some e :=
        List.find?_cons_of_pos (decide_eq_true named)
      have none' : (e :: es).takeWhile (fun e => e.name ≠ u) = [] :=
        List.takeWhile_cons_of_neg (by simpa using named)
      simp only [Selects, Legible, first, none', List.not_mem_nil, false_imp_iff,
        implies_true, true_and,
        Option.some.injEq, forall_eq']
      by_cases full : e.Full
      · rw [here.full full]
        dsimp only
        rw [if_pos hit]
        simp only [Option.some.injEq, exists_eq_left', one_ne_zero, ne_eq, not_false_eq_true,
          true_and, filled_record,
          full]
      · have fault : getuserFrom (some u) uid (line :: lines) info = none := by
          by_cases bare : e.Bare
          · exact here.bare bare _ _ _
          · rw [here.broken full bare]
            exact if_pos hit
        simp only [fault, full, reduceCtorEq, false_and, exists_false]
    · have miss : strcmp e.name u ≠ 0 :=
        fun zero => named ((strcmp_eq_zero here.name_ended ended).mp zero)
      have next : (e :: es).find? (Asked (some u) uid) = es.find? (Asked (some u) uid) :=
        List.find?_cons_of_neg (by simpa [Asked] using named)
      have also : (e :: es).takeWhile (fun e => e.name ≠ u) =
          e :: es.takeWhile (fun e => e.name ≠ u) :=
        List.takeWhile_cons_of_pos (by simpa using named)
      simp only [Selects, Legible, next, also, List.mem_cons, forall_eq_or_imp] at ih ⊢
      by_cases bare : e.Bare
      · simp only [here.bare bare, bare, reduceCtorEq, false_and, exists_false, not_true_eq_false]
      · have goes : getuserFrom (some u) uid (line :: lines) info =
            getuserFrom (some u) uid lines info := by
          by_cases full : e.Full
          · rw [here.full full]
            exact if_neg miss
          · rw [here.broken full bare]
            exact if_neg miss
        rw [goes, ih, and_assoc]
        exact (and_iff_right bare).symm

theorem getuserFrom_numbered (stand : List.Forall₂ Stands lines es) :
    (∃ r, getuserFrom none uid lines info = some r ∧ Selects es none uid r.1 r.2) ↔
    Legible es uid none := by
  cases stand with
  | nil => exact iff_of_true ⟨(info, 0), rfl, rfl⟩ (by simp [Legible])
  | @cons line e lines es here stand =>
    simp only [Legible, List.head?_cons, Option.some.injEq, forall_eq']
    by_cases full : e.Full
    · rw [here.full full]
      dsimp only
      cases found : (e :: es).find? (Asked none uid) with
      | none =>
        simp only [Selects, found, full, reduceCtorEq, false_and, exists_false,
          and_false, iff_false]
        rintro ⟨r, result, zero⟩
        split at result
        · cases result
          exact absurd zero one_ne_zero
        · cases result
      | some g =>
        have number : decimal g.uid = uid.toNat := by simpa [Asked] using List.find?_some found
        simp only [Selects, found, full, Option.some.injEq, exists_eq_left', true_and,
          ← filled_record (e := e)]
        by_cases hit : decimal e.uid % 2 ^ 32 = uid.toNat
        · rw [if_pos hit]
          simp only [Option.some.injEq, exists_eq_left', one_ne_zero, ne_eq,
            not_false_eq_true, true_and]
        · rw [if_neg hit]
          simp only [reduceCtorEq, false_and, exists_false, false_iff, filled_record]
          intro agrees
          exact hit (agrees.uid.trans number)
    · have fault : getuserFrom none uid (line :: lines) info = none := by
        by_cases bare : e.Bare
        · exact here.bare bare _ _ _
        · rw [here.broken full bare]
      simp only [fault, full, reduceCtorEq, false_and, exists_false]

theorem PasswdFile.stand {text : Str} (file : PasswdFile text es) (ended : 0 ∉ text) :
    List.Forall₂ Stands (tokens nl text) es := by
  have fields : List.Forall₂ (· = ·) ((tokens nl text).map fun line => line.splitOnP (dlim colon))
      (es.map PasswdEntry.fields) := by
    rw [tokens_eq_pieces, List.forall₂_eq_eq_eq]
    exact file.lines
  rw [List.forall₂_map_left_iff, List.forall₂_map_right_iff] at fields
  refine List.forall₂_iff_zip.mpr ⟨fields.length_eq, ?_⟩
  intro line e member
  have inFile : line ∈ tokens nl text := (List.of_mem_zip member).1
  rw [tokens_eq_pieces] at inFile
  exact ⟨(List.forall₂_iff_zip.mp fields).2 member,
    fun zero => ended (mem_of_mem_piece (List.mem_of_mem_filter inFile) zero).1,
    file.ok e (List.of_mem_zip member).2⟩

variable {v : Files} {k : Kernel} {d : Cwd} {x y z : Sys} {l : Loading} {fd : Int} {root : Nat}
  {uname : Option Str}

theorem getuserCall_returns (behaved : Behaved k) (ready : Ready v root x)
    (supply : Vfs.Supply l.env.news x.cache (2 * (passwdPath.length + d.cdirname.length) + 10))
    (loads : Loads v (booted k) d x passwdPath l y z fd) (ended : ∀ u, uname = some u → 0 ∉ u)
    {info' : UserInfo}
    {stat : Nat} : (∃ w, getuserCall v (booted k) d x l uname uid info = .ok (w, info', stat)) ↔
      getuser l.file uname uid info = some (info', stat) := by
  obtain ⟨w, closed, -⟩ := loads.closes behaved ready supply
  have searched : getuserBuf l.buf l.filled uname uid info = getuser l.file uname uid info :=
    getuserBuf_refines loads.text loads.small.1 loads.small.2 ended uid info
  simp only [getuserCall, loads.opened, bind, Except.bind, if_neg loads.found, loads.read, searched]
  cases getuser l.file uname uid info with
  | none => simp
  | some r => simp [closed, pure, Except.pure, Prod.ext_iff]

/-- `getuser` selects the line and fills the record as the file says, exactly where the lines
    it looks at are legible. -/
theorem getuser_selects_iff (behaved : Behaved k) (ready : Ready v root x)
    (supply : Vfs.Supply l.env.news x.cache (2 * (passwdPath.length + d.cdirname.length) + 10))
    (loads : Loads v (booted k) d x passwdPath l y z fd) (file : PasswdFile l.file es)
    (ended : ∀ u, uname = some u → 0 ∉ u) (uid : UInt32) (info : UserInfo) :
    (∃ w info' stat, getuserCall v (booted k) d x l uname uid info = .ok (w, info', stat) ∧
      Selects es uname uid info' stat) ↔ Legible es uid uname := by
  have stand := file.stand loads.ended
  have search : (∃ r, getuser l.file uname uid info = some r ∧ Selects es uname uid r.1 r.2) ↔
      Legible es uid uname := by
    cases uname with
    | none => exact getuserFrom_numbered stand
    | some u => exact getuserFrom_named (ended u rfl) stand
  rw [← search]
  constructor
  · rintro ⟨w, info', stat, called, selects⟩
    exact ⟨(info', stat), (getuserCall_returns behaved ready supply loads ended).mp ⟨w, called⟩,
      selects⟩
  · rintro ⟨⟨info', stat⟩, found, selects⟩
    obtain ⟨w, called⟩ := (getuserCall_returns behaved ready supply loads ended).mpr found
    exact ⟨w, info', stat, called, selects⟩

end Files

def rootEntry : PasswdEntry :=
  ⟨ascii "root", ascii "x", ascii "0", ascii "0", ascii "root", ascii "/root", ascii "/bin/sh"⟩
def guestEntry : PasswdEntry :=
  ⟨ascii "guest", ascii "x", ascii "5", ascii "5", [], ascii "/home", ascii "/bin/sh"⟩

def guestPasswd : Str := ascii "root:x:0:0:root:/root:/bin/sh\nguest:x:5:5::/home:/bin/sh\n"

theorem guestPasswd_file : PasswdFile guestPasswd [rootEntry, guestEntry] := by
  refine ⟨by decide +kernel, ?_⟩
  intro e member
  simp only [List.mem_cons, List.not_mem_nil, or_false] at member
  rcases member with rfl | rfl <;>
    exact ⟨by decide +kernel, by decide +kernel, by decide +kernel, by decide +kernel⟩

theorem guestPasswd_loads :
    ∃ y z, Loads etcFs (booted (reader guestPasswd.length)) Shell.atRoot bootSys passwdPath
    (loading guestPasswd) y z 0 :=
  loads_of_returns (n := guestPasswd.length) (by decide +kernel) (by decide) rfl rfl
    (fun _ _ => rfl)
    (by decide +kernel) (by decide +kernel)

theorem root_selected : ∃ w info stat, getuserCall etcFs
    (booted (reader guestPasswd.length)) Shell.atRoot bootSys
    (loading guestPasswd) (some (ascii "root")) 0 UserInfo.zero = .ok (w, info, stat) ∧
      Selects [rootEntry, guestEntry] (some (ascii "root")) 0 info stat := by
  obtain ⟨y, z, loads⟩ := guestPasswd_loads
  have ended : ∀ u, some (ascii "root") = some u → 0 ∉ u := by
    rintro u ⟨⟩
    decide +kernel
  have first : [rootEntry, guestEntry].find? (Asked (some (ascii "root")) 0) = some rootEntry := rfl
  apply (getuser_selects_iff (reader_behaved _) etcFs_ready (bootSys_supply (by decide +kernel))
    loads guestPasswd_file
    ended 0 UserInfo.zero).mpr
  have none' : ([rootEntry, guestEntry].takeWhile fun e => e.name ≠ ascii "root") = [] := rfl
  rw [Legible, none']
  refine ⟨by simp, ?_⟩
  intro e found
  cases first.symm.trans found
  have full : ∀ t ∈ rootEntry.fields, t ≠ [] := by decide +kernel
  exact ⟨full, rfl, by decide +kernel, by decide +kernel, rfl, rfl, rfl, rfl⟩

/-- `guest` is on the second line: by name a text is missing there, by number the first line is
    compared with a null name. -/
theorem guest_not_returned : PasswdFile guestPasswd [rootEntry, guestEntry] ∧
    [rootEntry, guestEntry].find? (Asked (some (ascii "guest")) 0) = some guestEntry ∧
    [rootEntry, guestEntry].find? (Asked none 5) = some guestEntry ∧
    (∃ y z, Loads etcFs (booted (reader guestPasswd.length)) Shell.atRoot bootSys passwdPath
      (loading guestPasswd) y z 0) ∧
    (¬ ∃ w info stat, getuserCall etcFs (booted (reader guestPasswd.length)) Shell.atRoot bootSys
    (loading guestPasswd)
      (some (ascii "guest")) 0 UserInfo.zero = .ok (w, info, stat)) ∧
    ¬ ∃ w info stat, getuserCall etcFs (booted (reader guestPasswd.length)) Shell.atRoot bootSys
    (loading guestPasswd)
      none 5 UserInfo.zero = .ok (w, info, stat) := by
  obtain ⟨y, z, loads⟩ := guestPasswd_loads
  have supply : Vfs.Supply (loading guestPasswd).env.news bootSys.cache
      (2 * (passwdPath.length + Shell.atRoot.cdirname.length) + 10) :=
        bootSys_supply (by decide +kernel)
  refine ⟨guestPasswd_file, rfl, by rfl, ⟨y, z, loads⟩, ?_, ?_⟩
  · rintro ⟨w, info, stat, called⟩
    have ended : ∀ u, some (ascii "guest") = some u → 0 ∉ u := by
      rintro u ⟨⟩
      decide +kernel
    have none' : getuser guestPasswd (some (ascii "guest")) 0 UserInfo.zero = none := by rfl
    have found :=
      (getuserCall_returns (reader_behaved _) etcFs_ready supply loads ended).mp ⟨w, called⟩
    cases none'.symm.trans found
  · rintro ⟨w, info, stat, called⟩
    have none' : getuser guestPasswd none 5 UserInfo.zero = none := by rfl
    have found :=
      (getuserCall_returns (reader_behaved _) etcFs_ready supply loads (by simp)).mp ⟨w, called⟩
    cases none'.symm.trans found

end Crypt
