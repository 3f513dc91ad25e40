import NoobOs.Crypt.CredentialCalls

/-!
What `chkcred` accepts, on a shadow file whose lines have the form that the loop expects.
-/
namespace Crypt
open ByteMemory Strings FileTable FileCalls
open Vfs (Files Cwd)
open Shell (Behaved Ready)

structure Word (s : Str) : Prop where
  nonempty : s ≠ []
  digits : ∀ c ∈ s, isdigit c
  fits : decimal s < 2 ^ 32

structure ShadowEntry where
  name : Str
  seed : Str
  hash : Str
  others : Str

/-- `$fu$seed$hash` -/
def ShadowEntry.pass (e : ShadowEntry) : Str :=
  dollar ++ schemeFu ++ dollar ++ e.seed ++ dollar ++ e.hash

def ShadowEntry.line (e : ShadowEntry) : Str := e.name ++ colon ++ e.pass ++ colon ++ e.others

structure ShadowEntry.Ok (e : ShadowEntry) : Prop where
  named : e.name ≠ []
  plain : 0x3a ∉ e.name
  seed : Word e.seed
  hash : Word e.hash

structure ShadowFile (text : Str) (es : List ShadowEntry) : Prop where
  lines : (text.splitOnP (dlim nl)).filter (fun line => line ≠ []) = es.map ShadowEntry.line
  ok : ∀ e ∈ es, e.Ok

def Matches (usr : Str) (cred : Typed) (e : ShadowEntry) : Prop :=
  e.name = usr ∧ (murmur3 cred.buf cred.text.length (UInt32.ofNat (decimal e.seed))).toNat =
    decimal e.hash

instance (usr : Str) (cred : Typed) (e : ShadowEntry) : Decidable (Matches usr cred e) :=
  inferInstanceAs (Decidable (_ ∧ _))

/-! ## One line -/

section Entries
variable {e : ShadowEntry} {usr : Str} {cred : Typed}

theorem digit_plain {c : UInt8} (digit : isdigit c) :
    dlim colon c = false ∧ dlim dollar c = false := by
  have colon' : c ≠ 0x3a := by
    rintro rfl
    exact absurd digit (by decide)
  have dollar' : c ≠ 0x24 := by
    rintro rfl
    exact absurd digit (by decide)
  simp [dlim, colon, dollar, colon', dollar']

theorem ShadowEntry.Ok.name_pieces (ok : e.Ok) : pieces colon e.name = [e.name] := by
  apply pieces_whole ok.named
  intro c member
  have other : c ≠ 0x3a := fun same => ok.plain (same ▸ member)
  simpa [dlim, colon] using other

theorem ShadowEntry.Ok.pass_pieces (ok : e.Ok) : pieces colon e.pass = [e.pass] := by
  apply pieces_whole (by simp [ShadowEntry.pass, dollar])
  intro c member
  simp only [ShadowEntry.pass, dollar, schemeFu, List.mem_append, List.mem_cons, List.not_mem_nil,
    or_false] at member
  rcases member with ((((rfl | rfl | rfl) | rfl) | seed) | rfl) | hash
  · rfl
  · rfl
  · rfl
  · rfl
  · exact (digit_plain (ok.seed.digits c seed)).1
  · rfl
  · exact (digit_plain (ok.hash.digits c hash)).1

theorem ShadowEntry.Ok.line_tokens (ok : e.Ok) :
    tokens colon e.line = e.name :: e.pass :: pieces colon e.others := by
  have parts : e.line = e.name ++ 0x3a :: (e.pass ++ 0x3a :: e.others) := by
    simp [ShadowEntry.line, colon]
  have sep : dlim colon 0x3a = true := rfl
  rw [tokens_eq_pieces, parts, pieces_separated sep, pieces_separated sep, ok.name_pieces,
    ok.pass_pieces]
  rfl

theorem ShadowEntry.Ok.pass_tokens (ok : e.Ok) :
    tokens dollar e.pass = [schemeFu, e.seed, e.hash] := by
  have parts : e.pass = [] ++ 0x24 :: (schemeFu ++ 0x24 :: (e.seed ++ 0x24 :: e.hash)) := by
    simp [ShadowEntry.pass, dollar]
  have sep : dlim dollar 0x24 = true := rfl
  rw [tokens_eq_pieces, parts, pieces_separated sep, pieces_separated sep, pieces_separated sep,
    pieces_whole ok.seed.nonempty fun c member => (digit_plain (ok.seed.digits c member)).2,
    pieces_whole ok.hash.nonempty fun c member => (digit_plain (ok.hash.digits c member)).2]
  rfl

theorem Word.atoi_eq {s : Str} (word : Word s) : (atoi s).toNat = decimal s := by
  rw [atoi_digits word.digits, UInt32.toNat_ofNat', Nat.mod_eq_of_lt word.fits]

theorem chkcredFrom_line (ok : e.Ok) (ended : 0 ∉ e.name) (ended' : 0 ∉ usr) (lines : List Str) :
    chkcredFrom usr cred (e.line :: lines) = if Matches usr cred e then some true
    else chkcredFrom usr cred lines := by
  have hash : atoi e.hash = murmur3 cred.buf cred.text.length (atoi e.seed) ↔
      (murmur3 cred.buf cred.text.length (UInt32.ofNat (decimal e.seed))).toNat =
          decimal e.hash := by
    rw [← UInt32.toNat_inj, ok.hash.atoi_eq, atoi_digits ok.seed.digits]
    exact eq_comm
  have scheme : ¬ strcmp schemeFu schemeFu ≠ 0 := by decide
  rw [chkcredFrom, ok.line_tokens]
  dsimp only [Option.bind_eq_bind, Option.bind_some, List.getElem?_cons_zero,
    List.getElem?_cons_succ, Option.map_some,
    Option.getD_some]
  rw [ok.pass_tokens]
  dsimp only [Option.bind_some, List.getElem?_cons_zero, List.getElem?_cons_succ]
  rw [if_neg scheme]
  by_cases named : e.name = usr
  · rw [if_pos ((strcmp_eq_zero ended ended').mpr named)]
    by_cases same : atoi e.hash = murmur3 cred.buf cred.text.length (atoi e.seed)
    · rw [if_pos same, if_pos ⟨named, hash.mp same⟩]
      rfl
    · rw [if_neg same, if_neg fun both => same (hash.mpr both.2)]
  · rw [if_neg fun equal => named ((strcmp_eq_zero ended ended').mp equal),
      if_neg fun both => named both.1]

/-- The loop stops at the first line that matches. -/
theorem chkcredFrom_entries {es : List ShadowEntry} (ok : ∀ e ∈ es, e.Ok)
    (ended : ∀ e ∈ es, 0 ∉ e.name)
    (ended' : 0 ∉ usr) :
    chkcredFrom usr cred (es.map ShadowEntry.line) = some
    (decide (∃ e ∈ es, Matches usr cred e)) := by
  induction es with
  | nil => simp [chkcredFrom]
  | cons e es ih =>
    rw [List.map_cons, chkcredFrom_line (ok e List.mem_cons_self)
      (ended e List.mem_cons_self) ended']
    have rest := ih (fun e' member => ok e' (List.mem_cons_of_mem _ member))
      fun e' member => ended e' (List.mem_cons_of_mem _ member)
    by_cases hit : Matches usr cred e
    · rw [if_pos hit]
      exact congrArg some (decide_eq_true ⟨e, List.mem_cons_self, hit⟩).symm
    · rw [if_neg hit, rest]
      simp only [List.mem_cons, exists_eq_or_imp, hit, false_or]

theorem ShadowFile.ended {text : Str} {es : List ShadowEntry} (file : ShadowFile text es)
    (ended : 0 ∉ text) :
    ∀ e ∈ es, 0 ∉ e.name := by
  intro e member zero
  have line : e.line ∈ (text.splitOnP (dlim nl)).filter fun line => line ≠ [] :=
    file.lines ▸ List.mem_map_of_mem member
  have inLine : 0 ∈ e.line := by
    simp only [ShadowEntry.line, List.mem_append, zero, true_or]
  exact ended (mem_of_mem_piece (List.mem_of_mem_filter line) inLine).1

end Entries

section Calls
variable {v : Files} {k : Kernel} {d : Cwd} {x y z : Sys} {l : Loading} {fd : Int}
  {root : Nat} {usr : Str}

theorem shadowCall_eq (behaved : Behaved k) (ready : Ready v root x)
    (supply : Vfs.Supply l.env.news x.cache (2 * (shadowPath.length + d.cdirname.length) + 10))
    (loads : Loads v (booted k) d x shadowPath l y z fd) (ended : 0 ∉ usr)
    (cred : Typed) {stat : Bool}
    (found : chkcredFrom usr cred (tokens nl l.file) = some stat) :
    ∃ w, shadowCall v (booted k) d x l usr cred = .ok (w, if stat then 1 else 0) ∧
    w.files.ofile = x.files.ofile := by
  obtain ⟨w, closed, same⟩ := loads.closes behaved ready supply
  have searched : chkcredBuf l.buf l.filled usr cred = some stat :=
    (chkcredBuf_refines loads.text loads.small.1 loads.small.2 ended cred).trans found
  refine ⟨w, ?_, same⟩
  simp only [shadowCall, loads.opened, bind, Except.bind, if_neg loads.found, loads.read,
    searched, closed]
  cases stat <;> rfl

/-- A record that is marked allocated: `chkcred` returns 1 if a line has the name and the hash of
    the password, and 0 otherwise, and closes what it has opened. -/
theorem chkcred_accepts_iff (behaved : Behaved k) (ready : Ready v root x) (passwd : Loading)
    (supply : Vfs.Supply l.env.news x.cache (2 * (shadowPath.length + d.cdirname.length) + 10))
    (loads : Loads v (booted k) d x shadowPath l y z fd) {es : List ShadowEntry}
    (file : ShadowFile l.file es)
    (ended : 0 ∉ usr) (cred : Typed) {info : UserInfo} (marked : info.passReq &&& uiAllocated ≠ 0) :
    ∃ w, chkcredCall v (booted k) d x passwd l usr cred info =
        .ok (w, info, if ∃ e ∈ es, Matches usr cred e then 1 else 0) ∧
      w.files.ofile = x.files.ofile := by
  have found : chkcredFrom usr cred (tokens nl l.file) =
      some (decide (∃ e ∈ es, Matches usr cred e)) := by
    rw [tokens_eq_pieces, pieces, file.lines,
      chkcredFrom_entries file.ok (file.ended loads.ended) ended]
  obtain ⟨w, called, same⟩ := shadowCall_eq behaved ready supply loads ended cred found
  refine ⟨w, ?_, same⟩
  simp only [chkcredCall, if_neg marked, called, bind, Except.bind, decide_eq_true_eq]
  rfl

end Calls

theorem word_of_digits {s : Str} (ok : (s ≠ [] ∧ s.all isdigit) ∧ decimal s < 2 ^ 32) : Word s :=
  ⟨ok.1.1, List.all_eq_true.mp ok.1.2, ok.2⟩

def markedInfo : UserInfo := { UserInfo.zero with passReq := uiAllocated }

theorem user_checked : ∃ w, chkcredCall etcFs
    (booted (reader staleShadow.length)) Shell.atRoot bootSys (loading [])
      (loading staleShadow) (ascii "user") typedUser.psw markedInfo = .ok (w, markedInfo, 1) ∧
      w.files.ofile = bootSys.files.ofile := by
  have file : ShadowFile staleShadow
      [⟨ascii "root", ascii "621", ascii "3240274238", ascii " : : : : : : :"⟩,
        ⟨ascii "user", ascii "7", ascii "1858366113", ascii " : : : : : : :"⟩] := by
    refine ⟨by decide +kernel, ?_⟩
    intro e member
    simp only [List.mem_cons, List.not_mem_nil, or_false] at member
    rcases member with rfl | rfl
    · exact ⟨by decide +kernel, by decide +kernel, word_of_digits (by decide +kernel),
        word_of_digits (by decide +kernel)⟩
    · exact ⟨by decide +kernel, by decide +kernel, word_of_digits (by decide +kernel),
        word_of_digits (by decide +kernel)⟩
  obtain ⟨y, z, loads⟩ : ∃ y z,
    Loads etcFs (booted (reader staleShadow.length)) Shell.atRoot bootSys shadowPath
      (loading staleShadow) y z 0 :=
    loads_of_returns (n := staleShadow.length) (by decide +kernel) (by decide) rfl rfl
      (fun _ _ => rfl)
      (by decide +kernel) (by decide +kernel)
  have marked : markedInfo.passReq &&& uiAllocated ≠ 0 := by decide
  have checked := chkcred_accepts_iff (reader_behaved _) etcFs_ready (loading [])
    (bootSys_supply (by decide +kernel)) loads
    file (by decide +kernel : 0 ∉ ascii "user") typedUser.psw marked
  rw [if_pos (by decide +kernel)] at checked
  exact checked

end Crypt
