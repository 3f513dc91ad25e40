import NoobOs.Crypt.LoginResults
import NoobOs.Lib.Runs

/-!
`sys_setuid` and `sys_seteuid` of `crypt.c`, and what a process can make of the
credentials `login` leaves it: `login` and `init_root_proc` of `proc.c` write the
effective ids only, and the real and saved ones keep the zero of the `.bss`.
-/
namespace Crypt
open Runs Strings

def ePerm : Int := -1

/-- The credentials after the call, and what it returns. -/
def sysSetuid (cred : Cred) (uid : UInt32) : Cred × Int :=
  if cred.euid = 0 then ({ cred with uid := uid, euid := uid, suid := uid }, 0)
  else if cred.uid = uid ∨ cred.suid = uid then ({ cred with euid := uid }, 0)
  else (cred, ePerm)

def sysSeteuid (cred : Cred) (uid : UInt32) : Cred × Int :=
  if cred.euid = 0 ∨ cred.uid = uid ∨ cred.suid = uid then ({ cred with euid := uid }, 0)
  else (cred, ePerm)

/-- `root.cred` as `init_root_proc` leaves it, over a zeroed `root`. -/
def initRootProc (root : Cred) : Cred := { root with egid := 0, euid := 0 }

def bssCred : Cred := ⟨0, 0, 0, 0, 0, 0⟩

inductive Call where
  | setuid (uid : UInt32)
  | seteuid (uid : UInt32)

def call (cred : Cred) : Call → Cred × Int
  | .setuid uid => sysSetuid cred uid
  | .seteuid uid => sysSeteuid cred uid

def process : Machine Cred Call where
  legal _ _ := True
  step cred c := some (call cred c).1

/-- No sequence of calls ends with an effective user of zero. -/
def NoRegain (cred : Cred) : Prop := ∀ s, Reach process cred s → s.euid ≠ 0

section Calls
variable {cred s : Cred}

theorem call_unprivileged (unprivileged : cred.euid ≠ 0) (c : Call) :
    (call cred c).1 = cred ∨ (call cred c).1 = { cred with euid := cred.uid } ∨
      (call cred c).1 = { cred with euid := cred.suid } := by
  cases c with
  | setuid uid =>
    simp only [call, sysSetuid, if_neg unprivileged]
    split
    · next known =>
      rcases known with rfl | rfl
      · exact Or.inr (Or.inl rfl)
      · exact Or.inr (Or.inr rfl)
    · exact Or.inl rfl
  | seteuid uid =>
    simp only [call, sysSeteuid]
    split
    · next known =>
      rcases known with root | rfl | rfl
      · exact absurd root unprivileged
      · exact Or.inr (Or.inl rfl)
      · exact Or.inr (Or.inr rfl)
    · exact Or.inl rfl

theorem call_failed {c : Call} (failed : (call cred c).2 ≠ 0) : (call cred c).1 = cred := by
  cases c with
  | setuid uid =>
    simp only [call, sysSetuid] at failed ⊢
    split at failed
    · exact absurd rfl failed
    · split at failed
      · exact absurd rfl failed
      · simp_all
  | seteuid uid =>
    simp only [call, sysSeteuid] at failed ⊢
    split at failed
    · exact absurd rfl failed
    · simp_all

theorem reach_unprivileged (euid : cred.euid ≠ 0) (uid : cred.uid ≠ 0) (suid : cred.suid ≠ 0)
    (reach : Reach process cred s) :
    s.uid = cred.uid ∧ s.suid = cred.suid ∧ s.euid ∈ [cred.euid, cred.uid, cred.suid] := by
  apply reach_invariant
    (fun s => s.uid = cred.uid ∧ s.suid = cred.suid ∧ s.euid ∈ [cred.euid, cred.uid, cred.suid])
    (by simp) _ reach
  intro s c t before _ stepped
  obtain ⟨sameUid, sameSuid, among⟩ := before
  have unprivileged : s.euid ≠ 0 := by
    intro root
    rw [root] at among
    simp only [List.mem_cons, List.not_mem_nil, or_false] at among
    rcases among with zero | zero | zero
    · exact euid zero.symm
    · exact uid zero.symm
    · exact suid zero.symm
  obtain rfl : (call s c).1 = t := by simpa [process] using stepped
  rcases call_unprivileged unprivileged c with same | copied | copied
  · rw [same]
    exact ⟨sameUid, sameSuid, among⟩
  · rw [copied]
    exact ⟨sameUid, sameSuid, by simp [sameUid]⟩
  · rw [copied]
    exact ⟨sameUid, sameSuid, by simp [sameSuid]⟩

theorem seteuid_regains (kept : cred.uid = 0 ∨ cred.suid = 0) :
    Reach process cred { cred with euid := 0 } := by
  refine ⟨[.seteuid 0], Run.cons trivial ?_ (Run.nil _)⟩
  simp only [process, call, sysSeteuid]
  rw [if_pos (Or.inr kept)]

theorem noRegain_iff (unprivileged : cred.euid ≠ 0) :
    NoRegain cred ↔ cred.uid ≠ 0 ∧ cred.suid ≠ 0 := by
  constructor
  · intro never
    constructor
    · intro zero
      exact never _ (seteuid_regains (Or.inl zero)) rfl
    · intro zero
      exact never _ (seteuid_regains (Or.inr zero)) rfl
  · rintro ⟨uid, suid⟩ s reach root
    have among := (reach_unprivileged unprivileged uid suid reach).2.2
    rw [root] at among
    simp only [List.mem_cons, List.not_mem_nil, or_false] at among
    rcases among with zero | zero | zero
    · exact unprivileged zero.symm
    · exact uid zero.symm
    · exact suid zero.symm

end Calls

/-- After a login as another user than root the process stays without privilege exactly
    if it had neither a real nor a saved user of zero before; the one `init_root_proc`
    made has both. -/
theorem login_drops_privilege_iff {passwd shadow : Str} {cred left : Cred}
    {attempts : List Attempt} {a : Attempt}
    (ended : login passwd shadow cred attempts = some (a, left)) (account : left.euid ≠ 0) :
    (NoRegain left ↔ cred.uid ≠ 0 ∧ cred.suid ≠ 0) ∧
    (cred = initRootProc bssCred → ¬ NoRegain left) := by
  obtain ⟨_, info, _, rfl⟩ := login_ends ended
  have exact' := noRegain_iff account
  refine ⟨exact', ?_⟩
  rintro rfl never
  exact (exact'.mp never).1 rfl

theorem login_drops_privilege_t :
    (NoRegain ⟨1000, 621, 1000, 0, 621, 0⟩ ↔ (1000 : UInt32) ≠ 0 ∧ (1000 : UInt32) ≠ 0) ∧
    ¬ NoRegain ⟨0, 621, 0, 0, 621, 0⟩ := by
  have asUser : login trimmedPasswd staleShadow ⟨1000, 0, 1000, 0, 0, 0⟩ [typedT] =
      some (typedT, ⟨1000, 621, 1000, 0, 621, 0⟩) := rfl
  have asRoot : login trimmedPasswd staleShadow (initRootProc bssCred) [typedT] =
      some (typedT, ⟨0, 621, 0, 0, 621, 0⟩) := rfl
  exact ⟨(login_drops_privilege_iff asUser (by decide)).1,
    (login_drops_privilege_iff asRoot (by decide)).2 rfl⟩

/-- `t` logs in after boot and is root again after `seteuid(0)`. -/
theorem login_leaves_root :
    login trimmedPasswd staleShadow (initRootProc bssCred) [typedT] =
      some (typedT, ⟨0, 621, 0, 0, 621, 0⟩) ∧
    Run process ⟨0, 621, 0, 0, 621, 0⟩ [.seteuid 0] ⟨0, 0, 0, 0, 621, 0⟩ := by
  exact ⟨rfl, Run.cons trivial rfl (Run.nil _)⟩

end Crypt
