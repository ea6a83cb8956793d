import AgenticOS.Foundation.Execution
import AgenticOS.Update.SignedPackage

/-!
# The two banks

`kernel_rs/src/update.rs`: an update is staged into the bank that is not active,
committed, and may be rolled back once. The checks are made when a package is
staged; `commit_update` takes its bank and version from the caller and checks
nothing. Here an update may be committed any number of times and long after it
was staged, with other calls in between.
-/

namespace AgenticOS

open Foundation Option

namespace DualBankManager

def commitUpdate (m : DualBankManager) (targetBank : BankSlot) (newVersion : UInt32) :
    DualBankManager :=
  let m := match targetBank with
    | .bankA => { m with bankAVersion := newVersion }
    | .bankB => { m with bankBVersion := newVersion }
  { m with activeBank := targetBank, rollbackAvailable := true }

def rollback (m : DualBankManager) :
    Except UpdateError (BankSlot × UInt32) × DualBankManager :=
  if ¬ m.rollbackAvailable then (.error .rollbackUnavailable, m)
  else
    let m := { m with activeBank := m.activeBank.alternate, rollbackAvailable := false }
    (.ok (m.activeBank, m.activeVersion), m)

variable {m : DualBankManager} {targetBank : BankSlot} {newVersion : UInt32}

@[simp] theorem activeVersion_commitUpdate :
    (m.commitUpdate targetBank newVersion).activeVersion = newVersion := by
  cases targetBank <;> rfl

def alternateVersion (m : DualBankManager) : UInt32 :=
  match m.activeBank with
  | .bankA => m.bankBVersion
  | .bankB => m.bankAVersion

theorem alternateVersion_commitUpdate (htarget : targetBank = m.activeBank.alternate) :
    (m.commitUpdate targetBank newVersion).alternateVersion = m.activeVersion := by
  subst htarget
  obtain ⟨_ | _, a, b, r⟩ := m <;> rfl

theorem rollback_of_available (h : m.rollbackAvailable = true) :
    m.rollback.2.activeVersion = m.alternateVersion ∧ m.rollback.2.rollbackAvailable = false := by
  obtain ⟨_ | _, a, b, r⟩ := m <;> cases h <;> exact ⟨rfl, rfl⟩

theorem rollback_of_unavailable (h : m.rollbackAvailable = false) : m.rollback.2 = m := by
  rw [rollback, h]
  rfl

theorem rollback_isOk_iff : m.rollback.1.isOk = true ↔ m.rollbackAvailable = true := by
  unfold rollback
  split_ifs with h
  · exact iff_of_true rfl h
  · exact iff_of_false nofun h

end DualBankManager

/-! ## Runs -/

/-- A manager and what its calls of `stage_update` have returned. -/
structure UpdateState where
  manager : DualBankManager
  staged : List (BankSlot × UInt32)

namespace UpdateState

inductive Event where
  | stage (packageBytes key : List UInt8)
  | commit (targetBank : BankSlot) (newVersion : UInt32)
  | rollback
  deriving DecidableEq

def boot (initialVersion : UInt32) : UpdateState := ⟨.new initialVersion, []⟩

def step (s : UpdateState) : Event → Option UpdateState
  | .stage packageBytes key =>
    match s.manager.stageUpdate packageBytes key with
    | .ok (bank, version, _) => some { s with staged := (bank, version) :: s.staged }
    | .error _ => some s
  | .commit targetBank newVersion =>
    if (targetBank, newVersion) ∈ s.staged then
      some { s with manager := s.manager.commitUpdate targetBank newVersion }
    else none
  | .rollback => some { s with manager := s.manager.rollback.2 }

def Fresh (s : UpdateState) : Event → Prop
  | .commit targetBank newVersion =>
    targetBank = s.manager.activeBank.alternate ∧ s.manager.activeVersion < newVersion
  | _ => True

def isCommit : Event → Bool
  | .commit _ _ => true
  | _ => false

instance (s : UpdateState) (e : Event) : Decidable (s.Fresh e) :=
  match e with
  | .commit _ _ => inferInstanceAs (Decidable (_ ∧ _))
  | .stage _ _ => .isTrue trivial
  | .rollback => .isTrue trivial

variable {s s' : UpdateState} {events : List Event}

theorem step_stage {packageBytes key : List UInt8}
    (h : s.step (.stage packageBytes key) = some s') : s'.manager = s.manager := by
  simp only [step] at h
  split at h <;> cases h <;> rfl

theorem step_commit {targetBank : BankSlot} {newVersion : UInt32}
    (h : s.step (.commit targetBank newVersion) = some s') :
    s'.manager = s.manager.commitUpdate targetBank newVersion := by
  simp only [step, ite_none_right_eq_some] at h
  cases h.2
  rfl

theorem attempt_without_commit (h : attempt step s events = some s')
    (hnone : ∀ e ∈ events, isCommit e = false) :
    s'.manager = s.manager ∨ s'.manager.rollbackAvailable = false := by
  induction events generalizing s with
  | nil =>
    cases h
    exact .inl rfl
  | cons e events ih =>
    obtain ⟨_, hstep, hrun⟩ := bind_eq_some_iff.mp h
    have hrest := ih hrun fun e he => hnone e (List.mem_cons_of_mem _ he)
    cases e with
    | stage => rwa [step_stage hstep] at hrest
    | commit => exact absurd (hnone _ List.mem_cons_self) nofun
    | rollback =>
      cases hstep
      by_cases havailable : s.manager.rollbackAvailable = true
      · right
        obtain hsame | hspent := hrest
        · rw [hsame]
          exact (DualBankManager.rollback_of_available havailable).2
        · exact hspent
      · rwa [DualBankManager.rollback_of_unavailable (Bool.not_eq_true _ ▸ havailable)] at hrest

/-- **Anti-rollback.** In a run whose commits are all of updates that could be
staged in the state they are committed in, every commit raises the active
version, and a rollback that succeeds makes the version active again that was
active before the last commit. In every run, two rollbacks that succeed have a
commit between them. -/
theorem antiRollback {initialVersion : UInt32} : (Meets step Fresh (boot initialVersion) events →
      (∀ pre bank version post s₁ s₂, events = pre ++ .commit bank version :: post →
        attempt step (boot initialVersion) pre = some s₁ →
        s₁.step (.commit bank version) = some s₂ →
        s₁.manager.activeVersion < s₂.manager.activeVersion) ∧
      ∀ pre bank version mid post s₁ s₂,
        events = pre ++ .commit bank version :: (mid ++ .rollback :: post) →
        (∀ e ∈ mid, isCommit e = false) →
        attempt step (boot initialVersion) pre = some s₁ →
        attempt step s₁ (.commit bank version :: mid) = some s₂ →
        s₂.manager.rollback.1.isOk = true →
        s₂.manager.rollback.2.activeVersion = s₁.manager.activeVersion) ∧
    ∀ pre mid post s₁ s₂, events = pre ++ .rollback :: (mid ++ .rollback :: post) →
      attempt step (boot initialVersion) pre = some s₁ → s₁.manager.rollback.1.isOk = true →
      attempt step s₁ (.rollback :: mid) = some s₂ → s₂.manager.rollback.1.isOk = true →
      ∃ e ∈ mid, isCommit e = true := by
  refine ⟨fun hfresh => ⟨?_, ?_⟩, ?_⟩
  · rintro pre bank version post s₁ s₂ rfl hpre hstep
    obtain ⟨-, _⟩ := hfresh.at_split hpre
    rwa [step_commit hstep, DualBankManager.activeVersion_commitUpdate]
  · rintro pre bank version mid post s₁ s₂ rfl hnone hpre hmid hok
    obtain ⟨htarget, -⟩ := hfresh.at_split hpre
    obtain ⟨s', hstep, hmid⟩ := bind_eq_some_iff.mp hmid
    have havailable := DualBankManager.rollback_isOk_iff.mp hok
    rw [(DualBankManager.rollback_of_available havailable).1]
    obtain hsame | hspent := attempt_without_commit hmid hnone
    · rw [hsame, step_commit hstep, DualBankManager.alternateVersion_commitUpdate htarget]
    · rw [hspent] at havailable
      cases havailable
  · rintro pre mid post s₁ s₂ rfl hpre hok hmid hok'
    by_contra hnone
    have hnone (e : Event) (he : e ∈ mid) : isCommit e = false :=
      Bool.not_eq_true _ ▸ fun hcommit => hnone ⟨e, he, hcommit⟩
    rw [attempt_cons] at hmid
    obtain ⟨s', hstep, hmid⟩ := bind_eq_some_iff.mp hmid
    cases hstep
    have hspent := (DualBankManager.rollback_of_available
      (DualBankManager.rollback_isOk_iff.mp hok)).2
    have havailable := DualBankManager.rollback_isOk_iff.mp hok'
    obtain hsame | hspent' := attempt_without_commit hmid hnone
    · rw [hsame, hspent] at havailable
      cases havailable
    · rw [hspent'] at havailable
      cases havailable

def package (version : UInt32) : List UInt8 :=
  SignedPackage.createSignedPackage ⟨version, [], []⟩ SignedPackage.rootUpdateKey

theorem step_package {version : UInt32} (h : s.manager.activeVersion < version) :
    s.step (.stage (package version) SignedPackage.rootUpdateKey) =
      some { s with staged := (s.manager.activeBank.alternate, version) :: s.staged } := by
  have hstage : s.manager.stageUpdate (package version) SignedPackage.rootUpdateKey =
      .ok (s.manager.activeBank.alternate, version, []) :=
    DualBankManager.stageUpdate_createSignedPackage h (Nat.two_pow_pos 32)
  rw [step, hstage]

theorem antiRollback_one_update : ∃ s₁ s₂,
    attempt step (boot 1) [.stage (package 2) SignedPackage.rootUpdateKey] = some s₁ ∧
      attempt step s₁ [.commit .bankB 2] = some s₂ ∧
      s₂.manager.rollback.2.activeVersion = s₁.manager.activeVersion := by
  have hstage : (boot 1).step (.stage (package 2) SignedPackage.rootUpdateKey) =
      some ⟨.new 1, [(.bankB, 2)]⟩ := step_package (by decide)
  have hrun : attempt step (boot 1) [.stage (package 2) SignedPackage.rootUpdateKey] =
      some ⟨.new 1, [(.bankB, 2)]⟩ := by
    rw [attempt_cons, hstage]
    rfl
  have hfresh : Meets step Fresh (boot 1) ([.stage (package 2) SignedPackage.rootUpdateKey] ++
      .commit .bankB 2 :: ([] ++ [.rollback])) := by
    refine ⟨trivial, fun _ hs' => ?_⟩
    cases hstage.symm.trans hs'
    decide
  have hcommit : attempt step ⟨.new 1, [(.bankB, 2)]⟩ [.commit .bankB 2] =
      some ⟨⟨.bankB, 1, 2, true⟩, [(.bankB, 2)]⟩ := rfl
  have hback := (antiRollback.1 hfresh).2 _ _ _ _ _ _ _ rfl nofun hrun hcommit rfl
  exact ⟨_, _, hrun, hcommit, hback⟩

/-- **A stale commit.** Versions 2 and 3 are staged while 1 is active. Committing
3 and then 2 lowers the version, and rolling 3 back after both were committed goes
back to 1, not to 2. -/
theorem stale_commit : ((attempt step (boot 1) [.stage (package 2) SignedPackage.rootUpdateKey,
        .stage (package 3) SignedPackage.rootUpdateKey, .commit .bankB 3]).bind fun s₁ =>
        (s₁.step (.commit .bankB 2)).map fun s₂ =>
          (s₁.manager.activeVersion, s₂.manager.activeVersion)) = some (3, 2) ∧
      ((attempt step (boot 1) [.stage (package 2) SignedPackage.rootUpdateKey,
        .stage (package 3) SignedPackage.rootUpdateKey, .commit .bankB 2]).bind fun s₁ =>
        (s₁.step (.commit .bankB 3)).map fun s₂ => (s₁.manager.activeVersion,
          s₂.manager.rollback.1.isOk, s₂.manager.rollback.2.activeVersion)) =
            some (2, true, 1) := by
  have hstage : (boot 1).step (.stage (package 2) SignedPackage.rootUpdateKey) =
      some ⟨.new 1, [(.bankB, 2)]⟩ := step_package (by decide)
  have hstage' : step ⟨.new 1, [(.bankB, 2)]⟩ (.stage (package 3) SignedPackage.rootUpdateKey) =
      some ⟨.new 1, [(.bankB, 3), (.bankB, 2)]⟩ := step_package (by decide)
  have hrun (events : List Event) : attempt step (boot 1)
      (.stage (package 2) SignedPackage.rootUpdateKey ::
        .stage (package 3) SignedPackage.rootUpdateKey :: events) =
      attempt step ⟨.new 1, [(.bankB, 3), (.bankB, 2)]⟩ events := by
    rw [attempt_cons, hstage, bind_some, attempt_cons, hstage', bind_some]
  rw [hrun, hrun]
  decide

end UpdateState

end AgenticOS
