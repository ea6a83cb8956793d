import AgenticOS.Capability.System

/-!
# The audit trail of the capability layer

Which records a call leaves, by what it returned. A grant, a revocation and a
successful derivation leave one record of their own kind; a refusal leaves one
`Denied`. The exception is a derivation that resolves its source and then asks
for rights the source does not hold: `derive` returns `AttenuationViolation`
from between its two critical sections, after the one that records denials and
before the one that records derivations, and leaves nothing.
-/

namespace AgenticOS

open Foundation
open List hiding next

namespace AuditEvent

def isGrant : AuditEvent → Bool
  | .grant .. => true
  | _ => false

def isDerive : AuditEvent → Bool
  | .derive .. => true
  | _ => false

def isRevoke : AuditEvent → Bool
  | .revoke .. => true
  | _ => false

def isDenied : AuditEvent → Bool
  | .denied .. => true
  | _ => false

end AuditEvent

namespace CapReply

def derivedOk : CapReply → Bool
  | .derived (.ok _) => true
  | _ => false

/-- A `resolve`, `derive` or `derive_self` that returned `Err`. -/
def failed : CapReply → Bool
  | .resolved (.error _) => true
  | .derived (.error _) => true
  | _ => false

end CapReply

namespace CapState

variable {τ : Type}

def events (s : CapState τ) : List AuditEvent := s.core.audit.events

/-- **What a call returns and records.** -/
inductive Outcome (s : CapState τ) :
    CapCall τ → CapReply → List AuditEvent → Prop where
  | created (kind : KernelObjectKind) (id : ObjectId) :
      Outcome s (.createObject kind) (.created id) []
  | granted (t : τ) (o : ObjectId) (r : Rights) (id : CapId) :
      Outcome s (.grant t o r) (.granted id) [.grant o r.bits]
  | resolved (t : τ) (c : CapId) (r : Rights) (cap : Capability) :
      Outcome s (.resolve t c r) (.resolved (.ok cap)) []
  | refused (t : τ) (c : CapId) (r : Rights) (e : CapError) :
      Outcome s (.resolve t c r) (.resolved (.error e)) [.denied c]
  | derived (call : CapCall τ) (id : CapId) (t : τ) (c : CapId) (r : Rights)
      (source : Capability)
      (hcall : (∃ target, call = .derive t c r target) ∨ call = .deriveSelf t c r)
      (hsource : s.resolve t c .grant = .ok source)
      (hrights : source.rights.contains r = true) :
      Outcome s call (.derived (.ok id)) [.derive source.objectId r.bits]
  | exceeded (call : CapCall τ) (t : τ) (c : CapId) (r : Rights)
      (source : Capability)
      (hcall : (∃ target, call = .derive t c r target) ∨ call = .deriveSelf t c r)
      (hsource : s.resolve t c .grant = .ok source)
      (hrights : source.rights.contains r = false) :
      Outcome s call (.derived (.error .attenuationViolation)) []
  | underivable (call : CapCall τ) (t : τ) (c : CapId) (r : Rights) (e : CapError)
      (hcall : (∃ target, call = .derive t c r target) ∨ call = .deriveSelf t c r)
      (hsource : s.resolve t c .grant = .error e) :
      Outcome s call (.derived (.error e)) [.denied c]
  | revoked (o : ObjectId) (destroy : Bool) :
      Outcome s (.revoke o destroy) .revoked [.revoke o]

theorem derive_outcome (s : CapState τ) (call : CapCall τ) (t : τ) (c : CapId)
    (r : Rights) (target : CapabilityTable)
    (hcall : (∃ target, call = .derive t c r target) ∨ call = .deriveSelf t c r) :
    ∃ recs, Outcome s call (.derived ((s.tables t).derive c r target s.core).1) recs ∧
      ((s.tables t).derive c r target s.core).2.2.audit.events = s.events ++ recs := by
  obtain ⟨source, hres, hsub, h⟩ | ⟨source, hres, hsub, h⟩ | ⟨e, hres, h⟩ :=
    (s.tables t).deriveSource_cases c r s.core
  · refine ⟨[.derive source.objectId r.bits], ?_, ?_⟩
    · simp only [CapabilityTable.derive, h]
      exact .derived call _ t c r source hcall (by rw [resolve, hres]) hsub
    · simp [CapabilityTable.derive, h, CapabilityTable.derivePush, events]
  · refine ⟨[], ?_, ?_⟩
    · simp only [CapabilityTable.derive, h]
      exact .exceeded call t c r source hcall (by rw [resolve, hres]) hsub
    · simp [CapabilityTable.derive, h, events]
  · refine ⟨[.denied c], ?_, ?_⟩
    · simp only [CapabilityTable.derive, h]
      exact .underivable call t c r e hcall (by rw [resolve, hres])
    · simp [CapabilityTable.derive, h, events]

variable [DecidableEq τ]

theorem call_outcome (s : CapState τ) (c : CapCall τ) :
    ∃ recs, Outcome s c (s.call c).1 recs ∧ (s.step c).events = s.events ++ recs := by
  cases c with
  | createObject kind => exact ⟨[], .created kind _, (append_nil _).symm⟩
  | grant t o r =>
    exact ⟨[.grant o r.bits], .granted t o r _, Core.record_events _ _⟩
  | resolve t c r =>
    obtain ⟨cap, h⟩ | ⟨e, h⟩ := (s.tables t).resolve_cases c r s.core
    · refine ⟨[], ?_, ?_⟩
      · simp only [call, h]
        exact .resolved t c r cap
      · simp [step, next, call, h, events]
    · refine ⟨[.denied c], ?_, ?_⟩
      · simp only [call, h]
        exact .refused t c r e
      · simp [step, next, call, h, events]
  | derive t c r target =>
    exact derive_outcome s _ t c r (s.tables target) (.inl ⟨target, rfl⟩)
  | deriveSelf t c r => exact derive_outcome s _ t c r (s.tables t) (.inr rfl)
  | revoke o destroy => exact ⟨[.revoke o], .revoked o destroy, Core.record_events _ _⟩

/-! ## Counting -/

/-- If every call leaves one record of a kind exactly when it is of some sort,
a sequence leaves as many as it has calls of that sort. -/
theorem countP_after {p : AuditEvent → Bool} {q : CapCall τ × CapReply → Bool}
    (h : ∀ (s : CapState τ) c reply recs, Outcome s c reply recs →
      recs.countP p = if q (c, reply) then 1 else 0)
    (s : CapState τ) (calls : List (CapCall τ)) :
    (s.after calls).events.countP p = s.events.countP p + (transcript call s calls).countP q := by
  induction calls generalizing s with
  | nil => rfl
  | cons c calls ih =>
    obtain ⟨recs, houtcome, hevents⟩ := call_outcome s c
    have hone := h s c _ recs houtcome
    rw [after, run_cons, ih (s.step c), hevents, countP_append, transcript, countP_cons, hone]
    exact Nat.add_right_comm _ _ _ ▸ Nat.add_assoc _ _ _

structure AuditComplete (s : CapState τ) (calls : List (CapCall τ)) : Prop where
  grants : (s.after calls).events.countP AuditEvent.isGrant =
    s.events.countP AuditEvent.isGrant + calls.countP CapCall.isGrant
  derives : (s.after calls).events.countP AuditEvent.isDerive =
    s.events.countP AuditEvent.isDerive +
      (transcript call s calls).countP (·.2.derivedOk)
  revokes : (s.after calls).events.countP AuditEvent.isRevoke =
    s.events.countP AuditEvent.isRevoke + calls.countP CapCall.isRevoke
  denials : ∀ pre c post, calls = pre ++ c :: post →
    ((s.after pre).call c).1.failed = true →
    ((s.after pre).step c).events.countP AuditEvent.isDenied =
      (s.after pre).events.countP AuditEvent.isDenied + 1

/-- A derivation asks for no right its source lacks, if the source resolves. -/
def Attenuates (s : CapState τ) : CapCall τ → Prop
  | .derive t c r _ =>
    ∀ source, s.resolve t c .grant = .ok source → source.rights.contains r = true
  | .deriveSelf t c r =>
    ∀ source, s.resolve t c .grant = .ok source → source.rights.contains r = true
  | _ => True

theorem countP_isGrant_isRevoke_after (s : CapState τ) (calls : List (CapCall τ)) :
    (s.after calls).events.countP AuditEvent.isGrant =
        s.events.countP AuditEvent.isGrant + calls.countP CapCall.isGrant ∧
      (s.after calls).events.countP AuditEvent.isRevoke =
        s.events.countP AuditEvent.isRevoke + calls.countP CapCall.isRevoke := by
  rw [← countP_transcript_fst call CapCall.isGrant s calls,
    ← countP_transcript_fst call CapCall.isRevoke s calls]
  constructor
  all_goals
    refine countP_after ?_ s calls
    intro s c _ _ houtcome
    cases houtcome with
    | created | granted | resolved | refused | revoked => rfl
    | derived _ _ _ _ _ _ hcall | exceeded _ _ _ _ _ hcall
    | underivable _ _ _ _ _ hcall => obtain ⟨_, rfl⟩ | rfl := hcall <;> rfl

theorem countP_isDerive_after (s : CapState τ) (calls : List (CapCall τ)) :
    (s.after calls).events.countP AuditEvent.isDerive = s.events.countP AuditEvent.isDerive +
        (transcript call s calls).countP (·.2.derivedOk) := by
  refine countP_after ?_ s calls
  intro s c _ _ houtcome
  cases houtcome <;> rfl

/-- One call that fails leaves its `Denied` exactly when it is not a
derivation asking for too much. -/
theorem denial_iff_attenuates (s : CapState τ) (c : CapCall τ) : ((s.call c).1.failed = true →
      (s.step c).events.countP AuditEvent.isDenied =
        s.events.countP AuditEvent.isDenied + 1) ↔ s.Attenuates c := by
  obtain ⟨_, houtcome, hevents⟩ := call_outcome s c
  rw [hevents, countP_append]
  generalize (s.call c).1 = reply at houtcome
  cases houtcome with
  | created | granted | resolved | revoked =>
    exact ⟨fun _ => trivial, fun _ h => absurd h Bool.false_ne_true⟩
  | refused => exact ⟨fun _ => trivial, fun _ _ => rfl⟩
  | derived _ _ t c r source hcall hsource hrights =>
    have hcover : ∀ source', s.resolve t c .grant = .ok source' →
        source'.rights.contains r = true := by
      intro source' h
      obtain rfl := Except.ok.inj (hsource.symm.trans h)
      exact hrights
    refine ⟨fun _ => ?_, fun _ h => absurd h Bool.false_ne_true⟩
    obtain ⟨_, rfl⟩ | rfl := hcall
    · exact hcover
    · exact hcover
  | exceeded _ t c r source hcall hsource hrights =>
    -- the silent refusal: no record at all
    constructor
    · intro h
      exact absurd (h rfl) (Nat.ne_of_lt (Nat.lt_succ_self _))
    · intro h
      have hsub : source.rights.contains r = true := by
        obtain ⟨_, rfl⟩ | rfl := hcall
        · exact h source hsource
        · exact h source hsource
      exact absurd hsub (by simp [hrights])
  | underivable _ t c r e hcall hsource =>
    refine ⟨fun _ => ?_, fun _ _ => rfl⟩
    have hnone : ∀ source, s.resolve t c .grant = .ok source → source.rights.contains r = true := by
      intro source h
      rw [hsource] at h
      cases h
    obtain ⟨_, rfl⟩ | rfl := hcall
    · exact hnone
    · exact hnone

/-- **Audit completeness, and when it holds.** For every start state and every
sequence of calls the log is complete exactly when no derivation along the way
asks for a right that its source, resolved with `GRANT`, lacks. -/
theorem auditComplete_iff (s : CapState τ) (calls : List (CapCall τ)) :
    AuditComplete s calls ↔ Along step Attenuates s calls := by
  rw [← along_congr denial_iff_attenuates, along_iff_split]
  constructor
  · exact AuditComplete.denials
  · intro h
    obtain ⟨hgrants, hrevokes⟩ := countP_isGrant_isRevoke_after s calls
    exact ⟨hgrants, countP_isDerive_after s calls, hrevokes, h⟩

/-- A derivation within its source's rights, a refused use and a revocation:
everything is on record. -/
theorem auditComplete_delegation :
    let s : CapState Unit := boot.after
      [.createObject .ipcEndpoint, .grant () 0 (Rights.send.union .grant)]
    AuditComplete s [.deriveSelf () 0 .send, .resolve () 7 .send, .revoke 0 true] := by
  intro s
  refine (auditComplete_iff s _).mpr ⟨?_, trivial, trivial, trivial⟩
  intro _ h
  have hok : s.resolve () 0 .grant = .ok ⟨0, Rights.send.union .grant, 1⟩ := rfl
  obtain rfl := Except.ok.inj (hok.symm.trans h)
  decide

/-- A holder of `GRANT` on an endpoint asks for `SEND` as well: the call is
refused and the log does not grow. -/
theorem attenuation_unaudited :
    let s : CapState Unit := boot.after
      [.createObject .ipcEndpoint, .grant () 0 .grant]
    (s.call (.deriveSelf () 0 .send)).1 = .derived (.error .attenuationViolation) ∧
      (s.step (.deriveSelf () 0 .send)).events = s.events ∧
      ¬ AuditComplete s [.deriveSelf () 0 .send] := by
  intro s
  have hevents : (s.step (.deriveSelf () 0 .send)).events = s.events := rfl
  refine ⟨rfl, hevents, ?_⟩
  intro h
  have hdenied := h.denials [] (.deriveSelf () 0 .send) [] rfl rfl
  exact Nat.ne_of_lt (Nat.lt_succ_self _) hdenied

end CapState

end AgenticOS
