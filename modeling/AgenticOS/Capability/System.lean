import AgenticOS.Capability.Model
import AgenticOS.Foundation.Execution

/-!
# Sequences of capability calls

One registry, any number of tables (indexed by an arbitrary type `τ`), and the
six operations a caller can issue on them. `call_cases` says once what a call
can do to the registry and the tables; `call_audit` says what it returns and
records. Every fact about sequences is derived from these two.
-/

namespace AgenticOS

open Foundation

inductive CapCall (τ : Type) where
  | createObject (kind : KernelObjectKind)
  | grant (table : τ) (objectId : ObjectId) (rights : Rights)
  | resolve (table : τ) (capId : CapId) (required : Rights)
  | derive (table : τ) (sourceCapId : CapId) (requested : Rights) (target : τ)
  | deriveSelf (table : τ) (sourceCapId : CapId) (requested : Rights)
  | revoke (objectId : ObjectId) (destroy : Bool)
  deriving DecidableEq

namespace CapCall

variable {τ : Type}

def isGrant : CapCall τ → Bool
  | .grant .. => true
  | _ => false

def isRevoke : CapCall τ → Bool
  | .revoke .. => true
  | _ => false

end CapCall

inductive CapReply where
  | created (id : ObjectId)
  | granted (id : CapId)
  | resolved (result : Except CapError Capability)
  | derived (result : Except CapError CapId)
  | revoked

structure CapState (τ : Type) where
  core : Core
  tables : τ → CapabilityTable

namespace CapState

variable {τ : Type}

def boot : CapState τ := ⟨.boot, fun _ => .new⟩

def resolve (s : CapState τ) (t : τ) (c : CapId) (r : Rights) :
    Except CapError Capability :=
  ((s.tables t).resolve c r s.core).1

theorem resolve_ok_iff {s : CapState τ} {t : τ} {c : CapId} {r : Rights} {cap : Capability} :
    s.resolve t c r = .ok cap ↔ (s.tables t).slot? c = some cap ∧
      s.core.currentGen cap.objectId = some cap.generation ∧
      cap.rights.contains r = true :=
  CapabilityTable.resolve_ok_iff

theorem resolve_congr {s s' : CapState τ} {t : τ} {c : CapId} {r : Rights}
    {cap : Capability} (hobjects : s'.core.objects = s.core.objects)
    (hslot : (s'.tables t).slot? c = (s.tables t).slot? c) :
    s'.resolve t c r = .ok cap ↔ s.resolve t c r = .ok cap := by
  rw [resolve_ok_iff, resolve_ok_iff, hslot, Core.currentGen_congr hobjects]

variable [DecidableEq τ]

def setTable (s : CapState τ) (t : τ) (table : CapabilityTable) (core : Core) :
    CapState τ :=
  ⟨core, Function.update s.tables t table⟩

def call (s : CapState τ) : CapCall τ → CapReply × CapState τ
  | .createObject kind =>
    let (id, core) := s.core.createObject kind
    (.created id, { s with core })
  | .grant t o r =>
    let (id, table, core) := (s.tables t).grant o r s.core
    (.granted id, s.setTable t table core)
  | .resolve t c r =>
    let (result, core) := (s.tables t).resolve c r s.core
    (.resolved result, { s with core })
  | .derive t c r target =>
    let (result, table, core) :=
      (s.tables t).derive c r (s.tables target) s.core
    (.derived result, s.setTable target table core)
  | .deriveSelf t c r =>
    let (result, table, core) := (s.tables t).deriveSelf c r s.core
    (.derived result, s.setTable t table core)
  | .revoke o destroy => (.revoked, { s with core := s.core.revoke o destroy })

def step (s : CapState τ) (c : CapCall τ) : CapState τ := next call s c

abbrev after (s : CapState τ) (calls : List (CapCall τ)) : CapState τ :=
  run step s calls

variable (s : CapState τ)

@[simp] theorem setTable_core (t : τ) (table : CapabilityTable)
    (core : Core) : (s.setTable t table core).core = core := rfl

@[simp] theorem setTable_tables (t : τ) (table : CapabilityTable) (core : Core) :
    (s.setTable t table core).tables = Function.update s.tables t table := rfl

/-- **What a call does to the registry and the tables.** Nothing, or one of
four things: an object is created, a capability is minted from the registry, a
capability is copied from one that resolves with `GRANT` and covers the copy,
or an object is revoked. -/
inductive Effect (s : CapState τ) : CapCall τ → CapState τ → Prop where
  | quiet {c s'} (hobjects : s'.core.objects = s.core.objects)
      (htables : s'.tables = s.tables) : Effect s c s'
  | created {s'} (kind : KernelObjectKind)
      (hobjects : s'.core.objects = (s.core.createObject kind).2.objects)
      (htables : s'.tables = s.tables) : Effect s (.createObject kind) s'
  | minted {s'} (t : τ) (o : ObjectId) (r : Rights)
      (hobjects : s'.core.objects = s.core.objects)
      (htables : s'.tables = Function.update s.tables t
        ((s.tables t).push ⟨o, r, s.core.mintGen o⟩).2) :
      Effect s (.grant t o r) s'
  | copied {c s'} (t : τ) (sourceCapId : CapId) (source : Capability)
      (requested : Rights) (target : τ)
      (hsource : s.resolve t sourceCapId .grant = .ok source)
      (hrights : source.rights.contains requested = true)
      (hobjects : s'.core.objects = s.core.objects)
      (htables : s'.tables = Function.update s.tables target
        ((s.tables target).push
          ⟨source.objectId, requested, source.generation⟩).2) : Effect s c s'
  | revoked {s'} (o : ObjectId) (destroy : Bool)
      (hobjects : s'.core.objects = (s.core.revoke o destroy).objects)
      (htables : s'.tables = s.tables) : Effect s (.revoke o destroy) s'

theorem derive_effect (c : CapCall τ) (t : τ)
    (sourceCapId : CapId) (requested : Rights) (target : τ) :
    Effect s c (s.setTable target
        ((s.tables t).derive sourceCapId requested (s.tables target) s.core).2.1
        ((s.tables t).derive sourceCapId requested (s.tables target) s.core).2.2) := by
  obtain ⟨source, hres, hsub, h⟩ | ⟨source, hres, hsub, h⟩ | ⟨e, hres, h⟩ :=
    (s.tables t).deriveSource_cases sourceCapId requested s.core
  · refine .copied t sourceCapId source requested target ?_ hsub ?_ ?_
    · rw [resolve, hres]
    all_goals simp [CapabilityTable.derive, h, CapabilityTable.derivePush]
  · exact .quiet (by simp [CapabilityTable.derive, h]) (by simp [CapabilityTable.derive, h])
  · exact .quiet (by simp [CapabilityTable.derive, h]) (by simp [CapabilityTable.derive, h])

theorem call_effect (c : CapCall τ) : Effect s c (s.step c) := by
  cases c with
  | createObject kind => exact .created kind rfl rfl
  | grant t o r => exact .minted t o r rfl rfl
  | resolve => exact .quiet (CapabilityTable.resolve_objects _ _ _ _) rfl
  | derive t c r target => exact derive_effect s _ t c r target
  | deriveSelf t c r => exact derive_effect s _ t c r t
  | revoke o destroy => exact .revoked o destroy rfl rfl

theorem slot?_update_push (tables : τ → CapabilityTable) (target t : τ)
    (cap : Capability) (c : CapId) :
    (Function.update tables target ((tables target).push cap).2 t).slot? c =
      if t = target ∧ c.toNat = (tables target).slots.length then some cap
      else (tables t).slot? c := by
  by_cases ht : t = target
  · subst ht
    rw [Function.update_self, CapabilityTable.slot?_push]
    simp
  · rw [Function.update_of_ne ht]
    simp [ht]

end CapState

end AgenticOS
