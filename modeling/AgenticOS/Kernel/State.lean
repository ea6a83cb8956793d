import AgenticOS.Kernel.Requests
import AgenticOS.Capability.FileScan
import AgenticOS.Ipc.Endpoint

/-!
# The kernel's shared state

The statics of the modules that the syscall path reaches: the capability core,
the IPC endpoints, the threads with their own capability tables and I/O
permission bitmaps, the two request tables, the interrupt flags, the
kernel-wide capability pairs of `syscall.rs`, and the process table. What the
window manager, the compositor and the input router keep is one component of
an arbitrary type `δ`: nothing proved here looks inside it.
-/

namespace AgenticOS

open Foundation

/-! ## Threads, processes, interrupts -/

structure Thread where
  capTable : CapabilityTable
  iopb : Nat → UInt8

def iopbPorts : Nat := 1024

/-- `gdt::is_port_allowed`. -/
def isPortAllowed (bitmap : Nat → UInt8) (port : UInt16) : Bool :=
  let p := port.toNat
  if iopbPorts ≤ p then false
  else bitmap (p / 8) &&& ((1 : UInt8) <<< UInt8.ofNat (p % 8)) == 0

inductive ProcessStatus where
  | running
  | exited (code : Int32)
  deriving DecidableEq

structure Process where
  pid : UInt64
  threadId : ThreadId
  addressSpace : UInt64
  status : ProcessStatus
  deriving DecidableEq

structure Interrupts where
  registered : UInt8 → Bool
  pending : UInt8 → Bool
  lastDelivered : UInt8

/-- A table and a capability in it that belong to no process: the pairs
`RING3_IPC_TABLE`/`RING3_SEND_CAP` and so on. The table is unset until its
initialiser has run. -/
structure StaticCap where
  table : Option CapabilityTable
  cap : CapId

structure EndpointSlot where
  objectId : ObjectId
  endpoint : Endpoint Message

structure Kernel (δ : Type) where
  core : Core
  endpoints : List EndpointSlot
  threads : ThreadId → Option Thread
  files : Service FileRequest
  nets : Service NetRequest
  interrupts : Interrupts
  ring3Ipc : StaticCap
  initSvc : StaticCap
  fbReady : StaticCap
  kbd : StaticCap
  mouse : StaticCap
  processes : List Process
  kernelPml4 : UInt64
  desktop : δ

namespace Kernel

variable {δ : Type}

def record (k : Kernel δ) (event : AuditEvent) : Kernel δ :=
  { k with core := k.core.record event }

/-- The state after refusing each of these ids, and nothing else. -/
def deny (k : Kernel δ) (ids : List CapId) : Kernel δ :=
  { k with core := k.core.deny ids }

variable (k : Kernel δ)

theorem deny_append (cs ds : List CapId) : k.deny (cs ++ ds) = (k.deny cs).deny ds := by
  unfold deny
  rw [Core.deny_append]

variable (ids : List CapId)

@[simp] theorem deny_files : (k.deny ids).files = k.files := rfl

@[simp] theorem deny_endpoints : (k.deny ids).endpoints = k.endpoints := rfl

def current (k : Kernel δ) : Option Thread := k.threads k.core.currentTid

@[simp] theorem deny_current : (k.deny ids).current = k.current := by
  unfold current
  rw [show (k.deny ids).core.currentTid = k.core.currentTid from
    Core.deny_currentTid k.core ids]
  rfl

/-! ## `thread.rs`: what the running thread holds -/

def resolveCurrentCapability (k : Kernel δ) (capId : CapId) (required : Rights) :
    Except CapError Capability × Kernel δ :=
  match k.current with
  | some t =>
    let (result, core) := t.capTable.resolve capId required k.core
    (result, { k with core })
  | none => (.error .noSuchCapability, k)

def currentHasFileCapability (k : Kernel δ) (inode : UInt32) (required : Rights) :
    Bool × Kernel δ :=
  match k.current with
  | some t =>
    let (found, core) := t.capTable.findFileCapability inode required k.core
    (found.isSome, { k with core })
  | none => (false, k)

def currentHasAnyFileCapability (k : Kernel δ) (required : Rights) : Bool × Kernel δ :=
  match k.current with
  | some t =>
    let (found, core) := t.capTable.hasAnyFileCapability required k.core
    (found, { k with core })
  | none => (false, k)

def resolveFileCapability (k : Kernel δ) (capId : CapId) (required : Rights) :
    Option UInt32 × Kernel δ :=
  match k.resolveCurrentCapability capId required with
  | (.ok cap, k) =>
    match k.core.objectKind cap.objectId with
    | some (.fileObject inode) => (some inode, k)
    | _ => (none, k)
  | (.error _, k) => (none, k)

def currentHasPortAccess (k : Kernel δ) (port : UInt16) : Bool :=
  match k.current with
  | some t => isPortAllowed t.iopb port
  | none => false

/-! ## `ipc.rs` -/

inductive IpcError where
  | cap (e : CapError)
  | endpointNotFound
  deriving DecidableEq

/-- `find_endpoint`: the first slot with the object's id. -/
def findEndpoint (k : Kernel δ) (objectId : ObjectId) : Option (Endpoint Message) :=
  (Keyed.lookup EndpointSlot.objectId k.endpoints objectId).map (·.endpoint)

/-- What a call does to an endpoint, done in the first slot with its id. -/
def setEndpoint (k : Kernel δ) (objectId : ObjectId) (ep : Endpoint Message) :
    Kernel δ :=
  { k with
    endpoints := Keyed.adjust EndpointSlot.objectId objectId
      (fun slot => { slot with endpoint := ep }) k.endpoints }

def trySend (k : Kernel δ) (table : CapabilityTable) (capId : CapId) (msg : Message) :
    Except IpcError Bool × Kernel δ :=
  match table.resolve capId .send k.core with
  | (.error e, core) => (.error (.cap e), { k with core })
  | (.ok cap, core) =>
    let k := { k with core }
    match k.findEndpoint cap.objectId with
    | none => (.error .endpointNotFound, k)
    | some ep =>
      match ep.trySend msg with
      | (true, ep) =>
        (.ok true, (k.setEndpoint cap.objectId ep).record (.ipcSend cap.objectId))
      | (false, _) => (.ok false, k)

def tryReceiveOnObject (k : Kernel δ) (objectId : ObjectId) :
    Option Message × Kernel δ :=
  match k.findEndpoint objectId with
  | none => (none, k)
  | some ep =>
    match ep.tryReceive with
    | (none, _) => (none, k)
    | (some msg, ep) =>
      (some msg, (k.setEndpoint objectId ep).record (.ipcReceive objectId))

/-! ## What a `try_send` does -/

def sendTarget (k : Kernel δ) (table : CapabilityTable) (capId : CapId) :
    Option ObjectId :=
  match (table.resolve capId .send k.core).1 with
  | .ok cap => some cap.objectId
  | .error _ => none

def hasRoom (k : Kernel δ) (objectId : ObjectId) : Bool :=
  (k.findEndpoint objectId).any fun ep => ep.qLen.toNat < queueDepth

/-- The capability resolves and its endpoint has room. -/
def canSend (k : Kernel δ) (table : CapabilityTable) (capId : CapId) : Bool :=
  (k.sendTarget table capId).any k.hasRoom

def Enqueued (k k' : Kernel δ) (objectId : ObjectId) (msg : Message) : Prop :=
  ∃ ep, k.findEndpoint objectId = some ep ∧ ep.qLen.toNat < queueDepth ∧
    k'.endpoints = (k.setEndpoint objectId (ep.trySend msg).2).endpoints

variable {capId : CapId} {table : CapabilityTable}

theorem sendTarget_eq_some {k : Kernel δ} {o : ObjectId} (h : k.sendTarget table capId = some o) :
    ∃ cap, table.resolve capId .send k.core = (.ok cap, k.core) ∧ cap.objectId = o := by
  unfold sendTarget at h
  rcases hres : (table.resolve capId .send k.core).1 with e | cap
  · rw [hres] at h
    cases h
  · rw [hres] at h
    exact ⟨cap, CapabilityTable.resolve_of_ok hres, Option.some.inj h⟩

theorem sendTarget_congr {k k' : Kernel δ} (h : k.core.objects = k'.core.objects)
    (table : CapabilityTable) (capId : CapId) :
    k.sendTarget table capId = k'.sendTarget table capId := by
  unfold sendTarget
  rw [CapabilityTable.resolve_congr _ _ _ h]

/-- **A send that can go through.** The message goes into the mailbox of the
object the capability names, and the send is recorded. -/
theorem trySend_of_canSend {k : Kernel δ} (h : k.canSend table capId = true) (msg : Message) :
    ∃ o ep, k.sendTarget table capId = some o ∧ k.findEndpoint o = some ep ∧
      ep.qLen.toNat < queueDepth ∧
      k.trySend table capId msg =
        (.ok true, (k.setEndpoint o (ep.trySend msg).2).record (.ipcSend o)) := by
  rw [canSend, Option.any_eq_true] at h
  obtain ⟨o, htarget, hroom⟩ := h
  rw [hasRoom, Option.any_eq_true] at hroom
  obtain ⟨ep, hep, hlt⟩ := hroom
  rw [decide_eq_true_eq] at hlt
  obtain ⟨cap, hres, rfl⟩ := sendTarget_eq_some htarget
  refine ⟨cap.objectId, ep, htarget, hep, hlt, ?_⟩
  have hsend : (ep.trySend msg).1 = true := by
    simp [Endpoint.trySend, Nat.not_le.mpr hlt]
  have hpair : ep.trySend msg = (true, (ep.trySend msg).2) := by rw [← hsend]
  simp only [trySend, hres, hep]
  rw [hpair]

/-- **A send that cannot.** Nothing changes but the denial record of a
capability that does not resolve. -/
theorem trySend_of_not_canSend {k : Kernel δ} (h : k.canSend table capId = false) (msg : Message) :
    ∃ r ids, k.trySend table capId msg = (r, k.deny ids) ∧ r ≠ .ok true := by
  obtain ⟨cap, hres⟩ | ⟨e, hres⟩ := table.resolve_cases capId .send k.core
  · have htarget : k.sendTarget table capId = some cap.objectId := by
      rw [sendTarget, hres]
    rw [canSend, htarget, Option.any_some, hasRoom] at h
    cases hep : k.findEndpoint cap.objectId with
    | none =>
      refine ⟨.error .endpointNotFound, [], ?_, by simp⟩
      simp only [trySend, hres, hep]
      rfl
    | some =>
      rw [hep, Option.any_some, decide_eq_false_iff_not, Nat.not_lt] at h
      refine ⟨.ok false, [], ?_, by simp⟩
      simp only [trySend, hres, hep, Endpoint.trySend, if_pos h]
      rfl
  · refine ⟨.error (.cap e), [capId], ?_, by simp⟩
    simp only [trySend, hres]
    rfl

end Kernel

end AgenticOS
