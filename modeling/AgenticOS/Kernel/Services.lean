import AgenticOS.Kernel.State

/-!
# The file and network services

The kernel side of `file_service.rs` and `net_service.rs`: who may make a
request, the slot it gets, and the message that tells the server about it.
What `try_send` answers goes to the log only, so none of the functions below
looks at it.
-/

namespace AgenticOS

namespace Kernel

variable {δ : Type}

/-! ## Authority over files -/

/-- The three attempts `request_file` and `write_file` make: the argument as a
slot of the caller's table, the argument as an inode the caller holds, and any
file capability at all. -/
def authorizeFile (k : Kernel δ) (arg0 : UInt32) (required : Rights) :
    Option UInt32 × Kernel δ :=
  match k.resolveFileCapability arg0 required with
  | (some inode, k) => (some inode, k)
  | (none, k) =>
    match k.currentHasFileCapability arg0 required with
    | (true, k) => (some arg0, k)
    | (false, k) =>
      match k.currentHasAnyFileCapability required with
      | (true, k) => (some arg0, k)
      | (false, k) => (none, k.record (.denied arg0))

/-! ## Requests -/

def readWord (id : UInt64) (inode : UInt32) : UInt64 :=
  (id <<< 32) ||| inode.toUInt64

def opPayload (op : UInt8) : UInt64 :=
  if op = 0 then (1 : UInt64) <<< 31 else op.toUInt64 <<< 24

/-- The message word of a write request or a directory operation. -/
def writeWord (id : UInt64) (op : UInt8) (inode : UInt32) : UInt64 :=
  (id <<< 32) ||| opPayload op ||| inode.toUInt64

/-- Push a file request and tell the server, whatever becomes of the message. -/
def submitFile (k : Kernel δ) (request : FileRequest) (word : UInt64 → UInt64) :
    UInt64 × Kernel δ :=
  let id := k.files.nextRequestId
  let k := { k with files := k.files.push request }
  (id, (k.trySend k.files.senderTable k.files.serverSendCap (.word (word id))).2)

def requestFileInternal (k : Kernel δ) (inode : UInt32) : UInt64 × Kernel δ :=
  if k.files.serverSendCap = noServer then (0, k)
  else k.submitFile (.read inode) fun id => readWord id inode

def requestFile (k : Kernel δ) (arg0 : UInt32) : UInt64 × Kernel δ :=
  match k.authorizeFile arg0 .read with
  | (some inode, k) => k.requestFileInternal inode
  | (none, k) => (0, k)

/-- The operation byte of `write_file`'s first argument. -/
def opOf (arg0 : UInt32) : UInt8 := (arg0 >>> 24).toUInt8

/-- `write_file` once the inode is settled. -/
def writeFileInternal (k : Kernel δ) (mem : UserMemory) (op : UInt8) (inode : UInt32)
    (dataVaddr : UInt64) (len offset : UInt32) : UInt64 × Kernel δ :=
  if k.files.serverSendCap = noServer then (0, k)
  else
    let realLen := min len.toNat maxFileBytes
    if 0 < realLen ∧ !mem.readable dataVaddr (UInt64.ofNat realLen) then (0, k)
    else
      k.submitFile (.write inode len offset (mem.bytes dataVaddr)) fun id =>
        writeWord id op inode

/-- Only a plain write from a process's address space is checked. -/
def writeFile (k : Kernel δ) (mem : UserMemory) (arg0 : UInt32) (dataVaddr : UInt64)
    (len offset : UInt32) : UInt64 × Kernel δ :=
  let op := opOf arg0
  if op = 0 ∧ mem.pml4 ≠ k.kernelPml4 then
    match k.authorizeFile arg0 .write with
    | (some inode, k) => k.writeFileInternal mem op inode dataVaddr len offset
    | (none, k) => (0, k)
  else k.writeFileInternal mem op (arg0 &&& 0x00FFFFFF) dataVaddr len offset

/-- `request_fetch` asks for the default HTTP port. -/
def fetchWord (id : UInt64) : UInt64 := (id <<< 32) ||| 80

def isSocket : KernelObjectKind → Bool
  | .socket .. => true
  | _ => false

/-- The caller's check in `request_fetch`: a socket capability with `SEND`. A
capability on something else is denied here, one that does not resolve was
denied by `resolve`. -/
def authorizeFetch (k : Kernel δ) (socketCapId : CapId) : Bool × Kernel δ :=
  match k.resolveCurrentCapability socketCapId .send with
  | (.ok cap, k) =>
    if (k.core.objectKind cap.objectId).any isSocket then (true, k)
    else (false, k.record (.denied socketCapId))
  | (.error _, k) => (false, k)

def submitFetch (k : Kernel δ) : UInt64 × Kernel δ :=
  let id := k.nets.nextRequestId
  let k := { k with nets := k.nets.push .new }
  (id, (k.trySend k.nets.senderTable k.nets.serverSendCap (.word (fetchWord id))).2)

def requestFetch (k : Kernel δ) (socketCapId : CapId) : UInt64 × Kernel δ :=
  if k.nets.serverSendCap = noServer then (0, k)
  else
    match k.authorizeFetch socketCapId with
    | (true, k) => k.submitFetch
    | (false, k) => (0, k)

/-! ## What the checks decide

They read the registry and the running thread's table, and change nothing but
the audit log, where they leave denials. So each of them may be judged in the
state the call started in. -/

structure SameAuthority (k k' : Kernel δ) : Prop where
  objects : k.core.objects = k'.core.objects
  current : k.current = k'.current

variable (k : Kernel δ)

theorem sameAuthority_deny (ids : List CapId) : SameAuthority (k.deny ids) k :=
  ⟨Core.deny_objects _ _, deny_current _ _⟩

theorem resolveCurrentCapability_cases (c : CapId) (r : Rights) :
    (∃ t cap, k.current = some t ∧ (t.capTable.resolve c r k.core).1 = .ok cap ∧
        k.resolveCurrentCapability c r = (.ok cap, k)) ∨
      ∃ e ids, (∀ t, k.current = some t → (t.capTable.resolve c r k.core).1 = .error e) ∧
        k.resolveCurrentCapability c r = (.error e, k.deny ids) := by
  unfold resolveCurrentCapability
  cases ht : k.current with
  | none => exact .inr ⟨_, [], nofun, rfl⟩
  | some t =>
    obtain ⟨cap, h⟩ | ⟨e, h⟩ := t.capTable.resolve_cases c r k.core
    · exact .inl ⟨t, cap, rfl, by rw [h], by simp only [h]⟩
    · refine .inr ⟨e, [c], ?_, by simp only [h]; rfl⟩
      rintro _ ⟨⟩
      rw [h]

theorem resolveFileCapability_deny (c : CapId) (r : Rights) :
    ∃ ids, (k.resolveFileCapability c r).2 = k.deny ids := by
  unfold resolveFileCapability
  obtain ⟨t, _, -, -, h⟩ | ⟨e, ids, -, h⟩ := k.resolveCurrentCapability_cases c r
  · rw [h]
    dsimp only
    split <;> exact ⟨[], rfl⟩
  · rw [h]
    exact ⟨ids, rfl⟩

theorem currentHasFileCapability_deny (inode : UInt32) (r : Rights) :
    ∃ ids, (k.currentHasFileCapability inode r).2 = k.deny ids := by
  unfold currentHasFileCapability
  cases k.current with
  | none => exact ⟨[], rfl⟩
  | some t =>
    obtain ⟨ids, h⟩ := t.capTable.scanFrom_deny (·.isFileOf inode) r t.capTable.slots 0 k.core
    exact ⟨ids, congrArg (fun core => { k with core }) h⟩

theorem currentHasAnyFileCapability_deny (r : Rights) :
    ∃ ids, (k.currentHasAnyFileCapability r).2 = k.deny ids := by
  unfold currentHasAnyFileCapability
  cases k.current with
  | none => exact ⟨[], rfl⟩
  | some t =>
    obtain ⟨ids, h⟩ := t.capTable.scanFrom_deny (·.isFile) r t.capTable.slots 0 k.core
    exact ⟨ids, congrArg (fun core => { k with core }) h⟩

namespace SameAuthority

variable {k k' : Kernel δ}

section

variable (h : SameAuthority k k')

include h

theorem resolve_pair (c : CapId) (r : Rights) :
    (∃ cap, k.resolveCurrentCapability c r = (.ok cap, k) ∧
        k'.resolveCurrentCapability c r = (.ok cap, k')) ∨
      ∃ e ids, k.resolveCurrentCapability c r = (.error e, k.deny ids) ∧
        k'.resolveCurrentCapability c r = (.error e, k'.deny ids) := by
  unfold Kernel.resolveCurrentCapability
  rw [h.current]
  cases k'.current with
  | none => exact .inr ⟨_, [], rfl, rfl⟩
  | some t =>
    obtain ⟨cap, h1, h2⟩ | ⟨e, h1, h2⟩ := t.capTable.resolve_pair c r h.objects
    · exact .inl ⟨cap, by simp only [h1], by simp only [h2]⟩
    · exact .inr ⟨e, [c], by simp only [h1]; rfl, by simp only [h2]; rfl⟩

theorem resolveFileCapability (c : CapId) (r : Rights) :
    (k.resolveFileCapability c r).1 = (k'.resolveFileCapability c r).1 := by
  unfold Kernel.resolveFileCapability
  obtain ⟨_, h1, h2⟩ | ⟨e, _, h1, h2⟩ := h.resolve_pair c r
  · rw [h1, h2]
    dsimp only
    rw [Core.objectKind_congr h.objects]
    split <;> rfl
  · rw [h1, h2]

theorem currentHasFileCapability (inode : UInt32) (r : Rights) :
    (k.currentHasFileCapability inode r).1 = (k'.currentHasFileCapability inode r).1 := by
  unfold Kernel.currentHasFileCapability
  rw [h.current]
  cases k'.current with
  | none => rfl
  | some t =>
    exact congrArg Option.isSome (CapabilityTable.scanFrom_congr h.objects t.capTable.slots 0)

theorem currentHasAnyFileCapability (r : Rights) :
    (k.currentHasAnyFileCapability r).1 = (k'.currentHasAnyFileCapability r).1 := by
  unfold Kernel.currentHasAnyFileCapability
  rw [h.current]
  cases k'.current with
  | none => rfl
  | some t =>
    exact congrArg Option.isSome (CapabilityTable.scanFrom_congr h.objects t.capTable.slots 0)

end

end SameAuthority

/-- The inode the three attempts settle on, each judged where the call
started. -/
def fileGrant (k : Kernel δ) (arg0 : UInt32) (required : Rights) : Option UInt32 :=
  (k.resolveFileCapability arg0 required).1.or
    (if (k.currentHasFileCapability arg0 required).1 ||
        (k.currentHasAnyFileCapability required).1 then some arg0
      else none)

theorem fileGrant_congr {k k' : Kernel δ} (h : SameAuthority k k') (arg0 : UInt32)
    (r : Rights) : k.fileGrant arg0 r = k'.fileGrant arg0 r := by
  unfold fileGrant
  rw [h.resolveFileCapability, h.currentHasFileCapability, h.currentHasAnyFileCapability]

/-- **The three attempts.** They settle on `fileGrant`; a refusal ends with a
denial of the argument. -/
theorem authorizeFile_eq (arg0 : UInt32) (r : Rights) :
    ∃ ids, k.authorizeFile arg0 r = (k.fileGrant arg0 r, k.deny ids) ∧
      (k.fileGrant arg0 r = none → ∃ ids', ids = ids' ++ [arg0]) := by
  obtain ⟨ids1, h1⟩ := k.resolveFileCapability_deny arg0 r
  obtain ⟨ids2, h2⟩ := (k.deny ids1).currentHasFileCapability_deny arg0 r
  obtain ⟨ids3, h3⟩ := (k.deny (ids1 ++ ids2)).currentHasAnyFileCapability_deny r
  have hfile := (k.sameAuthority_deny ids1).currentHasFileCapability arg0 r
  have hany := (k.sameAuthority_deny (ids1 ++ ids2)).currentHasAnyFileCapability r
  unfold authorizeFile fileGrant
  rcases hres : k.resolveFileCapability arg0 r with ⟨_ | _, _⟩
  · rw [hres] at h1
    subst h1
    rw [← hfile, ← hany, Option.none_or]
    dsimp only
    rcases hfound : (k.deny ids1).currentHasFileCapability arg0 r with ⟨_ | _, _⟩
    · rw [hfound, ← deny_append] at h2
      subst h2
      dsimp only
      rcases hsome : (k.deny (ids1 ++ ids2)).currentHasAnyFileCapability r with ⟨_ | _, _⟩
      · rw [hsome, ← deny_append] at h3
        subst h3
        refine ⟨ids1 ++ ids2 ++ ids3 ++ [arg0], ?_, fun _ => ⟨_, rfl⟩⟩
        rw [k.deny_append _ [arg0]]
        rfl
      · rw [hsome, ← deny_append] at h3
        subst h3
        exact ⟨ids1 ++ ids2 ++ ids3, rfl, nofun⟩
    · rw [hfound, ← deny_append] at h2
      subst h2
      exact ⟨ids1 ++ ids2, rfl, nofun⟩
  · rw [hres] at h1
    subst h1
    exact ⟨ids1, rfl, nofun⟩

/-! ## What a submission does

The slot is there whether or not the message went out. -/

/-- The server's endpoint takes a message from the file service now. -/
def fileServerReachable (k : Kernel δ) : Bool :=
  k.canSend k.files.senderTable k.files.serverSendCap

def netServerReachable (k : Kernel δ) : Bool :=
  k.canSend k.nets.senderTable k.nets.serverSendCap

variable (table : CapabilityTable) (capId : CapId) (msg : Message)

/-- **What sending does to the mailboxes.** One message more in the target's
when the send can go through, nothing otherwise; no other part but the audit
log changes. -/
theorem trySend_snd_cases : (k.canSend table capId = true ∧ ∃ o, k.sendTarget table capId = some o ∧
        k.Enqueued (k.trySend table capId msg).2 o msg) ∨
      k.canSend table capId = false ∧ (k.trySend table capId msg).2.endpoints = k.endpoints := by
  cases h : k.canSend table capId with
  | true =>
    obtain ⟨o, ep, htarget, hep, hlt, hsend⟩ := trySend_of_canSend h msg
    refine .inl ⟨rfl, o, htarget, ep, hep, hlt, ?_⟩
    rw [hsend]
    rfl
  | false =>
    obtain ⟨r, _, hsend, -⟩ := trySend_of_not_canSend h msg
    refine .inr ⟨rfl, ?_⟩
    rw [hsend, deny_endpoints]

theorem trySend_frame :
    ∃ core endpoints, core.objects = k.core.objects ∧ core.currentTid = k.core.currentTid ∧
      (k.trySend table capId msg).2 = { k with core, endpoints } := by
  cases h : k.canSend table capId with
  | true =>
    obtain ⟨o, ep, -, -, -, hsend⟩ := trySend_of_canSend h msg
    exact ⟨k.core.record (.ipcSend o), (k.setEndpoint o (ep.trySend msg).2).endpoints,
      rfl, rfl, by rw [hsend]; rfl⟩
  | false =>
    obtain ⟨r, ids, hsend, -⟩ := trySend_of_not_canSend h msg
    exact ⟨k.core.deny ids, k.endpoints, Core.deny_objects _ _,
      Core.deny_currentTid _ _, by rw [hsend]; rfl⟩

@[simp] theorem trySend_files : (k.trySend table capId msg).2.files = k.files := by
  obtain ⟨_, _, -, -, h⟩ := k.trySend_frame table capId msg
  rw [h]

@[simp] theorem trySend_nets : (k.trySend table capId msg).2.nets = k.nets := by
  obtain ⟨_, _, -, -, h⟩ := k.trySend_frame table capId msg
  rw [h]

/-- **What a file submission does.** It returns the next id and leaves a slot
under it. The message goes out exactly when the server can be reached. -/
theorem submitFile_spec (request : FileRequest) (word : UInt64 → UInt64) :
    (k.submitFile request word).1 = k.files.nextRequestId ∧
      (k.submitFile request word).2.files = k.files.push request ∧
      ((k.fileServerReachable = true ∧
          ∃ o, k.sendTarget k.files.senderTable k.files.serverSendCap = some o ∧
            k.Enqueued (k.submitFile request word).2 o (.word (word k.files.nextRequestId))) ∨
        k.fileServerReachable = false ∧ (k.submitFile request word).2.endpoints = k.endpoints) := by
  refine ⟨rfl, ?_, ?_⟩
  · simp only [submitFile, trySend_files]
  · exact trySend_snd_cases { k with files := k.files.push request }
      k.files.senderTable k.files.serverSendCap (.word (word k.files.nextRequestId))

/-- **What a network submission does**, likewise. -/
theorem submitFetch_spec :
    k.submitFetch.1 = k.nets.nextRequestId ∧ k.submitFetch.2.nets = k.nets.push .new ∧
      ((k.netServerReachable = true ∧
          ∃ o, k.sendTarget k.nets.senderTable k.nets.serverSendCap = some o ∧
            k.Enqueued k.submitFetch.2 o (.word (fetchWord k.nets.nextRequestId))) ∨
        k.netServerReachable = false ∧ k.submitFetch.2.endpoints = k.endpoints) := by
  refine ⟨rfl, ?_, ?_⟩
  · simp only [submitFetch, trySend_nets]
  · exact trySend_snd_cases { k with nets := k.nets.push .new }
      k.nets.senderTable k.nets.serverSendCap (.word (fetchWord k.nets.nextRequestId))

/-! ## A small system -/

/-- Both servers registered: object 0 is the file server's endpoint and object
1 the network server's. Objects 2 and 3 are the file with inode 5 and a
socket. Threads 1 and 2 hold the tables given for them, thread 3 holds the
receive ends. -/
def sample (first second : CapabilityTable) : Kernel Unit where
  core := {
    objects := [⟨.ipcEndpoint, 1, true⟩, ⟨.ipcEndpoint, 1, true⟩,
      ⟨.fileObject 5, 1, true⟩, ⟨.socket .tcp 0 #v[10, 0, 2, 2] 80, 1, true⟩]
    audit := .empty
    currentTid := 1 }
  endpoints := [⟨0, .new .zero⟩, ⟨1, .new .zero⟩]
  threads := fun tid =>
    if tid = 1 then some ⟨first, fun _ => 0xFF⟩
    else if tid = 2 then some ⟨second, fun _ => 0xFF⟩
    else if tid = 3 then
      some ⟨⟨[some ⟨0, .receive, 1⟩, some ⟨1, .receive, 1⟩]⟩, fun _ => 0xFF⟩
    else none
  files := ⟨[], 1, 0, ⟨[some ⟨0, .send, 1⟩]⟩⟩
  nets := ⟨[], 1, 0, ⟨[some ⟨1, .send, 1⟩]⟩⟩
  interrupts := ⟨fun _ => false, fun _ => false, 0⟩
  ring3Ipc := ⟨none, 0⟩
  initSvc := ⟨none, 0⟩
  fbReady := ⟨none, 0⟩
  kbd := ⟨none, 0⟩
  mouse := ⟨none, 0⟩
  processes := []
  kernelPml4 := 0x1000
  desktop := ()

end Kernel

/-- A process whose whole address space is mapped and holds one byte
everywhere. -/
def UserMemory.filled (byte : UInt8) : UserMemory where
  pml4 := 0x2000
  readable := fun _ len => len ≠ 0
  writable := fun _ len => len ≠ 0
  byteAt := fun _ => byte
  readable_zero := fun _ => rfl
  writable_zero := fun _ => rfl

end AgenticOS
