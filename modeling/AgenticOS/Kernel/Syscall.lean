import AgenticOS.Kernel.ServiceCalls

/-!
# The system call boundary

`syscall_dispatch`, number by number. `Syscall.decode` is what the `match` on
the number makes of the arguments, `Kernel.syscall` the arm it leads to. A few
arms check the caller first and then hand over to the window manager, the
introspection snapshots or the program loader; what those do is a parameter,
`Handlers`, and may be anything.

A call that spins or halts until someone else acts does not return. It stops
at a `WaitPoint`, and `Kernel.resume` is what it does when it looks again.
-/

namespace AgenticOS

open Foundation

/-! ## Numbers and arguments -/

/-- The kernel-wide pairs that syscalls 2, 3 and 4 send with. -/
inductive Channel where
  | ring3Ipc
  | initSvc
  | fbReady
  deriving DecidableEq

/-- The kernel-wide pairs of the keyboard and the mouse driver. -/
inductive DriverLine where
  | kbd
  | mouse
  deriving DecidableEq

inductive SurfaceCall where
  | fillSurface (color : UInt32)
  | drawText (requestVaddr : UInt64)
  | moveWindow (newX newY : Int32)
  | presentWindow (dirty : Option (UInt32 × UInt32))
  | drawBitmap (requestVaddr : UInt64)
  | mapSurface
  | commitSurface (x y width height : UInt32)

inductive Syscall where
  | log (value : UInt64)
  | ipcSend (channel : Channel) (word : UInt64)
  | waitInterrupt (line : DriverLine)
  | ackInterrupt (line : DriverLine)
  | introspect (vaddr maxEntries : UInt64)
  | tools (vaddr maxEntries : UInt64)
  | auditQuery (vaddr maxEntries : UInt64)
  | socketUse (capId : CapId)
  | surface (capId : CapId) (call : SurfaceCall)
  | ipcTryReceive (capId : CapId)
  | routeKeyEvent (scancode : UInt8)
  | mouseReport (dx dy : Int32) (pressed : Bool)
  | fileServiceRequest (arg0 : UInt32)
  | fileServiceReply (requestVaddr : UInt64)
  | fileServicePoll (requestId requestVaddr : UInt64)
  | fileServiceWrite (arg0 : UInt32) (requestVaddr : UInt64)
  | fileServiceGetWriteData (requestId outVaddr : UInt64)
  | netServiceRequest (socketCapId : CapId)
  | netServiceReply (requestVaddr : UInt64)
  | netServicePoll (requestId requestVaddr : UInt64)
  | yield
  | introspectWindows (vaddr maxEntries : UInt64)
  | agentUiAction (targetSurface actionType arg0 arg1 : UInt32)
  | processSpawn (requestVaddr : UInt64)
  | processWait (pid : UInt64)
  | processExit (code : Int32)
  | unknown (num : UInt64)

def Syscall.decode (num a0 a1 : UInt64) : Syscall :=
  match num.toNat with
  | 1 => .log a0
  | 2 => .ipcSend .ring3Ipc a0
  | 3 => .ipcSend .initSvc a0
  | 4 => .ipcSend .fbReady a0
  | 5 => .waitInterrupt .kbd
  | 6 => .ackInterrupt .kbd
  | 7 => .introspect a0 a1
  | 8 => .tools a0 a1
  | 9 => .auditQuery a0 a1
  | 10 => .socketUse a0.toUInt32
  | 11 => .surface a0.toUInt32 (.fillSurface a1.toUInt32)
  | 12 => .ipcTryReceive a0.toUInt32
  | 13 => .routeKeyEvent a0.toUInt8
  | 14 => .surface a0.toUInt32 (.drawText a1)
  | 15 =>
    .surface a0.toUInt32
      (.moveWindow (a1 >>> 32).toUInt32.toInt32 a1.toUInt32.toInt32)
  | 16 =>
    .surface a0.toUInt32 (.presentWindow
      (if a1 = 0 then none else some ((a1 >>> 32).toUInt32, a1.toUInt32)))
  | 17 => .fileServiceRequest a0.toUInt32
  | 18 => .fileServiceReply a1
  | 19 => .fileServicePoll a0 a1
  | 20 => .waitInterrupt .mouse
  | 21 => .ackInterrupt .mouse
  | 22 =>
    .mouseReport a0.toUInt16.toInt16.toInt32 (a0 >>> 16).toUInt16.toInt16.toInt32
      ((a0 >>> 32).toUInt8 &&& 1 != 0)
  | 23 => .surface a0.toUInt32 (.drawBitmap a1)
  | 24 => .fileServiceWrite a0.toUInt32 a1
  | 25 => .fileServiceGetWriteData a0 a1
  | 26 => .netServiceRequest a0.toUInt32
  | 27 => .netServiceReply a1
  | 28 => .netServicePoll a0 a1
  | 29 => .yield
  | 30 => .surface a0.toUInt32 .mapSurface
  | 31 =>
    .surface a0.toUInt32 (.commitSurface ((a1 >>> 48) &&& 0xFFFF).toUInt32
      ((a1 >>> 32) &&& 0xFFFF).toUInt32 ((a1 >>> 16) &&& 0xFFFF).toUInt32
      (a1 &&& 0xFFFF).toUInt32)
  | 32 => .introspectWindows a0 a1
  | 33 =>
    .agentUiAction a0.toUInt32 (a1 >>> 32).toUInt32
      ((a1 >>> 16) &&& 0xFFFF).toUInt32 (a1 &&& 0xFFFF).toUInt32
  | 34 => .processSpawn a0
  | 35 => .processWait a0
  | 36 => .processExit a0.toUInt32.toInt32
  | _ => .unknown num

/-! ## How a call ends -/

inductive WaitPoint where
  /-- `ipc::send`, until the endpoint's state is `IDLE`. -/
  | sendIdle (objectId : ObjectId) (msg : Message)
  /-- `ipc::send`, until the state is `TAKEN`. -/
  | sendTaken (objectId : ObjectId)
  /-- `interrupt_forward::wait_for_interrupt`. -/
  | interrupt (vector : UInt8)
  /-- `process::sys_wait`. -/
  | child (pid : UInt64)
  deriving DecidableEq

inductive Outcome where
  | returned (reply : Reply)
  | waiting (point : WaitPoint)
  | exited
  /-- `unwrap` of a static table that is not set up. -/
  | panicked
  deriving DecidableEq

def Outcome.ret (value : UInt64) : Outcome := .returned (.ret value)

/-- What happens behind a check that the caller has passed. -/
structure Handlers (δ : Type) where
  introspect : Kernel δ → UserMemory → (vaddr maxEntries : UInt64) → Reply
  auditQuery : Kernel δ → UserMemory → (vaddr maxEntries : UInt64) → Reply
  introspectWindows : Kernel δ → UserMemory → (vaddr maxEntries : UInt64) → Reply
  surface : SurfaceCall → ObjectId → UserMemory → Kernel δ → Reply × Kernel δ
  deliverKeyEvent : UInt8 → Kernel δ → Kernel δ
  reportMouse : (dx dy : Int32) → (pressed : Bool) → Kernel δ → Kernel δ
  injectAgentUiAction :
    (targetSurface actionType arg0 arg1 : UInt32) → Kernel δ → Bool × Kernel δ
  spawn : UInt64 → UserMemory → Kernel δ → Outcome × Kernel δ

/-! ## `tools.rs` -/

structure ToolDescriptor where
  syscallNum : UInt32
  requiredRights : Rights
  sideEffecting : UInt32

def toLeBytes (w : UInt32) : List UInt8 :=
  [w.toUInt8, (w >>> 8).toUInt8, (w >>> 16).toUInt8, (w >>> 24).toUInt8]

namespace ToolDescriptor

def size : Nat := 16

def catalog : List ToolDescriptor := [⟨7, .introspect, 0⟩, ⟨9, .auditQuery, 0⟩]

def bytes (d : ToolDescriptor) : List UInt8 :=
  toLeBytes d.syscallNum ++ toLeBytes d.requiredRights.bits ++
    toLeBytes d.sideEffecting ++ [0, 0, 0, 0]

end ToolDescriptor

/-- Syscall 8. -/
def toolCatalog (mem : UserMemory) (vaddr maxEntries : UInt64) : Reply :=
  let n := min maxEntries.toNat ToolDescriptor.catalog.length
  let totalBytes := n * ToolDescriptor.size
  if totalBytes = 0 ∨ !mem.writable vaddr (UInt64.ofNat totalBytes) then .ret failure
  else
    ⟨UInt64.ofNat n,
      some (vaddr, (ToolDescriptor.catalog.take n).flatMap ToolDescriptor.bytes)⟩

namespace Kernel

variable {δ : Type}

def channel (k : Kernel δ) : Channel → StaticCap
  | .ring3Ipc => k.ring3Ipc
  | .initSvc => k.initSvc
  | .fbReady => k.fbReady

def line (k : Kernel δ) : DriverLine → StaticCap
  | .kbd => k.kbd
  | .mouse => k.mouse

def answered (result : Reply × Kernel δ) : Outcome × Kernel δ :=
  (.returned result.1, result.2)

/-! ## Blocking calls -/

/-- `ipc::send` from its second loop on. -/
def sendTaken (k : Kernel δ) (objectId : ObjectId) : Outcome × Kernel δ :=
  match k.findEndpoint objectId with
  | none => (.ret failure, k)
  | some ep =>
    if ep.state = stateMessageTaken then
      (.ret 0, k.setEndpoint objectId ep.release)
    else (.waiting (.sendTaken objectId), k)

/-- `ipc::send` from its first loop on. -/
def sendIdle (k : Kernel δ) (objectId : ObjectId) (msg : Message) :
    Outcome × Kernel δ :=
  match k.findEndpoint objectId with
  | none => (.ret failure, k)
  | some ep =>
    if ep.state = stateIdle then
      ((k.setEndpoint objectId (ep.deposit msg)).record (.ipcSend objectId)).sendTaken
        objectId
    else (.waiting (.sendIdle objectId msg), k)

/-- `ipc::send`, as syscalls 2, 3 and 4 use it. -/
def send (k : Kernel δ) (static : StaticCap) (msg : Message) : Outcome × Kernel δ :=
  match static.table with
  | none => (.panicked, k)
  | some table =>
    match table.resolve static.cap .send k.core with
    | (.error _, core) => (.ret failure, { k with core })
    | (.ok cap, core) => { k with core }.sendIdle cap.objectId msg

def waitForInterrupt (k : Kernel δ) (vector : UInt8) : Outcome × Kernel δ :=
  if k.interrupts.pending vector then
    (.ret 0,
      { k with
        interrupts := { k.interrupts with
          pending := Function.update k.interrupts.pending vector false
          lastDelivered := vector } }.record (.interruptDelivered vector))
  else (.waiting (.interrupt vector), k)

def acknowledge (k : Kernel δ) (vector : UInt8) : Outcome × Kernel δ :=
  (.ret 0, k.record (.interruptAcknowledged vector))

/-- `driver::wait_interrupt` and `driver::ack_interrupt`, which differ in what
they do with the vector. -/
def withInterruptLine (k : Kernel δ) (static : StaticCap)
    (act : Kernel δ → UInt8 → Outcome × Kernel δ) : Outcome × Kernel δ :=
  match static.table with
  | none => (.panicked, k)
  | some table =>
    match table.resolve static.cap .wait k.core with
    | (.error _, core) => (.ret failure, { k with core })
    | (.ok cap, core) =>
      match core.objectKind cap.objectId with
      | some (.interruptLine vector) => act { k with core } vector
      | _ => (.ret failure, { k with core })

def waitChild (k : Kernel δ) (pid : UInt64) : Outcome × Kernel δ :=
  match Keyed.lookup Process.pid k.processes pid with
  | some ⟨_, _, _, .exited code⟩ =>
    (.ret code.toUInt32.toUInt64,
      { k with processes := Keyed.remove Process.pid pid k.processes })
  | _ => (.waiting (.child pid), k)

def sysWait (k : Kernel δ) (pid : UInt64) : Outcome × Kernel δ :=
  if k.processes.any (·.pid == pid) then k.waitChild pid else (.ret failure, k)

/-- `sys_exit`: the caller's entry is marked, and the thread is gone. -/
def sysExit (k : Kernel δ) (code : Int32) : Outcome × Kernel δ :=
  let tid := k.core.currentTid
  (.exited,
    { k with
      processes := Keyed.adjust Process.threadId tid
        (fun p => { p with status := .exited code }) k.processes
      threads := Function.update k.threads tid none })

/-- What a waiting call does when it looks again. -/
def resume (k : Kernel δ) : WaitPoint → Outcome × Kernel δ
  | .sendIdle objectId msg => k.sendIdle objectId msg
  | .sendTaken objectId => k.sendTaken objectId
  | .interrupt vector => k.waitForInterrupt vector
  | .child pid => k.waitChild pid

/-! ## Checks of the caller -/

/-- Go on if the running thread's own table resolves. Some arms record a
denial of their own beside the one `resolve` leaves. -/
def gate (k : Kernel δ) (capId : CapId) (required : Rights) (extra : List CapId)
    (granted : Capability → Kernel δ → Outcome × Kernel δ) : Outcome × Kernel δ :=
  match k.resolveCurrentCapability capId required with
  | (.ok cap, k) => granted cap k
  | (.error _, k) => (.ret failure, k.deny extra)

/-- Go on if the running thread may use the keyboard controller's port. -/
def portGate (k : Kernel δ) (granted : Kernel δ → Kernel δ) : Outcome × Kernel δ :=
  if k.currentHasPortAccess 0x60 then (.ret 0, granted k)
  else (.ret failure, k.record (.denied 0))

def agentIntrospectCap : CapId := 0
def agentAuditQueryCap : CapId := 1
def execCapSlot : CapId := 3

/-! ## Arguments in memory -/

/-- The `syscall_reply` of either service. -/
def readReplyRequest (mem : UserMemory) (vaddr : UInt64) :
    Option (UInt64 × UInt64 × UInt32) :=
  if mem.readable vaddr 24 then
    some (mem.u64 vaddr, mem.u64 (vaddr + 8), mem.u32 (vaddr + 16))
  else none

/-- The `syscall_poll` of either service. -/
def readPollRequest (mem : UserMemory) (vaddr : UInt64) : Option (UInt64 × UInt32) :=
  if mem.readable vaddr 16 then some (mem.u64 vaddr, mem.u32 (vaddr + 8)) else none

/-- `file_service::syscall_write`: a request without an offset is accepted
where the longer one cannot be read. -/
def readWriteRequest (mem : UserMemory) (vaddr : UInt64) :
    Option (UInt64 × UInt32 × UInt32) :=
  if mem.readable vaddr 16 then
    some (mem.u64 vaddr, mem.u32 (vaddr + 8), mem.u32 (vaddr + 12))
  else if mem.readable vaddr 12 then some (mem.u64 vaddr, mem.u32 (vaddr + 8), 0)
  else none

/-! ## The dispatcher -/

def syscall (h : Handlers δ) (k : Kernel δ) (mem : UserMemory) :
    Syscall → Outcome × Kernel δ
  | .log _ | .yield => (.ret 0, k)
  | .ipcSend channel word => k.send (k.channel channel) (.word word)
  | .waitInterrupt line => k.withInterruptLine (k.line line) waitForInterrupt
  | .ackInterrupt line => k.withInterruptLine (k.line line) acknowledge
  | .introspect vaddr maxEntries =>
    k.gate agentIntrospectCap .introspect [] fun _ k =>
      (.returned (h.introspect k mem vaddr maxEntries), k)
  | .tools vaddr maxEntries => (.returned (toolCatalog mem vaddr maxEntries), k)
  | .auditQuery vaddr maxEntries =>
    k.gate agentAuditQueryCap .auditQuery [] fun _ k =>
      (.returned (h.auditQuery k mem vaddr maxEntries), k)
  | .socketUse capId =>
    k.gate capId .send [] fun cap k =>
      if (k.core.objectKind cap.objectId).any isSocket then (.ret 0, k)
      else (.ret failure, k)
  | .surface capId call =>
    k.gate capId .map [] fun cap k =>
      match k.core.objectKind cap.objectId with
      | some (.surface ..) => answered (h.surface call cap.objectId mem k)
      | _ => (.ret failure, k)
  | .ipcTryReceive capId =>
    k.gate capId .receive [] fun cap k =>
      match k.tryReceiveOnObject cap.objectId with
      | (some msg, k) => (.ret msg.data[0], k)
      | (none, k) => (.ret failure, k)
  | .routeKeyEvent scancode => k.portGate (h.deliverKeyEvent scancode)
  | .mouseReport dx dy pressed => k.portGate (h.reportMouse dx dy pressed)
  | .fileServiceRequest arg0 => answered (k.perform mem (.requestFile arg0))
  | .fileServiceReply vaddr =>
    match readReplyRequest mem vaddr with
    | some (id, dataVaddr, len) => answered (k.perform mem (.fileReply id dataVaddr len))
    | none => (.ret failure, k)
  | .fileServicePoll id vaddr =>
    match readPollRequest mem vaddr with
    | some (outVaddr, outMaxLen) =>
      answered (k.perform mem (.filePoll id outVaddr outMaxLen))
    | none => (.ret failure, k)
  | .fileServiceWrite arg0 vaddr =>
    match readWriteRequest mem vaddr with
    | some (dataVaddr, len, offset) =>
      answered (k.perform mem (.writeFile arg0 dataVaddr len offset))
    | none => (.ret 0, k)
  | .fileServiceGetWriteData id outVaddr =>
    answered (k.perform mem (.getWriteData id outVaddr 1024))
  | .netServiceRequest socketCapId => answered (k.perform mem (.requestFetch socketCapId))
  | .netServiceReply vaddr =>
    match readReplyRequest mem vaddr with
    | some (id, dataVaddr, len) => answered (k.perform mem (.netReply id dataVaddr len))
    | none => (.ret failure, k)
  | .netServicePoll id vaddr =>
    match readPollRequest mem vaddr with
    | some (outVaddr, outMaxLen) =>
      answered (k.perform mem (.netPoll id outVaddr outMaxLen))
    | none => (.ret failure, k)
  | .introspectWindows vaddr maxEntries =>
    k.gate agentIntrospectCap .introspect [agentIntrospectCap] fun _ k =>
      (.returned (h.introspectWindows k mem vaddr maxEntries), k)
  | .agentUiAction target actionType arg0 arg1 =>
    k.gate agentIntrospectCap .introspect [agentIntrospectCap] fun _ k =>
      match h.injectAgentUiAction target actionType arg0 arg1 k with
      | (true, k) => (.ret 0, k.record (.agentUiAction target actionType))
      | (false, k) => (.ret failure, k)
  | .processSpawn vaddr =>
    k.gate execCapSlot .exec [execCapSlot] fun _ k => h.spawn vaddr mem k
  | .processWait pid => k.sysWait pid
  | .processExit code => k.sysExit code
  | .unknown _ => (.ret failure, k)

def syscallDispatch (h : Handlers δ) (k : Kernel δ) (mem : UserMemory)
    (num a0 a1 : UInt64) : Outcome × Kernel δ :=
  k.syscall h mem (.decode num a0 a1)

end Kernel

end AgenticOS
