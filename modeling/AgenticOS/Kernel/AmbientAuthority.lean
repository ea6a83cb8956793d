import AgenticOS.Kernel.Syscall

/-!
# System calls without authority

A thread whose table resolves nothing and that may use no port can still make
any system call. Most of them are checked against its own table, and then only
a denial is left behind. Syscalls 2 to 6, 20 and 21 resolve a kernel-wide pair
instead, whoever calls; each of them reaches the one endpoint or the one
interrupt line that its pair names, and nothing else.

`Kernel.Confined` is what calls of these two kinds leave as it was. Six calls
and the directory operations of syscall 24 are outside of it: they look at
nothing that belongs to the caller.
-/

namespace AgenticOS

open Foundation Function Option
open List hiding next

/-! ## What such a thread reaches -/

/-- The part of an endpoint that the rendezvous does not use. -/
def Endpoint.mailbox {μ : Type} (ep : Endpoint μ) :
    Fin queueDepth × Fin queueDepth × UInt8 × (Fin queueDepth → μ) :=
  (ep.qHead, ep.qTail, ep.qLen, ep.qSlots)

/-- What `sys_exit` never changes in an entry. -/
def Process.identity (p : Process) : UInt64 × ThreadId × UInt64 :=
  (p.pid, p.threadId, p.addressSpace)

variable {δ : Type}

namespace Kernel

/-- No slot of the thread's table resolves, and its bitmap denies every port. -/
structure Powerless (k : Kernel δ) (tid : ThreadId) : Prop where
  caps : ∀ t, k.threads tid = some t → ∀ c r cap, r ≠ Rights.none →
    (t.capTable.resolve c r k.core).1 ≠ .ok cap
  ports : ∀ t, k.threads tid = some t → ∀ port, isPortAllowed t.iopb port = false

def ChannelTo (k : Kernel δ) (objectId : ObjectId) : Prop :=
  ∃ c table, (k.channel c).table = some table ∧
    k.sendTarget table (k.channel c).cap = some objectId

def DriverVector (k : Kernel δ) (vector : UInt8) : Prop :=
  ∃ l table cap, (k.line l).table = some table ∧
    (table.resolve (k.line l).cap .wait k.core).1 = .ok cap ∧
    k.core.objectKind cap.objectId = some (.interruptLine vector)

def MayWait (k : Kernel δ) : WaitPoint → Prop
  | .sendIdle objectId _ | .sendTaken objectId => k.ChannelTo objectId
  | .interrupt vector => k.DriverVector vector
  | .child _ => False

def MayRecord (k : Kernel δ) : AuditEvent → Prop
  | .denied _ => True
  | .ipcSend objectId => k.ChannelTo objectId
  | .interruptDelivered vector | .interruptAcknowledged vector => k.DriverVector vector
  | _ => False

/-- What the thread's calls leave as it was, and what they may touch: the
rendezvous cells and the interrupt lines behind the kernel-wide pairs, the
audit log, and the thread itself when it exits. -/
structure Confined (tid : ThreadId) (k k' : Kernel δ) : Prop where
  objects : k'.core.objects = k.core.objects
  others : ∀ t, t ≠ tid → k'.threads t = k.threads t
  own : k'.threads tid = k.threads tid ∨ k'.threads tid = none
  channels : k'.channel = k.channel
  lines : k'.line = k.line
  kernelPml4 : k'.kernelPml4 = k.kernelPml4
  files : k'.files = k.files
  nets : k'.nets = k.nets
  desktop : k'.desktop = k.desktop
  endpointIds : k'.endpoints.map (·.objectId) = k.endpoints.map (·.objectId)
  mailboxes : ∀ o, (k'.findEndpoint o).map Endpoint.mailbox =
    (k.findEndpoint o).map Endpoint.mailbox
  cells : ∀ o, ¬ k.ChannelTo o → k'.findEndpoint o = k.findEndpoint o
  registered : k'.interrupts.registered = k.interrupts.registered
  pending : ∀ v, ¬ k.DriverVector v → k'.interrupts.pending v = k.interrupts.pending v
  lastDelivered : k'.interrupts.lastDelivered = k.interrupts.lastDelivered ∨
    k.DriverVector k'.interrupts.lastDelivered
  processIds : k'.processes.map Process.identity = k.processes.map Process.identity
  otherProcesses : k'.processes.filter (·.threadId ≠ tid) =
    k.processes.filter (·.threadId ≠ tid)
  events : ∃ es, k'.core.audit.events = k.core.audit.events ++ es ∧
    ∀ e ∈ es, k.MayRecord e

theorem channelTo_congr {k k' : Kernel δ} (hobjects : k'.core.objects = k.core.objects)
    (hchannels : k'.channel = k.channel) : k'.ChannelTo = k.ChannelTo := by
  funext o
  unfold ChannelTo
  simp only [hchannels, sendTarget_congr hobjects]

theorem driverVector_congr {k k' : Kernel δ}
    (hobjects : k'.core.objects = k.core.objects) (hlines : k'.line = k.line) :
    k'.DriverVector = k.DriverVector := by
  funext v
  unfold DriverVector
  simp only [hlines, CapabilityTable.resolve_congr _ _ _ hobjects, Core.objectKind_congr hobjects]

variable {tid : ThreadId} {k k₁ k₂ : Kernel δ}

namespace Confined

section

variable (h : Confined tid k k₁)

include h

theorem channelTo : k₁.ChannelTo = k.ChannelTo :=
  channelTo_congr h.objects h.channels

theorem driverVector : k₁.DriverVector = k.DriverVector :=
  driverVector_congr h.objects h.lines

theorem mayWait (p : WaitPoint) : k₁.MayWait p = k.MayWait p := by
  cases p <;> simp only [MayWait, h.channelTo, h.driverVector]

theorem mayRecord (e : AuditEvent) : k₁.MayRecord e = k.MayRecord e := by
  cases e <;> simp only [MayRecord, h.channelTo, h.driverVector]

end

theorem refl (tid : ThreadId) (k : Kernel δ) : Confined tid k k where
  objects := rfl
  others _ _ := rfl
  own := .inl rfl
  channels := rfl
  lines := rfl
  kernelPml4 := rfl
  files := rfl
  nets := rfl
  desktop := rfl
  endpointIds := rfl
  mailboxes _ := rfl
  cells _ _ := rfl
  registered := rfl
  pending _ _ := rfl
  lastDelivered := .inl rfl
  processIds := rfl
  otherProcesses := rfl
  events := ⟨[], (append_nil _).symm, nofun⟩

theorem trans (h1 : Confined tid k k₁) (h2 : Confined tid k₁ k₂) : Confined tid k k₂ where
  objects := h2.objects.trans h1.objects
  others t ht := (h2.others t ht).trans (h1.others t ht)
  own := by
    obtain h | h := h2.own
    · rw [h]
      exact h1.own
    · exact .inr h
  channels := h2.channels.trans h1.channels
  lines := h2.lines.trans h1.lines
  kernelPml4 := h2.kernelPml4.trans h1.kernelPml4
  files := h2.files.trans h1.files
  nets := h2.nets.trans h1.nets
  desktop := h2.desktop.trans h1.desktop
  endpointIds := h2.endpointIds.trans h1.endpointIds
  mailboxes o := (h2.mailboxes o).trans (h1.mailboxes o)
  cells o ho := (h2.cells o (h1.channelTo ▸ ho)).trans (h1.cells o ho)
  registered := h2.registered.trans h1.registered
  pending v hv := (h2.pending v (h1.driverVector ▸ hv)).trans (h1.pending v hv)
  lastDelivered := by
    obtain h | h := h2.lastDelivered
    · rw [h]
      exact h1.lastDelivered
    · rw [h1.driverVector] at h
      exact .inr h
  processIds := h2.processIds.trans h1.processIds
  otherProcesses := h2.otherProcesses.trans h1.otherProcesses
  events := by
    obtain ⟨es1, he1, hm1⟩ := h1.events
    obtain ⟨es2, he2, hm2⟩ := h2.events
    refine ⟨es1 ++ es2, by rw [he2, he1, append_assoc], ?_⟩
    intro e he
    obtain he | he := mem_append.mp he
    · exact hm1 e he
    · exact h1.mayRecord e ▸ hm2 e he

/-! ### The changes that occur -/

theorem record (h : Confined tid k k₁) {e : AuditEvent} (he : k.MayRecord e) :
    Confined tid k (k₁.record e) := by
  rw [← h.mayRecord] at he
  exact h.trans { refl tid k₁ with
    events := ⟨[e], Core.record_events _ _, by simpa using he⟩ }

theorem deny (tid : ThreadId) (k : Kernel δ) (ids : List CapId) : Confined tid k (k.deny ids) :=
  { refl tid k with
    objects := Core.deny_objects _ _
    events := ⟨ids.map .denied, Core.deny_events _ _, by simp [MayRecord]⟩ }

theorem onThread (tid : ThreadId) (k : Kernel δ) : Confined tid k (k.onThread tid) :=
  { refl tid k with }

theorem setEndpoint {o : ObjectId} {ep ep' : Endpoint Message} (h : k.ChannelTo o)
    (hep : k.findEndpoint o = some ep) (hbox : ep'.mailbox = ep.mailbox) :
    Confined tid k (k.setEndpoint o ep') := by
  have hfind : ∀ o', (k.setEndpoint o ep').findEndpoint o' =
      if o' = o then some ep' else k.findEndpoint o' := by
    intro o'
    unfold findEndpoint Kernel.setEndpoint
    rw [Keyed.lookup_adjust _ (by intro _; rfl)]
    split_ifs with ho
    · obtain ⟨_, hslot, -⟩ := map_eq_some_iff.mp hep
      rw [hslot]
      rfl
    · rfl
  refine { refl tid k with
    endpointIds := Keyed.map_adjust _ (by intro _; rfl) _ _
    mailboxes := ?_
    cells := ?_ }
  · intro o'
    rw [hfind]
    split_ifs with ho
    · rw [ho, hep, map_some, map_some, hbox]
    · rfl
  · intro o' ho'
    rw [hfind, if_neg]
    rintro rfl
    exact ho' h

theorem deliver (tid : ThreadId) {v : UInt8} (h : k.DriverVector v) :
    Confined tid k { k with
      interrupts := { k.interrupts with
        pending := update k.interrupts.pending v false
        lastDelivered := v } } :=
  { refl tid k with
    pending := by
      intro _ hv'
      refine update_of_ne ?_ _ _
      rintro rfl
      exact hv' h
    lastDelivered := .inr h }

theorem exit (k : Kernel δ) (code : Int32) : Confined k.core.currentTid k (k.sysExit code).2 :=
  { refl k.core.currentTid k with
    others := fun _ ht => update_of_ne ht _ _
    own := .inr (update_self _ _ _)
    processIds := Keyed.map_adjust _ (by intro _; rfl) _ _
    otherProcesses := Keyed.filter_adjust _ (by intro _; rfl) _ _ }

end Confined

/-! ## Calls that do no more than that -/

def withRequests (k : Kernel δ) (fs : List (RequestSlot FileRequest))
    (ns : List (RequestSlot NetRequest)) : Kernel δ :=
  { k with
    files := { k.files with requests := fs }
    nets := { k.nets with requests := ns } }

variable (k) (fs : List (RequestSlot FileRequest)) (ns : List (RequestSlot NetRequest))

@[simp] theorem withRequests_findEndpoint :
    (k.withRequests fs ns).findEndpoint = k.findEndpoint := rfl

@[simp] theorem withRequests_core : (k.withRequests fs ns).core = k.core := rfl

@[simp] theorem withRequests_current : (k.withRequests fs ns).current = k.current := rfl

@[simp] theorem withRequests_channel : (k.withRequests fs ns).channel = k.channel := rfl

@[simp] theorem withRequests_line : (k.withRequests fs ns).line = k.line := rfl

theorem Confined.withRequests_self {tid : ThreadId} {k k' : Kernel δ} (h : Confined tid k k') :
    k'.withRequests k.files.requests k.nets.requests = k' := by
  unfold withRequests
  rw [← h.files, ← h.nets]

/-- What is done is confined, waits only behind the kernel-wide pairs, and
does not depend on which requests are in flight. -/
def Harmless (tid : ThreadId) (k : Kernel δ) (act : Kernel δ → Outcome × Kernel δ) :
    Prop :=
  ∃ out k', Confined tid k k' ∧ (∀ p, out = .waiting p → k.MayWait p) ∧
    ∀ fs ns, act (k.withRequests fs ns) = (out, k'.withRequests fs ns)

namespace Harmless

variable {k} {act act₁ : Kernel δ → Outcome × Kernel δ}

theorem of_returned (reply : Reply) (h : Confined tid k k₁)
    (hact : ∀ fs ns, act (k.withRequests fs ns) = (.returned reply, k₁.withRequests fs ns)) :
    Harmless tid k act := by
  refine ⟨.returned reply, k₁, h, ?_, hact⟩
  intro p hp
  cases hp

/-- A call that gets to another point of its code first. -/
theorem after (h : Confined tid k k₁) (h1 : Harmless tid k₁ act₁)
    (hact : ∀ fs ns, act (k.withRequests fs ns) = act₁ (k₁.withRequests fs ns)) :
    Harmless tid k act := by
  obtain ⟨out, k₂, hconf, hwait, hact1⟩ := h1
  refine ⟨out, k₂, h.trans hconf, ?_, fun fs ns => (hact fs ns).trans (hact1 fs ns)⟩
  intro p hp
  rw [← h.mayWait]
  exact hwait p hp

end Harmless

/-! ### Behind the kernel-wide pairs -/

section

variable {k}

theorem harmless_sendTaken {o : ObjectId} (h : k.ChannelTo o) : Harmless tid k (·.sendTaken o) := by
  cases hep : k.findEndpoint o with
  | none =>
    refine .of_returned (.ret failure) (.refl tid k) fun fs ns => ?_
    simp only [sendTaken, withRequests_findEndpoint, hep, Outcome.ret]
  | some ep =>
    by_cases hstate : ep.state = stateMessageTaken
    · have hset : Confined tid k (k.setEndpoint o ep.release) := .setEndpoint h hep rfl
      refine .of_returned (.ret 0) hset fun fs ns => ?_
      simp only [sendTaken, withRequests_findEndpoint, hep, if_pos hstate, Outcome.ret]
      rfl
    · refine ⟨.waiting (.sendTaken o), k, .refl tid k, ?_, fun fs ns => ?_⟩
      · rintro _ ⟨⟩
        exact h
      · simp only [sendTaken, withRequests_findEndpoint, hep, if_neg hstate]

theorem harmless_sendIdle {o : ObjectId} (h : k.ChannelTo o) (msg : Message) :
    Harmless tid k (·.sendIdle o msg) := by
  cases hep : k.findEndpoint o with
  | none =>
    refine .of_returned (.ret failure) (.refl tid k) fun fs ns => ?_
    simp only [sendIdle, withRequests_findEndpoint, hep, Outcome.ret]
  | some ep =>
    by_cases hstate : ep.state = stateIdle
    · -- the message is in the cell; what follows is the wait for `TAKEN`
      have hset : Confined tid k (k.setEndpoint o (ep.deposit msg)) :=
        .setEndpoint h hep rfl
      have hrec := hset.record (show k.MayRecord (.ipcSend o) from h)
      refine .after hrec (harmless_sendTaken (hrec.channelTo.symm ▸ h)) fun fs ns => ?_
      simp only [sendIdle, withRequests_findEndpoint, hep, if_pos hstate]
      rfl
    · refine ⟨.waiting (.sendIdle o msg), k, .refl tid k, ?_, fun fs ns => ?_⟩
      · rintro _ ⟨⟩
        exact h
      · simp only [sendIdle, withRequests_findEndpoint, hep, if_neg hstate]

theorem harmless_send (c : Channel) (msg : Message) :
    Harmless tid k fun k => k.send (k.channel c) msg := by
  cases htable : (k.channel c).table with
  | none =>
    refine ⟨.panicked, k, .refl tid k, nofun, fun fs ns => ?_⟩
    simp only [send, withRequests_channel, htable]
  | some table =>
    obtain ⟨cap, hres⟩ | ⟨e, hres⟩ := table.resolve_cases (k.channel c).cap .send k.core
    · have hto : k.ChannelTo cap.objectId :=
        ⟨c, table, htable, by simp only [sendTarget, hres]⟩
      refine .after (.refl tid k) (harmless_sendIdle hto msg) fun fs ns => ?_
      simp only [send, withRequests_channel, withRequests_core, htable, hres]
      rfl
    · refine .of_returned (.ret failure) (.deny tid k [(k.channel c).cap]) fun fs ns => ?_
      simp only [send, withRequests_channel, withRequests_core, htable, hres, Outcome.ret]
      rfl

theorem harmless_waitForInterrupt {v : UInt8} (h : k.DriverVector v) :
    Harmless tid k (·.waitForInterrupt v) := by
  by_cases hpending : k.interrupts.pending v = true
  · have hrec := (Confined.deliver tid h).record (show k.MayRecord (.interruptDelivered v) from h)
    exact .of_returned (.ret 0) hrec fun fs ns => if_pos hpending
  · refine ⟨.waiting (.interrupt v), k, .refl tid k, ?_, fun fs ns => if_neg hpending⟩
    rintro _ ⟨⟩
    exact h

theorem harmless_acknowledge {v : UInt8} (h : k.DriverVector v) :
    Harmless tid k (·.acknowledge v) :=
  have hrec := (Confined.refl tid k).record (show k.MayRecord (.interruptAcknowledged v) from h)
  .of_returned (.ret 0) hrec fun _ _ => rfl

theorem harmless_withInterruptLine (l : DriverLine) {act : Kernel δ → UInt8 → Outcome × Kernel δ}
    (hact : ∀ v, k.DriverVector v → Harmless tid k (act · v)) :
    Harmless tid k fun k => k.withInterruptLine (k.line l) act := by
  cases htable : (k.line l).table with
  | none =>
    refine ⟨.panicked, k, .refl tid k, nofun, fun fs ns => ?_⟩
    simp only [withInterruptLine, withRequests_line, htable]
  | some table =>
    obtain ⟨cap, hres⟩ | ⟨e, hres⟩ := table.resolve_cases (k.line l).cap .wait k.core
    · by_cases hkind : ∃ v, k.core.objectKind cap.objectId = some (.interruptLine v)
      · obtain ⟨v, hv⟩ := hkind
        have hvec : k.DriverVector v := ⟨l, table, cap, htable, by rw [hres], hv⟩
        refine .after (.refl tid k) (hact v hvec) fun fs ns => ?_
        simp only [withInterruptLine, withRequests_line, withRequests_core, htable, hres, hv]
        rfl
      · refine .of_returned (.ret failure) (.refl tid k) fun fs ns => ?_
        simp only [withInterruptLine, withRequests_line, withRequests_core, htable, hres]
        split
        · rename_i v hv
          exact absurd ⟨v, hv⟩ hkind
        · rfl
    · refine .of_returned (.ret failure) (.deny tid k [(k.line l).cap]) fun fs ns => ?_
      simp only [withInterruptLine, withRequests_line, withRequests_core, htable, hres]
      rfl

end

/-! ### Checked against the caller

The checks look at the registry and the running thread only. -/

theorem withRequests_resolveCurrentCapability (c : CapId) (r : Rights) :
    (k.withRequests fs ns).resolveCurrentCapability c r = ((k.resolveCurrentCapability c r).1,
        (k.resolveCurrentCapability c r).2.withRequests fs ns) := by
  unfold resolveCurrentCapability
  rw [withRequests_current]
  cases k.current <;> rfl

theorem withRequests_resolveFileCapability (c : CapId) (r : Rights) :
    (k.withRequests fs ns).resolveFileCapability c r = ((k.resolveFileCapability c r).1,
        (k.resolveFileCapability c r).2.withRequests fs ns) := by
  unfold resolveFileCapability
  rw [withRequests_resolveCurrentCapability]
  rcases k.resolveCurrentCapability c r with ⟨_ | _, _⟩
  · rfl
  · dsimp only
    rw [withRequests_core]
    split <;> rfl

theorem withRequests_currentHasFileCapability (inode : UInt32) (r : Rights) :
    (k.withRequests fs ns).currentHasFileCapability inode r =
      ((k.currentHasFileCapability inode r).1,
        (k.currentHasFileCapability inode r).2.withRequests fs ns) := by
  unfold currentHasFileCapability
  rw [withRequests_current]
  cases k.current <;> rfl

theorem withRequests_currentHasAnyFileCapability (r : Rights) :
    (k.withRequests fs ns).currentHasAnyFileCapability r = ((k.currentHasAnyFileCapability r).1,
        (k.currentHasAnyFileCapability r).2.withRequests fs ns) := by
  unfold currentHasAnyFileCapability
  rw [withRequests_current]
  cases k.current <;> rfl

theorem withRequests_authorizeFile (arg0 : UInt32) (r : Rights) :
    (k.withRequests fs ns).authorizeFile arg0 r =
      ((k.authorizeFile arg0 r).1, (k.authorizeFile arg0 r).2.withRequests fs ns) := by
  unfold authorizeFile
  rw [withRequests_resolveFileCapability]
  rcases k.resolveFileCapability arg0 r with ⟨_ | _, k₁⟩
  · dsimp only
    rw [withRequests_currentHasFileCapability]
    rcases k₁.currentHasFileCapability arg0 r with ⟨_ | _, k₂⟩
    · dsimp only
      rw [withRequests_currentHasAnyFileCapability]
      rcases k₂.currentHasAnyFileCapability r with ⟨_ | _, k3⟩ <;> rfl
    · rfl
  · rfl

namespace Powerless

variable {k} {k' : Kernel δ} {r : Rights}

theorem of_confined (hp : k.Powerless tid) (h : Confined tid k k') : k'.Powerless tid := by
  have hthread : ∀ t, k'.threads tid = some t → k.threads tid = some t := by
    intro t ht
    obtain hown | hown := h.own
    · rw [← hown, ht]
    · rw [hown] at ht
      cases ht
  constructor
  · intro t ht c r cap hr
    rw [CapabilityTable.resolve_congr _ _ _ h.objects]
    exact hp.caps t (hthread t ht) c r cap hr
  · intro t ht
    exact hp.ports t (hthread t ht)

variable (hp : k.Powerless k.core.currentTid) (hr : r ≠ Rights.none)

include hp hr

theorem resolveCurrentCapability (c : CapId) :
    ∃ e ids, k.resolveCurrentCapability c r = (.error e, k.deny ids) := by
  obtain ⟨t, cap, ht, hres, -⟩ | ⟨e, ids, -, h⟩ := k.resolveCurrentCapability_cases c r
  · exact absurd hres (hp.caps t ht c r cap hr)
  · exact ⟨e, ids, h⟩

theorem fileGrant (arg0 : UInt32) : k.fileGrant arg0 r = none := by
  -- a scan that finds something returns an id that resolves
  have hscan : ∀ t wanted, k.current = some t →
      (t.capTable.scanFrom wanted r t.capTable.slots 0 k.core).1 = none := by
    intro t wanted ht
    rw [eq_none_iff_forall_ne_some]
    intro c hc
    obtain ⟨cap, hres⟩ := CapabilityTable.scanFrom_resolves hc
    exact hp.caps t ht c r cap hr hres
  have hfile : (k.currentHasFileCapability arg0 r).1 = false := by
    unfold currentHasFileCapability
    cases ht : k.current with
    | none => rfl
    | some t => exact congrArg isSome (hscan t _ ht)
  have hany : (k.currentHasAnyFileCapability r).1 = false := by
    unfold currentHasAnyFileCapability
    cases ht : k.current with
    | none => rfl
    | some t => exact congrArg isSome (hscan t _ ht)
  obtain ⟨e, _, hres⟩ := hp.resolveCurrentCapability hr arg0
  unfold Kernel.fileGrant
  rw [hfile, hany, resolveFileCapability, hres]
  rfl

theorem authorizeFile (arg0 : UInt32) : ∃ ids, k.authorizeFile arg0 r = (none, k.deny ids) := by
  obtain ⟨ids, h, -⟩ := k.authorizeFile_eq arg0 r
  rw [hp.fileGrant hr] at h
  exact ⟨ids, h⟩

omit hr in
theorem portAccess (port : UInt16) : k.currentHasPortAccess port = false := by
  unfold currentHasPortAccess
  cases ht : k.current with
  | none => rfl
  | some t => exact hp.ports t ht port

/-- **A check against the caller's own table.** It leaves denials. -/
theorem gate (tid : ThreadId) (c : CapId) (extra : List CapId)
    (granted : Capability → Kernel δ → Outcome × Kernel δ) :
    Harmless tid k (·.gate c r extra granted) := by
  obtain ⟨e, ids, hres⟩ := hp.resolveCurrentCapability hr c
  refine .of_returned (.ret failure) (.deny tid k (ids ++ extra)) fun _ _ => ?_
  unfold Kernel.gate
  rw [withRequests_resolveCurrentCapability, hres, deny_append]
  rfl

omit hr in
theorem portGate (tid : ThreadId) (granted : Kernel δ → Kernel δ) :
    Harmless tid k (·.portGate granted) := by
  refine .of_returned (.ret failure) (.deny tid k [0]) fun fs ns => ?_
  have haccess : (k.withRequests fs ns).currentHasPortAccess 0x60 = false :=
    hp.portAccess 0x60
  unfold Kernel.portGate
  rw [haccess]
  rfl

omit hr in
theorem requestFile (tid : ThreadId) (mem : UserMemory) (arg0 : UInt32) :
    Harmless tid k fun k => answered (k.perform mem (.requestFile arg0)) := by
  obtain ⟨ids, h⟩ := hp.authorizeFile (r := .read) (by decide) arg0
  refine .of_returned (.ret 0) (.deny tid k ids) fun _ _ => ?_
  simp only [perform, Kernel.requestFile, withRequests_authorizeFile, h, answered]

omit hr in
theorem writeFile (tid : ThreadId) {mem : UserMemory} (hmem : mem.pml4 ≠ k.kernelPml4)
    {arg0 : UInt32} (hop : opOf arg0 = 0) (dataVaddr : UInt64) (len offset : UInt32) :
    Harmless tid k fun k =>
      answered (k.perform mem (.writeFile arg0 dataVaddr len offset)) := by
  obtain ⟨ids, h⟩ := hp.authorizeFile (r := .write) (by decide) arg0
  refine .of_returned (.ret 0) (.deny tid k ids) fun fs ns => ?_
  have hchecked : opOf arg0 = 0 ∧ mem.pml4 ≠ (k.withRequests fs ns).kernelPml4 :=
    ⟨hop, hmem⟩
  simp only [perform, Kernel.writeFile, if_pos hchecked, withRequests_authorizeFile, h, answered]

omit hr in
theorem requestFetch (tid : ThreadId) (mem : UserMemory) (socketCapId : CapId) :
    Harmless tid k fun k => answered (k.perform mem (.requestFetch socketCapId)) := by
  by_cases hserver : k.nets.serverSendCap = noServer
  · refine .of_returned (.ret 0) (.refl tid k) fun fs ns => ?_
    have hserver' : (k.withRequests fs ns).nets.serverSendCap = noServer := hserver
    simp only [perform, Kernel.requestFetch, if_pos hserver', answered]
  · obtain ⟨e, ids, h⟩ := hp.resolveCurrentCapability (r := .send) (by decide) socketCapId
    refine .of_returned (.ret 0) (.deny tid k ids) fun fs ns => ?_
    have hserver' : (k.withRequests fs ns).nets.serverSendCap ≠ noServer := hserver
    simp only [perform, Kernel.requestFetch, if_neg hserver', authorizeFetch,
      withRequests_resolveCurrentCapability, h, answered]

end Powerless

end Kernel

/-! ## All calls of such a thread -/

/-- The calls that look at the caller's authority or at a kernel-wide pair, or
at nothing beyond the caller. The others take a request id or a pid from
anyone, and syscall 24 checks plain writes only. -/
def Syscall.inScope : Syscall → Bool
  | .fileServiceReply _ | .fileServicePoll .. | .fileServiceGetWriteData ..
  | .netServiceReply _ | .netServicePoll .. | .processWait _ => false
  | .fileServiceWrite arg0 _ => Kernel.opOf arg0 = 0
  | _ => true

namespace Kernel

theorem Powerless.syscall {k : Kernel δ} (hp : k.Powerless k.core.currentTid)
    (h : Handlers δ) {mem : UserMemory} (hmem : mem.pml4 ≠ k.kernelPml4) {call : Syscall}
    (hscope : call.inScope = true) :
    Harmless k.core.currentTid k fun k => k.syscall h mem call := by
  cases call with
  | log | yield => exact .of_returned (.ret 0) (.refl _ k) fun _ _ => rfl
  | unknown => exact .of_returned (.ret failure) (.refl _ k) fun _ _ => rfl
  | tools vaddr maxEntries =>
    exact .of_returned (toolCatalog mem vaddr maxEntries) (.refl _ k) fun _ _ => rfl
  -- the kernel-wide pairs
  | ipcSend channel word => exact harmless_send channel (.word word)
  | waitInterrupt line =>
    exact harmless_withInterruptLine line fun _ => harmless_waitForInterrupt
  | ackInterrupt line =>
    exact harmless_withInterruptLine line fun _ => harmless_acknowledge
  -- the caller's own table or ports
  | introspect | auditQuery | socketUse | surface | ipcTryReceive | introspectWindows
  | agentUiAction | processSpawn => exact hp.gate (by decide) _ _ _ _
  | routeKeyEvent | mouseReport => exact hp.portGate _ _
  | fileServiceRequest arg0 => exact hp.requestFile _ mem arg0
  | netServiceRequest socketCapId => exact hp.requestFetch _ mem socketCapId
  | fileServiceWrite arg0 vaddr =>
    have hop : opOf arg0 = 0 := of_decide_eq_true hscope
    simp only [Kernel.syscall]
    cases readWriteRequest mem vaddr with
    | none => exact .of_returned (.ret 0) (.refl _ k) fun _ _ => rfl
    | some => exact hp.writeFile _ hmem hop _ _ _
  | processExit code =>
    exact ⟨.exited, (k.sysExit code).2, .exit k code, nofun, fun _ _ => rfl⟩
  -- out of scope
  | fileServiceReply | fileServicePoll | fileServiceGetWriteData | netServiceReply
  | netServicePoll | processWait => cases hscope

theorem harmless_resume {tid : ThreadId} {k : Kernel δ} {p : WaitPoint}
    (h : k.MayWait p) : Harmless tid k (·.resume p) := by
  cases p with
  | sendIdle o msg => exact harmless_sendIdle h msg
  | sendTaken => exact harmless_sendTaken h
  | interrupt => exact harmless_waitForInterrupt h
  | child => exact h.elim

end Kernel

inductive CallerMode where
  | running
  | waiting (point : WaitPoint)
  | stopped

/-- One thread that makes system calls, and the kernel it makes them to. -/
structure Caller (δ : Type) where
  kernel : Kernel δ
  mode : CallerMode

inductive CallerStep where
  | call (mem : UserMemory) (num a0 a1 : UInt64)
  | resume

/-- A call in scope, from the thread's own address space. -/
def CallerStep.InScope (kernelPml4 : UInt64) : CallerStep → Prop
  | .call mem num a0 a1 =>
    mem.pml4 ≠ kernelPml4 ∧ (Syscall.decode num a0 a1).inScope = true
  | .resume => True

instance (kernelPml4 : UInt64) : (a : CallerStep) → Decidable (a.InScope kernelPml4)
  | .call .. => inferInstanceAs (Decidable (_ ∧ _))
  | .resume => .isTrue trivial

namespace Caller

def start (k : Kernel δ) : Caller δ := ⟨k, .running⟩

def settle : Outcome × Kernel δ → Option Outcome × Caller δ
  | (.returned reply, k) => (some (.returned reply), ⟨k, .running⟩)
  | (.waiting p, k) => (some (.waiting p), ⟨k, .waiting p⟩)
  | (out, k) => (some out, ⟨k, .stopped⟩)

/-- A running thread makes a call, a waiting one looks again; a thread that
cannot do what the step says does nothing. -/
def step (h : Handlers δ) (tid : ThreadId) (s : Caller δ) :
    CallerStep → Option Outcome × Caller δ
  | .call mem num a0 a1 =>
    match s.mode with
    | .running => settle ((s.kernel.onThread tid).syscallDispatch h mem num a0 a1)
    | _ => (none, s)
  | .resume =>
    match s.mode with
    | .waiting p => settle ((s.kernel.onThread tid).resume p)
    | _ => (none, s)

def withRequests (s : Caller δ) (fs : List (RequestSlot FileRequest))
    (ns : List (RequestSlot NetRequest)) : Caller δ :=
  { s with kernel := s.kernel.withRequests fs ns }

def WaitsInScope (s : Caller δ) : Prop :=
  ∀ p, s.mode = .waiting p → s.kernel.MayWait p

variable {h : Handlers δ} {tid : ThreadId}

theorem settle_kernel (result : Outcome × Kernel δ) : (settle result).2.kernel = result.2 := by
  obtain ⟨_ | _ | _ | _, k⟩ := result <;> rfl

theorem settle_withRequests (out : Outcome) (k : Kernel δ)
    (fs : List (RequestSlot FileRequest)) (ns : List (RequestSlot NetRequest)) :
    settle (out, k.withRequests fs ns) =
      ((settle (out, k)).1, (settle (out, k)).2.withRequests fs ns) := by
  cases out <;> rfl

theorem settle_waits {out : Outcome} {k : Kernel δ} {p : WaitPoint}
    (h : (settle (out, k)).2.mode = .waiting p) : out = .waiting p := by
  cases out <;> cases h
  rfl

/-- What a step guarantees, given what it does with other requests in
flight. -/
structure Harmless (tid : ThreadId) (s : Caller δ) (result : Option Outcome × Caller δ)
    (replay : List (RequestSlot FileRequest) → List (RequestSlot NetRequest) →
      Option Outcome × Caller δ) : Prop where
  confined : s.kernel.Confined tid result.2.kernel
  waits : result.2.WaitsInScope
  blind : ∀ fs ns, replay fs ns = (result.1, result.2.withRequests fs ns)

theorem harmless_settle {k : Kernel δ} {mode : CallerMode}
    {act : Kernel δ → Outcome × Kernel δ} (hact : (k.onThread tid).Harmless tid act) :
    Harmless tid ⟨k, mode⟩ (settle (act (k.onThread tid))) fun fs ns =>
      settle (act ((k.onThread tid).withRequests fs ns)) := by
  obtain ⟨out, k', hconf, hwait, hblind⟩ := hact
  have hself : act (k.onThread tid) = (out, k') := by
    have hown := hblind (k.onThread tid).files.requests (k.onThread tid).nets.requests
    rw [hconf.withRequests_self] at hown
    exact hown
  rw [hself]
  refine ⟨?_, ?_, ?_⟩
  · rw [settle_kernel]
    exact (Kernel.Confined.onThread tid k).trans hconf
  · intro p hp
    rw [settle_kernel, hconf.mayWait]
    exact hwait p (settle_waits hp)
  · intro fs ns
    rw [hblind]
    exact settle_withRequests out k' fs ns

theorem harmless_step {s : Caller δ} (hp : s.kernel.Powerless tid) (hw : s.WaitsInScope)
    {a : CallerStep} (ha : a.InScope s.kernel.kernelPml4) :
    Harmless tid s (step h tid s a) fun fs ns => step h tid (s.withRequests fs ns) a := by
  have hpass : Harmless tid s (none, s) fun fs ns => (none, s.withRequests fs ns) :=
    ⟨.refl tid s.kernel, hw, fun _ _ => rfl⟩
  have hon := Kernel.Confined.onThread tid s.kernel
  obtain ⟨k, mode⟩ := s
  cases a with
  | call =>
    cases mode with
    | running =>
      have hon' : (k.onThread tid).Powerless tid := hp.of_confined hon
      exact harmless_settle (Kernel.Powerless.syscall hon' h ha.1 ha.2)
    | waiting | stopped => exact hpass
  | resume =>
    cases mode with
    | running | stopped => exact hpass
    | waiting p =>
      have hmay : (k.onThread tid).MayWait p := by
        rw [hon.mayWait]
        exact hw p rfl
      exact harmless_settle (Kernel.harmless_resume hmay)

theorem harmless_run (as : List CallerStep) :
    ∀ {s : Caller δ}, s.kernel.Powerless tid → s.WaitsInScope →
      (∀ a ∈ as, a.InScope s.kernel.kernelPml4) →
      s.kernel.Confined tid (run (next (step h tid)) s as).kernel ∧
        (run (next (step h tid)) s as).WaitsInScope ∧
        ∀ fs ns, transcript (step h tid) (s.withRequests fs ns) as =
          transcript (step h tid) s as := by
  induction as with
  | nil => exact fun {s} _ hw _ => ⟨.refl tid s.kernel, hw, fun _ _ => rfl⟩
  | cons a as ih =>
    intro s hp hw hscope
    have hstep := harmless_step (h := h) hp hw (hscope a (mem_cons_self ..))
    have hrest : ∀ b ∈ as, b.InScope (step h tid s a).2.kernel.kernelPml4 := by
      intro b hb
      rw [hstep.confined.kernelPml4]
      exact hscope b (mem_cons_of_mem a hb)
    obtain ⟨hconf, hwaits, hblind⟩ := ih (hp.of_confined hstep.confined) hstep.waits hrest
    refine ⟨hstep.confined.trans hconf, hwaits, fun fs ns => ?_⟩
    rw [transcript, transcript, hstep.blind, hblind]

/-- **No authority of one's own.** A thread whose table resolves nothing and
that may use no port leaves everything as it was, whatever calls in scope it
makes, but for the rendezvous cells and the interrupt lines behind the
kernel-wide pairs and its own exit. It waits nowhere else, and what its calls
answer does not depend on the requests in flight. -/
theorem powerless_confined (h : Handlers δ) (tid : ThreadId) (k : Kernel δ)
    (hp : k.Powerless tid) (as : List CallerStep)
    (hscope : ∀ a ∈ as, a.InScope k.kernelPml4) :
    k.Confined tid (run (next (step h tid)) (start k) as).kernel ∧
      (run (next (step h tid)) (start k) as).WaitsInScope ∧
      ∀ fs ns, transcript (step h tid) (start (k.withRequests fs ns)) as =
        transcript (step h tid) (start k) as := by
  have hw : (start k).WaitsInScope := by
    intro p hp
    cases hp
  exact harmless_run as (s := start k) hp hw hscope

/-- The small system with the pair of syscall 2 set up on object 1; threads 1
and 2 hold nothing. -/
def wired : Kernel Unit :=
  { Kernel.sample .new .new with ring3Ipc := ⟨some ⟨[some ⟨1, .send, 1⟩]⟩, 0⟩ }

theorem wired_powerless : wired.Powerless 1 := by
  have hbits : ∀ i < 8, ((0xFF : UInt8) &&& ((1 : UInt8) <<< UInt8.ofNat i) == 0) = false := by
    decide
  constructor
  · rintro t ⟨⟩ c r _ - hres
    cases (CapabilityTable.resolve_ok_iff.mp hres).1
  · rintro t ⟨⟩ _
    unfold isPortAllowed
    dsimp only
    split_ifs
    · rfl
    · exact hbits _ (Nat.mod_lt _ (by decide))

def inert : Handlers Unit where
  introspect _ _ _ _ := .ret 0
  auditQuery _ _ _ _ := .ret 0
  introspectWindows _ _ _ _ := .ret 0
  surface _ _ _ k := (.ret 0, k)
  deliverKeyEvent _ k := k
  reportMouse _ _ _ k := k
  injectAgentUiAction _ _ _ _ k := (true, k)
  spawn _ _ k := (.ret 0, k)

/-- A read, a write, a fetch and a key event, all refused; then a send that
waits for a receiver. -/
def refusedCalls : List CallerStep :=
  let mem := UserMemory.filled 0
  [.call mem 17 5 0, .call mem 24 5 0x1000, .call mem 26 0 0, .call mem 13 0x1E 0,
    .call mem 2 7 0, .resume]

theorem powerless_confined_wired :
    wired.Powerless 1 ∧ (∀ a ∈ refusedCalls, a.InScope wired.kernelPml4) ∧
      wired.Confined 1 (run (next (step inert 1)) (start wired) refusedCalls).kernel ∧
      (run (next (step inert 1)) (start wired) refusedCalls).WaitsInScope ∧
      ∀ fs ns, transcript (step inert 1) (start (wired.withRequests fs ns)) refusedCalls =
        transcript (step inert 1) (start wired) refusedCalls :=
  ⟨wired_powerless, by decide,
    powerless_confined inert 1 wired wired_powerless refusedCalls (by decide)⟩

/-- Syscall 2 puts a message into an endpoint that the thread holds nothing
for, and a directory operation makes a request and tells the server. -/
theorem powerless_reaches :
    wired.Powerless 1 ∧
      ((step inert 1 (start wired) (.call (.filled 0) 2 7 0)).2.kernel.findEndpoint 1).map
          (fun ep => (ep.state, ep.message)) = some (stateMessagePending, .word 7) ∧
      (let k := (step inert 1 (start wired) (.call (.filled 0) 24 0x02000005 0x1000)).2.kernel
       k.files.requests.length = 1 ∧ (k.findEndpoint 0).map (·.qLen) = some 1) := by
  refine ⟨wired_powerless, by decide, by decide⟩

end Caller

end AgenticOS
