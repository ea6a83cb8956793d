import AgenticOS.Capability.SpawnGrants
import AgenticOS.Kernel.PortBitmap
import AgenticOS.Memory.Draws
import AgenticOS.Memory.ElfImage

/-!
# Installing a program

`kernel_rs/src/installer.rs`: an ELF file gets an address space of its own, and the
running thread gets what the manifest of the program declares out of a list of
requests. A request names a kind, which is looked up in the manifest, and beside it
the object that is made; nothing compares the two. A failed load leaves the new
address space behind.
-/

namespace AgenticOS

open List
open UInt32 (size ofNat)
open Pmm (source)
open CapabilityTable (resolve_of_ok resolve_ok_iff)

structure CapRequest where
  kind : CapKind
  objectKind : KernelObjectKind
  rights : Rights
  deriving DecidableEq

/-- What an installation changes: the pages, the objects and the running thread. -/
structure Installer where
  vmm : Vmm Pmm
  core : Core
  thread : Thread

def installRequest (manifest : Manifest) (st : Thread × Core) (req : CapRequest) : Thread × Core :=
  if !manifest.declares req.kind then
    (st.1, st.2.record (.manifestDenied req.kind.toUInt8))
  else
    match req.objectKind with
    | .portIoRange base count =>
      let (cap, table, k) := Driver.createPortCapability .new base count req.rights st.2
      let (_, iopb, k) := Driver.grantPortAccess table cap st.1.iopb k
      ({ st.1 with iopb := iopb }, k)
    | objectKind =>
      let (objectId, k) := st.2.createObject objectKind
      let (_, table, k) := st.1.capTable.grant objectId req.rights k
      ({ st.1 with capTable := table }, k)

/-- `install_into_current_thread`; `none` if a page table cannot be allocated. -/
def installIntoCurrentThread (s : Installer) (elf : List UInt8) (stackVaddr : UInt64)
    (manifest : Manifest) (requests : List CapRequest) :
    Option (Option (UInt64 × UInt64) × Installer) := do
  let (space, vmm) := s.vmm.newAddressSpace Pmm.source
  let (loaded, _, store) ← Elf.load Pmm.source vmm.store space elf
  match loaded with
  | .error _ => return (none, { s with vmm := { vmm with store := store } })
  | .ok entry =>
    let (stackPage, store) := store.alloc Pmm.source.toFrameSource pageTableFormat
    let vmm ← Vmm.mapPageIn Pmm.source { vmm with store := store } space stackVaddr stackPage
      (pageUser ||| pageNoExecute ||| pageWritable)
    let (thread, core) := requests.foldl (installRequest manifest) (s.thread, s.core)
    return (some (entry, space), ⟨vmm, core, thread⟩)

/-! ## What is wanted -/

def AuditEvent.isManifestDenied : AuditEvent → Bool
  | .manifestDenied _ => true
  | _ => false

/-- Every slot of the table from `first` on that resolves names an object of a declared
kind. -/
def SlotsDeclared (manifest : Manifest) (first : Nat) (table : CapabilityTable) (k : Core) : Prop :=
  ∀ c r cap, first ≤ c.toNat → (table.resolve c r k).1 = .ok cap →
    ∃ kind, k.objectKind cap.objectId = some kind ∧ manifest.declares (kindOf kind) = true

/-- The records of a call are one refusal for each refused item, beside others. -/
def DenialsRecorded (before after : Core) (refused : List CapKind) : Prop :=
  ∃ added, after.audit.events = before.audit.events ++ added ∧
    added.filter AuditEvent.isManifestDenied = refused.map fun kind => .manifestDenied kind.toUInt8

/-- The kinds that `spawn_with_manifest` refuses: those of the live objects that the
manifest does not declare. -/
def refusedGrants (manifest : Manifest) (k : Core) (grants : List SpawnGrant) : List CapKind :=
  (grants.filterMap fun g => (k.objectKind g.1).map kindOf).filter fun kind =>
    !manifest.declares kind

def refusedRequests (manifest : Manifest) (requests : List CapRequest) : List CapKind :=
  (requests.map CapRequest.kind).filter fun kind => !manifest.declares kind

/-- The installation stays within the manifest, and it does nothing if it fails. -/
structure InstallConfined (manifest : Manifest) (requests : List CapRequest) (s s' : Installer)
    (result : Option (UInt64 × UInt64)) : Prop where
  slots : SlotsDeclared manifest s.thread.capTable.slots.length s'.thread.capTable s'.core
  ports : ∀ port, Iopb.allows s'.thread.iopb port = true →
    Iopb.allows s.thread.iopb port = true ∨ manifest.declares .portIoRange = true
  denials : DenialsRecorded s.core s'.core
    (if result.isSome then refusedRequests manifest requests else [])
  failed : result = none → s'.thread = s.thread ∧ s'.core.objects = s.core.objects ∧
    ∀ f, Pmm.source.taken s'.vmm.store.frames f ↔ Pmm.source.taken s.vmm.store.frames f

/-! ## What it takes -/

/-- A request that the manifest lets through does not go beyond it: the object is of a
declared kind, or it is a range of ports that opens no port. -/
def Covered (manifest : Manifest) (iopb : Iopb) (req : CapRequest) : Prop :=
  match req.objectKind with
  | .portIoRange base count => manifest.declares .portIoRange = true ∨
      (req.rights.contains .portIo = true →
        ∀ port ∈ Driver.portRange base count, port.toNat < iopbPorts → iopb.allows port = true)
  | objectKind => manifest.declares (kindOf objectKind) = true

/-! ## One request -/

def CapRequest.IsPorts (req : CapRequest) : Prop := kindOf req.objectKind = .portIoRange

instance (req : CapRequest) : Decidable req.IsPorts :=
  inferInstanceAs (Decidable (_ = _))

/-- The ports that a request opens if the manifest lets it through. -/
def CapRequest.ports (req : CapRequest) : List UInt16 :=
  match req.objectKind with
  | .portIoRange base count =>
    if req.rights.contains .portIo then Driver.portRange base count else []
  | _ => []

/-- The slot holds the capability of a request, on an object of its own. -/
def Held (k : Core) (req : CapRequest) (slot : Option Capability) : Prop :=
  ∃ objectId, slot = some ⟨objectId, req.rights, 1⟩ ∧
    k.object? objectId = some ⟨req.objectKind, 1, true⟩

def granted (manifest : Manifest) (requests : List CapRequest) : List CapRequest :=
  requests.filter fun req => manifest.declares req.kind && !decide req.IsPorts

def openedPorts (manifest : Manifest) (requests : List CapRequest) : List UInt16 :=
  (requests.filter fun req => manifest.declares req.kind).flatMap CapRequest.ports

/-- What requests do to a thread and the core. -/
structure Installs (manifest : Manifest) (requests : List CapRequest) (st st' : Thread × Core) :
    Prop where
  objects : ∃ new, st'.2.objects = st.2.objects ++ new ∧ new.length ≤ requests.length
  slots : ∃ caps, st'.1.capTable.slots = st.1.capTable.slots ++ caps ∧
    List.Forall₂ (Held st'.2) (granted manifest requests) caps
  iopb : ∀ port, Iopb.allows st'.1.iopb port = true ↔ Iopb.allows st.1.iopb port = true ∨
    (port ∈ openedPorts manifest requests ∧ port.toNat < iopbPorts)
  denials : DenialsRecorded st.2 st'.2 (refusedRequests manifest requests)

variable {manifest : Manifest} {st st' : Thread × Core} {k k' : Core} {req : CapRequest}
  {requests : List CapRequest} {s s' : Installer} {elf : List UInt8} {stackVaddr : UInt64}
  {result : Option (UInt64 × UInt64)} (kind : KernelObjectKind)

section

variable (hids : k.objects.length < UInt32.size)

include hids

theorem toNat_created : (k.createObject kind).1.toNat = k.objects.length :=
  UInt32.toNat_ofNat_of_lt' hids

theorem object?_created :
    (k.createObject kind).2.object? (k.createObject kind).1 = some ⟨kind, 1, true⟩ := by
  rw [Core.object?_createObject, if_pos (toNat_created kind hids)]

theorem mintGen_created : (k.createObject kind).2.mintGen (k.createObject kind).1 = 1 := by
  rw [Core.mintGen_createObject, if_pos (toNat_created kind hids)]

end

theorem grantPortAccess_created (base count : UInt16) (rights : Rights) (iopb : Iopb)
    (hids : k.objects.length < size) :
    let made := Driver.createPortCapability .new base count rights k
    let done := Driver.grantPortAccess made.2.1 made.1 iopb made.2.2
    done.2.1 = (if rights.contains .portIo then Driver.portRange base count else []).foldl
        Iopb.allowPortBits iopb ∧
      done.2.2.objects = k.objects ++ [⟨.portIoRange base count, 1, true⟩] ∧
      ∃ added, done.2.2.audit.events = k.audit.events ++ added ∧
        added.filter AuditEvent.isManifestDenied = [] := by
  intro made done
  have hobject := object?_created (.portIoRange base count) hids
  have hgen := mintGen_created (.portIoRange base count) hids
  have hslot : made.2.1.slot? made.1 =
      some ⟨(k.createObject (.portIoRange base count)).1, rights, 1⟩ := by
    rw [← hgen]
    exact (CapabilityTable.slot?_push .new _ 0).trans (if_pos rfl)
  have hcurrent : made.2.2.currentGen (k.createObject (.portIoRange base count)).1 = some 1 := by
    show ((made.2.2.object? _).filter _).map _ = _
    rw [show made.2.2.object? _ = _ from hobject]
    rfl
  have hevents : made.2.2.audit.events = k.audit.events ++
      [.grant (k.createObject (.portIoRange base count)).1 rights.bits] := Core.record_events _ _
  by_cases hr : rights.contains .portIo = true
  · have hresolve : made.2.1.resolve made.1 .portIo made.2.2 =
        (.ok ⟨(k.createObject (.portIoRange base count)).1, rights, 1⟩, made.2.2) :=
      resolve_of_ok (resolve_ok_iff.mpr ⟨hslot, hcurrent, hr⟩)
    have hkind : made.2.2.objectKind (k.createObject (.portIoRange base count)).1 =
        some (.portIoRange base count) := by
      show ((made.2.2.object? _).filter _).map _ = _
      rw [show made.2.2.object? _ = _ from hobject]
      rfl
    have hdone : done = (.ok (), (Driver.portRange base count).foldl Iopb.allowPortBits iopb,
        made.2.2) := by
      show Driver.grantPortAccess _ _ _ _ = _
      rw [Driver.grantPortAccess, hresolve]
      dsimp only
      rw [hkind]
    rw [hdone, if_pos hr]
    exact ⟨rfl, rfl, _, hevents, rfl⟩
  · obtain ⟨cap, hresolve⟩ | ⟨e, hresolve⟩ := made.2.1.resolve_cases made.1 .portIo made.2.2
    · have hok := resolve_ok_iff.mp (congrArg Prod.fst hresolve)
      rw [hslot] at hok
      obtain ⟨hcap, -, hcontains⟩ := hok
      cases hcap
      exact absurd hcontains hr
    · have hdone : done = (.error (.cap e), iopb, made.2.2.record (.denied made.1)) := by
        show Driver.grantPortAccess _ _ _ _ = _
        rw [Driver.grantPortAccess, hresolve]
      rw [hdone, if_neg hr]
      refine ⟨rfl, rfl, [.grant (k.createObject (.portIoRange base count)).1 rights.bits,
        .denied made.1], ?_, rfl⟩
      dsimp only
      rw [Core.record_events, hevents, append_assoc]
      rfl

theorem CapRequest.isPorts_iff :
    req.IsPorts ↔ ∃ base count, req.objectKind = .portIoRange base count := by
  unfold CapRequest.IsPorts
  cases req.objectKind <;> simp [kindOf]

theorem installRequest_of_not_ports (hdeclared : manifest.declares req.kind = true)
    (hports : ¬ req.IsPorts) :
    installRequest manifest st req = let made := st.2.createObject req.objectKind
      let granted := st.1.capTable.grant made.1 req.rights made.2
      ({ st.1 with capTable := granted.2.1 }, granted.2.2) := by
  unfold installRequest
  rw [if_neg (by simp [hdeclared])]
  unfold CapRequest.IsPorts at hports
  cases hkind : req.objectKind
  case portIoRange base count =>
    rw [hkind] at hports
    exact absurd rfl hports
  all_goals rfl

theorem Held.mono {slot : Option Capability} {new : List KernelObject}
    (h : Held k req slot) (hobjects : k'.objects = k.objects ++ new) : Held k' req slot := by
  obtain ⟨objectId, hslot, hobject⟩ := h
  refine ⟨objectId, hslot, ?_⟩
  unfold Core.object? at hobject ⊢
  rw [hobjects, List.getElem?_append_left (List.getElem?_eq_some_iff.mp hobject).1, hobject]

theorem installs_nil : Installs manifest [] st st :=
  ⟨⟨[], (append_nil _).symm, le_rfl⟩, ⟨[], (append_nil _).symm, .nil⟩,
    fun port => by simp [openedPorts], ⟨[], (append_nil _).symm, rfl⟩⟩

theorem Installs.append {xs ys : List CapRequest} {st1 : Thread × Core}
    (h : Installs manifest xs st st1) (h' : Installs manifest ys st1 st') :
    Installs manifest (xs ++ ys) st st' := by
  obtain ⟨new, hnew, hlen⟩ := h.objects
  obtain ⟨new', hnew', hlen'⟩ := h'.objects
  obtain ⟨caps, hcaps, hheld⟩ := h.slots
  obtain ⟨caps', hcaps', hheld'⟩ := h'.slots
  obtain ⟨added, hadded, hdenied⟩ := h.denials
  obtain ⟨added', hadded', hdenied'⟩ := h'.denials
  refine ⟨⟨new ++ new', by rw [hnew', hnew, append_assoc], ?_⟩, ⟨caps ++ caps', ?_, ?_⟩, ?_,
    ⟨added ++ added', by rw [hadded', hadded, append_assoc], ?_⟩⟩
  · rw [length_append, length_append]
    exact Nat.add_le_add hlen hlen'
  · rw [hcaps', hcaps, append_assoc]
  · rw [granted, filter_append]
    exact rel_append (hheld.imp fun _ _ hheld => hheld.mono hnew') hheld'
  · intro _
    have hports : openedPorts manifest (xs ++ ys) =
        openedPorts manifest xs ++ openedPorts manifest ys := by
      unfold openedPorts
      rw [filter_append, flatMap_append]
    rw [h'.iopb, h.iopb, hports, mem_append, or_and_right, or_assoc]
  · rw [filter_append, hdenied, hdenied', ← map_append, refusedRequests,
      refusedRequests, ← filter_append, ← map_append]
    rfl

theorem installs_request (hids : st.2.objects.length < size) :
    Installs manifest [req] st (installRequest manifest st req) := by
  by_cases hdeclared : manifest.declares req.kind = true
  · have hrefused : refusedRequests manifest [req] = [] := by simp [refusedRequests, hdeclared]
    by_cases hports : req.IsPorts
    · obtain ⟨base, count, hkind⟩ := CapRequest.isPorts_iff.mp hports
      obtain ⟨hiopb, hobjects, added, hadded, hdenied⟩ :=
        grantPortAccess_created base count req.rights st.1.iopb hids
      have heq : installRequest manifest st req =
          let made := Driver.createPortCapability .new base count req.rights st.2
          let done := Driver.grantPortAccess made.2.1 made.1 st.1.iopb made.2.2
          ({ st.1 with iopb := done.2.1 }, done.2.2) := by
        unfold installRequest
        rw [if_neg (by simp [hdeclared]), hkind]
      rw [heq]
      refine ⟨⟨_, hobjects, le_rfl⟩, ⟨[], (append_nil _).symm, ?_⟩, ?_, ⟨added, hadded, ?_⟩⟩
      · rw [granted, filter_cons_of_neg (by simp [hports])]
        exact .nil
      · intro port
        dsimp only at hiopb ⊢
        rw [hiopb, Iopb.allows_foldl_allowPortBits]
        simp [openedPorts, hdeclared, CapRequest.ports, hkind]
      · rw [hdenied, hrefused]
        rfl
    · rw [installRequest_of_not_ports hdeclared hports]
      refine ⟨⟨_, rfl, le_rfl⟩, ⟨[some ⟨(st.2.createObject req.objectKind).1, req.rights, 1⟩], ?_,
        ?_⟩, ?_, ⟨_, Core.record_events _ _, by rw [hrefused]; rfl⟩⟩
      · rw [← mintGen_created req.objectKind hids]
        rfl
      · rw [granted, filter_cons_of_pos (by simp [hdeclared, hports])]
        exact .cons ⟨_, rfl, object?_created req.objectKind hids⟩ .nil
      · intro port
        have hnone : req.ports = [] := by
          unfold CapRequest.ports
          split
          · rename_i base count hkind
            exact absurd (CapRequest.isPorts_iff.mpr ⟨base, count, hkind⟩) hports
          · rfl
        simp [openedPorts, hdeclared, hnone]
  · have heq : installRequest manifest st req =
        (st.1, st.2.record (.manifestDenied req.kind.toUInt8)) := by
      unfold installRequest
      rw [if_pos (by simpa using hdeclared)]
    rw [heq]
    refine ⟨⟨[], (append_nil _).symm, Nat.zero_le _⟩, ⟨[], (append_nil _).symm, ?_⟩, ?_,
      ⟨_, Core.record_events _ _, ?_⟩⟩
    · rw [granted, filter_cons_of_neg (by simp [hdeclared])]
      exact .nil
    · intro port
      simp [openedPorts, hdeclared]
    · simp [refusedRequests, hdeclared, AuditEvent.isManifestDenied]

theorem installs_foldl (requests : List CapRequest)
    (hids : st.2.objects.length + requests.length ≤ size) :
    Installs manifest requests st (requests.foldl (installRequest manifest) st) := by
  induction requests generalizing st with
  | nil => exact installs_nil
  | cons req requests ih =>
    rw [length_cons] at hids
    have hfirst : Installs manifest [req] st (installRequest manifest st req) :=
      installs_request (by omega)
    obtain ⟨_, hnew, hlen⟩ := hfirst.objects
    have hlen' : (installRequest manifest st req).2.objects.length + requests.length ≤ size := by
      rw [hnew, length_append]
      rw [length_singleton] at hlen
      omega
    exact hfirst.append (ih hlen')

/-! ## The installation -/

theorem Installs.slotsDeclared_iff (h : Installs manifest requests st st')
    (hslots : st.1.capTable.slots.length + requests.length ≤ size) :
    SlotsDeclared manifest st.1.capTable.slots.length st'.1.capTable st'.2 ↔
      ∀ req ∈ granted manifest requests, manifest.declares (kindOf req.objectKind) = true := by
  obtain ⟨caps, hcaps, hheld⟩ := h.slots
  have hgranted : (granted manifest requests).length ≤ requests.length := length_filter_le _ _
  constructor
  · intro hdeclared req hreq
    obtain ⟨i, hi, rfl⟩ := mem_iff_getElem.mp hreq
    have hi' : i < caps.length := hheld.length_eq ▸ hi
    obtain ⟨objectId, hslot, hobject⟩ := List.forall₂_iff_get.mp hheld |>.2 i hi hi'
    obtain ⟨c, hc⟩ : ∃ c : CapId, c.toNat = st.1.capTable.slots.length + i :=
      ⟨ofNat _, UInt32.toNat_ofNat_of_lt' (by omega)⟩
    have hresolve : (st'.1.capTable.resolve c ((granted manifest requests)[i]).rights st'.2).1 =
        .ok ⟨objectId, ((granted manifest requests)[i]).rights, 1⟩ := by
      refine resolve_ok_iff.mpr ⟨?_, ?_, Rights.contains_self _⟩
      · rw [CapabilityTable.slot?, hcaps, hc, List.getElem?_append_right (Nat.le_add_right _ _),
          Nat.add_sub_cancel_left, List.getElem?_eq_getElem hi']
        exact congrArg Option.join (congrArg some hslot)
      · rw [Core.currentGen, hobject]
        rfl
    obtain ⟨_, hkind, hdeclares⟩ := hdeclared c _ _ (hc ▸ Nat.le_add_right _ _) hresolve
    rw [Core.objectKind, hobject] at hkind
    cases hkind
    exact hdeclares
  · intro hdeclared c r _ hc hresolve
    obtain ⟨hslot, -, -⟩ := resolve_ok_iff.mp hresolve
    rw [CapabilityTable.slot?, hcaps, List.getElem?_append_right hc] at hslot
    obtain ⟨hi', hget⟩ := List.getElem?_eq_some_iff.mp (Option.join_eq_some_iff.mp hslot)
    have hi := hheld.length_eq.symm ▸ hi'
    obtain ⟨objectId, hheld, hobject⟩ := (List.forall₂_iff_get.mp hheld).2 _ hi hi'
    obtain rfl := Option.some_inj.mp (hget.symm.trans hheld)
    exact ⟨_, by rw [Core.objectKind, hobject]; rfl, hdeclared _ (getElem_mem hi)⟩

theorem Installs.ports_iff (h : Installs manifest requests st st') :
    (∀ port, Iopb.allows st'.1.iopb port = true →
      Iopb.allows st.1.iopb port = true ∨ manifest.declares .portIoRange = true) ↔
    manifest.declares .portIoRange = true ∨ ∀ port ∈ openedPorts manifest requests,
      port.toNat < iopbPorts → Iopb.allows st.1.iopb port = true := by
  by_cases hdeclares : manifest.declares .portIoRange = true
  · simp [hdeclares]
  · simp only [hdeclares, or_false, false_or, Bool.false_eq_true]
    constructor
    · intro hports port hopened hlt
      exact hports port ((h.iopb port).mpr (.inr ⟨hopened, hlt⟩))
    · intro hports port hallows
      obtain hold | ⟨hopened, hlt⟩ := (h.iopb port).mp hallows
      · exact hold
      · exact hports port hopened hlt

theorem forall_covered_iff (iopb : Iopb) :
    (∀ req ∈ requests, manifest.declares req.kind = true → Covered manifest iopb req) ↔
      (∀ req ∈ granted manifest requests, manifest.declares (kindOf req.objectKind) = true) ∧
        (manifest.declares .portIoRange = true ∨ ∀ port ∈ openedPorts manifest requests,
          port.toNat < iopbPorts → iopb.allows port = true) := by
  have hcovered (req : CapRequest) : Covered manifest iopb req ↔
      (¬ req.IsPorts → manifest.declares (kindOf req.objectKind) = true) ∧
        (manifest.declares .portIoRange = true ∨
          ∀ port ∈ req.ports, port.toNat < iopbPorts → iopb.allows port = true) := by
    unfold Covered CapRequest.IsPorts CapRequest.ports
    cases req.objectKind
    case portIoRange base count => by_cases hr : req.rights.contains .portIo = true <;>
      simp [kindOf, hr]
    all_goals simp [kindOf]
  simp only [hcovered]
  constructor
  · intro h
    refine ⟨fun req hreq => ?_, ?_⟩
    · obtain ⟨hmem, hlet⟩ := mem_filter.mp hreq
      rw [Bool.and_eq_true, Bool.not_eq_true', decide_eq_false_iff_not] at hlet
      exact (h req hmem hlet.1).1 hlet.2
    · refine or_iff_not_imp_left.mpr fun hports port hopened hlt => ?_
      obtain ⟨req, hreq, hport⟩ := mem_flatMap.mp hopened
      obtain ⟨hmem, hlet⟩ := mem_filter.mp hreq
      exact (h req hmem hlet).2.resolve_left hports port hport hlt
  · rintro ⟨hgranted, hports⟩ req hreq hlet
    refine ⟨fun hother => hgranted req (mem_filter.mpr ⟨hreq, by simp [hlet, hother]⟩), ?_⟩
    refine hports.imp_right fun hopened port hport hlt => hopened port ?_ hlt
    exact mem_flatMap.mpr ⟨req, mem_filter.mpr ⟨hreq, hlet⟩, hport⟩

/-- **What an installation does**: it fails with the file, after an address space was
made, or it works through the requests. -/
theorem install_cases
    (h : installIntoCurrentThread s elf stackVaddr manifest requests = some (result, s')) :
    (Elf.loadError elf ≠ none ∧ result = none ∧ s'.thread = s.thread ∧ s'.core = s.core ∧
      Draws source s.vmm.store.frames.allocPage.2 s'.vmm.store.frames) ∨
    (Elf.loadError elf = none ∧ result.isSome = true ∧
      (s'.thread, s'.core) = requests.foldl (installRequest manifest) (s.thread, s.core)) := by
  unfold installIntoCurrentThread at h
  obtain ⟨⟨loaded, frames, store⟩, hload, h⟩ := Option.bind_eq_some_iff.mp h
  cases loaded with
  | error =>
    cases h
    refine .inl ⟨fun hnone => ?_, rfl, rfl, rfl, Elf.draws_load hload⟩
    have hresult := Elf.load_result hload
    rw [hnone] at hresult
    cases hresult
  | ok entry =>
    obtain ⟨vmm, -, h⟩ := Option.bind_eq_some_iff.mp h
    cases h
    exact .inr ⟨(Elf.load_ok hload).1, rfl, rfl⟩

theorem taken_iff_of_failed (hok : source.ok s.vmm.store.frames)
    (hdraws : Draws source s.vmm.store.frames.allocPage.2 s'.vmm.store.frames) :
    (∀ f, source.taken s'.vmm.store.frames f ↔ source.taken s.vmm.store.frames f) ↔
      s.vmm.store.frames.allocPage.1 = 0 := by
  constructor
  · intro hsame
    by_contra hne
    have hnew : source.taken s.vmm.store.frames.allocPage.2 s.vmm.store.frames.allocPage.1 :=
      (source.alloc_taken _ hok hne _).mpr (.inr rfl)
    have htaken := (hsame _).mp (hdraws.taken (source.alloc_ok _ hok) hnew)
    exact source.alloc_fresh _ hok hne htaken
  · intro hzero f
    have hall : Draws source s.vmm.store.frames s'.vmm.store.frames :=
      (draws_alloc _).trans hdraws
    exact not_congr (hall.free_iff (hok.1.allocPage_eq_zero_iff.mp hzero))

theorem installConfined_iff (hok : source.ok s.vmm.store.frames)
    (hids : s.core.objects.length + requests.length ≤ size)
    (hslots : s.thread.capTable.slots.length + requests.length ≤ size)
    (h : installIntoCurrentThread s elf stackVaddr manifest requests = some (result, s')) :
    InstallConfined manifest requests s s' result ↔
      (Elf.loadError elf = none ∨ s.vmm.store.frames.allocPage.1 = 0) ∧
      (Elf.loadError elf = none → ∀ req ∈ requests, manifest.declares req.kind = true →
        Covered manifest s.thread.iopb req) := by
  obtain ⟨hloads, rfl, hthread, hcore, hdraws⟩ | ⟨hloads, hsome, hfold⟩ := install_cases h
  · have hpages := taken_iff_of_failed hok hdraws
    simp only [hloads, false_or, false_implies, and_true]
    rw [← hpages]
    constructor
    · intro hconfined
      exact (hconfined.failed rfl).2.2
    · intro hsame
      refine ⟨?_, ?_, ?_, fun _ => ⟨hthread, by rw [hcore], hsame⟩⟩
      · intro c r _ hc hresolve
        obtain ⟨hslot, -, -⟩ := resolve_ok_iff.mp hresolve
        rw [hthread, CapabilityTable.slot?, List.getElem?_eq_none hc] at hslot
        cases hslot
      · intro _ hallows
        rw [hthread] at hallows
        exact .inl hallows
      · exact ⟨[], by rw [hcore, append_nil], rfl⟩
  · have hinstalls : Installs manifest requests (s.thread, s.core) _ := installs_foldl requests hids
    rw [← hfold] at hinstalls
    simp only [hloads, true_or, true_and, true_implies]
    rw [forall_covered_iff, ← hinstalls.slotsDeclared_iff hslots, ← hinstalls.ports_iff]
    constructor
    · intro hconfined
      exact ⟨hconfined.slots, hconfined.ports⟩
    · rintro ⟨hdeclared, hports⟩
      refine ⟨hdeclared, hports, ?_, fun hnone => ?_⟩
      · rw [if_pos hsome]
        exact hinstalls.denials
      · rw [hnone] at hsome
        cases hsome

/-! ## Spawning with a manifest -/

def spawnedWithManifest (grants : List SpawnGrant) (manifest : Manifest) (k : Core) :
    Thread × Core :=
  let (table, k) := spawnWithManifest grants manifest k
  (⟨table, Iopb.denyAll⟩, k)

structure SpawnConfined (manifest : Manifest) (grants : List SpawnGrant) (k : Core)
    (spawned : Thread × Core) : Prop where
  slots : SlotsDeclared manifest 0 spawned.1.capTable spawned.2
  ports : ∀ port, Iopb.allows spawned.1.iopb port = true → manifest.declares .portIoRange = true
  denials : DenialsRecorded k spawned.2 (refusedGrants manifest k grants)

variable (manifest)

theorem refusedGrants_congr {k k' : Core} (h : k'.objects = k.objects) (grants : List SpawnGrant) :
    refusedGrants manifest k' grants = refusedGrants manifest k grants := by
  unfold refusedGrants
  simp only [Core.objectKind_congr h]

variable (grants : List SpawnGrant)

theorem denialsRecorded_foldl (table : CapabilityTable) (k : Core) :
    DenialsRecorded k (grants.foldl (grantByManifest manifest) (table, k)).2
      (refusedGrants manifest k grants) := by
  induction grants generalizing table k with
  | nil => exact ⟨[], (append_nil _).symm, rfl⟩
  | cons g grants ih =>
    have hobjects := (grantsBy_grantByManifest manifest table k g).1
    obtain ⟨added, hadded, hdenied⟩ :=
      ih (grantByManifest manifest (table, k) g).1 (grantByManifest manifest (table, k) g).2
    rw [refusedGrants_congr manifest hobjects] at hdenied
    rw [foldl_cons]
    -- the record of this grant, if any
    obtain ⟨first, hfirst, hrefused⟩ : ∃ first,
        (grantByManifest manifest (table, k) g).2.audit.events = k.audit.events ++ first ∧
        first.filter AuditEvent.isManifestDenied ++ (refusedGrants manifest k grants).map
          (fun kind => .manifestDenied kind.toUInt8) = (refusedGrants manifest k (g :: grants)).map
              fun kind => .manifestDenied kind.toUInt8 := by
      unfold grantByManifest refusedGrants
      dsimp only
      cases hkind : k.objectKind g.1 with
      | none => exact ⟨[], (append_nil _).symm, by simp [hkind]⟩
      | some kind =>
        dsimp only
        split_ifs with hdeclares
        · exact ⟨_, Core.record_events _ _, by
            simp [hkind, hdeclares, AuditEvent.isManifestDenied]⟩
        · refine ⟨_, Core.record_events _ _, ?_⟩
          have hhead (rest : List CapKind) : ((kindOf kind :: rest).filter fun kind =>
              !manifest.declares kind) = kindOf kind :: rest.filter fun kind =>
                !manifest.declares kind := filter_cons_of_pos (by simpa using hdeclares)
          rw [filterMap_cons_some (b := kindOf kind) (by rw [hkind]; rfl), hhead]
          rfl
    refine ⟨first ++ added, ?_, ?_⟩
    · rw [← append_assoc, ← hfirst]
      exact hadded
    · rw [filter_append, hdenied, hrefused]

theorem spawnConfined (k : Core) :
    SpawnConfined manifest grants k (spawnedWithManifest grants manifest k) where
  slots c r cap _ hresolve := by
    obtain ⟨hobjects, hslots⟩ := (grantsBy_grantByManifest manifest).foldl
      (fun _ _ h => declared_congr manifest h) grants .new k
    obtain ⟨m, g, -, hdeclared, -, rfl, -, -⟩ :=
      (resolve_filled hobjects hslots c r cap).mp hresolve
    unfold declared at hdeclared
    obtain ⟨kind, hkind, hdeclares⟩ := (Option.any_eq_true _ _).mp hdeclared
    refine ⟨kind, ?_, hdeclares⟩
    exact (congrFun (Core.objectKind_congr hobjects) g.1).trans hkind
  ports port hallows := by
    rw [show (spawnedWithManifest grants manifest k).1.iopb = Iopb.denyAll from rfl,
      Iopb.allows_denyAll] at hallows
    cases hallows
  denials := denialsRecorded_foldl manifest grants .new k

/-! ## The manifest as a bound -/

/-- **Confinement to the manifest.** A thread that is spawned with a manifest stays within
it. An installation does, and leaves nothing behind when it fails, exactly when the
file loads, or there is no page to be had, and the requests that pass are covered. -/
theorem manifest_confines (manifest : Manifest) : (∀ grants k,
      SpawnConfined manifest grants k (spawnedWithManifest grants manifest k)) ∧
    ∀ (s s' : Installer) elf stackVaddr requests result, Pmm.source.ok s.vmm.store.frames →
      s.core.objects.length + requests.length ≤ UInt32.size →
      s.thread.capTable.slots.length + requests.length ≤ UInt32.size →
      installIntoCurrentThread s elf stackVaddr manifest requests = some (result, s') →
      (InstallConfined manifest requests s s' result ↔
        (Elf.loadError elf = none ∨ s.vmm.store.frames.allocPage.1 = 0) ∧
        (Elf.loadError elf = none → ∀ req ∈ requests, manifest.declares req.kind = true →
          Covered manifest s.thread.iopb req)) :=
  ⟨spawnConfined manifest,
    fun _ _ _ _ _ _ hok hids hslots h => installConfined_iff hok hids hslots h⟩

def bareInstaller : Installer := ⟨SpaceLedger.kernelOnly, .boot, ⟨.new, Iopb.denyAll⟩⟩

theorem bareInstaller_ok : source.ok bareInstaller.vmm.store.frames :=
  source.alloc_ok _ SpaceLedger.smallPmm_ok

def endpointManifest : Manifest := Manifest.none.allow .ipcEndpoint

theorem manifest_confines_endpoint :
    ∃ result s', installIntoCurrentThread bareInstaller (Elf.assemble [] []) 0x7000000
        endpointManifest [⟨.ipcEndpoint, .ipcEndpoint, .send⟩, ⟨.execHandle, .execHandle, .exec⟩] =
          some (result, s') ∧
      InstallConfined endpointManifest
        [⟨.ipcEndpoint, .ipcEndpoint, .send⟩, ⟨.execHandle, .execHandle, .exec⟩] bareInstaller s'
          result := by
  refine Foundation.exists_pair_of_isSome (by decide +kernel) fun result s' hrun => ?_
  refine ((manifest_confines _).2 _ _ _ _ _ _ bareInstaller_ok (by decide)
    (by decide) hrun).mpr ⟨.inl (by decide +kernel), fun _ _ hreq hlet => ?_⟩
  obtain rfl | hreq := mem_cons.mp hreq
  · exact (by decide : endpointManifest.declares .ipcEndpoint = true)
  · obtain rfl := mem_singleton.mp hreq
    exact absurd hlet (by decide)

/-- A request that names one kind and carries an object of another, and a file that is
too small. -/
theorem install_not_confined :
    (∃ result s', installIntoCurrentThread bareInstaller (Elf.assemble [] []) 0x7000000
        endpointManifest [⟨.ipcEndpoint, .execHandle, .exec⟩] = some (result, s') ∧
      ¬ InstallConfined endpointManifest [⟨.ipcEndpoint, .execHandle, .exec⟩] bareInstaller s'
        result) ∧
    ∃ s', installIntoCurrentThread bareInstaller [] 0x7000000 endpointManifest [] =
        some (none, s') ∧
      ¬ InstallConfined endpointManifest [] bareInstaller s' none := by
  constructor
  · refine Foundation.exists_pair_of_isSome (by decide +kernel) fun result s' hrun hconfined => ?_
    have hcovered := ((installConfined_iff bareInstaller_ok (by decide) (by decide) hrun).mp
      hconfined).2 (by decide +kernel) _ (mem_singleton_self _) (by decide)
    exact absurd hcovered (by decide : endpointManifest.declares .execHandle ≠ true)
  · have hsome : (installIntoCurrentThread bareInstaller [] 0x7000000 endpointManifest []).isSome =
        true := by decide +kernel
    obtain ⟨⟨result, s'⟩, hrun⟩ := Option.isSome_iff_exists.mp hsome
    have hnone : result = none := by
      obtain ⟨-, hnone, -⟩ | ⟨hloads, -⟩ := install_cases hrun
      · exact hnone
      · exact absurd hloads (by decide)
    subst hnone
    refine ⟨s', hrun, fun hconfined => ?_⟩
    obtain hloads | hzero := ((installConfined_iff bareInstaller_ok (by decide) (by decide)
      hrun).mp hconfined).1
    · exact absurd hloads (by decide)
    · exact absurd hzero (by decide +kernel)

end AgenticOS
