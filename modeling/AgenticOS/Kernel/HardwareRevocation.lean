import AgenticOS.Capability.System
import AgenticOS.Memory.Teardown
import AgenticOS.Smp.RunningPorts

/-!
# Devices and ports after a revocation

`driver::map_mmio` and `driver::grant_port_access` look at a capability once, when the
pages of a device are mapped or the ports are opened. `capability::revoke` changes the
generation of the object and nothing else: what was mapped and opened stays. The model
keeps a record of both, and the run-time state that the hardware looks at: page tables,
the bitmaps of the threads and those in the TSSes.

Tables are indexed by an arbitrary type, and `space` says in which address space the
process lives that a table belongs to.
-/

namespace AgenticOS

open Foundation SpaceLedger List Function Option

/-! ## What a capability call leaves in place -/

namespace CapState

variable {τ : Type} [DecidableEq τ] {s : CapState τ} {call : CapCall τ} {t : τ}

theorem slot?_step {c : CapId} {cap : Capability}
    (h : (s.tables t).slot? c = some cap) : ((s.step call).tables t).slot? c = some cap := by
  -- a slot that is filled is not the one after the last
  have hpush (target : τ) (new : Capability) :
      (update s.tables target ((s.tables target).push new).2 t).slot? c = some cap := by
    rw [slot?_update_push, if_neg]
    · exact h
    · rintro ⟨rfl, hlast⟩
      rw [CapabilityTable.slot?, hlast, List.getElem?_eq_none (Nat.le_refl _)] at h
      cases h
  cases call_effect s call with
  | quiet _ htables | created _ _ htables | revoked _ _ _ htables =>
    rw [htables]
    exact h
  | minted target o r _ htables =>
    rw [htables]
    exact hpush target _
  | copied _ _ _ _ target _ _ _ htables =>
    rw [htables]
    exact hpush target _

variable {o : ObjectId}

theorem object?_step {obj : KernelObject} (h : s.core.object? o = some obj)
    (hcall : ∀ destroy, call ≠ .revoke o destroy) : (s.step call).core.object? o = some obj := by
  cases call_effect s call with
  | quiet hobjects | minted _ _ _ hobjects | copied _ _ _ _ _ _ _ hobjects =>
    rw [Core.object?_congr hobjects]
    exact h
  | created kind hobjects =>
    have hlt := (List.getElem?_eq_some_iff.mp h).1
    rw [Core.object?_congr hobjects, Core.object?_createObject, if_neg (Nat.ne_of_lt hlt)]
    exact h
  | revoked o' destroy hobjects =>
    rw [Core.object?_congr hobjects, Core.object?_revoke, if_neg]
    · exact h
    · rintro rfl
      exact hcall destroy rfl

/-- What stands behind a live object stays as it is, but for a revocation. -/
theorem currentGen_step {g : UInt64} (h : s.core.currentGen o = some g)
    (hcall : ∀ destroy, call ≠ .revoke o destroy) :
    (s.step call).core.currentGen o = some g ∧
      (s.step call).core.objectKind o = s.core.objectKind o := by
  obtain ⟨_, hobj, -⟩ := map_eq_some_iff.mp h
  have hold := (filter_eq_some_iff.mp hobj).1
  have hnew := object?_step hold hcall
  constructor
  · rw [← h, Core.currentGen, Core.currentGen, hnew, hold]
  · rw [Core.objectKind, Core.objectKind, hnew, hold]

theorem resolve_step {c : CapId} {r : Rights} {cap : Capability}
    (h : s.resolve t c r = .ok cap) (hcall : ∀ destroy, call ≠ .revoke cap.objectId destroy) :
    (s.step call).resolve t c r = .ok cap := by
  obtain ⟨hslot, hgen, hrights⟩ := resolve_ok_iff.mp h
  exact resolve_ok_iff.mpr ⟨slot?_step hslot, (currentGen_step hgen hcall).1, hrights⟩

end CapState

/-! ## Threads that ended -/

namespace Scheduler

variable {s' s : Scheduler} {kernelPml4 : UInt64}

theorem Placed.exited_step {e : Event} {t : Nat}
    (h : Placed s) (hs' : s.step kernelPml4 e = some s') (ht : t < s.nextTid)
    (hexited : (s.threads t).state = .exited) : (s'.threads t).state = .exited := by
  cases moves_of_step hs' with
  | init _ _ | spawnIn _ | spawnPinnedToCpu _ =>
    simp only [Scheduler.initAsCurrentThread, Scheduler.spawnThread, update_of_ne ht.ne]
    exact hexited
  | @exitCurrent c _ =>
    unfold Scheduler.exitCurrent
    cases s.currents c with
    | none => exact hexited
    | some =>
      simp only [setState, update_apply]
      split_ifs
      · rfl
      · exact hexited
  | schedule _ => exact (h.scheduleLocked_exited_iff kernelPml4 _ t).mpr hexited
  | release => exact hexited
  | switchTo =>
    simp only [Scheduler.switchTo, update_apply]
    split_ifs with hold
    · rw [← hold]
      exact hexited
    · exact hexited

theorem nextTid_step {e : Event}
    (hs' : s.step kernelPml4 e = some s') : s.nextTid ≤ s'.nextTid := by
  cases moves_of_step hs' with
  | init _ _ | spawnIn _ | spawnPinnedToCpu _ => exact Nat.le_succ _
  | @exitCurrent c _ =>
    unfold Scheduler.exitCurrent
    cases s.currents c <;> exact Nat.le_refl _
  | schedule _ => exact (scheduleLocked_fields kernelPml4 s _).1.ge
  | release _ | switchTo _ => exact Nat.le_refl _

end Scheduler

/-! ## The state -/

structure MmioMapping where
  pml4 : UInt64
  object : ObjectId
  vaddr : UInt64
  page : UInt64

/-- A port that `grant_port_access` opened for a thread, with the generation of the
object at that time. -/
structure PortGrant where
  thread : Nat
  object : ObjectId
  generation : UInt64
  port : UInt16

structure Hardware (τ σ : Type) where
  caps : CapState τ
  store : PageStore σ
  nextUserMmioOffset : UInt64
  ports : PortSystem
  mapped : List MmioMapping
  opened : List PortGrant

inductive HardwareCall (τ : Type) where
  | cap (call : CapCall τ)
  | mapMmio (table : τ) (capId : CapId) (intoPml4 : UInt64)
  /-- By the thread that is current on the core. -/
  | grantPortAccess (table : τ) (capId : CapId) (c : Cpu)
  | sched (e : Scheduler.Event)

namespace Hardware

variable {τ σ : Type}

def start (caps : CapState τ) (store : PageStore σ) (nextUserMmioOffset : UInt64) :
    Hardware τ σ := ⟨caps, store, nextUserMmioOffset, .boot, [], []⟩

def newMappings (s : Hardware τ σ) (t : τ) (capId : CapId) (intoPml4 : UInt64) :
    List MmioMapping :=
  match s.caps.resolve t capId .map,
    (Driver.mmioRegion (s.caps.tables t) capId s.caps.core).1 with
  | .ok cap, .ok (physBase, size) =>
    (List.range (Driver.mmioPages size).toNat).map fun p =>
      ⟨intoPml4, cap.objectId,
        Driver.userMmioWindowBase + s.nextUserMmioOffset + UInt64.ofNat p * 4096,
        physBase + UInt64.ofNat p * 4096⟩
  | _, _ => []

/-- `allow_port_for_current` for each port of the range. -/
def openPorts (s : Hardware τ σ) (c : Cpu) (cap : Capability) (ports : List UInt16) :
    Hardware τ σ :=
  { s with
    ports := ports.foldl (fun p port => p.callPort c port true) s.ports
    opened := s.opened ++
      match s.ports.sched.currents c with
      | none => []
      | some thread =>
        (ports.filter (·.toNat < iopbPorts)).map
          (⟨thread, cap.objectId, cap.generation, ·⟩) }

def grantPortAccess (s : Hardware τ σ) (t : τ) (capId : CapId) (c : Cpu) :
    Except DriverError Unit × Hardware τ σ :=
  match (s.caps.tables t).resolve capId .portIo s.caps.core with
  | (.error e, core) => (.error (.cap e), { s with caps := { s.caps with core } })
  | (.ok cap, core) =>
    match core.objectKind cap.objectId with
    | some (.portIoRange base count) =>
      (.ok (), ({ s with caps := { s.caps with core } }).openPorts c cap
        (Driver.portRange base count))
    | _ => (.error .wrongObjectKind, { s with caps := { s.caps with core } })

def step [DecidableEq τ] (A : PageSource σ) (kernelPml4 : UInt64) (s : Hardware τ σ) :
    HardwareCall τ → Option (Hardware τ σ)
  | .cap call => some { s with caps := s.caps.step call }
  | .mapMmio t capId intoPml4 => do
    let (_, core, offset, store) ← Driver.mapMmio A (s.caps.tables t) capId intoPml4 s.caps.core
      s.nextUserMmioOffset s.store
    return { s with
      caps := { s.caps with core }
      store := store
      nextUserMmioOffset := offset
      mapped := s.mapped ++ s.newMappings t capId intoPml4 }
  | .grantPortAccess t capId c =>
    if s.ports.sched.Idle c then some (s.grantPortAccess t capId c).2 else none
  | .sched e => (s.ports.step kernelPml4 (.sched e)).map fun ports => { s with ports }

/-! ## What may be left -/

def UserMapped (s : Hardware τ σ) (m : MmioMapping) : Prop :=
  let entry := debugTranslate s.store.mem m.pml4 m.vaddr
  isPresent entry = true ∧ entry &&& pageUser ≠ 0 ∧ frameFromEntry entry = frameFromEntry m.page

/-- A process of the address space has a capability on the object that resolves with
`MAP`. -/
def Held (space : τ → UInt64) (s : Hardware τ σ) (m : MmioMapping) : Prop :=
  ∃ t c cap, space t = m.pml4 ∧ s.caps.resolve t c .map = .ok cap ∧ cap.objectId = m.object

/-- The object of the grant is live, was not revoked since, and covers the port. -/
def Stands (s : Hardware τ σ) (g : PortGrant) : Prop :=
  s.caps.core.currentGen g.object = some g.generation ∧
    ∃ base count, s.caps.core.objectKind g.object = some (.portIoRange base count) ∧
      g.port ∈ Driver.portRange base count

/-- The hardware that processes reach is what their capabilities name. -/
structure Backed (space : τ → UInt64) (s : Hardware τ σ) : Prop where
  pages : ∀ m ∈ s.mapped, s.UserMapped m → s.Held space m
  ports : ∀ c t, s.ports.Executes c t → ∀ port, (s.ports.tss c).allows port = true →
    ∃ g ∈ s.opened, g.thread = t ∧ g.port = port ∧ s.Stands g

/-- No object is revoked that has pages mapped, or ports open to a thread that has not
ended. Device pages are mapped with a table of the process they are for. -/
def Orderly (space : τ → UInt64) (s : Hardware τ σ) : HardwareCall τ → Prop
  | .cap (.revoke o _) =>
    (∀ m ∈ s.mapped, m.object ≠ o) ∧
      ∀ g ∈ s.opened, g.object = o → (s.ports.sched.threads g.thread).state = .exited
  | .mapMmio t capId intoPml4 => ∀ m ∈ s.newMappings t capId intoPml4, space t = m.pml4
  | _ => True

instance (space : τ → UInt64) (s : Hardware τ σ) : ∀ call, Decidable (s.Orderly space call)
  | .cap (.revoke o _) => inferInstanceAs (Decidable ((∀ m ∈ s.mapped, m.object ≠ o) ∧
      ∀ g ∈ s.opened, g.object = o → (s.ports.sched.threads g.thread).state = .exited))
  | .mapMmio t capId intoPml4 =>
    inferInstanceAs (Decidable (∀ m ∈ s.newMappings t capId intoPml4, space t = m.pml4))
  | .cap (.createObject _) | .cap (.grant ..) | .cap (.resolve ..) | .cap (.derive ..)
  | .cap (.deriveSelf ..) | .grantPortAccess .. | .sched _ => .isTrue trivial

/-! ## The invariant -/

structure Inv (space : τ → UInt64) (s : Hardware τ σ) : Prop where
  loaded : s.ports.Loaded
  held : ∀ m ∈ s.mapped, s.Held space m
  opened_made : ∀ g ∈ s.opened, g.thread < s.ports.sched.nextTid
  stands : ∀ g ∈ s.opened, (s.ports.sched.threads g.thread).state = .exited ∨ s.Stands g
  recorded : ∀ call ∈ s.ports.calls, call.port.toNat < iopbPorts →
    ∃ g ∈ s.opened, g.thread = call.thread ∧ g.port = call.port

section

variable {A : PageSource σ} {kernelPml4 : UInt64} {space : τ → UInt64} {s s' : Hardware τ σ}

theorem inv_start (caps : CapState τ) (store : PageStore σ) (offset : UInt64) :
    Inv space (start caps store offset) where
  loaded := PortSystem.loaded_boot
  held := fun m hm => by cases hm
  opened_made := fun g hg => by cases hg
  stands := fun g hg => by cases hg
  recorded := fun call hcall => by cases hcall

theorem Inv.backed (h : Inv space s) : Backed space s := by
  refine ⟨fun m hm _ => h.held m hm, fun c t hexec port hallows => ?_⟩
  have hcurrent := h.loaded.placed.executing c t hexec.1 hexec.2.1 hexec.2.2
  rw [h.loaded.tss_eq c t hcurrent] at hallows
  obtain ⟨hlt, hlast⟩ := (h.loaded.follows t port).mp hallows
  -- the call that opened the port, and the grant it was made for
  obtain ⟨call, hfind, -⟩ := map_eq_some_iff.mp hlast
  have hsame := List.find?_some hfind
  simp only [decide_eq_true_eq] at hsame
  obtain ⟨g, hg, hthread, hport⟩ := h.recorded call (List.mem_of_find?_eq_some hfind)
    (hsame.2 ▸ hlt)
  rw [hsame.1] at hthread
  refine ⟨g, hg, hthread, hport.trans hsame.2, ?_⟩
  obtain hexited | hstands := h.stands g hg
  · rw [hthread] at hexited
    exact absurd hexited hexec.2.2
  · exact hstands

theorem Inv.of_objects (h : Inv space s) {core : Core}
    (hobjects : core.objects = s.caps.core.objects) (store : PageStore σ) (offset : UInt64) :
    Inv space { s with
      caps := { s.caps with core }, store := store, nextUserMmioOffset := offset } := by
  refine ⟨h.loaded, ?_, h.opened_made, ?_, h.recorded⟩
  · intro m hm
    obtain ⟨t, c, cap, hspace, hres, hobject⟩ := h.held m hm
    have hres' : CapState.resolve ⟨core, s.caps.tables⟩ t c .map = .ok cap :=
      (CapabilityTable.resolve_congr _ c .map hobjects).trans hres
    exact ⟨t, c, cap, hspace, hres', hobject⟩
  · intro g hg
    refine (h.stands g hg).imp_right fun hstands => ?_
    unfold Stands at hstands ⊢
    rw [Core.currentGen_congr hobjects, Core.objectKind_congr hobjects]
    exact hstands

theorem Inv.cap [DecidableEq τ] (h : Inv space s) {call : CapCall τ}
    (horderly : s.Orderly space (.cap call)) :
    Inv space { s with caps := s.caps.step call } := by
  refine ⟨h.loaded, ?_, h.opened_made, ?_, h.recorded⟩
  · intro m hm
    obtain ⟨t, c, cap, hspace, hres, hobject⟩ := h.held m hm
    refine ⟨t, c, cap, hspace, CapState.resolve_step hres ?_, hobject⟩
    rintro destroy rfl
    exact horderly.1 m hm hobject.symm
  · intro g hg
    obtain hexited | ⟨hgen, base, count, hkind, hport⟩ := h.stands g hg
    · exact .inl hexited
    by_cases hcall : ∃ destroy, call = .revoke g.object destroy
    · obtain ⟨destroy, rfl⟩ := hcall
      exact .inl (horderly.2 g hg rfl)
    · have hsame := CapState.currentGen_step hgen fun destroy heq => hcall ⟨destroy, heq⟩
      exact .inr ⟨hsame.1, base, count, hsame.2.trans hkind, hport⟩

variable {capId : CapId} {intoPml4 : UInt64} {t : τ}

theorem held_newMappings {m : MmioMapping}
    (hm : m ∈ s.newMappings t capId intoPml4) (hspace : space t = m.pml4) : s.Held space m := by
  unfold newMappings at hm
  split at hm
  · rename_i cap physBase size hres hregion
    obtain ⟨p, -, rfl⟩ := List.mem_map.mp hm
    exact ⟨t, capId, cap, hspace, hres, rfl⟩
  · cases hm

theorem mapMmio_objects {table : CapabilityTable} {offset : UInt64}
    {k : Core} {store : PageStore σ} {r : Except DriverError UInt64 × Core × UInt64 × PageStore σ}
    (h : Driver.mapMmio A table capId intoPml4 k offset store = some r) :
    r.2.1.objects = k.objects := by
  have hregion : (Driver.mmioRegion table capId k).2.objects = k.objects := by
    unfold Driver.mmioRegion
    obtain ⟨_, hres⟩ | ⟨e, hres⟩ := table.resolve_cases capId .map k
    · rw [hres]
      dsimp only
      split <;> rfl
    · rw [hres]
      rfl
  unfold Driver.mapMmio at h
  rcases hr : Driver.mmioRegion table capId k with ⟨_ | ⟨_, _⟩, _⟩
  · rw [hr] at h hregion
    cases h
    exact hregion
  · rw [hr] at h hregion
    obtain ⟨_, -, hr'⟩ := bind_eq_some_iff.mp h
    cases hr'
    exact hregion

theorem Inv.mapMmio [DecidableEq τ] (h : Inv space s)
    (horderly : s.Orderly space (.mapMmio t capId intoPml4))
    (hs' : s.step A kernelPml4 (.mapMmio t capId intoPml4) = some s') : Inv space s' := by
  obtain ⟨⟨_, core, offset, store⟩, hmap, hs'⟩ := bind_eq_some_iff.mp hs'
  cases hs'
  have hobjects : core.objects = s.caps.core.objects := mapMmio_objects hmap
  have h' := h.of_objects hobjects store offset
  refine ⟨h'.loaded, fun m hm => ?_, h'.opened_made, h'.stands, h'.recorded⟩
  obtain hold | hnew := mem_append.mp hm
  · exact h'.held m hold
  · obtain ⟨t', c, cap, hspace, hres, hobject⟩ := held_newMappings hnew (horderly m hnew)
    have hres' : CapState.resolve ⟨core, s.caps.tables⟩ t' c .map = .ok cap :=
      (CapabilityTable.resolve_congr _ c .map hobjects).trans hres
    exact ⟨t', c, cap, hspace, hres', hobject⟩

/-! ### Opening ports -/

/-- What the calls of `allow_port_for_current` for a list of ports make of a core. -/
structure Allows (c : Cpu) (ports : List UInt16) (p p' : PortSystem) : Prop where
  sched : p'.sched = p.sched
  loaded : p'.Loaded
  calls : ∀ call ∈ p'.calls, call ∈ p.calls ∨
    (p.sched.currents c = some call.thread ∧ call.port ∈ ports)

theorem allows_foldl {c : Cpu} (ports : List UInt16) {p : PortSystem} (h : p.Loaded)
    (hstack : p.sched.stack c ≠ none) :
    Allows c ports p (ports.foldl (fun p port => p.callPort c port true) p) := by
  induction ports generalizing p with
  | nil => exact ⟨rfl, h, fun call hcall => .inl hcall⟩
  | cons port ports ih =>
    have hsched : (p.callPort c port true).sched = p.sched := by
      unfold PortSystem.callPort PortSystem.setPort
      split <;> rfl
    obtain ⟨hsched', hloaded, hcalls⟩ := ih (h.callPort hstack port true) (hsched ▸ hstack)
    refine ⟨hsched'.trans hsched, hloaded, fun call hcall => ?_⟩
    obtain hold | ⟨hcurrent, hmem⟩ := hcalls call hcall
    · obtain hnew | hold := mem_append.mp hold
      · obtain ⟨t, ht, rfl⟩ := List.mem_map.mp hnew
        exact .inr ⟨Option.mem_toList.mp ht, mem_cons_self⟩
      · exact .inl hold
    · exact .inr ⟨hsched ▸ hcurrent, mem_cons_of_mem _ hmem⟩

section

variable (h : Inv space s)

include h

theorem Inv.openPorts {c : Cpu} {cap : Capability} {base count : UInt16}
    (hstack : s.ports.sched.stack c ≠ none)
    (hgen : s.caps.core.currentGen cap.objectId = some cap.generation)
    (hkind : s.caps.core.objectKind cap.objectId = some (.portIoRange base count)) :
    Inv space (s.openPorts c cap (Driver.portRange base count)) := by
  obtain ⟨hsched, hloaded, hcalls⟩ :=
    allows_foldl (Driver.portRange base count) h.loaded hstack
  have hsched : (s.openPorts c cap (Driver.portRange base count)).ports.sched = s.ports.sched :=
    hsched
  -- the grants that are added are for the current thread and stand
  have hnew : ∀ g ∈ (s.openPorts c cap (Driver.portRange base count)).opened, g ∈ s.opened ∨
      (s.ports.sched.currents c = some g.thread ∧ s.Stands g) := by
    intro g hg
    obtain hold | hg := mem_append.mp hg
    · exact .inl hold
    · cases hcurrent : s.ports.sched.currents c with
      | none =>
        rw [hcurrent] at hg
        cases hg
      | some =>
        rw [hcurrent] at hg
        obtain ⟨port, hport, rfl⟩ := List.mem_map.mp hg
        exact .inr ⟨rfl, hgen, base, count, hkind, (mem_filter.mp hport).1⟩
  refine ⟨hloaded, h.held, ?_, ?_, ?_⟩
  · intro g hg
    rw [hsched]
    obtain hold | ⟨hcurrent, -⟩ := hnew g hg
    · exact h.opened_made g hold
    · exact h.loaded.placed.current_made hcurrent
  · intro g hg
    obtain hold | ⟨-, hstands⟩ := hnew g hg
    · refine (h.stands g hold).imp_left fun hexited => ?_
      rw [hsched]
      exact hexited
    · exact .inr hstands
  · intro call hcall hlt
    obtain hold | ⟨hcurrent, hmem⟩ := hcalls call hcall
    · obtain ⟨g, hg, hsame⟩ := h.recorded call hold hlt
      exact ⟨g, mem_append_left _ hg, hsame⟩
    · refine ⟨⟨call.thread, cap.objectId, cap.generation, call.port⟩, ?_, rfl, rfl⟩
      apply mem_append_right
      rw [hcurrent]
      exact List.mem_map.mpr ⟨call.port, mem_filter.mpr ⟨hmem, decide_eq_true hlt⟩, rfl⟩

theorem Inv.grantPortAccess {c : Cpu}
    (hstack : s.ports.sched.stack c ≠ none) : Inv space (s.grantPortAccess t capId c).2 := by
  unfold Hardware.grantPortAccess
  obtain ⟨_, hres⟩ | ⟨e, hres⟩ := (s.caps.tables t).resolve_cases capId .portIo s.caps.core
  · rw [hres]
    dsimp only
    have hgen := (CapabilityTable.resolve_ok_iff.mp (congrArg Prod.fst hres)).2.1
    split
    · rename_i base count hkind
      exact h.openPorts hstack hgen hkind
    · exact h
  · rw [hres]
    have hobjects := Core.record_objects s.caps.core (.denied capId)
    exact h.of_objects hobjects s.store s.nextUserMmioOffset

/-! ### Runs -/

theorem Inv.sched {e : Scheduler.Event} {ports : PortSystem}
    (hports : s.ports.step kernelPml4 (.sched e) = some ports) :
    Inv space { s with ports := ports } := by
  have hloaded := h.loaded.step hports
  obtain ⟨sched, hstep, rfl⟩ := map_eq_some_iff.mp hports
  have hfollow : (s.ports.follow sched e).sched = sched ∧
      (s.ports.follow sched e).calls = s.ports.calls := by
    cases e <;> exact ⟨rfl, rfl⟩
  refine ⟨hloaded, h.held, ?_, ?_, ?_⟩
  · intro g hg
    rw [hfollow.1]
    exact (h.opened_made g hg).trans_le (Scheduler.nextTid_step hstep)
  · intro g hg
    refine (h.stands g hg).imp_left fun hexited => ?_
    rw [hfollow.1]
    exact h.loaded.placed.exited_step hstep (h.opened_made g hg) hexited
  · intro call hcall
    exact h.recorded call (hfollow.2 ▸ hcall)

theorem Inv.step [DecidableEq τ] {call : HardwareCall τ} (horderly : s.Orderly space call)
    (hs' : s.step A kernelPml4 call = some s') : Inv space s' := by
  cases call with
  | cap =>
    cases hs'
    exact h.cap horderly
  | mapMmio => exact h.mapMmio horderly hs'
  | grantPortAccess =>
    obtain ⟨hidle, hs'⟩ := ite_none_right_eq_some.mp hs'
    cases hs'
    exact h.grantPortAccess hidle.2.2
  | sched =>
    obtain ⟨_, hports, rfl⟩ := map_eq_some_iff.mp hs'
    exact h.sched hports

end

end

/-- **Hardware is backed by capabilities** in every state of a run that revokes no
object in use: over any capability state and page tables at the start, and whatever the
scheduler does. -/
theorem backed_of_orderly [DecidableEq τ] (A : PageSource σ) (kernelPml4 : UInt64)
    (space : τ → UInt64) (caps : CapState τ) (store : PageStore σ) (offset : UInt64)
    (calls : List (HardwareCall τ)) (s : Hardware τ σ)
    (horderly : Meets (step A kernelPml4) (Orderly space) (start caps store offset) calls)
    (hrun : attempt (step A kernelPml4) (start caps store offset) calls = some s) :
    s.Backed space := by
  have h : Inv space s := attempt_invariant (fun _ _ _ hinv hcall hs' => hinv.step hcall hs')
    (inv_start caps store offset) horderly hrun
  exact h.backed

/-! ### A device and a serial port -/

/-- One process, in the address space 0x7000, with a page of device registers and the
ports of COM1. -/
def driverCalls : List (HardwareCall Unit) :=
  [.sched (.init 0), .cap (.createObject (.mmioRegion 0xFEB00000 4096)), .cap (.grant () 0 .map),
    .mapMmio () 0 0x7000, .cap (.createObject (.portIoRange 0x3F8 8)), .cap (.grant () 1 .portIo),
    .grantPortAccess () 1 0]

def driverStart : Hardware Unit Pmm :=
  start .boot (kernelOnly.newAddressSpace Pmm.source).2.store 0

/-- The thread exits before its ports are revoked. -/
def exitCalls : List (HardwareCall Unit) :=
  driverCalls ++ [.sched (.exitCurrent 0), .cap (.revoke 1 true)]

theorem backed_of_orderly_exit :
    Meets (step Pmm.source 0x6000) (Orderly fun _ => 0x7000) driverStart exitCalls ∧
      ∃ s, attempt (step Pmm.source 0x6000) driverStart exitCalls = some s ∧
        s.Backed (fun _ => 0x7000) ∧ s.mapped.length = 1 ∧ s.opened.length = 8 ∧
        s.caps.core.currentGen 1 = none := by
  have horderly : Meets (step Pmm.source 0x6000) (Orderly fun _ => 0x7000) driverStart
      exitCalls := by decide +kernel
  refine ⟨horderly, exists_run_imp (Q := fun s => s.mapped.length = 1 ∧ s.opened.length = 8 ∧
    s.caps.core.currentGen 1 = none) (by decide +kernel) fun s hrun hlength => ⟨?_, hlength⟩⟩
  exact backed_of_orderly Pmm.source 0x6000 (fun _ => 0x7000) _ _ _ _ s horderly hrun

theorem not_held {space : τ → UInt64} {s : Hardware τ σ} {m : MmioMapping}
    (hdead : s.caps.core.currentGen m.object = none) : ¬ s.Held space m := by
  rintro ⟨t, c, cap, -, hres, hobject⟩
  have hgen := (CapState.resolve_ok_iff.mp hres).2.1
  rw [hobject, hdead] at hgen
  cases hgen

/-- Both objects are revoked. The page is still mapped for ring 3, and the ports are still
open to the thread. -/
theorem hardware_not_backed :
    ∃ s, attempt (step Pmm.source 0x6000) driverStart
      (driverCalls ++ [.cap (.revoke 0 true), .cap (.revoke 1 true)]) = some s ∧
      (∃ m ∈ s.mapped, s.UserMapped m ∧ ¬ s.Held (fun _ => 0x7000) m) ∧
      s.ports.Executes 0 1 ∧ (s.ports.tss 0).allows 0x3F8 = true ∧
      ∀ g ∈ s.opened, ¬ s.Stands g := by
  refine exists_run_imp (Q := fun s =>
        (∃ m ∈ s.mapped, (isPresent (debugTranslate s.store.mem m.pml4 m.vaddr) = true ∧
          debugTranslate s.store.mem m.pml4 m.vaddr &&& pageUser ≠ 0 ∧
          frameFromEntry (debugTranslate s.store.mem m.pml4 m.vaddr) = frameFromEntry m.page) ∧
          s.caps.core.currentGen m.object = none) ∧
        (s.ports.sched.point 0 = .running ∧ s.ports.sched.stack 0 = some 1 ∧
          (s.ports.sched.threads 1).state ≠ .exited) ∧
        (s.ports.tss 0).allows 0x3F8 = true ∧
        ∀ g ∈ s.opened, s.caps.core.currentGen g.object = none) (by decide +kernel) ?_
  rintro s - ⟨⟨m, hm, hmapped, hdead⟩, hexec, hallows, hopened⟩
  refine ⟨⟨m, hm, hmapped, not_held hdead⟩, hexec, hallows, ?_⟩
  rintro g hg ⟨hgen, -⟩
  rw [hopened g hg] at hgen
  cases hgen

end Hardware

end AgenticOS
