import AgenticOS.Smp.Scheduler

/-!
# TLB shootdown

`shootdown_tlb` and `handle_tlb_shootdown_ipi` of `kernel_rs/src/smp.rs`, run by
all cores at once. The address is handed over in one shared slot, and the cores
acknowledge by counting up one shared counter, which the caller resets. Every
access to a shared variable is a step of its own, and both waits may be given
up at any time.

`begun` and `present` of a call and the list `flushes` are not in the source:
they say which `invlpg` came after the call had begun, and who was registered
then.
-/

namespace AgenticOS

open Foundation List Function Option

namespace Shootdown

inductive CallPoint where
  /-- The loop around the compare-exchange of `SHOOTDOWN_LOCK`. -/
  | locking
  | storeVaddr
  | storeAcks
  /-- The loop over the cores, with `target_count`. -/
  | sending (cpu : Nat) (targetCount : UInt32)
  | storeTarget (targetCount : UInt32)
  /-- The loop around the load of `TLB_SHOOTDOWN_ACKS`. -/
  | waiting (targetCount : UInt32)
  /-- After the wait, which all cores have acknowledged or not. -/
  | unlocking (passed : Bool)
  deriving DecidableEq

structure Call where
  vaddr : UInt64
  point : CallPoint
  /-- How many `invlpg` there had been when the call started. -/
  begun : Nat
  /-- Who was registered when the call started. -/
  present : Cpu → Bool

inductive HandlerPoint where
  | outside
  | load
  | invlpg (vaddr : UInt64)
  | acknowledge
  deriving DecidableEq

end Shootdown

open Shootdown in
structure Shootdown where
  /-- `APIC_ID_TO_INDEX`, by index. -/
  apicIds : Cpu → Option UInt32
  lock : Bool
  pendingVaddr : UInt64
  targetCount : UInt32
  acks : UInt32
  calls : Cpu → Option Call
  /-- The interrupts that were sent to a core and not delivered. -/
  ipis : Cpu → Nat
  handlers : Cpu → HandlerPoint
  /-- Every `invlpg` of the handlers, in their order. -/
  flushes : List (Cpu × UInt64)

namespace Shootdown

def goTo (s : Shootdown) (me : Cpu) (call : Call) (point : CallPoint) : Shootdown :=
  { s with calls := Function.update s.calls me (some { call with point := point }) }

/-- The next step of a call, where a wait goes on unless it is over. -/
def advance (s : Shootdown) (me : Cpu) (call : Call) : Shootdown :=
  match call.point with
  | .locking => s
  | .storeVaddr => { s.goTo me call .storeAcks with pendingVaddr := call.vaddr }
  | .storeAcks => { s.goTo me call (.sending 0 0) with acks := 0 }
  | .sending cpu targetCount =>
    if h : cpu < maxCpus then
      if ⟨cpu, h⟩ ≠ me ∧ (s.apicIds ⟨cpu, h⟩).isSome then
        { s.goTo me call (.sending (cpu + 1) (targetCount + 1)) with
          ipis := Function.update s.ipis ⟨cpu, h⟩ (s.ipis ⟨cpu, h⟩ + 1) }
      else s.goTo me call (.sending (cpu + 1) targetCount)
    else s.goTo me call (.storeTarget targetCount)
  | .storeTarget targetCount =>
    { s.goTo me call (if targetCount > 0 then .waiting targetCount else .unlocking false) with
      targetCount := targetCount }
  | .waiting targetCount =>
    if s.acks ≥ targetCount then s.goTo me call (.unlocking true) else s
  | .unlocking _ => { s with lock := false, calls := Function.update s.calls me none }

def handle (s : Shootdown) (c : Cpu) : Shootdown :=
  match s.handlers c with
  | .outside => s
  | .load => { s with handlers := Function.update s.handlers c (.invlpg s.pendingVaddr) }
  | .invlpg vaddr =>
    { s with
      handlers := Function.update s.handlers c .acknowledge
      flushes := s.flushes ++ [(c, vaddr)] }
  | .acknowledge =>
    { s with handlers := Function.update s.handlers c .outside, acks := s.acks + 1 }

@[simp] theorem handle_calls (s : Shootdown) (c : Cpu) : (s.handle c).calls = s.calls := by
  unfold handle; split <;> rfl

@[simp] theorem handle_apicIds (s : Shootdown) (c : Cpu) : (s.handle c).apicIds = s.apicIds := by
  unfold handle; split <;> rfl

inductive Event where
  | registerCpu (c : Cpu) (apicId : UInt32)
  | shootdownTlb (c : Cpu) (vaddr : UInt64)
  /-- The compare-exchange succeeds. -/
  | acquire (c : Cpu)
  /-- The wait for the lock is given up. -/
  | lockStuck (c : Cpu)
  | advance (c : Cpu)
  /-- The wait for the other cores is given up. -/
  | timeout (c : Cpu)
  /-- An interrupt comes in. Requests that are pending together may be delivered
  as one. -/
  | deliver (c : Cpu) (merged : Nat)
  | handle (c : Cpu)
  deriving DecidableEq

/-- A call of a core, which its handler interrupts. -/
def running (s : Shootdown) (c : Cpu) : Option Call :=
  if s.handlers c = .outside then s.calls c else none

def step (s : Shootdown) : Event → Option Shootdown
  | .registerCpu c apicId => some { s with apicIds := Function.update s.apicIds c (some apicId) }
  | .shootdownTlb c vaddr =>
    if s.handlers c = .outside ∧ (s.calls c).isNone then
      let call := ⟨vaddr, .locking, s.flushes.length, fun c' => (s.apicIds c').isSome⟩
      some { s with calls := Function.update s.calls c (some call) }
    else none
  | .acquire c => do
    let call ← s.running c
    if call.point = .locking ∧ s.lock = false then
      some { s.goTo c call .storeVaddr with lock := true }
    else none
  | .lockStuck c => do
    let call ← s.running c
    if call.point = .locking then some (s.goTo c call .storeVaddr) else none
  | .advance c => do
    let call ← s.running c
    return s.advance c call
  | .timeout c => do
    let call ← s.running c
    match call.point with
    | .waiting targetCount =>
      if s.acks < targetCount then some (s.goTo c call (.unlocking false)) else none
    | _ => none
  | .deliver c merged =>
    if s.handlers c = .outside ∧ merged < s.ipis c then
      some { s with
        ipis := Function.update s.ipis c (s.ipis c - (merged + 1))
        handlers := Function.update s.handlers c .load }
    else none
  | .handle c => some (s.handle c)

def boot : Shootdown where
  apicIds := fun _ => none
  lock := false
  pendingVaddr := 0
  targetCount := 0
  acks := 0
  calls := fun _ => none
  ipis := fun _ => 0
  handlers := fun _ => .outside
  flushes := []

/-- What a step does, and when it is made. -/
inductive Moves (s : Shootdown) : Event → Shootdown → Prop
  | registerCpu {c : Cpu} {apicId : UInt32} : Moves s (.registerCpu c apicId)
      { s with apicIds := Function.update s.apicIds c (some apicId) }
  | shootdownTlb {c : Cpu} {vaddr : UInt64} {call : Call} : s.calls c = none →
      call = ⟨vaddr, .locking, s.flushes.length, fun c' => (s.apicIds c').isSome⟩ →
      Moves s (.shootdownTlb c vaddr) { s with calls := Function.update s.calls c (some call) }
  | acquire {c : Cpu} {call : Call} : s.calls c = some call → call.point = .locking →
      s.lock = false → Moves s (.acquire c) { s.goTo c call .storeVaddr with lock := true }
  | lockStuck {c : Cpu} {call : Call} : s.calls c = some call → call.point = .locking →
      Moves s (.lockStuck c) (s.goTo c call .storeVaddr)
  | advance {c : Cpu} {call : Call} : s.calls c = some call →
      Moves s (.advance c) (s.advance c call)
  | timeout {c : Cpu} {call : Call} {targetCount : UInt32} : s.calls c = some call →
      call.point = .waiting targetCount → Moves s (.timeout c) (s.goTo c call (.unlocking false))
  | deliver {c : Cpu} {merged : Nat} : s.handlers c = .outside → merged < s.ipis c →
      Moves s (.deliver c merged)
        { s with
          ipis := Function.update s.ipis c (s.ipis c - (merged + 1))
          handlers := Function.update s.handlers c .load }
  | handle {c : Cpu} : Moves s (.handle c) (s.handle c)

theorem calls_of_running {s : Shootdown} {c : Cpu} {call : Call} (h : s.running c = some call) :
    s.calls c = some call :=
  (ite_none_right_eq_some.mp h).2

theorem moves_of_step {s s' : Shootdown} {e : Event} (h : s.step e = some s') : Moves s e s' := by
  cases e with
  | registerCpu =>
    cases h
    exact .registerCpu
  | shootdownTlb =>
    obtain ⟨⟨-, hcalls⟩, hs'⟩ := ite_none_right_eq_some.mp h
    cases hs'
    exact .shootdownTlb (isNone_iff_eq_none.mp hcalls) rfl
  | acquire =>
    obtain ⟨call, hcall, h⟩ := bind_eq_some_iff.mp h
    obtain ⟨⟨hpoint, hlock⟩, hs'⟩ := ite_none_right_eq_some.mp h
    cases hs'
    exact .acquire (calls_of_running hcall) hpoint hlock
  | lockStuck =>
    obtain ⟨call, hcall, h⟩ := bind_eq_some_iff.mp h
    obtain ⟨hpoint, hs'⟩ := ite_none_right_eq_some.mp h
    cases hs'
    exact .lockStuck (calls_of_running hcall) hpoint
  | advance =>
    obtain ⟨call, hcall, h⟩ := bind_eq_some_iff.mp h
    cases h
    exact .advance (calls_of_running hcall)
  | timeout =>
    obtain ⟨call, hcall, h⟩ := bind_eq_some_iff.mp h
    split at h
    · rename_i targetCount hpoint
      obtain ⟨-, hs'⟩ := ite_none_right_eq_some.mp h
      cases hs'
      exact .timeout (calls_of_running hcall) hpoint
    · cases h
  | deliver =>
    obtain ⟨⟨houtside, hlt⟩, hs'⟩ := ite_none_right_eq_some.mp h
    cases hs'
    exact .deliver houtside hlt
  | handle =>
    cases h
    exact .handle

/-! ## What a completed call means -/

/-- After a wait that has ended with all acknowledgements, every other core that
was registered when the call started has flushed the address since. -/
def Reached (s : Shootdown) : Prop :=
  ∀ me call, s.calls me = some call → call.point = .unlocking true →
    ∀ c, c ≠ me → call.present c = true → (c, call.vaddr) ∈ s.flushes.drop call.begun

/-- The call has left the loop around the lock and not the wait. -/
def Call.Active (call : Call) : Prop :=
  match call.point with
  | .locking | .unlocking _ => False
  | _ => True

instance (call : Call) : Decidable call.Active := by
  unfold Call.Active
  split <;> infer_instance

/-- How many requests the handler is working on. -/
def HandlerPoint.taken : HandlerPoint → Nat
  | .outside => 0
  | .load | .invlpg _ | .acknowledge => 1

/-- Requests that a core has not acknowledged. -/
def outstanding (s : Shootdown) (c : Cpu) : Nat := s.ipis c + (s.handlers c).taken

/-- No call is under way and no core has something to acknowledge. -/
def Quiet (s : Shootdown) : Prop :=
  ∀ c, s.outstanding c = 0 ∧ ∀ call ∈ s.calls c, ¬ call.Active

instance (s : Shootdown) : Decidable s.Quiet :=
  inferInstanceAs (Decidable (∀ c, s.outstanding c = 0 ∧ ∀ call ∈ s.calls c, ¬ call.Active))

/-- A call goes on behind the lock only when nothing is under way. -/
def StartsQuiet (s : Shootdown) : Event → Prop
  | .acquire _ | .lockStuck _ => s.Quiet
  | _ => True

instance (s : Shootdown) : ∀ e, Decidable (s.StartsQuiet e)
  | .acquire _ | .lockStuck _ => inferInstanceAs (Decidable s.Quiet)
  | .registerCpu .. | .shootdownTlb .. | .advance _ | .timeout _ | .deliver .. | .handle _ =>
    .isTrue trivial

/-! ## The invariant -/

/-- The call has reset the counter and got to the core `cpu`. `sent` are the
cores that it has interrupted. -/
structure Serving (s : Shootdown) (me : Cpu) (call : Call) (cpu : Nat) (targetCount : UInt32)
    (sent : Finset Cpu) : Prop where
  vaddr : s.pendingVaddr = call.vaddr
  below : ∀ c ∈ sent, c.val < cpu
  present : ∀ c, c ≠ me → call.present c = true → c.val < cpu → c ∈ sent
  count : targetCount.toNat = sent.card
  others : ∀ c, c ∉ sent → s.outstanding c = 0
  once : ∀ c, s.outstanding c ≤ 1
  acks : s.acks.toNat + ∑ c, s.outstanding c = sent.card
  loaded : ∀ c x, s.handlers c = .invlpg x → x = call.vaddr
  flushed : ∀ c ∈ sent, s.outstanding c = 0 ∨ s.handlers c = .acknowledge →
    (c, call.vaddr) ∈ s.flushes.drop call.begun

def Phase (s : Shootdown) (me : Cpu) (call : Call) : Prop :=
  match call.point with
  | .locking | .unlocking _ => True
  | .storeVaddr => ∀ c, s.outstanding c = 0
  | .storeAcks => s.pendingVaddr = call.vaddr ∧ ∀ c, s.outstanding c = 0
  | .sending cpu targetCount => ∃ sent, s.Serving me call cpu targetCount sent
  | .storeTarget targetCount | .waiting targetCount =>
    ∃ sent, s.Serving me call maxCpus targetCount sent

structure Inv (s : Shootdown) : Prop where
  alone : ∀ me me' call call', s.calls me = some call → s.calls me' = some call' →
    call.Active → call'.Active → me = me'
  begun : ∀ me call, s.calls me = some call → call.begun ≤ s.flushes.length
  present : ∀ me call c, s.calls me = some call → call.present c = true →
    (s.apicIds c).isSome = true
  phase : ∀ me call, s.calls me = some call → s.Phase me call
  reached : s.Reached

section

variable {s s' : Shootdown} {me c : Cpu} {call : Call} {cpu : Nat} {targetCount : UInt32}
  {sent : Finset Cpu}

theorem phase_of_not_active (h : ¬ call.Active) : s.Phase me call := by
  unfold Call.Active at h
  unfold Phase
  cases hpoint : call.point <;> simp_all

theorem outstanding_eq_zero : s.outstanding c = 0 ↔ s.ipis c = 0 ∧ s.handlers c = .outside := by
  unfold outstanding
  cases s.handlers c <;> simp [HandlerPoint.taken]

/-! ### The handlers -/

/-- Where no core has more or less to acknowledge. -/
theorem Serving.of_outstanding (h : s.Serving me call cpu targetCount sent)
    (hvaddr : s'.pendingVaddr = s.pendingVaddr) (hacks : s'.acks = s.acks)
    (hout : s'.outstanding = s.outstanding)
    (hloaded : ∀ c x, s'.handlers c = .invlpg x → x = call.vaddr)
    (hflushed : ∀ c ∈ sent, s.outstanding c = 0 ∨ s'.handlers c = .acknowledge →
      (c, call.vaddr) ∈ s'.flushes.drop call.begun) :
    s'.Serving me call cpu targetCount sent where
  vaddr := hvaddr.trans h.vaddr
  below := h.below
  present := h.present
  count := h.count
  others := hout ▸ h.others
  once := hout ▸ h.once
  acks := by
    rw [hacks, hout]
    exact h.acks
  loaded := hloaded
  flushed := by
    rw [hout]
    exact hflushed

theorem outstanding_handler {p : HandlerPoint} {flushes : List (Cpu × UInt64)}
    (hp : p.taken = (s.handlers c).taken) :
    outstanding { s with handlers := update s.handlers c p, flushes := flushes } =
      s.outstanding := by
  ext c'
  unfold outstanding
  dsimp only
  rw [update_apply]
  split_ifs with hc
  · rw [hc, hp]
  · rfl

theorem Serving.loaded_update (h : s.Serving me call cpu targetCount sent) {p : HandlerPoint}
    (hp : ∀ x, p ≠ .invlpg x) {c' : Cpu} {x : UInt64}
    (hx : update s.handlers c p c' = .invlpg x) : x = call.vaddr := by
  rw [update_apply] at hx
  split_ifs at hx
  · exact absurd hx (hp x)
  · exact h.loaded c' x hx

theorem Serving.flushed_update (h : s.Serving me call cpu targetCount sent) {p : HandlerPoint}
    (hp : p ≠ .acknowledge) {c' : Cpu} (hsent : c' ∈ sent)
    (hdone : s.outstanding c' = 0 ∨ update s.handlers c p c' = .acknowledge) :
    (c', call.vaddr) ∈ s.flushes.drop call.begun := by
  refine h.flushed c' hsent (hdone.imp_right fun hack => ?_)
  rw [update_apply] at hack
  split_ifs at hack
  · exact absurd hack hp
  · exact hack

theorem Serving.handle (h : s.Serving me call cpu targetCount sent)
    (hbegun : call.begun ≤ s.flushes.length) (c : Cpu) :
    (s.handle c).Serving me call cpu targetCount sent := by
  unfold Shootdown.handle
  cases hc : s.handlers c with
  | outside => exact h
  | load =>
    refine h.of_outstanding rfl rfl (outstanding_handler (by rw [hc]; rfl)) ?_ ?_
    · intro c' x hx
      dsimp only at hx
      rw [update_apply] at hx
      split_ifs at hx
      · rw [HandlerPoint.invlpg.injEq] at hx
        rw [← hx, h.vaddr]
      · exact h.loaded c' x hx
    · exact fun c' => h.flushed_update (p := .invlpg s.pendingVaddr) nofun
  | invlpg x =>
    obtain rfl := h.loaded c x hc
    refine h.of_outstanding rfl rfl (outstanding_handler (by rw [hc]; rfl)) ?_ ?_
    · exact fun c' x => h.loaded_update (p := .acknowledge) nofun
    · intro c' hsent hdone
      rw [drop_append_of_le_length hbegun, mem_append]
      by_cases hc' : c' = c
      · rw [hc']
        exact .inr (mem_singleton_self _)
      · refine .inl (h.flushed c' hsent (hdone.imp_right fun hack => ?_))
        dsimp only at hack
        rw [update_of_ne hc'] at hack
        exact hack
  | acknowledge =>
    have hone : s.outstanding c = 1 := by
      refine le_antisymm (h.once c) (Nat.one_le_iff_ne_zero.mpr fun hzero => ?_)
      rw [outstanding_eq_zero, hc] at hzero
      cases hzero.2
    have hipis : s.ipis c = 0 := by
      unfold outstanding at hone
      rw [hc] at hone
      exact Nat.succ_inj.mp hone
    have hin : c ∈ sent := by
      by_contra hout
      rw [h.others c hout] at hone
      cases hone
    have hself : outstanding { s with
        handlers := update s.handlers c .outside, acks := s.acks + 1 } c = 0 := by
      unfold outstanding
      dsimp only
      rw [update_self, hipis]
      rfl
    have hrest (c' : Cpu) (hc' : c' ≠ c) : outstanding { s with
        handlers := update s.handlers c .outside, acks := s.acks + 1 } c' = s.outstanding c' := by
      unfold outstanding
      dsimp only
      rw [update_of_ne hc']
    have hsum := sum_add_eq_of_ne c hrest
    have hcard : sent.card ≤ 32 := (Finset.card_le_univ sent).trans_eq (Fintype.card_fin maxCpus)
    refine ⟨h.vaddr, h.below, h.present, h.count, ?_, ?_, ?_, ?_, ?_⟩
    · intro c' hout
      rw [hrest c' fun heq => hout (heq ▸ hin)]
      exact h.others c' hout
    · intro c'
      by_cases hc' : c' = c
      · rw [hc', hself]
        exact Nat.zero_le 1
      · rw [hrest c' hc']
        exact h.once c'
    · have hacks := h.acks
      dsimp only
      rw [UInt32.toNat_add, UInt32.toNat_one]
      omega
    · exact fun c' x => h.loaded_update (p := .outside) nofun
    · intro c' hsent hdone
      by_cases hc' : c' = c
      · subst hc'
        exact h.flushed c' hsent (.inr hc)
      · rw [hrest c' hc'] at hdone
        dsimp only at hdone
        rw [update_of_ne hc'] at hdone
        exact h.flushed c' hsent hdone

theorem Serving.deliver (h : s.Serving me call cpu targetCount sent) {merged : Nat}
    (houtside : s.handlers c = .outside) (hlt : merged < s.ipis c) :
    Serving { s with
      ipis := update s.ipis c (s.ipis c - (merged + 1))
      handlers := update s.handlers c .load } me call cpu targetCount sent := by
  refine h.of_outstanding rfl rfl ?_ ?_ ?_
  · ext c'
    unfold outstanding
    dsimp only
    rw [update_apply, update_apply]
    split_ifs with hc'
    · have hone := h.once c
      unfold outstanding at hone
      rw [hc', houtside]
      simp only [HandlerPoint.taken] at hone ⊢
      omega
    · rfl
  · exact fun c' x => h.loaded_update (p := .load) nofun
  · exact fun c' => h.flushed_update (p := .load) nofun

theorem Phase.of_serving (h : s.Phase me call) (hbusy : s.outstanding c ≠ 0)
    (hserving : ∀ cpu targetCount sent, s.Serving me call cpu targetCount sent →
      s'.Serving me call cpu targetCount sent) : s'.Phase me call := by
  unfold Phase at h ⊢
  cases hpoint : call.point with
  | locking | unlocking => trivial
  | storeVaddr =>
    rw [hpoint] at h
    exact absurd (h c) hbusy
  | storeAcks =>
    rw [hpoint] at h
    exact absurd (h.2 c) hbusy
  | sending | storeTarget | waiting =>
    rw [hpoint] at h
    obtain ⟨sent, h⟩ := h
    exact ⟨sent, hserving _ _ _ h⟩

theorem Inv.of_phase (h : Inv s) (hcalls : s'.calls = s.calls)
    (hids : ∀ c, (s.apicIds c).isSome = true → (s'.apicIds c).isSome = true)
    (hflushes : ∃ more, s'.flushes = s.flushes ++ more)
    (hphase : ∀ me call, s.calls me = some call → s.Phase me call → s'.Phase me call) :
    Inv s' := by
  obtain ⟨more, hflushes⟩ := hflushes
  constructor
  · rw [hcalls]
    exact h.alone
  · intro me call hcall
    rw [hcalls] at hcall
    rw [hflushes, length_append]
    exact (h.begun me call hcall).trans (Nat.le_add_right _ _)
  · intro me call c hcall hpresent
    rw [hcalls] at hcall
    exact hids c (h.present me call c hcall hpresent)
  · intro me call hcall
    rw [hcalls] at hcall
    exact hphase me call hcall (h.phase me call hcall)
  · intro me call hcall hpoint c hc hpresent
    rw [hcalls] at hcall
    rw [hflushes, drop_append_of_le_length (h.begun me call hcall)]
    exact mem_append_left _ (h.reached me call hcall hpoint c hc hpresent)

theorem Inv.handle (h : Inv s) (c : Cpu) : Inv (s.handle c) := by
  by_cases hc : s.handlers c = .outside
  · unfold Shootdown.handle
    rw [hc]
    exact h
  · have hbusy : s.outstanding c ≠ 0 := fun hzero => hc (outstanding_eq_zero.mp hzero).2
    have hflushes : ∃ more, (s.handle c).flushes = s.flushes ++ more := by
      unfold Shootdown.handle
      cases s.handlers c with
      | invlpg x => exact ⟨[(c, x)], rfl⟩
      | outside | load | acknowledge => exact ⟨[], (append_nil _).symm⟩
    refine h.of_phase (handle_calls s c) (fun _ _ => by rwa [handle_apicIds]) hflushes
      fun me call hcall hphase => ?_
    exact hphase.of_serving hbusy fun _ _ _ hserving =>
      hserving.handle (h.begun me call hcall) c

theorem Inv.deliver (h : Inv s) {merged : Nat} (houtside : s.handlers c = .outside)
    (hlt : merged < s.ipis c) :
    Inv { s with
      ipis := update s.ipis c (s.ipis c - (merged + 1))
      handlers := update s.handlers c .load } := by
  have hbusy : s.outstanding c ≠ 0 := fun hzero => by
    rw [(outstanding_eq_zero.mp hzero).1] at hlt
    exact Nat.not_lt_zero _ hlt
  refine h.of_phase rfl (fun _ hc' => hc') ⟨[], (append_nil _).symm⟩ fun _ _ _ hphase => ?_
  exact hphase.of_serving hbusy fun _ _ _ hserving => hserving.deliver houtside hlt

/-! ### The calls -/

theorem Serving.of_eq (h : s.Serving me call cpu targetCount sent)
    (hvaddr : s'.pendingVaddr = s.pendingVaddr) (hacks : s'.acks = s.acks)
    (hipis : s'.ipis = s.ipis) (hhandlers : s'.handlers = s.handlers)
    (hflushes : s'.flushes = s.flushes) : s'.Serving me call cpu targetCount sent := by
  refine h.of_outstanding hvaddr hacks ?_ (hhandlers ▸ h.loaded) ?_
  · ext c
    rw [outstanding, outstanding, hipis, hhandlers]
  · rw [hhandlers, hflushes]
    exact h.flushed

theorem Phase.of_eq (h : s.Phase me call) (hvaddr : s'.pendingVaddr = s.pendingVaddr)
    (hacks : s'.acks = s.acks) (hipis : s'.ipis = s.ipis) (hhandlers : s'.handlers = s.handlers)
    (hflushes : s'.flushes = s.flushes) : s'.Phase me call := by
  have hout : s'.outstanding = s.outstanding := by
    ext c
    rw [outstanding, outstanding, hipis, hhandlers]
  unfold Phase at h ⊢
  cases hpoint : call.point with
  | locking | unlocking => trivial
  | storeVaddr =>
    rw [hpoint] at h
    rw [hout]
    exact h
  | storeAcks =>
    rw [hpoint] at h
    rw [hout, hvaddr]
    exact h
  | sending | storeTarget | waiting =>
    rw [hpoint] at h
    obtain ⟨sent, h⟩ := h
    exact ⟨sent, h.of_eq hvaddr hacks hipis hhandlers hflushes⟩

theorem Inv.goTo (h : Inv s) {point : CallPoint} (hcall : s.calls me = some call)
    (honly : ∀ me' call', s.calls me' = some call' → call'.Active → me' = me)
    (hcalls : s'.calls = update s.calls me (some { call with point := point }))
    (hids : s'.apicIds = s.apicIds) (hflushes : s'.flushes = s.flushes)
    (hphase : s'.Phase me { call with point := point })
    (hreached : point = .unlocking true → ∀ c, c ≠ me → call.present c = true →
      (c, call.vaddr) ∈ s.flushes.drop call.begun) : Inv s' := by
  have hold {me' : Cpu} {call' : Call} (hcall' : s'.calls me' = some call') :
      (me' = me ∧ call' = { call with point := point }) ∨
        (me' ≠ me ∧ s.calls me' = some call') := by
    rw [hcalls, update_apply] at hcall'
    split_ifs at hcall' with hme
    · exact .inl ⟨hme, (some_inj.mp hcall').symm⟩
    · exact .inr ⟨hme, hcall'⟩
  have hsame {me' : Cpu} {call' : Call} (hcall' : s'.calls me' = some call')
      (hactive : call'.Active) : me' = me := by
    obtain ⟨hme, -⟩ | ⟨-, hcall'⟩ := hold hcall'
    · exact hme
    · exact honly me' call' hcall' hactive
  constructor
  · intro _ _ _ _ h1 h2 hactive1 hactive2
    rw [hsame h1 hactive1, hsame h2 hactive2]
  · intro me' call' hcall'
    rw [hflushes]
    obtain ⟨-, rfl⟩ | ⟨-, hcall'⟩ := hold hcall'
    · exact h.begun me call hcall
    · exact h.begun me' call' hcall'
  · intro me' call' c hcall' hpresent
    rw [hids]
    obtain ⟨-, rfl⟩ | ⟨-, hcall'⟩ := hold hcall'
    · exact h.present me call c hcall hpresent
    · exact h.present me' call' c hcall' hpresent
  · intro me' call' hcall'
    obtain ⟨rfl, rfl⟩ | ⟨hme, hcall'⟩ := hold hcall'
    · exact hphase
    · exact phase_of_not_active fun hactive => hme (honly me' call' hcall' hactive)
  · intro me' call' hcall' hpoint c hc hpresent
    rw [hflushes]
    obtain ⟨rfl, rfl⟩ | ⟨-, hcall'⟩ := hold hcall'
    · exact hreached hpoint c hc hpresent
    · exact h.reached me' call' hcall' hpoint c hc hpresent

section

variable (h : s.Serving me call cpu targetCount sent)

include h

theorem Serving.send (hlt : cpu < maxCpus) :
    Serving { s with ipis := update s.ipis ⟨cpu, hlt⟩ (s.ipis ⟨cpu, hlt⟩ + 1) } me call
      (cpu + 1) (targetCount + 1) (insert ⟨cpu, hlt⟩ sent) := by
  have hnew : (⟨cpu, hlt⟩ : Cpu) ∉ sent := fun hmem => lt_irrefl _ (h.below _ hmem)
  have hzero := h.others _ hnew
  have hself : outstanding { s with ipis := update s.ipis ⟨cpu, hlt⟩ (s.ipis ⟨cpu, hlt⟩ + 1) }
        ⟨cpu, hlt⟩ = 1 := by
    obtain ⟨hipis, houtside⟩ := outstanding_eq_zero.mp hzero
    unfold outstanding
    dsimp only
    rw [update_self, hipis, houtside]
    rfl
  have hrest (c : Cpu) (hc : c ≠ ⟨cpu, hlt⟩) : outstanding
      { s with ipis := update s.ipis ⟨cpu, hlt⟩ (s.ipis ⟨cpu, hlt⟩ + 1) } c = s.outstanding c := by
    unfold outstanding
    dsimp only
    rw [update_of_ne hc]
  have hsum := sum_add_eq_of_ne (⟨cpu, hlt⟩ : Cpu) hrest
  rw [hzero, hself, add_zero] at hsum
  have hcard := Finset.card_insert_of_notMem hnew
  have hbound : (insert (⟨cpu, hlt⟩ : Cpu) sent).card ≤ 32 :=
    (Finset.card_le_univ _).trans_eq (Fintype.card_fin maxCpus)
  refine ⟨h.vaddr, ?_, ?_, ?_, ?_, ?_, ?_, h.loaded, ?_⟩
  · intro c hc
    obtain rfl | hc := Finset.mem_insert.mp hc
    · exact Nat.lt_succ_self cpu
    · exact Nat.lt_succ_of_lt (h.below c hc)
  · intro c hme hpresent hc
    rw [Finset.mem_insert]
    obtain hc | rfl := Nat.lt_succ_iff_lt_or_eq.mp hc
    · exact .inr (h.present c hme hpresent hc)
    · exact .inl rfl
  · have hcount := h.count
    rw [UInt32.toNat_add, UInt32.toNat_one]
    omega
  · intro c hc
    rw [Finset.mem_insert, not_or] at hc
    rw [hrest c hc.1]
    exact h.others c hc.2
  · intro c
    by_cases hc : c = ⟨cpu, hlt⟩
    · rw [hc, hself]
    · rw [hrest c hc]
      exact h.once c
  · rw [hsum, hcard, ← h.acks, add_assoc]
  · intro c hc hdone
    by_cases hcpu : c = ⟨cpu, hlt⟩
    · -- the core has just been interrupted, and was outside of the handler
      subst hcpu
      rw [hself] at hdone
      obtain hdone | hdone := hdone
      · cases hdone
      · rw [(outstanding_eq_zero.mp hzero).2] at hdone
        cases hdone
    · rw [hrest c hcpu] at hdone
      exact h.flushed c (Finset.mem_of_mem_insert_of_ne hc hcpu) hdone

theorem Serving.skip (hskip : ∀ c : Cpu, c.val = cpu → c ≠ me → call.present c = false) :
    s.Serving me call (cpu + 1) targetCount sent := by
  refine { h with below := fun c hc => Nat.lt_succ_of_lt (h.below c hc), present := ?_ }
  intro c hme hpresent hc
  obtain hc | hc := Nat.lt_succ_iff_lt_or_eq.mp hc
  · exact h.present c hme hpresent hc
  · rw [hskip c hc hme] at hpresent
    cases hpresent

theorem Serving.all (hcpu : maxCpus ≤ cpu) : s.Serving me call maxCpus targetCount sent :=
  { h with
    below := fun c _ => c.isLt
    present := fun c hme hpresent hc => h.present c hme hpresent (hc.trans_le hcpu) }

theorem Serving.outstanding_eq_zero (hacks : s.acks ≥ targetCount) (c : Cpu) :
    s.outstanding c = 0 := by
  have hge : targetCount.toNat ≤ s.acks.toNat := UInt32.le_iff_toNat_le.mp hacks
  have hsum : ∑ c, s.outstanding c = 0 := by
    have hcount := h.count
    have hacks := h.acks
    omega
  exact Finset.sum_eq_zero_iff.mp hsum c (Finset.mem_univ c)

end

/-- **All have acknowledged**: all have flushed. -/
theorem Serving.reached (h : s.Serving me call maxCpus targetCount sent)
    (hacks : s.acks ≥ targetCount) (c : Cpu) (hme : c ≠ me) (hpresent : call.present c = true) :
    (c, call.vaddr) ∈ s.flushes.drop call.begun :=
  h.flushed c (h.present c hme hpresent c.isLt) (.inl (h.outstanding_eq_zero hacks c))

theorem Serving.atPoint (h : s.Serving me call cpu targetCount sent) (point : CallPoint) :
    s.Serving me { call with point := point } cpu targetCount sent :=
  { h with }

theorem Serving.phase_sending (h : s.Serving me call cpu targetCount sent) :
    s.Phase me { call with point := .sending cpu targetCount } :=
  ⟨sent, h.atPoint _⟩

section

variable (h : s.Serving me call maxCpus targetCount sent)

include h

theorem Serving.phase_storeTarget : s.Phase me { call with point := .storeTarget targetCount } :=
  ⟨sent, h.atPoint _⟩

theorem Serving.phase_waiting : s.Phase me { call with point := .waiting targetCount } :=
  ⟨sent, h.atPoint _⟩

end

theorem Inv.only (h : Inv s) (hcall : s.calls me = some call) (hactive : call.Active) (me' : Cpu)
    (call' : Call) (hcall' : s.calls me' = some call') (hactive' : call'.Active) : me' = me :=
  h.alone me' me call' call hcall' hcall hactive' hactive

theorem Inv.advance (h : Inv s) (hcall : s.calls me = some call) : Inv (s.advance me call) := by
  have hphase := h.phase me call hcall
  have honly := h.only hcall
  unfold Phase at hphase
  unfold Shootdown.advance
  unfold Call.Active at honly
  cases hpoint : call.point with
  | locking => exact h
  | storeVaddr =>
    rw [hpoint] at hphase honly
    exact h.goTo hcall (honly trivial) rfl rfl rfl ⟨rfl, hphase⟩ nofun
  | storeAcks =>
    rw [hpoint] at hphase honly
    obtain ⟨hvaddr, hquiet⟩ := hphase
    have hserving : Serving { s with acks := 0 } me call 0 0 ∅ := by
      refine ⟨hvaddr, nofun, nofun, rfl, fun c _ => hquiet c, fun c => ?_, ?_, ?_, nofun⟩
      · exact (hquiet c).trans_le (Nat.zero_le 1)
      · show (0 : UInt32).toNat + ∑ c, s.outstanding c = _
        rw [UInt32.toNat_zero, zero_add, Finset.card_empty]
        exact Finset.sum_eq_zero fun c _ => hquiet c
      · intro c x hx
        have houtside := (outstanding_eq_zero.mp (hquiet c)).2
        rw [houtside] at hx
        cases hx
    exact h.goTo hcall (honly trivial) rfl rfl rfl
      (hserving.phase_sending.of_eq rfl rfl rfl rfl rfl) nofun
  | sending cpu =>
    rw [hpoint] at hphase honly
    obtain ⟨sent, hserving⟩ := hphase
    dsimp only
    split_ifs with hlt hsend
    · exact h.goTo hcall (honly trivial) rfl rfl rfl
        ((hserving.send hlt).phase_sending.of_eq rfl rfl rfl rfl rfl) nofun
    · refine h.goTo hcall (honly trivial) rfl rfl rfl
        ((hserving.skip ?_).phase_sending.of_eq rfl rfl rfl rfl rfl) nofun
      intro c hc hme
      by_contra hpresent
      have hids := h.present me call c hcall (Bool.eq_true_of_not_eq_false hpresent)
      obtain rfl : c = ⟨cpu, hlt⟩ := Fin.ext hc
      exact hsend ⟨hme, hids⟩
    · exact h.goTo hcall (honly trivial) rfl rfl rfl
        ((hserving.all (not_lt.mp hlt)).phase_storeTarget.of_eq rfl rfl rfl rfl rfl) nofun
  | storeTarget =>
    rw [hpoint] at hphase honly
    obtain ⟨sent, hserving⟩ := hphase
    dsimp only
    split_ifs
    · exact h.goTo hcall (honly trivial) rfl rfl rfl
        (hserving.phase_waiting.of_eq rfl rfl rfl rfl rfl) nofun
    · exact h.goTo hcall (honly trivial) rfl rfl rfl trivial nofun
  | waiting =>
    rw [hpoint] at hphase honly
    obtain ⟨sent, hserving⟩ := hphase
    dsimp only
    split_ifs with hacks
    · exact h.goTo hcall (honly trivial) rfl rfl rfl trivial fun _ => hserving.reached hacks
    · exact h
  | unlocking =>
    have hold {me' : Cpu} {call' : Call} (hcall' : update s.calls me none me' = some call') :
        s.calls me' = some call' := by
      rw [update_apply] at hcall'
      split_ifs at hcall'
      exact hcall'
    constructor
    · exact fun me1 me2 call1 call2 h1 h2 => h.alone me1 me2 call1 call2 (hold h1) (hold h2)
    · exact fun me' call' hcall' => h.begun me' call' (hold hcall')
    · exact fun me' call' c hcall' => h.present me' call' c (hold hcall')
    · exact fun me' call' hcall' =>
        (h.phase me' call' (hold hcall')).of_eq rfl rfl rfl rfl rfl
    · exact fun me' call' hcall' => h.reached me' call' (hold hcall')

theorem inv_boot : Inv boot := by
  constructor
  · intro _ _ _ _ hcall
    cases hcall
  · intro _ _ hcall
    cases hcall
  · intro _ _ _ hcall
    cases hcall
  · intro _ _ hcall
    cases hcall
  · intro _ _ hcall
    cases hcall

theorem Inv.shootdownTlb (h : Inv s) {vaddr : UInt64}
    (hcall : call = ⟨vaddr, .locking, s.flushes.length, fun c' => (s.apicIds c').isSome⟩) :
    Inv { s with calls := update s.calls c (some call) } := by
  have hold {me' : Cpu} {call' : Call} (hcall' : update s.calls c (some call) me' = some call') :
      call' = call ∨ s.calls me' = some call' := by
    rw [update_apply] at hcall'
    split_ifs at hcall'
    · exact .inl (some_inj.mp hcall').symm
    · exact .inr hcall'
  have hidle : ¬ call.Active := by
    rw [hcall]
    exact id
  constructor
  · intro me1 me2 call1 call2 h1 h2 hactive1 hactive2
    obtain rfl | h1 := hold h1
    · exact absurd hactive1 hidle
    · obtain rfl | h2 := hold h2
      · exact absurd hactive2 hidle
      · exact h.alone me1 me2 call1 call2 h1 h2 hactive1 hactive2
  · intro me' call' hcall'
    obtain rfl | hcall' := hold hcall'
    · rw [hcall]
    · exact h.begun me' call' hcall'
  · intro me' call' c' hcall' hpresent
    obtain rfl | hcall' := hold hcall'
    · rw [hcall] at hpresent
      exact hpresent
    · exact h.present me' call' c' hcall' hpresent
  · intro me' call' hcall'
    obtain rfl | hcall' := hold hcall'
    · exact phase_of_not_active hidle
    · exact (h.phase me' call' hcall').of_eq rfl rfl rfl rfl rfl
  · intro me' call' hcall' hpoint
    obtain rfl | hcall' := hold hcall'
    · rw [hcall] at hpoint
      cases hpoint
    · exact h.reached me' call' hcall' hpoint

theorem Quiet.only (h : s.Quiet) (me' : Cpu) (call' : Call) (hcall' : s.calls me' = some call')
    (hactive : call'.Active) : me' = me :=
  absurd hactive ((h me').2 call' hcall')

theorem Inv.step {e : Event} (h : Inv s) (hquiet : s.StartsQuiet e) (hstep : s.step e = some s') :
    Inv s' := by
  cases moves_of_step hstep with
  | @registerCpu c apicId =>
    refine h.of_phase rfl (fun _ hc' => ?_) ⟨[], (append_nil _).symm⟩
      fun _ call _ hphase => hphase.of_eq rfl rfl rfl rfl rfl
    dsimp only
    rw [update_apply]
    split_ifs
    · rfl
    · exact hc'
  | shootdownTlb _ hcall => exact h.shootdownTlb hcall
  | acquire hcall _ _ | lockStuck hcall _ =>
    exact h.goTo hcall hquiet.only rfl rfl rfl (fun c => (hquiet c).1) nofun
  | advance hcall => exact h.advance hcall
  | @timeout c call targetCount hcall hpoint =>
    have hactive : call.Active := by
      unfold Call.Active
      rw [hpoint]
      trivial
    exact h.goTo hcall (h.only hcall hactive) rfl rfl rfl trivial nofun
  | deliver houtside hlt => exact h.deliver houtside hlt
  | handle => exact h.handle _

end

/-- **A completed shootdown has reached every core**, in every run in which a
call gets behind the lock only when no other is under way and nothing is left to
be acknowledged. -/
theorem shootdown_reached {s : Shootdown} {events : List Event}
    (hrun : attempt step boot events = some s) (hquiet : Meets step StartsQuiet boot events) :
    s.Reached :=
  (attempt_invariant (fun _ _ _ h hquiet hstep => Inv.step h hquiet hstep) inv_boot hquiet
    hrun).reached

/-- The steps of a call from behind the lock to the wait: three stores and the
loop over the cores. -/
def requests (c : Cpu) : List Event := List.replicate (2 + (maxCpus + 1) + 1) (.advance c)

/-- The core 0 shoots down a page that the core 1 has in its TLB. -/
theorem shootdown_reached_two_cores : ∃ s, attempt step boot
      ([.registerCpu 0 0, .registerCpu 1 1, .shootdownTlb 0 0x1000, .acquire 0] ++ requests 0 ++
        [.deliver 1 0, .handle 1, .handle 1, .handle 1, .advance 0]) = some s ∧
      (s.calls 0).map Call.point = some (.unlocking true) ∧ s.Reached := by
  refine exists_run_imp (Q := fun s => (s.calls 0).map Call.point = some (.unlocking true))
    (by decide +kernel) fun s hrun hpoint => ⟨hpoint, ?_⟩
  exact shootdown_reached hrun (by decide +kernel)

/-- The first call is given up while the core 1 is in its handler, with the old
address loaded. Its acknowledgement counts for the second call, which completes
before the core 1 has flushed the new address. -/
theorem shootdown_late_ack : ∃ s, attempt step boot
      ([.registerCpu 0 0, .registerCpu 1 1, .shootdownTlb 0 0x1000, .acquire 0] ++ requests 0 ++
        [.deliver 1 0, .handle 1, .timeout 0, .advance 0, .shootdownTlb 0 0x2000, .acquire 0,
          .advance 0, .advance 0, .handle 1, .handle 1] ++
        List.replicate (maxCpus + 2) (.advance 0) ++ [.advance 0]) = some s ∧
      (s.calls 0).map (fun call => (call.vaddr, call.point)) = some (0x2000, .unlocking true) ∧
      s.flushes = [(1, 0x1000)] ∧ ¬ s.Reached := by
  refine exists_run_imp (Q := fun s => s.flushes = [(1, 0x1000)] ∧
      ∃ call, s.calls 0 = some call ∧
        call.vaddr = 0x2000 ∧ call.point = .unlocking true ∧ call.present 1)
    (by decide +kernel) ?_
  rintro s - ⟨hflushes, call, hcall, hvaddr, hpoint, hpresent⟩
  refine ⟨by rw [hcall, map_some, hvaddr, hpoint], hflushes, fun hreached => ?_⟩
  have hmem := mem_of_mem_drop (hreached 0 call hcall hpoint 1 (by decide) hpresent)
  rw [hflushes, hvaddr] at hmem
  exact absurd hmem (by decide)

end Shootdown

end AgenticOS
