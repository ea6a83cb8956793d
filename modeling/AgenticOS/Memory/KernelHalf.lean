import AgenticOS.Memory.Vmm

/-!
# The kernel half of every address space

`new_address_space` copies the upper 256 words of the kernel's PML4, and from
then on the two share what these words name. A word that is absent when it is
copied stays absent in the copy: a mapping that later puts a table there
reaches the kernel's PML4 only. So the kernel half is the same everywhere as
long as no mapping needs a new top-level entry while there are processes.
-/

namespace AgenticOS.Vmm

open Foundation List Option

variable {σ : Type} {A : PageSource σ} {k k' : Vmm σ} {c : VmmCall} {ret r v : UInt64}

/-! ## The property and its condition -/

/-- What translates in the kernel half of the kernel's PML4 translates to the
same entry in every address space. -/
def KernelHalfShared (k : Vmm σ) : Prop :=
  ∀ r ∈ k.spaces, ∀ v, ¬ InUserHalf v →
    isPresent (debugTranslate k.store.mem k.kernelPml4 v) = true →
      debugTranslate k.store.mem r v = debugTranslate k.store.mem k.kernelPml4 v

/-- The call needs no new kernel-half entry of the kernel's PML4, or there is
no address space that would miss it. -/
def NeedsNoSlot (k : Vmm σ) (c : VmmCall) : Prop :=
  k.spaces = [] ∨ ∀ e ∈ k.entries c,
    InUserHalf e.1 ∨ isPresent (k.store.mem k.kernelPml4 (pml4Index e.1)) = true

instance (k : Vmm σ) (c : VmmCall) : Decidable (k.NeedsNoSlot c) :=
  inferInstanceAs (Decidable (_ ∨ _))

/-- Making and destroying address spaces, and mapping into the windows of the
kernel. -/
def KernelCall (k : Vmm σ) : VmmCall → Prop
  | .mapPageIn _ _ _ _ => False
  | .unmapPage _ _ => False
  | .destroyAddressSpace pml4 => pml4 ∈ k.spaces
  | _ => True

/-! ## The invariant -/

variable (A) in
/-- Every address space has the kernel half of the kernel's PML4 and nothing
below it. -/
structure Aligned (k : Vmm σ) : Prop where
  sound : k.Sound A
  kernel : k.kernelPml4 ∉ k.spaces
  upper : ∀ r ∈ k.spaces, ∀ i, 256 ≤ i → i < 512 →
    k.store.mem r i = k.store.mem k.kernelPml4 i
  lower : ∀ r ∈ k.spaces, ∀ i < 256, k.store.mem r i = 0

variable {mem : PhysicalMemory}

theorem debugTranslate_root_congr {r r' : UInt64} (h : mem r (pml4Index v) = mem r' (pml4Index v)) :
    debugTranslate mem r v = debugTranslate mem r' v := by
  simp only [debugTranslate, pml4Index] at h ⊢
  rw [h]

theorem debugTranslate_of_absent
    (h : isPresent (mem r (pml4Index v)) = false) : debugTranslate mem r v = 0 := by
  simp only [pml4Index] at h
  simp only [debugTranslate, h, Bool.not_false, if_true]

theorem Aligned.shared (h : Aligned A k) : k.KernelHalfShared := by
  intro r hr v hv _
  apply debugTranslate_root_congr
  exact h.upper r hr _ (not_lt.mp hv) (pml4Index_lt v)

/-! ## One call -/

theorem present_of_mem_entries (hc : k.KernelCall c) {e : UInt64 × UInt64}
    (he : e ∈ k.entries c) : isPresent e.2 = true := by
  cases c with
  | newAddressSpace | destroyAddressSpace => cases he
  | mapPageIn | unmapPage => exact absurd hc id
  | mapHeapPage =>
    rw [mem_singleton.mp he]
    exact isPresent_leafEntry _ _
  | mapMmioPage | mapFramebufferPage =>
    simp only [entries] at he
    split_ifs at he with hcache
    · rw [mem_singleton.mp he]
      exact isPresent_leafEntry _ _
    · cases he
  | mapFramebufferRange =>
    rcases List.mem_map.mp he with ⟨n, -, rfl⟩
    exact isPresent_leafEntry _ _

theorem KernelCall.target_eq (hc : k.KernelCall c) : target k.kernelPml4 c = k.kernelPml4 := by
  cases c with
  | mapPageIn | unmapPage => exact absurd hc id
  | _ => rfl

theorem Aligned.space_words (h : Aligned A k) {entries : List (UInt64 × UInt64)}
    {s : PageStore σ} (hset : SetsEntries A k.roots k.kernelPml4 entries k.store s)
    (hr : r ∈ k.spaces) (i : Nat) : s.mem r i = k.store.mem r i := by
  by_contra hne
  rcases hset.rootWords (mem_roots_of_mem_spaces hr) hne with ⟨rfl, -⟩
  exact h.kernel hr

theorem Aligned.create (h : Aligned A k) (hcreated : Created A k k' ret) : Aligned A k' := by
  have hspaces (r : UInt64) (hr : r ∈ k'.spaces) : r ∈ k.spaces ∨ (r = ret ∧ ret ≠ 0) := by
    rw [hcreated.spaces] at hr
    split_ifs at hr with hnull
    · exact .inl hr
    · rcases mem_cons.mp hr with rfl | hr
      · exact .inr ⟨rfl, hnull⟩
      · exact .inl hr
  have hkernel (i : Nat) : k'.store.mem k'.kernelPml4 i = k.store.mem k.kernelPml4 i := by
    rw [hcreated.kernelPml4, hcreated.words k.kernelPml4_mem_roots]
  constructor
  · exact hcreated.sound
  · rw [hcreated.kernelPml4]
    intro hmem
    rcases hspaces _ hmem with hmem | ⟨heq, hne⟩
    · exact h.kernel hmem
    · exact hcreated.fresh hne (heq ▸ k.kernelPml4_mem_roots)
  · intro r hr i hlow hhigh
    rw [hkernel]
    rcases hspaces r hr with hr | ⟨rfl, hne⟩
    · rw [hcreated.words (mem_roots_of_mem_spaces hr), h.upper r hr i hlow hhigh]
    · rw [hcreated.newWords hne, if_pos ⟨hlow, hhigh⟩]
  · intro r hr i hi
    rcases hspaces r hr with hr | ⟨rfl, hne⟩
    · rw [hcreated.words (mem_roots_of_mem_spaces hr), h.lower r hr i hi]
    · rw [hcreated.newWords hne, if_neg fun hrange => absurd hi (not_lt.mpr hrange.1)]

theorem destroyedFrames_eq (h : ∀ i < 256, mem r i = 0) : destroyedFrames mem r = [r] := by
  rw [destroyedFrames, freedBelow, flatMap_eq_nil_iff.mpr, nil_append]
  intro i hi
  rw [h i (mem_range.mp hi)]
  rfl

theorem Aligned.destroy (h : Aligned A k) (hr : r ∈ k.spaces) :
    Aligned A (k.destroyAddressSpace A r) := by
  have hroot := mem_roots_of_mem_spaces hr
  have hzero : r ≠ 0 := by
    have hreal := h.sound.real (EntryFormat.tableAt_root (pml4Depth_of_mem hroot))
    rwa [A.null_eq] at hreal
  have hkernel : r ≠ k.kernelPml4 := by
    rintro rfl
    exact h.kernel hr
  have hsound : (k.destroyAddressSpace A r).Sound A := by
    apply destroyAddressSpace_sound h.sound hzero hkernel
    intro f hf r' hr' hne _ ht
    rw [destroyedFrames_eq (h.lower r hr), mem_singleton] at hf
    subst hf
    exact hne (h.sound.forest.root_unique (pml4Depth_of_mem hroot) ht).2
  rw [destroyAddressSpace, if_neg (not_or.mpr ⟨hzero, hkernel⟩)] at hsound ⊢
  have hspaces (r' : UInt64) (hr' : r' ∈ k.spaces.filter (· ≠ r)) : r' ∈ k.spaces :=
    (mem_filter.mp hr').1
  constructor
  · exact hsound
  · exact fun hmem => h.kernel (hspaces _ hmem)
  · exact fun r' hr' => h.upper r' (hspaces r' hr')
  · exact fun r' hr' => h.lower r' (hspaces r' hr')

/-- **One call keeps the kernel halves together** if it needs no new slot. -/
theorem Aligned.call (h : Aligned A k) (hc : k.KernelCall c) (hslot : k.NeedsNoSlot c)
    (hcall : k.call A c = some (ret, k')) : Aligned A k' := by
  by_cases hnew : c = .newAddressSpace
  · subst hnew
    exact h.create (call_creates h.sound hcall)
  by_cases hdestroy : ∃ pml4, c = .destroyAddressSpace pml4
  · rcases hdestroy with ⟨pml4, rfl⟩
    cases hcall
    exact h.destroy hc
  have htarget : target k.kernelPml4 c ∈ k.roots := by
    rw [hc.target_eq]
    exact k.kernelPml4_mem_roots
  rcases call_sets h.sound hnew (not_exists.mp hdestroy) htarget hcall with
    ⟨hkernel, hspaces, hset⟩
  rw [hc.target_eq] at hset
  constructor
  · rw [Sound, roots, hkernel, hspaces]
    exact hset.sound
  · rw [hkernel, hspaces]
    exact h.kernel
  · intro r hr i hlow hhigh
    rw [hspaces] at hr
    rw [hkernel, h.space_words hset hr, h.upper r hr i hlow hhigh]
    by_contra hne
    rcases hset.rootWords k.kernelPml4_mem_roots (Ne.symm hne) with ⟨-, ⟨e, he, rfl⟩, habsent⟩
    rcases hslot with hnone | hslot
    · rw [hnone] at hr
      cases hr
    · rcases hslot e he with huser | hpresent
      · exact absurd huser (not_lt.mpr hlow)
      · rw [habsent] at hpresent
        cases hpresent
  · intro r hr i hi
    rw [hspaces] at hr
    rw [h.space_words hset hr, h.lower r hr i hi]

theorem Aligned.call_parts (h : Aligned A k) (hc : k.KernelCall c) (hslot : ¬ k.NeedsNoSlot c)
    (hcall : k.call A c = some (ret, k')) : ¬ k'.KernelHalfShared := by
  simp only [NeedsNoSlot, not_or, not_forall, Bool.not_eq_true] at hslot
  rcases hslot with ⟨hsome, e, he, huser, habsent⟩
  rcases exists_mem_of_ne_nil _ hsome with ⟨r, hr⟩
  have hnew : c ≠ .newAddressSpace := by
    rintro rfl
    cases he
  have hdestroy : ∀ pml4, c ≠ .destroyAddressSpace pml4 := by
    rintro pml4 rfl
    cases he
  have htarget : target k.kernelPml4 c ∈ k.roots := by
    rw [hc.target_eq]
    exact k.kernelPml4_mem_roots
  rcases call_sets h.sound hnew hdestroy htarget hcall with ⟨hkernel, hspaces, hset⟩
  rw [hc.target_eq] at hset
  -- the page of `e` is mapped in the kernel's PML4 and not in that of `r`
  have hpresent : isPresent (debugTranslate k'.store.mem k.kernelPml4 e.1) = true :=
    hset.present k.kernelPml4_mem_roots (fun _ => present_of_mem_entries hc) he
  have hmissing : debugTranslate k'.store.mem r e.1 = 0 := by
    apply debugTranslate_of_absent
    rw [h.space_words hset hr, h.upper r hr _ (not_lt.mp huser) (pml4Index_lt _)]
    exact habsent
  intro hshared
  have hsame := hshared r (hspaces ▸ hr) e.1 huser (hkernel ▸ hpresent)
  rw [hkernel, hmissing] at hsame
  rw [← hsame] at hpresent
  cases hpresent

/-! ## Runs -/

theorem Booted.aligned (h : Booted A k) : Aligned A k := by
  rcases h.sound with ⟨hs, hspaces⟩
  constructor
  · exact hs
  all_goals simp [hspaces]

/-- **The kernel half is shared exactly as long as no slot is missing.** In
every run of calls from a booted kernel, all states have the kernel half of the
kernel's PML4 in every address space if and only if no call needs a new
top-level entry in the kernel half while there is an address space. -/
theorem kernel_half_shared_iff {σ : Type} (A : PageSource σ) {k₀ k : Vmm σ}
    {calls : List VmmCall} (hboot : Booted A k₀) (hcalls : Meets (step A) KernelCall k₀ calls)
    (hrun : attempt (step A) k₀ calls = some k) :
    (∀ pre post k₁, calls = pre ++ post → attempt (step A) k₀ pre = some k₁ → k₁.KernelHalfShared) ↔
      Meets (step A) NeedsNoSlot k₀ calls := by
  have hstep {k₁ k2 : Vmm σ} {c : VmmCall} (h : step A k₁ c = some k2) :
      ∃ ret, k₁.call A c = some (ret, k2) := by
    rcases map_eq_some_iff.mp h with ⟨⟨ret, k2⟩, hcall, rfl⟩
    exact ⟨ret, hcall⟩
  have hkeep (k₁ : Vmm σ) (c : VmmCall) (k2 : Vmm σ) (h : Aligned A k₁) (hc : k₁.KernelCall c)
      (hslot : k₁.NeedsNoSlot c) (hs : step A k₁ c = some k2) : Aligned A k2 := by
    rcases hstep hs with ⟨ret, hcall⟩
    exact h.call hc hslot hcall
  have hbreak (k₁ : Vmm σ) (c : VmmCall) (k2 : Vmm σ) (h : Aligned A k₁)
      (hc : k₁.KernelCall c) (hslot : ¬ k₁.NeedsNoSlot c) (hs : step A k₁ c = some k2) :
      ¬ k2.KernelHalfShared := by
    rcases hstep hs with ⟨ret, hcall⟩
    exact h.call_parts hc hslot hcall
  exact attempt_forall_iff_meets (fun _ h => h.shared) hkeep hbreak hboot.aligned hcalls hrun

theorem exists_mapMmioPage (k : Vmm Nat) (p : UInt64) (h : k.store.frames + 3 < 2 ^ 40) :
    ∃ ret k', k.call countingSource (.mapMmioPage p) = some (ret, k') ∧
      k'.store.frames ≤ k.store.frames + 3 := by
  rcases exists_mapPage k.store k.kernelPml4 (mmioVirtualBase + (p &&& ~~~0xFFF))
    (p &&& ~~~0xFFF) mmioFlags h with ⟨s, hmap, hle⟩
  simp only [Vmm.call, mapMmioPage]
  split_ifs with hcache
  · simp only [mapPageIn, hmap, bind_eq_bind, bind_some, Option.pure_def]
    exact ⟨_, _, rfl, hle⟩
  · exact ⟨_, _, rfl, Nat.le_add_right _ _⟩

/-- The Local APIC mapped first, then a process made. -/
theorem kernel_half_shared_apic_first :
    ∃ k₀ k : Vmm Nat, Booted countingSource k₀ ∧ k.spaces ≠ [] ∧
      attempt (step countingSource) k₀ [.mapMmioPage 0xFEE00000, .newAddressSpace] = some k ∧
      k.KernelHalfShared := by
  rcases exists_init 0x400000 with ⟨k₀, hinit, _, -⟩
  have hboot : Booted countingSource k₀ := ⟨_, _, _, _, trivial, hinit⟩
  rcases exists_mapMmioPage k₀ 0xFEE00000 (by omega) with ⟨_, k1, hcall1, _⟩
  have hstep1 : step countingSource k₀ (.mapMmioPage 0xFEE00000) = some k1 := by
    rw [step, hcall1]
    rfl
  have hrun : attempt (step countingSource) k₀ [.mapMmioPage 0xFEE00000, .newAddressSpace] =
      some (k1.newAddressSpace countingSource).2 := by
    rw [attempt_cons, hstep1]
    rfl
  have hcalls : Meets (step countingSource) KernelCall k₀
      [.mapMmioPage 0xFEE00000, .newAddressSpace] :=
    ⟨trivial, fun _ _ => ⟨trivial, fun _ _ => trivial⟩⟩
  have hslots : Meets (step countingSource) NeedsNoSlot k₀
      [.mapMmioPage 0xFEE00000, .newAddressSpace] :=
    ⟨.inl hboot.sound.2, fun _ _ => ⟨.inr (by simp [entries]), fun _ _ => trivial⟩⟩
  refine ⟨k₀, (k1.newAddressSpace countingSource).2, hboot, ?_, hrun, ?_⟩
  · have hne := (newAddressSpace_counting k1 (by omega)).1
    intro hnil
    have hnew : (k1.newAddressSpace countingSource).2.spaces =
        (k1.newAddressSpace countingSource).1 :: k1.spaces := if_neg hne
    rw [hnew] at hnil
    cases hnil
  · exact (kernel_half_shared_iff countingSource hboot hcalls hrun).mpr hslots _ [] _
      (append_nil _).symm hrun

/-- The process made first, and then a framebuffer at 512 GiB mapped: the
process does not see it. -/
theorem framebuffer_missing_in_process :
    ∃ k₀ k : Vmm Nat, Booted countingSource k₀ ∧ attempt (step countingSource) k₀
        [.newAddressSpace, .mapFramebufferRange 0x8000000000 0x1000] = some k ∧
      ¬ k.KernelHalfShared := by
  rcases exists_init 0x400000 with ⟨k₀, hinit, _, hbare⟩
  have hboot : Booted countingSource k₀ := ⟨_, _, _, _, trivial, hinit⟩
  rcases newAddressSpace_counting k₀ (by omega) with ⟨hne, hframes1⟩
  have hcreated := newAddressSpace_spec hboot.sound.1
  have hstep1 : step countingSource k₀ .newAddressSpace =
      some (k₀.newAddressSpace countingSource).2 := rfl
  generalize (k₀.newAddressSpace countingSource).2 = k1 at hframes1 hcreated hstep1
  rcases exists_mapRange k1.store k1.kernelPml4 (mmioVirtualBase + 0x8000000000) 0x8000000000
    framebufferFlags 1 (by omega) with ⟨s, hmap, -⟩
  have hcall : k1.call countingSource (.mapFramebufferRange 0x8000000000 0x1000) =
      some (0, { k1 with store := s, lastFbPage := 0x8000000000 }) := by
    have hstart : (0x8000000000 : UInt64) &&& ~~~0xFFF = 0x8000000000 := by decide
    have hpages : framebufferPages 0x8000000000 0x1000 = 1 := by decide
    simp only [Vmm.call, mapFramebufferRange, hstart, hpages, hmap, bind_eq_bind,
      bind_some, Option.pure_def, map_some]
  have hrun : attempt (step countingSource) k₀
      [.newAddressSpace, .mapFramebufferRange 0x8000000000 0x1000] =
        some { k1 with store := s, lastFbPage := 0x8000000000 } := by
    rw [attempt_cons, hstep1, bind_some, attempt_cons, step, hcall]
    rfl
  have hkind : k1.KernelCall (.mapFramebufferRange 0x8000000000 0x1000) := trivial
  refine ⟨k₀, _, hboot, hrun, (hboot.aligned.create hcreated).call_parts hkind ?_ hcall⟩
  rintro (hnone | hslots)
  · rw [hcreated.spaces, if_neg hne] at hnone
    cases hnone
  · -- entry 509 of the kernel's PML4 is still empty
    have hword : k1.store.mem k1.kernelPml4 509 = 0 := by
      rw [hcreated.kernelPml4, hcreated.words k₀.kernelPml4_mem_roots]
      by_contra hne'
      rcases hbare 509 hne' with ⟨n, _, hindex⟩
      rw [pml4Index, splitIndices_eq, UInt64.toNat_add, UInt64.toNat_mul,
        UInt64.toNat_ofNat'] at hindex
      have hbase : (stackRegionBase 0x400000).toNat = 0x200000 := rfl
      have hsize : (4096 : UInt64).toNat = 4096 := rfl
      rw [hbase, hsize] at hindex
      omega
    have hentries : k1.entries (.mapFramebufferRange 0x8000000000 0x1000) =
        [(mmioVirtualBase + 0x8000000000, leafEntry 0x8000000000 framebufferFlags)] := rfl
    rcases hslots _ (hentries ▸ mem_cons_self) with huser | hpresent
    · exact absurd huser (by decide)
    · have hindex : pml4Index (mmioVirtualBase + 0x8000000000) = 509 := by decide
      rw [hindex, hword] at hpresent
      cases hpresent

end AgenticOS.Vmm
