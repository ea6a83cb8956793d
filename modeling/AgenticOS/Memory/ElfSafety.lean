import AgenticOS.Foundation.LittleEndian
import AgenticOS.Memory.Teardown

/-!
# What loading a program may touch

The program headers come from whoever wrote the file, and `elf::load` checks
the offsets into the file only: where a segment goes in memory it takes as
given. Below, the bytes read are always bytes of the file, and the load leaves
the kernel half and the other address spaces alone exactly if every segment it
gets to ends below 2^64 and lies in the user half.
-/

namespace AgenticOS

open Foundation List UInt64

namespace Elf

/-! ## Arithmetic -/

/-- Every sum and difference that is formed for a segment is exact, and every
byte that is copied is a byte of the file. -/
structure Exact (bytes : List UInt8) (ph : Elf64Phdr) : Prop where
  rounded : Measured ph
  size : vaddrStart ph ≤ vaddrEnd ph
  page : ∀ p < segmentPages ph, (vaddrStart ph).toNat + p * 4096 + 4096 < 2 ^ 64
  fileEnd : ph.pVaddr.toNat + ph.pFilesz.toNat < 2 ^ 64
  window : ∀ p < segmentPages ph, copyStart ph p < copyEnd ph p →
    pageVaddr ph p ≤ copyStart ph p ∧ ph.pVaddr ≤ copyStart ph p
  source : ∀ p < segmentPages ph, copyStart ph p < copyEnd ph p →
    ph.pOffset.toNat + (copyStart ph p - ph.pVaddr).toNat < 2 ^ 64 ∧
      ph.pOffset.toNat + (copyStart ph p - ph.pVaddr).toNat +
        (copyEnd ph p - copyStart ph p).toNat ≤ bytes.length

variable {bytes : List UInt8} {ph : Elf64Phdr} {p : Nat} {σ : Type} {A : PageSource σ} {k : Vmm σ}
  {pml4 : UInt64}

theorem segmentError_eq_none (h : segmentError bytes ph = none) :
    ph.pOffset.toNat + ph.pFilesz.toNat < 2 ^ 64 ∧
      ph.pOffset.toNat + ph.pFilesz.toNat ≤ bytes.length ∧
      ph.pFilesz.toNat ≤ ph.pMemsz.toNat := by
  unfold segmentError at h
  dsimp only at h
  split_ifs at h with hover hbound
  rw [not_or, not_lt] at hbound
  refine ⟨not_le.mp hover, hbound.1, ?_⟩
  have hsize := hbound.2
  exact not_lt.mp hsize

theorem pVaddr_le_copyStart : ph.pVaddr ≤ copyStart ph p := by
  rw [le_iff_toNat_le, copyStart, toNat_max]
  exact le_max_right _ _

theorem pageVaddr_le_copyStart : pageVaddr ph p ≤ copyStart ph p := by
  rw [le_iff_toNat_le, copyStart, toNat_max]
  exact le_max_left _ _

/-- A segment that passes its check and has an end is handled exactly. -/
theorem exact_of_measured (hcheck : segmentError bytes ph = none) (h : Measured ph) :
    Exact bytes ph := by
  rcases segmentError_eq_none hcheck with ⟨_, _, _⟩
  have hfileEnd : ph.pVaddr.toNat + ph.pFilesz.toNat < 2 ^ 64 := by
    unfold Measured at h
    omega
  constructor
  · exact h
  · exact vaddrStart_le_vaddrEnd h
  · intro p hp
    rcases toNat_pageVaddr h hp with ⟨_, hend⟩
    have hlt := (vaddrEnd ph).toNat_lt
    rw [toNat_vaddrStart]
    omega
  · exact hfileEnd
  · exact fun p _ _ => ⟨pageVaddr_le_copyStart, pVaddr_le_copyStart⟩
  · intro p _ hlt
    have hstart : ph.pVaddr.toNat ≤ (copyStart ph p).toNat :=
      le_iff_toNat_le.mp pVaddr_le_copyStart
    have hend : (copyEnd ph p).toNat ≤ ph.pVaddr.toNat + ph.pFilesz.toNat := by
      rw [copyEnd, toNat_min, UInt64.toNat_add ph.pVaddr, Nat.mod_eq_of_lt hfileEnd]
      exact min_le_right _ _
    rw [UInt64.toNat_sub_of_le _ _ pVaddr_le_copyStart,
      UInt64.toNat_sub_of_le _ _ (UInt64.le_of_lt hlt)]
    rw [lt_iff_toNat_lt] at hlt
    omega

theorem phdr_in_file (h : headerError bytes = none) {i : Nat}
    (hi : i < (readEhdr bytes).ePhnum.toNat) :
    (readEhdr bytes).ePhoff.toNat + i * phdrSize + phdrSize < 2 ^ 64 ∧
      (readEhdr bytes).ePhoff.toNat + i * phdrSize + phdrSize ≤ bytes.length := by
  unfold headerError at h
  dsimp only at h
  split_ifs at h with _ _ _ _ _ hstop
  have hmul : (i + 1) * phdrSize ≤ (readEhdr bytes).ePhnum.toNat * phdrSize :=
    Nat.mul_le_mul_right _ hi
  rw [Nat.add_mul, Nat.one_mul] at hmul
  omega

/-! ## Memory -/

def UserAccessible (mem : PhysicalMemory) (r v : UInt64) : Prop :=
  Grants (pagePresent ||| pageUser) (debugTranslate mem r v)

theorem grants_leafEntry (frame : UInt64) (ph : Elf64Phdr) :
    Grants (pagePresent ||| pageUser) (leafEntry frame (segmentFlags ph)) := by
  have hflags : segmentFlags ph &&& (pagePresent ||| pageUser) = pageUser := by
    unfold segmentFlags
    split_ifs
    all_goals decide
  have hframe : frame &&& addrMask &&& (pagePresent ||| pageUser) = 0 := by
    rw [UInt64.and_assoc, show addrMask &&& (pagePresent ||| pageUser) = 0 by decide,
      UInt64.and_zero]
  rw [Grants, leafEntry, Packed.or_and_right, Packed.or_and_right, hflags, hframe]
  decide

def IsLoadedPage (bytes : List UInt8) (v : UInt64) : Prop :=
  ∃ x ∈ loadedPages bytes, pageNumber v = pageNumber (pageVaddr x.1 x.2)

/-- The load ends in the state `s'` and has kept to the user half of `pml4`. -/
structure KeepsToUserHalf (k : Vmm σ) (pml4 : UInt64) (bytes : List UInt8) (s' : PageStore σ) :
    Prop where
  headers : headerError bytes = none → ∀ i < (readEhdr bytes).ePhnum.toNat,
    (readEhdr bytes).ePhoff.toNat + i * phdrSize + phdrSize ≤ bytes.length
  exact : headerError bytes = none → ∀ ph ∈ loadedSegments bytes, Exact bytes ph
  created : ∀ v, IsLoadedPage bytes v → UserAccessible s'.mem pml4 v ∧ InUserHalf v
  rest : ∀ v, ¬ IsLoadedPage bytes v →
    debugTranslate s'.mem pml4 v = debugTranslate k.store.mem pml4 v
  others : ∀ r ∈ k.roots, ∀ v, r ≠ pml4 ∨ ¬ InUserHalf v →
    debugTranslate s'.mem r v = debugTranslate k.store.mem r v

/-- Every segment that the load gets to has an end, and its pages are in the
user half. -/
def InPlace (bytes : List UInt8) : Prop :=
  headerError bytes = none → ∀ ph ∈ loadedSegments bytes,
    Measured ph ∧ ∀ p < segmentPages ph, InUserHalf (pageVaddr ph p)

instance (bytes : List UInt8) : Decidable (InPlace bytes) :=
  inferInstanceAs (Decidable (_ → ∀ ph ∈ loadedSegments bytes, _))

variable {x : Elf64Phdr × Nat}

theorem mem_loadedPages : x ∈ loadedPages bytes ↔
      headerError bytes = none ∧ x.1 ∈ loadedSegments bytes ∧ x.2 < segmentPages x.1 := by
  unfold loadedPages
  split_ifs with hheader
  · rw [mem_flatMap]
    constructor
    · rintro ⟨ph, hph, hx⟩
      rcases List.mem_map.mp hx with ⟨p, hp, rfl⟩
      exact ⟨hheader, hph, mem_range.mp hp⟩
    · rintro ⟨-, hph, hp⟩
      exact ⟨x.1, hph, List.mem_map.mpr ⟨x.2, mem_range.mpr hp, rfl⟩⟩
  · exact ⟨fun hx => absurd hx not_mem_nil, fun hx => absurd hx.1 hheader⟩

theorem segmentError_of_loaded {ph : Elf64Phdr} (h : ph ∈ loadedSegments bytes) :
    segmentError bytes ph = none := by
  have hkeep := mem_takeWhile_imp h
  exact of_decide_eq_true hkeep

theorem InPlace.inUserHalf (h : InPlace bytes) {v : UInt64} (hv : IsLoadedPage bytes v) :
    InUserHalf v := by
  rcases hv with ⟨x, hx, hpage⟩
  rcases mem_loadedPages.mp hx with ⟨hheader, hph, hp⟩
  exact (inUserHalf_congr hpage).mpr ((h hheader x.1 hph).2 x.2 hp)

variable {frames : List UInt64}

theorem of_mem_pageEntries {e : UInt64 × UInt64} (he : e ∈ pageEntries (loadedPages bytes) frames) :
    IsLoadedPage bytes e.1 ∧ Grants (pagePresent ||| pageUser) e.2 := by
  rcases List.mem_map.mp he with ⟨⟨x, frame⟩, hmem, rfl⟩
  exact ⟨⟨x, (of_mem_zip hmem).1, rfl⟩, grants_leafEntry frame x.1⟩

theorem exists_pageEntry (hlen : frames.length = (loadedPages bytes).length)
    (hx : x ∈ loadedPages bytes) :
    ∃ e ∈ pageEntries (loadedPages bytes) frames, e.1 = pageVaddr x.1 x.2 := by
  rw [← map_fst_zip hlen.ge] at hx
  rcases List.mem_map.mp hx with ⟨y, hy, rfl⟩
  exact ⟨_, List.mem_map.mpr ⟨y, hy, rfl⟩, rfl⟩

theorem keepsToUserHalf_iff (hs : k.Sound A) (hpml4 : pml4 ∈ k.spaces)
    {result : Except ElfError UInt64} {s' : PageStore σ}
    (hload : load A k.store pml4 bytes = some (result, frames, s')) :
    KeepsToUserHalf k pml4 bytes s' ↔ InPlace bytes := by
  have hr := Vmm.mem_roots_of_mem_spaces hpml4
  constructor
  · intro hkeeps hheader ph hph
    refine ⟨(hkeeps.exact hheader ph hph).rounded, fun p hp => ?_⟩
    exact (hkeeps.created _ ⟨(ph, p), mem_loadedPages.mpr ⟨hheader, hph, hp⟩, rfl⟩).2
  · intro hplace
    rcases loadPages_sets hs hr (load_eq hload) with ⟨_, -, hlen, hsets⟩
    constructor
    · exact fun hheader i hi => (phdr_in_file hheader hi).2
    · intro hheader ph hph
      exact exact_of_measured (segmentError_of_loaded hph) (hplace hheader ph hph).1
    · intro v hv
      refine ⟨?_, hplace.inUserHalf hv⟩
      rcases hv with ⟨x, hx, hpage⟩
      rcases exists_pageEntry hlen hx with ⟨e, he, hfst⟩
      rw [UserAccessible, debugTranslate_congr hpage, ← hfst]
      exact hsets.pages hr (fun e he => (of_mem_pageEntries he).2) he
    · intro v hv
      apply hsets.others hr
      intro e he
      left
      intro hpage
      rcases (of_mem_pageEntries he).1 with ⟨x, hx, hpage'⟩
      exact hv ⟨x, hx, hpage.trans hpage'⟩
    · intro r hroot v hother
      apply hsets.others hroot
      intro e he
      have huser := hplace.inUserHalf (of_mem_pageEntries he).1
      rcases hother with hne | hv
      · exact .inr ⟨huser, hne⟩
      · exact .inl fun hpage => hv ((inUserHalf_congr hpage).mpr huser)

/-- **What a load may touch.** With four frames for each page it returns, and it keeps
to the user half exactly if all segments are in place. With fewer frames it does so
whenever it returns. -/
theorem load_keeps_to_user_half_iff (hs : k.Sound A) (hpml4 : pml4 ∈ k.spaces)
    (bytes : List UInt8) :
    (A.Supplies (4 * (loadedPages bytes).length) k.store.frames →
      ∃ result frames s', load A k.store pml4 bytes = some (result, frames, s') ∧
        (KeepsToUserHalf k pml4 bytes s' ↔ InPlace bytes)) ∧
    ∀ result frames s', load A k.store pml4 bytes = some (result, frames, s') →
      (KeepsToUserHalf k pml4 bytes s' ↔ InPlace bytes) := by
  refine ⟨fun hsupplies => ?_, fun _ _ _ hload => keepsToUserHalf_iff hs hpml4 hload⟩
  have hloads : (load A k.store pml4 bytes).isSome = true := load_isSome_of_supplies hsupplies
  obtain ⟨⟨result, frames, s'⟩, hload⟩ := Option.isSome_iff_exists.mp hloads
  exact ⟨result, frames, s', hload, keepsToUserHalf_iff hs hpml4 hload⟩

/-! ## Two programs -/

def phdrBytes (ph : Elf64Phdr) : List UInt8 :=
  leBytes 4 ph.pType.toNat ++ leBytes 4 ph.pFlags.toNat ++ leBytes 8 ph.pOffset.toNat ++
    leBytes 8 ph.pVaddr.toNat ++ leBytes 8 0 ++ leBytes 8 ph.pFilesz.toNat ++
    leBytes 8 ph.pMemsz.toNat ++ leBytes 8 0

/-- A file with these program headers and what follows them. -/
def assemble (phs : List Elf64Phdr) (contents : List UInt8) : List UInt8 :=
  [0x7f, 0x45, 0x4c, 0x46, 2, 1, 1, 0, 0, 0, 0, 0, 0, 0, 0, 0] ++ leBytes 2 2 ++ leBytes 2 62 ++
    leBytes 4 1 ++ leBytes 8 0 ++ leBytes 8 64 ++ leBytes 8 0 ++ leBytes 4 0 ++ leBytes 2 64 ++
    leBytes 2 56 ++ leBytes 2 phs.length ++ leBytes 6 0 ++ phs.flatMap phdrBytes ++ contents

open SpaceLedger in
/-- A program at the usual place. -/
theorem load_keeps_to_user_half_one_page :
    ∃ result frames s', load Pmm.source (kernelOnly.newAddressSpace Pmm.source).2.store 0x7000
        (assemble [⟨1, 5, 120, 0x400010, 2, 8⟩] [0x90, 0xc3]) = some (result, frames, s') ∧
      KeepsToUserHalf (kernelOnly.newAddressSpace Pmm.source).2 0x7000
        (assemble [⟨1, 5, 120, 0x400010, 2, 8⟩] [0x90, 0xc3]) s' := by
  have hsound := (Vmm.newAddressSpace_spec kernelOnly_sound).sound
  have hlive : (0x7000 : UInt64) ∈ (kernelOnly.newAddressSpace Pmm.source).2.spaces := by
    decide +kernel
  obtain ⟨result, frames, s', hload, hkeeps⟩ :=
    (load_keeps_to_user_half_iff hsound hlive (assemble [⟨1, 5, 120, 0x400010, 2, 8⟩]
      [0x90, 0xc3])).1 (by decide +kernel)
  exact ⟨result, frames, s', hload, hkeeps.mpr (by decide +kernel)⟩

open SpaceLedger LockedHeap in
/-- **A program at the address of the heap** takes the place of the heap page
for the kernel, and the process can reach it. -/
theorem load_replaces_heap_page :
    ∃ k s' frames, heapOnly = some k ∧ (k.newAddressSpace Pmm.source).2.Sound Pmm.source ∧
      0xB000 ∈ (k.newAddressSpace Pmm.source).2.spaces ∧
      load Pmm.source (k.newAddressSpace Pmm.source).2.store 0xB000
        (assemble [⟨1, 6, 0, heapVirtualBase, 0, 1⟩] []) = some (.ok 0, frames, s') ∧
      ¬ InUserHalf heapVirtualBase ∧ UserAccessible s'.mem 0xB000 heapVirtualBase ∧
      debugTranslate s'.mem k.kernelPml4 heapVirtualBase ≠
        debugTranslate (k.newAddressSpace Pmm.source).2.store.mem k.kernelPml4
          heapVirtualBase := by
  have hrun : ∃ k, heapOnly = some k ∧ (k.newAddressSpace Pmm.source).2.spaces = [0xB000] ∧
      ∃ x, load Pmm.source (k.newAddressSpace Pmm.source).2.store 0xB000
          (assemble [⟨1, 6, 0, heapVirtualBase, 0, 1⟩] []) = some x ∧ x.1.toOption = some 0 ∧
        debugTranslate x.2.2.mem 0xB000 heapVirtualBase = 0x800000000000C007 ∧
        debugTranslate x.2.2.mem k.kernelPml4 heapVirtualBase = 0x800000000000C007 ∧
        debugTranslate (k.newAddressSpace Pmm.source).2.store.mem k.kernelPml4 heapVirtualBase =
          0x8000000000007103 := by
    decide +kernel
  obtain ⟨k, hk, hspaces, ⟨result, frames, s'⟩, hload, hret, huser, hnew, hold⟩ := hrun
  have hok : result = .ok 0 := by
    cases result with
    | error => cases hret
    | ok => rw [Option.some_inj.mp hret]
  rw [hok] at hload
  refine ⟨k, s', _, hk, (Vmm.newAddressSpace_spec (heapOnly_start hk).sound).sound, ?_, hload,
    by decide, ?_, ?_⟩
  · rw [hspaces]
    exact mem_cons_self
  · rw [UserAccessible, huser]
    decide
  · rw [hnew, hold]
    decide

end Elf

end AgenticOS
