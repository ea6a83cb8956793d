import AgenticOS.Memory.PmmInvariant

/-!
# Which pages may be freed

The used bit of a page says "allocated" and also "not conventional memory".
`free_page` looks at nothing else but the reserved bit, so it also accepts a
page of firmware memory inside the span, which was never allocated. Beside
the allocator runs a ledger of the addresses handed out and not yet taken
back; as long as no such page is freed, ledger and bitmaps agree.
-/

namespace AgenticOS.Pmm

open Foundation List

structure Tracked where
  pmm : Pmm
  outstanding : List UInt64

namespace Tracked

variable {k : Tracked} {map : List EfiMemoryDescriptor}

/-- An allocation enters the address it returns, an accepted `free_page`
strikes it out. -/
def step (k : Tracked) : Call → Tracked
  | .allocPage =>
    { pmm := k.pmm.allocPage.2
      outstanding :=
        if k.pmm.allocPage.1 = 0 then k.outstanding
        else k.pmm.allocPage.1 :: k.outstanding }
  | .freePage addr =>
    { pmm := k.pmm.freePage addr
      outstanding :=
        if k.pmm.Accepts addr then k.outstanding.erase addr else k.outstanding }
  | .reserveRange start length => { k with pmm := k.pmm.reserveRange start length }

/-- A freed address that passes the checks of `free_page` lies in conventional
memory. -/
def FreesConventional (map : List EfiMemoryDescriptor) (k : Tracked) : Call → Prop
  | .freePage addr => k.pmm.Accepts addr → Conventional map (pageIndex addr)
  | _ => True

instance (map : List EfiMemoryDescriptor) (k : Tracked) :
    ∀ call, Decidable (FreesConventional map k call)
  | .freePage addr =>
    inferInstanceAs (Decidable (k.pmm.Accepts addr → Conventional map (pageIndex addr)))
  | .allocPage => .isTrue trivial
  | .reserveRange _ _ => .isTrue trivial

structure Agree (map : List EfiMemoryDescriptor) (k : Tracked) : Prop where
  ok : k.pmm.Ok
  nodup : k.outstanding.Nodup
  used_eq : k.pmm.stats.usedPages.toNat = k.outstanding.length
  clear_conventional : ∀ i, i < k.pmm.totalSpanPages → k.pmm.used i = false → Conventional map i
  allocated : ∀ i, i < k.pmm.totalSpanPages → Conventional map i → k.pmm.used i = true →
    k.pmm.reserved i = false → pageAddr i ∈ k.outstanding
  outstanding_used : ∀ addr ∈ k.outstanding, ∃ i, i < k.pmm.totalSpanPages ∧
    addr = pageAddr i ∧ k.pmm.used i = true ∧ Conventional map i

section

variable (h : k.Agree map)

include h

theorem Agree.length_le : k.outstanding.length ≤ 2 ^ 52 := by
  have hsub : k.outstanding.toFinset ⊆ (Finset.range k.pmm.totalSpanPages).image pageAddr := by
    intro addr haddr
    obtain ⟨i, hi, rfl, -⟩ := h.outstanding_used addr (List.mem_toFinset.mp haddr)
    exact Finset.mem_image_of_mem _ (Finset.mem_range.mpr hi)
  calc k.outstanding.length
      = k.outstanding.toFinset.card := (toFinset_card_of_nodup h.nodup).symm
    _ ≤ ((Finset.range k.pmm.totalSpanPages).image pageAddr).card := Finset.card_le_card hsub
    _ ≤ (Finset.range k.pmm.totalSpanPages).card := Finset.card_image_le
    _ = k.pmm.totalSpanPages := Finset.card_range _
    _ ≤ 2 ^ 52 := h.ok.span_le

/-- A failed allocation moves the scan hint, a successful one marks a clear
page and enters it. -/
theorem Agree.step_allocPage :
    k.step .allocPage = { k with pmm := { k.pmm with lastScannedPage := 0 } } ∨
      ∃ i, i < k.pmm.totalSpanPages ∧ k.pmm.used i = false ∧
        k.step .allocPage = ⟨k.pmm.mark i, pageAddr i :: k.outstanding⟩ := by
  by_cases hne : k.pmm.allocPage.1 = 0
  · left
    have hfull := h.ok.allocPage_eq_zero_iff.mp hne
    rcases allocPage_cases k.pmm with ⟨i, hi, hclear, -⟩ | ⟨-, heq⟩
    · rw [hfull i hi] at hclear
      cases hclear
    · rw [step, if_pos hne, heq]
  · right
    obtain ⟨i, hi, -, hclear, -, heq⟩ := h.ok.allocPage_result hne
    exact ⟨i, hi, hclear, by rw [step, if_neg hne, heq]⟩

theorem Agree.allocPage : (k.step .allocPage).Agree map := by
  rcases h.step_allocPage with hstep | ⟨i, hi, hclear, hstep⟩
  · rw [hstep]
    exact { h with ok := h.ok.hint 0 }
  · rw [hstep]
    have hused := h.ok.used_mark hi
    have hnew : pageAddr i ∉ k.outstanding := by
      intro hmem
      obtain ⟨j, hj, haddr, hjused, -⟩ := h.outstanding_used _ hmem
      rw [← pageIndex_pageAddr (hj.trans_le h.ok.span_le), ← haddr,
        pageIndex_pageAddr (hi.trans_le h.ok.span_le), hclear] at hjused
      cases hjused
    constructor
    · exact h.ok.mark hi hclear
    · exact nodup_cons.mpr ⟨hnew, h.nodup⟩
    · have hlen := h.length_le
      have hone : (1 : UInt64).toNat = 1 := rfl
      show (k.pmm.stats.usedPages + 1).toNat = k.outstanding.length + 1
      rw [UInt64.toNat_add, h.used_eq, hone, Nat.mod_eq_of_lt (by omega)]
    · intro j hj hjclear
      rw [hused, Bool.or_eq_false_iff] at hjclear
      exact h.clear_conventional j hj hjclear.2
    · intro j hj hconv hjused hjres
      rw [hused, Bool.or_eq_true, decide_eq_true_eq] at hjused
      rcases hjused with rfl | hjused
      · exact mem_cons_self
      · exact mem_cons_of_mem _ (h.allocated j hj hconv hjused hjres)
    · intro addr haddr
      rcases mem_cons.mp haddr with rfl | haddr
      · exact ⟨i, hi, rfl, by rw [hused]; simp, h.clear_conventional i hi hclear⟩
      · obtain ⟨j, hj, rfl, hjused, hconv⟩ := h.outstanding_used addr haddr
        exact ⟨j, hj, rfl, by rw [hused, hjused, Bool.or_true], hconv⟩

theorem Agree.mem_outstanding {addr : UInt64} (hacc : k.pmm.Accepts addr)
    (hconv : Conventional map (pageIndex addr)) : addr ∈ k.outstanding := by
  obtain ⟨-, hmod, hi, hres, hused⟩ := hacc
  have hmem := h.allocated _ hi hconv hused hres
  rwa [pageAddr_pageIndex hmod] at hmem

theorem Agree.freePage {addr : UInt64}
    (hconv : k.pmm.Accepts addr → Conventional map (pageIndex addr)) :
    (k.step (.freePage addr)).Agree map := by
  rw [step, freePage_eq]
  split_ifs with hacc
  · have hmem := h.mem_outstanding hacc (hconv hacc)
    have hiconv := hconv hacc
    obtain ⟨-, hmod, hi, hres, hused⟩ := hacc
    have hpos : 0 < k.outstanding.length := length_pos_of_mem hmem
    constructor
    · exact h.ok.release hi hres hused
    · exact h.nodup.erase addr
    · have hle : (1 : UInt64) ≤ k.pmm.stats.usedPages := by
        rw [UInt64.le_iff_toNat_le, h.used_eq]
        exact hpos
      show (k.pmm.stats.usedPages - 1).toNat = (k.outstanding.erase addr).length
      rw [UInt64.toNat_sub_of_le _ _ hle, h.used_eq, length_erase_of_mem hmem]
      rfl
    · intro j hj hjclear
      rw [used_release, Bool.and_eq_false_iff, decide_eq_false_iff_not, not_not] at hjclear
      rcases hjclear with rfl | hjclear
      · exact hiconv
      · exact h.clear_conventional j hj hjclear
    · intro j hj hjconv hjused hjres
      rw [used_release, Bool.and_eq_true, decide_eq_true_eq] at hjused
      have hjmem := h.allocated j hj hjconv hjused.2 hjres
      refine (mem_erase_of_ne ?_).mpr hjmem
      rintro rfl
      exact hjused.1 (pageIndex_pageAddr (hj.trans_le h.ok.span_le)).symm
    · intro b hb
      rw [h.nodup.mem_erase_iff] at hb
      obtain ⟨j, hj, rfl, hjused, hjconv⟩ := h.outstanding_used b hb.2
      refine ⟨j, hj, rfl, ?_, hjconv⟩
      rw [used_release, hjused, Bool.and_true, decide_eq_true_eq]
      rintro rfl
      exact hb.1 (pageAddr_pageIndex hmod)
  · exact h

theorem Agree.reserveRange (start length : UInt64) :
    (k.step (.reserveRange start length)).Agree map := by
  obtain ⟨-, hspan, hres, hused⟩ := h.ok.toCounted.reserveRange start length
  constructor
  · exact h.ok.reserveRange start length
  · exact h.nodup
  · show (k.pmm.reserveRange start length).stats.usedPages.toNat = _
    rw [usedPages_reserveRange]
    exact h.used_eq
  · intro i hi hclear
    exact h.clear_conventional i (hspan ▸ hi) (h.ok.toCounted.used_of_reserveRange hclear)
  · intro i hi hconv hiused hires
    rw [← Bool.not_eq_true] at hires
    rcases (hused i).mp hiused with hold | hrange
    · refine h.allocated i (hspan ▸ hi) hconv hold ?_
      rw [← Bool.not_eq_true]
      exact fun hiold => hires ((hres i).mpr (.inl hiold))
    · exact absurd ((hres i).mpr (.inr hrange)) hires
  · intro addr haddr
    obtain ⟨i, hi, rfl, hiused, hconv⟩ := h.outstanding_used addr haddr
    exact ⟨i, hspan.symm ▸ hi, rfl, (hused i).mpr (.inl hiused), hconv⟩

theorem Agree.step (call : Call) (hcall : FreesConventional map k call) :
    (k.step call).Agree map := by
  cases call with
  | allocPage => exact h.allocPage
  | freePage => exact h.freePage hcall
  | reserveRange start length => exact h.reserveRange start length

end

theorem started_agree {p : Pmm} (h : p.Started map) : (⟨p, []⟩ : Tracked).Agree map := by
  refine ⟨h.toOk, nodup_nil, ?_, h.clear_conventional, fun i hi hconv hused hres => ?_, ?_⟩
  · rw [h.none_allocated]
    rfl
  · have hreserved := h.conventional_used i hi hconv hused
    have hres : p.reserved i = false := hres
    rw [hreserved] at hres
    cases hres
  · intro _ haddr
    cases haddr

theorem freePage_ne_iff (p : Pmm) (addr : UInt64) : p.freePage addr ≠ p ↔ p.Accepts addr := by
  rw [freePage_eq]
  split_ifs with hacc
  · refine iff_of_true (fun heq => ?_) hacc
    have hused := used_release p (pageIndex addr) (pageIndex addr)
    rw [heq, hacc.2.2.2.2] at hused
    simp at hused
  · exact iff_of_false (fun hne => hne rfl) hacc

/-- **What may be freed.** From `init` on, along every sequence of calls whose
accepted frees are of conventional memory: in the state reached, a call of
`free_page` changes something only for an outstanding address if and only if
it meets that condition; the counter of used pages is the number of
outstanding addresses; and an allocated address lies in conventional
memory. -/
theorem frees_outstanding_iff (boot : BootInfo) (hmap : WellFormedMap boot.memoryMap)
    (hroom : FindsRoom boot) :
    ∃ p₀, init boot = some p₀ ∧ ∀ calls,
      Along Tracked.step (FreesConventional boot.memoryMap) ⟨p₀, []⟩ calls →
      let k := run Tracked.step ⟨p₀, []⟩ calls
      (∀ addr, (k.pmm.freePage addr ≠ k.pmm → addr ∈ k.outstanding) ↔
        FreesConventional boot.memoryMap k (.freePage addr)) ∧
      k.pmm.stats.usedPages.toNat = k.outstanding.length ∧
      (k.pmm.allocPage.1 ≠ 0 → ∃ d ∈ boot.memoryMap, d.ty = efiConventionalMemory ∧
        d.Covers k.pmm.allocPage.1.toNat) := by
  obtain ⟨p₀, hinit, hstarted⟩ := init_started hmap hroom
  refine ⟨p₀, hinit, fun calls halong => ?_⟩
  have h : (run Tracked.step ⟨p₀, []⟩ calls).Agree boot.memoryMap :=
    run_invariant (fun _ call hk hcall => hk.step call hcall) (started_agree hstarted) halong
  refine ⟨fun addr => ?_, h.used_eq, fun hne => ?_⟩
  · rw [freePage_ne_iff]
    constructor
    · intro hmem hacc
      obtain ⟨i, hi, rfl, -, hconv⟩ := h.outstanding_used addr (hmem hacc)
      rwa [pageIndex_pageAddr (hi.trans_le h.ok.span_le)]
    · exact fun hconv hacc => h.mem_outstanding hacc (hconv hacc)
  · obtain ⟨i, hi, -, hclear, -, heq⟩ := h.ok.allocPage_result hne
    obtain ⟨d, hd, hty, hpage⟩ := h.clear_conventional i hi hclear
    refine ⟨d, hd, hty, ?_⟩
    rw [heq, toNat_pageAddr (hi.trans_le h.ok.span_le)]
    exact (EfiMemoryDescriptor.holdsPage_iff (hmap.aligned d hd)).mp hpage

/-- Two pages of conventional memory, then one of ACPI tables. -/
def acpiBoot : BootInfo where
  memoryMap := [⟨efiConventionalMemory, 0x1000, 2⟩, ⟨efiAcpiReclaimMemory, 0x3000, 1⟩]
  memoryMapAddr := 0x1000
  memoryMapSize := 80
  kernelPhysicalStart := 0
  kernelPhysicalEnd := 0
  address := 0

theorem frees_outstanding_acpiBoot :
    ∃ p₀, init acpiBoot = some p₀ ∧
      let k := run Tracked.step ⟨p₀, []⟩ [.allocPage, .freePage 0x2000, .freePage 0x2000]
      k.pmm.stats.usedPages.toNat = k.outstanding.length := by
  have hmap : WellFormedMap acpiBoot.memoryMap := by
    constructor
    · decide
    · decide
    · refine pairwise_pair.mpr fun addr hboth => ?_
      have hfirst : addr < 0x3000 := hboth.1.2
      have hsecond : 0x3000 ≤ addr := hboth.2.1
      omega
  obtain ⟨p₀, hinit, hrun⟩ := frees_outstanding_iff acpiBoot hmap (by decide)
  have hp0 : p₀ = (init acpiBoot).get (by decide) := by simp [hinit]
  refine ⟨p₀, hinit, (hrun _ ?_).2.1⟩
  rw [hp0]
  decide

/-- Freeing the ACPI page is accepted, the counter of used pages wraps around,
and the second allocation returns the page. -/
theorem acpi_page_freed :
    ∃ p₀, init acpiBoot = some p₀ ∧
      p₀.freePage 0x3000 ≠ p₀ ∧ (p₀.freePage 0x3000).stats.usedPages = 0xFFFFFFFFFFFFFFFF ∧
      (p₀.freePage 0x3000).allocPage.2.allocPage.1 = 0x3000 ∧
      ¬ ∃ d ∈ acpiBoot.memoryMap, d.ty = efiConventionalMemory ∧ d.Covers 0x3000 := by
  refine ⟨(init acpiBoot).get (by decide), ?_, ?_, ?_, ?_, ?_⟩
  · simp
  all_goals decide

end Tracked

end AgenticOS.Pmm
