import AgenticOS.Memory.Vmm

/-!
# Page tables refine a partial map

Seen from outside, an address space is a map from pages to entries. Which
entry a page of the user half has is told by the calls that were made: the last
one on the page decides, whatever tables were put in or shared on the way.
-/

namespace AgenticOS

open Foundation List Option

/-! ## The abstract map -/

/-- What the calls so far say about a page of an address space. -/
inductive PageState where
  | untouched
  | mapped (paddr flags : UInt64)
  | unmapped
  deriving DecidableEq

namespace PageState

/-- The entry that goes with it, if a page not touched has the entry `boot`. -/
def entry (boot : UInt64) : PageState → UInt64
  | .untouched => boot
  | .mapped paddr flags => leafEntry paddr flags
  | .unmapped => 0

/-- What an answered call says about page `page` of the address space `r`,
after what was said before. -/
def after (kernelPml4 r : UInt64) (page : Nat) (before : PageState) :
    VmmCall × UInt64 → PageState
  | (.newAddressSpace, new) => if r = new then .untouched else before
  | (.mapPageIn pml4 vaddr paddr flags, _) =>
    if r = pml4 ∧ page = pageNumber vaddr then .mapped paddr flags else before
  | (.unmapPage pml4 vaddr, _) =>
    if r = pml4 ∧ page = pageNumber vaddr then .unmapped else before
  | (.mapHeapPage vaddr paddr, _) =>
    if r = kernelPml4 ∧ page = pageNumber vaddr then .mapped paddr Vmm.kernelDataFlags
    else before
  | _ => before

def last (kernelPml4 r : UInt64) (page : Nat) (history : List (VmmCall × UInt64)) : PageState :=
  history.foldl (after kernelPml4 r page) .untouched

end PageState

namespace Vmm

variable {σ : Type} (A : PageSource σ)

def history : Vmm σ → List VmmCall → List (VmmCall × UInt64)
  | _, [] => []
  | k, c :: cs =>
    match k.call A c with
    | none => []
    | some (ret, k') => (c, ret) :: history k' cs

/-- The calls whose effect is described: on address spaces that exist, and
within the MMIO window. -/
def Permitted (k : Vmm σ) : VmmCall → Prop
  | .newAddressSpace => True
  | .mapPageIn pml4 _ _ _ => pml4 ∈ k.roots
  | .unmapPage pml4 _ => pml4 ∈ k.roots
  | .mapHeapPage _ _ => True
  | .mapMmioPage paddr => paddr.toNat < 2 ^ 41
  | _ => False

variable {A} {k k' : Vmm σ} {c : VmmCall} {ret : UInt64} {boot : UInt64 → UInt64}
  {st : UInt64 → Nat → PageState}

/-- The entry of a page that no call has touched. -/
def untouchedEntry (kernelPml4 : UInt64) (boot : UInt64 → UInt64) (r v : UInt64) : UInt64 :=
  if r = kernelPml4 then boot v else 0

/-- The user half of every address space is as `st` says. -/
def Represents (boot : UInt64 → UInt64) (st : UInt64 → Nat → PageState) (k : Vmm σ) : Prop :=
  ∀ r ∈ k.roots, ∀ v, InUserHalf v →
    debugTranslate k.store.mem r v =
      (st r (pageNumber v)).entry (untouchedEntry k.kernelPml4 boot r v)

theorem Represents.set {r v w : UInt64} {st' : UInt64 → Nat → PageState}
    (h : Represents boot st k) (hkernel : k'.kernelPml4 = k.kernelPml4)
    (hspaces : k'.spaces = k.spaces) (hset : SetsEntry A k.roots r v w k.store k'.store)
    (hw : ∀ u, (st' r (pageNumber v)).entry u = w)
    (hother : ∀ r' page, ¬ (r' = r ∧ page = pageNumber v) → st' r' page = st r' page) :
    Represents boot st' k' := by
  intro r' hr' v' hv'
  rw [roots, hkernel, hspaces] at hr'
  rw [hset.user hr' hv', hkernel]
  split_ifs with hsame
  · rcases hsame with ⟨rfl, hpage⟩
    rw [hpage, hw]
  · rw [hother _ _ hsame, h r' hr' v' hv']

theorem not_inUserHalf_mmio {page : UInt64} (h : page.toNat < 2 ^ 41) :
    ¬ InUserHalf (mmioVirtualBase + page) := by
  have hbase : mmioVirtualBase.toNat = 2 ^ 64 - 2 ^ 41 := rfl
  rw [inUserHalf_iff, UInt64.toNat_add, hbase]
  omega

theorem Created.represents {new : UInt64} (hcreated : Created A k k' new)
    (h : Represents boot st k) :
    Represents boot
      (fun r page => (st r page).after k.kernelPml4 r page (.newAddressSpace, new)) k' := by
  intro r hr v hv
  dsimp only [PageState.after]
  rw [hcreated.kernelPml4]
  split_ifs with hnew
  · subst hnew
    have hne : r ≠ 0 := by
      have hreal := hcreated.sound.real (EntryFormat.tableAt_root (pml4Depth_of_mem hr))
      rwa [A.null_eq] at hreal
    have hkernel : r ≠ k.kernelPml4 := by
      rintro rfl
      exact hcreated.fresh hne k.kernelPml4_mem_roots
    rw [hcreated.newUser hne hv, PageState.entry, untouchedEntry, if_neg hkernel]
  · have hold : r ∈ k.roots := by
      rw [roots, hcreated.kernelPml4, hcreated.spaces] at hr
      split_ifs at hr with hnull
      · exact hr
      · simp only [mem_cons, hnew, false_or] at hr
        exact mem_cons.mpr hr
    rw [hcreated.others hold, h r hold v hv]

theorem Permitted.target_mem (hc : k.Permitted c) : target k.kernelPml4 c ∈ k.roots := by
  cases c with
  | mapPageIn | unmapPage => exact hc
  | _ => exact k.kernelPml4_mem_roots

theorem call_represents (hs : k.Sound A) (h : Represents boot st k) (hc : k.Permitted c)
    (hcall : k.call A c = some (ret, k')) :
    k'.Sound A ∧ k'.kernelPml4 = k.kernelPml4 ∧
      Represents boot (fun r page => (st r page).after k.kernelPml4 r page (c, ret)) k' := by
  by_cases hnew : c = .newAddressSpace
  · subst hnew
    have hcreated := call_creates hs hcall
    exact ⟨hcreated.sound, hcreated.kernelPml4, hcreated.represents h⟩
  have hdestroy : ∀ pml4, c ≠ .destroyAddressSpace pml4 := by
    rintro pml4 rfl
    exact hc
  rcases call_sets hs hnew hdestroy hc.target_mem hcall with ⟨hkernel, hspaces, hset⟩
  have hroots : k'.roots = k.roots := by rw [roots, roots, hkernel, hspaces]
  refine ⟨?_, hkernel, ?_⟩
  · rw [Sound, hroots]
    exact hset.sound
  cases c with
  | newAddressSpace => exact absurd rfl hnew
  | destroyAddressSpace | mapFramebufferPage | mapFramebufferRange => exact absurd hc id
  | mapPageIn | unmapPage | mapHeapPage =>
    apply h.set hkernel hspaces hset.single
    · intro u
      simp only [PageState.after, target, and_self, if_true, PageState.entry]
    · exact fun _ page hne => if_neg hne
  | mapMmioPage =>
    intro r hr v hv
    rw [hroots] at hr
    rw [hset.others hr, hkernel]
    · exact h r hr v hv
    · -- the page set is not in the user half
      intro e he
      left
      intro hpage
      rw [inUserHalf_congr hpage] at hv
      simp only [entries] at he
      split_ifs at he with hcache
      · rw [mem_singleton.mp he] at hv
        exact not_inUserHalf_mmio (lt_of_le_of_lt (Packed.toNat_and_le _ _) hc) hv
      · cases he

/-- **A run.** What `call_represents` says of one call, call after call. -/
theorem run_represents {calls : List VmmCall} (hs : k.Sound A) (h : Represents boot st k)
    (hcalls : Meets (step A) Permitted k calls) (hrun : attempt (step A) k calls = some k') :
    k'.Sound A ∧ k'.kernelPml4 = k.kernelPml4 ∧ Represents boot (fun r page =>
        (history A k calls).foldl (PageState.after k.kernelPml4 r page) (st r page)) k' := by
  induction calls generalizing k st with
  | nil =>
    cases hrun
    exact ⟨hs, rfl, h⟩
  | cons c calls ih =>
    rcases bind_eq_some_iff.mp hrun with ⟨k1, hstep, hrun⟩
    rcases map_eq_some_iff.mp hstep with ⟨⟨_, k1⟩, hcall, rfl⟩
    rcases call_represents hs h hcalls.1 hcall with ⟨hs1, hkernel1, h1⟩
    rcases ih hs1 h1 (hcalls.2 _ hstep) hrun with ⟨hs', hkernel', h'⟩
    refine ⟨hs', hkernel'.trans hkernel1, ?_⟩
    rw [hkernel1] at h'
    simp only [history, hcall, foldl_cons]
    exact h'

/-! ## The refinement -/

def ActsOn (kernelPml4 r v : UInt64) : VmmCall → Prop
  | .mapPageIn pml4 vaddr _ _ => pml4 = r ∧ vaddr = v
  | .unmapPage pml4 vaddr => pml4 = r ∧ vaddr = v
  | .mapHeapPage vaddr _ => kernelPml4 = r ∧ vaddr = v
  | _ => False

theorem ActsOn.entries_eq {r v : UInt64} (h : ActsOn k.kernelPml4 r v c) :
    target k.kernelPml4 c = r ∧ ∃ w, k.entries c = [(v, w)] := by
  cases c with
  | mapPageIn | unmapPage | mapHeapPage =>
    rcases h with ⟨rfl, rfl⟩
    exact ⟨rfl, _, rfl⟩
  | _ => exact absurd h id

theorem ActsOn.others {r v r' v' : UInt64} (h : ActsOn k.kernelPml4 r v c) (hs : k.Sound A)
    (hr : r ∈ k.roots) (hv : InUserHalf v) (hcall : k.call A c = some (ret, k'))
    (hr' : r' ∈ k.roots) (hne : r' = r → pageNumber v' ≠ pageNumber v) :
    debugTranslate k'.store.mem r' v' = debugTranslate k.store.mem r' v' := by
  rcases h.entries_eq with ⟨htarget, w, hentries⟩
  have hnew : c ≠ .newAddressSpace := by
    rintro rfl
    exact h
  have hdestroy : ∀ pml4, c ≠ .destroyAddressSpace pml4 := by
    rintro pml4 rfl
    exact h
  rcases call_sets hs hnew hdestroy (htarget ▸ hr) hcall with ⟨-, -, hset⟩
  rw [htarget, hentries] at hset
  apply hset.single.others hr'
  by_cases hrr : r' = r
  · exact .inl (hne hrr)
  · exact .inr ⟨hv, hrr⟩

theorem virtToPhys_congr {mem mem' : PhysicalMemory} {r v : UInt64}
    (h : debugTranslate mem' r v = debugTranslate mem r v) :
    virtToPhys mem' r v = virtToPhys mem r v := by
  rw [virtToPhys_eq, virtToPhys_eq, h]

/-- **Page tables are the last call on each page.** For every run of calls from
a booted kernel, the translation of a user-half address is what the last call
on its page in that address space says; a page that no call has touched is not
mapped, except that the kernel's own is as `init` left it. And a call on one
user-half page changes no other translation. -/
theorem page_tables_refine {σ : Type} (A : PageSource σ) {k₀ k : Vmm σ} {calls : List VmmCall}
    (hboot : Booted A k₀) (hcalls : Meets (step A) Permitted k₀ calls)
    (hrun : attempt (step A) k₀ calls = some k) :
    (∀ r ∈ k.roots, ∀ v, InUserHalf v →
      match PageState.last k.kernelPml4 r (pageNumber v) (history A k₀ calls) with
      | .mapped p flags =>
        debugTranslate k.store.mem r v = (p &&& addrMask) ||| flags ||| pagePresent ∧
        virtToPhys k.store.mem r v = some (((p ||| flags) &&& addrMask) ||| (v &&& offsetMask)) ∧
        (flags &&& addrMask = 0 →
          virtToPhys k.store.mem r v = some ((p &&& addrMask) ||| (v &&& offsetMask)))
      | .unmapped => debugTranslate k.store.mem r v = 0 ∧ virtToPhys k.store.mem r v = none
      | .untouched =>
        if r = k.kernelPml4 then
          debugTranslate k.store.mem r v = debugTranslate k₀.store.mem r v ∧
          virtToPhys k.store.mem r v = virtToPhys k₀.store.mem r v
        else debugTranslate k.store.mem r v = 0 ∧ virtToPhys k.store.mem r v = none) ∧
    (∀ r ∈ k.roots, ∀ v, InUserHalf v → ∀ c ret k', ActsOn k.kernelPml4 r v c →
      k.call A c = some (ret, k') → ∀ r' ∈ k.roots, ∀ v', (r' = r → pageNumber v' ≠ pageNumber v) →
          debugTranslate k'.store.mem r' v' = debugTranslate k.store.mem r' v' ∧
          virtToPhys k'.store.mem r' v' = virtToPhys k.store.mem r' v') := by
  rcases hboot.sound with ⟨hs0, hspaces0⟩
  have hstart : Represents (debugTranslate k₀.store.mem k₀.kernelPml4)
      (fun _ _ => PageState.untouched) k₀ := by
    intro r hr v _
    rw [roots, hspaces0, mem_singleton] at hr
    rw [PageState.entry, untouchedEntry, if_pos hr, hr]
  rcases run_represents hs0 hstart hcalls hrun with ⟨hs, hkernel, hrep⟩
  constructor
  · intro r hr v hv
    have hentry := hrep r hr v hv
    dsimp only at hentry
    rw [hkernel] at hentry ⊢
    rw [PageState.last]
    have hnone (h : debugTranslate k.store.mem r v = 0) :
        debugTranslate k.store.mem r v = 0 ∧ virtToPhys k.store.mem r v = none := by
      refine ⟨h, ?_⟩
      rw [virtToPhys_eq, h]
      rfl
    generalize (history A k₀ calls).foldl (PageState.after k₀.kernelPml4 r (pageNumber v))
      .untouched = last at hentry ⊢
    cases last with
    | untouched =>
      rw [PageState.entry, untouchedEntry] at hentry
      split_ifs at hentry ⊢ with hr
      · subst hr
        exact ⟨hentry, virtToPhys_congr hentry⟩
      · exact hnone hentry
    | unmapped => exact hnone hentry
    | mapped p flags =>
      have hphys : virtToPhys k.store.mem r v =
          some (((p ||| flags) &&& addrMask) ||| (v &&& offsetMask)) := by
        rw [virtToPhys_eq, hentry, PageState.entry, isPresent_leafEntry, if_pos rfl,
          leafEntry_and_addrMask]
      refine ⟨hentry, hphys, fun hflags => ?_⟩
      rw [hphys, Packed.or_and_right, hflags, UInt64.or_zero]
  · intro r hr v hv c ret k' hacts hcall r' hr' v' hne
    have hsame := hacts.others hs hr hv hcall hr' hne
    exact ⟨hsame, virtToPhys_congr hsame⟩

/-- A process is made and one page of it mapped. -/
theorem page_tables_refine_one_page :
    ∃ k₀ k : Vmm Nat, ∃ r ∈ k.spaces, Booted countingSource k₀ ∧ attempt (step countingSource) k₀
        [.newAddressSpace, .mapPageIn r 0x400000 0x9000 pageUser] = some k ∧
      virtToPhys k.store.mem r 0x400123 = some 0x9123 := by
  rcases exists_init 0x400000 with ⟨k₀, hinit, _, -⟩
  have hboot : Booted countingSource k₀ := ⟨_, _, _, _, trivial, hinit⟩
  rcases newAddressSpace_counting k₀ (by omega) with ⟨hne, hframes1⟩
  have hcreated := newAddressSpace_spec hboot.sound.1
  have hcall1 : k₀.call countingSource .newAddressSpace =
      some (k₀.newAddressSpace countingSource) := rfl
  generalize k₀.newAddressSpace countingSource = created at hne hframes1 hcreated hcall1
  rcases created with ⟨r, k1⟩
  have hmem : r ∈ k1.spaces := by
    rw [hcreated.spaces, if_neg hne]
    exact mem_cons_self
  rcases exists_mapPage k1.store r 0x400000 0x9000 pageUser (by dsimp only at hframes1; omega) with
    ⟨s, hmap, -⟩
  have hcall2 : k1.call countingSource (.mapPageIn r 0x400000 0x9000 pageUser) =
      some (0, { k1 with store := s }) := by
    simp only [call, mapPageIn, hmap, bind_eq_bind, bind_some, Option.pure_def, map_some]
  have hrun : attempt (step countingSource) k₀
      [.newAddressSpace, .mapPageIn r 0x400000 0x9000 pageUser] = some { k1 with store := s } := by
    simp only [attempt_cons, step, hcall1, hcall2, map_some, bind_some, attempt_nil]
  have hcalls : Meets (step countingSource) Permitted k₀
      [.newAddressSpace, .mapPageIn r 0x400000 0x9000 pageUser] := by
    refine ⟨trivial, fun _ hk' => ⟨?_, fun _ _ => trivial⟩⟩
    rw [step, hcall1] at hk'
    cases hk'
    exact mem_roots_of_mem_spaces hmem
  refine ⟨k₀, { k1 with store := s }, r, hmem, hboot, hrun, ?_⟩
  have hpage := (page_tables_refine countingSource hboot hcalls hrun).1 r
    (mem_roots_of_mem_spaces hmem) 0x400123 (by decide)
  have hhistory : history countingSource k₀
      [.newAddressSpace, .mapPageIn r 0x400000 0x9000 pageUser] =
        [(.newAddressSpace, r), (.mapPageIn r 0x400000 0x9000 pageUser, 0)] := by
    simp only [history, hcall1, hcall2]
  rw [hhistory] at hpage
  have hsame : pageNumber 0x400123 = pageNumber 0x400000 := by decide
  simp only [PageState.last, foldl_cons, foldl_nil, PageState.after, hsame, and_self,
    if_true] at hpage
  rw [hpage.2.2 (by decide)]
  decide

/-- With no call at all, a page of the stack that the kernel boots on has a
translation in the user half of the kernel's PML4. -/
theorem boot_stack_translates :
    ∃ k : Vmm Nat, Booted countingSource k ∧ InUserHalf 0x200000 ∧
      PageState.last k.kernelPml4 k.kernelPml4 (pageNumber 0x200000)
        (history countingSource k []) = .untouched ∧
      virtToPhys k.store.mem k.kernelPml4 0x200000 = some 0x200000 := by
  rcases exists_init 0x400000 with ⟨k, hinit, -⟩
  refine ⟨k, ⟨_, _, _, _, trivial, hinit⟩, by decide, rfl, ?_⟩
  have hentry : debugTranslate k.store.mem k.kernelPml4 0x200000 =
      leafEntry 0x200000 kernelDataFlags :=
    init_stack (A := countingSource) trivial hinit (n := 0) (by norm_num)
  rw [virtToPhys_eq, hentry]
  decide

end Vmm

end AgenticOS
