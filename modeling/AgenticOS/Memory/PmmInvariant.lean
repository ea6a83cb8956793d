import AgenticOS.Memory.Pmm

/-!
# The allocator's invariant

The counter of free pages is the number of clear bits, reserved pages are
used, and page zero is reserved: from `init` on and through every call. What
`alloc_page` returns is read off the used bitmap alone; the scan hint only
decides which clear page it is.
-/

namespace AgenticOS

open Foundation List Option UInt64

/-! ## Pages and addresses -/

variable {i : Nat}

theorem toNat_pageAddr (hi : i < 2 ^ 52) : (pageAddr i).toNat = i * 4096 := by
  have h64 : i < 2 ^ 64 := hi.trans (by decide)
  have hprod : i * 4096 < 2 ^ 64 := by omega
  rw [pageAddr, UInt64.toNat_mul, toNat_ofNat_of_lt' h64,
    show pageBytes.toNat = 4096 from rfl, Nat.mod_eq_of_lt hprod]

variable (addr : UInt64)

theorem pageIndex_eq : pageIndex addr = addr.toNat / 4096 :=
  UInt64.toNat_div _ _

theorem pageIndex_lt : pageIndex addr < 2 ^ 52 := by
  have h := addr.toNat_lt
  rw [pageIndex_eq]
  omega

@[simp] theorem pageIndex_pageAddr (hi : i < 2 ^ 52) : pageIndex (pageAddr i) = i := by
  rw [pageIndex_eq, toNat_pageAddr hi]
  omega

theorem mod_pageBytes_eq_zero_iff : addr % pageBytes = 0 ↔ addr.toNat % 4096 = 0 := by
  rw [← UInt64.toNat_inj, UInt64.toNat_mod]
  rfl

theorem pageAddr_pageIndex {addr : UInt64} (h : addr % pageBytes = 0) :
    pageAddr (pageIndex addr) = addr := by
  rw [mod_pageBytes_eq_zero_iff] at h
  apply UInt64.toNat_inj.mp
  rw [toNat_pageAddr (pageIndex_lt addr), pageIndex_eq]
  omega

theorem pageAddr_mod (hi : i < 2 ^ 52) : pageAddr i % pageBytes = 0 := by
  rw [mod_pageBytes_eq_zero_iff, toNat_pageAddr hi]
  omega

theorem pageAddr_eq_zero_iff (hi : i < 2 ^ 52) : pageAddr i = 0 ↔ i = 0 := by
  rw [← UInt64.toNat_inj, toNat_pageAddr hi, UInt64.toNat_zero]
  omega

/-! ## Memory maps -/

namespace EfiMemoryDescriptor

def stop (d : EfiMemoryDescriptor) : Nat := d.physicalStart.toNat + d.numberOfPages.toNat * 4096

def Covers (d : EfiMemoryDescriptor) (addr : Nat) : Prop :=
  d.physicalStart.toNat ≤ addr ∧ addr < d.stop

/-- The pages that `init` clears for the descriptor. -/
def HoldsPage (d : EfiMemoryDescriptor) (i : Nat) : Prop :=
  pageIndex d.physicalStart ≤ i ∧ i < pageIndex d.physicalStart + d.numberOfPages.toNat

instance (d : EfiMemoryDescriptor) (addr : Nat) : Decidable (d.Covers addr) :=
  inferInstanceAs (Decidable (_ ∧ _))

instance (d : EfiMemoryDescriptor) (i : Nat) : Decidable (d.HoldsPage i) :=
  inferInstanceAs (Decidable (_ ∧ _))

theorem holdsPage_iff {d : EfiMemoryDescriptor} (haligned : d.physicalStart % pageBytes = 0)
    {i : Nat} : d.HoldsPage i ↔ d.Covers (i * 4096) := by
  rw [mod_pageBytes_eq_zero_iff] at haligned
  unfold HoldsPage Covers stop
  rw [pageIndex_eq]
  omega

end EfiMemoryDescriptor

/-- What is assumed of the firmware: ranges of whole pages, their ends
addresses, no two of them overlapping. -/
structure WellFormedMap (map : List EfiMemoryDescriptor) : Prop where
  aligned : ∀ d ∈ map, d.physicalStart % pageBytes = 0
  stop_lt : ∀ d ∈ map, d.stop < 2 ^ 64
  disjoint : map.Pairwise fun d e => ∀ addr, ¬ (d.Covers addr ∧ e.Covers addr)

/-- The page is one of usable memory, as the firmware says. -/
def Conventional (map : List EfiMemoryDescriptor) (i : Nat) : Prop :=
  ∃ d ∈ map, d.ty = efiConventionalMemory ∧ d.HoldsPage i

instance (map : List EfiMemoryDescriptor) (i : Nat) : Decidable (Conventional map i) :=
  inferInstanceAs (Decidable (∃ d ∈ map, d.ty = efiConventionalMemory ∧ d.HoldsPage i))

namespace Pmm

variable {p : Pmm}

/-! ## The invariant -/

def clearPages (p : Pmm) : Finset Nat :=
  (Finset.range p.totalSpanPages).filter fun i => p.used i = false

variable {i n : Nat}

theorem mem_clearPages : i ∈ p.clearPages ↔ i < p.totalSpanPages ∧ p.used i = false := by
  rw [clearPages, Finset.mem_filter, Finset.mem_range]

/-- The bitmaps cover the span, the counter agrees with them, and reserved
pages are used. -/
structure Counted (p : Pmm) : Prop where
  span_le : p.totalSpanPages ≤ 2 ^ 52
  used_covers : p.totalSpanPages ≤ 8 * p.usedBitmap.length
  reserved_covers : p.totalSpanPages ≤ 8 * p.reservedBitmap.length
  reserved_used : ∀ i, i < p.totalSpanPages → p.reserved i → p.used i
  free_eq : p.stats.freePages.toNat = p.clearPages.card

/-- **The invariant of the allocator.** -/
structure Ok (p : Pmm) : Prop extends Counted p where
  zero_reserved : 0 < p.totalSpanPages → p.reserved 0

theorem Counted.used_inBounds (h : p.Counted) (hi : i < p.totalSpanPages) :
    Bitmap.InBounds p.usedBitmap i := by
  have := h.used_covers
  unfold Bitmap.InBounds
  omega

theorem Counted.reserved_inBounds (h : p.Counted) (hi : i < p.totalSpanPages) :
    Bitmap.InBounds p.reservedBitmap i := by
  have := h.reserved_covers
  unfold Bitmap.InBounds
  omega

/-! ### Removing and adding clear pages -/

variable {q : Pmm}

theorem clearPages_erase (hspan : q.totalSpanPages = p.totalSpanPages)
    (hused : ∀ j, j < p.totalSpanPages → q.used j = (decide (j = i) || p.used j)) :
    q.clearPages = p.clearPages.erase i := by
  ext j
  rw [Finset.mem_erase, mem_clearPages, mem_clearPages, hspan]
  constructor
  · rintro ⟨hj, hclear⟩
    rw [hused j hj, Bool.or_eq_false_iff, decide_eq_false_iff_not] at hclear
    exact ⟨hclear.1, hj, hclear.2⟩
  · rintro ⟨hne, hj, hclear⟩
    refine ⟨hj, ?_⟩
    rw [hused j hj, hclear, Bool.or_false, decide_eq_false_iff_not]
    exact hne

theorem clearPages_insert (hspan : q.totalSpanPages = p.totalSpanPages) (hi : i < p.totalSpanPages)
    (hused : ∀ j, q.used j = (decide (j ≠ i) && p.used j)) :
    q.clearPages = insert i p.clearPages := by
  ext j
  rw [Finset.mem_insert, mem_clearPages, mem_clearPages, hspan, hused j]
  by_cases hj : j = i
  · simp [hj, hi]
  · simp [hj]

theorem toNat_sub_one {n : UInt64} {s : Finset Nat} (hn : n.toNat = s.card)
    (hi : i ∈ s) : (n - 1).toNat = (s.erase i).card := by
  have hpos : 0 < s.card := Finset.card_pos.mpr ⟨i, hi⟩
  have hle : (1 : UInt64) ≤ n := by
    rw [le_iff_toNat_le, hn]
    exact hpos
  rw [UInt64.toNat_sub_of_le _ _ hle, hn, Finset.card_erase_of_mem hi]
  rfl

theorem Counted.toNat_freePages_add_one (h : p.Counted) (hi : i < p.totalSpanPages)
    (hused : p.used i = true) :
    (p.stats.freePages + 1).toNat = (insert i p.clearPages).card := by
  have hnot : i ∉ p.clearPages := by
    rw [mem_clearPages, hused]
    rintro ⟨-, hfalse⟩
    cases hfalse
  have hsub : insert i p.clearPages ⊆ Finset.range p.totalSpanPages :=
    Finset.insert_subset (Finset.mem_range.mpr hi) (Finset.filter_subset _ _)
  have hcard := (Finset.card_le_card hsub).trans_eq (Finset.card_range _)
  have hspan := h.span_le
  rw [Finset.card_insert_of_notMem hnot] at hcard ⊢
  rw [UInt64.toNat_add, h.free_eq]
  have h1 : (1 : UInt64).toNat = 1 := rfl
  rw [h1, Nat.mod_eq_of_lt (by omega)]

/-! ## Reserving keeps it -/

@[simp] theorem usedPages_reservePage (p : Pmm) (i : Nat) :
    (p.reservePage i).stats.usedPages = p.stats.usedPages := by
  unfold reservePage
  split_ifs <;> rfl

@[simp] theorem totalSpanPages_reservePage (p : Pmm) (i : Nat) :
    (p.reservePage i).totalSpanPages = p.totalSpanPages := by
  unfold reservePage
  split_ifs <;> rfl

section

variable (h : p.Counted)

include h

theorem Counted.reserved_reservePage (i j : Nat) : (p.reservePage i).reserved j =
      (decide (j = i ∧ i < p.totalSpanPages) || p.reserved j) := by
  unfold Pmm.reservePage
  split_ifs with hspan hres hused
  · simp [Nat.not_lt.mpr hspan]
  · by_cases hj : j = i
    · simp [hj, hres]
    · simp [hj]
  all_goals
    rw [Nat.not_le] at hspan
    simp only [hspan, and_true]
    exact Bitmap.test_set (h.reserved_inBounds hspan) j

theorem Counted.used_reservePage (i j : Nat) :
    (p.reservePage i).used j = (decide (j = i ∧ i < p.totalSpanPages) || p.used j) := by
  unfold Pmm.reservePage
  split_ifs with hspan hres hused
  · simp [Nat.not_lt.mpr hspan]
  · rw [Nat.not_le] at hspan
    by_cases hj : j = i
    · simp [hj, h.reserved_used i hspan hres]
    · simp [hj]
  · show p.used j = _
    by_cases hj : j = i
    · simp [hj, hused]
    · simp [hj]
  · rw [Nat.not_le] at hspan
    simp only [hspan, and_true]
    exact Bitmap.test_set (h.used_inBounds hspan) j

theorem Counted.freePages_reservePage (i : Nat) :
    (p.reservePage i).stats.freePages.toNat = (p.clearPages.erase i).card := by
  unfold Pmm.reservePage
  split_ifs with hspan hres hused
  · rw [Finset.erase_eq_of_notMem, h.free_eq]
    rw [mem_clearPages]
    exact fun hi => absurd hi.1 (Nat.not_lt.mpr hspan)
  · rw [Finset.erase_eq_of_notMem, h.free_eq]
    rw [mem_clearPages]
    rintro ⟨hi, hclear⟩
    rw [h.reserved_used i hi hres] at hclear
    cases hclear
  · rw [Finset.erase_eq_of_notMem]
    · exact h.free_eq
    · rw [mem_clearPages]
      rintro ⟨-, hclear⟩
      rw [hused] at hclear
      cases hclear
  · rw [Nat.not_le] at hspan
    rw [Bool.not_eq_true] at hused
    exact toNat_sub_one h.free_eq (mem_clearPages.mpr ⟨hspan, hused⟩)

theorem Counted.reservePage (i : Nat) : (p.reservePage i).Counted := by
  have hlen : (p.reservePage i).usedBitmap.length = p.usedBitmap.length ∧
      (p.reservePage i).reservedBitmap.length = p.reservedBitmap.length := by
    unfold Pmm.reservePage
    split_ifs <;> simp
  constructor
  · rw [totalSpanPages_reservePage]
    exact h.span_le
  · rw [totalSpanPages_reservePage, hlen.1]
    exact h.used_covers
  · rw [totalSpanPages_reservePage, hlen.2]
    exact h.reserved_covers
  · intro j hj
    rw [totalSpanPages_reservePage] at hj
    rw [h.reserved_reservePage, h.used_reservePage, Bool.or_eq_true, Bool.or_eq_true]
    exact Or.imp_right (h.reserved_used j hj)
  · rw [h.freePages_reservePage]
    congr 1
    symm
    apply clearPages_erase (totalSpanPages_reservePage p i)
    intro j hj
    rw [h.used_reservePage]
    by_cases hji : j = i
    · subst hji
      simp [hj]
    · simp [hji]

end

/-- A page that `reserve_range` covers, below the span or not. -/
def InRange (start length : UInt64) (i : Nat) : Prop :=
  (Bitmap.reserveRangePages start length pageBytes).1 ≤ i ∧
    i < (Bitmap.reserveRangePages start length pageBytes).1 +
      (Bitmap.reserveRangePages start length pageBytes).2

theorem Counted.reservePages (h : p.Counted) (start n : Nat) :
    let q := (range n).foldl (fun p k => p.reservePage (start + k)) p
    q.Counted ∧ q.totalSpanPages = p.totalSpanPages ∧ (∀ j, q.reserved j = true ↔
        p.reserved j = true ∨ (j < p.totalSpanPages ∧ start ≤ j ∧ j < start + n)) ∧
      (∀ j, q.used j = true ↔
        p.used j = true ∨ (j < p.totalSpanPages ∧ start ≤ j ∧ j < start + n)) := by
  induction n with
  | zero =>
    refine ⟨h, rfl, fun j => ?_, fun j => ?_⟩ <;>
      exact ⟨.inl, fun hj => hj.elim id fun hj => by omega⟩
  | succ n ih =>
    obtain ⟨hq, hspan, hres, hused⟩ := ih
    simp only [range_succ, foldl_append, foldl_cons, foldl_nil]
    refine ⟨hq.reservePage _, ?_, fun j => ?_, fun j => ?_⟩
    · rw [totalSpanPages_reservePage, hspan]
    · rw [hq.reserved_reservePage, Bool.or_eq_true, hres, decide_eq_true_eq, hspan]
      grind
    · rw [hq.used_reservePage, Bool.or_eq_true, hused, decide_eq_true_eq, hspan]
      grind

@[simp] theorem usedPages_reserveRange (p : Pmm) (start length : UInt64) :
    (p.reserveRange start length).stats.usedPages = p.stats.usedPages := by
  unfold Pmm.reserveRange
  dsimp only
  induction (Bitmap.reserveRangePages start length pageBytes).2 with
  | zero => rfl
  | succ n ih =>
    rw [range_succ, foldl_append, foldl_cons, foldl_nil, usedPages_reservePage, ih]

theorem Counted.reserveRange (h : p.Counted) (start length : UInt64) :
    (p.reserveRange start length).Counted ∧
      (p.reserveRange start length).totalSpanPages = p.totalSpanPages ∧
      (∀ j, (p.reserveRange start length).reserved j = true ↔
        p.reserved j = true ∨ (j < p.totalSpanPages ∧ InRange start length j)) ∧
      (∀ j, (p.reserveRange start length).used j = true ↔
        p.used j = true ∨ (j < p.totalSpanPages ∧ InRange start length j)) :=
  h.reservePages _ _

theorem Ok.reserveRange (h : p.Ok) (start length : UInt64) : (p.reserveRange start length).Ok := by
  obtain ⟨hq, hspan, hres, -⟩ := h.toCounted.reserveRange start length
  refine ⟨hq, fun hpos => ?_⟩
  rw [hspan] at hpos
  exact (hres 0).mpr (.inl (h.zero_reserved hpos))

/-! ## Allocating keeps it -/

variable {bitmap : List UInt8}

theorem scan_eq_some {j : Nat} (h : scan bitmap n i = some j) :
    i ≤ j ∧ j < i + n ∧ Bitmap.test bitmap j = false := by
  induction n generalizing i with
  | zero => cases h
  | succ n ih =>
    unfold scan at h
    split_ifs at h with hclear
    · cases h
      rw [Bool.not_eq_true'] at hclear
      exact ⟨le_rfl, by omega, hclear⟩
    · obtain ⟨_, _, hj⟩ := ih h
      exact ⟨by omega, by omega, hj⟩

theorem scan_eq_none (h : scan bitmap n i = none) :
    ∀ j, i ≤ j → j < i + n → Bitmap.test bitmap j = true := by
  induction n generalizing i with
  | zero => intro j hle hlt; omega
  | succ n ih =>
    unfold scan at h
    split_ifs at h with hclear
    intro j hle hlt
    rw [Bool.not_eq_true', Bool.not_eq_false] at hclear
    rcases Nat.eq_or_lt_of_le hle with rfl | hlt'
    · exact hclear
    · exact ih h j hlt' (by omega)

/-- **What `alloc_page` does**, whatever the hint: it marks some clear page
below the span, or there is none. Two calls are as deep as its recursion
goes. -/
theorem allocPageLocked_cases (p : Pmm) (depth : Nat) :
    (∃ i, i < p.totalSpanPages ∧ p.used i = false ∧
      allocPageLocked (depth + 2) p = some (pageAddr i, p.mark i)) ∨
    ((∀ i, i < p.totalSpanPages → p.used i = true) ∧
      allocPageLocked (depth + 2) p = some (0, { p with lastScannedPage := 0 })) := by
  rw [allocPageLocked]
  cases hscan : scan p.usedBitmap (p.totalSpanPages - p.lastScannedPage) p.lastScannedPage with
  | some i =>
    obtain ⟨_, hlt, hclear⟩ := scan_eq_some hscan
    exact .inl ⟨i, by omega, hclear, rfl⟩
  | none =>
    have hhigh := scan_eq_none hscan
    split_ifs with hhint
    · -- second round, from page zero
      rw [allocPageLocked]
      cases hscan0 : scan p.usedBitmap (p.totalSpanPages - 0) 0 with
      | some i =>
        obtain ⟨-, hlt, hclear⟩ := scan_eq_some hscan0
        exact .inl ⟨i, by omega, hclear, rfl⟩
      | none =>
        have hlow := scan_eq_none hscan0
        exact .inr ⟨fun i hi => hlow i (by omega) (by omega), by simp⟩
    · have hzero : p.lastScannedPage = 0 := by omega
      refine .inr ⟨fun i hi => hhigh i (by omega) (by omega), ?_⟩
      rw [← hzero]

theorem allocPage_cases (p : Pmm) :
    (∃ i, i < p.totalSpanPages ∧ p.used i = false ∧ p.allocPage = (pageAddr i, p.mark i)) ∨
    ((∀ i, i < p.totalSpanPages → p.used i = true) ∧
      p.allocPage = (0, { p with lastScannedPage := 0 })) := by
  unfold allocPage
  rcases allocPageLocked_cases p 0 with ⟨i, hi, hclear, heq⟩ | ⟨hfull, heq⟩
  · exact .inl ⟨i, hi, hclear, by rw [heq]; rfl⟩
  · exact .inr ⟨hfull, by rw [heq]; rfl⟩

/-- The recursion ends, with the same result for every larger bound. -/
theorem allocPageLocked_eq (p : Pmm) (depth : Nat) :
    allocPageLocked (depth + 2) p = some p.allocPage := by
  have hdepth : allocPageLocked (depth + 2) p = allocPageLocked 2 p := by
    simp only [allocPageLocked]
    split
    · rfl
    · simp only [gt_iff_lt, lt_self_iff_false, if_false]
  rcases allocPageLocked_cases p 0 with ⟨i, -, -, heq⟩ | ⟨-, heq⟩
  · rw [hdepth, allocPage, heq]
    rfl
  · rw [hdepth, allocPage, heq]
    rfl

theorem Counted.used_mark (h : p.Counted) (hi : i < p.totalSpanPages) (j : Nat) :
    (p.mark i).used j = (decide (j = i) || p.used j) :=
  Bitmap.test_set (h.used_inBounds hi) j

theorem Ok.mark (h : p.Ok) (hi : i < p.totalSpanPages) (hclear : p.used i = false) :
    (p.mark i).Ok := by
  refine ⟨⟨h.span_le, ?_, h.reserved_covers, fun j hj hres => ?_, ?_⟩, h.zero_reserved⟩
  · simpa [Pmm.mark] using h.used_covers
  · rw [h.used_mark hi, h.reserved_used j hj hres, Bool.or_true]
  · have hclearPages : (p.mark i).clearPages = p.clearPages.erase i :=
      clearPages_erase rfl fun j _ => h.used_mark hi j
    rw [hclearPages]
    exact toNat_sub_one h.free_eq (mem_clearPages.mpr ⟨hi, hclear⟩)

theorem Ok.hint (h : p.Ok) (hint : Nat) : { p with lastScannedPage := hint }.Ok :=
  ⟨{ h with }, h.zero_reserved⟩

theorem Ok.allocPage (h : p.Ok) : p.allocPage.2.Ok := by
  rcases allocPage_cases p with ⟨i, hi, hclear, heq⟩ | ⟨-, heq⟩
  · rw [heq]
    exact h.mark hi hclear
  · rw [heq]
    exact h.hint 0

/-! ## Freeing keeps it -/

/-- `free_page` gets past its five checks. -/
def Accepts (p : Pmm) (addr : UInt64) : Prop :=
  addr ≠ 0 ∧ addr % pageBytes = 0 ∧ pageIndex addr < p.totalSpanPages ∧
    p.reserved (pageIndex addr) = false ∧ p.used (pageIndex addr) = true

instance (p : Pmm) (addr : UInt64) : Decidable (p.Accepts addr) :=
  inferInstanceAs (Decidable (_ ∧ _ ∧ _ ∧ _ ∧ _))

theorem freePage_eq (p : Pmm) (addr : UInt64) :
    p.freePage addr = if p.Accepts addr then p.release (pageIndex addr) else p := by
  by_cases hacc : p.Accepts addr
  · obtain ⟨hzero, hmod, hspan, hres, hused⟩ := hacc
    rw [if_pos ⟨hzero, hmod, hspan, hres, hused⟩, freePage, if_neg hzero, if_neg (not_not.mpr hmod),
      if_neg (Nat.not_le.mpr hspan), hres, hused]
    rfl
  · rw [if_neg hacc, freePage]
    split_ifs with hzero hmod hspan hres hused
    all_goals try rfl
    rw [Bool.not_eq_true] at hres
    rw [Bool.not_eq_true', Bool.not_eq_false] at hused
    exact absurd ⟨hzero, not_not.mp hmod, Nat.not_le.mp hspan, hres, hused⟩ hacc

theorem used_release (p : Pmm) (i j : Nat) : (p.release i).used j = (decide (j ≠ i) && p.used j) :=
  Bitmap.test_clear _ i j

theorem Ok.release (h : p.Ok) (hi : i < p.totalSpanPages)
    (hres : p.reserved i = false) (hused : p.used i = true) : (p.release i).Ok := by
  refine ⟨⟨h.span_le, ?_, h.reserved_covers, fun j hj hresj => ?_, ?_⟩, h.zero_reserved⟩
  · simpa [Pmm.release] using h.used_covers
  · have hne : j ≠ i := by
      rintro rfl
      have hresj : p.reserved j = true := hresj
      rw [hres] at hresj
      cases hresj
    rw [used_release, h.reserved_used j hj hresj]
    simpa using hne
  · have hclearPages : (p.release i).clearPages = insert i p.clearPages :=
      clearPages_insert rfl hi (used_release p i)
    rw [hclearPages]
    exact h.toNat_freePages_add_one hi hused

theorem Ok.freePage (h : p.Ok) (addr : UInt64) : (p.freePage addr).Ok := by
  rw [freePage_eq]
  split_ifs with hacc
  · obtain ⟨-, -, hi, hres, hused⟩ := hacc
    exact h.release hi hres hused
  · exact h

/-! ## Initialisation establishes it -/

/-- The state between two descriptors of `init`'s loop: nothing allocated or
reserved, and the clear pages are those of the descriptors done. -/
structure Offered (done : List EfiMemoryDescriptor) (p : Pmm) : Prop extends Counted p where
  none_allocated : p.stats.usedPages = 0
  none_reserved : ∀ i, p.reserved i = false
  clear_iff : ∀ i, i < p.totalSpanPages → (p.used i = false ↔ Conventional done i)

theorem Counted.offerPage (h : p.Counted) (hnone : ∀ i, p.reserved i = false)
    (hi : i < p.totalSpanPages) (hused : p.used i = true) :
    p.offerPage i = some (p.offer i) ∧ (p.offer i).Counted ∧
      ∀ j, (p.offer i).used j = (decide (j ≠ i) && p.used j) := by
  have husedq : ∀ j, (p.offer i).used j = (decide (j ≠ i) && p.used j) :=
    fun j => Bitmap.test_clear _ i j
  refine ⟨if_pos (h.used_inBounds hi), ?_, husedq⟩
  refine ⟨h.span_le, ?_, h.reserved_covers, fun j _ hres => ?_, ?_⟩
  · simpa [offer] using h.used_covers
  · have hres : p.reserved j = true := hres
    rw [hnone j] at hres
    cases hres
  · have hclearPages : (p.offer i).clearPages = insert i p.clearPages :=
      clearPages_insert rfl hi husedq
    rw [hclearPages]
    exact h.toNat_freePages_add_one hi hused

theorem Counted.offerPages (h : p.Counted) (hnone : ∀ i, p.reserved i = false) {start : Nat}
    (hpages : ∀ i, start ≤ i → i < start + n → i < p.totalSpanPages ∧ p.used i = true) :
    ∃ q, (List.range n).foldlM (fun p k => p.offerPage (start + k)) p = some q ∧
      q.Counted ∧ q.totalSpanPages = p.totalSpanPages ∧
      q.stats.usedPages = p.stats.usedPages ∧ (∀ j, q.reserved j = false) ∧
      ∀ j, q.used j = true ↔ p.used j = true ∧ ¬ (start ≤ j ∧ j < start + n) := by
  induction n with
  | zero =>
    refine ⟨p, rfl, h, rfl, rfl, hnone, fun j => ?_⟩
    exact ⟨fun hj => ⟨hj, by omega⟩, And.left⟩
  | succ n ih =>
    obtain ⟨q, hq, hcounted, hspan, hallocated, hnoneq, husedq⟩ :=
      ih fun i hle _ => hpages i hle (by omega)
    have hpage := hpages (start + n) (by omega) (by omega)
    have hused : q.used (start + n) = true :=
      (husedq _).mpr ⟨hpage.2, by omega⟩
    obtain ⟨hq', hcounted', hused'⟩ :=
      hcounted.offerPage hnoneq (hspan.symm ▸ hpage.1) hused
    refine ⟨q.offer (start + n), ?_, hcounted', hspan, hallocated, hnoneq, fun j => ?_⟩
    · rw [range_succ, foldlM_append, hq]
      simpa using hq'
    · rw [hused', Bool.and_eq_true, husedq, decide_eq_true_eq]
      grind

variable {done : List EfiMemoryDescriptor} {d : EfiMemoryDescriptor}

theorem conventional_append_single : Conventional (done ++ [d]) i ↔
      Conventional done i ∨ (d.ty = efiConventionalMemory ∧ d.HoldsPage i) := by
  simp [Conventional, or_and_right, exists_or]

theorem Offered.offerDescriptor (h : p.Offered done) (d : EfiMemoryDescriptor)
    (hnew : d.ty = efiConventionalMemory →
      ∀ i, d.HoldsPage i → i < p.totalSpanPages ∧ ¬ Conventional done i) :
    ∃ q, p.offerDescriptor d = some q ∧ q.totalSpanPages = p.totalSpanPages ∧
      q.Offered (done ++ [d]) := by
  unfold Pmm.offerDescriptor
  split_ifs with hty
  · have hcounted : ({ p with stats := { p.stats with
        totalUsableMemory := p.stats.totalUsableMemory + d.numberOfPages * pageBytes } }
        : Pmm).Counted :=
      { h with }
    have hpages : ∀ i, pageIndex d.physicalStart ≤ i →
        i < pageIndex d.physicalStart + d.numberOfPages.toNat →
        i < p.totalSpanPages ∧ p.used i = true := by
      intro i hle hlt
      obtain ⟨hi, hnot⟩ := hnew hty i ⟨hle, hlt⟩
      refine ⟨hi, ?_⟩
      by_contra hclear
      rw [Bool.not_eq_true] at hclear
      exact hnot ((h.clear_iff i hi).mp hclear)
    obtain ⟨q, hq, hqc, hspan, hallocated, hnone, hused⟩ :=
      hcounted.offerPages h.none_reserved hpages
    refine ⟨q, hq, hspan, hqc, hallocated.trans h.none_allocated, hnone, fun i hi => ?_⟩
    rw [hspan] at hi
    rw [conventional_append_single, ← h.clear_iff i hi, ← Bool.not_eq_true, hused,
      ← Bool.not_eq_true]
    tauto
  · refine ⟨p, rfl, rfl, h.toCounted, h.none_allocated, h.none_reserved, fun i hi => ?_⟩
    rw [conventional_append_single, ← h.clear_iff i hi]
    tauto

variable {rest : List EfiMemoryDescriptor}

theorem not_conventional_of_disjoint (hmap : WellFormedMap (done ++ d :: rest))
    (hi : d.HoldsPage i) : ¬ Conventional done i := by
  rintro ⟨e, he, -, hei⟩
  have hd : d ∈ done ++ d :: rest := by simp
  have hapart := (pairwise_append.mp hmap.disjoint).2.2 e he d mem_cons_self
  rw [EfiMemoryDescriptor.holdsPage_iff (hmap.aligned d hd)] at hi
  rw [EfiMemoryDescriptor.holdsPage_iff (hmap.aligned e (mem_append_left _ he))] at hei
  exact hapart _ ⟨hei, hi⟩

theorem Offered.offerDescriptors (h : p.Offered done) (hmap : WellFormedMap (done ++ rest))
    (hbelow : ∀ i, Conventional (done ++ rest) i → i < p.totalSpanPages) :
    ∃ q, rest.foldlM Pmm.offerDescriptor p = some q ∧ q.totalSpanPages = p.totalSpanPages ∧
      q.Offered (done ++ rest) := by
  induction rest generalizing done p with
  | nil => exact ⟨p, rfl, rfl, by rwa [append_nil]⟩
  | cons d rest ih =>
    obtain ⟨q, hq, hspan, hoffered⟩ := h.offerDescriptor d fun hty i hi =>
      ⟨hbelow i ⟨d, by simp, hty, hi⟩, not_conventional_of_disjoint hmap hi⟩
    rw [append_cons] at hmap hbelow ⊢
    obtain ⟨q', hq', hspan', hoffered'⟩ := ih hoffered hmap (by rwa [hspan])
    refine ⟨q', ?_, hspan'.trans hspan, hoffered'⟩
    rw [foldlM_cons, hq]
    exact hq'

theorem bitmapSizeBytes_covers (span : Nat) : span ≤ 8 * bitmapSizeBytes span := by
  unfold bitmapSizeBytes
  split_ifs <;> omega

theorem blank_offered (highest : UInt64) : (blank highest).Offered [] := by
  have hcovers := bitmapSizeBytes_covers (pageIndex highest)
  have hused : ∀ i, i < pageIndex highest → (blank highest).used i = true :=
    fun i hi => Bitmap.test_replicate_ones (hi.trans_le hcovers)
  have hnone : ∀ i, (blank highest).reserved i = false := Bitmap.test_replicate_zero _
  refine ⟨⟨(pageIndex_lt highest).le, ?_, ?_, fun i _ hi => ?_, ?_⟩, rfl, hnone, fun i hi => ?_⟩
  · simpa [blank] using hcovers
  · simpa [blank] using hcovers
  · rw [hnone i] at hi
    cases hi
  · have hempty : (blank highest).clearPages = ∅ := by
      rw [Finset.eq_empty_iff_forall_notMem]
      intro i hi
      rw [mem_clearPages] at hi
      rw [hused i hi.1] at hi
      cases hi.2
    rw [hempty]
    rfl
  · simp [hused i hi, Conventional]

theorem toNat_stop (hstop : d.stop < 2 ^ 64) :
    (d.physicalStart + d.numberOfPages * pageBytes).toNat = d.stop := by
  unfold EfiMemoryDescriptor.stop at hstop ⊢
  have hbytes : pageBytes.toNat = 4096 := rfl
  rw [UInt64.toNat_add, UInt64.toNat_mul, hbytes,
    Nat.mod_eq_of_lt (a := d.numberOfPages.toNat * 4096) (by omega), Nat.mod_eq_of_lt hstop]

theorem le_raise (highest : UInt64) (d : EfiMemoryDescriptor) :
    highest.toNat ≤ (raise highest d).toNat := by
  unfold raise
  dsimp only
  split_ifs with hreal hlt
  · exact le_rfl
  · exact (lt_iff_toNat_lt.mp hlt).le
  · exact le_rfl

theorem stop_le_raise (highest : UInt64) (hstop : d.stop < 2 ^ 64)
    (hreal : isRealMemory d.ty = true) : d.stop ≤ (raise highest d).toNat := by
  rw [← toNat_stop hstop]
  unfold raise
  simp only [hreal, Bool.not_true, Bool.false_eq_true, if_false]
  split_ifs with hlt
  · exact le_rfl
  · exact le_iff_toNat_le.mp (UInt64.not_lt.mp hlt)

theorem le_foldl_raise (map : List EfiMemoryDescriptor) (highest : UInt64) :
    highest.toNat ≤ (map.foldl raise highest).toNat := by
  induction map generalizing highest with
  | nil => exact le_rfl
  | cons d map ih => exact (le_raise highest d).trans (ih _)

variable {map : List EfiMemoryDescriptor}

theorem stop_le_highestAddress
    (hd : d ∈ map) (hstop : d.stop < 2 ^ 64) (hreal : isRealMemory d.ty = true) :
    d.stop ≤ (highestAddress map).toNat := by
  obtain ⟨_, post, rfl⟩ := append_of_mem hd
  rw [highestAddress, foldl_append, foldl_cons]
  exact (stop_le_raise _ hstop hreal).trans (le_foldl_raise post _)

theorem lt_span_of_conventional (hmap : WellFormedMap map) (hi : Conventional map i) :
    i < pageIndex (highestAddress map) := by
  obtain ⟨d, hd, hty, hpage⟩ := hi
  have hreal : isRealMemory d.ty = true := by
    rw [hty]
    decide
  have hle := stop_le_highestAddress hd (hmap.stop_lt d hd) hreal
  have haligned := hmap.aligned d hd
  obtain ⟨-, hlt⟩ := hpage
  unfold EfiMemoryDescriptor.stop at hle
  rw [pageIndex_eq] at hlt ⊢
  omega

def FindsRoom (boot : BootInfo) : Prop :=
  (bitmapRegion boot.memoryMap (UInt64.ofNat (bitmapSizeBytes
    (pageIndex (highestAddress boot.memoryMap))) * 2)).isSome

instance (boot : BootInfo) : Decidable (FindsRoom boot) :=
  inferInstanceAs (Decidable (Option.isSome _ = true))

/-- What `init` establishes: the invariant, with nothing allocated, where a
page of conventional memory is clear or reserved and no other page is clear. -/
structure Started (map : List EfiMemoryDescriptor) (p : Pmm) : Prop extends Ok p where
  none_allocated : p.stats.usedPages = 0
  clear_conventional : ∀ i, i < p.totalSpanPages → p.used i = false → Conventional map i
  conventional_used : ∀ i, i < p.totalSpanPages → Conventional map i → p.used i = true →
    p.reserved i = true

variable {length start : UInt64}

theorem Counted.used_of_reserveRange (h : p.Counted)
    (hclear : (p.reserveRange start length).used i = false) : p.used i = false := by
  obtain ⟨-, -, -, hused⟩ := h.reserveRange start length
  rw [← Bool.not_eq_true] at hclear ⊢
  exact fun hi => hclear ((hused i).mpr (.inl hi))

theorem Counted.reserved_of_reserveRange (h : p.Counted)
    (hused : (p.reserveRange start length).used i = true)
    (hold : p.used i = true → p.reserved i = true) :
    (p.reserveRange start length).reserved i = true := by
  obtain ⟨-, -, hres, husediff⟩ := h.reserveRange start length
  exact (hres i).mpr (((husediff i).mp hused).imp_left hold)

theorem Started.reserveRange (h : p.Started map)
    (start length : UInt64) : (p.reserveRange start length).Started map := by
  obtain ⟨-, hspan, -, -⟩ := h.toCounted.reserveRange start length
  refine ⟨h.toOk.reserveRange start length, ?_, fun i hi hclear => ?_, fun i hi hconv hused => ?_⟩
  · rw [usedPages_reserveRange]
    exact h.none_allocated
  · rw [hspan] at hi
    exact h.clear_conventional i hi (h.toCounted.used_of_reserveRange hclear)
  · rw [hspan] at hi
    exact h.toCounted.reserved_of_reserveRange hused (h.conventional_used i hi hconv)

theorem Offered.reserveZero (h : p.Offered map) : (p.reserveRange 0 pageBytes).Started map := by
  obtain ⟨hcounted, hspan, hres, -⟩ := h.toCounted.reserveRange 0 pageBytes
  refine ⟨⟨hcounted, fun hpos => ?_⟩, ?_, fun i hi hclear => ?_, fun i hi hconv hused => ?_⟩
  · rw [hspan] at hpos
    exact (hres 0).mpr (.inr ⟨hpos, by decide, by decide⟩)
  · rw [usedPages_reserveRange]
    exact h.none_allocated
  · rw [hspan] at hi
    exact (h.clear_iff i hi).mp (h.toCounted.used_of_reserveRange hclear)
  · rw [hspan] at hi
    apply h.toCounted.reserved_of_reserveRange hused
    intro hold
    rw [(h.clear_iff i hi).mpr hconv] at hold
    cases hold

theorem init_started {boot : BootInfo} (hmap : WellFormedMap boot.memoryMap)
    (hroom : FindsRoom boot) : ∃ p, init boot = some p ∧ p.Started boot.memoryMap := by
  obtain ⟨_, hregion⟩ := isSome_iff_exists.mp hroom
  obtain ⟨p, hp, -, hoffered⟩ :=
    (blank_offered (highestAddress boot.memoryMap)).offerDescriptors
      (by rwa [nil_append]) fun i hi => lt_span_of_conventional hmap hi
  apply Exists.intro
  constructor
  · simp only [init, hregion, hp, bind_eq_bind, bind_some]
    rfl
  · apply Started.reserveRange
    apply Started.reserveRange
    apply Started.reserveRange
    apply Started.reserveRange
    exact hoffered.reserveZero

/-! ## Runs -/

inductive Call where
  | allocPage
  | freePage (addr : UInt64)
  | reserveRange (start length : UInt64)
  deriving DecidableEq

def step (p : Pmm) : Call → Pmm
  | .allocPage => p.allocPage.2
  | .freePage addr => p.freePage addr
  | .reserveRange start length => p.reserveRange start length

section

variable (h : p.Ok)

include h

theorem Ok.step (call : Call) : (p.step call).Ok := by
  cases call with
  | allocPage => exact h.allocPage
  | freePage addr => exact h.freePage addr
  | reserveRange start length => exact h.reserveRange start length

theorem Ok.run (calls : List Call) : (Foundation.run Pmm.step p calls).Ok :=
  run_invariant (G := fun _ _ => True) (fun _ call hp _ => hp.step call) h
    (along_iff_split.mpr fun _ _ _ _ => trivial)

theorem Ok.used_step (hi : p.used i = true) {call : Call}
    (hcall : ¬ (p.Accepts (pageAddr i) ∧ call = .freePage (pageAddr i))) :
    (p.step call).used i = true := by
  cases call with
  | allocPage =>
    show p.allocPage.2.used i = true
    rcases allocPage_cases p with ⟨j, hj, -, heq⟩ | ⟨-, heq⟩
    · rw [heq, h.used_mark hj, hi, Bool.or_true]
    · rw [heq]
      exact hi
  | freePage addr =>
    show (p.freePage addr).used i = true
    rw [freePage_eq]
    split_ifs with hacc
    · rw [used_release, hi, Bool.and_true, decide_eq_true_eq]
      rintro rfl
      rw [pageAddr_pageIndex hacc.2.1] at hcall
      exact hcall ⟨hacc, rfl⟩
    · exact hi
  | reserveRange start length =>
    obtain ⟨-, -, -, hused⟩ := h.toCounted.reserveRange start length
    exact (hused i).mpr (.inl hi)

theorem Ok.used_run (hi : p.used i = true) {calls : List Call}
    (hcalls : ∀ pre post, calls = pre ++ .freePage (pageAddr i) :: post →
      ¬ (Foundation.run Pmm.step p pre).Accepts (pageAddr i)) :
    (Foundation.run Pmm.step p calls).used i = true := by
  induction calls generalizing p with
  | nil => exact hi
  | cons call calls ih =>
    rw [run_cons]
    refine ih (h.step call) (h.used_step hi ?_) fun pre post hsplit => ?_
    · rintro ⟨hacc, rfl⟩
      exact hcalls [] calls rfl hacc
    · exact hcalls (call :: pre) post (by rw [hsplit]; rfl)

theorem Ok.allocPage_result (hne : p.allocPage.1 ≠ 0) :
    ∃ i, i < p.totalSpanPages ∧ i ≠ 0 ∧ p.used i = false ∧ p.reserved i = false ∧
      p.allocPage = (pageAddr i, p.mark i) := by
  rcases allocPage_cases p with ⟨i, hi, hclear, heq⟩ | ⟨-, heq⟩
  · refine ⟨i, hi, ?_, hclear, ?_, heq⟩
    · rintro rfl
      rw [heq] at hne
      exact hne rfl
    · by_contra hres
      rw [Bool.not_eq_false] at hres
      rw [h.reserved_used i hi hres] at hclear
      cases hclear
  · rw [heq] at hne
    exact absurd rfl hne

theorem Ok.allocPage_eq_zero_iff :
    p.allocPage.1 = 0 ↔ ∀ i, i < p.totalSpanPages → p.used i = true := by
  rcases allocPage_cases p with ⟨i, hi, hclear, heq⟩ | ⟨hfull, heq⟩
  · rw [heq, pageAddr_eq_zero_iff (hi.trans_le h.span_le)]
    constructor
    · -- page zero is reserved, hence used
      rintro rfl
      rw [h.reserved_used 0 hi (h.zero_reserved hi)] at hclear
      cases hclear
    · intro hall
      rw [hall i hi] at hclear
      cases hclear
  · rw [heq]
    exact iff_of_true rfl hfull

end

/-- **The allocator's invariant.** After `init` on a well-formed memory map
with room for the bitmaps, and after any calls: the counter of free pages is
the number of clear bits and reserved pages are used. With any scan hint,
`alloc_page` ends, returns zero if and only if no page is clear, and never
returns page zero or a reserved page; and a page it has returned it returns
again only after an accepted `free_page`. -/
theorem allocator_invariant (boot : BootInfo) (hmap : WellFormedMap boot.memoryMap)
    (hroom : FindsRoom boot) :
    ∃ p₀, init boot = some p₀ ∧ ∀ calls, let p := run step p₀ calls
      p.stats.freePages.toNat = p.clearPages.card ∧
      (∀ i, i < p.totalSpanPages → p.reserved i = true → p.used i = true) ∧
      (∀ hint, let q := { p with lastScannedPage := hint }
        (∀ depth, 2 ≤ depth → allocPageLocked depth q = some q.allocPage) ∧
        (q.allocPage.1 = 0 ↔ ∀ i, i < p.totalSpanPages → p.used i = true) ∧
        (q.allocPage.1 ≠ 0 → ∃ i, i < p.totalSpanPages ∧ i ≠ 0 ∧ p.reserved i = false ∧
          q.allocPage.1 = pageAddr i)) ∧
      (∀ pre mid, calls = pre ++ .allocPage :: mid → (run step p₀ pre).allocPage.1 ≠ 0 →
        p.allocPage.1 = (run step p₀ pre).allocPage.1 →
        ∃ mid₁ mid₂, mid = mid₁ ++ .freePage p.allocPage.1 :: mid₂ ∧
          (run step p₀ (pre ++ .allocPage :: mid₁)).Accepts p.allocPage.1) := by
  obtain ⟨p₀, hinit, hstarted⟩ := init_started hmap hroom
  refine ⟨p₀, hinit, fun calls => ?_⟩
  have hok : (run step p₀ calls).Ok := hstarted.toOk.run calls
  refine ⟨hok.free_eq, hok.reserved_used, fun hint => ?_, ?_⟩
  · have hq := hok.hint hint
    refine ⟨fun depth hdepth => ?_, hq.allocPage_eq_zero_iff, fun hne => ?_⟩
    · obtain ⟨d, rfl⟩ := Nat.exists_eq_add_of_le' hdepth
      exact allocPageLocked_eq _ d
    · obtain ⟨i, hi, hzero, -, hres, heq⟩ := hq.allocPage_result hne
      exact ⟨i, hi, hzero, hres, by rw [heq]⟩
  · rintro pre mid rfl hne hsame
    by_contra hnot
    have hokpre : (run step p₀ pre).Ok := hstarted.toOk.run pre
    have hrun : run step p₀ (pre ++ .allocPage :: mid) =
        run step (run step p₀ pre).allocPage.2 mid := foldl_append
    obtain ⟨i, hi, -, -, -, heq⟩ := hokpre.allocPage_result hne
    obtain ⟨j, hj, -, hclear, -, heq'⟩ := hok.allocPage_result (hsame ▸ hne)
    -- the page was marked by the first call and nothing has cleared it
    have hmarked : (run step p₀ pre).allocPage.2.used i = true := by
      rw [heq, hokpre.used_mark hi]
      simp
    have hfrees : ∀ mid₁ mid₂, mid = mid₁ ++ .freePage (pageAddr i) :: mid₂ →
        ¬ (run step (run step p₀ pre).allocPage.2 mid₁).Accepts (pageAddr i) := by
      intro mid₁ mid₂ hmid hacc
      have hsplit : run step p₀ (pre ++ .allocPage :: mid₁) =
          run step (run step p₀ pre).allocPage.2 mid₁ := foldl_append
      refine hnot ⟨mid₁, mid₂, ?_, ?_⟩
      · rw [hsame, heq]
        exact hmid
      · rw [hsame, heq, hsplit]
        exact hacc
    have hstill := hokpre.allocPage.used_run hmarked hfrees
    have hij : i = j := by
      have haddr : pageAddr j = pageAddr i := by
        rw [heq, heq'] at hsame
        exact hsame
      rw [← pageIndex_pageAddr (hi.trans_le hokpre.span_le), ← haddr,
        pageIndex_pageAddr (hj.trans_le hok.span_le)]
    rw [← hrun, hij, hclear] at hstill
    cases hstill

/-- Fifteen pages of conventional memory behind page zero. -/
def smallBoot : BootInfo where
  memoryMap := [⟨efiConventionalMemory, 0x1000, 15⟩]
  memoryMapAddr := 0x3000
  memoryMapSize := 40
  kernelPhysicalStart := 0x4000
  kernelPhysicalEnd := 0x6000
  address := 0x2000

theorem allocator_invariant_smallBoot :
    ∃ p₀, init smallBoot = some p₀ ∧ ∀ calls,
      (run step p₀ calls).stats.freePages.toNat = (run step p₀ calls).clearPages.card := by
  have hmap : WellFormedMap smallBoot.memoryMap := by
    constructor
    · decide
    · decide
    · exact pairwise_singleton _ _
  obtain ⟨p₀, hinit, hrun⟩ := allocator_invariant smallBoot hmap (by decide)
  exact ⟨p₀, hinit, fun calls => (hrun calls).1⟩

end Pmm

end AgenticOS
