import AgenticOS.Memory.PageTable
import AgenticOS.Memory.PmmInvariant

/-!
# The physical memory manager as an allocator of frames

`pmm.rs` meets what the page tables ask of an allocator: a page is taken unless
its used bit is clear. Which pages `free_page` can give back at all is decided
by the span and the reserved bits, which neither call changes.
-/

namespace AgenticOS

open Foundation

namespace Pmm

variable {p q : Pmm} {f g : UInt64}

def Free (p : Pmm) (f : UInt64) : Prop :=
  f % pageBytes = 0 ∧ pageIndex f < p.totalSpanPages ∧ p.used (pageIndex f) = false

def Releasable (p : Pmm) (f : UInt64) : Prop :=
  f ≠ 0 ∧ f % pageBytes = 0 ∧ pageIndex f < p.totalSpanPages ∧
    p.reserved (pageIndex f) = false

instance (p : Pmm) (f : UInt64) : Decidable (p.Free f) := inferInstanceAs (Decidable (_ ∧ _ ∧ _))

instance (p : Pmm) (f : UInt64) : Decidable (p.Releasable f) :=
  inferInstanceAs (Decidable (_ ∧ _ ∧ _ ∧ _))

theorem accepts_iff : p.Accepts f ↔ p.Releasable f ∧ ¬ p.Free f := by
  unfold Accepts Releasable Free
  constructor
  · rintro ⟨hzero, hmod, hspan, hres, hused⟩
    refine ⟨⟨hzero, hmod, hspan, hres⟩, fun hfree => ?_⟩
    rw [hused] at hfree
    cases hfree.2.2
  · rintro ⟨⟨hzero, hmod, hspan, hres⟩, hfree⟩
    refine ⟨hzero, hmod, hspan, hres, ?_⟩
    by_contra hused
    exact hfree ⟨hmod, hspan, Bool.eq_false_iff.mpr hused⟩

theorem Ok.releasable (h : p.Ok) (hf : f ≠ 0) (hfree : p.Free f) : p.Releasable f := by
  rcases hfree with ⟨hmod, hspan, hused⟩
  refine ⟨hf, hmod, hspan, ?_⟩
  by_contra hres
  rw [h.reserved_used _ hspan (Bool.eq_true_of_not_eq_false hres)] at hused
  cases hused

/-! ## The calls -/

def SameLayout (p q : Pmm) : Prop :=
  q.totalSpanPages = p.totalSpanPages ∧ q.reservedBitmap = p.reservedBitmap

theorem SameLayout.releasable_iff (h : SameLayout p q) : q.Releasable f ↔ p.Releasable f := by
  rw [Releasable, Releasable, reserved, reserved, h.1, h.2]

theorem SameLayout.trans {q' : Pmm} (h : SameLayout p q) (h' : SameLayout q q') : SameLayout p q' :=
  ⟨h'.1.trans h.1, h'.2.trans h.2⟩

theorem sameLayout_allocPage (p : Pmm) : SameLayout p p.allocPage.2 := by
  rcases allocPage_cases p with ⟨i, -, -, heq⟩ | ⟨-, heq⟩
  · rw [heq]
    exact ⟨rfl, rfl⟩
  · rw [heq]
    exact ⟨rfl, rfl⟩

theorem sameLayout_freePage (p : Pmm) (f : UInt64) : SameLayout p (p.freePage f) := by
  rw [freePage_eq]
  split_ifs
  · exact ⟨rfl, rfl⟩
  · exact ⟨rfl, rfl⟩

theorem eq_of_pageIndex (hf : f % pageBytes = 0) (hg : g % pageBytes = 0)
    (h : pageIndex f = pageIndex g) : f = g := by
  rw [← pageAddr_pageIndex hf, ← pageAddr_pageIndex hg, h]

theorem Ok.free_allocPage (h : p.Ok) (hne : p.allocPage.1 ≠ 0) :
    p.Free p.allocPage.1 ∧ ∀ f, p.allocPage.2.Free f ↔ p.Free f ∧ f ≠ p.allocPage.1 := by
  rcases h.allocPage_result hne with ⟨i, hi, -, hclear, -, heq⟩
  have hspan := hi.trans_le h.span_le
  have hindex := pageIndex_pageAddr hspan
  rw [heq]
  refine ⟨⟨pageAddr_mod hspan, by rw [hindex]; exact hi, by rw [hindex]; exact hclear⟩, ?_⟩
  intro f
  have hpage (hmod : f % pageBytes = 0) : pageIndex f = i ↔ f = pageAddr i := by
    constructor
    · intro hf
      rw [← hf, pageAddr_pageIndex hmod]
    · rintro rfl
      exact hindex
  unfold Free
  rw [h.used_mark hi, Bool.or_eq_false_iff, decide_eq_false_iff_not]
  constructor
  · rintro ⟨hmod, hlt, hother, hused⟩
    exact ⟨⟨hmod, hlt, hused⟩, fun hf => hother ((hpage hmod).mpr hf)⟩
  · rintro ⟨⟨hmod, hlt, hused⟩, hother⟩
    exact ⟨hmod, hlt, fun hf => hother ((hpage hmod).mp hf), hused⟩

theorem free_allocPage_zero (hzero : p.allocPage.1 = 0) (h : p.Ok) :
    p.allocPage.2.Free f ↔ p.Free f := by
  have hfull := h.allocPage_eq_zero_iff.mp hzero
  rcases allocPage_cases p with ⟨i, hi, hclear, -⟩ | ⟨-, heq⟩
  · rw [hfull i hi] at hclear
    cases hclear
  · rw [heq]
    exact Iff.rfl

theorem free_freePage (p : Pmm) (f g : UInt64) :
    (p.freePage f).Free g ↔ p.Free g ∨ (g = f ∧ p.Releasable f) := by
  rw [freePage_eq]
  split_ifs with hacc
  · rcases accepts_iff.mp hacc with ⟨hrel, -⟩
    rcases hacc with ⟨-, hmod, hspan, -, -⟩
    unfold Free
    rw [used_release, Bool.and_eq_false_iff, decide_eq_false_iff_not, not_not]
    constructor
    · rintro ⟨hg, hlt, hsame | hused⟩
      · exact .inr ⟨eq_of_pageIndex hg hmod hsame, hrel⟩
      · exact .inl ⟨hg, hlt, hused⟩
    · rintro (⟨hg, hlt, hused⟩ | ⟨rfl, -⟩)
      · exact ⟨hg, hlt, .inr hused⟩
      · exact ⟨hmod, hspan, .inl rfl⟩
  · constructor
    · exact .inl
    · rintro (hfree | ⟨rfl, hrel⟩)
      · exact hfree
      · by_contra hfree
        exact hacc (accepts_iff.mpr ⟨hrel, hfree⟩)

/-! ## The allocator -/

/-- The frames of the manager, for a physical memory of at most 2^52 bytes. -/
def source : PageSource Pmm where
  alloc := allocPage
  free := freePage
  null := 0
  ok p := p.Ok ∧ p.totalSpanPages ≤ 2 ^ 40
  taken p f := ¬ p.Free f
  alloc_ok p h := ⟨h.1.allocPage, (sameLayout_allocPage p).1.trans_le h.2⟩
  alloc_fresh p h hne := not_not.mpr (h.1.free_allocPage hne).1
  alloc_taken p h hne f := by
    rw [(h.1.free_allocPage hne).2 f, not_and_or, not_not]
  alloc_null p h hzero f := not_congr (free_allocPage_zero hzero h.1)
  free_ok p f h := ⟨h.1.freePage f, (sameLayout_freePage p f).1.trans_le h.2⟩
  free_taken p f _ g hne := by
    rw [free_freePage]
    exact not_congr ⟨fun h => h.resolve_right fun hsame => hne hsame.1, Or.inl⟩
  null_eq := UInt64.zero_def
  alloc_isFrame p h := by
    rcases allocPage_cases p with ⟨i, hi, -, heq⟩ | ⟨-, heq⟩
    · have hpage : pageAddr i = UInt64.ofNat (i * 4096) := by
        apply UInt64.toNat_inj.mp
        rw [toNat_pageAddr (hi.trans_le h.1.span_le), toNat_page (hi.trans_le h.2)]
      rw [heq, hpage]
      exact isFrame_page (hi.trans_le h.2)
    · rw [heq]
      exact (by decide : IsFrame 0)

theorem free_freeAll (frames : List UInt64) (p : Pmm) (g : UInt64) :
    (source.freeAll p frames).Free g ↔ p.Free g ∨ (g ∈ frames ∧ p.Releasable g) := by
  induction frames generalizing p with
  | nil => simp [FrameSource.freeAll]
  | cons f frames ih =>
    have hcons : source.freeAll p (f :: frames) = source.freeAll (p.freePage f) frames := rfl
    rw [hcons, ih, free_freePage, (sameLayout_freePage p f).releasable_iff, List.mem_cons]
    constructor
    · rintro ((hfree | ⟨rfl, hrel⟩) | ⟨hmem, hrel⟩)
      · exact .inl hfree
      · exact .inr ⟨.inl rfl, hrel⟩
      · exact .inr ⟨.inr hmem, hrel⟩
    · rintro (hfree | ⟨rfl | hmem, hrel⟩)
      · exact .inl (.inl hfree)
      · exact .inl (.inr ⟨rfl, hrel⟩)
      · exact .inr ⟨hmem, hrel⟩

theorem sameLayout_freeAll (frames : List UInt64) (p : Pmm) :
    SameLayout p (source.freeAll p frames) := by
  induction frames generalizing p with
  | nil => exact ⟨rfl, rfl⟩
  | cons f frames ih => exact (sameLayout_freePage p f).trans (ih (p.freePage f))

end Pmm

end AgenticOS
