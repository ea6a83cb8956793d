import AgenticOS.Memory.Elf
import AgenticOS.Memory.PmmSource

/-!
# Calls that only take pages

Mapping a page, loading an ELF file and making an address space take pages from the
allocator and give none back, wherever they stop.
-/

namespace AgenticOS

open Foundation Option

section

variable {σ : Type} (A : PageSource σ)

/-- The allocator has gone on by allocations alone. -/
def Draws : σ → σ → Prop := Relation.ReflTransGen fun s s' => s' = (A.alloc s).2

variable {A} {s s' : σ} {f : UInt64}

theorem draws_alloc (s : σ) : Draws A s (A.alloc s).2 := Relation.ReflTransGen.single rfl

theorem Draws.ok (h : Draws A s s') (hok : A.ok s) : A.ok s' := by
  induction h with
  | refl => exact hok
  | tail _ hstep ih =>
    rw [hstep]
    exact A.alloc_ok _ ih

theorem Draws.taken (h : Draws A s s') (hok : A.ok s) (hf : A.taken s f) : A.taken s' f := by
  induction h with
  | refl => exact hf
  | @tail s1 s2 hdraws hstep ih =>
    have hok1 : A.ok s1 := Draws.ok hdraws hok
    rw [hstep]
    by_cases hnull : (A.alloc s1).1 = A.null
    · exact (A.alloc_null s1 hok1 hnull f).mpr ih
    · exact (A.alloc_taken s1 hok1 hnull f).mpr (.inl ih)

end

theorem Draws.free_iff {p q : Pmm} {f : UInt64} (h : Draws Pmm.source p q)
    (hfull : ∀ i, i < p.totalSpanPages → p.used i = true) : q.Free f ↔ p.Free f := by
  have hsame : q.usedBitmap = p.usedBitmap ∧ q.totalSpanPages = p.totalSpanPages := by
    induction h with
    | refl => exact ⟨rfl, rfl⟩
    | @tail p1 p2 _ hstep ih =>
      have hfull1 : ∀ i, i < p1.totalSpanPages → p1.used i = true := by
        unfold Pmm.used
        rw [ih.1, ih.2]
        exact hfull
      rw [hstep]
      show p1.allocPage.2.usedBitmap = _ ∧ p1.allocPage.2.totalSpanPages = _
      rcases Pmm.allocPage_cases p1 with ⟨i, hi, hclear, -⟩ | ⟨-, heq⟩
      · rw [hfull1 i hi] at hclear
        cases hclear
      · rw [heq]
        exact ih
  unfold Pmm.Free Pmm.used
  rw [hsame.1, hsame.2]

section

variable {σ : Type} {A : PageSource σ} {s s' : PageStore σ}

theorem draws_ensureTable {table : UInt64} {i : Nat} (h : ensureTable A s table i = some s') :
    Draws A s.frames s'.frames := by
  unfold ensureTable at h
  split_ifs at h
  · cases h
    exact .refl
  · obtain ⟨⟨_, _⟩, hnew, h⟩ := bind_eq_some_iff.mp h
    cases h
    unfold zeroedTable Store.newTable at hnew
    split_ifs at hnew
    cases hnew
    exact draws_alloc s.frames

theorem draws_mapPage {pml4 vaddr paddr flags : UInt64}
    (h : mapPage A s pml4 vaddr paddr flags = some s') : Draws A s.frames s'.frames := by
  obtain ⟨_, h1, h⟩ := bind_eq_some_iff.mp h
  obtain ⟨_, h2, h⟩ := bind_eq_some_iff.mp h
  obtain ⟨_, h3, h⟩ := bind_eq_some_iff.mp h
  cases h
  have hdraws := ((draws_ensureTable h1).trans (draws_ensureTable h2)).trans (draws_ensureTable h3)
  exact hdraws

namespace Elf

variable {pml4 : UInt64} {bytes : List UInt8}

theorem draws_loadPage {ph : Elf64Phdr} {p : Nat} {frame : UInt64}
    (h : loadPage A s pml4 bytes ph p = some (frame, s')) : Draws A s.frames s'.frames := by
  obtain ⟨-, hmap⟩ := loadPage_eq h
  exact (draws_alloc s.frames).trans (draws_mapPage hmap)

variable {frames : List UInt64}

theorem draws_loadPages {pages : List (Elf64Phdr × Nat)} {frames' : List UInt64}
    (h : loadPages A pml4 bytes pages (frames, s) = some (frames', s')) :
    Draws A s.frames s'.frames := by
  induction pages generalizing s frames with
  | nil =>
    cases h
    exact .refl
  | cons x pages ih =>
    obtain ⟨⟨_, _⟩, hfirst, hrest⟩ := bind_eq_some_iff.mp h
    obtain ⟨⟨_, _⟩, hpage, hst⟩ := bind_eq_some_iff.mp hfirst
    cases hst
    exact (draws_loadPage hpage).trans (ih hrest)

variable {result : Except ElfError UInt64}

theorem draws_load
    (h : load A s pml4 bytes = some (result, frames, s')) : Draws A s.frames s'.frames :=
  draws_loadPages (load_eq h)

end Elf

end

end AgenticOS
