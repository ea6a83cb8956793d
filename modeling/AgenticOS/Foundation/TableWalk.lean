import AgenticOS.Foundation.TableForest

/-!
# Walking all tables below a root

`postorder` visits what lies below a frame, level by level and each frame after
those below it: the order in which tables are torn down. The widths say how
many entries of each level are looked at. What is visited is what some path
leads to, and where one path leads is visited once.
-/

namespace AgenticOS.Foundation

open List Function Option

namespace EntryFormat

variable {F W : Type*} (E : EntryFormat F W)

def postorder (m : F → Nat → W) : List Nat → F → List F
  | [], f => [f]
  | n :: widths, f =>
    (List.range n).flatMap (fun i =>
      if E.present (m f i) then postorder m widths (E.target (m f i)) else []) ++ [f]

def Within : List Nat → List Nat → Prop
  | _, [] => True
  | [], _ :: _ => False
  | n :: widths, i :: π => i < n ∧ Within widths π

variable {E} {m : F → Nat → W} {widths π : List Nat} {f g : F}

theorem within_nil : Within widths [] := by
  cases widths <;> trivial

theorem Within.length_le : ∀ {widths π : List Nat}, Within widths π → π.length ≤ widths.length
  | _, [], _ => Nat.zero_le _
  | [], _ :: _, h => h.elim
  | _ :: _, _ :: _, h => Nat.succ_le_succ h.2.length_le

theorem Within.append {more : List Nat} :
    ∀ {widths π : List Nat}, Within widths π → Within (widths ++ more) π
  | _, [], _ => within_nil
  | [], _ :: _, h => h.elim
  | _ :: _, _ :: _, h => ⟨h.1, h.2.append⟩

theorem mem_postorder :
    g ∈ E.postorder m widths f ↔ ∃ π, Within widths π ∧ E.descend m f π = some g := by
  induction widths generalizing f with
  | nil =>
    rw [postorder, mem_singleton]
    constructor
    · rintro rfl
      exact ⟨[], within_nil, rfl⟩
    · rintro ⟨π, hπ, hg⟩
      cases π with
      | nil => exact (some_inj.mp hg).symm
      | cons => exact absurd hπ id
  | cons n widths ih =>
    rw [postorder, mem_append, mem_flatMap, mem_singleton]
    constructor
    · rintro (⟨i, hi, hg⟩ | rfl)
      · split_ifs at hg with hpresent
        · rcases ih.mp hg with ⟨π, hπ, hg⟩
          refine ⟨i :: π, ⟨mem_range.mp hi, hπ⟩, ?_⟩
          rw [descend_cons_of_present hpresent]
          exact hg
        · cases hg
      · exact ⟨[], within_nil, rfl⟩
    · rintro ⟨π, hπ, hg⟩
      cases π with
      | nil => exact .inr (some_inj.mp hg).symm
      | cons i π =>
        left
        refine ⟨i, mem_range.mpr hπ.1, ?_⟩
        cases hpresent : E.present (m f i) with
        | true =>
          rw [descend_cons_of_present hpresent] at hg
          exact ih.mpr ⟨π, hπ.2, hg⟩
        | false =>
          rw [descend_cons_of_absent hpresent] at hg
          cases hg

theorem count_postorder [DecidableEq F] (hπ : Within widths π) (hg : E.descend m f π = some g)
    (honly : ∀ π', Within widths π' → E.descend m f π' = some g → π' = π) :
    (E.postorder m widths f).count g = 1 := by
  induction widths generalizing f π with
  | nil =>
    cases π with
    | nil =>
      rw [postorder, some_inj.mp hg]
      exact count_singleton_self
    | cons => exact absurd hπ id
  | cons n widths ih =>
    rw [postorder, count_append, count_flatMap]
    cases π with
    | nil =>
      -- the frame itself, and nothing below it
      rcases some_inj.mp hg with rfl
      rw [count_singleton_self, sum_eq_zero]
      intro c hc
      rcases List.mem_map.mp hc with ⟨i, hi, rfl⟩
      rw [comp_apply, count_eq_zero]
      intro hmem
      split_ifs at hmem with hpresent
      · rcases mem_postorder.mp hmem with ⟨π, hπ, hg⟩
        have hcons := honly (i :: π) ⟨mem_range.mp hi, hπ⟩
          (by rw [descend_cons_of_present hpresent]; exact hg)
        cases hcons
      · cases hmem
    | cons i =>
      have hne : f ≠ g := by
        rintro rfl
        have hnil := honly [] within_nil rfl
        cases hnil
      have hpresent : E.present (m f i) = true := by
        cases hp : E.present (m f i) with
        | true => rfl
        | false =>
          rw [descend_cons_of_absent hp] at hg
          cases hg
      rw [descend_cons_of_present hpresent] at hg
      rw [count_eq_zero.mpr fun hmem => hne (mem_singleton.mp hmem).symm, add_zero,
        sum_map_eq_nsmul_single i]
      · rw [count_eq_one_of_mem nodup_range (mem_range.mpr hπ.1), one_smul,
          comp_apply, if_pos hpresent]
        apply ih hπ.2 hg
        intro π' hπ' hg'
        have hcons := honly (i :: π') ⟨hπ.1, hπ'⟩
          (by rw [descend_cons_of_present hpresent]; exact hg')
        exact (List.cons.inj hcons).2
      · intro j hj hjmem
        rw [comp_apply, count_eq_zero]
        intro hmem
        split_ifs at hmem with hp
        · rcases mem_postorder.mp hmem with ⟨π', hπ', hg'⟩
          have hcons := honly (j :: π') ⟨mem_range.mp hjmem, hπ'⟩
            (by rw [descend_cons_of_present hp]; exact hg')
          exact hj (List.cons.inj hcons).1
        · cases hmem

end EntryFormat

end AgenticOS.Foundation
