import Mathlib

/-!
# Bitmaps over bytes

`kernel_common/src/bitmap.rs`: bit `index % 8` of byte `index / 8`. The three
operations act on the set of indices whose bit is one as insertion, removal
and membership. The page-count rounding of `reserve_range` is here too.
-/

namespace AgenticOS.Bitmap

open List Option

/-! ## The operations -/

def mask (index : Nat) : UInt8 := 1 <<< UInt8.ofNat (index % 8)

def set (bitmap : List UInt8) (index : Nat) : List UInt8 :=
  bitmap.modify (index / 8) (· ||| mask index)

def clear (bitmap : List UInt8) (index : Nat) : List UInt8 :=
  bitmap.modify (index / 8) (· &&& ~~~ mask index)

def test (bitmap : List UInt8) (index : Nat) : Bool :=
  bitmap.getD (index / 8) 0 &&& mask index != 0

/-- The index lies inside the slice; outside of it the operations panic. -/
def InBounds (bitmap : List UInt8) (index : Nat) : Prop := index / 8 < bitmap.length

instance (bitmap : List UInt8) (index : Nat) : Decidable (InBounds bitmap index) :=
  inferInstanceAs (Decidable (index / 8 < bitmap.length))

def reserveRangePages (start length pageSize : UInt64) : Nat × Nat :=
  let pages := (length + pageSize - 1) / pageSize
  let pages :=
    if start % pageSize ≠ 0 then (length + start % pageSize + pageSize - 1) / pageSize
    else pages
  ((start / pageSize).toNat, pages.toNat)

/-! ## One byte -/

variable (index : Nat)

theorem toNat_mask : (mask index).toNat = 2 ^ (index % 8) := by
  have h : index % 8 < 8 := Nat.mod_lt _ (by decide)
  unfold mask
  generalize index % 8 = k at h
  interval_cases k <;> rfl

theorem and_mask_ne_zero (w : UInt8) (index : Nat) :
    (w &&& mask index != 0) = w.toNat.testBit (index % 8) := by
  rw [Bool.eq_iff_iff, bne_iff_ne, ne_eq, ← UInt8.toNat_inj, UInt8.toNat_and, toNat_mask,
    Nat.and_two_pow]
  cases w.toNat.testBit (index % 8) <;> simp

theorem testBit_or_mask (w : UInt8) (i k : Nat) :
    (w ||| mask i).toNat.testBit k = (decide (k = i % 8) || w.toNat.testBit k) := by
  rw [UInt8.toNat_or, Nat.testBit_or, toNat_mask, Nat.testBit_two_pow, Bool.or_comm]
  simp only [eq_comm]

theorem testBit_and_not_mask (w : UInt8) (i : Nat) {k : Nat} (hk : k < 8) :
    (w &&& ~~~ mask i).toNat.testBit k = (decide (k ≠ i % 8) && w.toNat.testBit k) := by
  have hmask : (mask i).toBitVec.getLsbD k = decide (i % 8 = k) := by
    rw [← BitVec.testBit_toNat, UInt8.toNat_toBitVec, toNat_mask, Nat.testBit_two_pow]
  rw [← UInt8.toNat_toBitVec, ← UInt8.toNat_toBitVec, BitVec.testBit_toNat, BitVec.testBit_toNat,
    UInt8.toBitVec_and, UInt8.toBitVec_not, BitVec.getLsbD_and, BitVec.getLsbD_not, hmask]
  simp [hk, Bool.and_comm, eq_comm]

variable (bitmap : List UInt8)

theorem test_eq : test bitmap index = (bitmap.getD (index / 8) 0).toNat.testBit (index % 8) :=
  and_mask_ne_zero _ _

/-! ## The set of marked indices -/

@[simp] theorem length_set : (set bitmap index).length = bitmap.length :=
  length_modify _ _ _

@[simp] theorem length_clear : (clear bitmap index).length = bitmap.length :=
  length_modify _ _ _

theorem index_ext {i j : Nat} (hbyte : i / 8 = j / 8) (hbit : i % 8 = j % 8) : i = j := by
  omega

theorem bit_eq_iff {i j : Nat} (hbyte : j / 8 = i / 8) : j % 8 = i % 8 ↔ j = i :=
  ⟨index_ext hbyte, congrArg (· % 8)⟩

theorem test_set {bitmap : List UInt8} {i : Nat} (hi : InBounds bitmap i) (j : Nat) :
    test (set bitmap i) j = (decide (j = i) || test bitmap j) := by
  rw [test_eq, test_eq, set, getD_eq_getElem?_getD, getD_eq_getElem?_getD, List.getElem?_modify]
  by_cases hbyte : i / 8 = j / 8
  · rw [← hbyte, List.getElem?_eq_getElem hi]
    simp only [if_true, Option.map_eq_map, map_some, getD_some]
    simp only [testBit_or_mask, bit_eq_iff hbyte.symm]
  · have hne : j ≠ i := fun h => hbyte (by rw [h])
    simp [hbyte, hne]

theorem test_clear (i j : Nat) : test (clear bitmap i) j = (decide (j ≠ i) && test bitmap j) := by
  rw [test_eq, test_eq, clear, getD_eq_getElem?_getD, getD_eq_getElem?_getD, List.getElem?_modify]
  by_cases hbyte : i / 8 = j / 8
  · cases bitmap[j / 8]? with
    | none => simp
    | some w =>
      simp only [hbyte, if_true, Option.map_eq_map, map_some, getD_some]
      rw [testBit_and_not_mask w i (Nat.mod_lt _ (by decide))]
      simp only [ne_eq, bit_eq_iff hbyte.symm]
  · have hne : j ≠ i := fun h => hbyte (by rw [h])
    simp [hbyte, hne]

theorem test_replicate_zero (n index : Nat) : test (replicate n 0) index = false := by
  rw [test_eq, getD_eq_getElem?_getD, List.getElem?_replicate]
  split_ifs <;> simp

theorem test_replicate_ones {n index : Nat} (h : index < 8 * n) :
    test (replicate n 0xFF) index = true := by
  have hbyte : index / 8 < n := by omega
  have hbit : index % 8 < 8 := Nat.mod_lt _ (by decide)
  rw [test_eq, getD_replicate _ hbyte]
  generalize index % 8 = k at hbit
  interval_cases k <;> rfl

end AgenticOS.Bitmap
