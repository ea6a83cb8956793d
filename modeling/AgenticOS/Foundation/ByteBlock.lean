import AgenticOS.Foundation.LittleEndian

/-!
# Blocks of bytes

A block gives every offset a byte. A string of bytes is written over a part of
it, and numbers are read and written with the least significant byte first.
-/

namespace AgenticOS.Foundation

open List

abbrev ByteBlock := Nat → UInt8

namespace ByteBlock

/-- The block with `bytes` written at `off`. -/
def patch (b : ByteBlock) (off : Nat) (bytes : List UInt8) : ByteBlock := fun i =>
  if off ≤ i then bytes[i - off]?.getD (b i) else b i

/-- The `len` bytes at `off`. -/
def window (b : ByteBlock) (off len : Nat) : List UInt8 :=
  (List.range len).map fun k => b (off + k)

/-- The number in the `n` bytes at `off`. -/
def field (b : ByteBlock) (off n : Nat) : Nat := leValue (b.window off n)

def setField (b : ByteBlock) (off n v : Nat) : ByteBlock := b.patch off (leBytes n v)

variable {b b' : ByteBlock} {off off' i n v len : Nat} {bytes : List UInt8}

theorem patch_apply_of_mem (hle : off ≤ i) (hlt : i < off + bytes.length) :
    b.patch off bytes i = bytes.get ⟨i - off, by omega⟩ := by
  rw [patch, if_pos hle, List.getElem?_eq_getElem (by omega)]
  rfl

theorem patch_apply_of_notMem (h : i < off ∨ off + bytes.length ≤ i) :
    b.patch off bytes i = b i := by
  unfold patch
  split_ifs with hle
  · rw [List.getElem?_eq_none (by omega)]
    rfl
  · rfl

@[simp] theorem length_window : (b.window off len).length = len := by
  rw [window, length_map, length_range]

theorem getElem_window (h : i < (b.window off len).length) :
    (b.window off len)[i] = b (off + i) := by
  simp only [window, getElem_map, getElem_range]

theorem window_congr (h : ∀ i, off ≤ i → i < off + len → b i = b' i) :
    b.window off len = b'.window off len := by
  refine map_congr_left fun k hk => ?_
  exact h (off + k) (Nat.le_add_right _ _) (by have := mem_range.mp hk; omega)

theorem window_patch : (b.patch off bytes).window off bytes.length = bytes := by
  refine ext_getElem length_window fun k _ _ => ?_
  rw [getElem_window, patch_apply_of_mem (Nat.le_add_right _ _) (by omega)]
  simp only [get_eq_getElem, Nat.add_sub_cancel_left]

theorem field_lt : b.field off n < 256 ^ n := by
  have h : leValue (b.window off n) < 256 ^ (b.window off n).length := leValue_lt
  rwa [length_window] at h

theorem field_congr (h : ∀ i, off ≤ i → i < off + n → b i = b' i) :
    b.field off n = b'.field off n := by
  rw [field, field, window_congr h]

theorem field_setField : (b.setField off n v).field off n = v % 256 ^ n := by
  have h : (b.setField off n v).window off n = leBytes n v := by
    have hpatch : (b.patch off (leBytes n v)).window off (leBytes n v).length = leBytes n v :=
      window_patch
    rwa [length_leBytes] at hpatch
  rw [field, h, leValue_leBytes]

theorem setField_apply_of_notMem (h : i < off ∨ off + n ≤ i) : b.setField off n v i = b i :=
  patch_apply_of_notMem (by rwa [length_leBytes])

theorem field_setField_of_disjoint {n' : Nat} (h : off' + n' ≤ off ∨ off + n ≤ off') :
    (b.setField off n v).field off' n' = b.field off' n' :=
  field_congr fun i hle hlt => setField_apply_of_notMem (by omega)

theorem field_eq_zero (h : ∀ i, off ≤ i → i < off + n → b i = 0) : b.field off n = 0 := by
  have hzero : ByteBlock.field (fun _ => 0) off n = 0 := by
    simp [field, window, leValue]
  rw [@field_congr _ (fun _ => 0) _ _ h, hzero]

end ByteBlock

end AgenticOS.Foundation
