import Mathlib

/-!
# Counter mode

A stream cipher from a function that gives a block of keystream for each value of a
32-bit counter. The data is taken block by block; the result is that byte `i` of
the data meets byte `i` of the keystream.
-/

namespace AgenticOS.Foundation

open List

/-- Blocks of keystream, one for each value of the counter. -/
structure Keystream where
  size : Nat
  pos : 0 < size
  block : UInt32 → List UInt8
  length_block : ∀ counter, (block counter).length = size

namespace Keystream

/-- The loop over the blocks of the data. -/
def apply (ks : Keystream) (counter : UInt32) (data : List UInt8) : List UInt8 :=
  if data = [] then []
  else List.zipWith (· ^^^ ·) (data.take ks.size) (ks.block counter) ++
    ks.apply (counter + 1) (data.drop ks.size)
termination_by data.length
decreasing_by
  rename_i hdata
  rw [List.length_drop]
  exact Nat.sub_lt (List.length_pos_iff.mpr hdata) ks.pos

/-- Byte `i` of the keystream. -/
def byte (ks : Keystream) (counter : UInt32) (i : Nat) : UInt8 :=
  (ks.block (counter + UInt32.ofNat (i / ks.size))).getD (i % ks.size) 0

variable {ks : Keystream} {counter : UInt32}

theorem byte_add (n i : Nat) :
    ks.byte counter (i + ks.size * n) = ks.byte (counter + UInt32.ofNat n) i := by
  rw [byte, byte, Nat.add_mul_div_left _ _ ks.pos, Nat.add_mul_mod_self_left, UInt32.ofNat_add,
    add_comm (UInt32.ofNat (i / ks.size)), ← add_assoc]

theorem byte_of_lt {i : Nat} (hi : i < ks.size) :
    ks.byte counter i = (ks.block counter).getD i 0 := by
  rw [byte, Nat.div_eq_of_lt hi, Nat.mod_eq_of_lt hi]
  exact congrArg (fun c => (ks.block c).getD i 0) (add_zero counter)

theorem apply_eq (counter : UInt32) (data : List UInt8) :
    ks.apply counter data = data.mapIdx fun i b => b ^^^ ks.byte counter i := by
  fun_induction ks.apply counter data with
  | case1 => rfl
  | case2 counter data hdata ih =>
    have hfirst : zipWith (· ^^^ ·) (data.take ks.size) (ks.block counter) =
        (data.take ks.size).mapIdx fun i b => b ^^^ ks.byte counter i := by
      refine ext_getElem ?_ fun i h1 _ => ?_
      · simp [ks.length_block]
      · rw [length_zipWith, ks.length_block] at h1
        rw [getElem_zipWith, getElem_mapIdx, byte_of_lt (h1.trans_le (min_le_right _ _)),
          getD_eq_getElem]
    have hrest : ((data.drop ks.size).mapIdx fun i b => b ^^^ ks.byte (counter + 1) i) =
        (data.drop ks.size).mapIdx
          fun i b => b ^^^ ks.byte counter (i + (data.take ks.size).length) := by
      by_cases hlong : ks.size ≤ data.length
      · rw [length_take, min_eq_left hlong, ← mul_one ks.size]
        simp only [byte_add 1]
        rfl
      · rw [drop_of_length_le (not_le.mp hlong).le]
        rfl
    rw [ih, hfirst, hrest, ← mapIdx_append, take_append_drop]

theorem getElem?_apply (counter : UInt32) (data : List UInt8) (i : Nat) :
    (ks.apply counter data)[i]? = data[i]?.map (· ^^^ ks.byte counter i) := by
  rw [apply_eq, List.getElem?_mapIdx]

theorem apply_apply (counter : UInt32) (data : List UInt8) :
    ks.apply counter (ks.apply counter data) = data := by
  ext1 i
  rw [getElem?_apply, getElem?_apply, Option.map_map]
  cases data[i]? with
  | none => rfl
  | some => simp

theorem apply_append {a : List UInt8} (ha : ks.size ∣ a.length) (b : List UInt8) :
    ks.apply counter (a ++ b) =
      ks.apply counter a ++ ks.apply (counter + UInt32.ofNat (a.length / ks.size)) b := by
  obtain ⟨n, hn⟩ := ha
  rw [apply_eq, apply_eq, apply_eq, mapIdx_append, hn, Nat.mul_div_cancel_left _ ks.pos]
  simp only [byte_add]

end Keystream

end AgenticOS.Foundation
