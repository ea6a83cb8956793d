import AgenticOS.Foundation.Packed

/-!
# Words in a memory of bytes

A memory gives every address a byte. Words of eight bytes are read and written
at any address, the least significant byte first; an address past the last one
is the first one again.
-/

namespace AgenticOS.Foundation

open Packed List UInt64

abbrev ByteMemory := UInt64 → UInt8

namespace ByteMemory

def readWord (m : ByteMemory) (a : UInt64) : UInt64 :=
  (List.range 8).foldl (fun w k => withByte w k (m (a + UInt64.ofNat k))) 0

def writeWord (m : ByteMemory) (a w : UInt64) : ByteMemory := fun x =>
  if (x - a).toNat < 8 then byteOf w (x - a).toNat else m x

variable {m m' : ByteMemory} {a b w : UInt64}

theorem eq_of_byteOf {w w' : UInt64} (h : ∀ k, k < 8 → byteOf w k = byteOf w' k) : w = w' := by
  apply UInt64.toBitVec_inj.mp
  apply BitVec.eq_of_getLsbD_eq
  intro i _
  have hbyte := congrArg (fun b : UInt8 => b.toBitVec.getLsbD (i % 8)) (h (i / 8) (by omega))
  have hmod : i % 8 < 8 := Nat.mod_lt i (by decide)
  have hsplit : 8 * (i / 8) + i % 8 = i := Nat.div_add_mod i 8
  simpa only [byteOf, BitVec.getLsbD_setWidth, BitVec.getLsbD_ushiftRight, hmod, decide_true,
    Bool.true_and, hsplit] using hbyte

theorem byteOf_readWord {k : Nat} (hk : k < 8) :
    byteOf (m.readWord a) k = m (a + UInt64.ofNat k) := by
  have hfold (n : Nat) (hn : k < n) : byteOf ((range n).foldl
      (fun w k => withByte w k (m (a + ofNat k))) 0) k = m (a + ofNat k) := by
    induction n with
    | zero => exact absurd hn (Nat.not_lt_zero k)
    | succ n ih =>
      rw [range_succ, foldl_append, foldl_cons, foldl_nil, byteOf_withByte hk]
      split_ifs with hkn
      · rw [hkn]
      · exact ih (by omega)
  exact hfold 8 hk

theorem readWord_congr (h : ∀ k, k < 8 → m' (a + UInt64.ofNat k) = m (a + UInt64.ofNat k)) :
    m'.readWord a = m.readWord a := by
  apply eq_of_byteOf
  intro k hk
  rw [byteOf_readWord hk, byteOf_readWord hk, h k hk]

@[simp] theorem readWord_writeWord : (m.writeWord a w).readWord a = w := by
  apply eq_of_byteOf
  intro k hk
  have hoffset : (a + ofNat k - a).toNat = k := by
    rw [add_sub_cancel_left]
    exact toNat_amount (hk.trans (by decide))
  rw [byteOf_readWord hk, writeWord, hoffset, if_pos hk]

/-! ## Writes that do not reach the end of the addresses -/

theorem writeWord_of_notMem {x : UInt64} (ha : a.toNat + 8 ≤ 2 ^ 64)
    (hx : ¬ (a.toNat ≤ x.toNat ∧ x.toNat < a.toNat + 8)) : m.writeWord a w x = m x := by
  refine if_neg fun hlt => hx ?_
  have hx64 := x.toNat_lt
  have ha64 := a.toNat_lt
  rw [UInt64.toNat_sub] at hlt
  omega

theorem toNat_add_ofNat {k : Nat} (hk : a.toNat + k < 2 ^ 64) :
    (a + UInt64.ofNat k).toNat = a.toNat + k := by
  rw [UInt64.toNat_add, toNat_ofNat', Nat.add_mod_mod, Nat.mod_eq_of_lt hk]

theorem readWord_of_eqOn (ha : a.toNat + 8 ≤ 2 ^ 64)
    (h : ∀ x : UInt64, a.toNat ≤ x.toNat → x.toNat < a.toNat + 8 → m' x = m x) :
    m'.readWord a = m.readWord a := by
  apply readWord_congr
  intro k _
  have hadd := toNat_add_ofNat (a := a) (k := k) (by omega)
  exact h _ (by omega) (by omega)

end ByteMemory

end AgenticOS.Foundation
