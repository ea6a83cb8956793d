import Mathlib

/-!
# Numbers in strings of bytes

A field of a string of bytes, and the number that its bytes are, the least
significant one first.
-/

namespace AgenticOS.Foundation

open List

/-- The `len` bytes from `start` on. -/
def slice {α : Type*} (bytes : List α) (start len : Nat) : List α := (bytes.drop start).take len

variable {α : Type*} {bytes bytes' a b c p q : List α} {start len i : Nat}

theorem length_slice (h : start + len ≤ bytes.length) : (slice bytes start len).length = len := by
  rw [slice, length_take, length_drop]
  omega

theorem getElem?_slice :
    (slice bytes start len)[i]? = if i < len then bytes[start + i]? else none := by
  rw [slice, List.getElem?_take, List.getElem?_drop]

theorem slice_congr (h : ∀ i, start ≤ i → i < start + len → bytes[i]? = bytes'[i]?) :
    slice bytes start len = slice bytes' start len := by
  ext1 i
  rw [getElem?_slice, getElem?_slice]
  split_ifs with hi
  · exact h (start + i) (Nat.le_add_right _ _) (by omega)
  · rfl

/-- The first field of a string that is put together of fields. -/
theorem slice_append_self (ha : a.length = len) : slice (a ++ b) 0 len = a := by
  rw [slice, drop_zero, ← ha, take_left]

theorem slice_append_of_le (ha : a.length ≤ start) :
    slice (a ++ b) start len = slice b (start - a.length) len := by
  rw [slice, slice, drop_append, drop_eq_nil_of_le ha, nil_append]

/-! ## Numbers -/

def leValue (bytes : List UInt8) : Nat := Nat.ofDigits 256 (bytes.map UInt8.toNat)

/-- The lowest `n` bytes of a number. -/
def leBytes : Nat → Nat → List UInt8
  | 0, _ => []
  | n + 1, v => UInt8.ofNat v :: leBytes n (v / 256)

variable {bytes bytes' : List UInt8}

theorem leValue_lt : leValue bytes < 256 ^ bytes.length := by
  have h := Nat.ofDigits_lt_base_pow_length (b := 256) (l := bytes.map UInt8.toNat) (by decide)
    (by simpa using fun b _ => UInt8.toNat_lt b)
  rwa [length_map] at h

theorem leValue_inj (hlen : bytes.length = bytes'.length) (h : leValue bytes = leValue bytes') :
    bytes = bytes' := by
  have hdigit (l : List UInt8) : ∀ d ∈ l.map UInt8.toNat, d < 256 := by
    simpa using fun b _ => UInt8.toNat_lt b
  have hmap := Nat.ofDigits_inj_of_len_eq (by decide) (by rwa [length_map, length_map])
    (hdigit bytes) (hdigit bytes') h
  exact map_injective_iff.mpr (fun _ _ => UInt8.toNat_inj.mp) hmap

@[simp] theorem length_leBytes (n v : Nat) : (leBytes n v).length = n := by
  induction n generalizing v with
  | zero => rfl
  | succ n ih => rw [leBytes, length_cons, ih]

theorem leValue_leBytes (n v : Nat) : leValue (leBytes n v) = v % 256 ^ n := by
  induction n generalizing v with
  | zero => rw [pow_zero, Nat.mod_one]; rfl
  | succ n ih =>
    have hcons : leValue (leBytes (n + 1) v) = v % 256 + 256 * leValue (leBytes n (v / 256)) := by
      rw [leBytes, leValue, map_cons, Nat.ofDigits_cons, UInt8.toNat_ofNat']
      rfl
    rw [hcons, ih, pow_succ', Nat.mod_mul]

def u32At (bytes : List UInt8) (off : Nat) : UInt32 := UInt32.ofNat (leValue (slice bytes off 4))

def u16At (bytes : List UInt8) (off : Nat) : UInt16 := UInt16.ofNat (leValue (slice bytes off 2))

variable {off : Nat}

theorem leValue_slice_lt {n : Nat} (hb : off + n ≤ bytes.length) :
    leValue (slice bytes off n) < 256 ^ n := by
  have hlt : leValue (slice bytes off n) < 256 ^ (slice bytes off n).length := leValue_lt
  rwa [length_slice hb] at hlt

theorem slice_eq_of_leValue {n : Nat} (hb : off + n ≤ bytes.length) (hb' : off + n ≤ bytes'.length)
    (h : leValue (slice bytes off n) = leValue (slice bytes' off n)) :
    slice bytes off n = slice bytes' off n :=
  leValue_inj (by rw [length_slice hb, length_slice hb']) h

theorem slice_eq_of_u32At (hb : off + 4 ≤ bytes.length) (hb' : off + 4 ≤ bytes'.length)
    (h : u32At bytes off = u32At bytes' off) : slice bytes off 4 = slice bytes' off 4 := by
  have hnat := congrArg UInt32.toNat h
  rw [u32At, u32At, UInt32.toNat_ofNat_of_lt' (leValue_slice_lt hb),
    UInt32.toNat_ofNat_of_lt' (leValue_slice_lt hb')] at hnat
  exact slice_eq_of_leValue hb hb' hnat

theorem slice_eq_of_u16At (hb : off + 2 ≤ bytes.length) (hb' : off + 2 ≤ bytes'.length)
    (h : u16At bytes off = u16At bytes' off) : slice bytes off 2 = slice bytes' off 2 := by
  have hnat := congrArg UInt16.toNat h
  rw [u16At, u16At, UInt16.toNat_ofNat_of_lt' (leValue_slice_lt hb),
    UInt16.toNat_ofNat_of_lt' (leValue_slice_lt hb')] at hnat
  exact slice_eq_of_leValue hb hb' hnat

theorem u32At_of_slice {v : UInt32} (h : slice bytes off 4 = leBytes 4 v.toNat) :
    u32At bytes off = v := by
  have hlt : v.toNat < 256 ^ 4 := v.toNat_lt
  rw [u32At, h, leValue_leBytes, Nat.mod_eq_of_lt hlt, UInt32.ofNat_toNat]

theorem u32At_append_of_le {a b : List UInt8} (ha : a.length ≤ off) :
    u32At (a ++ b) off = u32At b (off - a.length) := by
  rw [u32At, slice_append_of_le ha, u32At]

theorem u32At_leBytes_append (v : UInt32) (b : List UInt8) : u32At (leBytes 4 v.toNat ++ b) 0 = v :=
  u32At_of_slice (slice_append_self (length_leBytes 4 _))

/-! ## One different byte -/

/-- The strings differ in the byte at `i` and nowhere else. -/
def DiffersAt {α : Type*} (p q : List α) (i : Nat) : Prop :=
  ∃ a x y b, a.length = i ∧ x ≠ y ∧ p = a ++ x :: b ∧ q = a ++ y :: b

section

variable (h : DiffersAt p q i)

include h

theorem DiffersAt.length_eq : q.length = p.length := by
  obtain ⟨a, x, y, b, -, -, rfl, rfl⟩ := h
  rw [length_append, length_append, length_cons, length_cons]

theorem DiffersAt.slice_eq (hi : i < start ∨ start + len ≤ i) :
    slice q start len = slice p start len := by
  obtain ⟨a, x, y, b, rfl, -, rfl, rfl⟩ := h
  refine slice_congr fun j _ _ => ?_
  rw [List.getElem?_append, List.getElem?_append]
  split_ifs with hj
  · rfl
  · rw [List.getElem?_cons, List.getElem?_cons, if_neg (by omega), if_neg (by omega)]

theorem DiffersAt.slice (hle : start ≤ i) (hlt : i < start + len) :
    DiffersAt (slice p start len) (slice q start len) (i - start) := by
  obtain ⟨a, x, y, b, rfl, hne, rfl, rfl⟩ := h
  have hslice (z : α) : Foundation.slice (a ++ z :: b) start len =
      a.drop start ++ z :: b.take (len - (a.length - start) - 1) := by
    obtain ⟨n, hn⟩ : ∃ n, len - (a.length - start) = n + 1 :=
      Nat.exists_eq_add_one_of_ne_zero (by omega)
    rw [Foundation.slice, drop_append_of_le_length hle, take_append, length_drop, hn,
      take_succ_cons, Nat.add_sub_cancel, take_of_length_le]
    rw [length_drop]
    omega
  exact ⟨_, x, y, _, length_drop, hne, hslice x, hslice y⟩

theorem DiffersAt.ne : q ≠ p := by
  obtain ⟨a, x, y, b, -, hne, rfl, rfl⟩ := h
  intro heq
  exact hne (head_eq_of_cons_eq (append_cancel_left heq)).symm

end

end AgenticOS.Foundation
