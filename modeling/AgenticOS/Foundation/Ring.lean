import Mathlib

/-!
# Rings of slots addressed by unbounded counters

A ring of `n` slots written at a counter `a` and read at a counter `r`. The
ring stores only the remainders of the two counters; `Holds` relates it to the
log of everything ever written: between `r` and `a` the slots carry the log.
The two halves of a write (the slot first, the counter later) and of a read
are separate lemmas, so that a proof about interleaved writers and readers can
use them one at a time.
-/

namespace AgenticOS.Foundation.Ring

variable {n : Nat} [NeZero n] {α : Type*}

/-- The slot a counter points to. -/
def slot (n : Nat) [NeZero n] (i : Nat) : Fin n := Fin.ofNat n i

theorem slot_ne {i j : Nat} (hij : i < j) (hjn : j < i + n) : slot n i ≠ slot n j := by
  intro h
  have hmod : j % n = i % n := congrArg Fin.val h.symm
  have hdvd : n ∣ j - i := Nat.dvd_of_mod_eq_zero (Nat.sub_mod_eq_zero_of_mod_eq hmod)
  have hle := Nat.le_of_dvd (by omega) hdvd
  omega

/-- Between the read counter `r` and the write counter `a` the slots carry the
log. -/
def Holds (slots : Fin n → Option α) (log : List α) (r a : Nat) : Prop :=
  ∀ i, r ≤ i → i < a → slots (slot n i) = log[i]?

variable {slots : Fin n → Option α} {log : List α}

theorem Holds.read {r a : Nat}
    (h : Holds slots log r a) (hra : r < a) : slots (slot n r) = log[r]? :=
  h r le_rfl hra

/-- The slot at the write counter is free as long as the ring is not full. -/
theorem Holds.write {r a : Nat} (h : Holds slots log r a) (hfree : a < r + n) (v : Option α) :
    Holds (Function.update slots (slot n a) v) log r a := by
  intro i hri hia
  rw [Function.update_of_ne (slot_ne hia (by omega))]
  exact h i hri hia

/-- Moving the write counter past a slot appends what the slot carries. -/
theorem Holds.commit {r a : Nat} {x : α} (h : Holds slots log r a) (ha : log.length = a)
    (hx : slots (slot n a) = some x) : Holds slots (log ++ [x]) r (a + 1) := by
  intro i hri hia
  rcases Nat.lt_succ_iff_lt_or_eq.mp hia with hlt | rfl
  · rw [h i hri hlt, List.getElem?_append_left (by omega)]
  · rw [hx, ← ha, List.getElem?_concat_length]

theorem Holds.advance {r a : Nat} (h : Holds slots log r a) : Holds slots log (r + 1) a :=
  fun i hri hia => h i (by omega) hia

end AgenticOS.Foundation.Ring
