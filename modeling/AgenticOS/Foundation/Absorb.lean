import Mathlib

/-!
# Running checksums

A checksum that absorbs one word after another into a running value. If a
single step loses nothing of the running value, no sequence of steps does; if
it loses nothing of the word either, changing one word of the input always
changes the result. Xor followed by a multiplication by an odd constant is
such a step.
-/

namespace AgenticOS.Foundation

open Function

section

variable {H V : Type*} {mix : H → V → H}

def absorb (mix : H → V → H) (h : H) (words : List V) : H :=
  words.foldl mix h

@[simp] theorem absorb_cons (h : H) (v : V) (vs : List V) :
    absorb mix h (v :: vs) = absorb mix (mix h v) vs := rfl

theorem absorb_append (h : H) (vs ws : List V) :
    absorb mix h (vs ++ ws) = absorb mix (absorb mix h vs) ws :=
  List.foldl_append

/-- What follows never hides a difference of the running values. -/
theorem absorb_injective (hmix : ∀ v, Injective (mix · v)) (vs : List V) :
    Injective (absorb mix · vs) := by
  induction vs with
  | nil => exact injective_id
  | cons v vs ih => exact ih.comp (hmix v)

theorem absorb_word_inj (hstate : ∀ v, Injective (mix · v))
    (hword : ∀ h, Injective (mix h)) {h : H} {pre post : List V} {v w : V}
    (heq : absorb mix h (pre ++ v :: post) = absorb mix h (pre ++ w :: post)) :
    v = w := by
  rw [absorb_append, absorb_append, absorb_cons, absorb_cons] at heq
  exact hword _ (absorb_injective hstate post heq)

end

/-! ## Xor and multiply -/

/-- One step of the FNV-1a family over whole words. -/
def xorMul (prime h v : UInt64) : UInt64 := (h ^^^ v) * prime

section

variable {prime : UInt64}

theorem xorMul_state_injective (hprime : IsUnit prime) (v : UInt64) :
    Injective (xorMul prime · v) := by
  intro h _ heq
  exact (UInt64.xor_left_inj v).mp (hprime.mul_left_injective heq)

theorem xorMul_word_injective (hprime : IsUnit prime) (h : UInt64) :
    Injective (xorMul prime h) := by
  intro v w heq
  exact (UInt64.xor_right_inj h).mp (hprime.mul_left_injective heq)

end

end AgenticOS.Foundation
