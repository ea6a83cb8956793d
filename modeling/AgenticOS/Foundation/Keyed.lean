import Mathlib

/-!
# Lists searched by a key

A growing vector that is scanned for the first entry with a given key. New
entries go to the end, an entry is changed in place, and removing one closes
the gap. Nothing forces the keys to be distinct; the rules that need it say so.
-/

namespace AgenticOS.Foundation.Keyed

open List

variable {κ α : Type*} [DecidableEq κ] (key : α → κ)

/-- The first entry with the key. -/
def lookup (xs : List α) (a : κ) : Option α := xs.find? fun x => key x = a

/-- Change the first entry with the key. -/
def adjust (a : κ) (f : α → α) : List α → List α
  | [] => []
  | x :: xs => if key x = a then f x :: xs else x :: adjust a f xs

/-- Remove the first entry with the key. -/
def remove (a : κ) (xs : List α) : List α := xs.eraseP fun x => key x = a

variable {key}

theorem lookup_append_single (xs : List α) (x : α) (a : κ) :
    lookup key (xs ++ [x]) a = (lookup key xs a).or (if key x = a then some x else none) := by
  unfold lookup
  rw [List.find?_append]
  by_cases h : key x = a <;> simp [h]

variable {xs : List α}

theorem lookup_eq_none_of_notMem {a : κ} (h : a ∉ xs.map key) : lookup key xs a = none := by
  unfold lookup
  rw [List.find?_eq_none]
  intro x hx hxa
  exact h (List.mem_map.mpr ⟨x, hx, of_decide_eq_true hxa⟩)

variable (f : α → α)

theorem lookup_adjust (hf : ∀ x, key (f x) = key x) (xs : List α) (a b : κ) :
    lookup key (adjust key a f xs) b =
      if b = a then (lookup key xs a).map f else lookup key xs b := by
  induction xs with
  | nil => simp [adjust, lookup]
  | cons x xs ih =>
    unfold lookup at ih ⊢
    by_cases hxa : key x = a
    · rw [adjust, if_pos hxa]
      by_cases hba : b = a
      · simp [hba, hxa, hf]
      · have hxb : key x ≠ b := fun h => hba (h.symm.trans hxa)
        simp [hba, hxb, hf]
    · rw [adjust, if_neg hxa]
      by_cases hxb : key x = b
      · have hba : b ≠ a := fun h => hxa (hxb.trans h)
        simp [hxb, hba]
      · simp [hxb, hxa, ih]

theorem lookup_remove_of_ne {a b : κ} (hab : b ≠ a) (xs : List α) :
    lookup key (remove key a xs) b = lookup key xs b := by
  induction xs with
  | nil => rfl
  | cons x xs ih =>
    unfold lookup remove at ih ⊢
    by_cases hxa : key x = a
    · simp [hxa, Ne.symm hab]
    · by_cases hxb : key x = b
      · simp [hxb, hab]
      · simp [hxa, hxb, ih]

theorem map_adjust {β : Type*} {g : α → β} (hg : ∀ x, g (f x) = g x)
    (a : κ) (xs : List α) : (adjust key a f xs).map g = xs.map g := by
  induction xs with
  | nil => rfl
  | cons x xs ih =>
    unfold adjust
    split_ifs <;> simp [hg, ih]

theorem filter_adjust (hf : ∀ x, key (f x) = key x) (a : κ) (xs : List α) :
    (adjust key a f xs).filter (key · ≠ a) = xs.filter (key · ≠ a) := by
  induction xs with
  | nil => rfl
  | cons x xs ih =>
    unfold adjust
    by_cases hx : key x = a
    · simp [hx, hf]
    · simp only [hx, if_false, filter_cons, ih]

theorem map_key_remove_sublist (a : κ) (xs : List α) :
    ((remove key a xs).map key).Sublist (xs.map key) :=
  eraseP_sublist.map key

section

variable (hnodup : (xs.map key).Nodup)

include hnodup

theorem lookup_remove_self (a : κ) : lookup key (remove key a xs) a = none := by
  apply lookup_eq_none_of_notMem
  induction xs with
  | nil => exact not_mem_nil
  | cons x xs ih =>
    rw [map_cons, nodup_cons] at hnodup
    unfold remove at ih ⊢
    by_cases hxa : key x = a
    · simpa [hxa] using hnodup.1
    · have hrest := ih hnodup.2
      simp only [hxa, eraseP_cons, decide_false, cond_false, map_cons, mem_cons, not_or]
      exact ⟨fun h => hxa h.symm, hrest⟩

/-- With distinct keys the entry under a key is the one with that key. -/
theorem lookup_eq_some_iff {a : κ} {x : α} : lookup key xs a = some x ↔ x ∈ xs ∧ key x = a := by
  constructor
  · intro h
    refine ⟨List.mem_of_find?_eq_some h, ?_⟩
    unfold lookup at h
    simpa using List.find?_some h
  · rintro ⟨hx, rfl⟩
    induction xs with
    | nil => cases hx
    | cons y xs ih =>
      rw [map_cons, nodup_cons] at hnodup
      unfold lookup at ih ⊢
      obtain rfl | hx := mem_cons.mp hx
      · simp
      · have hne : key y ≠ key x := fun h => hnodup.1 (h ▸ List.mem_map_of_mem hx)
        rw [List.find?_cons_of_neg (by simpa using hne)]
        exact ih hnodup.2 hx

/-- With distinct keys only the entry with the key is changed. -/
theorem adjust_eq_map (a : κ) (f : α → α) :
    adjust key a f xs = xs.map fun x => if key x = a then f x else x := by
  induction xs with
  | nil => rfl
  | cons x xs ih =>
    rw [map_cons, nodup_cons] at hnodup
    rw [adjust, map_cons]
    split_ifs with hx
    · have hrest : (xs.map fun y => if key y = a then f y else y) = xs := by
        nth_rewrite 2 [← List.map_id xs]
        refine map_congr_left fun y hy => ?_
        have hne : key y ≠ a := fun h => hnodup.1 (hx.trans h.symm ▸ List.mem_map_of_mem hy)
        rw [if_neg hne, id]
      rw [hrest]
    · rw [ih hnodup.2]

theorem mem_remove_iff {a : κ} {x : α} : x ∈ remove key a xs ↔ x ∈ xs ∧ key x ≠ a := by
  induction xs with
  | nil => simp [remove]
  | cons y xs ih =>
    rw [map_cons, nodup_cons] at hnodup
    unfold remove at ih ⊢
    by_cases hy : key y = a
    · rw [eraseP_cons_of_pos (by simpa using hy), mem_cons]
      constructor
      · intro hx
        exact ⟨.inr hx, fun h => hnodup.1 (hy.trans h.symm ▸ List.mem_map_of_mem hx)⟩
      · rintro ⟨rfl | hx, hne⟩
        · exact absurd hy hne
        · exact hx
    · rw [eraseP_cons_of_neg (by simpa using hy), mem_cons, mem_cons, ih hnodup.2]
      constructor
      · rintro (rfl | ⟨hx, hne⟩)
        · exact ⟨.inl rfl, hy⟩
        · exact ⟨.inr hx, hne⟩
      · rintro ⟨rfl | hx, hne⟩
        · exact .inl rfl
        · exact .inr ⟨hx, hne⟩

end

end AgenticOS.Foundation.Keyed
