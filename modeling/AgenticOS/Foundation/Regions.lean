import Mathlib

/-!
# Separated regions

Regions of consecutive numbers. A list of them is separated if they are in
order, with something between any two of them, and none is smaller than a given
size: what a free list looks like that merges neighbours.
-/

namespace AgenticOS.Foundation

@[ext] structure Region where
  addr : Nat
  size : Nat
  deriving DecidableEq

namespace Region

def stop (r : Region) : Nat := r.addr + r.size

def bytes (r : Region) : Set Nat := Set.Ico r.addr r.stop

variable {r q : Region} {x least : Nat} {l l' pre post : List Region}

theorem mem_bytes : x ∈ r.bytes ↔ r.addr ≤ x ∧ x < r.stop := Iff.rfl

theorem bytes_append (addr m n : Nat) :
    (⟨addr, m + n⟩ : Region).bytes =
      (⟨addr, m⟩ : Region).bytes ∪ (⟨addr + m, n⟩ : Region).bytes := by
  ext x
  simp only [Set.mem_union, mem_bytes, stop]
  omega

theorem disjoint_of_le (h : r.stop ≤ q.addr) : Disjoint r.bytes q.bytes := by
  rw [Set.disjoint_left]
  rintro x ⟨-, hr⟩ ⟨hq, -⟩
  omega

/-- Regions that do not overlap are in order. -/
theorem stop_le_of_disjoint (h : Disjoint r.bytes q.bytes) (hle : r.addr ≤ q.addr)
    (hq : 0 < q.size) : r.stop ≤ q.addr := by
  by_contra hlt
  exact Set.disjoint_left.mp h ⟨hle, not_le.mp hlt⟩ ⟨le_rfl, Nat.lt_add_of_pos_right hq⟩

/-! ## Lists of regions -/

def covered (l : List Region) : Set Nat := { x | ∃ r ∈ l, x ∈ r.bytes }

@[simp] theorem covered_nil : covered [] = ∅ := by
  ext x
  simp [covered]

@[simp] theorem covered_cons : covered (r :: l) = r.bytes ∪ covered l := by
  ext x
  simp [covered]

@[simp] theorem covered_append : covered (l ++ l') = covered l ∪ covered l' := by
  ext x
  simp [covered, or_and_right, exists_or]

theorem bytes_subset_covered (h : r ∈ l) : r.bytes ⊆ covered l := fun _ hx => ⟨r, h, hx⟩

structure Separated (least : Nat) (l : List Region) : Prop where
  apart : l.Pairwise fun r q => r.stop < q.addr
  large : ∀ r ∈ l, least ≤ r.size

theorem separated_nil : Separated least [] := ⟨List.Pairwise.nil, nofun⟩

theorem separated_append : Separated least (pre ++ post) ↔
    Separated least pre ∧ Separated least post ∧ ∀ r ∈ pre, ∀ q ∈ post, r.stop < q.addr := by
  constructor
  · rintro ⟨hapart, hlarge⟩
    obtain ⟨hpre, hpost, hbetween⟩ := List.pairwise_append.mp hapart
    exact ⟨⟨hpre, fun r hr => hlarge r (List.mem_append_left _ hr)⟩,
      ⟨hpost, fun r hr => hlarge r (List.mem_append_right _ hr)⟩, hbetween⟩
  · rintro ⟨hpre, hpost, hbetween⟩
    refine ⟨List.pairwise_append.mpr ⟨hpre.apart, hpost.apart, hbetween⟩, fun r hr => ?_⟩
    obtain hr | hr := List.mem_append.mp hr
    · exact hpre.large r hr
    · exact hpost.large r hr

theorem separated_cons : Separated least (r :: l) ↔
    least ≤ r.size ∧ Separated least l ∧ ∀ q ∈ l, r.stop < q.addr := by
  constructor
  · rintro ⟨hapart, hlarge⟩
    obtain ⟨hr, hl⟩ := List.pairwise_cons.mp hapart
    exact ⟨hlarge r List.mem_cons_self, ⟨hl, fun q hq => hlarge q (List.mem_cons_of_mem _ hq)⟩, hr⟩
  · rintro ⟨hsize, hl, hr⟩
    refine ⟨List.pairwise_cons.mpr ⟨hr, hl.apart⟩, fun q hq => ?_⟩
    obtain rfl | hq := List.mem_cons.mp hq
    · exact hsize
    · exact hl.large q hq

theorem covered_mid : covered (pre ++ r :: post) = covered (pre ++ post) ∪ r.bytes := by
  ext x
  simp only [covered_append, covered_cons, Set.mem_union]
  tauto

/-- A region of the list shares nothing with the others. -/
theorem Separated.disjoint_others (h : Separated least (pre ++ r :: post)) :
    Disjoint r.bytes (covered (pre ++ post)) := by
  obtain ⟨-, hpost, hbetween⟩ := separated_append.mp h
  obtain ⟨-, -, hbehind⟩ := separated_cons.mp hpost
  rw [Set.disjoint_right]
  rintro x ⟨q, hq, hxq⟩ hxr
  obtain hq | hq := List.mem_append.mp hq
  · have hlt := hbetween q hq r List.mem_cons_self
    exact Set.disjoint_left.mp (disjoint_of_le hlt.le) hxq hxr
  · exact Set.disjoint_left.mp (disjoint_of_le (hbehind q hq).le) hxr hxq

/-- Regions with gaps between them that cover an interval are one region. -/
theorem Separated.eq_singleton {a b : Nat} (h : Separated least l) (hleast : 0 < least)
    (hl : covered l = Set.Ico a b) (hab : a < b) : l = [⟨a, b - a⟩] := by
  have hmem (x : Nat) : x ∈ covered l ↔ a ≤ x ∧ x < b := by
    rw [hl]
    exact Iff.rfl
  cases l with
  | nil => exact absurd ((hmem a).mpr ⟨le_rfl, hab⟩) (by simp)
  | cons r l =>
    obtain ⟨_, -, hbehind⟩ := separated_cons.mp h
    have hr : r.stop = r.addr + r.size := rfl
    have hin {x : Nat} (hx : x ∈ covered (r :: l)) : x ∈ r.bytes ∨ r.stop < x := by
      rw [covered_cons] at hx
      exact hx.imp_right fun ⟨q, hq, hxq⟩ => (hbehind q hq).trans_le hxq.1
    have hsub (x : Nat) (hx : x ∈ r.bytes) :=
      (hmem x).mp (bytes_subset_covered List.mem_cons_self hx)
    have hstart : r.addr = a := by
      have hle := hsub r.addr (mem_bytes.mpr ⟨le_rfl, by omega⟩)
      obtain hx | hx := hin ((hmem a).mpr ⟨le_rfl, hab⟩)
      · exact le_antisymm hx.1 hle.1
      · omega
    have hend : r.stop = b := by
      have hlast := hsub (r.stop - 1) (mem_bytes.mpr (by omega))
      by_contra hne
      obtain hx | hx := hin ((hmem r.stop).mpr (by omega))
      · exact lt_irrefl _ hx.2
      · exact lt_irrefl _ hx
    have hnil : l = [] := by
      rw [List.eq_nil_iff_forall_not_mem]
      intro q hq
      have hpos := hleast.trans_le (h.large q (List.mem_cons_of_mem _ hq))
      have hlt := ((hmem q.addr).mp ⟨q, List.mem_cons_of_mem _ hq, le_rfl,
        Nat.lt_add_of_pos_right hpos⟩).2
      exact lt_asymm hlt (hend ▸ hbehind q hq)
    rw [hnil, ← hstart, ← hend, hr, Nat.add_sub_cancel_left]

theorem Separated.place (hpre : Separated least pre) (hpost : Separated least post)
    (hsize : least ≤ r.size) (hbelow : ∀ p ∈ pre, p.stop < r.addr)
    (habove : ∀ q ∈ post, r.stop < q.addr) : Separated least (pre ++ r :: post) := by
  refine separated_append.mpr ⟨hpre, separated_cons.mpr ⟨hsize, hpost, habove⟩, ?_⟩
  intro p hp q hq
  obtain rfl | hq := List.mem_cons.mp hq
  · exact hbelow p hp
  · exact (hbelow p hp).trans ((Nat.le_add_right _ _).trans_lt (habove q hq))

theorem Separated.exists_split (h : Separated least l) (a : Nat) :
    ∃ below above, l = below ++ above ∧ (∀ r ∈ below, r.addr < a) ∧ ∀ q ∈ above, a ≤ q.addr := by
  induction l with
  | nil => exact ⟨[], [], rfl, nofun, nofun⟩
  | cons r l ih =>
    obtain ⟨-, hl, hr⟩ := separated_cons.mp h
    by_cases hlt : r.addr < a
    · obtain ⟨below, above, rfl, hbelow, habove⟩ := ih hl
      refine ⟨r :: below, above, rfl, fun q hq => ?_, habove⟩
      obtain rfl | hq := List.mem_cons.mp hq
      · exact hlt
      · exact hbelow q hq
    · refine ⟨[], r :: l, rfl, nofun, fun q hq => ?_⟩
      obtain rfl | hq := List.mem_cons.mp hq
      · exact not_lt.mp hlt
      · exact (not_lt.mp hlt).trans ((Nat.le_add_right _ _).trans (hr q hq).le)

/-- There are at most as many regions as numbers that they cover. -/
theorem Separated.length_le {lo hi : Nat} (hleast : 0 < least) (h : Separated least l)
    (hlo : ∀ r ∈ l, lo ≤ r.addr) (hhi : ∀ r ∈ l, r.stop ≤ hi) (hle : lo ≤ hi) :
    l.length ≤ hi - lo := by
  induction l generalizing lo with
  | nil => exact Nat.zero_le _
  | cons r l ih =>
    obtain ⟨_, hl, hr⟩ := separated_cons.mp h
    have hrlo := hlo r List.mem_cons_self
    have hrhi := hhi r List.mem_cons_self
    have hstop : r.stop = r.addr + r.size := rfl
    have hrest := ih hl (fun q hq => (hr q hq).le)
      (fun q hq => hhi q (List.mem_cons_of_mem _ hq)) hrhi
    rw [List.length_cons]
    omega

end Region

end AgenticOS.Foundation
