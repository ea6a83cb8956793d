import Mathlib

/-!
# Rectangles and visible regions

`kernel_common/src/geometry.rs`. Coordinates are `i32` values and sizes `u32` values, held as
`Int` and `Nat`; `asI32` and `asU32` are the casts of the source. An output array with its
count is the list of the entries written.
-/

namespace AgenticOS

def asI32 (n : Int) : Int := n.bmod (2 ^ 32)

def asU32 (n : Int) : Nat := (n % 2 ^ 32).toNat

def saturatingAdd (a b : Int) : Int := max (-2 ^ 31) (min (2 ^ 31 - 1) (a + b))

structure Rect where
  x : Int
  y : Int
  width : Nat
  height : Nat
  deriving DecidableEq, Repr

namespace Rect

def isEmpty (r : Rect) : Bool := r.width == 0 || r.height == 0

def right (r : Rect) : Int := saturatingAdd r.x (asI32 r.width)

def bottom (r : Rect) : Int := saturatingAdd r.y (asI32 r.height)

def intersect (r other : Rect) : Option Rect :=
  let x0 := max r.x other.x
  let y0 := max r.y other.y
  let x1 := min r.right other.right
  let y1 := min r.bottom other.bottom
  if x1 > x0 ∧ y1 > y0 then
    some { x := x0, y := y0, width := asU32 (x1 - x0), height := asU32 (y1 - y0) }
  else none

def area (r : Rect) : Nat := r.width * r.height

def containsRect (r other : Rect) : Bool :=
  other.isEmpty ||
    decide (r.x ≤ other.x ∧ r.y ≤ other.y ∧ r.right ≥ other.right ∧ r.bottom ≥ other.bottom)

/-- The slices above, below, left and right of `inter`, those that are there. -/
def slices (r inter : Rect) : List Rect :=
  (if inter.y > r.y then [⟨r.x, r.y, r.width, asU32 (inter.y - r.y)⟩] else []) ++
  (if r.bottom > inter.bottom then
    [⟨r.x, inter.bottom, r.width, asU32 (r.bottom - inter.bottom)⟩] else []) ++
  (if inter.x > r.x then [⟨r.x, inter.y, asU32 (inter.x - r.x), inter.height⟩] else []) ++
  (if r.right > inter.right then
    [⟨inter.right, inter.y, asU32 (r.right - inter.right), inter.height⟩] else [])

def subtract (r occluder : Rect) : List Rect :=
  if r.isEmpty then [] else
    match r.intersect occluder with
    | none => [r]
    | some inter => if occluder.containsRect r then [] else r.slices inter

/-- The loop over the occluders: an empty one is passed over, and of the pieces that the others
leave only the first 32 have a place in `next`. -/
def visibleFrom : List Rect → List Rect → List Rect
  | current, [] => current
  | current, occ :: rest =>
    if occ.isEmpty then visibleFrom current rest
    else visibleFrom ((current.flatMap (·.subtract occ)).take 32) rest

def computeVisibleRects (target : Rect) (occluders : List Rect) : List Rect :=
  if target.isEmpty then [] else visibleFrom [target] occluders

/-! ## Points and sizes -/

def Contains (r : Rect) (px py : Int) : Prop :=
  r.x ≤ px ∧ px < r.x + r.width ∧ r.y ≤ py ∧ py < r.y + r.height

structure Fits (r : Rect) : Prop where
  left : -2 ^ 31 ≤ r.x
  top : -2 ^ 31 ≤ r.y
  width : r.width < 2 ^ 31
  height : r.height < 2 ^ 31
  right : r.x + r.width < 2 ^ 31
  bottom : r.y + r.height < 2 ^ 31

def Disjoint (r s : Rect) : Prop := ∀ px py, r.Contains px py → ¬ s.Contains px py

variable {r occ : Rect} {current occluders : List Rect}

theorem asU32_of_nonneg {n : Int} (h0 : 0 ≤ n) (h : n < 2 ^ 32) : (asU32 n : Int) = n := by
  rw [asU32, Int.emod_eq_of_lt h0 h]
  omega

theorem asI32_of_lt {n : Nat} (h : n < 2 ^ 31) : asI32 n = n := by
  rw [asI32, Int.bmod_eq_of_le] <;> omega

theorem Fits.right_eq (h : r.Fits) : Rect.right r = r.x + r.width := by
  have := h.left; have := h.right
  rw [Rect.right, asI32_of_lt h.width, saturatingAdd]
  omega

theorem Fits.bottom_eq (h : r.Fits) : Rect.bottom r = r.y + r.height := by
  have := h.top; have := h.bottom
  rw [Rect.bottom, asI32_of_lt h.height, saturatingAdd]
  omega

theorem isEmpty_iff : r.isEmpty = true ↔ ∀ px py, ¬ r.Contains px py := by
  simp only [isEmpty, Bool.or_eq_true, beq_iff_eq, Contains]
  constructor
  · intro h px py
    omega
  · intro h
    have := h r.x r.y
    omega

theorem Fits.intersect_eq_none (hr : r.Fits) (ho : occ.Fits) (h : r.intersect occ = none)
    (px py : Int) (hp : r.Contains px py) : ¬ occ.Contains px py := by
  simp only [intersect, hr.right_eq, hr.bottom_eq, ho.right_eq, ho.bottom_eq,
    ite_eq_right_iff, reduceCtorEq, imp_false] at h
  simp only [Contains] at hp ⊢
  omega

theorem Fits.intersect_eq_some (hr : r.Fits) (ho : occ.Fits) {inter : Rect}
    (h : r.intersect occ = some inter) :
    inter.Fits ∧ inter.isEmpty = false ∧ inter.x = max r.x occ.x ∧ inter.y = max r.y occ.y ∧
      inter.x + inter.width = min (r.x + r.width) (occ.x + occ.width) ∧
      inter.y + inter.height = min (r.y + r.height) (occ.y + occ.height) := by
  have := hr.left; have := hr.top; have := hr.width; have := hr.height
  have := hr.right; have := hr.bottom
  simp only [intersect, hr.right_eq, hr.bottom_eq, ho.right_eq, ho.bottom_eq,
    Option.ite_none_right_eq_some, Option.some.injEq] at h
  obtain ⟨⟨_, _⟩, rfl⟩ := h
  have hw := @asU32_of_nonneg (min (r.x + r.width) (occ.x + occ.width) - max r.x occ.x)
    (by omega) (by omega)
  have hh := @asU32_of_nonneg (min (r.y + r.height) (occ.y + occ.height) - max r.y occ.y)
    (by omega) (by omega)
  refine ⟨by constructor <;> dsimp only <;> omega, ?_, rfl, rfl, ?_, ?_⟩
  · simp only [isEmpty, Bool.or_eq_false_iff, beq_eq_false_iff_ne]
    omega
  · dsimp only
    omega
  · dsimp only
    omega

structure Pieces (ps : List Rect) : Prop where
  fits : ∀ s ∈ ps, s.Fits
  nonempty : ∀ s ∈ ps, s.isEmpty = false
  disjoint : ps.Pairwise Disjoint

def Region (ps : List Rect) (px py : Int) : Prop := ∃ s ∈ ps, s.Contains px py

theorem slices_spec {inter : Rect} (hr : r.Fits) (hi : inter.Fits) (hne : inter.isEmpty = false)
    (hx : r.x ≤ inter.x) (hy : r.y ≤ inter.y)
    (hx' : inter.x + inter.width ≤ r.x + r.width)
    (hy' : inter.y + inter.height ≤ r.y + r.height) :
    Pieces (r.slices inter) ∧
      (∀ px py, Region (r.slices inter) px py ↔ r.Contains px py ∧ ¬ inter.Contains px py) ∧
      ((r.slices inter).map area).sum + inter.area = r.area := by
  have := hr.left; have := hr.top; have := hr.width; have := hr.height
  have := hr.right; have := hr.bottom
  have := hi.width; have := hi.height
  simp only [isEmpty, Bool.or_eq_false_iff, beq_eq_false_iff_ne] at hne
  have htop := @asU32_of_nonneg (inter.y - r.y) (by omega) (by omega)
  have hbot := @asU32_of_nonneg (r.y + r.height - (inter.y + inter.height)) (by omega) (by omega)
  have hlft := @asU32_of_nonneg (inter.x - r.x) (by omega) (by omega)
  have hrgt := @asU32_of_nonneg (r.x + r.width - (inter.x + inter.width)) (by omega) (by omega)
  rw [slices, hr.right_eq, hr.bottom_eq, hi.right_eq, hi.bottom_eq]
  generalize asU32 (inter.y - r.y) = top at htop ⊢
  generalize asU32 (r.y + r.height - (inter.y + inter.height)) = bot at hbot ⊢
  generalize asU32 (inter.x - r.x) = lft at hlft ⊢
  generalize asU32 (r.x + r.width - (inter.x + inter.width)) = rgt at hrgt ⊢
  refine ⟨⟨?_, ?_, ?_⟩, ?_, ?_⟩
  · intro s hs
    simp only [List.mem_append, List.mem_ite_nil_right, List.mem_singleton] at hs
    rcases hs with ((⟨hc, rfl⟩ | ⟨hc, rfl⟩) | ⟨hc, rfl⟩) | ⟨hc, rfl⟩ <;>
      constructor <;> dsimp only <;> omega
  · intro s hs
    simp only [List.mem_append, List.mem_ite_nil_right, List.mem_singleton] at hs
    simp only [isEmpty, Bool.or_eq_false_iff, beq_eq_false_iff_ne]
    rcases hs with ((⟨hc, rfl⟩ | ⟨hc, rfl⟩) | ⟨hc, rfl⟩) | ⟨hc, rfl⟩ <;> dsimp only <;> omega
  · have hone {c : Prop} [Decidable c] (s : Rect) : (if c then [s] else []).Pairwise Disjoint := by
      split_ifs <;> simp
    simp only [List.pairwise_append, hone, List.mem_append, List.mem_ite_nil_right,
      List.mem_singleton, true_and]
    refine ⟨⟨?_, ?_⟩, ?_⟩
    · rintro s ⟨hs, rfl⟩ t ⟨ht, rfl⟩ px py
      simp only [Contains]
      omega
    · rintro s (⟨hs, rfl⟩ | ⟨hs, rfl⟩) t ⟨ht, rfl⟩ px py <;> simp only [Contains] <;> omega
    · rintro s ((⟨hs, rfl⟩ | ⟨hs, rfl⟩) | ⟨hs, rfl⟩) t ⟨ht, rfl⟩ px py <;>
        simp only [Contains] <;> omega
  · intro px py
    simp only [Region, List.mem_append, List.mem_ite_nil_right, List.mem_singleton, or_and_right,
      exists_or, and_assoc, exists_and_left, exists_eq_left, Contains]
    omega
  · have hone {c : Prop} [Decidable c] {s : Rect} (h : ¬ c → s.width = 0 ∨ s.height = 0) :
        ((if c then [s] else []).map area).sum = s.width * s.height := by
      split_ifs with hc
      · simp [area]
      · exact (mul_eq_zero.mpr (h hc)).symm
    have hheight : r.height = top + inter.height + bot := by omega
    have hwidth : r.width = lft + inter.width + rgt := by omega
    simp only [List.map_append, List.sum_append]
    rw [hone fun _ => .inr (by dsimp only; omega), hone fun _ => .inr (by dsimp only; omega),
      hone fun _ => .inl (by dsimp only; omega), hone fun _ => .inl (by dsimp only; omega)]
    simp only [area, hheight, hwidth]
    ring

theorem subtract_spec (hr : r.Fits) (ho : occ.Fits) : Pieces (r.subtract occ) ∧
      (∀ px py, Region (r.subtract occ) px py ↔ r.Contains px py ∧ ¬ occ.Contains px py) ∧
      ((r.subtract occ).map area).sum + ((r.intersect occ).map area).getD 0 = r.area := by
  rw [subtract]
  by_cases hempty : r.isEmpty = true
  · rw [if_pos hempty]
    have hnone := isEmpty_iff.mp hempty
    have hinter : r.intersect occ = none := by
      by_contra hsome
      obtain ⟨inter, hinter⟩ := Option.ne_none_iff_exists'.mp hsome
      obtain ⟨-, hne, hx, hy, hx', hy'⟩ := hr.intersect_eq_some ho hinter
      simp only [isEmpty, Bool.or_eq_true, Bool.or_eq_false_iff, beq_iff_eq,
        beq_eq_false_iff_ne] at hempty hne
      omega
    rw [hinter]
    refine ⟨⟨by simp, by simp, .nil⟩, fun px py => by simp [Region, hnone], ?_⟩
    have hzero : r.width = 0 ∨ r.height = 0 := by simpa [isEmpty] using hempty
    rcases hzero with h | h <;> simp [area, h]
  rw [if_neg hempty]
  cases hinter : r.intersect occ with
  | none =>
    have hapart := hr.intersect_eq_none ho hinter
    refine ⟨⟨by simpa using hr, by simpa using hempty, List.pairwise_singleton _ _⟩, ?_, by simp⟩
    intro px py
    simpa [Region] using hapart px py
  | some inter =>
    obtain ⟨hi, hne, hx, hy, hx', hy'⟩ := hr.intersect_eq_some ho hinter
    dsimp only
    split_ifs with hcover
    · simp only [containsRect, hempty, Bool.false_or, decide_eq_true_eq, hr.right_eq,
        hr.bottom_eq, ho.right_eq, ho.bottom_eq] at hcover
      have hwidth : inter.width = r.width := by omega
      have hheight : inter.height = r.height := by omega
      refine ⟨⟨by simp, by simp, .nil⟩, fun px py => ?_, by simp [area, hwidth, hheight]⟩
      simp only [Region, List.not_mem_nil, false_and, exists_false, false_iff, Contains]
      omega
    · obtain ⟨hpieces, hregion, harea⟩ := slices_spec hr hi hne (by omega) (by omega) (by omega)
        (by omega)
      refine ⟨hpieces, fun px py => (hregion px py).trans ?_, harea⟩
      simp only [Contains]
      omega

/-! ## The loop over the occluders -/

theorem Pieces.take (h : Pieces current) (n : Nat) : Pieces (current.take n) :=
  ⟨fun s hs => h.fits s (List.mem_of_mem_take hs),
    fun s hs => h.nonempty s (List.mem_of_mem_take hs), h.disjoint.sublist (List.take_sublist n _)⟩

theorem Pieces.flatMap_subtract (h : Pieces current) (ho : occ.Fits) :
    Pieces (current.flatMap (·.subtract occ)) ∧ ∀ px py,
      Region (current.flatMap (·.subtract occ)) px py ↔
        Region current px py ∧ ¬ occ.Contains px py := by
  have hregion (s : Rect) (hs : s ∈ current) := (subtract_spec (h.fits s hs) ho).2.1
  refine ⟨⟨?_, ?_, List.pairwise_flatMap.mpr ⟨?_, ?_⟩⟩, fun px py => ?_⟩
  · intro t ht
    obtain ⟨s, hs, ht⟩ := List.mem_flatMap.mp ht
    exact (subtract_spec (h.fits s hs) ho).1.fits t ht
  · intro t ht
    obtain ⟨s, hs, ht⟩ := List.mem_flatMap.mp ht
    exact (subtract_spec (h.fits s hs) ho).1.nonempty t ht
  · exact fun s hs => (subtract_spec (h.fits s hs) ho).1.disjoint
  · -- Pieces of two rectangles that do not meet do not meet.
    refine h.disjoint.imp_of_mem fun {s t} hs ht hst a ha b hb px py hpa hpb => ?_
    exact hst px py ((hregion s hs px py).mp ⟨a, ha, hpa⟩).1
      ((hregion t ht px py).mp ⟨b, hb, hpb⟩).1
  · constructor
    · rintro ⟨t, ht, hp⟩
      obtain ⟨s, hs, ht⟩ := List.mem_flatMap.mp ht
      obtain ⟨hps, hpo⟩ := (hregion s hs px py).mp ⟨t, ht, hp⟩
      exact ⟨⟨s, hs, hps⟩, hpo⟩
    · rintro ⟨⟨s, hs, hps⟩, hpo⟩
      obtain ⟨t, ht, hp⟩ := (hregion s hs px py).mpr ⟨hps, hpo⟩
      exact ⟨t, List.mem_flatMap.mpr ⟨s, hs, ht⟩, hp⟩

theorem length_subtract_le (r occ : Rect) : (r.subtract occ).length ≤ 4 := by
  have hslices (inter : Rect) : (r.slices inter).length ≤ 4 := by
    unfold slices
    split_ifs <;> simp
  unfold subtract
  split
  · simp
  split
  · simp
  split
  · simp
  · exact hslices _

/-- **Subtraction is a partition.** The pieces and the intersection make up the rectangle, in
points and in area, and the order of two occluders does not matter. -/
theorem subtract_partition (a b : Rect) (ha : a.Fits) (hb : b.Fits) :
    (a.subtract b).length ≤ 4 ∧ (∀ s ∈ a.subtract b, s.isEmpty = false ∧ s.Disjoint b) ∧
    (a.subtract b).Pairwise Disjoint ∧
    (∀ px py, a.Contains px py ↔ Region (a.subtract b ++ (a.intersect b).toList) px py) ∧
    ((a.subtract b).map area).sum + ((a.intersect b).map area).getD 0 = a.area ∧
    ∀ c : Rect, c.Fits → ∀ px py, Region ((a.subtract b).flatMap (·.subtract c)) px py ↔
      Region ((a.subtract c).flatMap (·.subtract b)) px py := by
  obtain ⟨hpieces, hregion, harea⟩ := subtract_spec ha hb
  refine ⟨length_subtract_le a b, fun s hs => ⟨hpieces.nonempty s hs, fun px py hp => ?_⟩,
    hpieces.disjoint, fun px py => ?_, harea, fun c hc px py => ?_⟩
  · exact ((hregion px py).mp ⟨s, hs, hp⟩).2
  · have hsplit : Region (a.subtract b ++ (a.intersect b).toList) px py ↔
        Region (a.subtract b) px py ∨ ∃ inter ∈ a.intersect b, inter.Contains px py := by
      simp [Region, or_and_right, exists_or]
    rw [hsplit, hregion]
    cases hinter : a.intersect b with
    | none => simpa using ha.intersect_eq_none hb hinter px py
    | some =>
      obtain ⟨-, -, _, _, _, _⟩ := ha.intersect_eq_some hb hinter
      simp only [Contains, Option.mem_some_iff, exists_eq_left']
      omega
  · obtain ⟨hpieces', hregion', -⟩ := subtract_spec ha hc
    rw [(hpieces.flatMap_subtract hc).2, (hpieces'.flatMap_subtract hb).2, hregion, hregion',
      and_right_comm]

theorem subtract_partition_hole : ((subtract ⟨0, 0, 4, 4⟩ ⟨1, 1, 2, 2⟩).map area).sum +
    ((intersect ⟨0, 0, 4, 4⟩ ⟨1, 1, 2, 2⟩).map area).getD 0 = area ⟨0, 0, 4, 4⟩ :=
  (subtract_partition ⟨0, 0, 4, 4⟩ ⟨1, 1, 2, 2⟩ (by constructor <;> decide)
    (by constructor <;> decide)).2.2.2.2.1

/-- Whenever an occluder leaves more than 32 pieces, those after the 32nd are covered by the
occluders still to come. -/
def Roomy : List Rect → List Rect → Prop
  | _, [] => True
  | current, occ :: rest =>
    if occ.isEmpty then Roomy current rest
    else
      (∀ px py, Region ((current.flatMap (·.subtract occ)).drop 32) px py → Region rest px py) ∧
        Roomy ((current.flatMap (·.subtract occ)).take 32) rest

theorem Pieces.visibleFrom (h : Pieces current) (ho : ∀ o ∈ occluders, o.Fits) :
    Pieces (visibleFrom current occluders) ∧ ∀ px py, Region (visibleFrom current occluders) px py →
        Region current px py ∧ ¬ Region occluders px py := by
  induction occluders generalizing current with
  | nil => exact ⟨h, fun px py hp => ⟨hp, by simp [Region]⟩⟩
  | cons occ rest ih =>
    have hrest := fun o hmem => ho o (List.mem_cons_of_mem occ hmem)
    simp only [Rect.visibleFrom]
    split_ifs with hempty
    · obtain ⟨hpieces, hsub⟩ := ih h hrest
      refine ⟨hpieces, fun px py hp => ⟨(hsub px py hp).1, ?_⟩⟩
      simpa [Region, isEmpty_iff.mp hempty px py] using (hsub px py hp).2
    · obtain ⟨hall, hregion⟩ := h.flatMap_subtract (ho occ List.mem_cons_self)
      obtain ⟨hpieces, hsub⟩ := ih (hall.take 32) hrest
      refine ⟨hpieces, fun px py hp => ?_⟩
      obtain ⟨⟨s, hs, hps⟩, hnot⟩ := hsub px py hp
      obtain ⟨hcur, hocc⟩ := (hregion px py).mp ⟨s, List.mem_of_mem_take hs, hps⟩
      refine ⟨hcur, ?_⟩
      rintro ⟨o, hmem, hpo⟩
      rcases List.mem_cons.mp hmem with rfl | hmem
      · exact hocc hpo
      · exact hnot ⟨o, hmem, hpo⟩

theorem Pieces.exact_iff (h : Pieces current) (ho : ∀ o ∈ occluders, o.Fits) :
    (∀ px py, Region current px py → ¬ Region occluders px py →
      Region (Rect.visibleFrom current occluders) px py) ↔ Roomy current occluders := by
  induction occluders generalizing current with
  | nil => exact ⟨fun _ => trivial, fun _ px py hp _ => hp⟩
  | cons occ rest ih =>
    have hrest := fun o hmem => ho o (List.mem_cons_of_mem occ hmem)
    have hcons (px py : Int) :
        Region (occ :: rest) px py ↔ occ.Contains px py ∨ Region rest px py := by
      simp [Region]
    simp only [Rect.visibleFrom, Roomy, hcons]
    split_ifs with hempty
    · simpa [isEmpty_iff.mp hempty] using ih h hrest
    obtain ⟨hall, hregion⟩ := h.flatMap_subtract (ho occ List.mem_cons_self)
    set all := current.flatMap (·.subtract occ)
    have hsplit (px py : Int) :
        Region all px py ↔ Region (all.take 32) px py ∨ Region (all.drop 32) px py := by
      conv_lhs => rw [← List.take_append_drop 32 all]
      simp only [Region, List.mem_append, or_and_right, exists_or]
    have hapart (px py : Int) (ht : Region (all.take 32) px py) : ¬ Region (all.drop 32) px py := by
      obtain ⟨s, hs, hps⟩ := ht
      rintro ⟨t, ht, hpt⟩
      have hdisj := hall.disjoint
      rw [← List.take_append_drop 32 all, List.pairwise_append] at hdisj
      exact hdisj.2.2 s hs t ht px py hps hpt
    rw [← ih (hall.take 32) hrest]
    constructor
    · intro hexact
      have hin (px py : Int) (hp : Region all px py) (hr : ¬ Region rest px py) :=
        hexact px py ((hregion px py).mp hp).1 (not_or.mpr ⟨((hregion px py).mp hp).2, hr⟩)
      refine ⟨fun px py hp => ?_, fun px py hp => hin px py ((hsplit px py).mpr (.inl hp))⟩
      by_contra hr
      exact hapart px py (((hall.take 32).visibleFrom hrest).2 px py
        (hin px py ((hsplit px py).mpr (.inr hp)) hr)).1 hp
    · rintro ⟨hdrop, hexact⟩ px py hp hnot
      obtain ⟨hocc, hr⟩ := not_or.mp hnot
      apply hexact px py _ hr
      rcases (hsplit px py).mp ((hregion px py).mpr ⟨hp, hocc⟩) with ht | hd
      · exact ht
      · exact absurd (hdrop px py hd) hr

/-- The rectangles returned are non-empty, do not meet, and make up what no occluder covers of
`target`. -/
def VisibleExact (target : Rect) (occluders : List Rect) : Prop :=
  let out := computeVisibleRects target occluders
  (∀ s ∈ out, s.isEmpty = false) ∧ out.Pairwise Disjoint ∧
    ∀ px py, (∃ s ∈ out, s.Contains px py) ↔
      target.Contains px py ∧ ∀ o ∈ occluders, ¬ o.Contains px py

/-- **Visible regions.** `computeVisibleRects` gives an exact cover without overlaps if and only
if no piece is lost that is still visible at the end. -/
theorem visibleExact_iff {target : Rect} (ht : target.Fits) (ho : ∀ o ∈ occluders, o.Fits) :
    VisibleExact target occluders ↔ target.isEmpty = true ∨ Roomy [target] occluders := by
  rw [VisibleExact, computeVisibleRects]
  by_cases hempty : target.isEmpty = true
  · simp [hempty, isEmpty_iff.mp hempty]
  have htarget : Pieces [target] :=
    ⟨by simpa using ht, by simpa using hempty, List.pairwise_singleton _ _⟩
  have hone (px py : Int) : Region [target] px py ↔ target.Contains px py := by simp [Region]
  have hnot (px py : Int) :
      ¬ Region occluders px py ↔ ∀ o ∈ occluders, ¬ o.Contains px py := by simp [Region]
  obtain ⟨hpieces, hsub⟩ := htarget.visibleFrom ho
  simp only [hone, hnot] at hsub
  rw [or_iff_right hempty, ← htarget.exact_iff ho]
  simp only [hempty, hone, hnot, Bool.false_eq_true, if_false]
  constructor
  · rintro ⟨-, -, hexact⟩ px py hp ho
    exact (hexact px py).mpr ⟨hp, ho⟩
  · intro hexact
    exact ⟨hpieces.nonempty, hpieces.disjoint, fun px py =>
      ⟨hsub px py, fun hp => hexact px py hp.1 hp.2⟩⟩

theorem visibleExact_iff_half :
    VisibleExact ⟨0, 0, 4, 2⟩ [⟨2, 0, 2, 2⟩] ↔
      isEmpty ⟨0, 0, 4, 2⟩ = true ∨ Roomy [⟨0, 0, 4, 2⟩] [⟨2, 0, 2, 2⟩] :=
  visibleExact_iff (by constructor <;> decide)
    (by simp only [List.mem_singleton, forall_eq]; constructor <;> decide)

instance (r : Rect) (px py : Int) : Decidable (r.Contains px py) :=
  inferInstanceAs (Decidable (_ ∧ _))

/-- Eleven holes on the diagonal of a square leave 34 pieces; those beside the first hole have no
place. -/
theorem visible_piece_lost :
    ¬ VisibleExact ⟨0, 0, 24, 24⟩ ((List.range 11).map fun i => ⟨2 * i + 1, 2 * i + 1, 1, 1⟩) := by
  rintro ⟨-, -, hexact⟩
  have hshown := (hexact 5 1).mpr (by decide +kernel)
  revert hshown
  decide +kernel

end Rect
end AgenticOS
