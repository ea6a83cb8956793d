import Mathlib

/-!
# Routes and the longest prefix

`user_rs/netstack_driver/src/main.rs`: the routing table and its lookup. The loop keeps
the answer of the best route so far together with its length and metric. They start at
values that every matching route beats.
-/

namespace AgenticOS.Netstack

structure RouteEntry where
  destIp : Fin 4 → UInt8
  netmask : Fin 4 → UInt8
  gateway : Option (Fin 4 → UInt8)
  iface : UInt8
  metric : UInt16

structure RoutingTable where
  routes : Fin 8 → RouteEntry
  count : Nat
  count_le : count ≤ 8

namespace RouteEntry

def Matches (target : Fin 4 → UInt8) (r : RouteEntry) : Prop :=
  ∀ b, target b &&& r.netmask b = r.destIp b &&& r.netmask b

instance (target : Fin 4 → UInt8) (r : RouteEntry) : Decidable (r.Matches target) :=
  inferInstanceAs (Decidable (∀ _, _))

def countOnes (b : UInt8) : Nat := (List.range 8).countP b.toNat.testBit

def prefixLen (r : RouteEntry) : Int := ∑ b, (countOnes (r.netmask b) : Int)

theorem prefixLen_nonneg (r : RouteEntry) : 0 ≤ r.prefixLen :=
  Finset.sum_nonneg fun _ _ => Int.natCast_nonneg _

end RouteEntry

/-! ## The loop -/

structure BestRoute where
  answer : Option (UInt8 × Option (Fin 4 → UInt8))
  prefixLen : Int
  metric : UInt16

namespace RoutingTable

variable (t : RoutingTable) (target : Fin 4 → UInt8)

/-- The accumulators after the first `n` routes. -/
def best : (n : Nat) → n ≤ 8 → BestRoute
  | 0, _ => ⟨none, -1, 0xFFFF⟩
  | n + 1, h =>
    let acc := best n (Nat.le_of_succ_le h)
    let r := t.routes ⟨n, h⟩
    if r.Matches target ∧ (acc.prefixLen < r.prefixLen ∨
        r.prefixLen = acc.prefixLen ∧ r.metric < acc.metric) then
      ⟨some (r.iface, r.gateway), r.prefixLen, r.metric⟩
    else acc

def lookup : Option (UInt8 × Option (Fin 4 → UInt8)) := (t.best target t.count t.count_le).answer

/-- Route `i` matches and is the best of the first `n`: the longest, then the one with the
smallest metric, then the earliest. -/
def IsBest (n : Nat) (i : Fin 8) : Prop :=
  i < n ∧ (t.routes i).Matches target ∧ ∀ j : Fin 8, j < n → (t.routes j).Matches target →
    (t.routes j).prefixLen ≤ (t.routes i).prefixLen ∧
    ((t.routes j).prefixLen = (t.routes i).prefixLen →
      (t.routes i).metric ≤ (t.routes j).metric ∧
      ((t.routes j).metric = (t.routes i).metric → i ≤ j))

/-- What the accumulators say about the routes that have been seen. -/
def Tells (n : Nat) (acc : BestRoute) : Prop :=
  (acc = ⟨none, -1, 0xFFFF⟩ ∧ ∀ j : Fin 8, j < n → ¬ (t.routes j).Matches target) ∨
  ∃ i, t.IsBest target n i ∧ acc = ⟨some ((t.routes i).iface, (t.routes i).gateway),
    (t.routes i).prefixLen, (t.routes i).metric⟩

variable {t target} {n : Nat}

theorem lt_succ_cases {j : Fin 8} (h : n < 8) (hj : j < n + 1) : j < n ∨ j = ⟨n, h⟩ := by
  rw [Fin.ext_iff]
  exact Nat.lt_succ_iff_lt_or_eq.mp hj

theorem tells_best (h : n ≤ 8) : t.Tells target n (t.best target n h) := by
  induction n with
  | zero => exact .inl ⟨rfl, fun j hj => absurd hj (Nat.not_lt_zero _)⟩
  | succ n ih =>
    have hpos := (t.routes ⟨n, h⟩).prefixLen_nonneg
    rw [best]
    obtain ⟨hacc, hnone⟩ | ⟨i, ⟨hi, hmatch, hbest⟩, hacc⟩ := ih (Nat.le_of_succ_le h)
    · rw [hacc]
      split_ifs with hr
      · refine .inr ⟨⟨n, h⟩, ⟨Nat.lt_succ_self n, hr.1, fun j hj hm => ?_⟩, rfl⟩
        obtain hj | rfl := lt_succ_cases h hj
        · exact absurd hm (hnone j hj)
        · exact ⟨le_rfl, fun _ => ⟨UInt16.le_refl _, fun _ => le_rfl⟩⟩
      · refine .inl ⟨rfl, fun j hj hm => ?_⟩
        obtain hj | rfl := lt_succ_cases h hj
        · exact hnone j hj hm
        · exact hr ⟨hm, .inl (by dsimp only; omega)⟩
    · rw [hacc]
      dsimp only
      simp only [UInt16.lt_iff_toNat_lt]
      split_ifs with hr
      · refine .inr ⟨⟨n, h⟩, ⟨Nat.lt_succ_self n, hr.1, fun j hj hm => ?_⟩, rfl⟩
        obtain hj | rfl := lt_succ_cases h hj
        · have hle := hbest j hj hm
          simp only [UInt16.le_iff_toNat_le, ← UInt16.toNat_inj] at hle ⊢
          omega
        · exact ⟨le_rfl, fun _ => ⟨UInt16.le_refl _, fun _ => le_rfl⟩⟩
      · refine .inr ⟨i, ⟨Nat.lt_succ_of_lt hi, hmatch, fun j hj hm => ?_⟩, rfl⟩
        obtain hj | rfl := lt_succ_cases h hj
        · exact hbest j hj hm
        · have hle : i ≤ ⟨n, h⟩ := hi.le
          simp only [hm, true_and, not_or, not_and] at hr
          simp only [UInt16.le_iff_toNat_le]
          omega

/-- **Longest-prefix match.** -/
theorem lookup_longest_prefix (t : RoutingTable) (target : Fin 4 → UInt8) :
    (t.lookup target = none ↔
      ∀ j : Fin 8, j < t.count → ¬ (t.routes j).Matches target) ∧
    ∀ answer, t.lookup target = some answer →
      ∃ i, t.IsBest target t.count i ∧ answer = ((t.routes i).iface, (t.routes i).gateway) := by
  unfold lookup
  obtain ⟨hacc, hnone⟩ | ⟨i, hbest, hacc⟩ : t.Tells target _ _ := tells_best t.count_le
  · rw [hacc]
    exact ⟨⟨fun _ => hnone, fun _ => rfl⟩, nofun⟩
  · rw [hacc]
    refine ⟨⟨nofun, fun h => absurd hbest.2.1 (h i hbest.1)⟩, ?_⟩
    rintro answer ⟨⟩
    exact ⟨i, hbest, rfl⟩

end RoutingTable

end AgenticOS.Netstack
