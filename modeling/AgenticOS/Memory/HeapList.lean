import AgenticOS.Foundation.Regions
import AgenticOS.Memory.Heap

/-!
# The free list in memory

What the links of `heap.rs` stand for: a separated list of regions, read from
the memory inside these regions. `add_free_region` adds what it is given to what
the list covers, and `find_and_remove` takes a block out of it.
-/

namespace AgenticOS

open Foundation Region Option
open UInt64 (toNat_add lt_iff_toNat_lt le_iff_toNat_le toNat_sub_of_le ofNat_toNat)
open List (mem_append_right mem_append_left mem_cons_self mem_cons_of_mem mem_singleton_self)

/-! ## Chains of nodes -/

/-- The nodes from `a` on are the regions `l`, and the last one links to `b`. -/
def Chain (m : ByteMemory) : UInt64 → List Region → UInt64 → Prop
  | a, [], b => a = b
  | a, r :: l, b => a ≠ 0 ∧ a.toNat = r.addr ∧ (m.readWord a).toNat = r.size ∧
      Chain m (m.readWord (a + 8)) l b

section

variable {m m' : ByteMemory} {a b c : UInt64} {r : Region} {l l' : List Region}

theorem chain_append : Chain m a (l ++ l') b ↔ ∃ c, Chain m a l c ∧ Chain m c l' b := by
  induction l generalizing a with
  | nil =>
    constructor
    · exact fun h => ⟨a, rfl, h⟩
    · rintro ⟨c, rfl, h⟩
      exact h
  | cons r l ih =>
    rw [List.cons_append, Chain, ih]
    constructor
    · rintro ⟨hne, haddr, hsize, c, hl, hl'⟩
      exact ⟨c, ⟨hne, haddr, hsize, hl⟩, hl'⟩
    · rintro ⟨c, ⟨hne, haddr, hsize, hl⟩, hl'⟩
      exact ⟨hne, haddr, hsize, c, hl, hl'⟩

theorem toNat_add_eight (ha : a.toNat + 16 ≤ 2 ^ 64) : (a + 8).toNat = a.toNat + 8 := by
  rw [toNat_add]
  exact Nat.mod_eq_of_lt (by show a.toNat + 8 < 2 ^ 64; omega)

theorem readWord_header (ha : a.toNat = r.addr) (hsize : 16 ≤ r.size) (hstop : r.stop < 2 ^ 64)
    (h : ∀ x : UInt64, x.toNat ∈ r.bytes → m' x = m x) :
    m'.readWord a = m.readWord a ∧ m'.readWord (a + 8) = m.readWord (a + 8) := by
  have hbytes : r.addr + r.size < 2 ^ 64 := hstop
  have hnext := toNat_add_eight (a := a) (by omega)
  constructor
  · refine ByteMemory.readWord_of_eqOn (by omega) fun x hle hlt => h x ⟨by omega, ?_⟩
    show x.toNat < r.addr + r.size
    omega
  · refine ByteMemory.readWord_of_eqOn (by omega) fun x hle hlt => h x ⟨by omega, ?_⟩
    show x.toNat < r.addr + r.size
    omega

theorem Chain.congr (h : Chain m a l b) (hlarge : ∀ r ∈ l, 16 ≤ r.size)
    (hstop : ∀ r ∈ l, r.stop < 2 ^ 64) (hmem : ∀ x : UInt64, x.toNat ∈ covered l → m' x = m x) :
    Chain m' a l b := by
  induction l generalizing a with
  | nil => exact h
  | cons r l ih =>
    obtain ⟨hne, haddr, hsize, hl⟩ := h
    have hkeep (x : UInt64) (hx : x.toNat ∈ r.bytes) : m' x = m x :=
      hmem x (bytes_subset_covered mem_cons_self hx)
    obtain ⟨hword, hnext⟩ := readWord_header haddr (hlarge r mem_cons_self)
      (hstop r mem_cons_self) hkeep
    refine ⟨hne, haddr, by rw [hword, hsize], ?_⟩
    rw [hnext]
    refine ih hl (fun q hq => hlarge q (mem_cons_of_mem _ hq))
      (fun q hq => hstop q (mem_cons_of_mem _ hq)) fun x hx => hmem x ?_
    rw [covered_cons]
    exact .inr hx

theorem Chain.first (h : Chain m a l 0) (hlow : ∀ r ∈ l, b.toNat < r.addr) : a = 0 ∨ b < a := by
  cases l with
  | nil => exact .inl h
  | cons r =>
    right
    rw [lt_iff_toNat_lt, h.2.1]
    exact hlow r mem_cons_self

end

namespace LockedHeap

/-! ## Headers -/

variable {h : LockedHeap} {a w c x align : UInt64} {r p q n : Region} {b rest : List Region}
  {k : Nat}

@[simp] theorem setSize_size : (h.setSize a w).size a = w := ByteMemory.readWord_writeWord

@[simp] theorem setNext_next : (h.setNext a w).next a = w := ByteMemory.readWord_writeWord

section

variable (ha : a.toNat + 16 ≤ 2 ^ 64)

include ha

/-- A write into the header of `a` changes the header only. -/
theorem setSize_mem {x : UInt64}
    (hx : ¬ (a.toNat ≤ x.toNat ∧ x.toNat < a.toNat + 16)) : (h.setSize a w).mem x = h.mem x :=
  ByteMemory.writeWord_of_notMem (by omega) (by omega)

theorem setNext_mem {x : UInt64}
    (hx : ¬ (a.toNat ≤ x.toNat ∧ x.toNat < a.toNat + 16)) : (h.setNext a w).mem x = h.mem x := by
  have hnext := toNat_add_eight ha
  exact ByteMemory.writeWord_of_notMem (by omega) (by omega)

theorem setSize_next : (h.setSize a w).next a = h.next a := by
  have hnext := toNat_add_eight ha
  refine ByteMemory.readWord_of_eqOn (by omega) fun x _ _ => ?_
  exact ByteMemory.writeWord_of_notMem (by omega) (by omega)

theorem setNext_size : (h.setNext a w).size a = h.size a := by
  have hnext := toNat_add_eight ha
  refine ByteMemory.readWord_of_eqOn (by omega) fun x _ _ => ?_
  exact ByteMemory.writeWord_of_notMem (by omega) (by omega)

end

/-- The free list is `l`. No address in it is null or the last one. -/
structure Tracks (h : LockedHeap) (l : List Region) : Prop where
  chain : Chain h.mem h.head l 0
  separated : Separated 16 l
  bounds : covered l ⊆ Set.Ioo 0 (2 ^ 64 - 1)

/-! ## Looking for a place -/

variable {h h' : LockedHeap} {addr size : UInt64} {l below above : List Region}

/-- The last node before a place, null if there is none. -/
def lastNode (prev : UInt64) (below : List Region) : UInt64 :=
  below.getLast?.elim prev fun r => UInt64.ofNat r.addr

theorem lastNode_concat {prev a : UInt64} {b : List Region} {p : Region} (ha : a.toNat = p.addr) :
    lastNode prev (b ++ [p]) = a := by
  rw [lastNode, List.getLast?_concat, elim_some, ← ha, ofNat_toNat]

theorem seek_spec {fuel : Nat} {prev curr c : UInt64} (hchain : Chain h.mem curr below c)
    (hbelow : ∀ r ∈ below, r.addr < addr.toNat) (hc : c ≠ 0 → addr.toNat ≤ c.toNat)
    (hfuel : below.length < fuel) :
    h.seek addr fuel prev curr = some (lastNode prev below, c) := by
  induction below generalizing prev curr fuel with
  | nil =>
    obtain ⟨fuel, rfl⟩ := Nat.exists_eq_add_one_of_ne_zero (Nat.ne_of_gt hfuel)
    obtain rfl : curr = c := hchain
    rw [seek, if_neg]
    · rfl
    · rintro ⟨hne, hlt⟩
      exact absurd (hc hne) (not_le.mpr (lt_iff_toNat_lt.mp hlt))
  | cons r below ih =>
    obtain ⟨fuel, rfl⟩ := Nat.exists_eq_add_one_of_ne_zero (Nat.ne_of_gt (Nat.zero_lt_of_lt hfuel))
    obtain ⟨hne, haddr, -, hrest⟩ := hchain
    have hlt : curr < addr := by
      rw [lt_iff_toNat_lt, haddr]
      exact hbelow r mem_cons_self
    rw [seek, if_pos ⟨hne, hlt⟩]
    have hlast : lastNode prev (r :: below) = lastNode curr below := by
      have hcurr : UInt64.ofNat r.addr = curr := by rw [← haddr, ofNat_toNat]
      unfold lastNode
      cases below with
      | nil => exact hcurr
      | cons => rw [List.getLast?_cons_cons]; rfl
    rw [hlast]
    exact ih hrest (fun q hq => hbelow q (mem_cons_of_mem _ hq)) (Nat.lt_of_succ_lt_succ hfuel)

/-! ## Putting a node in -/

theorem stop_lt_of_bounds {r : Region} (hsize : 16 ≤ r.size)
    (hbounds : r.bytes ⊆ Set.Ioo 0 (2 ^ 64 - 1)) : 0 < r.addr ∧ r.stop < 2 ^ 64 := by
  have hstop : r.stop = r.addr + r.size := rfl
  have hfirst := hbounds (mem_bytes.mpr ⟨le_rfl, by omega⟩)
  have hlast := hbounds (mem_bytes (x := r.stop - 1) |>.mpr ⟨by omega, by omega⟩)
  exact ⟨hfirst.1, by have := hlast.2; omega⟩

theorem Tracks.mem_bounds {r : Region} (h : Tracks h' l) (hr : r ∈ l) :
    16 ≤ r.size ∧ 0 < r.addr ∧ r.stop < 2 ^ 64 :=
  ⟨h.separated.large r hr, stop_lt_of_bounds (h.separated.large r hr)
    ((bytes_subset_covered hr).trans h.bounds)⟩

theorem store_link {c n : UInt64} (hchain : Chain h.mem h.head below c)
    (hsep : Separated 16 below) (hbounds : ∀ r ∈ below, 0 < r.addr ∧ r.stop < 2 ^ 64) :
    Chain (h.store (linkOf (lastNode 0 below)) n).mem (h.store (linkOf (lastNode 0 below)) n).head
        below n ∧
      (h.store (linkOf (lastNode 0 below)) n).heapEnd = h.heapEnd ∧
      ∀ x : UInt64, x.toNat ∉ covered below →
        (h.store (linkOf (lastNode 0 below)) n).mem x = h.mem x := by
  obtain rfl | ⟨b, p, rfl⟩ := List.eq_nil_or_concat below
  · exact ⟨rfl, rfl, fun _ _ => rfl⟩
  · rw [List.concat_eq_append] at *
    obtain ⟨a, hb, hne, haddr, hsize, _⟩ := chain_append.mp hchain
    obtain ⟨hsepb, hsepp, hlt⟩ := separated_append.mp hsep
    have hp := hbounds p (mem_append_right _ (mem_singleton_self p))
    have hlarge := hsepp.large p (mem_singleton_self p)
    have hstop : p.stop = p.addr + p.size := rfl
    have ha : a.toNat + 16 ≤ 2 ^ 64 := by omega
    have hlink : linkOf (lastNode 0 (b ++ [p])) = .next a := by
      rw [lastNode_concat haddr, linkOf, if_neg hne]
    rw [hlink]
    have hkeep (x : UInt64) (hx : x.toNat ∉ p.bytes) : (h.setNext a n).mem x = h.mem x := by
      refine setNext_mem ha fun _ => hx (mem_bytes.mpr ⟨by omega, by omega⟩)
    refine ⟨chain_append.mpr ⟨a, ?_, hne, haddr, ?_, ?_⟩, rfl, ?_⟩
    · refine hb.congr hsepb.large
        (fun r hr => (hbounds r (mem_append_left _ hr)).2) fun x hx => hkeep x fun hxp => ?_
      obtain ⟨r, hr, hxr⟩ := hx
      have := hlt r hr p (mem_singleton_self p)
      exact Set.disjoint_left.mp (disjoint_of_le this.le) hxr hxp
    · show ((h.setNext a n).size a).toNat = p.size
      rw [setNext_size ha]
      exact hsize
    · exact setNext_next
    · intro x hx
      refine hkeep x fun hxp => hx ?_
      rw [covered_append, covered_cons]
      exact .inr (.inl hxp)

theorem insert_node {rest : List Region} {c : UInt64}
    (hchain : Chain h.mem h.head below c) (hsep : Separated 16 below)
    (hbounds : ∀ r ∈ below, 0 < r.addr ∧ r.stop < 2 ^ 64)
    (haddr : addr.toNat = n.addr) (hn : 16 ≤ n.size) (hnbounds : 0 < n.addr ∧ n.stop < 2 ^ 64)
    (hsize : (h.size addr).toNat = n.size) (hrest : Chain h.mem (h.next addr) rest 0)
    (hrestsep : Separated 16 rest) (hrestbounds : ∀ r ∈ rest, r.stop < 2 ^ 64)
    (hbelow : ∀ p ∈ below, p.stop ≤ n.addr) (habove : ∀ q ∈ rest, n.stop < q.addr) :
    Chain (h.store (linkOf (lastNode 0 below)) addr).mem
        (h.store (linkOf (lastNode 0 below)) addr).head (below ++ n :: rest) 0 ∧
      (h.store (linkOf (lastNode 0 below)) addr).heapEnd = h.heapEnd ∧
      ∀ x : UInt64, x.toNat ∉ covered below →
        (h.store (linkOf (lastNode 0 below)) addr).mem x = h.mem x := by
  obtain ⟨hlink, hend, hkeep⟩ := store_link (n := addr) hchain hsep hbounds
  have hoff {x : UInt64} (hx : n.addr ≤ x.toNat) : x.toNat ∉ covered below := by
    rintro ⟨p, hp, hxp⟩
    have := hbelow p hp
    exact absurd hxp.2 (by omega)
  refine ⟨chain_append.mpr ⟨addr, hlink, ?_, haddr, ?_, ?_⟩, hend, hkeep⟩
  · intro hzero
    rw [hzero] at haddr
    exact absurd haddr.symm (Nat.ne_of_gt hnbounds.1)
  · obtain ⟨hword, -⟩ := readWord_header haddr hn hnbounds.2 fun x hx => hkeep x (hoff hx.1)
    rw [hword]
    exact hsize
  · obtain ⟨-, hword⟩ := readWord_header haddr hn hnbounds.2 fun x hx => hkeep x (hoff hx.1)
    rw [hword]
    refine hrest.congr hrestsep.large hrestbounds fun x hx => hkeep x (hoff ?_)
    obtain ⟨q, hq, hxq⟩ := hx
    have := habove q hq
    exact (Nat.le_add_right n.addr n.size).trans (this.le.trans hxq.1)

/-! ## `add_free_region` -/

/-- `h'` has the region `r` on its list, and `h` had not. -/
structure Added (h : LockedHeap) (l : List Region) (r : Region) (h' : LockedHeap)
    (l' : List Region) : Prop where
  tracks : Tracks h' l'
  covered_eq : covered l' = covered l ∪ r.bytes
  heapEnd : h'.heapEnd = h.heapEnd
  frame : ∀ x : UInt64, x.toNat ∉ covered l ∪ r.bytes → h'.mem x = h.mem x

/-- The place of `r` in the list is between `below` and `above`. -/
structure Place (h : LockedHeap) (r : Region) (below above : List Region) (c : UInt64) :
    Prop where
  before : Chain h.mem h.head below c
  after : Chain h.mem c above 0
  separated : Separated 16 (below ++ above)
  bounds : covered (below ++ above) ∪ r.bytes ⊆ Set.Ioo 0 (2 ^ 64 - 1)
  large : 16 ≤ r.size
  stop_le : ∀ p ∈ below, p.stop ≤ r.addr
  le_addr : ∀ q ∈ above, r.stop ≤ q.addr

section

variable (hp : Place h r below above c)

include hp

theorem Place.below_bounds (x : Region) (hx : x ∈ below) : 0 < x.addr ∧ x.stop < 2 ^ 64 :=
  stop_lt_of_bounds (hp.separated.large x (mem_append_left _ hx))
    ((bytes_subset_covered (mem_append_left _ hx)).trans (Set.subset_union_left.trans hp.bounds))

theorem Place.above_bounds (x : Region) (hx : x ∈ above) : 0 < x.addr ∧ x.stop < 2 ^ 64 :=
  stop_lt_of_bounds (hp.separated.large x (mem_append_right _ hx))
    ((bytes_subset_covered (mem_append_right _ hx)).trans (Set.subset_union_left.trans hp.bounds))

theorem Place.region_bounds : 0 < r.addr ∧ r.stop < 2 ^ 64 :=
  stop_lt_of_bounds hp.large (Set.subset_union_right.trans hp.bounds)

theorem Place.setHeader (haddr : addr.toNat = r.addr)
    {w v : UInt64} (x : UInt64) (hx : x.toNat ∉ r.bytes) :
    ((h.setSize addr w).setNext addr v).mem x = h.mem x := by
  have hr := hp.region_bounds
  have hlarge := hp.large
  have hstop : r.stop = r.addr + r.size := rfl
  have hoff : ¬ (addr.toNat ≤ x.toNat ∧ x.toNat < addr.toNat + 16) := fun _ =>
    hx (mem_bytes.mpr ⟨by omega, by omega⟩)
  rw [setNext_mem (by omega) hoff, setSize_mem (by omega) hoff]

end

/-- The node is new: there is a gap on both sides, or it takes in the next one. -/
theorem Place.insert (hp : Place h r below above c) (haddr : addr.toNat = r.addr)
    {w v : UInt64} (hn : n.addr = r.addr) (hle : r.size ≤ n.size) (hw : w.toNat = n.size)
    (hv : Chain h.mem v rest 0) (habove : rest <:+ above)
    (hcovered : n.bytes ∪ covered rest = r.bytes ∪ covered above)
    (hgap : ∀ p ∈ below, p.stop < n.addr) (hgap' : ∀ q ∈ rest, n.stop < q.addr) :
    Added h (below ++ above) r
      (((h.setSize addr w).setNext addr v).store (linkOf (lastNode 0 below)) addr)
      (below ++ n :: rest) := by
  obtain ⟨hsepb, hsepa, -⟩ := separated_append.mp hp.separated
  have hseprest : Separated 16 rest :=
    ⟨hsepa.apart.sublist habove.sublist, fun x hx => hsepa.large x (habove.subset hx)⟩
  have hr := hp.region_bounds
  have hlarge := hp.large
  have hstop : r.stop = r.addr + r.size := rfl
  have hcov : covered (below ++ n :: rest) = covered (below ++ above) ∪ r.bytes := by
    rw [covered_append, covered_cons, hcovered, covered_append, Set.union_comm r.bytes,
      Set.union_assoc]
  have hnbounds : 0 < n.addr ∧ n.stop < 2 ^ 64 := by
    refine stop_lt_of_bounds (hlarge.trans hle) (Set.Subset.trans ?_ hp.bounds)
    rw [← hcov]
    exact bytes_subset_covered (mem_append_right _ mem_cons_self)
  have hmem {x : UInt64} (hx : x.toNat ∉ r.bytes) :
      ((h.setSize addr w).setNext addr v).mem x = h.mem x := hp.setHeader haddr x hx
  have hbelow : Chain ((h.setSize addr w).setNext addr v).mem h.head below c := by
    refine hp.before.congr hsepb.large (fun x hx => (hp.below_bounds x hx).2) fun x hx => ?_
    obtain ⟨p, hpb, hxp⟩ := hx
    exact hmem fun hxr => Set.disjoint_left.mp (disjoint_of_le (hp.stop_le p hpb)) hxp hxr
  have hrest : Chain ((h.setSize addr w).setNext addr v).mem v rest 0 := by
    refine hv.congr hseprest.large (fun x hx => (hp.above_bounds x (habove.subset hx)).2)
      fun x hx => ?_
    obtain ⟨q, hq, hxq⟩ := hx
    exact hmem fun hxr =>
      Set.disjoint_left.mp (disjoint_of_le (hp.le_addr q (habove.subset hq))) hxr hxq
  have hsize : (((h.setSize addr w).setNext addr v).size addr).toNat = n.size := by
    rw [setNext_size (by omega), setSize_size, hw]
  have hnext : Chain ((h.setSize addr w).setNext addr v).mem
      (((h.setSize addr w).setNext addr v).next addr) rest 0 := by
    rw [setNext_next]
    exact hrest
  obtain ⟨hchain, hend, hframe⟩ := insert_node hbelow hsepb hp.below_bounds
    (haddr.trans hn.symm) (hlarge.trans hle) hnbounds hsize hnext hseprest
    (fun x hx => (hp.above_bounds x (habove.subset hx)).2) (fun p hp => (hgap p hp).le) hgap'
  refine ⟨⟨hchain, hsepb.place hseprest (hlarge.trans hle) hgap hgap', ?_⟩, hcov, hend, ?_⟩
  · rw [hcov]
    exact hp.bounds
  · intro x hx
    rw [covered_append] at hx
    rw [hframe x fun hxb => hx (.inl (.inl hxb))]
    exact hmem fun hxr => hx (.inr hxr)

/-- The node before takes it in, and perhaps the next one too. -/
theorem Place.extend (hp : Place h r (b ++ [p]) above c) (ha : a.toNat = p.addr)
    (hb : Chain h.mem h.head b a) (hne : a ≠ 0) (hn : n.addr = p.addr) (hle : p.size ≤ n.size)
    (hmem : ∀ x : UInt64, x.toNat ∉ p.bytes → h'.mem x = h.mem x) (hhead : h'.head = h.head)
    (hend : h'.heapEnd = h.heapEnd) (hsize : (h'.size a).toNat = n.size)
    (hnext : Chain h.mem (h'.next a) rest 0) (habove : rest <:+ above)
    (hcovered : n.bytes ∪ covered rest = p.bytes ∪ r.bytes ∪ covered above)
    (hgap' : ∀ q ∈ rest, n.stop < q.addr) :
    Added h (b ++ [p] ++ above) r h' (b ++ n :: rest) := by
  obtain ⟨hsepb, hsepa, hbetween⟩ := separated_append.mp hp.separated
  obtain ⟨hsepb, hsepp, hlast⟩ := separated_append.mp hsepb
  have hlarge := hsepp.large p (mem_singleton_self p)
  have hgap (x : Region) (hx : x ∈ b) : x.stop < n.addr := by
    rw [hn]
    exact hlast x hx p (mem_singleton_self p)
  have hseprest : Separated 16 rest :=
    ⟨hsepa.apart.sublist habove.sublist, fun x hx => hsepa.large x (habove.subset hx)⟩
  have hcov : covered (b ++ n :: rest) = covered (b ++ [p] ++ above) ∪ r.bytes := by
    rw [covered_append, covered_cons, hcovered, covered_append, covered_append, covered_cons,
      covered_nil, Set.union_empty]
    ext x
    simp only [Set.mem_union]
    tauto
  refine ⟨⟨chain_append.mpr ⟨a, ?_, hne, ha.trans hn.symm, hsize, ?_⟩, ?_, ?_⟩, hcov, hend, ?_⟩
  · rw [hhead]
    refine hb.congr hsepb.large
      (fun x hx => (hp.below_bounds x (mem_append_left _ hx)).2) fun x hx => ?_
    obtain ⟨y, hy, hxy⟩ := hx
    refine hmem x fun hxp => Set.disjoint_left.mp (disjoint_of_le ?_) hxy hxp
    exact (hlast y hy p (mem_singleton_self p)).le
  · refine hnext.congr hseprest.large (fun x hx => (hp.above_bounds x (habove.subset hx)).2)
      fun x hx => ?_
    obtain ⟨y, hy, hxy⟩ := hx
    refine hmem x fun hxp => Set.disjoint_left.mp (disjoint_of_le ?_) hxp hxy
    exact (hbetween p (mem_append_right _ (mem_singleton_self p)) y (habove.subset hy)).le
  · exact hsepb.place hseprest (hlarge.trans hle) hgap hgap'
  · rw [hcov]
    exact hp.bounds
  · intro x hx
    refine hmem x fun hxp => hx (.inl ?_)
    rw [covered_append, covered_append, covered_cons]
    exact .inl (.inr (.inl hxp))

theorem length_lt_fuel (hsep : Separated 16 l) (hstop : ∀ r ∈ l, r.stop < 2 ^ 64) :
    l.length < fuel :=
  Nat.lt_succ_of_le
    (hsep.length_le (by decide) (fun _ _ => Nat.zero_le _) (fun r hr => (hstop r hr).le)
      (Nat.zero_le (2 ^ 64)))

theorem Tracks.exists_place (ht : Tracks h l) (hr : r.addr = addr.toNat) (hlarge : 16 ≤ r.size)
    (hbounds : r.bytes ⊆ Set.Ioo 0 (2 ^ 64 - 1)) (hdisj : Disjoint r.bytes (covered l)) :
    ∃ below above c, l = below ++ above ∧ Place h r below above c ∧
      h.seek addr fuel 0 h.head = some (lastNode 0 below, c) := by
  obtain ⟨below, above, rfl, hbelow, habove⟩ := ht.separated.exists_split addr.toNat
  obtain ⟨c, hbefore, hafter⟩ := chain_append.mp ht.chain
  have hpart {x : Region} (hx : x ∈ below ++ above) : Disjoint r.bytes x.bytes :=
    hdisj.mono_right (bytes_subset_covered hx)
  refine ⟨below, above, c, rfl, ⟨hbefore, hafter, ht.separated, ?_, hlarge, ?_, ?_⟩, ?_⟩
  · exact Set.union_subset ht.bounds hbounds
  · intro p hp
    refine stop_le_of_disjoint (hpart (mem_append_left _ hp)).symm ?_ (by omega)
    rw [hr]
    exact (hbelow p hp).le
  · intro q hq
    have hq' := ht.separated.large q (mem_append_right _ hq)
    refine stop_le_of_disjoint (hpart (mem_append_right _ hq)) ?_ (by omega)
    rw [hr]
    exact habove q hq
  · refine seek_spec hbefore hbelow (fun hne => ?_) ?_
    · cases above with
      | nil => exact absurd hafter hne
      | cons q =>
        rw [hafter.2.1]
        exact habove q mem_cons_self
    · have hsep := (separated_append.mp ht.separated).1
      exact length_lt_fuel hsep fun x hx => (ht.mem_bounds (mem_append_left _ hx)).2.2

/-- The sum of an address and a size that is not the end of the addresses. -/
theorem toNat_add_of_stop {x y : UInt64} {r : Region} (hx : x.toNat = r.addr)
    (hy : y.toNat = r.size) (hstop : r.stop < 2 ^ 64) : (x + y).toNat = r.stop := by
  rw [toNat_add, hx, hy]
  exact Nat.mod_eq_of_lt hstop

theorem add_eq_iff {x y z : UInt64} {r : Region} (hx : x.toNat = r.addr) (hy : y.toNat = r.size)
    (hstop : r.stop < 2 ^ 64) : x + y = z ↔ r.stop = z.toNat := by
  rw [← UInt64.toNat_inj, toNat_add_of_stop hx hy hstop]

section

variable (hp : Place h r below above c)

include hp

/-- The node behind the place, if there is one. -/
theorem Place.next_cases :
    (c = 0 ∧ above = []) ∨ ∃ q rest, above = q :: rest ∧ c ≠ 0 ∧ c.toNat = q.addr ∧
      (h.size c).toNat = q.size ∧ Chain h.mem (h.next c) rest 0 ∧
      ∀ x ∈ rest, q.stop < x.addr := by
  have hafter := hp.after
  cases above with
  | nil => exact .inl ⟨hafter, rfl⟩
  | cons q rest =>
    obtain ⟨hne, haddr, hsize, hrest⟩ := hafter
    have hsep := (separated_append.mp hp.separated).2.1
    exact .inr ⟨q, rest, rfl, hne, haddr, hsize, hrest, (separated_cons.mp hsep).2.2⟩

theorem Place.gap_above (hgap : ¬ (c ≠ 0 ∧ r.stop = c.toNat)) (q : Region) (hq : q ∈ above) :
    r.stop < q.addr := by
  obtain ⟨-, rfl⟩ | ⟨q', _, rfl, hne, haddr, -, -, hrest⟩ := hp.next_cases
  · cases hq
  · have hlt : r.stop < q'.addr := by
      refine lt_of_le_of_ne (hp.le_addr q' mem_cons_self) fun heq => ?_
      exact hgap ⟨hne, heq.trans haddr.symm⟩
    obtain rfl | hq := List.mem_cons.mp hq
    · exact hlt
    · have := hrest q hq
      have hstop : q'.stop = q'.addr + q'.size := rfl
      omega

/-- **`add_free_region`** without a neighbour before: the region becomes a node. -/
theorem Place.linkIn (haddr : addr.toNat = r.addr)
    (hsize : size.toNat = r.size) (hgap : ∀ p ∈ below, p.stop < r.addr) :
    ∃ l', Added h (below ++ above) r
      (if c ≠ 0 ∧ addr + size = c then
        ((h.setSize addr (size + (h.size c))).setNext addr
          ((h.setSize addr (size + (h.size c))).next c)).store (linkOf (lastNode 0 below)) addr
      else
        ((h.setSize addr size).setNext addr c).store (linkOf (lastNode 0 below)) addr) l' := by
  obtain ⟨_, hrstop⟩ := hp.region_bounds
  have hstop : r.stop = r.addr + r.size := rfl
  have hlarge := hp.large
  split_ifs with hnext
  · rw [add_eq_iff haddr hsize hrstop] at hnext
    obtain ⟨hne, _⟩ := hnext
    obtain ⟨hzero, -⟩ | ⟨q, _, rfl, -, hcq, hcsize, hcrest, hqrest⟩ := hp.next_cases
    · exact absurd hzero hne
    have hqb := hp.above_bounds q mem_cons_self
    have hqstop : q.stop = q.addr + q.size := rfl
    have hqlarge := hp.separated.large q (mem_append_right _ mem_cons_self)
    have hkeep : (h.setSize addr (size + h.size c)).next c = h.next c := by
      refine (readWord_header hcq hqlarge hqb.2 fun x hx => ?_).2
      have hxq : q.addr ≤ x.toNat := hx.1
      exact setSize_mem (by omega) (by omega)
    rw [hkeep]
    have hw : (size + h.size c).toNat = r.size + q.size := by
      rw [toNat_add, hsize, hcsize]
      exact Nat.mod_eq_of_lt (by omega)
    refine ⟨_, hp.insert (n := ⟨r.addr, r.size + q.size⟩) haddr rfl (Nat.le_add_right _ _) hw
      hcrest ⟨[q], rfl⟩ ?_ hgap ?_⟩
    · have hq : q = ⟨r.addr + r.size, q.size⟩ := Region.ext (by dsimp only; omega) rfl
      rw [bytes_append, covered_cons, ← hq, Set.union_assoc]
    · intro x hx
      have := hqrest x hx
      show r.addr + (r.size + q.size) < x.addr
      omega
  · rw [add_eq_iff haddr hsize hrstop] at hnext
    exact ⟨_, hp.insert haddr rfl le_rfl hsize hp.after List.suffix_rfl rfl hgap
      (hp.gap_above hnext)⟩

end

/-- **`add_free_region`** with a neighbour before, which takes the region in. -/
theorem Place.takeIn (hp : Place h r (b ++ [p]) above c) (ha : a.toNat = p.addr)
    (hb : Chain h.mem h.head b a) (hne : a ≠ 0) (hasize : (h.size a).toNat = p.size)
    (hanext : h.next a = c) (hsize : size.toNat = r.size) (hadj : p.stop = r.addr) :
    ∃ l', Added h (b ++ [p] ++ above) r
      (if c ≠ 0 ∧ a + (h.size a + size) = c then
        ((h.setSize a (h.size a + size)).setSize a (h.size a + size +
          (h.setSize a (h.size a + size)).size c)).setNext a
            (((h.setSize a (h.size a + size)).setSize a (h.size a + size +
              (h.setSize a (h.size a + size)).size c)).next c)
      else h.setSize a (h.size a + size)) l' := by
  obtain ⟨_, _⟩ := hp.region_bounds
  have hplarge := hp.separated.large p
    (mem_append_left _ (mem_append_right _ (mem_singleton_self p)))
  have hstop : r.stop = r.addr + r.size := rfl
  have hpstop : p.stop = p.addr + p.size := rfl
  have ha16 : a.toNat + 16 ≤ 2 ^ 64 := by omega
  have hsum : (h.size a + size).toNat = p.size + r.size := by
    rw [toNat_add, hasize, hsize]
    exact Nat.mod_eq_of_lt (by omega)
  have hjoin : a + (h.size a + size) = c ↔ r.stop = c.toNat := by
    have hn : (⟨p.addr, p.size + r.size⟩ : Region).stop = r.stop := by
      show p.addr + (p.size + r.size) = r.stop
      omega
    rw [add_eq_iff (r := ⟨p.addr, p.size + r.size⟩) ha hsum (by omega), hn]
  have hoff {x : UInt64} (hx : x.toNat ∉ p.bytes) :
      ¬ (a.toNat ≤ x.toNat ∧ x.toNat < a.toNat + 16) := fun _ =>
    hx (mem_bytes.mpr ⟨by omega, by omega⟩)
  have hpr : r = ⟨p.addr + p.size, r.size⟩ := Region.ext (by dsimp only; omega) rfl
  split_ifs with hnext
  · rw [hjoin] at hnext
    obtain ⟨hcne, _⟩ := hnext
    obtain ⟨hzero, -⟩ | ⟨q, _, rfl, -, hcq, hcsize, hcrest, hqrest⟩ := hp.next_cases
    · exact absurd hzero hcne
    have hqb := hp.above_bounds q mem_cons_self
    have hqstop : q.stop = q.addr + q.size := rfl
    have hqlarge := hp.separated.large q (mem_append_right _ mem_cons_self)
    -- the header of the next node is not touched
    have hkeep (w : UInt64) (k : LockedHeap) : (k.setSize a w).size c = k.size c ∧
        (k.setSize a w).next c = k.next c := by
      refine readWord_header hcq hqlarge hqb.2 fun x hx => setSize_mem ha16 ?_
      have hxq : q.addr ≤ x.toNat := hx.1
      omega
    rw [(hkeep _ _).1, (hkeep _ _).2, (hkeep _ _).2]
    refine ⟨_, hp.extend (n := ⟨p.addr, p.size + r.size + q.size⟩) ha hb hne rfl (by simp; omega)
      ?_ rfl rfl ?_ ?_ ⟨[q], rfl⟩ ?_ ?_⟩
    · intro x hx
      rw [setNext_mem ha16 (hoff hx), setSize_mem ha16 (hoff hx), setSize_mem ha16 (hoff hx)]
    · rw [setNext_size ha16, setSize_size, toNat_add, hsum, hcsize]
      exact Nat.mod_eq_of_lt (by omega)
    · rw [setNext_next]
      exact hcrest
    · have hq : q = ⟨p.addr + (p.size + r.size), q.size⟩ :=
        Region.ext (by dsimp only; omega) rfl
      rw [bytes_append, bytes_append, covered_cons, ← hq, ← hpr, Set.union_assoc]
    · intro x hx
      have := hqrest x hx
      show p.addr + (p.size + r.size + q.size) < x.addr
      omega
  · rw [hjoin] at hnext
    refine ⟨_, hp.extend (n := ⟨p.addr, p.size + r.size⟩) ha hb hne rfl (Nat.le_add_right _ _)
      ?_ rfl rfl ?_ ?_ List.suffix_rfl ?_ ?_⟩
    · intro x hx
      exact setSize_mem ha16 (hoff hx)
    · rw [setSize_size, hsum]
    · rw [setSize_next ha16, hanext]
      exact hp.after
    · rw [bytes_append, ← hpr]
    · intro x hx
      have := hp.gap_above hnext x hx
      show p.addr + (p.size + r.size) < x.addr
      omega

/-- **`add_free_region`** adds the region to what the list covers. -/
theorem Tracks.addFreeRegion (ht : Tracks h l) (hlarge : 16 ≤ size.toNat)
    (hbounds : (⟨addr.toNat, size.toNat⟩ : Region).bytes ⊆ Set.Ioo 0 (2 ^ 64 - 1))
    (hdisj : Disjoint (⟨addr.toNat, size.toNat⟩ : Region).bytes (covered l)) :
    ∃ h' l', h.addFreeRegion addr size = some h' ∧ Added h l ⟨addr.toNat, size.toNat⟩ h' l' := by
  obtain ⟨below, _, c, rfl, hp, hseek⟩ := ht.exists_place rfl hlarge hbounds hdisj
  have hsmall : ¬ size < nodeBytes := by
    rw [lt_iff_toNat_lt]
    exact not_lt.mpr hlarge
  unfold LockedHeap.addFreeRegion
  rw [if_neg hsmall, hseek]
  simp only [bind_eq_bind, bind_some, Option.pure_def, setSize_size]
  obtain rfl | ⟨b, p, rfl⟩ := List.eq_nil_or_concat below
  · obtain ⟨l', hadded⟩ := hp.linkIn rfl rfl nofun
    rw [if_neg fun hprev => hprev.1 rfl, ← apply_ite some]
    exact ⟨_, l', rfl, hadded⟩
  · rw [List.concat_eq_append] at *
    obtain ⟨a, hb, hne, ha, hasize, hanext⟩ := chain_append.mp hp.before
    have hlast : lastNode 0 (b ++ [p]) = a := lastNode_concat ha
    have hpb := hp.below_bounds p (mem_append_right _ (mem_singleton_self p))
    have hcond : (lastNode 0 (b ++ [p]) ≠ 0 ∧ lastNode 0 (b ++ [p]) +
        h.size (lastNode 0 (b ++ [p])) = addr) ↔ p.stop = addr.toNat := by
      rw [hlast]
      exact (and_iff_right hne).trans (add_eq_iff ha hasize hpb.2)
    by_cases hadj : p.stop = addr.toNat
    · obtain ⟨l', hadded⟩ := hp.takeIn ha hb hne hasize hanext rfl hadj
      rw [if_pos (hcond.mpr hadj), hlast, ← apply_ite some]
      exact ⟨_, l', rfl, hadded⟩
    · have hgap (x : Region) (hx : x ∈ b ++ [p]) : x.stop < addr.toNat := by
        refine lt_of_le_of_ne (hp.stop_le x hx) fun heq => hadj ?_
        obtain hx | hx := List.mem_append.mp hx
        · have hlast := (separated_append.mp (separated_append.mp hp.separated).1).2.2 x hx p
            (mem_singleton_self p)
          have hple := hp.stop_le p (mem_append_right _ (mem_singleton_self p))
          have hpstop : p.stop = p.addr + p.size := rfl
          dsimp only at heq hple
          omega
        · rw [← List.mem_singleton.mp hx]
          exact heq
      obtain ⟨l', hadded⟩ := hp.linkIn rfl rfl hgap
      rw [if_neg fun hprev => hadj (hcond.mp hprev), ← apply_ite some]
      exact ⟨_, l', rfl, hadded⟩

theorem Tracks.unlink (ht : Tracks h (below ++ q :: rest)) (hbefore : Chain h.mem h.head below c)
    (hafter : Chain h.mem (h.next c) rest 0) :
    Tracks (h.store (linkOf (lastNode 0 below)) (h.next c)) (below ++ rest) ∧
      (h.store (linkOf (lastNode 0 below)) (h.next c)).heapEnd = h.heapEnd ∧
      ∀ x : UInt64, x.toNat ∉ covered below →
        (h.store (linkOf (lastNode 0 below)) (h.next c)).mem x = h.mem x := by
  obtain ⟨hsepb, hsepq, hbetween⟩ := separated_append.mp ht.separated
  obtain ⟨-, hseprest, -⟩ := separated_cons.mp hsepq
  obtain ⟨hlink, hend, hkeep⟩ := store_link (n := h.next c) hbefore hsepb
    fun x hx => (ht.mem_bounds (mem_append_left _ hx)).2
  have hlt (x : Region) (hx : x ∈ below) (y : Region) (hy : y ∈ rest) : x.stop < y.addr :=
    hbetween x hx y (mem_cons_of_mem _ hy)
  refine ⟨⟨chain_append.mpr ⟨_, hlink, ?_⟩, separated_append.mpr ⟨hsepb, hseprest, hlt⟩, ?_⟩,
    hend, hkeep⟩
  · refine hafter.congr hseprest.large (fun y hy => ?_) fun x hx => hkeep x ?_
    · exact (ht.mem_bounds (mem_append_right _ (mem_cons_of_mem _ hy))).2.2
    · obtain ⟨y, hy, hxy⟩ := hx
      rintro ⟨z, hz, hxz⟩
      exact Set.disjoint_left.mp (disjoint_of_le (hlt z hz y hy).le) hxz hxy
  · refine Set.Subset.trans ?_ ht.bounds
    rw [covered_append, covered_append, covered_cons]
    exact Set.union_subset_union_right _ Set.subset_union_right

/-! ## `find_and_remove` -/

/-- At most `n` pieces that are too small for a header. -/
def Scraps (n : Nat) (d : List Region) : Prop := d.length ≤ n ∧ ∀ x ∈ d, x.size < 16

theorem Scraps.append {m n : Nat} {d d' : List Region} (h : Scraps m d) (h' : Scraps n d') :
    Scraps (m + n) (d ++ d') := by
  refine ⟨?_, fun x hx => (List.mem_append.mp hx).elim (h.2 x) (h'.2 x)⟩
  rw [List.length_append]
  exact Nat.add_le_add h.1 h'.1

/-- `h'` has at most the region `r` more on its list. -/
structure Padded (h : LockedHeap) (l : List Region) (r : Region) (h' : LockedHeap)
    (l' : List Region) : Prop where
  tracks : Tracks h' l'
  covered_subset : covered l' ⊆ covered l ∪ r.bytes
  heapEnd : h'.heapEnd = h.heapEnd
  frame : ∀ x : UInt64, x.toNat ∉ covered l ∪ r.bytes → h'.mem x = h.mem x
  dropped : ∃ d, Scraps 1 d ∧ covered l ∪ r.bytes ⊆ covered l' ∪ covered d

theorem Tracks.addPad (ht : Tracks h l)
    (hbounds : (⟨addr.toNat, size.toNat⟩ : Region).bytes ⊆ Set.Ioo 0 (2 ^ 64 - 1))
    (hdisj : Disjoint (⟨addr.toNat, size.toNat⟩ : Region).bytes (covered l)) :
    ∃ h' l', h.addPad addr size = some h' ∧ Padded h l ⟨addr.toNat, size.toNat⟩ h' l' := by
  have hsame (hsmall : size.toNat < 16) : Padded h l ⟨addr.toNat, size.toNat⟩ h l := by
    refine ⟨ht, Set.subset_union_left, rfl, fun _ _ => rfl, [⟨addr.toNat, size.toNat⟩],
      ⟨le_rfl, ?_⟩, ?_⟩
    · exact List.forall_mem_singleton.mpr hsmall
    · rw [covered_cons, covered_nil, Set.union_empty]
  unfold LockedHeap.addPad
  split_ifs with hpos
  · by_cases hlarge : 16 ≤ size.toNat
    · obtain ⟨h', l', hadd, hadded⟩ := ht.addFreeRegion hlarge hbounds hdisj
      refine ⟨h', l', hadd, hadded.tracks, hadded.covered_eq.le, hadded.heapEnd, hadded.frame, [],
        ⟨Nat.zero_le _, nofun⟩, ?_⟩
      rw [hadded.covered_eq]
      exact Set.subset_union_left
    · have hsmall : size < nodeBytes := lt_iff_toNat_lt.mpr (not_le.mp hlarge)
      exact ⟨h, l, if_pos hsmall, hsame (not_le.mp hlarge)⟩
  · have hzero : size.toNat = 0 := Nat.eq_zero_of_not_pos (lt_iff_toNat_lt.not.mp hpos)
    exact ⟨h, l, rfl, hsame (by omega)⟩

theorem toNat_mask (halign : align.toNat = 2 ^ k) : (align - 1).toNat = 2 ^ k - 1 := by
  rw [toNat_sub_of_le, halign]
  · rfl
  · rw [le_iff_toNat_le, halign]
    exact Nat.one_le_two_pow

theorem toNat_and_not_mask (hk : k < 64) (halign : align.toNat = 2 ^ k) :
    (x &&& ~~~(align - 1)).toNat = x.toNat / 2 ^ k * 2 ^ k := by
  have hpow : 2 ^ (64 - k) * 2 ^ k = 2 ^ 64 := by
    rw [← pow_add]
    congr 1
    omega
  have hmask : (~~~(align - 1)).toNat = (2 ^ (64 - k) - 1) <<< k := by
    rw [UInt64.toNat_not, toNat_mask halign, Nat.shiftLeft_eq, Nat.sub_mul, hpow, one_mul]
    have := Nat.one_le_two_pow (n := k)
    show 2 ^ 64 - 1 - (2 ^ k - 1) = 2 ^ 64 - 2 ^ k
    omega
  have hlt : x.toNat / 2 ^ k < 2 ^ (64 - k) := by
    rw [Nat.div_lt_iff_lt_mul (Nat.two_pow_pos k), hpow]
    exact x.toNat_lt
  rw [Packed.toNat_and_field hmask, Nat.mod_eq_of_lt hlt]

theorem toNat_alignUp (hk : k < 64) (halign : align.toNat = 2 ^ k) :
    (alignUp addr align).toNat = (addr.toNat + 2 ^ k - 1) % 2 ^ 64 / 2 ^ k * 2 ^ k := by
  rw [alignUp, toNat_and_not_mask hk halign, add_sub_assoc, toNat_add, toNat_mask halign,
    Nat.add_sub_assoc Nat.one_le_two_pow]

theorem alignUp_spec (hk : k < 64) (halign : align.toNat = 2 ^ k)
    (haddr : addr.toNat + 2 ^ k ≤ 2 ^ 64) :
    2 ^ k ∣ (alignUp addr align).toNat ∧ addr.toNat ≤ (alignUp addr align).toNat ∧
      (alignUp addr align).toNat < addr.toNat + 2 ^ k := by
  have hpos : 0 < 2 ^ k := Nat.two_pow_pos k
  rw [toNat_alignUp hk halign, Nat.mod_eq_of_lt (by omega)]
  refine ⟨Dvd.intro_left _ rfl, ?_, ?_⟩
  · have := Nat.lt_div_mul_add (a := addr.toNat + 2 ^ k - 1) hpos
    omega
  · have := Nat.div_mul_le_self (addr.toNat + 2 ^ k - 1) (2 ^ k)
    omega

/-- `h'` has the block `r` taken out of its list. -/
structure Taken (h : LockedHeap) (l : List Region) (r : Region) (h' : LockedHeap)
    (l' : List Region) : Prop where
  tracks : Tracks h' l'
  block : r.bytes ⊆ covered l
  covered_subset : covered l' ⊆ covered l \ r.bytes
  heapEnd : h'.heapEnd = h.heapEnd
  frame : ∀ x : UInt64, x.toNat ∉ covered l → h'.mem x = h.mem x
  dropped : ∃ d, Scraps 2 d ∧ covered l ⊆ covered l' ∪ r.bytes ∪ covered d

theorem Tracks.cut {q : Region} {rest : List Region} {c start : UInt64}
    (ht : Tracks h (below ++ q :: rest)) (hbefore : Chain h.mem h.head below c)
    (hafter : Chain h.mem (h.next c) rest 0) (hc : c.toNat = q.addr)
    (hnode : (c + h.size c).toNat = q.stop) (hstart : q.addr ≤ start.toNat)
    (hend : (start + size).toNat = start.toNat + size.toNat)
    (hfit : start.toNat + size.toNat ≤ q.stop) :
    ∃ h1 h2 l', (h.store (linkOf (lastNode 0 below)) (h.next c)).addPad c (start - c) = some h1 ∧
      h1.addPad (start + size) (c + h.size c - (start + size)) = some h2 ∧
      Taken h (below ++ q :: rest) ⟨start.toNat, size.toNat⟩ h2 l' := by
  obtain ⟨ht0, hend0, hframe0⟩ := ht.unlink hbefore hafter
  have hqsub : q.bytes ⊆ covered (below ++ q :: rest) :=
    bytes_subset_covered (mem_append_right _ mem_cons_self)
  have hqdisj := ht.separated.disjoint_others
  have hfront : (start - c).toNat = start.toNat - q.addr := by
    rw [toNat_sub_of_le, hc]
    rw [le_iff_toNat_le, hc]
    exact hstart
  have hback : (c + h.size c - (start + size)).toNat = q.stop - (start.toNat + size.toNat) := by
    rw [toNat_sub_of_le, hnode, hend]
    rw [le_iff_toNat_le, hnode, hend]
    exact hfit
  have hparts (x : Nat) : (x ∈ (⟨c.toNat, (start - c).toNat⟩ : Region).bytes ↔
        q.addr ≤ x ∧ x < start.toNat) ∧
      (x ∈ (⟨(start + size).toNat, (c + h.size c - (start + size)).toNat⟩ : Region).bytes ↔
        start.toNat + size.toNat ≤ x ∧ x < q.stop) := by
    simp only [mem_bytes, stop, hc, hfront, hend, hback]
    omega
  have hfsub : (⟨c.toNat, (start - c).toNat⟩ : Region).bytes ⊆ q.bytes := fun x hx => by
    rw [(hparts x).1] at hx
    exact mem_bytes.mpr (by omega)
  have hbsub : (⟨(start + size).toNat, (c + h.size c - (start + size)).toNat⟩ : Region).bytes ⊆
      q.bytes := fun x hx => by
    rw [(hparts x).2] at hx
    exact mem_bytes.mpr (by omega)
  obtain ⟨h1, l1, hadd1, hp1⟩ := ht0.addPad (hfsub.trans (hqsub.trans ht.bounds))
    (hqdisj.mono_left hfsub)
  have hdisj2 : Disjoint (⟨(start + size).toNat, (c + h.size c - (start + size)).toNat⟩ :
      Region).bytes (covered l1) := by
    refine Disjoint.mono_right hp1.covered_subset (Set.disjoint_union_right.mpr
      ⟨hqdisj.mono_left hbsub, Set.disjoint_left.mpr fun x hxb hxf => ?_⟩)
    rw [(hparts x).2] at hxb
    rw [(hparts x).1] at hxf
    omega
  obtain ⟨h2, l2, hadd2, hp2⟩ := hp1.tracks.addPad (hbsub.trans (hqsub.trans ht.bounds)) hdisj2
  have hblock : (⟨start.toNat, size.toNat⟩ : Region).bytes ⊆ q.bytes := fun x hx =>
    ⟨hstart.trans hx.1, lt_of_lt_of_le hx.2 hfit⟩
  refine ⟨h1, h2, l2, hadd1, hadd2, hp2.tracks, hblock.trans hqsub, ?_, ?_, ?_, ?_⟩
  · intro x hx
    rw [covered_mid]
    obtain hx | hx := hp2.covered_subset hx
    · obtain hx | hx := hp1.covered_subset hx
      · exact ⟨.inl hx, fun hxb => Set.disjoint_left.mp hqdisj (hblock hxb) hx⟩
      · refine ⟨.inr (hfsub hx), fun hxb => ?_⟩
        exact absurd hxb.1 (not_le.mpr ((hparts x).1.mp hx).2)
    · refine ⟨.inr (hbsub hx), fun hxb => ?_⟩
      exact absurd hxb.2 (not_lt.mpr ((hparts x).2.mp hx).1)
  · rw [hp2.heapEnd, hp1.heapEnd, hend0]
  · intro x hx
    rw [covered_mid] at hx
    have hoff1 : x.toNat ∉ covered (below ++ rest) ∪
        (⟨c.toNat, (start - c).toNat⟩ : Region).bytes :=
      fun hin => hx (Set.union_subset_union_right _ hfsub hin)
    rw [hp2.frame x fun hin => hx ?_, hp1.frame x hoff1, hframe0 x fun hin => hx ?_]
    · rw [covered_append]
      exact .inl (.inl hin)
    · obtain hin | hin := hin
      · exact Set.union_subset_union_right _ hfsub (hp1.covered_subset hin)
      · exact .inr (hbsub hin)
  · obtain ⟨d1, hscraps1, hcov1⟩ := hp1.dropped
    obtain ⟨d2, hscraps2, hcov2⟩ := hp2.dropped
    refine ⟨d1 ++ d2, hscraps1.append hscraps2, fun x hx => ?_⟩
    -- every byte was beside the node, in front of the block, in it or behind it
    rw [covered_mid] at hx
    have hcov1 := @hcov1 x
    have hcov2 := @hcov2 x
    simp only [Set.mem_union, (hparts x).1, (hparts x).2, covered_append] at hx hcov1 hcov2 ⊢
    by_cases hlow : x < start.toNat
    · have hfront : x ∈ q.bytes → q.addr ≤ x ∧ x < start.toNat := fun hx => ⟨hx.1, hlow⟩
      grind
    · by_cases hin : x < start.toNat + size.toNat
      · exact .inl (.inr ⟨not_lt.mp hlow, hin⟩)
      · have hback : x ∈ q.bytes → start.toNat + size.toNat ≤ x ∧ x < q.stop :=
          fun hx => ⟨not_lt.mp hin, hx.2⟩
        grind

/-- The test of the loop, on a node. -/
def Fits (size align : UInt64) (r : Region) : Prop :=
  alignUp (.ofNat r.addr) align + size ≤ .ofNat r.addr + .ofNat r.size

/-- What the loop does with a node that passes the test. -/
def take (h : LockedHeap) (size align : UInt64) (link : Link) (c : UInt64) :
    Option (Option UInt64 × LockedHeap) := do
  let h₁ ← (h.store link (h.next c)).addPad c (alignUp c align - c)
  let h₂ ← h₁.addPad (alignUp c align + size) (c + h.size c - (alignUp c align + size))
  return (some (alignUp c align), h₂)

theorem fits_iff_size {q : Region} {c : UInt64} (hc : c.toNat = q.addr)
    (hsize : (h.size c).toNat = q.size) :
    Fits size align q ↔ alignUp c align + size ≤ c + h.size c := by
  rw [Fits, ← hc, ← hsize, ofNat_toNat, ofNat_toNat]

theorem findFrom_cases {fuel : Nat} {c : UInt64} {rest : List Region}
    (hbefore : Chain h.mem h.head below c) (hafter : Chain h.mem c rest 0)
    (hfuel : rest.length < fuel) :
    (h.findFrom size align fuel (linkOf (lastNode 0 below)) c = some (none, h) ∧
        ∀ r ∈ rest, ¬ Fits size align r) ∨
      ∃ mid q rest' c', rest = mid ++ q :: rest' ∧ Chain h.mem h.head (below ++ mid) c' ∧
        Chain h.mem c' (q :: rest') 0 ∧ Fits size align q ∧
        h.findFrom size align fuel (linkOf (lastNode 0 below)) c =
          h.take size align (linkOf (lastNode 0 (below ++ mid))) c' := by
  induction rest generalizing below c fuel with
  | nil =>
    obtain ⟨fuel, rfl⟩ := Nat.exists_eq_add_one_of_ne_zero (Nat.ne_of_gt hfuel)
    obtain rfl : c = 0 := hafter
    rw [LockedHeap.findFrom, if_pos rfl]
    exact .inl ⟨rfl, List.forall_mem_nil _⟩
  | cons q rest ih =>
    obtain ⟨fuel, rfl⟩ :=
      Nat.exists_eq_add_one_of_ne_zero (Nat.ne_of_gt (Nat.zero_lt_of_lt hfuel))
    obtain ⟨hne, hc, hcsize, hcrest⟩ := id hafter
    have hnode : Fits size align q ↔ _ := fits_iff_size hc hcsize
    rw [LockedHeap.findFrom, if_neg hne]
    by_cases hfit : Fits size align q
    · rw [if_pos (hnode.mp hfit)]
      refine .inr ⟨[], q, rest, c, rfl, ?_, hafter, hfit, ?_⟩
      · rwa [List.append_nil]
      · rw [List.append_nil]
        rfl
    · have hlast : linkOf (lastNode 0 (below ++ [q])) = .next c := by
        rw [lastNode_concat hc, linkOf, if_neg hne]
      have hpassed : Chain h.mem h.head (below ++ [q]) (h.next c) :=
        chain_append.mpr ⟨c, hbefore, hne, hc, hcsize, rfl⟩
      rw [if_neg (hnode.not.mp hfit), ← hlast]
      obtain ⟨hfind, hnone⟩ | ⟨mid, q', rest', c', rfl, _⟩ :=
        ih hpassed hcrest (Nat.lt_of_succ_lt_succ hfuel)
      · exact .inl ⟨hfind, List.forall_mem_cons.mpr ⟨hfit, hnone⟩⟩
      · refine .inr ⟨q :: mid, q', rest', c', rfl, ?_⟩
        rwa [List.append_cons]

theorem Tracks.findAndRemove_cases (ht : Tracks h l) (size align : UInt64) :
    (h.findAndRemove size align = some (none, h) ∧ ∀ r ∈ l, ¬ Fits size align r) ∨
      ∃ below q rest c, l = below ++ q :: rest ∧ Chain h.mem h.head below c ∧
        Chain h.mem c (q :: rest) 0 ∧ Fits size align q ∧
        h.findAndRemove size align = h.take size align (linkOf (lastNode 0 below)) c :=
  findFrom_cases (show Chain h.mem h.head [] h.head from rfl) ht.chain
    (length_lt_fuel ht.separated fun _ hr => (ht.mem_bounds hr).2.2)

/-- **`find_and_remove`** takes an aligned block out of what the list covers. -/
theorem Tracks.findAndRemove (hk : k < 64) (halign : align.toNat = 2 ^ k) (ht : Tracks h l)
    (hroom : ∀ r ∈ l, r.stop + size.toNat + 2 ^ k ≤ 2 ^ 64) :
    h.findAndRemove size align = some (none, h) ∨
      ∃ start h' l', h.findAndRemove size align = some (some start, h') ∧ 2 ^ k ∣ start.toNat ∧
        Taken h l ⟨start.toNat, size.toNat⟩ h' l' := by
  obtain ⟨hfind, -⟩ | ⟨below, q, rest, c, rfl, hbefore, ⟨-, hc, hcsize, hcrest⟩, hfit, hfind⟩ :=
    ht.findAndRemove_cases size align
  · exact .inl hfind
  have hq : q ∈ below ++ q :: rest := mem_append_right _ mem_cons_self
  have hqstop : q.stop = q.addr + q.size := rfl
  have hroomq := hroom q hq
  have hbelow : c.toNat + 2 ^ k ≤ 2 ^ 64 := by omega
  obtain ⟨hdvd, hle, _⟩ := alignUp_spec hk halign hbelow
  have hend : (alignUp c align + size).toNat = (alignUp c align).toNat + size.toNat := by
    rw [toNat_add]
    exact Nat.mod_eq_of_lt (by omega)
  have hnode : (c + h.size c).toNat = q.stop :=
    toNat_add_of_stop hc hcsize (ht.mem_bounds hq).2.2
  rw [fits_iff_size hc hcsize, le_iff_toNat_le, hend, hnode] at hfit
  obtain ⟨_, h2, l', hadd1, hadd2, htaken⟩ :=
    ht.cut hbefore hcrest hc hnode (hc ▸ hle) hend hfit
  refine .inr ⟨alignUp c align, h2, l', ?_, hdvd, htaken⟩
  rw [hfind, take, hadd1, bind_eq_bind, bind_some, hadd2]
  rfl

end LockedHeap

end AgenticOS
