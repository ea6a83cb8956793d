import AgenticOS.Capability.Model

/-!
# Scanning a table for file capabilities

`find_file_capability` and `has_any_file_capability` walk the slots in order
and ask `resolve` about every slot whose capability looks right. They differ
only in which file objects they accept, so both are one scan. A slot that
looks right and does not resolve (its capability was revoked) costs a denial
record, and the scan goes on.

The scan hands `resolve` the slot's index as a `u32`. Up to `2^32` slots that
is the slot it looked at.
-/

namespace AgenticOS

open List
open UInt32 (ofNat)

namespace CapabilityTable

/-- The scan, from the slot with index `i` on. -/
def scanFrom (table : CapabilityTable) (wanted : KernelObjectKind → Bool)
    (required : Rights) : List (Option Capability) → Nat → Core → Option CapId × Core
  | [], _, k => (none, k)
  | none :: rest, i, k => table.scanFrom wanted required rest (i + 1) k
  | some cap :: rest, i, k =>
    if cap.rights.contains required && (k.objectKind cap.objectId).any wanted then
      match table.resolve (UInt32.ofNat i) required k with
      | (.ok _, k) => (some (UInt32.ofNat i), k)
      | (.error _, k) => table.scanFrom wanted required rest (i + 1) k
    else table.scanFrom wanted required rest (i + 1) k

end CapabilityTable

namespace KernelObjectKind

def isFile : KernelObjectKind → Bool
  | .fileObject _ => true
  | _ => false

def isFileOf (inode : UInt32) : KernelObjectKind → Bool
  | .fileObject objInode => objInode == inode
  | _ => false

end KernelObjectKind

namespace CapabilityTable

def findFileCapability (table : CapabilityTable) (inode : UInt32) (required : Rights)
    (k : Core) : Option CapId × Core :=
  table.scanFrom (·.isFileOf inode) required table.slots 0 k

def hasAnyFileCapability (table : CapabilityTable) (required : Rights) (k : Core) :
    Bool × Core :=
  let (found, k) := table.scanFrom (·.isFile) required table.slots 0 k
  (found.isSome, k)

/-! ## What the scan finds

The registry does not change while it runs, so each slot is judged in the
state the scan started from. -/

/-- What the scan is after: a capability on a live object of the wanted kind
that resolves. -/
def Holds (table : CapabilityTable) (wanted : KernelObjectKind → Bool)
    (required : Rights) (k : Core) : Prop :=
  ∃ c cap kind, (table.resolve c required k).1 = .ok cap ∧
    k.objectKind cap.objectId = some kind ∧ wanted kind = true

variable {table : CapabilityTable} {wanted : KernelObjectKind → Bool} {required : Rights}

/-- **One step of the scan.** It stops at a slot that looks right and
resolves; otherwise it goes on, having refused at most this slot. -/
theorem scanFrom_cons (table : CapabilityTable) (wanted : KernelObjectKind → Bool)
    (required : Rights) (slot : Option Capability) (rest : List (Option Capability))
    (i : Nat) (k : Core) :
    (∃ cap cap' kind, slot = some cap ∧ cap.rights.contains required = true ∧
        k.objectKind cap.objectId = some kind ∧ wanted kind = true ∧
        (table.resolve (ofNat i) required k).1 = .ok cap' ∧
        table.scanFrom wanted required (slot :: rest) i k = (some (ofNat i), k)) ∨
      ∃ ids, (∀ cap kind, slot = some cap → cap.rights.contains required = true →
          k.objectKind cap.objectId = some kind → wanted kind = true →
          ∃ e, (table.resolve (ofNat i) required k).1 = .error e) ∧
        table.scanFrom wanted required (slot :: rest) i k =
          table.scanFrom wanted required rest (i + 1) (k.deny ids) := by
  cases slot with
  | none => exact .inr ⟨[], nofun, rfl⟩
  | some cap =>
    by_cases hlooks :
        (cap.rights.contains required && (k.objectKind cap.objectId).any wanted) = true
    · have hboth := hlooks
      rw [Bool.and_eq_true, Option.any_eq_true] at hboth
      obtain ⟨hr, kind, hkind, hw⟩ := hboth
      obtain ⟨cap', h⟩ | ⟨e, h⟩ := table.resolve_cases (ofNat i) required k
      · refine .inl ⟨cap, cap', kind, rfl, hr, hkind, hw, by rw [h], ?_⟩
        rw [scanFrom, if_pos hlooks, h]
      · refine .inr ⟨[ofNat i], fun _ _ _ _ _ _ => ⟨e, by rw [h]⟩, ?_⟩
        rw [scanFrom, if_pos hlooks, h]
        rfl
    · refine .inr ⟨[], ?_, by rw [scanFrom, if_neg hlooks]; rfl⟩
      rintro _ kind ⟨⟩ hr hkind hw
      exact absurd (by simp [hr, hkind, hw]) hlooks

theorem scanFrom_deny (table : CapabilityTable) (wanted : KernelObjectKind → Bool)
    (required : Rights) (slots : List (Option Capability)) (i : Nat) (k : Core) :
    ∃ ids, (table.scanFrom wanted required slots i k).2 = k.deny ids := by
  induction slots generalizing i k with
  | nil => exact ⟨[], rfl⟩
  | cons slot rest ih =>
    obtain ⟨_, _, _, -, -, -, -, -, h⟩ | ⟨ids, -, h⟩ :=
      table.scanFrom_cons wanted required slot rest i k
    · exact ⟨[], by rw [h]; rfl⟩
    · obtain ⟨ids', h'⟩ := ih (i + 1) (k.deny ids)
      exact ⟨ids ++ ids', by rw [h, h', Core.deny_append]⟩

theorem scanFrom_congr {k k' : Core} (h : k.objects = k'.objects)
    (slots : List (Option Capability)) (i : Nat) :
    (table.scanFrom wanted required slots i k).1 =
      (table.scanFrom wanted required slots i k').1 := by
  induction slots generalizing i k k' with
  | nil => rfl
  | cons slot rest ih =>
    cases slot with
    | none => exact ih h (i + 1)
    | some =>
      unfold scanFrom
      rw [Core.objectKind_congr h]
      split_ifs with hlooks
      · obtain ⟨_, h1, h2⟩ | ⟨e, h1, h2⟩ :=
          table.resolve_pair (ofNat i) required h
        · rw [h1, h2]
        · rw [h1, h2]
          exact ih (by simpa using h) (i + 1)
      · exact ih h (i + 1)

theorem scanFrom_resolves {slots : List (Option Capability)} {i : Nat} {k : Core}
    {c : CapId} (h : (table.scanFrom wanted required slots i k).1 = some c) :
    ∃ cap, (table.resolve c required k).1 = .ok cap := by
  induction slots generalizing i k with
  | nil => cases h
  | cons slot rest ih =>
    obtain ⟨_, cap', _, -, -, -, -, hres, hs⟩ | ⟨ids, -, hs⟩ :=
      table.scanFrom_cons wanted required slot rest i k
    · rw [hs, Option.some.injEq] at h
      exact ⟨cap', h ▸ hres⟩
    · rw [hs] at h
      obtain ⟨cap, hcap⟩ := ih h
      exact ⟨cap, (resolve_congr _ _ _ (Core.deny_objects k ids)).symm.trans hcap⟩

/-- **The scan is exact** on a table whose indices fit the `u32` it resolves
with: it finds something iff there is something to find. -/
theorem scanFrom_isSome_iff (hsize : table.slots.length ≤ 2 ^ 32)
    (slots : List (Option Capability)) (i : Nat) (k : Core)
    (hslots : table.slots.drop i = slots) :
    (table.scanFrom wanted required slots i k).1.isSome = true ↔
      ∃ c cap kind, i ≤ c.toNat ∧ (table.resolve c required k).1 = .ok cap ∧
        k.objectKind cap.objectId = some kind ∧ wanted kind = true := by
  induction slots generalizing i k with
  | nil =>
    -- past the end no id names a slot
    have hlen : table.slots.length ≤ i := drop_eq_nil_iff.mp hslots
    refine ⟨by simp [scanFrom], ?_⟩
    rintro ⟨c, cap, kind, hi, hres, -, -⟩
    have hslot := (resolve_ok_iff.mp hres).1
    rw [slot?, List.getElem?_eq_none (hlen.trans hi)] at hslot
    cases hslot
  | cons slot rest ih =>
    have hi : i < table.slots.length := by
      by_contra hge
      rw [drop_eq_nil_of_le (Nat.le_of_not_lt hge)] at hslots
      cases hslots
    have hget : table.slots[i]? = some slot := by
      rw [← head?_drop, hslots, head?_cons]
    have hto : (ofNat i).toNat = i :=
      UInt32.toNat_ofNat_of_lt' (Nat.lt_of_lt_of_le hi hsize)
    have hslot : table.slot? (ofNat i) = slot := by
      rw [slot?, hto, hget, Option.join_some]
    have hdrop : table.slots.drop (i + 1) = rest := by
      rw [← tail_drop, hslots, tail_cons]
    obtain ⟨cap, cap', kind, rfl, hr, hkind, hw, hres, hs⟩ | ⟨ids, hmiss, hs⟩ :=
      table.scanFrom_cons wanted required slot rest i k
    · have hcap : cap' = cap :=
        Option.some.inj ((resolve_ok_iff.mp hres).1.symm.trans hslot)
      subst hcap
      rw [hs]
      exact ⟨fun _ => ⟨_, _, _, hto.ge, hres, hkind, hw⟩, fun _ => rfl⟩
    · have hobjects := Core.deny_objects k ids
      rw [hs, ih (i + 1) (k.deny ids) hdrop]
      constructor
      · rintro ⟨c, cap, kind, hc, hres, hkind, hw⟩
        rw [resolve_congr _ _ _ hobjects] at hres
        rw [Core.objectKind_congr hobjects] at hkind
        exact ⟨c, cap, kind, Nat.le_of_succ_le hc, hres, hkind, hw⟩
      · rintro ⟨c, cap, kind, hc, hres, hkind, hw⟩
        have hne : c.toNat ≠ i := by
          -- the slot just passed over would have resolved
          intro heq
          have hceq : c = ofNat i := UInt32.toNat_inj.mp (heq.trans hto.symm)
          obtain ⟨hsl, -, hr⟩ := resolve_ok_iff.mp hres
          rw [hceq, hslot] at hsl
          obtain ⟨e, he⟩ := hmiss cap kind hsl hr hkind hw
          rw [hceq, he] at hres
          cases hres
        rw [← resolve_congr _ _ _ hobjects] at hres
        rw [← Core.objectKind_congr hobjects] at hkind
        exact ⟨c, cap, kind, by omega, hres, hkind, hw⟩

theorem scan_isSome_iff (hsize : table.slots.length ≤ 2 ^ 32) (k : Core) :
    (table.scanFrom wanted required table.slots 0 k).1.isSome = true ↔
      table.Holds wanted required k := by
  rw [scanFrom_isSome_iff hsize table.slots 0 k drop_zero]
  simp [Holds]

end CapabilityTable

end AgenticOS
