import AgenticOS.Audit

/-!
# The capability substrate

The registry of kernel objects and the per-process capability tables of
`capability.rs`. State is passed explicitly: `Core` is what every operation of
the file can touch (the object registry, the audit log, and the running
thread that `audit::record` names). A `Vec` is a list, an index of type `u32`
is a `UInt32` whose `toNat` indexes it, and `len as u32` is `UInt32.ofNat`.
Generations are `UInt64`, and `generation += 1` wraps as in the release build
that is shipped.
-/

namespace AgenticOS

/-! ## Rights -/

structure Rights where
  bits : UInt32
  deriving DecidableEq, Repr

namespace Rights

def none : Rights := ⟨0⟩
def send : Rights := ⟨(1 : UInt32) <<< 0⟩
def receive : Rights := ⟨(1 : UInt32) <<< 1⟩
def grant : Rights := ⟨(1 : UInt32) <<< 2⟩
def revoke : Rights := ⟨(1 : UInt32) <<< 3⟩
def map : Rights := ⟨(1 : UInt32) <<< 4⟩
def wait : Rights := ⟨(1 : UInt32) <<< 5⟩
def portIo : Rights := ⟨(1 : UInt32) <<< 6⟩
def introspect : Rights := ⟨(1 : UInt32) <<< 7⟩
def auditQuery : Rights := ⟨(1 : UInt32) <<< 8⟩
def read : Rights := ⟨(1 : UInt32) <<< 9⟩
def write : Rights := ⟨(1 : UInt32) <<< 10⟩
def decrypt : Rights := ⟨(1 : UInt32) <<< 12⟩
def exec : Rights := ⟨(1 : UInt32) <<< 14⟩

def contains (self other : Rights) : Bool :=
  (self.bits &&& other.bits) == other.bits

def union (self other : Rights) : Rights := ⟨self.bits ||| other.bits⟩

def toSet (self : Rights) : Set Nat := {i | self.bits.toBitVec.getLsbD i = true}

theorem contains_iff_subset {a b : Rights} : a.contains b = true ↔ b.toSet ⊆ a.toSet := by
  rw [contains, beq_iff_eq, ← UInt32.toBitVec_inj, UInt32.toBitVec_and]
  constructor
  · intro h i hi
    have hi' : b.bits.toBitVec.getLsbD i = true := hi
    rw [← h, BitVec.getLsbD_and, Bool.and_eq_true] at hi'
    exact hi'.1
  · intro h
    refine BitVec.eq_of_getLsbD_eq fun i _ => ?_
    rw [BitVec.getLsbD_and, Bool.and_eq_right_iff_imp]
    exact fun hi => h hi

theorem toSet_union (a b : Rights) : (a.union b).toSet = a.toSet ∪ b.toSet := by
  ext i
  simp only [toSet, union, UInt32.toBitVec_or, BitVec.getLsbD_or, Bool.or_eq_true,
    Set.mem_ofPred_eq, Set.mem_union]

theorem contains_trans {a b c : Rights} (hab : a.contains b = true)
    (hbc : b.contains c = true) : a.contains c = true := by
  rw [contains_iff_subset] at *
  exact hbc.trans hab

theorem contains_union_iff {a b c : Rights} :
    a.contains (b.union c) = true ↔ a.contains b = true ∧ a.contains c = true := by
  simp only [contains_iff_subset, toSet_union, Set.union_subset_iff]

end Rights

/-! ## Objects and capabilities -/

inductive SocketProtocol where
  | udp
  | tcp
  deriving DecidableEq, Repr

abbrev Ipv4 := Vector UInt8 4

inductive KernelObjectKind where
  | ipcEndpoint
  | mmioRegion (physBase size : UInt64)
  | interruptLine (vector : UInt8)
  | portIoRange (base count : UInt16)
  | fileObject (inode : UInt32)
  | introspectionHandle
  | auditQueryHandle
  | socket (protocol : SocketProtocol) (localPort : UInt16) (remoteIp : Ipv4)
      (remotePort : UInt16)
  | surface (x y width height : UInt32)
  | userSession (uid : UInt32)
  | cryptoKey (keyId : UInt32)
  | dnsResolver (serverIp : Ipv4)
  | execHandle
  deriving DecidableEq, Repr

structure KernelObject where
  kind : KernelObjectKind
  generation : UInt64
  alive : Bool
  deriving DecidableEq, Repr

structure Capability where
  objectId : ObjectId
  rights : Rights
  generation : UInt64
  deriving DecidableEq, Repr

inductive CapError where
  | noSuchCapability
  | insufficientRights
  | revoked
  | attenuationViolation
  deriving DecidableEq, Repr

structure Core where
  objects : List KernelObject
  audit : AuditLog
  currentTid : ThreadId

namespace Core

def boot : Core := ⟨[], .empty, 0⟩

def record (k : Core) (event : AuditEvent) : Core :=
  { k with audit := k.audit.record k.currentTid event }

def createObject (k : Core) (kind : KernelObjectKind) : ObjectId × Core :=
  (UInt32.ofNat k.objects.length,
    { k with objects := k.objects ++ [⟨kind, 1, true⟩] })

def object? (k : Core) (objectId : ObjectId) : Option KernelObject :=
  k.objects[objectId.toNat]?

def objectKind (k : Core) (objectId : ObjectId) : Option KernelObjectKind :=
  ((k.object? objectId).filter (·.alive)).map (·.kind)

/-- The generation a capability has to carry in order to resolve. -/
def currentGen (k : Core) (objectId : ObjectId) : Option UInt64 :=
  ((k.object? objectId).filter (·.alive)).map (·.generation)

/-- The generation a new capability is minted with: 0 for an id that names no
object yet. -/
def mintGen (k : Core) (objectId : ObjectId) : UInt64 :=
  ((k.object? objectId).map (·.generation)).getD 0

def revoke (k : Core) (objectId : ObjectId) (destroy : Bool) : Core :=
  { k with
    objects := k.objects.modify objectId.toNat fun obj =>
      { obj with
        generation := obj.generation + 1
        alive := if destroy then false else obj.alive } }.record
    (.revoke objectId)

variable (k : Core) (e : AuditEvent)

@[simp] theorem record_objects : (k.record e).objects = k.objects := rfl

@[simp] theorem record_events :
    (k.record e).audit.events = k.audit.events ++ [e] :=
  AuditLog.events_record _ _ _

/-- The core after refusing each of these ids, and nothing else. -/
def deny (k : Core) (ids : List CapId) : Core :=
  ids.foldl (fun k c => k.record (.denied c)) k

theorem deny_append (cs ds : List CapId) : k.deny (cs ++ ds) = (k.deny cs).deny ds :=
  List.foldl_append

variable (ids : List CapId)

@[simp] theorem deny_objects : (k.deny ids).objects = k.objects := by
  induction ids generalizing k with
  | nil => rfl
  | cons c cs ih => exact ih (k.record (.denied c))

@[simp] theorem deny_currentTid : (k.deny ids).currentTid = k.currentTid := by
  induction ids generalizing k with
  | nil => rfl
  | cons c cs ih => exact ih (k.record (.denied c))

theorem deny_events : (k.deny ids).audit.events = k.audit.events ++ ids.map .denied := by
  induction ids generalizing k with
  | nil => simp [deny]
  | cons c cs ih =>
    have hrest := ih (k.record (.denied c))
    rw [record_events, List.append_assoc] at hrest
    exact hrest

variable {k' : Core} {k}

section

variable (h : k.objects = k'.objects)

include h

theorem object?_congr : k.object? = k'.object? := by
  funext o
  rw [object?, object?, h]

theorem objectKind_congr : k.objectKind = k'.objectKind := by
  funext o
  rw [objectKind, objectKind, object?_congr h]

theorem currentGen_congr : k.currentGen = k'.currentGen := by
  funext o
  rw [currentGen, currentGen, object?_congr h]

theorem mintGen_congr : k.mintGen = k'.mintGen := by
  funext o
  rw [mintGen, mintGen, object?_congr h]

end

variable {o : ObjectId}

theorem mintGen_of_currentGen {g : UInt64} (h : k.currentGen o = some g) : k.mintGen o = g := by
  rw [currentGen, Option.map_eq_some_iff] at h
  obtain ⟨_, hobj, rfl⟩ := h
  rw [mintGen, (Option.filter_eq_some_iff.mp hobj).1]
  rfl

variable (kind : KernelObjectKind)

theorem object?_createObject (o : ObjectId) : (k.createObject kind).2.object? o =
      if o.toNat = k.objects.length then some ⟨kind, 1, true⟩ else k.object? o := by
  simp only [createObject, object?]
  by_cases h : o.toNat = k.objects.length
  · rw [if_pos h, h, List.getElem?_concat_length]
  · rw [if_neg h, List.getElem?_append]
    split_ifs with hlt
    · rfl
    · have hout : ([⟨kind, 1, true⟩] : List KernelObject).length ≤ o.toNat - k.objects.length := by
        rw [List.length_singleton]
        omega
      rw [List.getElem?_eq_none hout, List.getElem?_eq_none (by omega)]

theorem object?_revoke (o o' : ObjectId) (destroy : Bool) :
    (k.revoke o destroy).object? o' = if o' = o then
        (k.object? o).map fun obj =>
          { obj with
            generation := obj.generation + 1
            alive := if destroy then false else obj.alive }
      else k.object? o' := by
  simp only [revoke, object?]
  by_cases h : o' = o
  · subst h
    simp
  · have hne : o.toNat ≠ o'.toNat := fun e => h (UInt32.toNat_inj.mp e.symm)
    simp [h, hne]

theorem mintGen_createObject (o : ObjectId) :
    (k.createObject kind).2.mintGen o = if o.toNat = k.objects.length then 1 else k.mintGen o := by
  rw [mintGen, object?_createObject]
  split_ifs <;> rfl

theorem currentGen_createObject (o : ObjectId) : (k.createObject kind).2.currentGen o =
      if o.toNat = k.objects.length then some 1 else k.currentGen o := by
  rw [currentGen, object?_createObject]
  split_ifs <;> rfl

theorem mintGen_eq_zero (h : k.objects.length ≤ o.toNat) : k.mintGen o = 0 := by
  rw [mintGen, object?, List.getElem?_eq_none h]
  rfl

theorem mintGen_revoke (o o' : ObjectId) (destroy : Bool) : (k.revoke o destroy).mintGen o' =
      if o' = o ∧ (k.object? o).isSome then k.mintGen o + 1 else k.mintGen o' := by
  rw [mintGen, object?_revoke]
  by_cases ho : o' = o
  · subst ho
    cases hobj : k.object? o' <;> simp [mintGen, hobj]
  · simp [ho, mintGen]

theorem currentGen_revoke (o o' : ObjectId) (destroy : Bool) : (k.revoke o destroy).currentGen o' =
      if o' = o then if destroy then none else (k.currentGen o).map (· + 1)
      else k.currentGen o' := by
  rw [currentGen, object?_revoke]
  by_cases ho : o' = o
  · subst ho
    cases hobj : k.object? o' with
    | none => simp [currentGen, hobj]
    | some obj => cases destroy <;> cases halive : obj.alive <;>
        simp [currentGen, hobj, Option.filter, halive]
  · simp [ho, currentGen]

end Core

/-! ## Capability tables -/

structure CapabilityTable where
  slots : List (Option Capability)
  deriving DecidableEq, Repr

namespace CapabilityTable

def new : CapabilityTable := ⟨[]⟩

def slot? (table : CapabilityTable) (capId : CapId) : Option Capability :=
  table.slots[capId.toNat]?.join

def push (table : CapabilityTable) (cap : Capability) : CapId × CapabilityTable :=
  (UInt32.ofNat table.slots.length, ⟨table.slots ++ [some cap]⟩)

def grant (table : CapabilityTable) (objectId : ObjectId) (rights : Rights)
    (k : Core) : CapId × CapabilityTable × Core :=
  let (id, table) := table.push ⟨objectId, rights, k.mintGen objectId⟩
  (id, table, k.record (.grant objectId rights.bits))

def resolve (table : CapabilityTable) (capId : CapId) (required : Rights)
    (k : Core) : Except CapError Capability × Core :=
  match table.slot? capId with
  | none => (.error .noSuchCapability, k.record (.denied capId))
  | some cap =>
    let result : Except CapError Capability :=
      if k.currentGen cap.objectId = some cap.generation then
        if cap.rights.contains required then .ok cap
        else .error .insufficientRights
      else .error .revoked
    match result with
    | .ok cap => (.ok cap, k)
    | .error e => (.error e, k.record (.denied capId))

/-- The push half of `derive`: the second of its two critical sections. -/
def derivePush (target : CapabilityTable) (source : Capability)
    (requested : Rights) (k : Core) : CapId × CapabilityTable × Core :=
  let (id, target) := target.push ⟨source.objectId, requested, source.generation⟩
  (id, target, k.record (.derive source.objectId requested.bits))

/-- The resolve half of `derive`: the capability to copy from, or the error. -/
def deriveSource (table : CapabilityTable) (sourceCapId : CapId)
    (requested : Rights) (k : Core) : Except CapError Capability × Core :=
  match table.resolve sourceCapId .grant k with
  | (.error e, k) => (.error e, k)
  | (.ok source, k) =>
    if !source.rights.contains requested then (.error .attenuationViolation, k)
    else (.ok source, k)

def derive (table : CapabilityTable) (sourceCapId : CapId) (requested : Rights)
    (target : CapabilityTable) (k : Core) :
    Except CapError CapId × CapabilityTable × Core :=
  match table.deriveSource sourceCapId requested k with
  | (.error e, k) => (.error e, target, k)
  | (.ok source, k) =>
    let (id, target, k) := target.derivePush source requested k
    (.ok id, target, k)

def deriveSelf (table : CapabilityTable) (sourceCapId : CapId)
    (requested : Rights) (k : Core) :
    Except CapError CapId × CapabilityTable × Core :=
  table.derive sourceCapId requested table k

/-! ### What the operations do to the slots -/

variable (table : CapabilityTable)

theorem slot?_push (cap : Capability) (c : CapId) : (table.push cap).2.slot? c =
      if c.toNat = table.slots.length then some cap else table.slot? c := by
  simp only [push, slot?]
  by_cases h : c.toNat = table.slots.length
  · rw [if_pos h, h, List.getElem?_concat_length]
    rfl
  · rw [if_neg h, List.getElem?_append]
    split_ifs with hlt
    · rfl
    · have hout : [some cap].length ≤ c.toNat - table.slots.length := by
        rw [List.length_singleton]
        omega
      rw [List.getElem?_eq_none hout, List.getElem?_eq_none (by omega)]

variable {table} {c : CapId} {r : Rights} {k : Core}

/-- **When a capability resolves.** The slot holds it, its generation is the
live object's, and its rights cover what is asked. -/
theorem resolve_ok_iff {cap : Capability} :
    (table.resolve c r k).1 = .ok cap ↔ table.slot? c = some cap ∧
      k.currentGen cap.objectId = some cap.generation ∧
      cap.rights.contains r = true := by
  rw [resolve]
  cases hslot : table.slot? c with
  | none => simp
  | some d =>
    by_cases hgen : k.currentGen d.objectId = some d.generation
    · by_cases hr : d.rights.contains r = true
      · simp only [hgen, hr, if_true, Except.ok.injEq, Option.some.injEq]
        constructor
        · rintro rfl
          exact ⟨rfl, hgen, hr⟩
        · exact And.left
      · simp only [hgen, hr, if_true, if_false, Option.some.injEq, reduceCtorEq,
          Bool.false_eq_true, false_iff]
        rintro ⟨rfl, -, h⟩
        exact hr h
    · simp only [hgen, if_false, Option.some.injEq, reduceCtorEq, false_iff]
      rintro ⟨rfl, h, -⟩
      exact hgen h

theorem resolve_of_ok {cap : Capability} (h : (table.resolve c r k).1 = .ok cap) :
    table.resolve c r k = (.ok cap, k) := by
  obtain ⟨hslot, hgen, hr⟩ := resolve_ok_iff.mp h
  simp [resolve, hslot, hgen, hr]

theorem resolve_of_error {e : CapError} (h : (table.resolve c r k).1 = .error e) :
    table.resolve c r k = (.error e, k.record (.denied c)) := by
  revert h
  rw [resolve]
  cases table.slot? c with
  | none => rintro ⟨⟩; rfl
  | some => grind

variable (table c)

theorem resolve_cases (r : Rights) (k : Core) : (∃ cap, table.resolve c r k = (.ok cap, k)) ∨
      ∃ e, table.resolve c r k = (.error e, k.record (.denied c)) := by
  cases h : (table.resolve c r k).1 with
  | ok cap => exact .inl ⟨cap, resolve_of_ok h⟩
  | error e => exact .inr ⟨e, resolve_of_error h⟩

variable {k' : Core}

theorem resolve_congr (r : Rights) (h : k.objects = k'.objects) :
    (table.resolve c r k).1 = (table.resolve c r k').1 := by
  rw [resolve, resolve, Core.currentGen_congr h]
  cases table.slot? c with
  | none => rfl
  | some => grind

theorem resolve_pair (r : Rights) (h : k.objects = k'.objects) :
    (∃ cap, table.resolve c r k = (.ok cap, k) ∧ table.resolve c r k' = (.ok cap, k')) ∨
      ∃ e, table.resolve c r k = (.error e, k.record (.denied c)) ∧
        table.resolve c r k' = (.error e, k'.record (.denied c)) := by
  have hsame := table.resolve_congr c r h
  cases hres : (table.resolve c r k').1 with
  | ok cap => exact .inl ⟨cap, resolve_of_ok (hsame.trans hres), resolve_of_ok hres⟩
  | error e => exact .inr ⟨e, resolve_of_error (hsame.trans hres), resolve_of_error hres⟩

@[simp] theorem resolve_objects (r : Rights)
    (k : Core) : (table.resolve c r k).2.objects = k.objects := by
  obtain ⟨_, h⟩ | ⟨e, h⟩ := table.resolve_cases c r k
  · rw [h]
  · rw [h]
    rfl

theorem deriveSource_cases (requested : Rights) (k : Core) :
    (∃ source, table.resolve c .grant k = (.ok source, k) ∧
        source.rights.contains requested = true ∧
        table.deriveSource c requested k = (.ok source, k)) ∨
      (∃ source, table.resolve c .grant k = (.ok source, k) ∧
        source.rights.contains requested = false ∧
        table.deriveSource c requested k = (.error .attenuationViolation, k)) ∨
      ∃ e, table.resolve c .grant k = (.error e, k.record (.denied c)) ∧
        table.deriveSource c requested k = (.error e, k.record (.denied c)) := by
  obtain ⟨source, h⟩ | ⟨e, h⟩ := table.resolve_cases c .grant k
  · by_cases hsub : source.rights.contains requested = true
    · exact .inl ⟨source, h, hsub, by simp [deriveSource, h, hsub]⟩
    · rw [Bool.not_eq_true] at hsub
      exact .inr (.inl ⟨source, h, hsub, by simp [deriveSource, h, hsub]⟩)
  · exact .inr (.inr ⟨e, h, by simp [deriveSource, h]⟩)

end CapabilityTable

end AgenticOS
