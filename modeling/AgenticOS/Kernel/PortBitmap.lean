import AgenticOS.Kernel.State
import AgenticOS.Memory.Bitmap
import AgenticOS.Memory.UserMappings

/-!
# I/O permission bitmaps

`kernel_rs/src/gdt.rs`: a bit that is clear allows ring 3 the port. The last byte is
all ones, as the CPU asks for, and no function touches it. `driver.rs` opens the ports
of a range to the running thread, against a capability on the range.
-/

namespace AgenticOS

def iopbBytes : Nat := iopbPorts / 8 + 1

abbrev Iopb := Nat → UInt8

namespace Iopb

def denyAll : Iopb := fun _ => 0xFF

def allowPortBits (bitmap : Iopb) (port : UInt16) : Iopb :=
  let p := port.toNat
  if iopbPorts ≤ p then bitmap
  else Function.update bitmap (p / 8) (bitmap (p / 8) &&& ~~~ Bitmap.mask p)

def denyPortBits (bitmap : Iopb) (port : UInt16) : Iopb :=
  let p := port.toNat
  if iopbPorts ≤ p then bitmap
  else Function.update bitmap (p / 8) (bitmap (p / 8) ||| Bitmap.mask p)

/-- What the CPU makes of a bitmap: past its end every port is denied. -/
def allows (bitmap : Iopb) (port : UInt16) : Bool :=
  decide (port.toNat / 8 < iopbBytes) && !(bitmap (port.toNat / 8) &&& Bitmap.mask port.toNat != 0)

@[simp] theorem allows_denyAll (port : UInt16) : denyAll.allows port = false := by
  have hbit : port.toNat % 8 < 8 := Nat.mod_lt _ (by decide)
  rw [allows, Bitmap.and_mask_ne_zero, denyAll]
  generalize port.toNat % 8 = k at hbit
  interval_cases k <;> exact Bool.and_false _

theorem allows_update {bitmap : Iopb} {port q : UInt16} {byte : UInt8} (value : Bool)
    (hbyte : ∀ k < 8, byte.toNat.testBit k =
      if k = port.toNat % 8 then !value else (bitmap (port.toNat / 8)).toNat.testBit k) :
    allows (if iopbPorts ≤ port.toNat then bitmap
        else Function.update bitmap (port.toNat / 8) byte) q =
      if q = port ∧ port.toNat < iopbPorts then value else bitmap.allows q := by
  by_cases hp : iopbPorts ≤ port.toNat
  · rw [if_pos hp, if_neg fun h => absurd h.2 (Nat.not_lt.mpr hp)]
  rw [if_neg hp]
  simp only [Nat.not_le.mp hp, and_true]
  unfold allows
  rw [Bitmap.and_mask_ne_zero, Bitmap.and_mask_ne_zero, Function.update_apply]
  by_cases hq : q = port
  · have hin : port.toNat / 8 < iopbBytes := by
      unfold iopbBytes
      omega
    rw [hq, if_pos rfl, hbyte _ (Nat.mod_lt _ (by decide))]
    simp [hin]
  · rw [if_neg hq]
    by_cases hsame : q.toNat / 8 = port.toNat / 8
    · have hbit : q.toNat % 8 ≠ port.toNat % 8 := fun h =>
        hq (UInt16.toNat_inj.mp (Bitmap.index_ext hsame h))
      rw [if_pos hsame, hbyte _ (Nat.mod_lt _ (by decide)), if_neg hbit, hsame]
    · rw [if_neg hsame]

theorem allows_allowPortBits (bitmap : Iopb) (port q : UInt16) :
    (bitmap.allowPortBits port).allows q =
      if q = port ∧ port.toNat < iopbPorts then true else bitmap.allows q := by
  refine allows_update true fun k hk => ?_
  rw [Bitmap.testBit_and_not_mask _ _ hk]
  by_cases hbit : k = port.toNat % 8 <;> simp [hbit]

theorem allows_denyPortBits (bitmap : Iopb) (port q : UInt16) :
    (bitmap.denyPortBits port).allows q =
      if q = port ∧ port.toNat < iopbPorts then false else bitmap.allows q := by
  refine allows_update false fun k _ => ?_
  rw [Bitmap.testBit_or_mask]
  by_cases hbit : k = port.toNat % 8 <;> simp [hbit]

theorem allows_foldl_allowPortBits (ports : List UInt16) (bitmap : Iopb) (q : UInt16) :
    allows (ports.foldl allowPortBits bitmap) q = true ↔
      bitmap.allows q = true ∨ (q ∈ ports ∧ q.toNat < iopbPorts) := by
  induction ports generalizing bitmap with
  | nil => simp
  | cons port ports ih =>
    rw [List.foldl_cons, ih, allows_allowPortBits, List.mem_cons]
    by_cases hq : q = port
    · subst hq
      by_cases hlt : q.toNat < iopbPorts
      · simp [hlt]
      · simp [hlt]
    · simp [hq]

end Iopb

namespace Driver

/-- The ports `base..base.saturating_add(count)`. -/
def portRange (base count : UInt16) : List UInt16 :=
  (List.range' base.toNat (min (base.toNat + count.toNat) 65535 - base.toNat)).map UInt16.ofNat

def createPortCapability (table : CapabilityTable) (base count : UInt16) (rights : Rights)
    (k : Core) : CapId × CapabilityTable × Core :=
  let (objectId, k) := k.createObject (.portIoRange base count)
  table.grant objectId rights k

/-- `grant_port_access` for a thread with this bitmap. -/
def grantPortAccess (table : CapabilityTable) (capId : CapId) (iopb : Iopb) (k : Core) :
    Except DriverError Unit × Iopb × Core :=
  match table.resolve capId .portIo k with
  | (.error e, k) => (.error (.cap e), iopb, k)
  | (.ok cap, k) =>
    match k.objectKind cap.objectId with
    | some (.portIoRange base count) =>
      (.ok (), (portRange base count).foldl Iopb.allowPortBits iopb, k)
    | _ => (.error .wrongObjectKind, iopb, k)

end Driver

end AgenticOS
