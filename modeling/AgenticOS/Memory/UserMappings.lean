import AgenticOS.Memory.Vmm
import AgenticOS.Capability.Model

/-!
# Device pages and window buffers in a process

Two calls map pages into an address space that are not allocated for it:
`driver::map_mmio`, for a range of device registers that a capability names,
and `window_manager::map_window_buffer_to_user`, for the buffer of a window,
which lies on the kernel heap. The entries look like those of any other page.
-/

namespace AgenticOS

open Foundation

/-! ## Device pages -/

inductive DriverError where
  | cap (e : CapError)
  | wrongObjectKind
  deriving DecidableEq

namespace Driver

def userMmioWindowBase : UInt64 := 0x20000000

def userMmioFlags : UInt64 := pageUser ||| pageWritable ||| pageNoExecute ||| pageCacheDisable

/-- The range of the capability, as `map_mmio` looks it up. -/
def mmioRegion (table : CapabilityTable) (capId : CapId) (k : Core) :
    Except DriverError (UInt64 × UInt64) × Core :=
  match table.resolve capId Rights.map k with
  | (.error e, k) => (.error (.cap e), k)
  | (.ok cap, k) =>
    match k.objectKind cap.objectId with
    | some (.mmioRegion physBase size) => (.ok (physBase, size), k)
    | _ => (.error .wrongObjectKind, k)

def mmioPages (size : UInt64) : UInt64 := (size + 4095) / 4096

/-- `map_mmio`: its result, the capability state, the next value of
`NEXT_USER_MMIO_OFFSET` and the memory. -/
def mapMmio {σ : Type} (A : PageSource σ) (table : CapabilityTable) (capId : CapId)
    (intoPml4 : UInt64) (k : Core) (nextUserMmioOffset : UInt64) (s : PageStore σ) :
    Option (Except DriverError UInt64 × Core × UInt64 × PageStore σ) :=
  match mmioRegion table capId k with
  | (.error e, k) => some (.error e, k, nextUserMmioOffset, s)
  | (.ok (physBase, size), k) => do
    let pages := mmioPages size
    let vaddrBase := userMmioWindowBase + nextUserMmioOffset
    let s ← Vmm.mapRange A s intoPml4 vaddrBase physBase userMmioFlags pages.toNat
    return (.ok vaddrBase, k, nextUserMmioOffset + pages * 4096, s)

end Driver

/-! ## Window buffers -/

/-- The fields of a window that are read, with the address of its buffer. -/
structure Window where
  surfaceObject : ObjectId
  width : UInt32
  height : UInt32
  buffer : UInt64
  deriving DecidableEq

namespace WindowManager

def userSurfaceBase : UInt64 := 0x700000000000

def surfaceFlags : UInt64 := pageUser ||| pageWritable ||| pageNoExecute

def userBase (surfaceObject : ObjectId) : UInt64 :=
  userSurfaceBase + surfaceObject.toUInt64 * 0x100000

def pageCount (w : Window) : Nat :=
  ((w.width.toUInt64 * w.height.toUInt64 * 4 + 4095) / 4096).toNat

/-- The loop over the pages of a buffer; `false` if a page of the buffer is not
mapped, which ends the call. -/
def mapBufferPages {σ : Type} (A : PageSource σ) (kernelPml4 userPml4 userBase buffer : UInt64) :
    List Nat → PageStore σ → Option (Bool × PageStore σ)
  | [], s => some (true, s)
  | p :: rest, s =>
    match virtToPhys s.mem kernelPml4 (buffer + UInt64.ofNat p * 4096) with
    | none => some (false, s)
    | some phys => do
      let s ← mapPage A s userPml4 (userBase + UInt64.ofNat p * 4096) phys surfaceFlags
      mapBufferPages A kernelPml4 userPml4 userBase buffer rest s

def mapWindowBufferToUser {σ : Type} (A : PageSource σ) (windows : List Window)
    (kernelPml4 : UInt64) (surfaceObject : ObjectId) (userPml4 : UInt64) (s : PageStore σ) :
    Option (Option (UInt64 × UInt32 × UInt32) × PageStore σ) :=
  match windows.find? (·.surfaceObject = surfaceObject) with
  | none => some (none, s)
  | some w => do
    let (mapped, s) ← mapBufferPages A kernelPml4 userPml4 (userBase surfaceObject) w.buffer
      (List.range (pageCount w)) s
    return (if mapped then some (userBase surfaceObject, w.width, w.height) else none, s)

end WindowManager

end AgenticOS
