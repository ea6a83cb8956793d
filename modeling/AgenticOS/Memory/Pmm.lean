import AgenticOS.Memory.Bitmap
import AgenticOS.Foundation.Execution

/-!
# The physical memory manager

`kernel_rs/src/pmm.rs`: two bitmaps over the pages below the highest address
of real memory. A page is handed out when its used bit is clear; a reserved
page has both bits set and is never given back. The invariant `Pmm.Ok` ties
the bitmaps to the counters and holds from `init` on.

The bitmaps are kept apart from the physical memory they lie in, which
`init` reserves for them. Page numbers are naturals: they are quotients of
64-bit addresses, so nothing done with them can overflow.
-/

namespace AgenticOS

/-! ## What the firmware hands over -/

structure EfiMemoryDescriptor where
  ty : UInt32
  physicalStart : UInt64
  numberOfPages : UInt64
  deriving DecidableEq

/-- The part of `BootInfo` that `pmm::init` reads: the memory map with the
place and size of its buffer, the kernel image, and where the structure
itself lies. -/
structure BootInfo where
  memoryMap : List EfiMemoryDescriptor
  memoryMapAddr : UInt64
  memoryMapSize : UInt64
  kernelPhysicalStart : UInt64
  kernelPhysicalEnd : UInt64
  address : UInt64

/-- `size_of::<BootInfo>()`. -/
def bootInfoSize : UInt64 := 136

def pageBytes : UInt64 := 4096

def efiLoaderCode : UInt32 := 1
def efiLoaderData : UInt32 := 2
def efiBootServicesCode : UInt32 := 3
def efiBootServicesData : UInt32 := 4
def efiRuntimeServicesCode : UInt32 := 5
def efiRuntimeServicesData : UInt32 := 6
def efiConventionalMemory : UInt32 := 7
def efiAcpiReclaimMemory : UInt32 := 9
def efiAcpiMemoryNvs : UInt32 := 10

def isRealMemory (ty : UInt32) : Bool :=
  [efiLoaderCode, efiLoaderData, efiBootServicesCode, efiBootServicesData,
    efiRuntimeServicesCode, efiRuntimeServicesData, efiConventionalMemory,
    efiAcpiReclaimMemory, efiAcpiMemoryNvs].contains ty

/-! ## The state -/

structure PmmStats where
  totalPhysicalSpan : UInt64
  totalUsableMemory : UInt64
  reservedMemory : UInt64
  freePages : UInt64
  usedPages : UInt64
  deriving DecidableEq

structure Pmm where
  usedBitmap : List UInt8
  reservedBitmap : List UInt8
  totalSpanPages : Nat
  lastScannedPage : Nat
  stats : PmmStats
  deriving DecidableEq

def pageAddr (i : Nat) : UInt64 := UInt64.ofNat i * pageBytes

def pageIndex (addr : UInt64) : Nat := (addr / pageBytes).toNat

namespace Pmm

def used (p : Pmm) (i : Nat) : Bool := Bitmap.test p.usedBitmap i

def reserved (p : Pmm) (i : Nat) : Bool := Bitmap.test p.reservedBitmap i

/-! ## Reserving -/

def reservePage (p : Pmm) (i : Nat) : Pmm :=
  if p.totalSpanPages ≤ i then p
  else if p.reserved i then p
  else
    let q := { p with
      reservedBitmap := Bitmap.set p.reservedBitmap i
      stats := { p.stats with reservedMemory := p.stats.reservedMemory + pageBytes } }
    if p.used i then q
    else { q with
      usedBitmap := Bitmap.set p.usedBitmap i
      stats := { q.stats with freePages := p.stats.freePages - 1 } }

def reserveRange (p : Pmm) (start length : UInt64) : Pmm :=
  let (startPage, pages) := Bitmap.reserveRangePages start length pageBytes
  (List.range pages).foldl (fun p k => p.reservePage (startPage + k)) p

/-! ## Initialisation -/

/-- The body of the loop that looks for the highest address. -/
def raise (highest : UInt64) (d : EfiMemoryDescriptor) : UInt64 :=
  let stop := d.physicalStart + d.numberOfPages * pageBytes
  if !isRealMemory d.ty then highest
  else if stop > highest then stop
  else highest

def highestAddress (map : List EfiMemoryDescriptor) : UInt64 := map.foldl raise 0

def bitmapSizeBytes (span : Nat) : Nat :=
  if span % 8 ≠ 0 then span / 8 + 1 else span / 8

def bitmapRegion (map : List EfiMemoryDescriptor) (totalBitmapSize : UInt64) :
    Option EfiMemoryDescriptor :=
  map.find? fun d =>
    d.ty = efiConventionalMemory && d.physicalStart > 0 &&
      d.numberOfPages * pageBytes ≥ totalBitmapSize

def blank (highest : UInt64) : Pmm where
  usedBitmap := List.replicate (bitmapSizeBytes (pageIndex highest)) 0xFF
  reservedBitmap := List.replicate (bitmapSizeBytes (pageIndex highest)) 0x00
  totalSpanPages := pageIndex highest
  lastScannedPage := 0
  stats :=
    { totalPhysicalSpan := highest
      totalUsableMemory := 0
      reservedMemory := 0
      freePages := 0
      usedPages := 0 }

def offer (p : Pmm) (i : Nat) : Pmm :=
  { p with
    usedBitmap := Bitmap.clear p.usedBitmap i
    stats := { p.stats with freePages := p.stats.freePages + 1 } }

/-- `none` is the panic of a bitmap access out of bounds. -/
def offerPage (p : Pmm) (i : Nat) : Option Pmm :=
  if Bitmap.InBounds p.usedBitmap i then some (p.offer i) else none

def offerDescriptor (p : Pmm) (d : EfiMemoryDescriptor) : Option Pmm :=
  if d.ty = efiConventionalMemory then
    let p := { p with stats := { p.stats with
      totalUsableMemory := p.stats.totalUsableMemory + d.numberOfPages * pageBytes } }
    (List.range d.numberOfPages.toNat).foldlM
      (fun p k => p.offerPage (pageIndex d.physicalStart + k)) p
  else some p

/-- `pmm::init`; `none` if it panics. -/
def init (boot : BootInfo) : Option Pmm := do
  let highest := highestAddress boot.memoryMap
  let bitmapSize := UInt64.ofNat (bitmapSizeBytes (pageIndex highest))
  let region ← bitmapRegion boot.memoryMap (bitmapSize * 2)
  let p ← boot.memoryMap.foldlM offerDescriptor (blank highest)
  let p := p.reserveRange 0 pageBytes
  let p := p.reserveRange region.physicalStart (bitmapSize * 2)
  let p := p.reserveRange boot.kernelPhysicalStart
    (boot.kernelPhysicalEnd - boot.kernelPhysicalStart)
  let p := p.reserveRange boot.address bootInfoSize
  return p.reserveRange boot.memoryMapAddr boot.memoryMapSize

/-! ## Allocating and freeing -/

/-- The scan of `alloc_page_locked`: the first clear bit among `n` from `i`. -/
def scan (bitmap : List UInt8) : Nat → Nat → Option Nat
  | 0, _ => none
  | n + 1, i => if !Bitmap.test bitmap i then some i else scan bitmap n (i + 1)

/-- The page found is marked and counted, and the next scan starts at it. -/
def mark (p : Pmm) (i : Nat) : Pmm :=
  { p with
    usedBitmap := Bitmap.set p.usedBitmap i
    lastScannedPage := i
    stats := { p.stats with
      freePages := p.stats.freePages - 1
      usedPages := p.stats.usedPages + 1 } }

/-- `alloc_page_locked`, with a bound on the depth of its recursion; `none`
if the bound is too small. -/
def allocPageLocked : Nat → Pmm → Option (UInt64 × Pmm)
  | 0, _ => none
  | depth + 1, p =>
    match scan p.usedBitmap (p.totalSpanPages - p.lastScannedPage) p.lastScannedPage with
    | some i => some (pageAddr i, p.mark i)
    | none =>
      if p.lastScannedPage > 0 then allocPageLocked depth { p with lastScannedPage := 0 }
      else some (0, p)

/-- `alloc_page`; a depth of two is enough. The page is zeroed where the
physical memory is modelled. -/
def allocPage (p : Pmm) : UInt64 × Pmm := (allocPageLocked 2 p).getD (0, p)

def release (p : Pmm) (i : Nat) : Pmm :=
  { p with
    usedBitmap := Bitmap.clear p.usedBitmap i
    lastScannedPage := if i < p.lastScannedPage then i else p.lastScannedPage
    stats := { p.stats with
      freePages := p.stats.freePages + 1
      usedPages := p.stats.usedPages - 1 } }

def freePage (p : Pmm) (addr : UInt64) : Pmm :=
  if addr = 0 then p
  else if addr % pageBytes ≠ 0 then p
  else if p.totalSpanPages ≤ pageIndex addr then p
  else if p.reserved (pageIndex addr) then p
  else if !p.used (pageIndex addr) then p
  else p.release (pageIndex addr)

end Pmm

end AgenticOS
