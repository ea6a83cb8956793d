import AgenticOS.Foundation.ByteMemory
import AgenticOS.Memory.Pmm

/-!
# The kernel heap

`kernel_rs/src/heap.rs`: the free blocks are linked through themselves. Each
starts with a header of two words, its size and the address of the next one, so
the list is read from and written to the memory that it manages, at raw
addresses. All arithmetic on addresses wraps.

A loop over the list that has visited more nodes than there are addresses has
visited one twice and does not end: `fuel` counts that far, and `none` says that
the loop runs forever.
-/

namespace AgenticOS

open Foundation

/-- `LockedHeap`, with the memory that its pointers point to. -/
structure LockedHeap where
  head : UInt64
  heapEnd : UInt64
  mem : ByteMemory

namespace LockedHeap

/-- `size_of::<FreeListNode>()`. -/
def nodeBytes : UInt64 := 16

def fuel : Nat := 2 ^ 64 + 1

def heapVirtualBase : UInt64 := 0xFFFFFF0000000000

def initialHeapPages : UInt64 := 2048

def size (h : LockedHeap) (node : UInt64) : UInt64 := h.mem.readWord node

def next (h : LockedHeap) (node : UInt64) : UInt64 := h.mem.readWord (node + 8)

def setSize (h : LockedHeap) (node size : UInt64) : LockedHeap :=
  { h with mem := h.mem.writeWord node size }

def setNext (h : LockedHeap) (node next : UInt64) : LockedHeap :=
  { h with mem := h.mem.writeWord (node + 8) next }

/-- A pointer to a pointer: the head of the list, or the link in a node. -/
inductive Link where
  | head
  | next (node : UInt64)

def store (h : LockedHeap) : Link → UInt64 → LockedHeap
  | .head, node => { h with head := node }
  | .next prev, node => h.setNext prev node

/-- The link that `prev` stands for, which is null before the first node. -/
def linkOf (prev : UInt64) : Link := if prev = 0 then .head else .next prev

/-! ## The free list -/

def seek (h : LockedHeap) (addr : UInt64) : Nat → UInt64 → UInt64 → Option (UInt64 × UInt64)
  | 0, _, _ => none
  | fuel + 1, prev, curr =>
    if curr ≠ 0 ∧ curr < addr then seek h addr fuel curr (h.next curr) else some (prev, curr)

def addFreeRegion (h : LockedHeap) (addr size : UInt64) : Option LockedHeap :=
  if size < nodeBytes then some h
  else do
    let (prev, curr) ← h.seek addr fuel 0 h.head
    if prev ≠ 0 ∧ prev + h.size prev = addr then
      let h := h.setSize prev (h.size prev + size)
      if curr ≠ 0 ∧ prev + h.size prev = curr then
        let h := h.setSize prev (h.size prev + h.size curr)
        return h.setNext prev (h.next curr)
      else return h
    else if curr ≠ 0 ∧ addr + size = curr then
      let h := h.setSize addr (size + h.size curr)
      let h := h.setNext addr (h.next curr)
      return h.store (linkOf prev) addr
    else
      let h := (h.setSize addr size).setNext addr curr
      return h.store (linkOf prev) addr

def alignUp (addr align : UInt64) : UInt64 := (addr + align - 1) &&& ~~~(align - 1)

/-- What is not needed of a block goes back to the list. -/
def addPad (h : LockedHeap) (addr pad : UInt64) : Option LockedHeap :=
  if pad > 0 then h.addFreeRegion addr pad else some h

def findFrom (h : LockedHeap) (size align : UInt64) :
    Nat → Link → UInt64 → Option (Option UInt64 × LockedHeap)
  | 0, _, _ => none
  | fuel + 1, prev, current =>
    if current = 0 then some (none, h)
    else
      let allocStart := alignUp current align
      let allocEnd := allocStart + size
      let nodeEnd := current + h.size current
      if allocEnd ≤ nodeEnd then do
        let h := h.store prev (h.next current)
        let h ← h.addPad current (allocStart - current)
        let h ← h.addPad allocEnd (nodeEnd - allocEnd)
        return (some allocStart, h)
      else findFrom h size align fuel (.next current) (h.next current)

def findAndRemove (h : LockedHeap) (size align : UInt64) : Option (Option UInt64 × LockedHeap) :=
  h.findFrom size align fuel .head h.head

/-- `grow_by`, when `pmm::alloc_page` has `available` pages left. They are
mapped with whatever they hold. -/
def growBy (h : LockedHeap) (pages : UInt64) (available : Nat) (frames : ByteMemory) :
    Option LockedHeap :=
  let start := h.heapEnd
  let mapped := min pages.toNat available
  let mem : ByteMemory := fun x => if (x - start).toNat < mapped * 4096 then frames x else h.mem x
  if available < pages.toNat then some { h with mem := mem }
  else
    LockedHeap.addFreeRegion { h with heapEnd := start + pages * pageBytes, mem := mem } start
      (pages * pageBytes)

end LockedHeap

/-! ## The allocator -/

structure Layout where
  size : UInt64
  align : UInt64
  align_pow : ∃ k, k < 64 ∧ align.toNat = 2 ^ k
  deriving DecidableEq

namespace Layout

def bytes (layout : Layout) : UInt64 := max layout.size LockedHeap.nodeBytes

def alignment (layout : Layout) : UInt64 := max layout.align 8

/-- By how many pages the heap grows for it. -/
def pages (layout : Layout) : UInt64 :=
  max ((layout.bytes + layout.alignment + pageBytes + pageBytes - 1) / pageBytes) 256

end Layout

namespace LockedHeap

/-- `GlobalAlloc::alloc`; 0 is the null pointer. -/
def alloc (h : LockedHeap) (layout : Layout) (available : Nat) (frames : ByteMemory) :
    Option (UInt64 × LockedHeap) := do
  match ← h.findAndRemove layout.bytes layout.alignment with
  | (some addr, h) => return (addr, h)
  | (none, h) =>
    let h ← h.growBy layout.pages available frames
    match ← h.findAndRemove layout.bytes layout.alignment with
    | (some addr, h) => return (addr, h)
    | (none, h) => return (0, h)

def dealloc (h : LockedHeap) (ptr : UInt64) (layout : Layout) : Option LockedHeap :=
  h.addFreeRegion ptr layout.bytes

def init (h : LockedHeap) (available : Nat) (frames : ByteMemory) : Option LockedHeap :=
  LockedHeap.growBy { h with heapEnd := heapVirtualBase } initialHeapPages available frames

end LockedHeap

end AgenticOS
