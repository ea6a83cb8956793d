import AgenticOS.Memory.UserCopy
import AgenticOS.Memory.Vmm

/-!
# Loading programs

`kernel_rs/src/elf.rs`: the headers of an ELF64 file are read and checked, and
each `PT_LOAD` segment is copied page by page into fresh frames of an address
space. An error stops the loader where it is; the pages it has mapped until
then stay mapped.
-/

namespace AgenticOS

open Foundation List UInt64

/-! ## Headers -/

structure Elf64Ehdr where
  eIdent : List UInt8
  eMachine : UInt16
  eVersion : UInt32
  eEntry : UInt64
  ePhoff : UInt64
  ePhentsize : UInt16
  ePhnum : UInt16
  deriving DecidableEq

structure Elf64Phdr where
  pType : UInt32
  pFlags : UInt32
  pOffset : UInt64
  pVaddr : UInt64
  pFilesz : UInt64
  pMemsz : UInt64
  deriving DecidableEq

inductive ElfError where
  | tooSmall
  | badMagic
  | wrongClassOrEndian
  | wrongMachineOrVersion
  | phdrOutOfBounds
  | segmentOutOfBounds
  deriving DecidableEq

namespace Elf

def ehdrSize : Nat := 64
def phdrSize : Nat := 56

def ptLoad : UInt32 := 1
def emX8664 : UInt16 := 62
def elfClass64 : UInt8 := 2
def elfData2Lsb : UInt8 := 1
def evCurrent : UInt32 := 1
def pfX : UInt32 := 1
def pfW : UInt32 := 2

def leNat (bytes : List UInt8) (offset : Nat) : Nat → Nat
  | 0 => 0
  | n + 1 => (bytes.getD offset 0).toNat + 256 * leNat bytes (offset + 1) n

def readEhdr (bytes : List UInt8) : Elf64Ehdr where
  eIdent := bytes.take 16
  eMachine := UInt16.ofNat (leNat bytes 18 2)
  eVersion := UInt32.ofNat (leNat bytes 20 4)
  eEntry := UInt64.ofNat (leNat bytes 24 8)
  ePhoff := UInt64.ofNat (leNat bytes 32 8)
  ePhentsize := UInt16.ofNat (leNat bytes 54 2)
  ePhnum := UInt16.ofNat (leNat bytes 56 2)

def readPhdr (bytes : List UInt8) (off : Nat) : Elf64Phdr where
  pType := UInt32.ofNat (leNat bytes off 4)
  pFlags := UInt32.ofNat (leNat bytes (off + 4) 4)
  pOffset := UInt64.ofNat (leNat bytes (off + 8) 8)
  pVaddr := UInt64.ofNat (leNat bytes (off + 16) 8)
  pFilesz := UInt64.ofNat (leNat bytes (off + 32) 8)
  pMemsz := UInt64.ofNat (leNat bytes (off + 40) 8)

def headerError (bytes : List UInt8) : Option ElfError :=
  if bytes.length < ehdrSize then some .tooSmall
  else
    let ehdr := readEhdr bytes
    if ehdr.eIdent.take 4 ≠ [0x7f, 0x45, 0x4c, 0x46] then some .badMagic
    else if ehdr.eIdent.getD 4 0 ≠ elfClass64 ∨ ehdr.eIdent.getD 5 0 ≠ elfData2Lsb then
      some .wrongClassOrEndian
    else if ehdr.eMachine ≠ emX8664 ∨ ehdr.eVersion ≠ evCurrent then
      some .wrongMachineOrVersion
    else if ehdr.ePhentsize.toNat ≠ phdrSize then some .phdrOutOfBounds
    else
      let stop := ehdr.ePhoff.toNat + ehdr.ePhnum.toNat * phdrSize
      -- `checked_add` fails, or the table ends after the file
      if 2 ^ 64 ≤ stop ∨ bytes.length < stop then some .phdrOutOfBounds
      else none

def phdrs (bytes : List UInt8) : List Elf64Phdr :=
  let ehdr := readEhdr bytes
  (List.range ehdr.ePhnum.toNat).map fun i => readPhdr bytes (ehdr.ePhoff.toNat + i * phdrSize)

def segmentError (bytes : List UInt8) (ph : Elf64Phdr) : Option ElfError :=
  let fileEnd := ph.pOffset.toNat + ph.pFilesz.toNat
  if 2 ^ 64 ≤ fileEnd then some .segmentOutOfBounds
  else if bytes.length < fileEnd ∨ ph.pFilesz > ph.pMemsz then some .segmentOutOfBounds
  else none

/-! ## Pages -/

def vaddrStart (ph : Elf64Phdr) : UInt64 := ph.pVaddr &&& ~~~0xFFF

def vaddrEnd (ph : Elf64Phdr) : UInt64 := (ph.pVaddr + ph.pMemsz + 0xFFF) &&& ~~~0xFFF

def segmentPages (ph : Elf64Phdr) : Nat := ((vaddrEnd ph - vaddrStart ph) / 4096).toNat

def pageVaddr (ph : Elf64Phdr) (p : Nat) : UInt64 := vaddrStart ph + UInt64.ofNat p * 4096

def segmentFlags (ph : Elf64Phdr) : UInt64 :=
  let flags := pageUser
  let flags := if ph.pFlags &&& pfW ≠ 0 then flags ||| pageWritable else flags
  if ph.pFlags &&& pfX ≠ 0 then flags else flags ||| pageNoExecute

theorem segmentFlags_addrMask (ph : Elf64Phdr) : segmentFlags ph &&& addrMask = 0 := by
  unfold segmentFlags
  dsimp only
  split_ifs
  all_goals decide

def copyStart (ph : Elf64Phdr) (p : Nat) : UInt64 := max (pageVaddr ph p) ph.pVaddr

def copyEnd (ph : Elf64Phdr) (p : Nat) : UInt64 :=
  min (pageVaddr ph p + 4096) (ph.pVaddr + ph.pFilesz)

/-- The bytes of the file that belong to a page, with their places in the frame
at `pagePhys`. -/
def pageBytes (bytes : List UInt8) (ph : Elf64Phdr) (p : Nat) (pagePhys : UInt64) :
    List (UInt64 × UInt8) :=
  if copyStart ph p < copyEnd ph p then
    let dstOff := copyStart ph p - pageVaddr ph p
    let srcOff := ph.pOffset + (copyStart ph p - ph.pVaddr)
    (List.range (copyEnd ph p - copyStart ph p).toNat).map fun i =>
      (pagePhys + (dstOff + UInt64.ofNat i), bytes.getD (srcOff.toNat + i) 0)
  else []

section

variable {σ : Type} (A : PageSource σ)

/-- One page of a segment, and the frame it is put in. -/
def loadPage (s : PageStore σ) (pml4 : UInt64) (bytes : List UInt8) (ph : Elf64Phdr) (p : Nat) :
    Option (UInt64 × PageStore σ) := do
  let (pagePhys, s) := s.alloc A.toFrameSource pageTableFormat
  let mem := fill s.mem pagePhys fun _ => 0
  let mem := storeBytes mem (pageBytes bytes ph p pagePhys)
  let s ← mapPage A { s with mem := mem } pml4 (pageVaddr ph p) pagePhys (segmentFlags ph)
  return (pagePhys, s)

/-- The pages of a list; the frames used are collected beside the state. -/
def loadPages (pml4 : UInt64) (bytes : List UInt8) (pages : List (Elf64Phdr × Nat))
    (st : List UInt64 × PageStore σ) : Option (List UInt64 × PageStore σ) :=
  pages.foldlM (fun (frames, s) (ph, p) => do
    let (frame, s) ← loadPage A s pml4 bytes ph p
    return (frames ++ [frame], s)) st

def loadSegments (pml4 : UInt64) (bytes : List UInt8) :
    List Elf64Phdr → List UInt64 × PageStore σ →
      Option (Option ElfError × List UInt64 × PageStore σ)
  | [], st => some (none, st)
  | ph :: rest, st =>
    if ph.pType ≠ ptLoad then loadSegments pml4 bytes rest st
    else
      match segmentError bytes ph with
      | some e => some (some e, st)
      | none => do
        let st ← loadPages A pml4 bytes ((List.range (segmentPages ph)).map (ph, ·)) st
        loadSegments pml4 bytes rest st

/-- `load`: what it returns, the frames it has used, and the memory; `none` if a
page table cannot be allocated. -/
def load (s : PageStore σ) (intoPml4 : UInt64) (bytes : List UInt8) :
    Option (Except ElfError UInt64 × List UInt64 × PageStore σ) :=
  match headerError bytes with
  | some e => some (.error e, [], s)
  | none => do
    let (error, st) ← loadSegments A intoPml4 bytes (phdrs bytes) ([], s)
    match error with
    | some e => return (.error e, st)
    | none => return (.ok (readEhdr bytes).eEntry, st)

end

/-! ## One page

The bytes of a page stay within its frame. -/

theorem toNat_max (a b : UInt64) : (max a b).toNat = max a.toNat b.toNat := by
  show (if a ≤ b then b else a).toNat = _
  split_ifs with h
  · exact (max_eq_right (le_iff_toNat_le.mp h)).symm
  · rw [le_iff_toNat_le, not_le] at h
    exact (max_eq_left h.le).symm

theorem toNat_min (a b : UInt64) : (min a b).toNat = min a.toNat b.toNat := by
  show (if a ≤ b then a else b).toNat = _
  split_ifs with h
  · exact (min_eq_left (le_iff_toNat_le.mp h)).symm
  · rw [le_iff_toNat_le, not_le] at h
    exact (min_eq_right h.le).symm

variable {bytes : List UInt8} {ph : Elf64Phdr} {p : Nat} {pagePhys pml4 : UInt64} {σ : Type}
  {A : PageSource σ} {st st' : List UInt64 × PageStore σ}

theorem pageBytes_frame (hframe : pagePhys.toNat % 4096 = 0) {b : UInt64 × UInt8}
    (hb : b ∈ pageBytes bytes ph p pagePhys) : b.1 &&& ~~~offsetMask = pagePhys := by
  unfold pageBytes at hb
  split_ifs at hb with hlt
  · rcases List.mem_map.mp hb with ⟨i, hi, rfl⟩
    have hlen := mem_range.mp hi
    have hstart : (pageVaddr ph p).toNat ≤ (copyStart ph p).toNat := by
      rw [copyStart, toNat_max]
      exact le_max_left _ _
    -- the end of the page may be 0, but then nothing is copied
    have hend : (copyEnd ph p).toNat ≤ ((pageVaddr ph p).toNat + 4096) % 2 ^ 64 := by
      rw [copyEnd, toNat_min, UInt64.toNat_add]
      exact min_le_left _ _
    have hoff : (copyStart ph p - pageVaddr ph p).toNat =
        (copyStart ph p).toNat - (pageVaddr ph p).toNat :=
      UInt64.toNat_sub_of_le _ _ (le_iff_toNat_le.mpr hstart)
    rw [UInt64.toNat_sub_of_le _ _ (le_iff_toNat_le.mpr hlt.le)] at hlen
    have hlt2 := pagePhys.toNat_lt
    apply UInt64.toNat_inj.mp
    rw [toNat_pageBase, UInt64.toNat_add, UInt64.toNat_add, hoff, toNat_ofNat']
    omega
  · cases hb

def pageImage (mem : PhysicalMemory) (bytes : List UInt8) (ph : Elf64Phdr) (p : Nat)
    (pagePhys : UInt64) : PhysicalMemory :=
  storeBytes (fill mem pagePhys fun _ => 0) (pageBytes bytes ph p pagePhys)

theorem pageImage_of_ne {mem : PhysicalMemory} (hframe : pagePhys.toNat % 4096 = 0) {f : UInt64}
    (hf : f ≠ pagePhys) (i : Nat) : pageImage mem bytes ph p pagePhys f i = mem f i := by
  by_contra hne
  have hfill : fill mem pagePhys (fun _ => 0) f i = mem f i := fill_of_ne hf i
  rw [← hfill] at hne
  rcases storeBytes_frame hne with ⟨b, hb, rfl⟩
  exact hf (pageBytes_frame hframe hb)

/-- **One page**: a frame from the allocator is filled and mapped. -/
theorem loadPage_eq {σ : Type} {A : PageSource σ} {s s' : PageStore σ} {pml4 : UInt64}
    (h : loadPage A s pml4 bytes ph p = some (pagePhys, s')) :
    pagePhys = (A.alloc s.frames).1 ∧
      mapPage A ⟨pageImage s.mem bytes ph p pagePhys, (A.alloc s.frames).2⟩ pml4
        (pageVaddr ph p) pagePhys (segmentFlags ph) = some s' := by
  rcases Option.bind_eq_some_iff.mp h with ⟨_, hmap, hs1⟩
  cases hs1
  refine ⟨rfl, ?_⟩
  have hfill : fill (s.alloc A.toFrameSource pageTableFormat).2.mem (A.alloc s.frames).1
      (fun _ => 0) = fill s.mem (A.alloc s.frames).1 fun _ => 0 := by
    funext f i
    by_cases hf : f = (A.alloc s.frames).1
    · rw [hf, fill_same, fill_same]
    · rw [fill_of_ne hf, fill_of_ne hf, Store.alloc_mem_of_ne hf]
  rw [← hmap, pageImage, ← hfill]
  rfl

/-! ## Sizes

The source adds up addresses without a check. As long as the end of a segment
can be rounded up in 64 bits, all of it is exact. -/

/-- The end of the segment, rounded up, is an address. -/
def Measured (ph : Elf64Phdr) : Prop := ph.pVaddr.toNat + ph.pMemsz.toNat + 0xFFF < 2 ^ 64

instance (ph : Elf64Phdr) : Decidable (Measured ph) := inferInstanceAs (Decidable (_ < _))

theorem toNat_vaddrStart (ph : Elf64Phdr) : (vaddrStart ph).toNat = ph.pVaddr.toNat / 4096 * 4096 :=
  toNat_pageBase ph.pVaddr

section

variable (h : Measured ph)

include h

theorem toNat_vaddrEnd :
    (vaddrEnd ph).toNat = (ph.pVaddr.toNat + ph.pMemsz.toNat + 0xFFF) / 4096 * 4096 := by
  have hsum : (ph.pVaddr + ph.pMemsz + 0xFFF).toNat =
      ph.pVaddr.toNat + ph.pMemsz.toNat + 0xFFF := by
    rw [UInt64.toNat_add, UInt64.toNat_add]
    unfold Measured at h
    show ((_ + _) % 2 ^ 64 + 0xFFF) % 2 ^ 64 = _
    omega
  rw [← hsum]
  exact toNat_pageBase (ph.pVaddr + ph.pMemsz + 0xFFF)

theorem vaddrStart_le_vaddrEnd : vaddrStart ph ≤ vaddrEnd ph := by
  rw [le_iff_toNat_le, toNat_vaddrStart, toNat_vaddrEnd h]
  omega

theorem segmentPages_eq : segmentPages ph =
      (ph.pVaddr.toNat + ph.pMemsz.toNat + 0xFFF) / 4096 - ph.pVaddr.toNat / 4096 := by
  rw [segmentPages, UInt64.toNat_div, UInt64.toNat_sub_of_le _ _ (vaddrStart_le_vaddrEnd h),
    toNat_vaddrStart, toNat_vaddrEnd h]
  show (_ - _) / 4096 = _
  omega

theorem toNat_pageVaddr (hp : p < segmentPages ph) :
    (pageVaddr ph p).toNat = (ph.pVaddr.toNat / 4096 + p) * 4096 ∧
      (pageVaddr ph p).toNat + 4096 ≤ (vaddrEnd ph).toNat := by
  rw [segmentPages_eq h] at hp
  rw [toNat_vaddrEnd h]
  unfold Measured at h
  have hpage : (pageVaddr ph p).toNat = (ph.pVaddr.toNat / 4096 + p) * 4096 := by
    rw [pageVaddr, UInt64.toNat_add, UInt64.toNat_mul, toNat_ofNat', toNat_vaddrStart]
    show (_ + _ * 4096 % 2 ^ 64) % 2 ^ 64 = _
    omega
  rw [hpage]
  omega

end

/-! ## The pages that are loaded -/

def loadedSegments (bytes : List UInt8) : List Elf64Phdr :=
  ((phdrs bytes).filter fun ph => ph.pType = ptLoad).takeWhile fun ph =>
    segmentError bytes ph = none

def loadedPages (bytes : List UInt8) : List (Elf64Phdr × Nat) :=
  if headerError bytes = none then
    (loadedSegments bytes).flatMap fun ph => (List.range (segmentPages ph)).map (ph, ·)
  else []

theorem loadPages_append (xs ys : List (Elf64Phdr × Nat)) (st : List UInt64 × PageStore σ) :
    loadPages A pml4 bytes (xs ++ ys) st =
      (loadPages A pml4 bytes xs st).bind (loadPages A pml4 bytes ys) :=
  foldlM_append

theorem loadSegments_eq (headers : List Elf64Phdr) (st : List UInt64 × PageStore σ) :
    (loadSegments A pml4 bytes headers st).map Prod.snd =
      loadPages A pml4 bytes (((headers.filter fun ph => ph.pType = ptLoad).takeWhile
        fun ph => segmentError bytes ph = none).flatMap
          fun ph => (List.range (segmentPages ph)).map (ph, ·)) st := by
  induction headers generalizing st with
  | nil => rfl
  | cons ph rest ih =>
    rw [loadSegments]
    split_ifs with htype
    · rw [filter_cons_of_neg (by simpa using htype)]
      exact ih st
    · rw [filter_cons_of_pos (by simpa using htype)]
      cases herror : segmentError bytes ph with
      | some =>
        rw [takeWhile_cons_of_neg (by simp [herror])]
        rfl
      | none =>
        rw [takeWhile_cons_of_pos (by simp [herror]), flatMap_cons, loadPages_append]
        cases loadPages A pml4 bytes ((range (segmentPages ph)).map (ph, ·)) st with
        | none => rfl
        | some st1 => exact ih st1

/-- **What `load` does to memory**: its pages are loaded one after the other,
whatever it returns. -/
theorem load_map_snd (s : PageStore σ) :
    (load A s pml4 bytes).map Prod.snd = loadPages A pml4 bytes (loadedPages bytes) ([], s) := by
  unfold load loadedPages
  cases hheader : headerError bytes with
  | some => rfl
  | none =>
    rw [if_pos rfl, loadedSegments, ← loadSegments_eq]
    cases loadSegments A pml4 bytes (phdrs bytes) ([], s) with
    | none => rfl
    | some r =>
      rcases r with ⟨_ | e, _⟩
      · rfl
      · rfl

variable {s s' : PageStore σ} {frames roots : List UInt64}

theorem load_eq {result : Except ElfError UInt64}
    (h : load A s pml4 bytes = some (result, frames, s')) :
    loadPages A pml4 bytes (loadedPages bytes) ([], s) = some (frames, s') := by
  rw [← load_map_snd, h]
  rfl

theorem exists_loadPage {n : Nat} (h : A.Supplies (n + 4) s.frames) (ph : Elf64Phdr) (p : Nat) :
    ∃ frame s', loadPage A s pml4 bytes ph p = some (frame, s') ∧ frame ≠ 0 ∧
      A.Supplies n s'.frames := by
  have hmap : ∃ s', mapPage A ⟨storeBytes (fill (s.alloc A.toFrameSource pageTableFormat).2.mem
      (A.alloc s.frames).1 fun _ => 0) (pageBytes bytes ph p (A.alloc s.frames).1),
      (A.alloc s.frames).2⟩ pml4 (pageVaddr ph p) (A.alloc s.frames).1 (segmentFlags ph) =
        some s' ∧ A.Supplies n s'.frames :=
    exists_mapPage_of_supplies h.2 _ _ _ _
  rcases hmap with ⟨s', hmap, hsupply⟩
  refine ⟨(A.alloc s.frames).1, s', ?_, ?_, hsupply⟩
  · exact Option.bind_eq_some_iff.mpr ⟨s', hmap, rfl⟩
  · rw [← A.null_eq]
    exact h.1

theorem exists_loadPages {n : Nat} (pages : List (Elf64Phdr × Nat)) (frames : List UInt64)
    (s : PageStore σ) (h : A.Supplies (n + 4 * pages.length) s.frames) (hframes : 0 ∉ frames) :
    ∃ st, loadPages A pml4 bytes pages (frames, s) = some st ∧ 0 ∉ st.1 ∧
      A.Supplies n st.2.frames := by
  induction pages generalizing frames s with
  | nil => exact ⟨(frames, s), rfl, hframes, h⟩
  | cons x pages ih =>
    rcases exists_loadPage (n := n + 4 * pages.length) h x.1 x.2 with
      ⟨frame, s1, hpage, hne, hsupply⟩
    have hframes1 : 0 ∉ frames ++ [frame] := by
      rw [mem_append, mem_singleton, not_or]
      exact ⟨hframes, hne.symm⟩
    rcases ih (frames ++ [frame]) s1 hsupply hframes1 with ⟨st, hrest, h'⟩
    refine ⟨st, ?_, h'⟩
    refine Option.bind_eq_some_iff.mpr ⟨(frames ++ [frame], s1), ?_, hrest⟩
    exact Option.bind_eq_some_iff.mpr ⟨(frame, s1), hpage, rfl⟩

section

variable (h : A.Supplies (4 * (loadedPages bytes).length) s.frames)

include h

theorem exists_load_of_supplies :
    ∃ result frames s', load A s pml4 bytes = some (result, frames, s') ∧ 0 ∉ frames := by
  have hpages : ∃ st, loadPages A pml4 bytes (loadedPages bytes) ([], s) = some st ∧ 0 ∉ st.1 ∧
      A.Supplies 0 st.2.frames :=
    exists_loadPages _ _ _ (by rwa [Nat.zero_add]) not_mem_nil
  rcases hpages with ⟨⟨frames, s'⟩, hload, hframes, -⟩
  rw [← load_map_snd] at hload
  rcases Option.map_eq_some_iff.mp hload with ⟨⟨result, _, _⟩, hload, heq⟩
  cases heq
  exact ⟨result, frames, s', hload, hframes⟩

theorem load_isSome_of_supplies : (load A s pml4 bytes).isSome = true := by
  rcases exists_load_of_supplies h with ⟨_, frames, _, hload, -⟩
  rw [hload]
  rfl

end

def pageEntries (pages : List (Elf64Phdr × Nat)) (frames : List UInt64) : List (UInt64 × UInt64) :=
  (pages.zip frames).map fun y =>
    (pageVaddr y.1.1 y.1.2, leafEntry y.2 (segmentFlags y.1.1))

theorem loadPage_sets {ph : Elf64Phdr} {p : Nat}
    {frame : UInt64} (hs : PagesSound A roots s) (hr : pml4 ∈ roots)
    (h : loadPage A s pml4 bytes ph p = some (frame, s')) :
    SetsEntry A roots pml4 (pageVaddr ph p) (leafEntry frame (segmentFlags ph)) s s' := by
  rcases loadPage_eq h with ⟨rfl, hmap⟩
  have hframe := isFrame_mod (A.alloc_isFrame _ hs.ok)
  have hu : Undisturbed A roots s
      ⟨pageImage s.mem bytes ph p (A.alloc s.frames).1, (A.alloc s.frames).2⟩ :=
    undisturbed_alloc hs fun f hf i => pageImage_of_ne hframe hf i
  exact hu.sets (mapPage_spec (hu.sound hs) hr hmap)

/-- Each page has one frame, and the entries of the pages are what changes. -/
theorem loadPages_sets {frames' : List UInt64}
    {pages : List (Elf64Phdr × Nat)} (hs : PagesSound A roots s) (hr : pml4 ∈ roots)
    (h : loadPages A pml4 bytes pages (frames, s) = some (frames', s')) :
    ∃ new, frames' = frames ++ new ∧ new.length = pages.length ∧
      SetsEntries A roots pml4 (pageEntries pages new) s s' := by
  induction pages generalizing s frames with
  | nil =>
    cases h
    exact ⟨[], (append_nil _).symm, rfl, .nil hs⟩
  | cons x pages ih =>
    rcases Option.bind_eq_some_iff.mp h with ⟨⟨_, _⟩, hfirst, hrest⟩
    rcases Option.bind_eq_some_iff.mp hfirst with ⟨⟨frame, _⟩, hpage, hst⟩
    cases hst
    have hset := loadPage_sets hs hr hpage
    rcases ih hset.sound hrest with ⟨new, rfl, hlen, hsets⟩
    refine ⟨frame :: new, append_assoc .., ?_, .cons hset hsets⟩
    rw [length_cons, length_cons, hlen]

end Elf

end AgenticOS
