import AgenticOS.Crypto.Fips180
import AgenticOS.Foundation.LittleEndian

/-!
# Loading and measuring the kernel

`load_kernel_elf` of the boot loader. The firmware answers each call on its own
terms: a read gives any number of the next bytes, none at the end of the file, and
any call can fail. The image is read first; the digest is taken in a second pass
over the file, and is compared with the file `kernel.sig` if there is one.

A failed read ends the second pass like the end of the file does, and a signature
that cannot be read in one call is not compared. So the measurement is of the whole
file, and the signature is checked, only if the firmware does not fail in these
places.
-/

namespace AgenticOS.Boot

open Foundation List
open Sha256 (hashed new)

/-! ## The firmware -/

/-- What the firmware makes of a call. A read that does not fail delivers about `count`
bytes. -/
inductive Answer where
  | error
  | ok (count : Nat)
  deriving DecidableEq

/-- The answers to the calls of `load_kernel_elf`, in the order of its parts. -/
structure Firmware where
  /-- Opening, reading, moving and allocating, until the image is loaded. -/
  early : Nat → Answer
  /-- `SetPosition(0)` before the digest. -/
  rewind : Answer
  /-- The reads for the digest. -/
  hashing : Nat → Answer
  /-- The read of `kernel.sig`. -/
  sigRead : Answer

/-- A read of `n` bytes at a position: one byte to `n`, as far as there are any. -/
def readFile (content : List UInt8) (pos n : Nat) : Answer → Option (List UInt8)
  | .error => none
  | .ok count => some (slice content pos (min n (max 1 count)))

def readExact (content : List UInt8) (pos len : Nat) (answer : Answer) :
    Except String (List UInt8) :=
  match readFile content pos len answer with
  | some bytes => if bytes.length = len then .ok bytes else .error "short/failed file read"
  | none => .error "short/failed file read"

/-! ## The image -/

def u64At (bytes : List UInt8) (off : Nat) : UInt64 := UInt64.ofNat (leValue (slice bytes off 8))

structure Elf64Ehdr where
  eIdent : List UInt8
  eMachine : UInt16
  eEntry : UInt64
  ePhoff : UInt64
  ePhentsize : UInt16
  ePhnum : UInt16

structure Elf64Phdr where
  pType : UInt32
  pOffset : UInt64
  pPaddr : UInt64
  pFilesz : UInt64
  pMemsz : UInt64

def ehdrSize : Nat := 64
def phdrSize : Nat := 56
def ptLoad : UInt32 := 1
def emX8664 : UInt16 := 62
def elfClass64 : UInt8 := 2
def elfData2Lsb : UInt8 := 1
def evCurrent : UInt8 := 1
def kernelVirtualBase : UInt64 := 0xFFFFFFFF80000000

def readEhdr (bytes : List UInt8) : Elf64Ehdr where
  eIdent := slice bytes 0 16
  eMachine := u16At bytes 18
  eEntry := u64At bytes 24
  ePhoff := u64At bytes 32
  ePhentsize := u16At bytes 54
  ePhnum := u16At bytes 56

def readPhdr (bytes : List UInt8) (off : Nat) : Elf64Phdr where
  pType := u32At bytes off
  pOffset := u64At bytes (off + 8)
  pPaddr := u64At bytes (off + 24)
  pFilesz := u64At bytes (off + 32)
  pMemsz := u64At bytes (off + 40)

def checkEhdr (ehdr : Elf64Ehdr) : Except String Unit :=
  if ehdr.eIdent.take 4 ≠ [0x7f, 0x45, 0x4c, 0x46] then .error "not an ELF file"
  else if ehdr.eIdent.getD 4 0 ≠ elfClass64 ∨ ehdr.eIdent.getD 5 0 ≠ elfData2Lsb ∨
      ehdr.eIdent.getD 6 0 ≠ evCurrent ∨ ehdr.eMachine ≠ emX8664 ∨
      ehdr.ePhentsize.toNat ≠ phdrSize ∨ ehdr.ePhnum = 0 then .error "unsupported ELF header"
  else .ok ()

structure Image where
  kernelStart : UInt64
  kernelEnd : UInt64
  /-- The position of the file. -/
  pos : Nat

/-- One program header. The bytes go to memory, and only the range is kept. -/
def loadSegment (fw : Firmware) (kernel : List UInt8) (image : Image) (i : Nat) (ph : Elf64Phdr) :
    Except String Image :=
  if ph.pType ≠ ptLoad then .ok image
  else if ph.pMemsz = 0 ∨ ph.pFilesz > ph.pMemsz then .error "PT_LOAD segment size invalid"
  else if ph.pPaddr = 0 ∨ 2 ^ 64 ≤ ph.pPaddr.toNat + ph.pMemsz.toNat then
    .error "PT_LOAD segment range invalid"
  else if fw.early (5 + 3 * i) = .error then .error "AllocatePages(segment) failed"
  else if fw.early (6 + 3 * i) = .error then .error "SetPosition(segment) failed"
  else do
    let bytes ← readExact kernel ph.pOffset.toNat ph.pFilesz.toNat (fw.early (7 + 3 * i))
    return { kernelStart := if ph.pPaddr < image.kernelStart then ph.pPaddr else image.kernelStart
             kernelEnd := if ph.pPaddr + ph.pMemsz > image.kernelEnd then ph.pPaddr + ph.pMemsz
               else image.kernelEnd
             pos := ph.pOffset.toNat + bytes.length }

/-- Everything before the digest: the entry point and the image. -/
def loadImage (fw : Firmware) (kernel : List UInt8) : Except String (UInt64 × Image) := do
  if fw.early 0 = .error then throw "file Open failed"
  let ehdr := readEhdr (← readExact kernel 0 ehdrSize (fw.early 1))
  checkEhdr ehdr
  let phdrsSize := ehdr.ePhnum.toNat * ehdr.ePhentsize.toNat
  if fw.early 2 = .error then throw "AllocatePool(phdrs) failed"
  if fw.early 3 = .error then throw "SetPosition(phoff) failed"
  let phdrs ← readExact kernel ehdr.ePhoff.toNat phdrsSize (fw.early 4)
  let image ← (List.range ehdr.ePhnum.toNat).foldlM
    (fun image i => loadSegment fw kernel image i (readPhdr phdrs (i * phdrSize)))
    ⟨0xFFFFFFFFFFFFFFFF, 0, ehdr.ePhoff.toNat + phdrsSize⟩
  if ehdr.eEntry < image.kernelStart + kernelVirtualBase ∨
      ehdr.eEntry ≥ image.kernelEnd + kernelVirtualBase then
    throw "entry point outside loaded kernel"
  return (ehdr.eEntry, image)

/-! ## The digest -/

def hashBufSize : Nat := 512

variable {content kernel : List UInt8}

theorem length_slice_le {pos n : Nat} : (slice content pos n).length ≤ content.length - pos := by
  rw [slice, length_take, length_drop]
  exact min_le_right _ _

/-- The loop of the digest ends at the end of the file, and at an error. -/
def hashLoop (content : List UInt8) (answers : Nat → Answer) (i pos : Nat) (hasher : Sha256) :
    Sha256 :=
  match _hread : readFile content pos hashBufSize (answers i) with
  | none => hasher
  | some chunk =>
    if chunk = [] then hasher
    else hashLoop content answers (i + 1) (pos + chunk.length) (hasher.update chunk)
termination_by content.length - pos
decreasing_by
  rename_i hchunk
  have hpos := List.length_pos_iff.mpr hchunk
  cases hanswer : answers i with
  | error =>
    rw [hanswer] at _hread
    cases _hread
  | ok =>
    rw [hanswer] at _hread
    have hle : chunk.length ≤ content.length - pos := by
      rw [← Option.some.inj _hread]
      exact length_slice_le
    omega

structure LoadedKernel where
  entry : UInt64
  kernelStart : UInt64
  kernelEnd : UInt64
  sha256 : List UInt8

/-- The comparison with `kernel.sig`, if it can be opened. -/
def checkSignature (fw : Firmware) (sig : Option (List UInt8)) (sha256 : List UInt8) :
    Except String Unit :=
  match sig with
  | none => .ok ()
  | some content =>
    match readExact content 0 32 fw.sigRead with
    | .error _ => .ok ()
    | .ok expected =>
      if constantTimeEq sha256 expected then .ok ()
      else .error "SECURE_BOOT_VIOLATION: KERNEL_HASH_MISMATCH"

/-- `load_kernel_elf` on the contents of `kernel.elf` and, if it can be opened,
`kernel.sig`. -/
def loadKernelElf (fw : Firmware) (kernel : List UInt8) (sig : Option (List UInt8)) :
    Except String LoadedKernel := do
  let (entry, image) ← loadImage fw kernel
  let pos := if fw.rewind = .error then image.pos else 0
  let sha256 := (hashLoop kernel fw.hashing 0 pos Sha256.new).finalize
  checkSignature fw sig sha256
  return ⟨entry, image.kernelStart, image.kernelEnd, sha256⟩

/-! ## What is measured -/

/-- The bytes that the first `i` reads from the start of a file deliver. -/
def delivered (answers : Nat → Answer) (content : List UInt8) : Nat → Nat
  | 0 => 0
  | i + 1 => delivered answers content i +
      ((readFile content (delivered answers content i) hashBufSize (answers i)).getD []).length

def Complete (answers : Nat → Answer) (content : List UInt8) : Prop :=
  ∀ i, delivered answers content i < content.length → answers i ≠ .error

theorem delivered_mono (answers : Nat → Answer) (content : List UInt8) :
    Monotone (delivered answers content) :=
  monotone_nat_of_le_succ fun _ => Nat.le_add_right _ _

section

variable {answers : Nat → Answer}

theorem slice_eq_nil {pos n : Nat} (hn : 0 < n) (h : slice content pos n = []) :
    content.length ≤ pos := by
  rw [slice, take_eq_nil_iff] at h
  exact drop_eq_nil_iff.mp (h.resolve_left hn.ne')

theorem readFile_eq_none {pos n : Nat} {answer : Answer}
    (h : readFile content pos n answer = none) : answer = .error := by
  cases answer with
  | error => rfl
  | ok => cases h

theorem readFile_eq_some {pos n : Nat} {answer : Answer} {bytes : List UInt8}
    (h : readFile content pos n answer = some bytes) :
    answer ≠ .error ∧ ∃ m, (0 < n → 0 < m) ∧ bytes = slice content pos m := by
  cases answer with
  | error => cases h
  | ok count =>
    refine ⟨nofun, min n (max 1 count), fun hn => ?_, (Option.some.inj h).symm⟩
    exact lt_min hn (lt_max_of_lt_left Nat.one_pos)

theorem hashLoop_eq {i pos : Nat} {hasher : Sha256} (hpos : pos = delivered answers content i)
    (hle : pos ≤ content.length) (hhasher : hasher = hashed (content.take pos))
    (hgood : ∀ j < i, answers j ≠ .error) :
    ∃ n ≤ content.length, hashLoop content answers i pos hasher = hashed (content.take n) ∧
      (n = content.length ↔ Complete answers content) := by
  -- at the end of the file the later reads do not matter
  have hdone {i : Nat} (hgood : ∀ j < i, answers j ≠ .error)
      (hend : delivered answers content i = content.length) : Complete answers content := by
    intro j hj
    refine hgood j (lt_of_not_ge fun hij => ?_)
    have := delivered_mono answers content hij
    omega
  fun_induction hashLoop content answers i pos hasher with
  | case1 i pos hasher hread =>
    refine ⟨pos, hle, hhasher, fun hend => hdone hgood (hpos ▸ hend), fun hcomplete => ?_⟩
    by_contra hne
    exact hcomplete i (hpos ▸ lt_of_le_of_ne hle hne) (readFile_eq_none hread)
  | case2 i pos hasher hread =>
    obtain ⟨-, m, hm, hslice⟩ := readFile_eq_some hread
    have hend : pos = content.length :=
      le_antisymm hle (slice_eq_nil (hm (by decide)) hslice.symm)
    exact ⟨pos, hle, hhasher, iff_of_true hend (hdone hgood (hpos ▸ hend))⟩
  | case3 i pos hasher chunk hread hchunk ih =>
    obtain ⟨hanswer, m, -, rfl⟩ := readFile_eq_some hread
    refine ih ?_ ?_ ?_ fun j hj => ?_
    · rw [delivered, ← hpos, hread]
      rfl
    · have hslice : (slice content pos m).length ≤ content.length - pos := length_slice_le
      omega
    · rw [hhasher, Sha256.update_hashed]
      congr 1
      rw [take_add, slice, length_take, ← take_eq_take_min]
    · rcases Nat.lt_succ_iff_lt_or_eq.mp hj with hj | rfl
      · exact hgood j hj
      · exact hanswer

end

/-! ## Verified boot -/

/-- The firmware does not fail while the kernel is measured, and `kernel.sig` is read in
one call. -/
structure Undisturbed (fw : Firmware) (kernel : List UInt8) (sig : Option (List UInt8)) : Prop where
  rewind : fw.rewind ≠ .error
  hashing : Complete fw.hashing kernel
  signature : ∀ content, sig = some content →
    ∃ expected, readExact content 0 32 fw.sigRead = .ok expected

theorem readExact_eq_ok {bytes : List UInt8} {pos len : Nat} {answer : Answer}
    (h : readExact content pos len answer = .ok bytes) :
    bytes.length = len ∧ ∃ m, bytes = slice content pos m := by
  unfold readExact at h
  split at h
  · rename_i hread
    split_ifs at h with hlen
    cases h
    obtain ⟨-, m, -, hslice⟩ := readFile_eq_some hread
    exact ⟨hlen, m, hslice⟩
  · cases h

theorem loadKernelElf_eq_ok {fw : Firmware} {sig : Option (List UInt8)}
    {k : LoadedKernel} (h : loadKernelElf fw kernel sig = .ok k) :
    ∃ pos, (fw.rewind ≠ .error → pos = 0) ∧
      k.sha256 = (hashLoop kernel fw.hashing 0 pos new).finalize ∧
      checkSignature fw sig k.sha256 = .ok () := by
  unfold loadKernelElf at h
  cases himage : loadImage fw kernel with
  | error =>
    rw [himage] at h
    cases h
  | ok loaded =>
    rw [himage] at h
    change (checkSignature fw sig _ >>= fun _ => pure _) = Except.ok k at h
    generalize hpos : (if fw.rewind = .error then loaded.2.pos else 0) = pos at h
    generalize hsha : (hashLoop kernel fw.hashing 0 pos new).finalize = sha256 at h
    cases hsig : checkSignature fw sig sha256 with
    | error =>
      rw [hsig] at h
      cases h
    | ok =>
      rw [hsig] at h
      cases h
      exact ⟨pos, fun hrewind => by rw [← hpos, if_neg hrewind], hsha.symm, hsig⟩

/-- **Verified boot.** If the firmware does not fail while the kernel is measured, the
digest is of the whole file and is the one in `kernel.sig`. With the position reset, the
digest is always of the first bytes of the file, and of all of them exactly if no read
fails before the end. -/
theorem verified_boot {fw : Firmware} {kernel : List UInt8} {sig : Option (List UInt8)}
    {k : LoadedKernel} (h : loadKernelElf fw kernel sig = .ok k) :
    (Undisturbed fw kernel sig → k.sha256 = Fips180.sha256 kernel ∧
      ∀ content, sig = some content → 32 ≤ content.length ∧ content.take 32 = k.sha256) ∧
    (fw.rewind ≠ .error → ∃ n ≤ kernel.length, k.sha256 = Fips180.sha256 (kernel.take n) ∧
      (n = kernel.length ↔ Complete fw.hashing kernel)) := by
  obtain ⟨_, hpos, hsha, hsig⟩ := loadKernelElf_eq_ok h
  have hmeasured (hrewind : fw.rewind ≠ .error) : ∃ n ≤ kernel.length,
      k.sha256 = Fips180.sha256 (kernel.take n) ∧
        (n = kernel.length ↔ Complete fw.hashing kernel) := by
    obtain rfl := hpos hrewind
    have hnew : Sha256.new = Sha256.hashed (kernel.take 0) := by
      rw [take_zero]
      rfl
    obtain ⟨n, hle, hhash, hcomplete⟩ :=
      @hashLoop_eq kernel fw.hashing 0 0 Sha256.new rfl (Nat.zero_le _) hnew nofun
    refine ⟨n, hle, ?_, hcomplete⟩
    rw [hsha, hhash, Sha256.finalize_hashed]
  refine ⟨fun hfw => ⟨?_, ?_⟩, hmeasured⟩
  · obtain ⟨n, -, hn, hcomplete⟩ := hmeasured hfw.rewind
    rw [hn, hcomplete.mpr hfw.hashing, take_length]
  · rintro content rfl
    obtain ⟨_, hread⟩ := hfw.signature content rfl
    obtain ⟨hlen, m, hslice⟩ := readExact_eq_ok hread
    unfold checkSignature at hsig
    dsimp only at hsig
    rw [hread] at hsig
    dsimp only at hsig
    split_ifs at hsig with heq
    rw [constantTimeEq_iff.mp heq]
    rw [hslice, slice, drop_zero, length_take] at hlen
    refine ⟨by omega, ?_⟩
    rw [hslice, slice, drop_zero, ← hlen, ← take_eq_take_min]

/-! ## A small kernel -/

/-- Two headers: one empty segment with the entry point in it. -/
def tinyKernel : List UInt8 :=
  [0x7f, 0x45, 0x4c, 0x46, 2, 1, 1] ++ List.replicate 11 0 ++ [62, 0, 0, 0, 0, 0] ++
  leBytes 8 0xFFFFFFFF80100000 ++ leBytes 8 64 ++ List.replicate 14 0 ++ [56, 0, 1, 0] ++
  List.replicate 6 0 ++
  [1, 0, 0, 0] ++ List.replicate 20 0 ++ leBytes 8 0x100000 ++ leBytes 8 0 ++ leBytes 8 0x1000 ++
  List.replicate 8 0

/-- A firmware that delivers what it is asked for while the image is loaded and the
signature is read. -/
def firmware (hashing : Nat → Answer) : Firmware := ⟨fun _ => .ok 4096, .ok 0, hashing, .ok 4096⟩

theorem loadImage_congr {fw fw' : Firmware} (h : fw.early = fw'.early) :
    loadImage fw kernel = loadImage fw' kernel := by
  unfold loadImage loadSegment
  rw [h]

theorem loadKernelElf_tinyKernel (hashing : Nat → Answer) (sig : Option (List UInt8))
    {sha256 : List UInt8} (hsha : (hashLoop tinyKernel hashing 0 0 new).finalize = sha256)
    (hsig : checkSignature (firmware hashing) sig sha256 = .ok ()) :
    ∃ k, loadKernelElf (firmware hashing) tinyKernel sig = .ok k ∧ k.sha256 = sha256 := by
  have himage : (loadImage (firmware hashing) tinyKernel).toBool = true := by
    rw [loadImage_congr (show (firmware hashing).early = (firmware fun _ => .error).early from rfl)]
    decide +kernel
  rcases hload : loadImage (firmware hashing) tinyKernel with e | loaded
  · rw [hload] at himage
    cases himage
  · refine ⟨⟨loaded.1, loaded.2.kernelStart, loaded.2.kernelEnd, sha256⟩, ?_, rfl⟩
    unfold loadKernelElf
    rw [hload]
    show (checkSignature (firmware hashing) sig
      (hashLoop tinyKernel hashing 0 0 new).finalize >>= fun _ => .ok
        (LoadedKernel.mk loaded.1 loaded.2.kernelStart loaded.2.kernelEnd
          (hashLoop tinyKernel hashing 0 0 new).finalize)) = _
    rw [hsha, hsig]
    rfl

theorem readExact_digest (data : List UInt8) :
    readExact (Sha256.digest data) 0 32 (.ok 4096) = .ok (Sha256.digest data) := by
  have hslice : slice (Sha256.digest data) 0 32 = Sha256.digest data := by
    rw [slice, drop_zero, take_of_length_le (Sha256.length_digest data).le]
  have hread : readFile (Sha256.digest data) 0 32 (.ok 4096) = some (Sha256.digest data) :=
    congrArg some hslice
  unfold readExact
  rw [hread]
  exact if_pos (Sha256.length_digest data)

theorem verified_boot_tinyKernel :
    ∃ k, loadKernelElf (firmware fun _ => .ok 512) tinyKernel (some (Sha256.digest tinyKernel)) =
        .ok k ∧ k.sha256 = Fips180.sha256 tinyKernel := by
  have hcomplete : Complete (fun _ => .ok 512) tinyKernel := fun _ _ => nofun
  obtain ⟨n, -, hhash, hn⟩ := @hashLoop_eq tinyKernel (fun _ => .ok 512) 0 0 Sha256.new rfl
    (Nat.zero_le _) rfl nofun
  rw [hn.mpr hcomplete, take_length] at hhash
  obtain ⟨k, hload, -⟩ := loadKernelElf_tinyKernel (fun _ => .ok 512)
    (some (Sha256.digest tinyKernel)) (congrArg Sha256.finalize hhash) (by
      rw [Sha256.finalize_hashed, ← Sha256.digest_eq]
      decide +kernel)
  refine ⟨k, hload, ((verified_boot hload).1 ⟨nofun, hcomplete, ?_⟩).1⟩
  rintro _ ⟨⟩
  exact ⟨Sha256.digest tinyKernel, readExact_digest tinyKernel⟩

/-- An empty `kernel.sig` is opened and not compared with anything; and a read that fails
at once leaves the digest of nothing. -/
theorem unchecked_kernel_loaded :
    (∃ k, loadKernelElf (firmware fun _ => .ok 512) tinyKernel (some []) = .ok k ∧
      ¬ 32 ≤ ([] : List UInt8).length) ∧
    ∃ k, loadKernelElf (firmware fun _ => .error) tinyKernel none = .ok k ∧
      k.sha256 ≠ Fips180.sha256 tinyKernel := by
  constructor
  · obtain ⟨k, hload, -⟩ := loadKernelElf_tinyKernel (fun _ => .ok 512) (some []) rfl rfl
    exact ⟨k, hload, by decide⟩
  · have hloop : hashLoop tinyKernel (fun _ => .error) 0 0 Sha256.new = Sha256.new := by
      rw [hashLoop]
      rfl
    obtain ⟨k, hload, hsha⟩ := loadKernelElf_tinyKernel (fun _ => .error) none
      (congrArg Sha256.finalize hloop) rfl
    refine ⟨k, hload, ?_⟩
    rw [hsha, ← Sha256.digest_eq]
    decide +kernel

end AgenticOS.Boot
