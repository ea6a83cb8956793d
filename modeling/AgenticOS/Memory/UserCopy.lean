import AgenticOS.Memory.PageTable

/-!
# Copies to and from user memory

The validation and the copy loops of `kernel_rs/src/vmm.rs`. The validation
walks the tables page by page and checks every level; the copy walks them byte
by byte and checks nothing. What connects the two is that the leaf entry the
validation has seen present is the one that the unchecked walk finds, and that
no byte written lands in a table.

The validation steps a 64-bit address by a page at a time. It runs past the
end of the address space if the range reaches the last page, and then starts
again at 0, so such a range is never accepted.
-/

namespace AgenticOS

open Foundation List UInt64

/-! ## Bytes of physical memory -/

def readByte (mem : PhysicalMemory) (paddr : UInt64) : UInt8 :=
  let offset := (paddr &&& offsetMask).toNat
  Packed.byteOf (mem (paddr &&& ~~~offsetMask) (offset / 8)) (offset % 8)

def writeByte (mem : PhysicalMemory) (paddr : UInt64) (byte : UInt8) : PhysicalMemory :=
  let frame := paddr &&& ~~~offsetMask
  let offset := (paddr &&& offsetMask).toNat
  write mem frame (offset / 8) (Packed.withByte (mem frame (offset / 8)) (offset % 8) byte)

theorem toNat_offset (a : UInt64) : (a &&& offsetMask).toNat = a.toNat % 4096 := by
  rw [UInt64.toNat_and]
  exact Nat.and_two_pow_sub_one_eq_mod a.toNat 12

theorem toNat_pageBase (a : UInt64) : (a &&& ~~~offsetMask).toNat = a.toNat / 4096 * 4096 := by
  have hmask : (~~~offsetMask).toNat = (2 ^ 52 - 1) <<< 12 := rfl
  have hlt := a.toNat_lt
  rw [Packed.toNat_and_field hmask, Nat.mod_eq_of_lt (by omega)]
  norm_num

theorem readByte_writeByte (mem : PhysicalMemory) (p q : UInt64) (b : UInt8) :
    readByte (writeByte mem p b) q = if q = p then b else readByte mem q := by
  have hsame : q = p ↔ q &&& ~~~offsetMask = p &&& ~~~offsetMask ∧
      (q &&& offsetMask).toNat = (p &&& offsetMask).toNat := by
    rw [← UInt64.toNat_inj, ← UInt64.toNat_inj, toNat_pageBase, toNat_pageBase, toNat_offset,
      toNat_offset]
    omega
  by_cases hword : q &&& ~~~offsetMask = p &&& ~~~offsetMask ∧
      (q &&& offsetMask).toNat / 8 = (p &&& offsetMask).toNat / 8
  · rcases hword with ⟨hframe, hindex⟩
    simp only [readByte, writeByte, hframe, hindex, write_same]
    rw [Packed.byteOf_withByte (Nat.mod_lt _ (by decide))]
    have hbyte : (q &&& offsetMask).toNat % 8 = (p &&& offsetMask).toNat % 8 ↔ q = p := by
      rw [hsame]
      constructor
      · exact fun _ => ⟨hframe, by omega⟩
      · exact fun h => by rw [h.2]
    simp only [hbyte]
  · have hne : q ≠ p := by
      rintro rfl
      exact hword ⟨rfl, rfl⟩
    simp only [readByte, writeByte, if_neg hne]
    rw [write_of_ne hword]

/-! ## Validation -/

def Grants (required entry : UInt64) : Prop := entry &&& required = required

instance (required entry : UInt64) : Decidable (Grants required entry) :=
  inferInstanceAs (Decidable (_ = _))

/-- The loop over the pages below `stop`; `none` if it does not end within the
given number of rounds. -/
def validatePages (mem : PhysicalMemory) (pml4 required stop : UInt64) :
    Nat → UInt64 → Option Bool
  | 0, _ => none
  | rounds + 1, page =>
    if page < stop then
      if debugTranslate mem pml4 page &&& required ≠ required then some false
      else validatePages mem pml4 required stop rounds (page + 0x1000)
    else some true

/-- The two validations differ in the flags they require of a page of the
kernel; of a process they require `PAGE_USER` as well. -/
def validateUserBuffer (access : UInt64) (mem : PhysicalMemory) (kernelPml4 : UInt64)
    (rounds : Nat) (pml4 vaddr len : UInt64) : Option Bool :=
  if len = 0 then some false
  else if 2 ^ 64 ≤ vaddr.toNat + len.toNat then some false
  else
    let required := if pml4 = kernelPml4 then access else access ||| pageUser
    validatePages mem pml4 required (vaddr + len) rounds (vaddr &&& ~~~offsetMask)

def validateUserBufferWritable : PhysicalMemory → UInt64 → Nat → UInt64 → UInt64 → UInt64 →
    Option Bool :=
  validateUserBuffer (pagePresent ||| pageWritable)

def validateUserBufferReadable : PhysicalMemory → UInt64 → Nat → UInt64 → UInt64 → UInt64 →
    Option Bool :=
  validateUserBuffer pagePresent

variable {mem m : PhysicalMemory} {kernelPml4 pml4 required stop page v : UInt64}

theorem add_pages_zero (page : UInt64) : page + UInt64.ofNat 0 * 4096 = page := by
  show page + 0 * 4096 = page
  rw [zero_mul, UInt64.add_zero]

theorem add_pages_succ (page : UInt64) (j : Nat) :
    page + UInt64.ofNat (j + 1) * 4096 = page + 0x1000 + UInt64.ofNat j * 4096 := by
  rw [ofNat_add, UInt64.add_mul, UInt64.add_comm (ofNat j * 4096), ← UInt64.add_assoc]
  rfl

theorem toNat_next_page (h : page.toNat + 4096 < 2 ^ 64) :
    (page + 0x1000).toNat = page.toNat + 4096 := by
  rw [UInt64.toNat_add]
  exact Nat.mod_eq_of_lt h

variable {rounds : Nat}

theorem grants_of_validatePages
    (h : validatePages mem pml4 required stop rounds page = some true) (j : Nat)
    (hj : page.toNat + j * 4096 < stop.toNat) :
    Grants required (debugTranslate mem pml4 (page + UInt64.ofNat j * 4096)) := by
  induction rounds generalizing page j with
  | zero => cases h
  | succ rounds ih =>
    have hstop := stop.toNat_lt
    have hlt : page < stop := lt_iff_toNat_lt.mpr (by omega)
    rw [validatePages, if_pos hlt] at h
    split_ifs at h with hflags
    · cases h
    · cases j with
      | zero =>
        rw [add_pages_zero]
        exact not_not.mp hflags
      | succ j =>
        rw [add_pages_succ]
        exact ih h j (by rw [toNat_next_page (by omega)]; omega)

theorem validatePages_eq_true {n : Nat} (hlast : stop.toNat ≤ 2 ^ 64 - 4096)
    (hn : stop.toNat ≤ page.toNat + n * 4096)
    (hflags : ∀ j, page.toNat + j * 4096 < stop.toNat →
      Grants required (debugTranslate mem pml4 (page + UInt64.ofNat j * 4096))) :
    validatePages mem pml4 required stop (n + 1) page = some true := by
  induction n generalizing page with
  | zero =>
    rw [validatePages, if_neg]
    rw [lt_iff_toNat_lt]
    omega
  | succ n ih =>
    rw [validatePages]
    split_ifs with hlt hbad
    · rw [lt_iff_toNat_lt] at hlt
      have hfirst := hflags 0 (by omega)
      rw [add_pages_zero] at hfirst
      exact absurd hfirst hbad
    · rw [lt_iff_toNat_lt] at hlt
      have hnext : (page + 0x1000).toNat = page.toNat + 4096 := toNat_next_page (by omega)
      apply ih
      · omega
      · intro j _
        rw [← add_pages_succ]
        exact hflags (j + 1) (by omega)
    · rfl

theorem validatePages_ne_true (hlast : 2 ^ 64 - 4096 < stop.toNat) (hpage : page.toNat % 4096 = 0) :
    validatePages mem pml4 required stop rounds page ≠ some true := by
  induction rounds generalizing page with
  | zero => simp [validatePages]
  | succ rounds ih =>
    have hlt : page < stop := by
      rw [lt_iff_toNat_lt]
      have := page.toNat_lt
      omega
    rw [validatePages, if_pos hlt]
    split_ifs with hbad
    · simp
    · apply ih
      rw [UInt64.toNat_add]
      show (page.toNat + 4096) % 2 ^ 64 % 4096 = 0
      omega

variable {access vaddr len : UInt64}

theorem add_ofNat_zero (vaddr : UInt64) : vaddr + UInt64.ofNat 0 = vaddr := UInt64.add_zero vaddr

theorem add_ofNat_succ (vaddr : UInt64) (i : Nat) :
    vaddr + UInt64.ofNat (i + 1) = vaddr + 1 + UInt64.ofNat i := by
  rw [ofNat_add, UInt64.add_comm (ofNat i), ← UInt64.add_assoc]
  rfl

variable {i j : Nat}

theorem toNat_add_ofNat (h : vaddr.toNat + i < 2 ^ 64) :
    (vaddr + UInt64.ofNat i).toNat = vaddr.toNat + i := by
  rw [UInt64.toNat_add, toNat_ofNat']
  omega

theorem pageNumber_byte (h : vaddr.toNat + i < 2 ^ 64) :
    pageNumber (vaddr + UInt64.ofNat i) = pageNumber ((vaddr &&& ~~~offsetMask) +
        UInt64.ofNat ((vaddr.toNat + i) / 4096 - vaddr.toNat / 4096) * 4096) := by
  have hsize : (4096 : UInt64).toNat = 4096 := rfl
  rw [pageNumber, pageNumber, toNat_add_ofNat h, UInt64.toNat_add, toNat_pageBase,
    UInt64.toNat_mul, toNat_ofNat', hsize]
  omega

theorem grants_of_validateUserBuffer (hproc : pml4 ≠ kernelPml4)
    (h : validateUserBuffer access mem kernelPml4 rounds pml4 vaddr len = some true) :
    vaddr.toNat + len.toNat < 2 ^ 64 ∧ ∀ i < len.toNat,
      Grants (access ||| pageUser) (debugTranslate mem pml4 (vaddr + UInt64.ofNat i)) := by
  unfold validateUserBuffer at h
  split_ifs at h with hzero hwrap
  · cases h
  · cases h
  · have hfit : vaddr.toNat + len.toNat < 2 ^ 64 := by omega
    have hstop : (vaddr + len).toNat = vaddr.toNat + len.toNat := by
      rw [UInt64.toNat_add]
      exact Nat.mod_eq_of_lt hfit
    refine ⟨hfit, fun i _ => ?_⟩
    rw [debugTranslate_congr (pageNumber_byte (by omega))]
    apply grants_of_validatePages h
    rw [toNat_pageBase, hstop]
    omega

/-- **What validation accepts.** Of the ranges that have the flags, all but
those that reach into the last page of the address space. -/
theorem validateUserBuffer_iff (hproc : pml4 ≠ kernelPml4) (hlen : len ≠ 0)
    (hflags : ∀ i < len.toNat,
      Grants (access ||| pageUser) (debugTranslate mem pml4 (vaddr + UInt64.ofNat i)))
    (hrange : vaddr.toNat + len.toNat ≤ 2 ^ 64) :
    (∃ rounds, validateUserBuffer access mem kernelPml4 rounds pml4 vaddr len = some true) ↔
      vaddr.toNat + len.toNat ≤ 2 ^ 64 - 4096 := by
  have hbase := toNat_pageBase vaddr
  constructor
  · rintro ⟨rounds, h⟩
    by_contra hlast
    rw [validateUserBuffer, if_neg hlen, if_neg hproc] at h
    split_ifs at h with hwrap
    · cases h
    · have hstop : (vaddr + len).toNat = vaddr.toNat + len.toNat := by
        rw [UInt64.toNat_add]
        exact Nat.mod_eq_of_lt (by omega)
      refine validatePages_ne_true ?_ ?_ h
      · omega
      · omega
  · intro hlast
    have hstop : (vaddr + len).toNat = vaddr.toNat + len.toNat := by
      rw [UInt64.toNat_add]
      exact Nat.mod_eq_of_lt (by omega)
    refine ⟨len.toNat / 4096 + 2 + 1, ?_⟩
    rw [validateUserBuffer, if_neg hlen, if_neg (by omega), if_neg hproc]
    apply validatePages_eq_true
    · omega
    · omega
    · intro j _
      -- a byte of the range on page `j`
      have hbyte : ∃ i < len.toNat, (vaddr.toNat + i) / 4096 - vaddr.toNat / 4096 = j := by
        have hpos : 0 < len.toNat := Nat.pos_of_ne_zero fun h => hlen (UInt64.toNat_inj.mp h)
        by_cases hj0 : j = 0
        · exact ⟨0, hpos, by omega⟩
        · exact ⟨(vaddr.toNat / 4096 + j) * 4096 - vaddr.toNat, by omega, by omega⟩
      rcases hbyte with ⟨i, hi, rfl⟩
      rw [← debugTranslate_congr (pageNumber_byte (by omega))]
      exact hflags i hi

/-! ## Copying -/

/-- `leaf_phys`: the frame that the walk ends at, without a look at the
present bits. -/
def walkLeaf (mem : PhysicalMemory) (pml4 addr : UInt64) : UInt64 :=
  let (i4, i3, i2, i1) := splitIndices addr
  let pdpt := mem pml4 i4 &&& addrMask
  let pd := mem pdpt i3 &&& addrMask
  let pt := mem pd i2 &&& addrMask
  mem pt i1 &&& addrMask

def userByte (mem : PhysicalMemory) (pml4 addr : UInt64) : UInt64 :=
  walkLeaf mem pml4 addr + (addr &&& offsetMask)

/-- `write_user_bytes`: every byte is walked to in the memory that the one
before it has left. -/
def writeUserBytes (mem : PhysicalMemory) (pml4 vaddr : UInt64) : List UInt8 → PhysicalMemory
  | [] => mem
  | byte :: data =>
    writeUserBytes (writeByte mem (userByte mem pml4 vaddr) byte) pml4 (vaddr + 1) data

def readUserBytes (mem : PhysicalMemory) (pml4 vaddr : UInt64) (len : Nat) : List UInt8 :=
  (List.range len).map fun i => readByte mem (userByte mem pml4 (vaddr + UInt64.ofNat i))

/-- The unchecked walk ends where the checked one does. -/
theorem walkLeaf_eq (h : isPresent (debugTranslate mem pml4 v) = true) :
    walkLeaf mem pml4 v = debugTranslate mem pml4 v &&& addrMask := by
  have hempty : isPresent 0 = false := rfl
  simp only [walkLeaf, debugTranslate] at h ⊢
  generalize splitIndices v = indices at h ⊢
  rcases indices with ⟨i4, i3, i2, _⟩
  by_cases h4 : isPresent (mem pml4 i4)
  · by_cases h3 : isPresent (mem (mem pml4 i4 &&& addrMask) i3)
    · by_cases h2 : isPresent (mem (mem (mem pml4 i4 &&& addrMask) i3 &&& addrMask) i2)
      · simp [h4, h3, h2]
      · simp [h4, h3, h2, hempty] at h
    · simp [h4, h3, hempty] at h
  · simp [h4, hempty] at h

def IsTableOf (mem : PhysicalMemory) (pml4 f : UInt64) : Prop :=
  ∃ v n, pageTableFormat.descend mem pml4 ((tablePath v).take n) = some f

theorem debugTranslate_of_tables (hsame : ∀ f, IsTableOf mem pml4 f → ∀ i, m f i = mem f i) :
    debugTranslate m pml4 v = debugTranslate mem pml4 v := by
  have hdescend : pageTableFormat.descend m pml4 (tablePath v) =
      pageTableFormat.descend mem pml4 (tablePath v) := by
    apply EntryFormat.descend_congr
    intro π1 i _ f hsplit hf
    apply hsame f ⟨v, π1.length, ?_⟩
    rw [hsplit, take_left]
    exact hf
  rw [debugTranslate_eq, debugTranslate_eq, EntryFormat.entryAt, EntryFormat.entryAt, hdescend]
  cases hf : pageTableFormat.descend mem pml4 (tablePath v) with
  | none => rfl
  | some f =>
    apply hsame f ⟨v, 3, ?_⟩
    exact hf

variable {entry f p : UInt64}

theorem Grants.mono {required required' : UInt64} (h : Grants required entry)
    (hsub : required &&& required' = required') : Grants required' entry := by
  unfold Grants at h ⊢
  rw [← hsub, ← UInt64.and_assoc, h]

theorem Grants.isPresent (h : Grants pagePresent entry) : isPresent entry = true := by
  unfold Grants at h
  rw [AgenticOS.isPresent, h]
  rfl

theorem toNat_userByte (mem : PhysicalMemory) (pml4 v : UInt64) :
    (userByte mem pml4 v).toNat = (walkLeaf mem pml4 v).toNat + v.toNat % 4096 ∧
      (walkLeaf mem pml4 v).toNat % 4096 = 0 := by
  have hleaf : ∃ w, walkLeaf mem pml4 v = w &&& addrMask := ⟨_, rfl⟩
  rcases hleaf with ⟨w, hw⟩
  rw [userByte, UInt64.toNat_add, toNat_offset, hw, toNat_and_addrMask]
  omega

theorem userByte_pageBase (mem : PhysicalMemory) (pml4 v : UInt64) :
    userByte mem pml4 v &&& ~~~offsetMask = walkLeaf mem pml4 v := by
  rcases toNat_userByte mem pml4 v with ⟨hbyte, _⟩
  apply UInt64.toNat_inj.mp
  rw [toNat_pageBase, hbyte]
  omega

/-! ### Bytes written one after the other -/

def storeBytes (mem : PhysicalMemory) (bytes : List (UInt64 × UInt8)) : PhysicalMemory :=
  bytes.foldl (fun mem b => writeByte mem b.1 b.2) mem

variable {bytes : List (UInt64 × UInt8)}

theorem storeBytes_frame
    (h : storeBytes m bytes f j ≠ m f j) : ∃ b ∈ bytes, b.1 &&& ~~~offsetMask = f := by
  induction bytes generalizing m with
  | nil => exact absurd rfl h
  | cons b bytes ih =>
    by_cases hfirst : writeByte m b.1 b.2 f j = m f j
    · rw [← hfirst] at h
      rcases ih h with ⟨b', hb', hf⟩
      exact ⟨b', mem_cons_of_mem _ hb', hf⟩
    · refine ⟨b, mem_cons_self, ?_⟩
      by_contra hf
      exact hfirst (write_of_ne fun hsame => hf hsame.1.symm)

theorem readByte_storeBytes_of_notMem
    (h : p ∉ bytes.map Prod.fst) : readByte (storeBytes m bytes) p = readByte m p := by
  induction bytes generalizing m with
  | nil => rfl
  | cons b bytes ih =>
    rw [map_cons, mem_cons, not_or] at h
    exact (ih h.2).trans ((readByte_writeByte m b.1 p b.2).trans (if_neg h.1))

theorem readByte_storeBytes_of_mem {b : UInt8}
    (hnodup : (bytes.map Prod.fst).Nodup) (h : (p, b) ∈ bytes) :
    readByte (storeBytes m bytes) p = b := by
  induction bytes generalizing m with
  | nil => cases h
  | cons b' bytes ih =>
    rw [map_cons, nodup_cons] at hnodup
    rcases mem_cons.mp h with rfl | h
    · refine (readByte_storeBytes_of_notMem hnodup.1).trans ?_
      rw [readByte_writeByte, if_pos rfl]
    · exact ih hnodup.2 h

/-! ### The copy loop -/

/-- The bytes of a copy with the places that the tables say. -/
def userBytes (mem : PhysicalMemory) (pml4 vaddr : UInt64) (data : List UInt8) :
    List (UInt64 × UInt8) :=
  data.mapIdx fun i b => (userByte mem pml4 (vaddr + UInt64.ofNat i), b)

theorem userBytes_cons (b : UInt8) (data : List UInt8) : userBytes mem pml4 v (b :: data) =
      (userByte mem pml4 v, b) :: userBytes mem pml4 (v + 1) data := by
  simp only [userBytes, mapIdx_cons, add_ofNat_succ, add_ofNat_zero]

theorem map_fst_userBytes (data : List UInt8) : (userBytes mem pml4 v data).map Prod.fst =
      (range data.length).map fun i => userByte mem pml4 (v + UInt64.ofNat i) := by
  apply ext_getElem
  · simp [userBytes]
  · intro i _ _
    simp [userBytes]

variable (mem pml4) in
def SameTables (m : PhysicalMemory) : Prop := ∀ f, IsTableOf mem pml4 f → ∀ i, m f i = mem f i

theorem SameTables.userByte_eq (h : SameTables mem pml4 m)
    (hpresent : isPresent (debugTranslate mem pml4 v) = true) :
    userByte m pml4 v = userByte mem pml4 v := by
  have htranslate : debugTranslate m pml4 v = debugTranslate mem pml4 v :=
    debugTranslate_of_tables h
  rw [userByte, userByte, walkLeaf_eq hpresent, walkLeaf_eq (htranslate ▸ hpresent), htranslate]

variable {data : List UInt8}

/-- The loop writes to the places that the tables say, since it never changes
them. -/
theorem writeUserBytes_eq (h : SameTables mem pml4 m)
    (hpresent : ∀ i < data.length, isPresent (debugTranslate mem pml4 (v + UInt64.ofNat i)) = true)
    (hclear : ∀ i < data.length, ¬ IsTableOf mem pml4 (walkLeaf mem pml4 (v + UInt64.ofNat i))) :
    writeUserBytes m pml4 v data = storeBytes m (userBytes mem pml4 v data) ∧
      SameTables mem pml4 (writeUserBytes m pml4 v data) := by
  induction data generalizing m v with
  | nil => exact ⟨rfl, h⟩
  | cons b data ih =>
    have hfirst := hpresent 0 (Nat.succ_pos _)
    have hframe := hclear 0 (Nat.succ_pos _)
    rw [add_ofNat_zero] at hfirst hframe
    have hbyte := h.userByte_eq hfirst
    have hstep : SameTables mem pml4 (writeByte m (userByte m pml4 v) b) := by
      intro f hf i
      rw [← h f hf i, hbyte]
      apply write_of_ne
      rintro ⟨rfl, -⟩
      rw [userByte_pageBase] at hf
      exact hframe hf
    have hrest := ih (v := v + 1) hstep
      (fun i hi => add_ofNat_succ v i ▸ hpresent (i + 1) (Nat.succ_lt_succ hi))
      (fun i hi => add_ofNat_succ v i ▸ hclear (i + 1) (Nat.succ_lt_succ hi))
    refine ⟨?_, hrest.2⟩
    rw [writeUserBytes, hrest.1, userBytes_cons, hbyte]
    rfl

/-! ## Faithful copies -/

def DistinctFrames (mem : PhysicalMemory) (pml4 vaddr : UInt64) (len : Nat) : Prop :=
  ∀ i < len, ∀ j < len,
    (vaddr + UInt64.ofNat i).toNat / 4096 ≠ (vaddr + UInt64.ofNat j).toNat / 4096 →
      walkLeaf mem pml4 (vaddr + UInt64.ofNat i) ≠ walkLeaf mem pml4 (vaddr + UInt64.ofNat j)

theorem DistinctFrames.nodup {len : Nat} (h : DistinctFrames mem pml4 v len)
    (hfit : v.toNat + len ≤ 2 ^ 64) :
    ((range len).map fun i => userByte mem pml4 (v + UInt64.ofNat i)).Nodup := by
  apply Nodup.map_on _ nodup_range
  intro i hi j hj heq
  rw [mem_range] at hi hj
  rcases toNat_userByte mem pml4 (v + ofNat i) with ⟨hi', _⟩
  rcases toNat_userByte mem pml4 (v + ofNat j) with ⟨hj', _⟩
  rw [heq, hj'] at hi'
  by_cases hpage : (v + ofNat i).toNat / 4096 = (v + ofNat j).toNat / 4096
  · rw [toNat_add_ofNat (by omega), toNat_add_ofNat (by omega)] at hpage hi'
    omega
  · refine absurd (UInt64.toNat_inj.mp ?_) (h i hi j hj hpage)
    omega

theorem writeUserBytes_faithful {vaddr : UInt64} (hfit : vaddr.toNat + data.length ≤ 2 ^ 64)
    (hgrants : ∀ i < data.length, Grants (pagePresent ||| pageWritable ||| pageUser)
      (debugTranslate mem pml4 (vaddr + UInt64.ofNat i)))
    (htables : ∀ v f, Grants (pagePresent ||| pageUser) (debugTranslate mem pml4 v) →
      IsTableOf mem pml4 f → debugTranslate mem pml4 v &&& addrMask ≠ f) :
    (∀ f j, writeUserBytes mem pml4 vaddr data f j ≠ mem f j →
      ∃ v, Grants (pagePresent ||| pageWritable ||| pageUser) (debugTranslate mem pml4 v) ∧
        debugTranslate mem pml4 v &&& addrMask = f) ∧
    (DistinctFrames mem pml4 vaddr data.length →
      readUserBytes (writeUserBytes mem pml4 vaddr data) pml4 vaddr data.length = data ∧
      ∀ p, (∀ i < data.length, p ≠ userByte mem pml4 (vaddr + UInt64.ofNat i)) →
        readByte (writeUserBytes mem pml4 vaddr data) p = readByte mem p) := by
  have hpresent (i : Nat) (hi : i < data.length) :
      isPresent (debugTranslate mem pml4 (vaddr + ofNat i)) = true :=
    ((hgrants i hi).mono (by decide)).isPresent
  have hclear (i : Nat) (hi : i < data.length) :
      ¬ IsTableOf mem pml4 (walkLeaf mem pml4 (vaddr + ofNat i)) := by
    rw [walkLeaf_eq (hpresent i hi)]
    exact fun htable => htables _ _ ((hgrants i hi).mono (by decide)) htable rfl
  have hself : SameTables mem pml4 mem := fun _ _ _ => rfl
  rcases writeUserBytes_eq hself hpresent hclear with ⟨hstore, hsame⟩
  constructor
  · intro f j hne
    rw [hstore] at hne
    rcases storeBytes_frame hne with ⟨b, hb, rfl⟩
    have hfst := List.mem_map_of_mem (f := Prod.fst) hb
    rw [map_fst_userBytes, List.mem_map] at hfst
    rcases hfst with ⟨i, hi, hbyte⟩
    rw [mem_range] at hi
    refine ⟨vaddr + ofNat i, hgrants i hi, ?_⟩
    rw [← hbyte, userByte_pageBase, walkLeaf_eq (hpresent i hi)]
  · intro hdistinct
    have hnodup : ((userBytes mem pml4 vaddr data).map Prod.fst).Nodup := by
      rw [map_fst_userBytes]
      exact hdistinct.nodup hfit
    constructor
    · apply ext_getElem
      · rw [readUserBytes, length_map, length_range]
      · intro i hi hi'
        simp only [readUserBytes, getElem_map, getElem_range]
        rw [hsame.userByte_eq (hpresent i hi'), hstore]
        apply readByte_storeBytes_of_mem hnodup
        rw [userBytes, mem_mapIdx]
        exact ⟨i, hi', rfl⟩
    · intro p hp
      rw [hstore]
      apply readByte_storeBytes_of_notMem
      rw [map_fst_userBytes, List.mem_map]
      rintro ⟨i, hi, rfl⟩
      exact hp i (mem_range.mp hi) rfl

/-- **Validated user copies.** For a process whose tables its own user pages do
not map: an accepted write changes only frames of writable user pages, reads
back and changes nothing else; an accepted read returns the bytes of user
pages. Validation accepts exactly those ranges with the flags that do not reach
into the last page of the address space. -/
theorem user_copies_faithful (mem : PhysicalMemory) (kernelPml4 pml4 vaddr : UInt64)
    (data : List UInt8) (hproc : pml4 ≠ kernelPml4) (hlen : data.length < 2 ^ 64)
    (htables : ∀ v f, Grants (pagePresent ||| pageUser) (debugTranslate mem pml4 v) →
      IsTableOf mem pml4 f → debugTranslate mem pml4 v &&& addrMask ≠ f) :
    ((∃ rounds, validateUserBufferWritable mem kernelPml4 rounds pml4 vaddr
        (UInt64.ofNat data.length) = some true) →
      (∀ f j, writeUserBytes mem pml4 vaddr data f j ≠ mem f j →
        ∃ v, Grants (pagePresent ||| pageWritable ||| pageUser) (debugTranslate mem pml4 v) ∧
          debugTranslate mem pml4 v &&& addrMask = f) ∧
      (DistinctFrames mem pml4 vaddr data.length →
        readUserBytes (writeUserBytes mem pml4 vaddr data) pml4 vaddr data.length = data ∧
        ∀ p, (∀ i < data.length, p ≠ userByte mem pml4 (vaddr + UInt64.ofNat i)) →
          readByte (writeUserBytes mem pml4 vaddr data) p = readByte mem p)) ∧
    ((∃ rounds, validateUserBufferReadable mem kernelPml4 rounds pml4 vaddr
        (UInt64.ofNat data.length) = some true) →
      ∀ i < data.length,
        Grants (pagePresent ||| pageUser) (debugTranslate mem pml4 (vaddr + UInt64.ofNat i)) ∧
        (readUserBytes mem pml4 vaddr data.length)[i]? =
          some (readByte mem ((debugTranslate mem pml4 (vaddr + UInt64.ofNat i) &&& addrMask) +
            ((vaddr + UInt64.ofNat i) &&& offsetMask)))) ∧
    (data ≠ [] → vaddr.toNat + data.length ≤ 2 ^ 64 →
      ((∀ i < data.length, Grants (pagePresent ||| pageWritable ||| pageUser)
          (debugTranslate mem pml4 (vaddr + UInt64.ofNat i))) →
        ((∃ rounds, validateUserBufferWritable mem kernelPml4 rounds pml4 vaddr
            (UInt64.ofNat data.length) = some true) ↔
          vaddr.toNat + data.length ≤ 2 ^ 64 - 4096)) ∧
      ((∀ i < data.length, Grants (pagePresent ||| pageUser)
          (debugTranslate mem pml4 (vaddr + UInt64.ofNat i))) →
        ((∃ rounds, validateUserBufferReadable mem kernelPml4 rounds pml4 vaddr
            (UInt64.ofNat data.length) = some true) ↔
          vaddr.toNat + data.length ≤ 2 ^ 64 - 4096))) := by
  have hcount : (ofNat data.length).toNat = data.length := toNat_ofNat_of_lt' hlen
  refine ⟨?_, ?_, ?_⟩
  · rintro ⟨rounds, haccept⟩
    rcases grants_of_validateUserBuffer hproc haccept with ⟨hfit, hgrants⟩
    rw [hcount] at hfit hgrants
    exact writeUserBytes_faithful hfit.le hgrants htables
  · rintro ⟨rounds, haccept⟩ i hi
    rcases grants_of_validateUserBuffer hproc haccept with ⟨hfit, hgrants⟩
    rw [hcount] at hgrants
    refine ⟨hgrants i hi, ?_⟩
    rw [readUserBytes, List.getElem?_map, List.getElem?_range hi, Option.map_some, userByte,
      walkLeaf_eq ((hgrants i hi).mono (by decide)).isPresent]
  · intro hne hrange
    have hzero : ofNat data.length ≠ 0 := by
      intro heq
      rw [heq] at hcount
      exact hne (length_eq_zero_iff.mp hcount.symm)
    have hiff {access : UInt64} (hflags : ∀ i < data.length,
        Grants (access ||| pageUser) (debugTranslate mem pml4 (vaddr + ofNat i))) :
        (∃ rounds, validateUserBuffer access mem kernelPml4 rounds pml4 vaddr
          (ofNat data.length) = some true) ↔ vaddr.toNat + data.length ≤ 2 ^ 64 - 4096 := by
      rw [← hcount] at hflags hrange
      have h := validateUserBuffer_iff hproc hzero hflags hrange
      rwa [hcount] at h
    exact ⟨hiff, hiff⟩

/-- Four tables in a row with one user page, at index `i` of each. -/
def oneUserPage (i : Nat) : PhysicalMemory := fun f j =>
  if j ≠ i then 0
  else if f = 0x1000 then 0x2007
  else if f = 0x2000 then 0x3007
  else if f = 0x3000 then 0x4007
  else if f = 0x4000 then 0x5007
  else 0

theorem oneUserPage_target
    (h : isPresent (oneUserPage i f j) = true) : oneUserPage i f j &&& addrMask = f + 0x1000 := by
  unfold oneUserPage at h ⊢
  split_ifs at h ⊢ with hj h1 h2 h3 h4
  · cases h
  · rw [h1]
    decide
  · rw [h2]
    decide
  · rw [h3]
    decide
  · rw [h4]
    decide
  · cases h

theorem descend_oneUserPage {g : UInt64} {π : List Nat}
    (h : pageTableFormat.descend (oneUserPage i) f π = some g) :
    g = f + UInt64.ofNat π.length * 0x1000 := by
  induction π generalizing f with
  | nil =>
    cases h
    exact (add_pages_zero _).symm
  | cons j π ih =>
    unfold EntryFormat.descend at h
    split_ifs at h with hpresent
    rw [length_cons, add_pages_succ, ih h]
    exact congrArg (· + _) (oneUserPage_target hpresent)

/-- Two bytes written to the page at 0. -/
theorem user_copies_faithful_one_page :
    readUserBytes (writeUserBytes (oneUserPage 0) 0x1000 0x123 [7, 9]) 0x1000 0x123 2 = [7, 9] := by
  have htables : ∀ v f, Grants (pagePresent ||| pageUser)
      (debugTranslate (oneUserPage 0) 0x1000 v) → IsTableOf (oneUserPage 0) 0x1000 f →
        debugTranslate (oneUserPage 0) 0x1000 v &&& addrMask ≠ f := by
    rintro v f hgrants ⟨v', n, hf⟩
    have hpresent := (hgrants.mono (by decide : _ &&& pagePresent = _)).isPresent
    rw [debugTranslate_eq] at hpresent ⊢
    cases hpt : pageTableFormat.descend (oneUserPage 0) 0x1000 (tablePath v) with
    | none =>
      rw [EntryFormat.entryAt_of_none hpt] at hpresent
      cases hpresent
    | some =>
      rw [EntryFormat.entryAt_of_some hpt] at hpresent ⊢
      rw [oneUserPage_target hpresent, descend_oneUserPage hpt, descend_oneUserPage hf, length_take]
      have hn : min n 3 = 0 ∨ min n 3 = 1 ∨ min n 3 = 2 ∨ min n 3 = 3 := by omega
      show 0x1000 + ofNat 3 * 0x1000 + 0x1000 ≠ 0x1000 + ofNat (min n 3) * 0x1000
      rcases hn with h | h | h | h <;> rw [h] <;> decide
  have haccept : ∃ rounds, validateUserBufferWritable (oneUserPage 0) 0x9000 rounds 0x1000 0x123
      (ofNat 2) = some true := ⟨2, by decide⟩
  have hdistinct : DistinctFrames (oneUserPage 0) 0x1000 0x123 2 := by
    intro i _ j _ hpage
    exact absurd (by interval_cases i <;> interval_cases j <;> decide) hpage
  have hcopies := user_copies_faithful (oneUserPage 0) 0x9000 0x1000 0x123 [7, 9] (by decide)
    (by decide) htables
  exact ((hcopies.1 haccept).2 hdistinct).1

/-- The last page has all the flags, and a range in it is refused: after it
the validation looks at page 0. -/
theorem last_page_refused : (∀ i < 16, Grants (pagePresent ||| pageWritable ||| pageUser)
      (debugTranslate (oneUserPage 511) 0x1000 (0xFFFFFFFFFFFFFF00 + UInt64.ofNat i))) ∧
    validateUserBufferWritable (oneUserPage 511) 0x9000 2 0x1000 0xFFFFFFFFFFFFFF00 16 =
      some false := by
  decide

end AgenticOS
