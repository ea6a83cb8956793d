import AgenticOS.Memory.ElfSafety

/-!
# Pages of a loaded program

Each page of a segment gets a frame of its own, which is filled and mapped
whatever was mapped there before. So in the end a page shows the segment that
came last: `loadPages_page` says what its entry and its frame are,
`readByte_pageImage` what its bytes are, and `OpenBelow` that the levels above
the last one take no right away.
-/

namespace AgenticOS

open Foundation List Option UInt64

namespace Elf

/-! ## Frames that are left alone -/

variable {σ : Type} {A : PageSource σ} {roots : List UInt64} {s s' : PageStore σ}
  {pml4 f frame v : UInt64} {bytes : List UInt8} {ph : Elf64Phdr} {p : Nat} {mem : PhysicalMemory}

variable (A roots) in
structure IsData (s : PageStore σ) (f : UInt64) : Prop where
  real : f ≠ 0
  taken : A.taken s.frames f
  apart : ∀ r π, ¬ IsTable roots s.mem r π f

theorem IsData.setsEntry {r v w : UInt64} (hf : IsData A roots s f)
    (hset : SetsEntry A roots r v w s s') : IsData A roots s' f := by
  refine ⟨hf.real, hset.taken hf.taken, fun r π ht => ?_⟩
  rcases hset.fresh ht with ht | hnew
  · exact hf.apart r π ht
  · exact hnew hf.taken

section

variable (hs : PagesSound A roots s)

include hs

theorem undisturbed_pageImage (bytes : List UInt8) (ph : Elf64Phdr) (p : Nat) :
    Undisturbed A roots s
      ⟨pageImage s.mem bytes ph p (A.alloc s.frames).1, (A.alloc s.frames).2⟩ := by
  have hframe := isFrame_mod (A.alloc_isFrame _ hs.ok)
  exact undisturbed_alloc hs fun f hf i => pageImage_of_ne hframe hf i

theorem loadPage_words (hr : pml4 ∈ roots)
    (h : loadPage A s pml4 bytes ph p = some (frame, s')) (hf : IsData A roots s f) (i : Nat) :
    s'.mem f i = s.mem f i := by
  rcases loadPage_eq h with ⟨rfl, hmap⟩
  have hu := undisturbed_pageImage hs bytes ph p
  have hne : f ≠ (A.alloc s.frames).1 := by
    rintro rfl
    refine A.alloc_fresh _ hs.ok ?_ hf.taken
    rw [A.null_eq]
    exact hf.real
  have hkeep := mapPage_words (i := i) (hu.sound hs) hr hmap (hu.taken hf.taken)
    fun r π ht => hf.apart r π (hu.isTable_iff.mp ht)
  dsimp only at hkeep
  exact hkeep.trans (pageImage_of_ne (isFrame_mod (A.alloc_isFrame _ hs.ok)) hne i)

theorem loadPage_frame (hr : pml4 ∈ roots)
    (h : loadPage A s pml4 bytes ph p = some (frame, s')) (hne : frame ≠ 0) :
    IsFrame frame ∧ IsData A roots s' frame ∧
      ∀ i, s'.mem frame i = pageImage s.mem bytes ph p frame frame i := by
  rcases loadPage_eq h with ⟨rfl, hmap⟩
  have hu := undisturbed_pageImage hs bytes ph p
  have hnull : (A.alloc s.frames).1 ≠ A.null := by rwa [A.null_eq]
  have htaken : A.taken (A.alloc s.frames).2 (A.alloc s.frames).1 :=
    (A.alloc_taken _ hs.ok hnull _).mpr (.inr rfl)
  have hset1 := mapPage_spec (hu.sound hs) hr hmap
  have hdata : IsData A roots
      ⟨pageImage s.mem bytes ph p (A.alloc s.frames).1, (A.alloc s.frames).2⟩
      (A.alloc s.frames).1 :=
    ⟨hne, htaken, fun r _ ht => hs.alloc_not_table (hu.isTable_iff.mp ht)⟩
  refine ⟨A.alloc_isFrame _ hs.ok, hdata.setsEntry hset1, fun i => ?_⟩
  have hkeep := mapPage_words (i := i) (hu.sound hs) hr hmap hdata.taken hdata.apart
  dsimp only at hkeep
  exact hkeep

end

variable {pages : List (Elf64Phdr × Nat)} {frames frames' : List UInt64}

theorem loadPages_words (hs : PagesSound A roots s) (hr : pml4 ∈ roots)
    (h : loadPages A pml4 bytes pages (frames, s) = some (frames', s'))
    (hf : IsData A roots s f) (i : Nat) : s'.mem f i = s.mem f i := by
  induction pages generalizing s frames with
  | nil =>
    cases h
    rfl
  | cons x pages ih =>
    rcases bind_eq_some_iff.mp h with ⟨⟨_, _⟩, hfirst, hrest⟩
    rcases bind_eq_some_iff.mp hfirst with ⟨⟨_, _⟩, hpage, hst⟩
    cases hst
    have hset := loadPage_sets hs hr hpage
    rw [ih hset.sound hrest (hf.setsEntry hset), loadPage_words hs hr hpage hf]

/-- **What a page shows** is the last that was loaded there. -/
theorem loadPages_page {pre post : List (Elf64Phdr × Nat)} {x : Elf64Phdr × Nat}
    (hs : PagesSound A roots s) (hr : pml4 ∈ roots)
    (h : loadPages A pml4 bytes (pre ++ x :: post) ([], s) = some (frames, s'))
    (halloc : 0 ∉ frames)
    (hlast : ∀ y ∈ post, pageNumber (pageVaddr y.1 y.2) ≠ pageNumber (pageVaddr x.1 x.2)) :
    ∃ frame mem, IsFrame frame ∧ (∀ v, pageNumber v = pageNumber (pageVaddr x.1 x.2) →
        debugTranslate s'.mem pml4 v = leafEntry frame (segmentFlags x.1)) ∧
      ∀ i, s'.mem frame i = pageImage mem bytes x.1 x.2 frame frame i := by
  rw [loadPages_append] at h
  rcases bind_eq_some_iff.mp h with ⟨⟨_, s1⟩, hpre, h⟩
  rcases bind_eq_some_iff.mp h with ⟨⟨_, _⟩, hx, hpost⟩
  rcases bind_eq_some_iff.mp hx with ⟨⟨frame, _⟩, hpage, hst⟩
  cases hst
  rcases loadPages_sets hs hr hpre with ⟨_, -, -, hsets1⟩
  have hset := loadPage_sets hsets1.sound hr hpage
  rcases loadPages_sets hset.sound hr hpost with ⟨_, hframes, -, hsets⟩
  have hne : frame ≠ 0 := by
    rintro rfl
    apply halloc
    rw [hframes]
    simp
  rcases loadPage_frame hsets1.sound hr hpage hne with ⟨hframe, hdata, hwords⟩
  refine ⟨frame, s1.mem, hframe, ?_, ?_⟩
  · intro v hv
    rw [debugTranslate_congr hv, hsets.others hr, hset.entry]
    intro e he
    left
    rcases List.mem_map.mp he with ⟨y, hy, rfl⟩
    exact (hlast y.1 (of_mem_zip hy).1).symm
  · intro i
    rw [loadPages_words hset.sound hr hpost hdata, hwords]

/-! ## Bytes of a page -/

/-- The byte at the address `a` of a page that shows the segment. -/
def shownByte (bytes : List UInt8) (ph : Elf64Phdr) (a : Nat) : UInt8 :=
  if ph.pVaddr.toNat ≤ a ∧ a < ph.pVaddr.toNat + ph.pFilesz.toNat then
    bytes.getD (ph.pOffset.toNat + (a - ph.pVaddr.toNat)) 0
  else 0

theorem readByte_fill_zero {q : UInt64} (hq : q &&& ~~~offsetMask = frame) :
    readByte (fill mem frame fun _ => 0) q = 0 := by
  unfold readByte
  dsimp only
  rw [hq, fill_same]
  exact Packed.byteOf_zero _

theorem toNat_copyStart : (copyStart ph p).toNat = max (pageVaddr ph p).toNat ph.pVaddr.toNat :=
  toNat_max ..

theorem toNat_copyEnd (hcheck : segmentError bytes ph = none) (hm : Measured ph)
    (hp : p < segmentPages ph) :
    (copyEnd ph p).toNat =
      min ((pageVaddr ph p).toNat + 4096) (ph.pVaddr.toNat + ph.pFilesz.toNat) := by
  have hend := (toNat_pageVaddr hm hp).2
  have hlt := (vaddrEnd ph).toNat_lt
  rw [copyEnd, toNat_min, UInt64.toNat_add, UInt64.toNat_add,
    Nat.mod_eq_of_lt (exact_of_measured hcheck hm).fileEnd]
  show min (((pageVaddr ph p).toNat + 4096) % 2 ^ 64) _ = _
  rw [Nat.mod_eq_of_lt (by omega)]

section

variable (hcheck : segmentError bytes ph = none) (hm : Measured ph) (hp : p < segmentPages ph)
  (hframe : frame.toNat % 4096 = 0) {a : Nat} {q : UInt64}

include hcheck hm hp hframe

theorem toNat_pageByte {i : Nat} (hi : i < (copyEnd ph p).toNat - (copyStart ph p).toNat) :
    (frame + (copyStart ph p - pageVaddr ph p + UInt64.ofNat i)).toNat =
      frame.toNat + ((copyStart ph p).toNat + i) % 4096 := by
  rcases toNat_pageVaddr hm hp with ⟨_, _⟩
  rw [toNat_copyEnd hcheck hm hp, toNat_copyStart] at hi
  have hlt := frame.toNat_lt
  rw [UInt64.toNat_add, UInt64.toNat_add, toNat_ofNat',
    UInt64.toNat_sub_of_le _ _ pageVaddr_le_copyStart, toNat_copyStart]
  omega

theorem mem_pageBytes {b : UInt64 × UInt8} :
    b ∈ pageBytes bytes ph p frame ↔ ∃ a, (copyStart ph p).toNat ≤ a ∧ a < (copyEnd ph p).toNat ∧
        b.1.toNat = frame.toNat + a % 4096 ∧
        b.2 = bytes.getD (ph.pOffset.toNat + (a - ph.pVaddr.toNat)) 0 := by
  have hstart : ph.pVaddr.toNat ≤ (copyStart ph p).toNat :=
    le_iff_toNat_le.mp pVaddr_le_copyStart
  unfold pageBytes
  split_ifs with hne
  · have hcount : (copyEnd ph p - copyStart ph p).toNat =
        (copyEnd ph p).toNat - (copyStart ph p).toNat :=
      UInt64.toNat_sub_of_le _ _ (UInt64.le_of_lt hne)
    have hsrc : (ph.pOffset + (copyStart ph p - ph.pVaddr)).toNat =
        ph.pOffset.toNat + ((copyStart ph p).toNat - ph.pVaddr.toNat) := by
      have hfits := ((exact_of_measured hcheck hm).source p hp hne).1
      rw [UInt64.toNat_add, UInt64.toNat_sub_of_le _ _ pVaddr_le_copyStart]
      rw [UInt64.toNat_sub_of_le _ _ pVaddr_le_copyStart] at hfits
      exact Nat.mod_eq_of_lt hfits
    rw [List.mem_map, hcount, hsrc]
    constructor
    · rintro ⟨i, hi, rfl⟩
      rw [mem_range] at hi
      refine ⟨(copyStart ph p).toNat + i, by omega, by omega, ?_, ?_⟩
      · exact toNat_pageByte hcheck hm hp hframe hi
      · rw [show ph.pOffset.toNat + ((copyStart ph p).toNat + i - ph.pVaddr.toNat) =
          ph.pOffset.toNat + ((copyStart ph p).toNat - ph.pVaddr.toNat) + i by omega]
    · rintro ⟨a, ha, ha', hfst, hsnd⟩
      have hi : a - (copyStart ph p).toNat < (copyEnd ph p).toNat - (copyStart ph p).toNat := by
        omega
      refine ⟨a - (copyStart ph p).toNat, mem_range.mpr hi, ?_⟩
      ext
      · rw [toNat_pageByte hcheck hm hp hframe hi, hfst, Nat.add_sub_cancel' ha]
      · rw [hsnd, show ph.pOffset.toNat + (a - ph.pVaddr.toNat) =
          ph.pOffset.toNat + ((copyStart ph p).toNat - ph.pVaddr.toNat) +
            (a - (copyStart ph p).toNat) by omega]
  · rw [lt_iff_toNat_lt] at hne
    constructor
    · exact fun hb => absurd hb not_mem_nil
    · rintro ⟨a, ha, ha', -⟩
      omega

theorem nodup_pageBytes : ((pageBytes bytes ph p frame).map Prod.fst).Nodup := by
  have hend := toNat_copyEnd hcheck hm hp
  rw [pageBytes]
  split_ifs with hne
  · rw [List.map_map]
    apply Nodup.map_on _ nodup_range
    intro i hi j hj heq
    rw [mem_range, UInt64.toNat_sub_of_le _ _ (UInt64.le_of_lt hne)] at hi hj
    have hnat := congrArg UInt64.toNat heq
    simp only [Function.comp_apply, toNat_pageByte hcheck hm hp hframe hi,
      toNat_pageByte hcheck hm hp hframe hj] at hnat
    rw [toNat_copyStart] at hi hj hnat
    omega
  · exact nodup_nil

/-- **The byte of a page** that belongs to the address `a`. -/
theorem readByte_pageImage (ha : a / 4096 = ph.pVaddr.toNat / 4096 + p)
    (hq : q.toNat = frame.toNat + a % 4096) :
    readByte (pageImage mem bytes ph p frame) q = shownByte bytes ph a := by
  have hpage := (toNat_pageVaddr hm hp).1
  -- the address is copied exactly if it is in the part of the segment from the file
  have hcopied : (ph.pVaddr.toNat ≤ a ∧ a < ph.pVaddr.toNat + ph.pFilesz.toNat) ↔
      (copyStart ph p).toNat ≤ a ∧ a < (copyEnd ph p).toNat := by
    rw [toNat_copyStart, toNat_copyEnd hcheck hm hp]
    omega
  unfold pageImage shownByte
  split_ifs with hin
  · apply readByte_storeBytes_of_mem (nodup_pageBytes hcheck hm hp hframe)
    rw [mem_pageBytes hcheck hm hp hframe]
    exact ⟨a, (hcopied.mp hin).1, (hcopied.mp hin).2, hq, rfl⟩
  · have hqframe : q &&& ~~~offsetMask = frame := by
      apply UInt64.toNat_inj.mp
      rw [toNat_pageBase, hq]
      omega
    rw [readByte_storeBytes_of_notMem, readByte_fill_zero hqframe]
    intro hmem
    rcases List.mem_map.mp hmem with ⟨b, hb, rfl⟩
    rcases (mem_pageBytes hcheck hm hp hframe).mp hb with ⟨_, _, _, _, -⟩
    have hwin := toNat_copyEnd hcheck hm hp
    have hstart : (copyStart ph p).toNat = max (pageVaddr ph p).toNat ph.pVaddr.toNat :=
      toNat_copyStart
    apply hin
    rw [hcopied]
    omega

end

/-! ## Rights of a page -/

/-- The words that are read on the way to a page, from the PML4 down. -/
def walkWords (mem : PhysicalMemory) (pml4 v : UInt64) : List UInt64 :=
  let (i4, i3, i2, i1) := splitIndices v
  let pml4e := mem pml4 i4
  let pdpte := mem (pml4e &&& addrMask) i3
  let pde := mem (pdpte &&& addrMask) i2
  let pte := mem (pde &&& addrMask) i1
  [pml4e, pdpte, pde, pte]

/-- The processor grants a right that every level grants. -/
def Permits (mem : PhysicalMemory) (pml4 v right : UInt64) : Prop :=
  ∀ w ∈ walkWords mem pml4 v, Grants right w

def Executable (mem : PhysicalMemory) (pml4 v : UInt64) : Prop :=
  ∀ w ∈ walkWords mem pml4 v, w &&& pageNoExecute = 0

/-- A word above the last level that takes nothing away. -/
def OpenLink (w : UInt64) : Prop := Grants intermediateFlags w ∧ w &&& pageNoExecute = 0

variable (roots : List UInt64) in
/-- The user half of `pml4` is open down to the last level. -/
def OpenBelow (pml4 : UInt64) (mem : PhysicalMemory) : Prop :=
  Store.Interior pageTableFormat (pml4Depth roots)
    (fun r path => r = pml4 ∧ ∃ i σ, path = i :: σ ∧ i < 256) OpenLink mem

theorem openLink_intermediate {f : UInt64} (hf : IsFrame f) :
    OpenLink (f ||| intermediateFlags) := by
  have hmask {mask : UInt64} (hmask : addrMask &&& mask = 0) :
      (f ||| intermediateFlags) &&& mask = intermediateFlags &&& mask := by
    rw [← hf, Packed.or_and_right, UInt64.and_assoc, hmask, UInt64.and_zero, UInt64.zero_or]
  constructor
  · exact hmask (by decide)
  · exact hmask (by decide)

theorem openBelow_of_empty (hempty : ∀ i < 256, isPresent (mem pml4 i) = false) :
    OpenBelow roots pml4 mem := by
  rintro r π f i ⟨d, -, -, hdesc⟩ - ⟨rfl, j, σ, hpath, hj⟩ hpresent
  cases π with
  | nil =>
    cases hdesc
    rcases List.cons.inj hpath with ⟨rfl, -⟩
    rw [show pageTableFormat.present = isPresent from rfl, hempty i hj] at hpresent
    cases hpresent
  | cons k =>
    rcases List.cons.inj hpath with ⟨rfl, -⟩
    rw [EntryFormat.descend_cons_of_absent (hempty k hj)] at hdesc
    cases hdesc

theorem debugTranslate_of_empty (hv : InUserHalf v)
    (hempty : ∀ i < 256, isPresent (mem pml4 i) = false) : debugTranslate mem pml4 v = 0 := by
  rw [debugTranslate_eq, EntryFormat.entryAt_of_none]
  · rfl
  · exact EntryFormat.descend_cons_of_absent (hempty _ hv)

theorem OpenBelow.loadPages
    (h : OpenBelow roots pml4 s.mem) (hs : PagesSound A roots s) (hr : pml4 ∈ roots)
    (hload : loadPages A pml4 bytes pages (frames, s) = some (frames', s')) :
    OpenBelow roots pml4 s'.mem := by
  induction pages generalizing s frames with
  | nil =>
    cases hload
    exact h
  | cons x pages ih =>
    rcases bind_eq_some_iff.mp hload with ⟨⟨_, _⟩, hfirst, hrest⟩
    rcases bind_eq_some_iff.mp hfirst with ⟨⟨_, _⟩, hpage, hst⟩
    cases hst
    refine ih ?_ (loadPage_sets hs hr hpage).sound hrest
    rcases loadPage_eq hpage with ⟨rfl, hmap⟩
    have hu := undisturbed_pageImage hs bytes x.1 x.2
    exact mapPage_interior (fun _ => openLink_intermediate) (hu.sound hs) hr hmap
      (Store.Interior.of_tables_eq h hu.words)

theorem walkWords_of_present (hpresent : isPresent (debugTranslate mem pml4 v) = true) :
    ∃ pdpt pd, isPresent (mem pml4 (pml4Index v)) = true ∧
      pageTableFormat.descend mem pml4 [pml4Index v] = some pdpt ∧
      isPresent (mem pdpt (pdptIndex v)) = true ∧
      pageTableFormat.descend mem pml4 [pml4Index v, pdptIndex v] = some pd ∧
      isPresent (mem pd (pdIndex v)) = true ∧
      walkWords mem pml4 v = [mem pml4 (pml4Index v), mem pdpt (pdptIndex v),
        mem pd (pdIndex v), debugTranslate mem pml4 v] := by
  have hempty : isPresent 0 = false := rfl
  simp only [pml4Index, pdptIndex, pdIndex, walkWords, debugTranslate] at hpresent ⊢
  generalize splitIndices v = indices at hpresent ⊢
  rcases indices with ⟨i4, i3, i2, _⟩
  by_cases h4 : isPresent (mem pml4 i4) = true
  · by_cases h3 : isPresent (mem (mem pml4 i4 &&& addrMask) i3) = true
    · by_cases h2 : isPresent (mem (mem (mem pml4 i4 &&& addrMask) i3 &&& addrMask) i2) = true
      · have hpdpt : pageTableFormat.descend mem pml4 [i4] = some (mem pml4 i4 &&& addrMask) :=
          EntryFormat.descend_cons_of_present h4
        refine ⟨_, _, h4, hpdpt, h3, EntryFormat.descend_snoc hpdpt h3, h2, ?_⟩
        simp only [h4, h3, h2, Bool.not_true, Bool.false_eq_true, if_false]
        rfl
      · simp [h4, h3, h2, hempty] at hpresent
    · simp [h4, h3, hempty] at hpresent
  · simp [h4, hempty] at hpresent

theorem OpenBelow.openLink (h : OpenBelow roots pml4 mem) (hr : pml4 ∈ roots)
    (hv : InUserHalf v) (hpresent : isPresent (debugTranslate mem pml4 v) = true) {w : UInt64}
    (hw : w ∈ walkWords mem pml4 v) : OpenLink w ∨ w = debugTranslate mem pml4 v := by
  have hdepth := pml4Depth_of_mem hr
  have hlink (π : List Nat) {f : UInt64} {i : Nat} (hπ : π.length < 3)
      (hdesc : pageTableFormat.descend mem pml4 π = some f)
      (hpath : ∃ j σ, π ++ [i] = j :: σ ∧ j < 256) (hp : isPresent (mem f i) = true) :
      OpenLink (mem f i) := by
    refine h pml4 π f i ⟨3, hdepth, hπ.le, hdesc⟩ ?_ ⟨rfl, hpath⟩ hp
    rw [hdepth]
    exact fun heq => absurd (some_inj.mp heq) hπ.ne'
  rcases walkWords_of_present hpresent with ⟨_, _, h4, hpdpt, h3, hpd, h2, hwords⟩
  rw [hwords] at hw
  simp only [mem_cons, not_mem_nil, or_false] at hw
  rcases hw with rfl | rfl | rfl | rfl
  · exact .inl (hlink [] (Nat.zero_lt_succ _) rfl ⟨_, [], rfl, hv⟩ h4)
  · exact .inl (hlink [_] (Nat.lt_add_of_pos_left two_pos) hpdpt ⟨_, [_], rfl, hv⟩ h3)
  · exact .inl (hlink [_, _] (Nat.lt_succ_self 2) hpd ⟨_, [_, _], rfl, hv⟩ h2)
  · exact .inr rfl

theorem OpenBelow.words_iff (h : OpenBelow roots pml4 mem) (hr : pml4 ∈ roots)
    (hv : InUserHalf v) (hpresent : isPresent (debugTranslate mem pml4 v) = true)
    {P : UInt64 → Prop} (hopen : ∀ w, OpenLink w → P w) :
    (∀ w ∈ walkWords mem pml4 v, P w) ↔ P (debugTranslate mem pml4 v) := by
  constructor
  · intro hwords
    rcases walkWords_of_present hpresent with ⟨_, _, -, -, -, -, -, heq⟩
    apply hwords
    rw [heq]
    simp
  · intro hleaf w hw
    rcases h.openLink hr hv hpresent hw with hlink | rfl
    · exact hopen w hlink
    · exact hleaf

theorem leafEntry_and {mask : UInt64} (hmask : addrMask &&& mask = 0)
    (hpresent : pagePresent &&& mask = 0) :
    leafEntry frame (segmentFlags ph) &&& mask = segmentFlags ph &&& mask := by
  rw [leafEntry, Packed.or_and_right, Packed.or_and_right, UInt64.and_assoc, hmask,
    UInt64.and_zero, UInt64.zero_or, hpresent, UInt64.or_zero]

theorem grants_writable_leafEntry :
    Grants pageWritable (leafEntry frame (segmentFlags ph)) ↔ ph.pFlags &&& pfW ≠ 0 := by
  rw [Grants, leafEntry_and (by decide) (by decide), segmentFlags]
  by_cases hw : ph.pFlags &&& pfW ≠ 0
  · rw [if_pos hw]
    refine iff_of_true ?_ hw
    split_ifs
    all_goals decide
  · rw [if_neg hw]
    refine iff_of_false ?_ hw
    split_ifs
    all_goals decide

theorem noExecute_leafEntry :
    leafEntry frame (segmentFlags ph) &&& pageNoExecute = 0 ↔ ph.pFlags &&& pfX ≠ 0 := by
  rw [leafEntry_and (by decide) (by decide), segmentFlags]
  by_cases hx : ph.pFlags &&& pfX ≠ 0
  · rw [if_pos hx]
    refine iff_of_true ?_ hx
    split_ifs
    all_goals decide
  · rw [if_neg hx]
    refine iff_of_false ?_ hx
    split_ifs
    all_goals decide

end Elf

end AgenticOS
