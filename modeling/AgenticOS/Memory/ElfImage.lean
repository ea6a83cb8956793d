import AgenticOS.Memory.ElfPages

/-!
# The image of a loaded program

What should be in memory after `elf::load` is compared with what is: a page
shows the segment that came last, so two segments that share a page are both
there only if the earlier one had nothing but zeros in it and no right that the
later one lacks.
-/

namespace AgenticOS

open Foundation List UInt64

namespace Elf

/-! ## The image -/

def ptLoads (bytes : List UInt8) : List Elf64Phdr :=
  (phdrs bytes).filter fun ph => ph.pType = ptLoad

def loadError (bytes : List UInt8) : Option ElfError :=
  match headerError bytes with
  | some e => some e
  | none => (ptLoads bytes).findSome? (segmentError bytes)

def InSegment (ph : Elf64Phdr) (a : Nat) : Prop :=
  ph.pVaddr.toNat ≤ a ∧ a < ph.pVaddr.toNat + ph.pMemsz.toNat

def Covers (ph : Elf64Phdr) (n : Nat) : Prop :=
  ph.pVaddr.toNat / 4096 ≤ n ∧ n < (ph.pVaddr.toNat + ph.pMemsz.toNat + 0xFFF) / 4096

instance (ph : Elf64Phdr) (n : Nat) : Decidable (Covers ph n) :=
  inferInstanceAs (Decidable (_ ∧ _))

/-- The segments are in the user half, and no byte belongs to two of them. -/
structure LaidOut (bytes : List UInt8) : Prop where
  below : ∀ ph ∈ ptLoads bytes, ph.pVaddr.toNat + ph.pMemsz.toNat ≤ 2 ^ 47
  disjoint : (ptLoads bytes).Pairwise fun ph ph' => ∀ a, InSegment ph a → ¬ InSegment ph' a

/-- A process that reads at `v` gets the byte `b`. -/
def ByteAt (mem : PhysicalMemory) (pml4 v : UInt64) (b : UInt8) : Prop :=
  isPresent (debugTranslate mem pml4 v) = true ∧ readByte mem (userByte mem pml4 v) = b

structure Image (mem : PhysicalMemory) (pml4 : UInt64) (bytes : List UInt8) : Prop where
  file : ∀ ph ∈ ptLoads bytes, ∀ i < ph.pFilesz.toNat,
    ByteAt mem pml4 (ph.pVaddr + UInt64.ofNat i) (bytes.getD (ph.pOffset.toNat + i) 0)
  zero : ∀ ph ∈ ptLoads bytes, ∀ i, ph.pFilesz.toNat ≤ i → i < ph.pMemsz.toNat →
    ByteAt mem pml4 (ph.pVaddr + UInt64.ofNat i) 0
  rights : ∀ ph ∈ ptLoads bytes, ∀ v, Covers ph (pageNumber v) →
    Permits mem pml4 v (pagePresent ||| pageUser) ∧
      (ph.pFlags &&& pfW ≠ 0 → Permits mem pml4 v pageWritable) ∧
      (ph.pFlags &&& pfX ≠ 0 → Executable mem pml4 v)
  rest : ∀ v, InUserHalf v → (∀ ph ∈ ptLoads bytes, ¬ Covers ph (pageNumber v)) →
    isPresent (debugTranslate mem pml4 v) = false

/-- Nothing of `ph` is lost in page `n` when `ph'` takes its place. -/
structure Yields (bytes : List UInt8) (ph ph' : Elf64Phdr) (n : Nat) : Prop where
  file : ∀ i < ph.pFilesz.toNat, (ph.pVaddr.toNat + i) / 4096 = n →
    bytes.getD (ph.pOffset.toNat + i) 0 = 0
  writable : ph.pFlags &&& pfW ≠ 0 → ph'.pFlags &&& pfW ≠ 0
  executable : ph.pFlags &&& pfX ≠ 0 → ph'.pFlags &&& pfX ≠ 0

/-- `ph` is the last segment of the page `n`, and those in `earlier` come before it. -/
def LastAt (bytes : List UInt8) (earlier : List Elf64Phdr) (ph : Elf64Phdr) (n : Nat) : Prop :=
  ∃ later, ptLoads bytes = earlier ++ ph :: later ∧ Covers ph n ∧ ∀ ph ∈ later, ¬ Covers ph n

/-- In a page of several segments all others yield to the last one. -/
def SharesCleanly (bytes : List UInt8) : Prop :=
  ∀ earlier ph' n, LastAt bytes earlier ph' n →
    ∀ ph ∈ earlier, Covers ph n → Yields bytes ph ph' n

variable {σ : Type} {A : PageSource σ} {s s' : PageStore σ} {pml4 entry : UInt64}
  {bytes : List UInt8} {result : Except ElfError UInt64} {frames roots : List UInt64}
  {ph ph' : Elf64Phdr} {n p : Nat}

theorem loadSegments_result {headers : List Elf64Phdr} {st st' : List UInt64 × PageStore σ}
    {error : Option ElfError}
    (h : loadSegments A pml4 bytes headers st = some (error, st')) :
    error = (headers.filter fun ph => ph.pType = ptLoad).findSome? (segmentError bytes) := by
  induction headers generalizing st with
  | nil =>
    cases h
    rfl
  | cons ph rest ih =>
    rw [loadSegments] at h
    split_ifs at h with htype
    · rw [filter_cons_of_neg (by simpa using htype)]
      exact ih h
    · rw [filter_cons_of_pos (by simpa using htype), List.findSome?_cons]
      cases herror : segmentError bytes ph with
      | some =>
        rw [herror] at h
        cases h
        rfl
      | none =>
        rw [herror] at h
        rcases Option.bind_eq_some_iff.mp h with ⟨_, -, hrest⟩
        exact ih hrest

theorem load_result (h : load A s pml4 bytes = some (result, frames, s')) :
    result = match loadError bytes with
      | some e => .error e
      | none => .ok (readEhdr bytes).eEntry := by
  unfold load at h
  unfold loadError
  cases hheader : headerError bytes with
  | some =>
    rw [hheader] at h
    cases h
    rfl
  | none =>
    rw [hheader] at h
    rcases Option.bind_eq_some_iff.mp h with ⟨⟨error, _⟩, hsegments, hret⟩
    dsimp only
    rw [ptLoads, ← loadSegments_result hsegments]
    cases error with
    | some | none =>
      cases hret
      rfl

theorem load_ok (h : load A s pml4 bytes = some (.ok entry, frames, s')) :
    loadError bytes = none ∧ entry = (readEhdr bytes).eEntry := by
  have hresult := load_result h
  cases herror : loadError bytes with
  | none =>
    rw [herror] at hresult
    exact ⟨rfl, Except.ok.inj hresult⟩
  | some =>
    rw [herror] at hresult
    cases hresult

theorem loadedPages_of_loadError (h : loadError bytes = none) :
    (∀ ph ∈ ptLoads bytes, segmentError bytes ph = none) ∧ loadedPages bytes =
        (ptLoads bytes).flatMap fun ph => (List.range (segmentPages ph)).map (ph, ·) := by
  unfold loadError at h
  cases hheader : headerError bytes with
  | some =>
    rw [hheader] at h
    cases h
  | none =>
    rw [hheader] at h
    have hcheck := List.findSome?_eq_none_iff.mp h
    refine ⟨hcheck, ?_⟩
    have hall : loadedSegments bytes = ptLoads bytes :=
      takeWhile_eq_self_iff.mpr fun ph hph => decide_eq_true (hcheck ph hph)
    rw [loadedPages, if_pos hheader, hall]

theorem LaidOut.measured (h : LaidOut bytes) (hph : ph ∈ ptLoads bytes) : Measured ph := by
  have hbelow := h.below ph hph
  unfold Measured
  omega

theorem covers_iff (hm : Measured ph) :
    Covers ph n ↔ ∃ p < segmentPages ph, n = ph.pVaddr.toNat / 4096 + p := by
  rw [Covers, segmentPages_eq hm]
  constructor
  · rintro ⟨hle, hlt⟩
    exact ⟨n - ph.pVaddr.toNat / 4096, by omega, by omega⟩
  · rintro ⟨p, hp, rfl⟩
    omega

theorem LaidOut.pageNumber_pageVaddr (h : LaidOut bytes) (hph : ph ∈ ptLoads bytes)
    (hp : p < segmentPages ph) :
    pageNumber (pageVaddr ph p) = ph.pVaddr.toNat / 4096 + p := by
  have hbelow := h.below ph hph
  have hpage := (toNat_pageVaddr (h.measured hph) hp).1
  rw [segmentPages_eq (h.measured hph)] at hp
  rw [pageNumber, hpage]
  omega

theorem LaidOut.covers_lt (h : LaidOut bytes) (hph : ph ∈ ptLoads bytes) (hn : Covers ph n) :
    n < 2 ^ 35 := by
  have hbelow := h.below ph hph
  unfold Covers at hn
  omega

variable {earlier : List Elf64Phdr}

theorem LastAt.mem (h : LastAt bytes earlier ph n) : ph ∈ ptLoads bytes := by
  rcases h with ⟨_, hsplit, -⟩
  rw [hsplit]
  exact mem_append_right _ mem_cons_self

theorem LastAt.covers (h : LastAt bytes earlier ph n) : Covers ph n := by
  rcases h with ⟨_, -, hn, -⟩
  exact hn

/-- Every page of a segment has a last one, which comes after the segment if it
is another. -/
theorem exists_lastAt (hph : ph ∈ ptLoads bytes) (hn : Covers ph n) :
    ∃ earlier ph', LastAt bytes earlier ph' n ∧ (ph ∈ earlier ∨ ph = ph') := by
  have hlast : ∀ {l : List Elf64Phdr}, ph ∈ l → ∃ earlier ph' later, l = earlier ++ ph' :: later ∧
      Covers ph' n ∧ (∀ x ∈ later, ¬ Covers x n) ∧ (ph ∈ earlier ∨ ph = ph') := by
    intro l
    induction l using reverseRecOn with
    | nil => exact fun h => absurd h not_mem_nil
    | append_singleton l x ih =>
      intro hmem
      by_cases hx : Covers x n
      · refine ⟨l, x, [], rfl, hx, fun _ h => absurd h not_mem_nil, ?_⟩
        rwa [mem_append, mem_singleton] at hmem
      · rw [mem_append, mem_singleton] at hmem
        have hl : ph ∈ l := by
          rcases hmem with hl | rfl
          · exact hl
          · exact absurd hn hx
        rcases ih hl with ⟨earlier, ph', later, rfl, hn', hlater, hcases⟩
        refine ⟨earlier, ph', later ++ [x], by simp, hn', ?_, hcases⟩
        intro y hy
        rcases mem_append.mp hy with hy | hy
        · exact hlater y hy
        · rwa [mem_singleton.mp hy]
  rcases hlast hph with ⟨earlier, ph', later, hsplit, hn', hlater, hcases⟩
  exact ⟨earlier, ph', ⟨later, hsplit, hn', hlater⟩, hcases⟩

theorem loadedPages_split (herror : loadError bytes = none)
    (hlaid : LaidOut bytes) (hlast : LastAt bytes earlier ph n) :
    ∃ p pre post, p < segmentPages ph ∧ n = ph.pVaddr.toNat / 4096 + p ∧
      loadedPages bytes = pre ++ (ph, p) :: post ∧
      ∀ y ∈ post, pageNumber (pageVaddr y.1 y.2) ≠ n := by
  have hmem := hlast.mem
  rcases hlast with ⟨later, hsplit, hn, hlater⟩
  rcases (covers_iff (hlaid.measured hmem)).mp hn with ⟨p, hp, hpage⟩
  rcases append_of_mem (mem_range.mpr hp) with ⟨below, above, hrange⟩
  have habove : p ∉ above := by
    have hnodup := nodup_range (n := segmentPages ph)
    rw [hrange] at hnodup
    exact (nodup_cons.mp hnodup.of_append_right).1
  refine ⟨p, (earlier.flatMap fun ph => (range (segmentPages ph)).map (ph, ·)) ++
      below.map (ph, ·), above.map (ph, ·) ++
      later.flatMap fun ph => (range (segmentPages ph)).map (ph, ·), hp, hpage, ?_, ?_⟩
  · rw [(loadedPages_of_loadError herror).2, hsplit, flatMap_append, flatMap_cons,
      hrange, map_append, map_cons]
    simp only [append_assoc, cons_append]
  · intro y hy heq
    rcases mem_append.mp hy with hy | hy
    · rcases List.mem_map.mp hy with ⟨q, hq, rfl⟩
      have hq' : q < segmentPages ph := by
        rw [← mem_range, hrange]
        exact mem_append_right _ (mem_cons_of_mem _ hq)
      dsimp only at heq
      rw [hlaid.pageNumber_pageVaddr hmem hq', hpage] at heq
      rw [Nat.add_left_cancel heq] at hq
      exact habove hq
    · rcases mem_flatMap.mp hy with ⟨ph', hph', hy⟩
      rcases List.mem_map.mp hy with ⟨q, hq, rfl⟩
      have hmem' : ph' ∈ ptLoads bytes := by
        rw [hsplit]
        exact mem_append_right _ (mem_cons_of_mem _ hph')
      dsimp only at heq
      rw [hlaid.pageNumber_pageVaddr hmem' (mem_range.mp hq)] at heq
      refine hlater ph' hph' ((covers_iff (hlaid.measured hmem')).mpr ?_)
      exact ⟨q, mem_range.mp hq, heq.symm⟩

theorem load_page (hs : PagesSound A roots s)
    (hr : pml4 ∈ roots) (hload : load A s pml4 bytes = some (.ok entry, frames, s'))
    (hframes : 0 ∉ frames) (hlaid : LaidOut bytes) (hlast : LastAt bytes earlier ph n) :
    (∃ frame, ∀ v, pageNumber v = n →
        debugTranslate s'.mem pml4 v = leafEntry frame (segmentFlags ph)) ∧
      ∀ v : UInt64, v.toNat / 4096 = n → ByteAt s'.mem pml4 v (shownByte bytes ph v.toNat) := by
  have herror := (load_ok hload).1
  have hmem := hlast.mem
  rcases loadedPages_split herror hlaid hlast with ⟨p, _, _, hp, hpage, hpages, _⟩
  have hnumber : pageNumber (pageVaddr ph p) = n :=
    (hlaid.pageNumber_pageVaddr hmem hp).trans hpage.symm
  have hall := load_eq hload
  rw [hpages] at hall
  rcases loadPages_page hs hr hall hframes (by rwa [hnumber]) with
    ⟨frame, mem, hframe, hentry, hwords⟩
  rw [hnumber] at hentry
  refine ⟨⟨frame, hentry⟩, fun v hv => ?_⟩
  have hlt := hlaid.covers_lt hmem hlast.covers
  have hleaf : debugTranslate s'.mem pml4 v = leafEntry frame (segmentFlags ph) := by
    apply hentry
    rw [pageNumber]
    omega
  have hpresent : isPresent (debugTranslate s'.mem pml4 v) = true := by
    rw [hleaf]
    exact isPresent_leafEntry _ _
  have hwalk : walkLeaf s'.mem pml4 v = frame := by
    rw [walkLeaf_eq hpresent, hleaf]
    exact (frameFromEntry_leafEntry (segmentFlags_addrMask ph) frame).trans hframe
  refine ⟨hpresent, ?_⟩
  have hread : readByte s'.mem (userByte s'.mem pml4 v) =
      readByte (pageImage mem bytes ph p frame) (userByte s'.mem pml4 v) := by
    unfold readByte
    dsimp only
    rw [userByte_pageBase, hwalk, hwords]
  rw [hread]
  apply readByte_pageImage ((loadedPages_of_loadError herror).1 ph hmem) (hlaid.measured hmem) hp
    (isFrame_mod hframe) (hv.trans hpage)
  rw [(toNat_userByte s'.mem pml4 v).1, hwalk]

/-! ## The image and what is shown -/

/-- What a load leaves: the last segment of each page. -/
structure Shows (mem : PhysicalMemory) (pml4 : UInt64) (bytes : List UInt8) : Prop where
  check : ∀ ph ∈ ptLoads bytes, segmentError bytes ph = none
  byte : ∀ {earlier ph n}, LastAt bytes earlier ph n → ∀ v : UInt64, v.toNat / 4096 = n →
    ByteAt mem pml4 v (shownByte bytes ph v.toNat)
  rights : ∀ {earlier ph n}, LastAt bytes earlier ph n → ∀ v, pageNumber v = n →
    Permits mem pml4 v (pagePresent ||| pageUser) ∧
      (Permits mem pml4 v pageWritable ↔ ph.pFlags &&& pfW ≠ 0) ∧
      (Executable mem pml4 v ↔ ph.pFlags &&& pfX ≠ 0)
  rest : ∀ v, InUserHalf v → (∀ ph ∈ ptLoads bytes, ¬ Covers ph (pageNumber v)) →
    isPresent (debugTranslate mem pml4 v) = false

section

variable {k : Vmm σ} {mem : PhysicalMemory} {a i : Nat}

theorem Shows.shownByte_eq_zero (h : Shows mem pml4 bytes) (hph : ph ∈ ptLoads bytes)
    (ha : ¬ InSegment ph a) : shownByte bytes ph a = 0 := by
  have hsize := (segmentError_eq_none (h.check ph hph)).2.2
  apply if_neg
  rintro ⟨hle, hlt⟩
  exact ha ⟨hle, by omega⟩

theorem LaidOut.toNat_add (h : LaidOut bytes) (hph : ph ∈ ptLoads bytes)
    (hi : i < ph.pMemsz.toNat) :
    (ph.pVaddr + UInt64.ofNat i).toNat = ph.pVaddr.toNat + i := by
  have hbelow := h.below ph hph
  rw [UInt64.toNat_add, toNat_ofNat']
  omega

theorem covers_of_inSegment (ha : InSegment ph a) : Covers ph (a / 4096) := by
  unfold InSegment at ha
  unfold Covers
  omega

theorem LaidOut.not_inSegment (h : LaidOut bytes) (hlast : LastAt bytes earlier ph' n)
    (hph : ph ∈ earlier) (ha : InSegment ph a) : ¬ InSegment ph' a := by
  rcases hlast with ⟨_, hsplit, -⟩
  have hdisjoint := h.disjoint
  rw [hsplit, pairwise_append] at hdisjoint
  exact hdisjoint.2.2 ph hph ph' mem_cons_self a ha

section

variable (h : Shows mem pml4 bytes)

include h

theorem Shows.byteAt_zero (hlaid : LaidOut bytes)
    (hlast : LastAt bytes earlier ph' n) (hph : ph ∈ earlier) (hmem : ph ∈ ptLoads bytes)
    (hi : i < ph.pMemsz.toNat) (hn : (ph.pVaddr.toNat + i) / 4096 = n) :
    ByteAt mem pml4 (ph.pVaddr + UInt64.ofNat i) 0 := by
  have hv := hlaid.toNat_add hmem hi
  have hbyte := h.byte hlast (ph.pVaddr + ofNat i) (by rw [hv, hn])
  have hother : ¬ InSegment ph' (ph.pVaddr.toNat + i) :=
    hlaid.not_inSegment hlast hph ⟨Nat.le_add_right _ _, Nat.add_lt_add_left hi _⟩
  rwa [hv, h.shownByte_eq_zero hlast.mem hother] at hbyte

theorem Shows.byteAt_last (hlaid : LaidOut bytes)
    (hlast : LastAt bytes earlier ph ((ph.pVaddr.toNat + i) / 4096)) (hi : i < ph.pMemsz.toNat) :
    ByteAt mem pml4 (ph.pVaddr + UInt64.ofNat i)
      (if i < ph.pFilesz.toNat then bytes.getD (ph.pOffset.toNat + i) 0 else 0) := by
  have hv := hlaid.toNat_add hlast.mem hi
  have hbyte := h.byte hlast (ph.pVaddr + ofNat i) (by rw [hv])
  rw [hv, shownByte, Nat.add_sub_cancel_left] at hbyte
  simpa using hbyte

/-- **The image is complete** exactly if nothing is lost in shared pages. -/
theorem Shows.image_iff (hlaid : LaidOut bytes) : Image mem pml4 bytes ↔ SharesCleanly bytes := by
  constructor
  · intro himage earlier ph' n hlast ph hph hn
    have hmem : ph ∈ ptLoads bytes := by
      rcases hlast with ⟨_, hsplit, -⟩
      rw [hsplit]
      exact mem_append_left _ hph
    -- some address of the page
    have hpage : pageNumber (ofNat (n * 4096)) = n := by
      have hlt := hlaid.covers_lt hmem hn
      rw [pageNumber, toNat_ofNat']
      omega
    have hrights := himage.rights ph hmem (ofNat (n * 4096)) (by rwa [hpage])
    have hshown := h.rights hlast _ hpage
    constructor
    · intro i hi hni
      have hsize := (segmentError_eq_none (h.check ph hmem)).2.2
      have hzero := h.byteAt_zero hlaid hlast hph hmem (hi.trans_le hsize) hni
      rw [← (himage.file ph hmem i hi).2, hzero.2]
    · exact fun hw => hshown.2.1.mp (hrights.2.1 hw)
    · exact fun hx => hshown.2.2.mp (hrights.2.2 hx)
  · intro hshares
    constructor
    · intro ph hph i hi
      have hsize := (segmentError_eq_none (h.check ph hph)).2.2
      have hin : InSegment ph (ph.pVaddr.toNat + i) :=
        ⟨Nat.le_add_right _ _, Nat.add_lt_add_left (hi.trans_le hsize) _⟩
      rcases exists_lastAt hph (covers_of_inSegment hin) with ⟨earlier, ph', hlast, hmem | rfl⟩
      · rw [(hshares _ _ _ hlast ph hmem (covers_of_inSegment hin)).file i hi rfl]
        exact h.byteAt_zero hlaid hlast hmem hph (hi.trans_le hsize) rfl
      · have hbyte := h.byteAt_last hlaid hlast (hi.trans_le hsize)
        rwa [if_pos hi] at hbyte
    · intro ph hph i hfile hi
      have hin : InSegment ph (ph.pVaddr.toNat + i) :=
        ⟨Nat.le_add_right _ _, Nat.add_lt_add_left hi _⟩
      rcases exists_lastAt hph (covers_of_inSegment hin) with ⟨earlier, ph', hlast, hmem | rfl⟩
      · exact h.byteAt_zero hlaid hlast hmem hph hi rfl
      · have hbyte := h.byteAt_last hlaid hlast hi
        rwa [if_neg (not_lt.mpr hfile)] at hbyte
    · intro ph hph v hn
      rcases exists_lastAt hph hn with ⟨earlier, ph', hlast, hmem | rfl⟩
      · have hyields := hshares _ _ _ hlast ph hmem hn
        rcases h.rights hlast v rfl with ⟨huser, hw, hx⟩
        exact ⟨huser, fun hpf => hw.mpr (hyields.writable hpf),
          fun hpf => hx.mpr (hyields.executable hpf)⟩
      · rcases h.rights hlast v rfl with ⟨huser, hw, hx⟩
        exact ⟨huser, hw.mpr, hx.mpr⟩
    · exact h.rest

end

theorem load_shows {entry : UInt64} {frames : List UInt64} {s' : PageStore σ} (hs : k.Sound A)
    (hpml4 : pml4 ∈ k.spaces) (hempty : ∀ i < 256, isPresent (k.store.mem pml4 i) = false)
    (hlaid : LaidOut bytes) (hload : load A k.store pml4 bytes = some (.ok entry, frames, s'))
    (hframes : 0 ∉ frames) : Shows s'.mem pml4 bytes := by
  have hr := Vmm.mem_roots_of_mem_spaces hpml4
  have herror := (load_ok hload).1
  rcases loadedPages_of_loadError herror with ⟨hcheck, hpages⟩
  have hopen : OpenBelow k.roots pml4 s'.mem :=
    (openBelow_of_empty hempty).loadPages hs hr (load_eq hload)
  constructor
  · exact hcheck
  · intro earlier ph n hlast
    exact (load_page hs hr hload hframes hlaid hlast).2
  · intro earlier ph n hlast v hv
    rcases (load_page hs hr hload hframes hlaid hlast).1 with ⟨frame, hentry⟩
    have huser : InUserHalf v := by
      rw [inUserHalf_iff, ← pageNumber, hv]
      exact hlaid.covers_lt hlast.mem hlast.covers
    have hpresent : isPresent (debugTranslate s'.mem pml4 v) = true := by
      rw [hentry v hv]
      exact isPresent_leafEntry _ _
    have hpermits {right : UInt64} (hright : intermediateFlags &&& right = right) :
        Permits s'.mem pml4 v right ↔ Grants right (debugTranslate s'.mem pml4 v) :=
      hopen.words_iff hr huser hpresent fun _ hlink => hlink.1.mono hright
    have hexecutable : Executable s'.mem pml4 v ↔ _ :=
      hopen.words_iff hr huser hpresent fun _ hlink => hlink.2
    rw [hpermits (by decide), hpermits (by decide), hexecutable, hentry v hv]
    exact ⟨grants_leafEntry frame ph, grants_writable_leafEntry, noExecute_leafEntry⟩
  · intro v huser hnone
    rcases loadPages_sets hs hr (load_eq hload) with ⟨_, -, -, hsets⟩
    rw [hsets.others hr, debugTranslate_of_empty huser hempty]
    · rfl
    · intro e he
      left
      intro hpage
      rcases (of_mem_pageEntries he).1 with ⟨x, hx, hpage'⟩
      rw [hpages, mem_flatMap] at hx
      rcases hx with ⟨ph, hph, hx⟩
      rcases List.mem_map.mp hx with ⟨p, hp, rfl⟩
      have hp := mem_range.mp hp
      refine hnone ph hph ((covers_iff (hlaid.measured hph)).mpr ⟨p, hp, ?_⟩)
      rw [hpage, hpage', hlaid.pageNumber_pageVaddr hph hp]

/-- **The image of a program.** A file without errors is loaded if there are
frames for it. What is then in memory is the image of the file exactly if no
segment loses anything to a later one that shares a page with it. -/
theorem load_image_iff (hs : k.Sound A) (hpml4 : pml4 ∈ k.spaces)
    (hempty : ∀ i < 256, isPresent (k.store.mem pml4 i) = false) (hlaid : LaidOut bytes) :
    (loadError bytes = none → A.Supplies (4 * (loadedPages bytes).length) k.store.frames →
      ∃ frames s', load A k.store pml4 bytes = some (.ok (readEhdr bytes).eEntry, frames, s') ∧
        0 ∉ frames) ∧
    ∀ entry frames s', load A k.store pml4 bytes = some (.ok entry, frames, s') → 0 ∉ frames →
      entry = (readEhdr bytes).eEntry ∧ (Image s'.mem pml4 bytes ↔ SharesCleanly bytes) := by
  constructor
  · intro herror hsupply
    rcases exists_load_of_supplies hsupply with ⟨_, frames, s', hload, hframes⟩
    have hresult := load_result hload
    rw [herror] at hresult
    rw [hresult] at hload
    exact ⟨frames, s', hload, hframes⟩
  · intro entry frames s' hload hframes
    refine ⟨(load_ok hload).2, ?_⟩
    exact (load_shows hs hpml4 hempty hlaid hload hframes).image_iff hlaid

end

/-! ## Two programs -/

def codeOnly : List UInt8 := assemble [⟨1, 5, 120, 0x400010, 2, 8⟩] [0x90, 0xc3]

/-- Code at the start of a page, and a variable in the same page. -/
def codeAndData : List UInt8 :=
  assemble [⟨1, 5, 176, 0x400000, 1, 1⟩, ⟨1, 6, 177, 0x400800, 0, 8⟩] [0x90]

theorem ptLoads_codeOnly : ptLoads codeOnly = [⟨1, 5, 120, 0x400010, 2, 8⟩] := by
  decide +kernel

theorem ptLoads_codeAndData :
    ptLoads codeAndData = [⟨1, 5, 176, 0x400000, 1, 1⟩, ⟨1, 6, 177, 0x400800, 0, 8⟩] := by
  decide +kernel

theorem laidOut_codeOnly : LaidOut codeOnly := by
  constructor
  · rw [ptLoads_codeOnly]
    decide
  · rw [ptLoads_codeOnly]
    exact pairwise_singleton _ _

theorem laidOut_codeAndData : LaidOut codeAndData := by
  constructor
  · rw [ptLoads_codeAndData]
    decide
  · rw [ptLoads_codeAndData, pairwise_pair]
    intro a hcode hdata
    have hend : a < 0x400000 + 1 := hcode.2
    have hstart : 0x400800 ≤ a := hdata.1
    omega

section

open SpaceLedger

theorem newAddressSpace_empty :
    ∀ i < 256,
      isPresent ((kernelOnly.newAddressSpace Pmm.source).2.store.mem 0x7000 i) = false := by
  decide +kernel

theorem load_image_one_segment :
    ∃ frames s', load Pmm.source (kernelOnly.newAddressSpace Pmm.source).2.store 0x7000 codeOnly =
        some (.ok 0, frames, s') ∧ Image s'.mem 0x7000 codeOnly := by
  have hsound := (Vmm.newAddressSpace_spec kernelOnly_sound).sound
  have hlive : (0x7000 : UInt64) ∈ (kernelOnly.newAddressSpace Pmm.source).2.spaces := by
    decide +kernel
  have hload := load_image_iff hsound hlive newAddressSpace_empty laidOut_codeOnly
  rcases hload.1 (by decide +kernel) (by decide +kernel) with ⟨frames, s', hrun, hframes⟩
  refine ⟨frames, s', hrun, (hload.2 _ _ _ hrun hframes).2.mpr ?_⟩
  -- there is no earlier segment
  rintro earlier _ n ⟨later, hsplit, -⟩ _ hph
  rw [ptLoads_codeOnly, eq_comm, append_eq_singleton_iff] at hsplit
  rcases hsplit with ⟨rfl, -⟩ | ⟨-, hcons⟩
  · cases hph
  · cases hcons

/-- **The code is gone** when a later segment has a variable in its page. -/
theorem load_loses_shared_page :
    ∃ frames s', load Pmm.source (kernelOnly.newAddressSpace Pmm.source).2.store 0x7000
        codeAndData = some (.ok 0, frames, s') ∧ 0 ∉ frames ∧
      codeAndData.getD 176 0 = 0x90 ∧ ByteAt s'.mem 0x7000 0x400000 0 ∧
      ¬ Executable s'.mem 0x7000 0x400000 ∧ ¬ Image s'.mem 0x7000 codeAndData := by
  have hsound := (Vmm.newAddressSpace_spec kernelOnly_sound).sound
  have hlive : (0x7000 : UInt64) ∈ (kernelOnly.newAddressSpace Pmm.source).2.spaces := by
    decide +kernel
  have hrun : ∃ result frames s', load Pmm.source
      (kernelOnly.newAddressSpace Pmm.source).2.store 0x7000 codeAndData =
        some (result, frames, s') ∧ 0 ∉ frames :=
    exists_load_of_supplies (by decide +kernel)
  rcases hrun with ⟨result, frames, s', hload, hframes⟩
  have hresult := load_result hload
  rw [show loadError codeAndData = none by decide +kernel,
    show (readEhdr codeAndData).eEntry = 0 by decide +kernel] at hresult
  rw [hresult] at hload
  have hshows := load_shows hsound hlive newAddressSpace_empty laidOut_codeAndData hload hframes
  have hlast : LastAt codeAndData [⟨1, 5, 176, 0x400000, 1, 1⟩] ⟨1, 6, 177, 0x400800, 0, 8⟩
      0x400 :=
    ⟨[], ptLoads_codeAndData, by decide, fun _ h => absurd h not_mem_nil⟩
  have hcode : codeAndData.getD 176 0 = 0x90 := by decide +kernel
  refine ⟨frames, s', hload, hframes, hcode, ?_, ?_, fun himage => ?_⟩
  · exact hshows.byte hlast 0x400000 (by decide)
  · rw [(hshows.rights hlast 0x400000 (by decide)).2.2]
    decide
  · have hyields := (hshows.image_iff laidOut_codeAndData).mp himage _ _ _ hlast _
      mem_cons_self (by decide)
    have hzero := hyields.file 0 (by decide) (by decide)
    rw [show (176 : UInt64).toNat + 0 = 176 by decide, hcode] at hzero
    cases hzero

end

end Elf

end AgenticOS
