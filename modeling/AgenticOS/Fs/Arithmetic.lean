import AgenticOS.Fs.Integrity

/-!
# The arithmetic of a request

Three operations of the service loop are not checked: `inode - 1` in
`inode_block_and_offset`, the link that MKDIR adds to the parent, and the sums of
`update_alloc_counts`. What is computed on `usize` stays far below its limit, and so does the
number of freed blocks. Here is what each request computes, in the state it finds, and when all
of it fits.
-/

namespace AgenticOS.BlkDriver

open Foundation Ext2 Driver List Function

/-- An unchecked operation, with its operands. -/
inductive Arith where
  /-- `inode - 1` as a `u32`. -/
  | pred (inode : Nat)
  /-- `links += 1` as a `u16`. -/
  | succ (links : Nat)
  /-- A counter as an `i32`, and what is added to it. -/
  | add (count : Nat) (delta : Int)

def Arith.Fits : Arith → Prop
  | pred inode => 1 ≤ inode
  | succ links => links + 1 < 2 ^ 16
  | add count delta =>
    -2 ^ 31 ≤ (count : Int).bmod (2 ^ 32) + delta ∧ (count : Int).bmod (2 ^ 32) + delta < 2 ^ 31

/-- `update_alloc_counts`. -/
def countArith (d : Disk) (blockDelta inodeDelta dirDelta : Int) : List Arith :=
  [.add ((d superblockBlock).field 0x0C 4) blockDelta,
    .add ((d superblockBlock).field 0x10 4) inodeDelta,
    .add ((d groupDescBlock).field 0x0C 2) blockDelta,
    .add ((d groupDescBlock).field 0x0E 2) inodeDelta,
    .add ((d groupDescBlock).field 0x10 2) dirDelta]

/-- The directories that `resolve_path` reads. -/
def walked (d : Disk) : List (List UInt8) → Nat × UInt8 → List Nat
  | [], _ => []
  | segment :: rest, cur =>
    if cur.2 ≠ ftDir then []
    else cur.1 :: ((entries d cur.1).find? fun e => e.name = segment).elim []
      fun e => walked d rest (e.inode, e.fileType)

def pathArith (d : Disk) (path : List UInt8) : List Arith :=
  (walked d (components path) (rootInode, ftDir)).map .pred

def lookupArith (d : Disk) (path : List UInt8) : List Arith :=
  pathArith d path ++ (lookup d path).toList.map (.pred ·.1)

/-- The way to the parent, and `rest` if there are a parent and a name. -/
def nodeArith (d : Disk) (path : List UInt8) (rest : List Arith) : List Arith :=
  pathArith d (splitParentAndBasename path).1 ++
    if parentOf d path ≠ 0 ∧ (splitParentAndBasename path).2 ≠ [] then rest else []

/-- MKDIR and CREATE, up to where they stop. -/
def makeArith (kind : NodeKind) (d : Disk) (path : List UInt8) : List Arith :=
  let parent := parentOf d path
  nodeArith d path <|
    match allocBlock (d blockBitmapBlock) totalBlocks,
      allocInode (d inodeBitmapBlock) numInodes with
    | some (block, _), some (inode, _) =>
      let c := update d block (kind.content inode parent)
      .pred parent :: match addDirEntry (c (blockOf c parent 0)) inode kind.fileType
          (splitParentAndBasename path).2 with
        | none => []
        | some dirBlock =>
          (if kind.linksParent then [.succ (inodeOf c parent).links] else []) ++ .pred inode ::
            countArith (update c (blockOf c parent 0) dirBlock) (-1) (-1) kind.dirDelta
    | _, _ => []

def unlinkArith (d : Disk) (path : List UInt8) : List Arith :=
  let parent := parentOf d path
  nodeArith d path <| .pred parent ::
    match removeDirEntry (d (blockOf d parent 0)) (splitParentAndBasename path).2 with
    | none => []
    | some (inode, dirBlock) =>
      let c := update d (blockOf d parent 0) dirBlock
      .pred inode :: countArith c (blocksOf c inode).length 1
        (if (inodeOf c inode).mode &&& sIfDir ≠ 0 then -1 else 0)

/-- A turn of the write loop allocates a block if there is none at its index. -/
def turnArith (offset : Nat) (data : List UInt8) (state : List Nat × Nat × Disk) : List Arith :=
  let idx := (offset + state.2.1) / blockSize
  if state.2.1 < data.length ∧ idx < 12 ∧ state.1.getD idx 0 = 0 ∧
      (allocBlock (state.2.2 blockBitmapBlock) totalBlocks).isSome then
    countArith state.2.2 (-1) 0 0
  else []

/-- WRITE, with the states in which the turns of its loop start. -/
def writeArith (d : Disk) (junk : ByteBlock) (inode : Nat) : Fetched → List Arith
  | none => []
  | some (offset, data) =>
    if data = [] then []
    else .pred inode :: (range data.length).flatMap fun turns => turnArith offset data
      (writeLoop disk junk offset data turns (inodeOf d inode).directBlocks 0 d)

def arithmetic (d : Disk) (r : Request) : List Arith :=
  match r.command.op with
  | .lookup => if r.fetched = none then [] else lookupArith d r.path
  | .readdir => lookupArith d r.path
  | .mkdir => makeArith dirKind d r.path
  | .create => makeArith (fileKind r.junk) d r.path
  | .unlink => unlinkArith d r.path
  | .write => writeArith d r.junk r.target r.fetched
  | .read => [.pred r.target]

/-! ## When it fits -/

/-- The free counts of the superblock are numbers that twelve blocks more leave in range. -/
def CountsFit (d : Disk) : Prop :=
  (d superblockBlock).field 0x0C 4 < 2 ^ 31 - 12 ∧ (d superblockBlock).field 0x10 4 < 2 ^ 31 - 12

instance (d : Disk) : Decidable (CountsFit d) := inferInstanceAs (Decidable (_ ∧ _))

section

variable {d c : Disk} {path : List UInt8} {a : Arith} {i : Nat}

theorem ne_zero_of_mem_entries {e : DirEntry} (he : e ∈ entries d i) : e.inode ≠ 0 := by
  unfold entries at he
  split_ifs at he
  · cases he
  · obtain ⟨r, -, hentry⟩ := mem_filterMap.mp he
    unfold DirRecord.entry at hentry
    split_ifs at hentry with hr
    cases hentry
    exact hr.1

theorem pathArith_fits (ha : a ∈ pathArith d path) : a.Fits := by
  obtain ⟨n, hn, rfl⟩ := List.mem_map.mp ha
  have hwalk : ∀ (segments : List (List UInt8)) (cur : Nat × UInt8), cur.1 ≠ 0 →
      n ∈ walked d segments cur → n ≠ 0 := by
    intro segments
    induction segments with
    | nil => exact fun _ _ hn => absurd hn not_mem_nil
    | cons segment rest ih =>
      intro cur hcur hn
      rw [walked] at hn
      split_ifs at hn
      · cases hn
      obtain rfl | hn := mem_cons.mp hn
      · exact hcur
      cases hfind : (entries d cur.1).find? fun e => e.name = segment with
      | none =>
        rw [hfind] at hn
        cases hn
      | some e =>
        rw [hfind] at hn
        exact ih _ (ne_zero_of_mem_entries (List.mem_of_find?_eq_some hfind)) hn
  exact Nat.pos_of_ne_zero (hwalk _ _ (show rootInode ≠ 0 by decide) hn)

theorem lookupArith_fits (ha : a ∈ lookupArith d path) : a.Fits := by
  obtain ha | ha := mem_append.mp ha
  · exact pathArith_fits ha
  obtain ⟨⟨i, t⟩, hi, rfl⟩ := List.mem_map.mp ha
  refine Nat.pos_of_ne_zero ?_
  cases reachable_of_lookup (Option.mem_toList.mp hi) with
  | root => decide
  | entry _ he => exact ne_zero_of_mem_entries he

theorem fits_add {count : Nat} {delta : Int} (hcount : count < 2 ^ 31 - 12)
    (hdelta : -12 ≤ delta ∧ delta ≤ 12) : (Arith.add count delta).Fits := by
  have hself : (count : Int).bmod (2 ^ 32) = count :=
    Int.bmod_eq_of_le (by omega) (by omega)
  rw [Arith.Fits, hself]
  omega

theorem countArith_fits (hc : CountsFit c) {blockDelta inodeDelta dirDelta : Int}
    (hblock : -12 ≤ blockDelta ∧ blockDelta ≤ 12) (hinode : -12 ≤ inodeDelta ∧ inodeDelta ≤ 12)
    (hdir : -12 ≤ dirDelta ∧ dirDelta ≤ 12)
    (ha : a ∈ countArith c blockDelta inodeDelta dirDelta) : a.Fits := by
  have hshort {off : Nat} : (c groupDescBlock).field off 2 < 2 ^ 31 - 12 :=
    ByteBlock.field_lt.trans (by decide)
  simp only [countArith, mem_cons, not_mem_nil, or_false] at ha
  obtain rfl | rfl | rfl | rfl | rfl := ha
  · exact fits_add hc.1 hblock
  · exact fits_add hc.2 hinode
  · exact fits_add hshort hblock
  · exact fits_add hshort hinode
  · exact fits_add hshort hdir

theorem CountsFit.update (hd : CountsFit d) {n : Nat} (hn : n ≠ superblockBlock)
    (b : ByteBlock) : CountsFit (update d n b) := by
  rwa [CountsFit, update_of_ne hn.symm]

theorem ne_superblock {n : Nat} (h : rootDataBlock ≤ n) : n ≠ superblockBlock :=
  ((show superblockBlock < rootDataBlock by decide).trans_le h).ne'

/-! ### Nodes -/

theorem nodeArith_fits {rest : List Arith}
    (hrest : parentOf d path ≠ 0 → (splitParentAndBasename path).2 ≠ [] → a ∈ rest → a.Fits)
    (ha : a ∈ nodeArith d path rest) : a.Fits := by
  obtain ha | ha := mem_append.mp ha
  · exact pathArith_fits ha
  split_ifs at ha with hgo
  · exact hrest hgo.1 hgo.2 ha
  · cases ha

theorem makeArith_fits {kind : NodeKind} (hd : CountsFit d)
    (hparent : parentOf d path ≠ 0 → IsInode (parentOf d path) ∧
      rootDataBlock ≤ blockOf d (parentOf d path) 0 ∧ Used d (blockOf d (parentOf d path) 0))
    (hlinks : kind.linksParent = true → (inodeOf d (parentOf d path)).links + 1 < 2 ^ 16)
    (hdelta : -12 ≤ kind.dirDelta ∧ kind.dirDelta ≤ 12) (ha : a ∈ makeArith kind d path) :
    a.Fits := by
  refine nodeArith_fits (fun hfound _ ha => ?_) ha
  obtain ⟨hisInode, hdata, -⟩ := hparent hfound
  split at ha
  · rename_i block _ inode _ hallocBlock hallocInode
    have hblock := allocated_of_allocBit (by decide) (by decide) hallocBlock
    have hinode := isInode_of_alloc (allocated_of_allocBit (by decide) (by decide) hallocInode)
    have hge : 11 ≤ block := hblock.first_le
    -- the new block is no block of the table
    have hnode : inodeOf (update d block (kind.content inode (parentOf d path)))
        (parentOf d path) = inodeOf d (parentOf d path) :=
      inodeOf_update (.inr (by omega)) hisInode
    obtain rfl | ha := mem_cons.mp ha
    · exact hisInode.1
    split at ha
    · cases ha
    · rw [blockOf, hnode] at ha
      obtain ha | ha := mem_append.mp ha
      · split_ifs at ha with hkind
        · cases mem_singleton.mp ha
          exact hlinks hkind
        · cases ha
      obtain rfl | ha := mem_cons.mp ha
      · exact hinode.1.1
      exact countArith_fits ((hd.update (ne_superblock (isData_of_alloc hblock)) _).update
        (ne_superblock hdata) _) (by decide) (by decide) hdelta ha
  · cases ha

theorem unlinkArith_fits (hd : CountsFit d)
    (hparent : parentOf d path ≠ 0 → (splitParentAndBasename path).2 ≠ [] →
      rootDataBlock ≤ blockOf d (parentOf d path) 0) (ha : a ∈ unlinkArith d path) : a.Fits := by
  refine nodeArith_fits (fun hfound hleaf ha => ?_) ha
  obtain rfl | ha := mem_cons.mp ha
  · exact Nat.pos_of_ne_zero hfound
  split at ha
  · cases ha
  · rename_i inode dirBlock hremove
    obtain rfl | ha := mem_cons.mp ha
    · obtain ⟨_, r, _, _, -, hentry, -, -, rfl, -⟩ := removeFrom_eq_some hremove
      unfold DirRecord.entry at hentry
      split_ifs at hentry with hr
      exact Nat.pos_of_ne_zero hr.1
    have hfreed : (blocksOf (update d (blockOf d (parentOf d path) 0) dirBlock) inode).length ≤
        12 := (length_filter_le _ _).trans (length_directBlocks _ _).le
    refine countArith_fits (hd.update (ne_superblock (hparent hfound hleaf)) _) (by omega)
      (by decide) ?_ ha
    split_ifs <;> decide

/-! ### Writes -/

theorem field_bumpCount_le {b : ByteBlock} {off : Nat} (h : b.field off 4 < 2 ^ 31 - 12)
    {delta : Int} (hlo : -12 ≤ delta) (hhi : delta ≤ 0) :
    (bumpCount b off 4 delta).field off 4 ≤ b.field off 4 := by
  have hself : ((b.field off 4 : Int) + delta).bmod (2 ^ 32) = b.field off 4 + delta :=
    Int.bmod_eq_of_le (by omega) (by omega)
  rw [bumpCount, ByteBlock.field_setField, hself]
  exact (Nat.mod_le _ _).trans (by omega)

theorem CountsFit.allocated (hc : CountsFit c) :
    CountsFit (updateAllocCounts disk c (-1) 0 0) := by
  have hsb : updateAllocCounts disk c (-1) 0 0 superblockBlock =
      updateSuperblock (c superblockBlock) (-1) 0 := by
    unfold updateAllocCounts disk
    dsimp only
    rw [update_self]
  have hother (b : ByteBlock) (off off' : Nat) (delta : Int)
      (h : off' + 4 ≤ off ∨ off + 4 ≤ off') : (bumpCount b off 4 delta).field off' 4 =
        b.field off' 4 := ByteBlock.field_setField_of_disjoint h
  rw [CountsFit, hsb, updateSuperblock, hother _ _ _ _ (.inl (by decide))]
  refine ⟨(field_bumpCount_le hc.1 (by decide) (by decide)).trans_lt hc.1, ?_⟩
  have hinodes : (bumpCount (c superblockBlock) 0x0C 4 (-1)).field 0x10 4 < 2 ^ 31 - 12 := by
    rw [hother _ _ _ _ (.inr (by decide))]
    exact hc.2
  exact (field_bumpCount_le hinodes (by decide) (by decide)).trans_lt hinodes

/-- None of the direct blocks is the superblock. -/
def Clears (blocks : List Nat) : Prop := ∀ k, blocks.getD k 0 ≠ superblockBlock

theorem CountsFit.ensureBlock {c' : Disk} {blocks : List Nat} {result : Option (List Nat)}
    {idx : Nat} (hc : CountsFit c) (hblocks : Clears blocks)
    (h : ensureBlock disk blocks idx c = (result, c')) :
    CountsFit c' ∧ ∀ blocks' ∈ result, Clears blocks' := by
  unfold BlkDriver.ensureBlock at h
  dsimp only [disk] at h
  split_ifs at h
  · split at h
    · rename_i block bitmap halloc
      cases h
      have hblock := ne_superblock (isData_of_alloc (d := c)
        (allocated_of_allocBit (by decide) (by decide) halloc))
      refine ⟨(hc.update (show blockBitmapBlock ≠ superblockBlock by decide) _).allocated, ?_⟩
      intro _ hset k
      cases hset
      rw [getD_eq_getElem?_getD, getElem?_set]
      split_ifs
      · exact hblock
      · decide
      · rw [← getD_eq_getElem?_getD]
        exact hblocks k
    · cases h
      exact ⟨hc, nofun⟩
  · cases h
    exact ⟨hc, fun _ hsame => Option.some_inj.mp hsame ▸ hblocks⟩

theorem CountsFit.writeChunk (hc : CountsFit c) {n : Nat} (hn : n ≠ superblockBlock)
    (junk : ByteBlock) (offset : Nat) (chunk : List UInt8) :
    CountsFit (writeChunk disk junk c n offset chunk) := by
  unfold BlkDriver.writeChunk
  split_ifs
  · exact hc.update hn _
  · exact hc.update hn _

theorem writeLoop_countsFit {junk : ByteBlock} {offset : Nat} {data : List UInt8} (turns : Nat)
    {blocks : List Nat} {w : Nat} (hc : CountsFit c) (hblocks : Clears blocks) :
    CountsFit (writeLoop disk junk offset data turns blocks w c).2.2 := by
  induction turns generalizing blocks w c with
  | zero => exact hc
  | succ turns ih =>
    rw [writeLoop]
    dsimp only
    split_ifs with hlt hidx
    · exact hc
    · split
      · rename_i hensure
        exact (hc.ensureBlock hblocks hensure).1
      · rename_i hensure
        obtain ⟨hc', hall⟩ := hc.ensureBlock hblocks hensure
        have hblocks' := hall _ rfl
        exact ih (hc'.writeChunk (hblocks' _) _ _ _) hblocks'
    · exact hc

theorem writeArith_fits {junk : ByteBlock} {fetched : Fetched} (hd : CountsFit d)
    (hi : ∀ offset data, fetched = some (offset, data) → data ≠ [] →
      1 ≤ i ∧ Clears (inodeOf d i).directBlocks) (ha : a ∈ writeArith d junk i fetched) :
    a.Fits := by
  rcases fetched with _ | ⟨offset, data⟩
  · cases ha
  rw [writeArith] at ha
  split_ifs at ha with hdata
  · cases ha
  obtain ⟨hpos, hclears⟩ := hi offset data rfl hdata
  obtain rfl | ha := mem_cons.mp ha
  · exact hpos
  obtain ⟨turns, -, ha⟩ := mem_flatMap.mp ha
  unfold turnArith at ha
  dsimp only at ha
  split_ifs at ha
  · exact countArith_fits (writeLoop_countsFit turns hd hclears) (by decide) (by decide) (by decide)
      ha
  · cases ha

end

/-! ## Survival -/

/-- The request is served without a panic, nothing in it overflows, and no block is written for
an inode that does not exist. -/
structure Survives (d : Disk) (r : Request) : Prop where
  served : ∃ replies d' log,
    serve (traced disk) r.junk (d, []) r.command r.fetched = some (replies, d', log) ∧
      (NamesInode r.command.op → r.target = 0 ∨ numInodes < r.target → log = [])
  fits : ∀ a ∈ arithmetic d r, a.Fits

structure Serviceable (d : Disk) (r : Request) : Prop where
  ready : Ready d r
  range : InRange disk d r.command r.fetched
  read : r.command.op = .read → 1 ≤ r.target
  links : r.command.op = .mkdir → (inodeOf d (parentOf d r.path)).links + 1 < 2 ^ 16
  counts : CountsFit d

theorem Serviceable.fits {d : Disk} {r : Request} (h : Serviceable d r) {a : Arith}
    (ha : a ∈ arithmetic d r) : a.Fits := by
  unfold arithmetic at ha
  cases hop : r.command.op with
  | lookup =>
    rw [hop] at ha
    dsimp only at ha
    split_ifs at ha
    · cases ha
    · exact lookupArith_fits ha
  | readdir =>
    rw [hop] at ha
    exact lookupArith_fits ha
  | mkdir =>
    rw [hop] at ha
    exact makeArith_fits h.counts (h.ready.node (.inl hop)) (fun _ => h.links hop) (by decide) ha
  | create =>
    rw [hop] at ha
    exact makeArith_fits h.counts (h.ready.node (.inr hop))
      (fun hlinks => absurd hlinks Bool.false_ne_true)
      (show -12 ≤ (0 : Int) ∧ (0 : Int) ≤ 12 by decide) ha
  | unlink =>
    rw [hop] at ha
    exact unlinkArith_fits h.counts (fun hp hleaf => (h.ready.unlink hop hp hleaf).1) ha
  | write =>
    rw [hop] at ha
    refine writeArith_fits h.counts (fun offset data hfetched hdata => ?_) ha
    obtain ⟨hisInode, howner⟩ := h.ready.write hop offset data hfetched hdata
    refine ⟨hisInode.1, fun k => ?_⟩
    by_cases hzero : (inodeOf d r.target).directBlocks.getD k 0 = 0
    · rw [hzero]
      decide
    · exact ne_superblock (howner.used k hzero).1
  | read =>
    rw [hop] at ha
    cases mem_singleton.mp ha
    exact h.read hop

end AgenticOS.BlkDriver
