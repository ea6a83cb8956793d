import AgenticOS.Fs.Effects

/-!
# The structure of the file system

The blocks of the inodes in use are marked, are data blocks, and are all different.
The directories that can be reached form a tree: every entry names either one of the
directories on the way up to the root, or a node of its own. CREATE, MKDIR, UNLINK
and WRITE keep this as long as their effects are those of `Effects` on a node of
the right kind.

A removed directory takes what is below it out of the tree, since UNLINK does not
ask whether it is empty. What is below stays in use without an entry.
-/

namespace AgenticOS.BlkDriver

open Foundation Ext2 Driver List Function

/-! ## Blocks -/

/-- The blocks of the inodes in `S` are marked data blocks below `limit`, and no two of
them are the same. -/
structure Separated (S : Nat → Prop) (limit : Nat) (d : Disk) : Prop where
  place : ∀ {i k}, S i → blockOf d i k ≠ 0 →
    rootDataBlock ≤ blockOf d i k ∧ blockOf d i k < limit ∧ Used d (blockOf d i k)
  inj : ∀ {i j k l}, S i → S j → blockOf d i k = blockOf d j l → blockOf d i k ≠ 0 → i = j ∧ k = l

theorem Separated.mono {S S' : Nat → Prop} {limit : Nat} {d : Disk} (h : Separated S limit d)
    (hS : ∀ i, S' i → S i) : Separated S' limit d :=
  ⟨fun hi => h.place (hS _ hi), fun hi hj => h.inj (hS _ hi) (hS _ hj)⟩

/-- **The structure invariant.** Every entry that can be reached names an inode in use,
and the blocks of what can be reached are marked, lie within the file system, and are
all different. -/
structure Sound (d : Disk) : Prop where
  entry : ∀ dir e, Reachable d dir ftDir → e ∈ entries d dir → InUse d e.inode
  separated : Separated (fun i => ∃ t, Reachable d i t) totalBlocks d

/-! ## The tree -/

/-- An entry of the directory `i` for a node of its own. -/
structure Child (d : Disk) (live : Nat → Prop) (route : Nat → List Nat) (i : Nat) (e : DirEntry) :
    Prop where
  inUse : InUse d e.inode
  block : blockOf d e.inode 0 ≠ 0
  ne_root : e.inode ≠ rootInode
  way : route e.inode = e.inode :: route i
  new : e.inode ∉ route i
  isDir : e.fileType = ftDir ↔ live e.inode

/-- A directory of the tree. Its route are the directories from it up to the root. -/
structure Directory (d : Disk) (live : Nat → Prop) (route : Nat → List Nat) (i : Nat) : Prop where
  inUse : InUse d i
  mode : (inodeOf d i).mode &&& sIfDir ≠ 0
  block : blockOf d i 0 ≠ 0
  wellFormed : WellFormed (d (blockOf d i 0))
  head : (route i).head? = some i
  closed : ∀ j ∈ route i, live j ∧ route j ⊆ route i
  entry : ∀ e ∈ entries d i, e.inode ∈ route i ∨ Child d live route i e
  upward : ∀ e ∈ entries d i, e.inode ∈ route i → e.fileType = ftDir
  named : ∀ e ∈ entries d i, e.name ≠ dot → e.name ≠ dotDot → e.inode ∉ route i
  once : (entries d i).Pairwise fun e e' => e.inode = e'.inode → e.inode ∈ route i

structure Tree (d : Disk) (live : Nat → Prop) (route : Nat → List Nat) : Prop where
  root : live rootInode ∧ route rootInode = [rootInode]
  dir : ∀ {i}, live i → Directory d live route i

/-- What the requests keep. The allocator can go one block too far, so the end of the
blocks is a parameter. -/
structure Consistent (limit : Nat) (d : Disk) : Prop where
  separated : Separated (InUse d) limit d
  tree : ∃ live route, Tree d live route

variable {d d' : Disk} {live : Nat → Prop} {route : Nat → List Nat}
  {i limit parent inode block : Nat} {kind : NodeKind} {dirBlock : ByteBlock} {leaf : List UInt8}

theorem Consistent.mono (h : Consistent limit d) {limit' : Nat} (hle : limit ≤ limit') :
    Consistent limit' d := by
  refine ⟨⟨fun hi hne => ?_, h.separated.inj⟩, h.tree⟩
  obtain ⟨hge, hlt, hmark⟩ := h.separated.place hi hne
  exact ⟨hge, hlt.trans_le hle, hmark⟩

theorem Directory.self_mem (h : Directory d live route i) : i ∈ route i :=
  List.mem_of_mem_head? h.head

theorem Tree.entry (h : Tree d live route) (hi : live i) {e : DirEntry} (he : e ∈ entries d i) :
    InUse d e.inode ∧ blockOf d e.inode 0 ≠ 0 ∧ (e.fileType = ftDir ↔ live e.inode) := by
  rcases (h.dir hi).entry e he with hup | hchild
  · have hlive := ((h.dir hi).closed _ hup).1
    exact ⟨(h.dir hlive).inUse, (h.dir hlive).block, iff_of_true ((h.dir hi).upward e he hup) hlive⟩
  · exact ⟨hchild.inUse, hchild.block, hchild.isDir⟩

/-- What can be reached is in use and has a block. What is reached as a directory is one
of the tree. -/
theorem Tree.reachable (h : Tree d live route) {t : UInt8} (hr : Reachable d i t) :
    InUse d i ∧ blockOf d i 0 ≠ 0 ∧ (t = ftDir ↔ live i) := by
  induction hr with
  | root =>
    have hroot := h.dir h.root.1
    exact ⟨hroot.inUse, hroot.block, iff_of_true rfl h.root.1⟩
  | entry _ he ih => exact h.entry (ih.2.2.mp rfl) he

theorem Consistent.sound (h : Consistent totalBlocks d) : Sound d := by
  obtain ⟨_, _, htree⟩ := h.tree
  refine ⟨fun _ e hdir he => (htree.reachable (.entry hdir he)).1, ?_⟩
  refine h.separated.mono ?_
  rintro i ⟨t, hr⟩
  exact (htree.reachable hr).1

theorem entries_congr (hblock : blockOf d' i 0 = blockOf d i 0)
    (hdata : blockOf d i 0 ≠ 0 → d' (blockOf d i 0) = d (blockOf d i 0)) :
    entries d' i = entries d i := by
  unfold entries
  rw [hblock]
  split_ifs with hzero
  · rfl
  · rw [hdata hzero]

variable {live' : Nat → Prop} {route' : Nat → List Nat}

/-- What a directory needs to be one in another tree. Its entries may be fewer, or there
may be new ones for new nodes. -/
theorem Directory.transfer (h : Directory d live route i) (hinUse : InUse d' i)
    (hnode : SameInode d d' i) (hwf : WellFormed (d' (blockOf d i 0)))
    (hroute : ∀ j, live j → route' j = route j) (hclosed : ∀ j ∈ route i, live' j)
    (hentry : ∀ e ∈ entries d' i,
      e ∈ entries d i ∧ (Child d live route i e → Child d' live' route' i e) ∨
        Child d' live' route' i e)
    (honce : (entries d' i).Pairwise fun e e' => e.inode = e'.inode → e.inode ∈ route i) :
    Directory d' live' route' i := by
  have hself : route' i = route i := hroute i (h.closed i h.self_mem).1
  refine ⟨hinUse, hnode.mode.symm ▸ h.mode, (hnode.blocks 0).symm ▸ h.block,
    (hnode.blocks 0).symm ▸ hwf, hself.symm ▸ h.head, fun j hj => ?_, fun e he => ?_,
    fun e he hup => ?_, fun e he hdot hdotDot => ?_, hself.symm ▸ honce⟩
  · rw [hself] at hj ⊢
    rw [hroute j (h.closed j hj).1]
    exact ⟨hclosed j hj, (h.closed j hj).2⟩
  · rw [hself]
    rcases hentry e he with ⟨hold, hkeep⟩ | hnew
    · exact (h.entry e hold).imp_right hkeep
    · exact .inr hnew
  · rcases hentry e he with ⟨hold, -⟩ | hnew
    · exact h.upward e hold (hself ▸ hup)
    · exact absurd hup hnew.new
  · rcases hentry e he with ⟨hold, -⟩ | hnew
    · rw [hself]
      exact h.named e hold hdot hdotDot
    · exact hnew.new

theorem Directory.transfer_same (h : Directory d live route i) (hinUse : InUse d' i)
    (hnode : SameInode d d' i) (hdata : d' (blockOf d i 0) = d (blockOf d i 0))
    (hroute : ∀ j, live j → route' j = route j) (hclosed : ∀ j ∈ route i, live' j)
    (hchild : ∀ e ∈ entries d i, Child d live route i e → Child d' live' route' i e) :
    Directory d' live' route' i := by
  have hentries : entries d' i = entries d i := entries_congr (hnode.blocks 0) fun _ => hdata
  refine h.transfer hinUse hnode (hdata.symm ▸ h.wellFormed) hroute hclosed ?_ ?_
  · rw [hentries]
    exact fun e he => .inl ⟨he, hchild e he⟩
  · rw [hentries]
    exact h.once

/-- A disk that agrees on inodes, marks and all marked blocks. -/
theorem Consistent.congr (h : Consistent limit d) (hnode : ∀ j, IsInode j → SameInode d d' j)
    (hinUse : ∀ j, InUse d' j ↔ InUse d j) (hused : ∀ b, 0 < b → (Used d' b ↔ Used d b))
    (hdata : ∀ n, rootDataBlock ≤ n → n < limit → Used d n → d' n = d n) :
    Consistent limit d' := by
  have hblocks {i k : Nat} (hi : InUse d i) : blockOf d' i k = blockOf d i k :=
    (hnode i hi.1).blocks k
  constructor
  · constructor
    · intro i k hi hne
      rw [hinUse] at hi
      rw [hblocks hi] at hne ⊢
      rw [hused _ (Nat.pos_of_ne_zero hne)]
      exact h.separated.place hi hne
    · intro i j k l hi hj heq hne
      rw [hinUse] at hi hj
      rw [hblocks hi] at heq hne
      rw [hblocks hj] at heq
      exact h.separated.inj hi hj heq hne
  · obtain ⟨live, route, htree⟩ := h.tree
    refine ⟨live, route, htree.root, fun {i} hi => ?_⟩
    have hdir := htree.dir hi
    obtain ⟨hge, hlt, hmark⟩ := h.separated.place hdir.inUse hdir.block
    refine hdir.transfer_same ((hinUse i).mpr hdir.inUse) (hnode i hdir.inUse.1)
      (hdata _ hge hlt hmark) (fun _ _ => rfl) (fun j hj => (hdir.closed j hj).1)
      fun e _ hchild => ?_
    exact { hchild with
      inUse := (hinUse _).mpr hchild.inUse
      block := hblocks hchild.inUse ▸ hchild.block }

/-! ## Making a node -/

theorem Separated.made (h : Separated (InUse d) limit d)
    (hm : NodeMade kind d parent inode block dirBlock d') (hunused : ¬ Used d block)
    (hge : rootDataBlock ≤ block) (hlt : block < limit) : Separated (InUse d') limit d' := by
  have hpos : 0 < block := (show 0 < rootDataBlock by decide).trans_le hge
  -- a block is the new one or an old one
  have hview {i k : Nat} (hi : InUse d' i) (hne : blockOf d' i k ≠ 0) :
      (i = inode ∧ k = 0 ∧ blockOf d' i k = block) ∨
        (InUse d i ∧ blockOf d' i k = blockOf d i k) := by
    by_cases hin : i = inode
    · subst hin
      rw [hm.block_new] at hne ⊢
      split_ifs at hne ⊢ with hk
      · exact .inl ⟨rfl, hk, rfl⟩
      · exact absurd rfl hne
    · have hold := ((hm.inUse i).mp hi).resolve_left hin
      exact .inr ⟨hold, (hm.inodes i hold.1 hin).blocks k⟩
  have hother {j l : Nat} (hj : InUse d j) : block ≠ blockOf d j l := by
    intro heq
    rw [heq] at hunused hpos
    exact hunused (h.place hj hpos.ne').2.2
  constructor
  · intro i k hi hne
    rcases hview hi hne with ⟨-, -, hnew⟩ | ⟨hold, hsame⟩
    · rw [hnew]
      exact ⟨hge, hlt, (hm.used block hpos).mpr (.inl rfl)⟩
    · rw [hsame] at hne ⊢
      obtain ⟨hge', hlt', hmark⟩ := h.place hold hne
      exact ⟨hge', hlt', (hm.used _ (Nat.pos_of_ne_zero hne)).mpr (.inr hmark)⟩
  · intro i j k l hi hj heq hne
    have hne' : blockOf d' j l ≠ 0 := heq ▸ hne
    rcases hview hi hne with ⟨rfl, rfl, hnew⟩ | ⟨hold, hsame⟩ <;>
      rcases hview hj hne' with ⟨rfl, rfl, hnew'⟩ | ⟨hold', hsame'⟩
    · exact ⟨rfl, rfl⟩
    · rw [hnew, hsame'] at heq
      exact absurd heq (hother hold')
    · rw [hsame, hnew'] at heq
      exact absurd heq.symm (hother hold)
    · rw [hsame] at heq hne
      rw [hsame'] at heq
      exact h.inj hold hold' heq hne

theorem Separated.data_made (h : Separated (InUse d) limit d)
    (hm : NodeMade kind d parent inode block dirBlock d') (hunused : ¬ Used d block)
    (hparent : InUse d parent) {i : Nat} (hi : InUse d i) (hblock : blockOf d i 0 ≠ 0)
    (hip : i ≠ parent) : d' (blockOf d i 0) = d (blockOf d i 0) := by
  obtain ⟨hge, -, hmark⟩ := h.place hi hblock
  refine hm.others _ hge (fun heq => ?_) fun heq => hip (h.inj hi hparent heq hblock).1
  exact hunused (heq ▸ hmark)

section

variable (hm : NodeMade kind d parent inode block dirBlock d')

include hm

theorem NodeMade.entries_parent (hparent : InUse d parent) (hne : parent ≠ inode)
    (hblock : blockOf d parent 0 ≠ 0)
    (hadd : Added (d (blockOf d parent 0)) inode kind.fileType leaf dirBlock) :
    ∃ pre post, entries d parent = pre ++ post ∧
      entries d' parent = pre ++ newEntry inode kind.fileType leaf ++ post := by
  obtain ⟨pre, post, hbefore, hafter⟩ := hadd.entries
  refine ⟨pre, post, ?_, ?_⟩
  · rw [entries, if_neg hblock, hbefore]
  · rw [entries, (hm.inodes parent hparent.1 hne).blocks, if_neg hblock, hm.directory, hafter]

theorem NodeMade.entries_new (hge : rootDataBlock ≤ block) :
    entries d' inode = readDirEntries (kind.content inode parent) := by
  have hpos : 0 < block := (show 0 < rootDataBlock by decide).trans_le hge
  rw [entries, hm.block_new, if_pos rfl, if_neg hpos.ne', hm.content]

end

structure NodeKind.MakesDir (kind : NodeKind) (parent inode : Nat) : Prop where
  mode : kind.mode &&& sIfDir ≠ 0
  wellFormed : WellFormed (kind.content inode parent)
  entries : ∀ e ∈ readDirEntries (kind.content inode parent),
    e.fileType = ftDir ∧ (e.inode = inode ∧ e.name = dot ∨ e.inode = parent ∧ e.name = dotDot)
  names : ((readDirEntries (kind.content inode parent)).map DirEntry.name).Nodup

theorem Tree.made (h : Tree d live route) (hsep : Separated (InUse d) limit d)
    (hm : NodeMade kind d parent inode block dirBlock d') (hfresh : ¬ InUse d inode)
    (hunused : ¬ Used d block) (hge : rootDataBlock ≤ block)
    (hparent : InUse d parent) (hdir : blockOf d parent 0 ≠ 0)
    (hadd : Added (d (blockOf d parent 0)) inode kind.fileType leaf dirBlock)
    (hkind : kind.fileType = ftDir → kind.MakesDir parent inode) :
    Tree d' (fun i => live i ∨ i = inode ∧ live parent ∧ kind.fileType = ftDir)
      (update route inode (inode :: route parent)) := by
  have hpos : 0 < block := (show 0 < rootDataBlock by decide).trans_le hge
  have hne {i : Nat} (hi : InUse d i) : i ≠ inode := by
    rintro rfl
    exact hfresh hi
  have hroute (j : Nat) (hj : live j) : update route inode (inode :: route parent) j = route j :=
    update_of_ne (hne (h.dir hj).inUse) _ _
  -- the nodes that were there are there
  have hchild {i : Nat} (hi : live i) {e : DirEntry} (he : Child d live route i e) :
      Child d' (fun i => live i ∨ i = inode ∧ live parent ∧ kind.fileType = ftDir)
        (update route inode (inode :: route parent)) i e := by
    refine ⟨(hm.inUse _).mpr (.inr he.inUse), ?_, he.ne_root, ?_, ?_, he.isDir.trans ?_⟩
    · rw [(hm.inodes _ he.inUse.1 (hne he.inUse)).blocks]
      exact he.block
    · rw [update_of_ne (hne he.inUse), hroute i hi, he.way]
    · rw [hroute i hi]
      exact he.new
    · exact ⟨.inl, fun hlive => hlive.resolve_right fun hnew => hne he.inUse hnew.1⟩
  refine ⟨⟨.inl h.root.1, (hroute _ h.root.1).trans h.root.2⟩, ?_⟩
  rintro i (hi | ⟨rfl, hlive, htype⟩)
  · have hold := h.dir hi
    have hnode := hm.inodes i hold.inUse.1 (hne hold.inUse)
    have hinUse := (hm.inUse i).mpr (.inr hold.inUse)
    have hclosed : ∀ j ∈ route i, live j ∨ j = inode ∧ live parent ∧ kind.fileType = ftDir :=
      fun j hj => .inl (hold.closed j hj).1
    by_cases hip : i = parent
    · -- the directory with the new entry
      subst hip
      obtain ⟨_, _, hentries, hentries'⟩ :=
        hm.entries_parent hold.inUse (hne hold.inUse) hold.block hadd
      have hup : inode ∉ route i := fun hmem => hfresh (h.dir (hold.closed _ hmem).1).inUse
      refine hold.transfer hinUse hnode (hm.directory.symm ▸ hadd.wellFormed hold.wellFormed)
        hroute hclosed ?_ ?_
      · intro e he
        rw [hentries', append_assoc, mem_append, mem_append] at he
        rcases he with he | he | he
        · exact .inl ⟨hentries ▸ mem_append_left _ he, hchild hi⟩
        · right
          unfold newEntry at he
          split_ifs at he
          · cases he
          · rw [mem_singleton.mp he]
            refine ⟨(hm.inUse _).mpr (.inl rfl), ?_, ?_, ?_, ?_,
              fun ht => .inr ⟨rfl, hi, ht⟩, fun hlive => ?_⟩
            · rw [hm.block_new, if_pos rfl]
              exact hpos.ne'
            · exact (hne (h.dir h.root.1).inUse).symm
            · rw [update_self, hroute i hi]
            · rw [hroute i hi]
              exact hup
            · rcases hlive with hlive | ⟨-, -, htype⟩
              · exact absurd (h.dir hlive).inUse hfresh
              · exact htype
        · exact .inl ⟨hentries ▸ mem_append_right _ he, hchild hi⟩
      · have honce := hold.once
        rw [hentries] at honce
        rw [hentries']
        unfold newEntry
        split_ifs
        · rwa [append_nil]
        · rw [append_assoc, singleton_append, pairwise_middle]
          · refine pairwise_cons.mpr ⟨fun e he heq => ?_, honce⟩
            -- an entry with the number of the new node would have been in use
            refine absurd ?_ hfresh
            rw [show inode = e.inode from heq]
            exact (h.entry hi (hentries ▸ he)).1
          · intro x y hxy heq
            rw [heq]
            exact hxy heq.symm
    · exact hold.transfer_same hinUse hnode
        (hsep.data_made hm hunused hparent hold.inUse hold.block hip) hroute hclosed
        fun e _ he => hchild hi he
  · -- the new directory
    have hmakes := hkind htype
    have hup := h.dir hlive
    have hself : update route i (i :: route parent) i = i :: route parent :=
      update_self _ _ _
    have hentries := hm.entries_new hge
    have hmem : ∀ e ∈ entries d' i, e.inode ∈ i :: route parent := by
      intro e he
      rw [hentries] at he
      obtain ⟨-, ⟨heq, -⟩ | ⟨heq, -⟩⟩ := hmakes.entries e he
      · rw [heq]
        exact mem_cons_self
      · rw [heq]
        exact mem_cons_of_mem _ hup.self_mem
    refine ⟨(hm.inUse i).mpr (.inl rfl), hm.mode_new.symm ▸ hmakes.mode, ?_, ?_, ?_, ?_, ?_, ?_,
      ?_, ?_⟩
    · rw [hm.block_new, if_pos rfl]
      exact hpos.ne'
    · rw [hm.block_new, if_pos rfl, hm.content]
      exact hmakes.wellFormed
    · rw [hself]
      rfl
    · intro j hj
      rw [hself] at hj ⊢
      rcases mem_cons.mp hj with rfl | hj
      · rw [hself]
        exact ⟨.inr ⟨rfl, hlive, htype⟩, List.Subset.refl _⟩
      · obtain ⟨hjlive, hsub⟩ := hup.closed j hj
        rw [hroute j hjlive]
        exact ⟨.inl hjlive, List.Subset.trans hsub (subset_cons_self _ _)⟩
    · rw [hself]
      exact fun e he => .inl (hmem e he)
    · intro e he _
      rw [hentries] at he
      exact (hmakes.entries e he).1
    · intro e he hdot hdotDot
      rw [hentries] at he
      obtain ⟨-, ⟨-, hname⟩ | ⟨-, hname⟩⟩ := hmakes.entries e he
      · exact absurd hname hdot
      · exact absurd hname hdotDot
    · rw [hself]
      exact pairwise_of_forall_mem_list fun e he _ _ _ => hmem e he

/-! ## Removing a node -/

theorem NodeUnlinked.blocks (h : NodeUnlinked d parent inode dirBlock d') {i : Nat}
    (hi : IsInode i) (k : Nat) : blockOf d' i k = blockOf d i k := by
  rw [blockOf, h.inodes i hi, blockOf]

theorem Separated.unlinked (h : Separated (InUse d) limit d)
    (hu : NodeUnlinked d parent inode dirBlock d') (hinode : InUse d inode) :
    Separated (InUse d') limit d' := by
  constructor
  · intro i k hi hne
    obtain ⟨hgone, hold⟩ := (hu.inUse i).mp hi
    rw [hu.blocks hold.1] at hne ⊢
    obtain ⟨hge, hlt, hmark⟩ := h.place hold hne
    refine ⟨hge, hlt, (hu.used _ (Nat.pos_of_ne_zero hne)).mpr ⟨fun hmem => ?_, hmark⟩⟩
    obtain ⟨-, l, -, heq⟩ := mem_blocksOf.mp hmem
    exact hgone (h.inj hold hinode heq.symm hne).1
  · intro i j k l hi hj heq hne
    have hold := ((hu.inUse i).mp hi).2
    have hold' := ((hu.inUse j).mp hj).2
    rw [hu.blocks hold.1] at heq hne
    rw [hu.blocks hold'.1] at heq
    exact h.inj hold hold' heq hne

theorem Separated.data_unlinked (h : Separated (InUse d) limit d)
    (hu : NodeUnlinked d parent inode dirBlock d') (hparent : InUse d parent) {i : Nat}
    (hi : InUse d i) (hblock : blockOf d i 0 ≠ 0) (hip : i ≠ parent) :
    d' (blockOf d i 0) = d (blockOf d i 0) :=
  hu.others _ (h.place hi hblock).1 fun heq => hip (h.inj hi hparent heq hblock).1

theorem NodeUnlinked.entries_parent (hu : NodeUnlinked d parent inode dirBlock d')
    (hparent : InUse d parent) (hblock : blockOf d parent 0 ≠ 0)
    (hremove : Removed (d (blockOf d parent 0)) leaf inode dirBlock) :
    ∃ pre e post, entries d parent = pre ++ e :: post ∧ entries d' parent = pre ++ post ∧
      e.inode = inode ∧ e.name = leaf := by
  obtain ⟨pre, e, post, hbefore, hafter, hinode, hname, -⟩ := hremove.entries
  refine ⟨pre, e, post, ?_, ?_, hinode, hname⟩
  · rw [entries, if_neg hblock, hbefore]
  · rw [entries, hu.blocks hparent.1, if_neg hblock, hu.directory, hafter]

theorem Tree.unlinked (h : Tree d live route) (hsep : Separated (InUse d) limit d)
    (hlive : live parent) (hu : NodeUnlinked d parent inode dirBlock d')
    (hremove : Removed (d (blockOf d parent 0)) leaf inode dirBlock)
    (hdot : leaf ≠ dot) (hdotDot : leaf ≠ dotDot) :
    Tree d' (fun i => live i ∧ inode ∉ route i) route := by
  have hparent := h.dir hlive
  obtain ⟨_, e, _, hentries, hentries', hinode, hname⟩ :=
    hu.entries_parent hparent.inUse hparent.block hremove
  have hmem : e ∈ entries d parent := hentries ▸ mem_append_right _ mem_cons_self
  have hup : e.inode ∉ route parent :=
    hparent.named e hmem (hname.symm ▸ hdot) (hname.symm ▸ hdotDot)
  have hnode := (hparent.entry e hmem).resolve_left hup
  subst hinode
  -- the entry that is removed is the only one for the node
  have hgone {i : Nat} (hi : live i) {e' : DirEntry} (he' : e' ∈ entries d' i)
      (hchild : Child d live route i e') : e'.inode ≠ e.inode := by
    intro heq
    have hway : route i = route parent := by
      have hcons := hchild.way
      rw [heq, hnode.way] at hcons
      exact (List.cons.inj hcons).2.symm
    have hip : i = parent := by
      have hhead := (h.dir hi).head
      rw [hway, hparent.head] at hhead
      exact (Option.some.inj hhead).symm
    subst hip
    have honce := hparent.once
    rw [hentries, pairwise_middle fun {x y} hxy heq => by rw [heq]; exact hxy heq.symm] at honce
    rw [hentries'] at he'
    exact hup (rel_of_pairwise_cons honce he' heq.symm)
  refine ⟨⟨⟨h.root.1, ?_⟩, h.root.2⟩, ?_⟩
  · rw [h.root.2]
    exact fun hroot => hnode.ne_root (mem_singleton.mp hroot)
  · rintro i ⟨hi, haway⟩
    have hold := h.dir hi
    have hsame : SameInode d d' i := .of_eq (hu.inodes i hold.inUse.1)
    have hinUse : InUse d' i := by
      refine (hu.inUse i).mpr ⟨?_, hold.inUse⟩
      rintro rfl
      exact haway hold.self_mem
    have hrest : (entries d' i).Sublist (entries d i) ∧ WellFormed (d' (blockOf d i 0)) := by
      by_cases hip : i = parent
      · subst hip
        rw [hentries, hentries', hu.directory]
        exact ⟨Sublist.append_left (sublist_cons_self _ _) _, hremove.wellFormed⟩
      · have hdata := hsep.data_unlinked hu hparent.inUse hold.inUse hold.block hip
        rw [entries_congr (hsame.blocks 0) fun _ => hdata, hdata]
        exact ⟨Sublist.refl _, hold.wellFormed⟩
    refine hold.transfer hinUse hsame hrest.2 (fun _ _ => rfl) ?_ ?_ (hold.once.sublist hrest.1)
    · intro j hj
      obtain ⟨hjlive, hroute⟩ := hold.closed j hj
      exact ⟨hjlive, fun hmem => haway (hroute hmem)⟩
    · intro e' he'
      refine .inl ⟨hrest.1.subset he', fun hchild => ?_⟩
      refine ⟨(hu.inUse _).mpr ⟨hgone hi he' hchild, hchild.inUse⟩, ?_, hchild.ne_root,
        hchild.way, hchild.new, fun ht => ⟨hchild.isDir.mp ht, ?_⟩,
        fun hlive => hchild.isDir.mpr hlive.1⟩
      · rw [hu.blocks hchild.inUse.1]
        exact hchild.block
      · rw [hchild.way, mem_cons, not_or]
        exact ⟨(hgone hi he' hchild).symm, haway⟩

/-! ## Writing a file -/

section

variable {c : Disk} {S : Nat → Prop} {offset w size : Nat} {data : List UInt8} {blocks : List Nat}

/-- A block of the file after the write is one that it had or one that was not marked. -/
theorem FileWritten.block_cases (hw : FileWritten d c i size blocks d')
    (hfill : Filling d (inodeOf d i).directBlocks offset data c blocks w) {k : Nat}
    (hne : blockOf d' i k ≠ 0) :
    blockOf d' i k = blocks.getD k 0 ∧ (blockOf d' i k = blockOf d i k ∨
      blockOf d i k = 0 ∧ fileDataBlock + 1 ≤ blockOf d' i k ∧ ¬ Used d (blockOf d' i k)) := by
  have hnew : blockOf d' i k = blocks.getD k 0 := by
    rw [hw.block_new] at hne ⊢
    split_ifs at hne ⊢
    · rfl
    · exact absurd rfl hne
  refine ⟨hnew, ?_⟩
  rw [hnew] at hne ⊢
  by_cases hzero : blockOf d i k = 0
  · obtain ⟨hge, -, hunused⟩ := hfill.fresh k hzero hne
    exact .inr ⟨hzero, hge, hunused⟩
  · exact .inl (hfill.kept k hzero)

theorem FileWritten.used_iff (hw : FileWritten d c i size blocks d')
    (hfill : Filling d (inodeOf d i).directBlocks offset data c blocks w) {b : Nat} (hb : 0 < b) :
    Used d' b ↔ Used d b ∨ ∃ k, blockOf d i k = 0 ∧ blocks.getD k 0 = b :=
  (hw.used b).trans (hfill.marks b hb)

theorem Separated.written (h : Separated S limit d) (hS : ∀ j, S j → IsInode j) (hi : S i)
    (hw : FileWritten d c i size blocks d')
    (hfill : Filling d (inodeOf d i).directBlocks offset data c blocks w)
    (hroom : ∀ k, blockOf d i k = 0 → blocks.getD k 0 < limit) : Separated S limit d' := by
  have hview {j l : Nat} (hj : S j) (hne : blockOf d' j l ≠ 0) :
      (blockOf d' j l = blockOf d j l) ∨ (j = i ∧ blockOf d i l = 0 ∧
        blockOf d' j l = blocks.getD l 0 ∧ fileDataBlock + 1 ≤ blockOf d' j l ∧
        ¬ Used d (blockOf d' j l)) := by
    by_cases hji : j = i
    · subst hji
      obtain ⟨hnew, hold | ⟨hzero, hge, hunused⟩⟩ := hw.block_cases hfill hne
      · exact .inl hold
      · exact .inr ⟨rfl, hzero, hnew, hge, hunused⟩
    · left
      rw [blockOf, hw.inodes j (hS j hj) hji, blockOf]
  constructor
  · intro j l hj hne
    have hpos := Nat.pos_of_ne_zero hne
    rw [hw.used_iff hfill hpos]
    rcases hview hj hne with hold | ⟨rfl, hzero, hnew, hge, -⟩
    · rw [hold] at hne ⊢
      obtain ⟨hge, hlt, hmark⟩ := h.place hj hne
      exact ⟨hge, hlt, .inl hmark⟩
    · refine ⟨(show rootDataBlock ≤ fileDataBlock + 1 by decide).trans hge, ?_,
        .inr ⟨l, hzero, hnew.symm⟩⟩
      rw [hnew]
      exact hroom l hzero
  · intro j j' l l' hj hj' heq hne
    have hne' : blockOf d' j' l' ≠ 0 := heq ▸ hne
    rcases hview hj hne with hold | ⟨rfl, -, hnew, -, hunused⟩ <;>
      rcases hview hj' hne' with hold' | ⟨rfl, -, hnew', -, hunused'⟩
    · rw [hold] at heq hne
      rw [hold'] at heq
      exact h.inj hj hj' heq hne
    · rw [← heq, hold] at hunused'
      exact absurd (h.place hj (hold ▸ hne)).2.2 hunused'
    · rw [heq, hold'] at hunused
      exact absurd (h.place hj' (hold' ▸ hne')).2.2 hunused
    · refine ⟨rfl, ?_⟩
      rw [hnew] at heq hne
      exact hfill.inj l l' (heq.trans hnew') hne

theorem Separated.data_written (h : Separated S limit d) (hi : S i)
    (hw : FileWritten d c i size blocks d')
    (hfill : Filling d (inodeOf d i).directBlocks offset data c blocks w) {j l : Nat} (hj : S j)
    (hji : j ≠ i) (hne : blockOf d j l ≠ 0) : d' (blockOf d j l) = d (blockOf d j l) := by
  obtain ⟨hge, -, hmark⟩ := h.place hj hne
  rw [hw.data _ hge]
  refine hfill.others _ hge fun k heq => ?_
  by_cases hzero : (inodeOf d i).directBlocks.getD k 0 = 0
  · obtain ⟨-, -, hunused⟩ := hfill.fresh k hzero (heq ▸ hne)
    exact hunused (heq ▸ hmark)
  · rw [hfill.kept k hzero] at heq
    exact hji (h.inj hj hi heq.symm hne).1

theorem Tree.written (h : Tree d live route) (hsep : Separated (InUse d) limit d) (hi : InUse d i)
    (hfile : ¬ live i) (hw : FileWritten d c i size blocks d')
    (hfill : Filling d (inodeOf d i).directBlocks offset data c blocks w)
    (hsize : blockOf d i 0 ≠ 0 → 0 < size) : Tree d' live route := by
  have hother {j : Nat} (hj : live j) : j ≠ i := by
    rintro rfl
    exact hfile hj
  refine ⟨h.root, fun {j} hj => ?_⟩
  have hold := h.dir hj
  refine hold.transfer_same ((hw.inUse j).mpr hold.inUse)
    (.of_eq (hw.inodes j hold.inUse.1 (hother hj)))
    (hsep.data_written hi hw hfill hold.inUse (hother hj) hold.block) (fun _ _ => rfl)
    (fun l hl => (hold.closed l hl).1) fun e _ hchild => ?_
  refine { hchild with inUse := (hw.inUse _).mpr hchild.inUse, block := ?_ }
  by_cases hei : e.inode = i
  · have hblock := hchild.block
    rw [hei] at hblock ⊢
    have hcount : 0 < blockCount size := by
      unfold blockCount blockSize
      omega
    rw [hw.block_new, if_pos hcount, hfill.kept 0 hblock]
    exact hblock
  · rw [blockOf, hw.inodes _ hchild.inUse.1 hei]
    exact hchild.block

theorem Wrote.size_pos {us : List Update} (h : Wrote d i offset data us blocks w)
    (hdata : data ≠ []) (hblock : blockOf d i 0 ≠ 0) : 0 < max (offset + w) (inodeOf d i).size := by
  by_contra hzero
  obtain ⟨rfl, rfl⟩ : offset = 0 ∧ w = 0 := by omega
  rcases h.stopped with hall | hend | ⟨hnone, -⟩
  · exact hdata (length_eq_zero_iff.mp hall.symm)
  · exact absurd hend (by decide)
  · exact hblock ((h.state.filling.kept 0 hblock).symm.trans hnone)

end

end AgenticOS.BlkDriver
