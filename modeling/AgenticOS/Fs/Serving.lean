import AgenticOS.Fs.Structure

/-!
# One request after another

What the service loop does with a request is one of a few things, read off the
disk before it. From there: the structure of the file system is kept in every run
in which the requests stay clear of three things that the driver does not check.
UNLINK removes the entries `.` and `..` like any other, and takes the data of a
file for a directory; WRITE writes to directories; and the last block that the
allocator hands out is the first one after the file system.
-/

namespace AgenticOS.BlkDriver

open Foundation Ext2 Driver

/-- A message with the payload that was fetched for it, and what the driver's buffers
hold while it is served. -/
structure Request where
  junk : ByteBlock
  command : FileCommand
  fetched : Fetched
  offset_lt : ∀ offset data, fetched = some (offset, data) → offset < 2 ^ 32

namespace Request

def target (r : Request) : Nat := r.command.targetInode.toNat

def path (r : Request) : List UInt8 := r.fetched.path

def parentPath (r : Request) : List UInt8 := (splitParentAndBasename r.path).1

def leaf (r : Request) : List UInt8 := (splitParentAndBasename r.path).2

end Request

/-- One turn of the service loop on a disk. The driver may end. -/
def serveOn (d : Disk) (r : Request) : Option (List ReplyRequest × Disk) :=
  serve disk r.junk d r.command r.fetched

/-! ## What a request does -/

inductive Served (d : Disk) (r : Request) : List ReplyRequest → List (Nat × ByteBlock) → Prop
  /-- LOOKUP, READDIR and READ write nothing. -/
  | quiet (replies : List ReplyRequest)
      (hop : r.command.op = .lookup ∨ r.command.op = .readdir ∨ r.command.op = .read) :
      Served d r replies []
  | mkdir {inode : Nat} {log : List (Nat × ByteBlock)} (hop : r.command.op = .mkdir)
      (h : Made dirKind d r.path (inode, log)) :
      Served d r [nodeReply r.command.requestId inode] log
  | create {inode : Nat} {log : List (Nat × ByteBlock)} (hop : r.command.op = .create)
      (h : Made (fileKind r.junk) d r.path (inode, log)) :
      Served d r [nodeReply r.command.requestId inode] log
  | unlink {done : Bool} {log : List (Nat × ByteBlock)} (hop : r.command.op = .unlink)
      (h : Unlinked d r.path (done, log)) :
      Served d r [.ofBytes r.command.requestId [if done then 1 else 0]] log
  /-- There was nothing to write. -/
  | ignored (hop : r.command.op = .write) : Served d r [] []
  | write {offset w : Nat} {data : List UInt8} {us : List Update} {blocks : List Nat}
      (hop : r.command.op = .write) (hfetched : r.fetched = some (offset, data)) (hdata : data ≠ [])
      (h : Wrote d r.target offset data us blocks w) :
      Served d r [⟨r.command.requestId, none, w⟩]
        (writesOf d (us ++ [sizeUpdate d r.target offset blocks w]))

/-- What a request relies on: the directory that it changes is one, and the inode that it
writes has blocks of its own. -/
structure Ready (d : Disk) (r : Request) : Prop where
  node : r.command.op = .mkdir ∨ r.command.op = .create → parentOf d r.path ≠ 0 →
    IsInode (parentOf d r.path) ∧ rootDataBlock ≤ blockOf d (parentOf d r.path) 0 ∧
      Used d (blockOf d (parentOf d r.path) 0)
  unlink : r.command.op = .unlink → parentOf d r.path ≠ 0 → r.leaf ≠ [] →
    rootDataBlock ≤ blockOf d (parentOf d r.path) 0 ∧
      ∀ inode dirBlock, removeDirEntry (d (blockOf d (parentOf d r.path) 0)) r.leaf =
        some (inode, dirBlock) → IsInode inode
  write : r.command.op = .write → ∀ offset data, r.fetched = some (offset, data) → data ≠ [] →
    IsInode r.target ∧ Owner d (inodeOf d r.target).directBlocks

section

variable {σ : Type} {io : BlockDevice σ}

section

variable (hio : io.Quiet)

include hio

theorem readLoop_quiet (directBlocks : List Nat) (readLen turns idx : Nat)
    (out : ByteBlock) (s : σ) : (readLoop io directBlocks readLen turns idx out s).2 = s := by
  induction turns generalizing idx out with
  | zero => rfl
  | succ turns ih =>
    rw [readLoop]
    dsimp only
    rw [hio]
    split_ifs
    · exact ih _ _
    · exact ih _ _

theorem serveRead_quiet (junk : ByteBlock) (s : σ) (id : UInt64) (inode : Nat) :
    (serveRead io junk s id inode).2 = s :=
  (readLoop_quiet hio _ _ _ _ _ _).trans (hio _ _)

theorem driverResolvePath_quiet (s : σ) (path : List UInt8) :
    (driverResolvePath io s path).2 = s := resolveFrom_quiet hio _ _ s

theorem serveLookup_quiet (s : σ) (id : UInt64) (fetched : Fetched) :
    (serveLookup io s id fetched).2 = s := by
  unfold serveLookup
  split
  · rfl
  · rename_i bytes
    have hresolve := driverResolvePath_quiet hio s (pathOf bytes)
    split
    · rename_i heq
      rw [heq] at hresolve
      exact (hio _ _).trans hresolve
    · rename_i heq
      rw [heq] at hresolve
      exact hresolve

theorem serveReaddir_quiet (s : σ) (id : UInt64) (fetched : Fetched) :
    (serveReaddir io s id fetched).2 = s := by
  unfold serveReaddir
  dsimp only
  generalize hdir : (if fetched.path = [] ∨ fetched.path = [slash] then (rootInode, s)
    else (((driverResolvePath io s fetched.path).1.map Prod.fst).getD 0,
      (driverResolvePath io s fetched.path).2)) = dir
  have hstate : dir.2 = s := by
    rw [← hdir]
    split_ifs
    · rfl
    · exact driverResolvePath_quiet hio s _
  have hread := readDirBlock_quiet hio dir.2 dir.1
  split_ifs
  · split
    · rename_i heq
      rw [heq] at hread
      exact hread.trans hstate
    · rename_i heq
      rw [heq] at hread
      exact hread.trans hstate
  · exact hstate

end

end

theorem served_of_serve {d : Disk} {r : Request} (hr : Ready d r) {replies : List ReplyRequest}
    {log : List (Nat × ByteBlock)}
    (h : serve (journal d) r.junk [] r.command r.fetched = some (replies, log)) :
    Served d r replies log := by
  unfold serve at h
  split at h
  case h_1 hop =>
    have hquiet := serveLookup_quiet (quiet_journal d) [] r.command.requestId r.fetched
    rw [Option.some.inj h] at hquiet
    obtain rfl : log = [] := hquiet
    exact .quiet _ (.inl hop)
  case h_2 hop =>
    have hquiet := serveReaddir_quiet (quiet_journal d) [] r.command.requestId r.fetched
    rw [Option.some.inj h] at hquiet
    obtain rfl : log = [] := hquiet
    exact .quiet _ (.inr (.inl hop))
  case h_3 hop =>
    have hmade : Made dirKind d r.path (makeNode (journal d) dirKind [] r.fetched.path) :=
      made_of_makeNode dirKind d r.path (hr.node (.inl hop))
    unfold serveMkdir at h
    generalize makeNode (journal d) dirKind [] r.fetched.path = made at h hmade
    cases h
    exact .mkdir hop hmade
  case h_4 hop =>
    have hmade : Made (fileKind r.junk) d r.path
        (makeNode (journal d) (fileKind r.junk) [] r.fetched.path) :=
      made_of_makeNode (fileKind r.junk) d r.path (hr.node (.inr hop))
    unfold serveCreate at h
    generalize makeNode (journal d) (fileKind r.junk) [] r.fetched.path = made at h hmade
    cases h
    exact .create hop hmade
  case h_5 hop =>
    have hunlinked := unlinked_of_unlink d r.path (hr.unlink hop)
    rcases hdone : BlkDriver.unlink (journal d) [] r.path with ⟨done, log'⟩
    rw [hdone] at hunlinked
    have heq : serveUnlink (journal d) [] r.command.requestId r.fetched =
        ([.ofBytes r.command.requestId [if done then 1 else 0]], log') := by
      unfold serveUnlink
      rw [show BlkDriver.unlink (journal d) [] r.fetched.path = (done, log') from hdone]
    rw [heq] at h
    cases h
    exact .unlink hop hunlinked
  case h_6 hop =>
    rcases hfetched : r.fetched with _ | ⟨offset, data⟩
    · rw [hfetched] at h
      cases h
      exact .ignored hop
    · by_cases hdata : data = []
      · rw [hfetched, hdata] at h
        cases h
        exact .ignored hop
      · obtain ⟨hinode, hown⟩ := hr.write hop offset data hfetched hdata
        rw [hfetched] at h
        obtain ⟨_, _, w, hwrote, rfl, rfl⟩ :=
          wrote_of_serveWrite hown hinode hdata (r.offset_lt offset data hfetched) h
        exact .write hop hfetched hdata hwrote
  case h_7 hop =>
    have hquiet := serveRead_quiet (quiet_journal d) r.junk [] r.command.requestId
      r.command.targetInode.toNat
    rw [Option.some.inj h] at hquiet
    obtain rfl : log = [] := hquiet
    exact .quiet _ (.inr (.inr hop))

theorem served_of_serveOn {d d' : Disk} {r : Request} (hr : Ready d r)
    {replies : List ReplyRequest} (h : serveOn d r = some (replies, d')) :
    ∃ log, Served d r replies log ∧ d' = applyWrites d log := by
  rw [serveOn, serve_disk] at h
  obtain ⟨⟨_, log⟩, hserve, heq⟩ := Option.map_eq_some_iff.mp h
  cases heq
  exact ⟨log, served_of_serve hr hserve, rfl⟩

/-! ## Requests that fail -/

/-- The reply says that nothing was made, removed or written. -/
def Refused (r : Request) (replies : List ReplyRequest) : Prop :=
  match r.command.op with
  | .mkdir | .create => replies = [.empty r.command.requestId]
  | .unlink => replies = [.ofBytes r.command.requestId [0]]
  | .write => replies = []
  | .lookup | .readdir | .read => True

variable {d d' : Disk} {r : Request} {replies : List ReplyRequest} {id : UInt64} {inode : Nat}

theorem nodeReply_ne_empty (h : inode ≠ 0) : nodeReply id inode ≠ .empty id := by
  intro hempty
  rw [nodeReply, if_pos h] at hempty
  cases hempty

theorem Made.kept {kind : NodeKind} {path : List UInt8} {log : List (Nat × ByteBlock)}
    (h : Made kind d path (inode, log)) (hno : [nodeReply id inode] = [.empty id]) {n : Nat}
    (hn : n < rootDataBlock ∨ Used d n) : applyWrites d log n = d n := by
  cases h with
  | refused => rfl
  | full block inode blockBitmap inodeBitmap _ _ hblock =>
    rw [applyWrites_writesOf]
    refine Function.update_of_ne ?_ _ _
    rintro rfl
    exact hn.elim (isData_of_alloc hblock).not_gt (unused_of_alloc hblock)
  | made block inode blockBitmap inodeBitmap dirBlock gd sb _ hinode =>
    have hpos : inode ≠ 0 := Nat.ne_of_gt (isInode_of_alloc hinode).1.1
    exact absurd (List.singleton_inj.mp hno) (nodeReply_ne_empty hpos)

/-- **Failing is clean.** What is refused changes no metadata and no used block. -/
theorem refused_keeps (hr : Ready d r) (hs : serveOn d r = some (replies, d'))
    (hno : Refused r replies) {n : Nat} (hn : n < rootDataBlock ∨ Used d n) : d' n = d n := by
  obtain ⟨_, hserved, rfl⟩ := served_of_serveOn hr hs
  cases hserved with
  | quiet | ignored => rfl
  | mkdir hop hmade | create hop hmade =>
    rw [Refused, hop] at hno
    exact hmade.kept hno hn
  | unlink hop hunlinked =>
    rw [Refused, hop] at hno
    cases hunlinked with
    | refused => rfl
    | unlinked => cases hno
  | write hop =>
    rw [Refused, hop] at hno
    cases hno

def unlinkGone : Request :=
  ⟨zeroBlock, ⟨7, .unlink, 0⟩, some (0, "gone".toUTF8.data.toList), by rintro _ _ ⟨⟩; decide⟩

theorem refused_keeps_unlink_gone : parentOf freshDisk unlinkGone.path = rootInode ∧
    ∃ d', serveOn freshDisk unlinkGone = some ([.ofBytes 7 [0]], d') ∧
      ∀ n, n < rootDataBlock ∨ Used freshDisk n → d' n = freshDisk n := by
  have hmissing : removeDirEntry (freshDisk (blockOf freshDisk
      (parentOf freshDisk unlinkGone.path) 0)) unlinkGone.leaf = none := by decide +kernel
  have hready : Ready freshDisk unlinkGone := by
    refine ⟨nofun, fun _ _ _ => ⟨by decide +kernel, fun _ _ hsome => ?_⟩, nofun⟩
    rw [hmissing] at hsome
    cases hsome
  have hreply : (serveOn freshDisk unlinkGone).map Prod.fst = some [.ofBytes 7 [0]] := by
    decide +kernel
  obtain ⟨⟨_, d'⟩, hserve, rfl⟩ := Option.map_eq_some_iff.mp hreply
  exact ⟨by decide +kernel, d', hserve, fun n hn => refused_keeps hready hserve rfl hn⟩

end AgenticOS.BlkDriver
