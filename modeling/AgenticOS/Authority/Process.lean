import AgenticOS.Authority.Graph
import AgenticOS.Memory.Vmm

/-!
# Authority of processes over memory

`grant_process` and `revoke_process` of `kernel_rs/src/authority.rs`: a grant
goes into the graph, and the pages that the graph projects for the process are
mapped from the given address on; a revocation takes it out of the graph and
unmaps as many pages from the given address on.

Both work on the projection of the whole process, so with two grants of one
process the pages of one end up in the window of the other. With one grant at a
time the graph and the page tables agree, which is what is proved here.
-/

namespace AgenticOS

open Foundation AuthorityGraph List Function Option UInt64

/-! ## The calls -/

structure CpuAuthority (σ : Type) where
  graph : Graph
  store : PageStore σ

namespace CpuAuthority

variable {σ : Type} (A : PageSource σ)

def cpuFlags (e : Entry) : UInt64 :=
  let flags := if e.writable then 0 ||| pageWritable else 0
  if !e.executable then flags ||| pageNoExecute else flags

def mapEntries (s : PageStore σ) (pml4 vaddrBase : UInt64) (entries : List Entry) :
    Option (PageStore σ) :=
  entries.zipIdx.foldlM (fun s e => mapPage A s pml4 (vaddrBase + UInt64.ofNat e.2 * 4096)
    e.1.physPage (cpuFlags e.1)) s

/-- `grant_process`; `none` if a page table cannot be allocated. -/
def grantProcess (a : CpuAuthority σ) (pid : UInt32) (targetPml4 vaddrBase physBase len : UInt64)
    (writable executable : Bool) : Option (Bool × CpuAuthority σ) :=
  let principal := Principal.cpuProcess pid
  let (added, graph) := grant a.graph ⟨principal, physBase, len, writable, executable⟩
  if !added then some (false, { a with graph := graph })
  else
    let entries := projectPageTable graph principal maxGrants
    if entries.length = 0 then some (false, { a with graph := graph })
    else do
      let s ← mapEntries A a.store targetPml4 vaddrBase entries
      return (true, ⟨graph, s⟩)

def windowPages (vaddrBase : UInt64) (count : Nat) : List UInt64 :=
  (List.range count).map fun i => vaddrBase + UInt64.ofNat i * 4096

def revokeProcess (a : CpuAuthority σ) (pid : UInt32) (targetPml4 vaddrBase physBase : UInt64) :
    Bool × CpuAuthority σ :=
  let principal := Principal.cpuProcess pid
  let count := (projectPageTable a.graph principal maxGrants).length
  let (removed, graph) := revoke a.graph principal physBase
  if removed > 0 then
    (true, ⟨graph, { a.store with
      mem := (windowPages vaddrBase count).foldl (fun mem v => unmapPage mem targetPml4 v)
        a.store.mem }⟩)
  else (false, { a with graph := graph })

end CpuAuthority

inductive CpuCall where
  | grantProcess (pid : UInt32) (targetPml4 vaddrBase physBase len : UInt64)
      (writable executable : Bool)
  | revokeProcess (pid : UInt32) (targetPml4 vaddrBase physBase : UInt64)
  deriving DecidableEq

/-! ## What the calls have set up

Beside the state, a record of where each grant was mapped and of the entries
that `grant_process` has installed. -/

structure CpuLedger (σ : Type) where
  authority : CpuAuthority σ
  base : UInt32 → UInt64 → UInt64
  installer : UInt64 → Nat → Option UInt32

namespace CpuLedger

open CpuAuthority

variable {σ : Type} (A : PageSource σ)

/-- Marks the pages of a window as installed by `who`, or as cleared. -/
def markWindow (installer : UInt64 → Nat → Option UInt32) (pml4 vaddrBase : UInt64) (count : Nat)
    (who : Option UInt32) : UInt64 → Nat → Option UInt32 :=
  fun r page =>
    if r = pml4 ∧ page ∈ (windowPages vaddrBase count).map pageNumber then who
    else installer r page

def step (l : CpuLedger σ) : CpuCall → Option (CpuLedger σ)
  | .grantProcess pid pml4 vaddrBase physBase len writable executable => do
    let (_, a) ←
      l.authority.grantProcess A pid pml4 vaddrBase physBase len writable executable
    let x : Grant := ⟨.cpuProcess pid, physBase, len, writable, executable⟩
    if (grant l.authority.graph x).1 then
      let count := (projectPageTable a.graph (.cpuProcess pid) maxGrants).length
      return {
        authority := a
        base := Function.update l.base pid (Function.update (l.base pid) physBase vaddrBase)
        installer := markWindow l.installer pml4 vaddrBase count (some pid) }
    else return { l with authority := a }
  | .revokeProcess pid pml4 vaddrBase physBase =>
    let (removed, a) := l.authority.revokeProcess pid pml4 vaddrBase physBase
    let count :=
      (projectPageTable l.authority.graph (.cpuProcess pid) maxGrants).length
    some { l with
      authority := a
      installer :=
        if removed then markWindow l.installer pml4 vaddrBase count none else l.installer }

/-- The kernel's empty graph, over page tables that are there already. -/
def start (s : PageStore σ) : CpuLedger σ where
  authority := ⟨List.replicate maxGrants none, s⟩
  base := fun _ _ => 0
  installer := fun _ _ => none

/-! ## The property -/

def pages (x : Grant) : Nat := (pagesFor x.len).toNat

def grantFlags (x : Grant) : UInt64 := cpuFlags (pageEntry x 0)

/-- What translates through an entry that `grant_process` installed is
reachable in the graph. -/
def Contained (l : CpuLedger σ) : Prop :=
  ∀ r v pid, l.installer r (pageNumber v) = some pid →
    isPresent (debugTranslate l.authority.store.mem r v) = true →
      isReachable l.authority.graph (.cpuProcess pid)
        (debugTranslate l.authority.store.mem r v &&& addrMask) = true

/-- Every page of every live grant is mapped at its place, with its flags. -/
def Complete (pml4Of : UInt32 → UInt64) (l : CpuLedger σ) : Prop :=
  ∀ x ∈ live l.authority.graph, ∀ pid, x.principal = .cpuProcess pid → ∀ i < pages x,
    debugTranslate l.authority.store.mem (pml4Of pid)
        (l.base pid x.physBase + UInt64.ofNat i * 4096) =
      leafEntry (x.physBase + UInt64.ofNat i * 4096) (grantFlags x)

/-- A process has one PML4, and a revocation names the address that the grant
was mapped at. -/
def Matching (pml4Of : UInt32 → UInt64) (roots : List UInt64) (l : CpuLedger σ) :
    CpuCall → Prop
  | .grantProcess pid pml4 _ _ _ _ _ => pml4 = pml4Of pid ∧ pml4 ∈ roots
  | .revokeProcess pid pml4 vaddrBase physBase =>
    pml4 = pml4Of pid ∧ pml4 ∈ roots ∧
      ((∃ x ∈ live l.authority.graph,
        x.principal = .cpuProcess pid ∧ x.physBase = physBase) →
          vaddrBase = l.base pid physBase)

/-- A grant of pages that entries can name, to a window of the user half. -/
structure Fits (x : Grant) (vaddrBase : UInt64) : Prop where
  count : pages x ≤ maxGrants
  aligned : x.physBase.toNat % 4096 = 0
  range : x.physBase.toNat + pages x * 4096 ≤ 2 ^ 52
  user : ∀ v ∈ windowPages vaddrBase (pages x), InUserHalf v

/-- The window of `x` at `vaddrBase` does not meet that of `y`. -/
def Apart (x : Grant) (vaddrBase : UInt64) (y : Grant) (vaddrBase' : UInt64) : Prop :=
  ∀ v ∈ windowPages vaddrBase (pages x), ∀ v' ∈ windowPages vaddrBase' (pages y),
    pageNumber v ≠ pageNumber v'

variable {vaddrBase : UInt64}

theorem Apart.symm {x y : Grant} {vaddrBase' : UInt64}
    (h : Apart x vaddrBase y vaddrBase') : Apart y vaddrBase' x vaddrBase :=
  fun v hv v' hv' => (h v' hv' v hv).symm

/-- The graph is full, or the grant is the only one of its process, fits, and
its window is free in the PML4. -/
def OneGrant (pml4Of : UInt32 → UInt64) (l : CpuLedger σ) : CpuCall → Prop
  | .grantProcess pid _ vaddrBase physBase len writable executable =>
    let x : Grant := ⟨.cpuProcess pid, physBase, len, writable, executable⟩
    (grant l.authority.graph x).1 = false ∨
      (grantsOf l.authority.graph (.cpuProcess pid) = [] ∧ Fits x vaddrBase ∧
        ∀ y ∈ live l.authority.graph, ∀ pid', y.principal = .cpuProcess pid' →
          pml4Of pid' = pml4Of pid → Apart x vaddrBase y (l.base pid' y.physBase))
  | .revokeProcess .. => True

/-! ## The invariant -/

variable {A} {pml4Of : UInt32 → UInt64} {roots : List UInt64} {l l' : CpuLedger σ} {x y : Grant}
  {pid pid' : UInt32}

variable (A pml4Of roots) in
/-- At most one grant for each process, mapped at its window, and nothing
installed but these windows. -/
structure Orderly (l : CpuLedger σ) : Prop where
  sound : PagesSound A roots l.authority.store
  single : ∀ pid, (grantsOf l.authority.graph (.cpuProcess pid)).length ≤ 1
  fits : ∀ x ∈ live l.authority.graph, ∀ pid, x.principal = .cpuProcess pid →
    Fits x (l.base pid x.physBase) ∧ pml4Of pid ∈ roots
  apart : ∀ x ∈ live l.authority.graph, ∀ y ∈ live l.authority.graph, ∀ pid pid',
    x.principal = .cpuProcess pid → y.principal = .cpuProcess pid' → pid ≠ pid' →
      pml4Of pid = pml4Of pid' → Apart x (l.base pid x.physBase) y (l.base pid' y.physBase)
  complete : l.Complete pml4Of
  installed : ∀ r page pid, l.installer r page = some pid → r = pml4Of pid ∧
    ∃ x ∈ live l.authority.graph, x.principal = .cpuProcess pid ∧
      page ∈ (windowPages (l.base pid x.physBase) (pages x)).map pageNumber

theorem mem_windowPages {v : UInt64} {count : Nat} :
    v ∈ windowPages vaddrBase count ↔ ∃ i < count, vaddrBase + UInt64.ofNat i * 4096 = v := by
  simp only [windowPages, List.mem_map, mem_range]

theorem toNat_grantPage (hfits : Fits x vaddrBase) {i : Nat} (hi : i < pages x) :
    (x.physBase + UInt64.ofNat i * 4096).toNat = x.physBase.toNat + i * 4096 := by
  have hsize : (4096 : UInt64).toNat = 4096 := rfl
  have hrange := hfits.range
  have hcount := hfits.count
  rw [UInt64.toNat_add, UInt64.toNat_mul, toNat_ofNat', hsize]
  omega

theorem grantFlags_and_addrMask (x : Grant) : grantFlags x &&& addrMask = 0 := by
  have hflags : ∀ writable executable : Bool,
      cpuFlags ⟨0, writable, executable⟩ &&& addrMask = 0 := by decide
  exact hflags x.writable x.executable

theorem Fits.entry (hfits : Fits x vaddrBase) {i : Nat} (hi : i < pages x) :
    leafEntry (x.physBase + UInt64.ofNat i * 4096) (grantFlags x) &&& addrMask =
        x.physBase + UInt64.ofNat i * 4096 ∧
      covers x (x.physBase + UInt64.ofNat i * 4096) = true := by
  have hpage := toNat_grantPage hfits hi
  have hrange := hfits.range
  have haligned := hfits.aligned
  constructor
  · rw [leafEntry_and_addrMask, Packed.or_and_right, grantFlags_and_addrMask, UInt64.or_zero]
    apply UInt64.toNat_inj.mp
    rw [toNat_and_addrMask, hpage]
    omega
  · have hend : (x.physBase + pagesFor x.len * pageSize).toNat =
        x.physBase.toNat + pages x * 4096 := by
      have hsize : pageSize.toNat = 4096 := rfl
      rw [UInt64.toNat_add, UInt64.toNat_mul, hsize]
      show (x.physBase.toNat + pages x * 4096 % 2 ^ 64) % 2 ^ 64 = _
      omega
    rw [covers, Bool.and_eq_true, decide_eq_true_eq, decide_eq_true_eq, le_iff_toNat_le,
      lt_iff_toNat_lt, hpage, hend]
    omega

theorem Orderly.contained (h : Orderly A pml4Of roots l) : l.Contained := by
  intro r v pid hinstalled _
  rcases h.installed r _ pid hinstalled with ⟨rfl, x, hx, hprincipal, hpage⟩
  rcases List.mem_map.mp hpage with ⟨_, hv', hsame⟩
  rcases mem_windowPages.mp hv' with ⟨i, hi, rfl⟩
  rw [debugTranslate_congr hsame.symm, h.complete x hx pid hprincipal i hi]
  rcases (h.fits x hx pid hprincipal).1.entry hi with ⟨hentry, hcovers⟩
  rw [hentry, isReachable_iff]
  exact ⟨x, hx, hprincipal, hcovers⟩

/-! ## One call -/

/-- The two outcomes of `grant_process`: nothing happens, or the grant is added
and the projection mapped. -/
theorem grantProcess_cases {a a' : CpuAuthority σ} {pml4 physBase len : UInt64}
    {writable executable added : Bool}
    (h : a.grantProcess A pid pml4 vaddrBase physBase len writable executable = some (added, a')) :
    ((grant a.graph ⟨.cpuProcess pid, physBase, len, writable, executable⟩).1 = false ∧ a' = a) ∨
    ((grant a.graph ⟨.cpuProcess pid, physBase, len, writable, executable⟩).1 = true ∧
      a'.graph = (grant a.graph ⟨.cpuProcess pid, physBase, len, writable, executable⟩).2 ∧
      mapEntries A a.store pml4 vaddrBase
        (projectPageTable a'.graph (.cpuProcess pid) maxGrants) = some a'.store) := by
  unfold grantProcess at h
  dsimp only at h
  split_ifs at h with hrefused hnone
  · cases h
    rw [Bool.not_eq_true'] at hrefused
    exact .inl ⟨hrefused, by rw [grant_refused hrefused]⟩
  · cases h
    rw [Bool.not_eq_true', Bool.not_eq_false] at hrefused
    refine .inr ⟨hrefused, rfl, ?_⟩
    rw [length_eq_zero_iff.mp hnone]
    rfl
  · rcases bind_eq_some_iff.mp h with ⟨s, hmap, heq⟩
    cases heq
    rw [Bool.not_eq_true', Bool.not_eq_false] at hrefused
    exact .inr ⟨hrefused, rfl, hmap⟩

/-- The two outcomes of `revoke_process`: a grant is found and the window of the
projection is unmapped, or nothing happens. -/
theorem revokeProcess_cases (a : CpuAuthority σ) (pid : UInt32) (pml4 vaddrBase physBase : UInt64) :
    ((∃ x ∈ live a.graph, x.principal = .cpuProcess pid ∧ x.physBase = physBase) ∧
      a.revokeProcess pid pml4 vaddrBase physBase =
        (true, ⟨(revoke a.graph (.cpuProcess pid) physBase).2, { a.store with
          mem := (windowPages vaddrBase
            (projectPageTable a.graph (.cpuProcess pid) maxGrants).length).foldl
              (fun mem v => unmapPage mem pml4 v) a.store.mem }⟩)) ∨
    a.revokeProcess pid pml4 vaddrBase physBase = (false, a) := by
  by_cases hremoved : (revoke a.graph (.cpuProcess pid) physBase).1 > 0
  · left
    refine ⟨revoke_fst_pos.mp hremoved, ?_⟩
    simp only [revokeProcess, hremoved, if_true]
  · right
    have hkept := revoke_of_no_hit (Nat.eq_zero_of_not_pos hremoved)
    simp only [revokeProcess, hremoved, if_false, hkept]

theorem projectPageTable_single {g : Graph} (h : grantsOf g (.cpuProcess pid) = [x])
    (hcount : pages x ≤ maxGrants) :
    projectPageTable g (.cpuProcess pid) maxGrants = allEntries x := by
  show project _ _ _ = _
  rw [project_eq, h, flatMap_singleton, take_of_length_le]
  rw [allEntries, length_map, length_range]
  exact hcount

theorem setsEntries_mapEntries {s s' : PageStore σ} {r : UInt64}
    (hs : PagesSound A roots s) (hr : r ∈ roots)
    (hmap : mapEntries A s r vaddrBase (allEntries x) = some s') :
    SetsEntries A roots r
      (Vmm.rangeEntries vaddrBase x.physBase (grantFlags x) (pages x)) s s' := by
  have hset := setsEntries_foldlM (fun e : Entry × Nat =>
    (vaddrBase + ofNat e.2 * 4096, e.1.physPage, cpuFlags e.1)) hs hr hmap
  have hlist : (allEntries x).zipIdx.map (fun e : Entry × Nat =>
      (vaddrBase + ofNat e.2 * 4096, leafEntry e.1.physPage (cpuFlags e.1))) =
        Vmm.rangeEntries vaddrBase x.physBase (grantFlags x) (pages x) := by
    apply ext_getElem
    · simp [allEntries, Vmm.rangeEntries, pages]
    · intro i _ _
      simp [allEntries, Vmm.rangeEntries, pageEntry, grantFlags, cpuFlags, pageSize]
  rw [← hlist]
  exact hset

theorem map_pageNumber_rangeEntries (vaddrBase physBase flags : UInt64) (count : Nat) :
    (Vmm.rangeEntries vaddrBase physBase flags count).map Prod.fst =
      windowPages vaddrBase count := by
  simp only [Vmm.rangeEntries, windowPages, List.map_map, comp_def]

section

variable (h : Orderly A pml4Of roots l)

include h

theorem Orderly.grant {vaddrBase : UInt64}
    (hprincipal : x.principal = .cpuProcess pid) (hroot : pml4Of pid ∈ roots)
    (hadded : (AuthorityGraph.grant l.authority.graph x).1 = true)
    (hfirst : grantsOf l.authority.graph (.cpuProcess pid) = []) (hfits : Fits x vaddrBase)
    (hapart : ∀ y ∈ live l.authority.graph, ∀ pid', y.principal = .cpuProcess pid' →
      pml4Of pid' = pml4Of pid → Apart x vaddrBase y (l.base pid' y.physBase))
    (hgraph : l'.authority.graph = (AuthorityGraph.grant l.authority.graph x).2)
    (hset : SetsEntries A roots (pml4Of pid)
      (Vmm.rangeEntries vaddrBase x.physBase (grantFlags x) (pages x))
      l.authority.store l'.authority.store)
    (hbases : l'.base = update l.base pid (update (l.base pid) x.physBase vaddrBase))
    (hinstaller : l'.installer =
      markWindow l.installer (pml4Of pid) vaddrBase (pages x) (some pid)) :
    Orderly A pml4Of roots l' := by
  have hlive (y : Grant) : y ∈ live l'.authority.graph ↔ y = x ∨ y ∈ live l.authority.graph := by
    rw [hgraph]
    exact mem_live_grant hadded
  -- the other grants are of other processes
  have hother (y : Grant) (hy : y ∈ live l.authority.graph) (pid' : UInt32)
      (hpid' : y.principal = .cpuProcess pid') : pid' ≠ pid := by
    rintro rfl
    have hmem := mem_grantsOf.mpr ⟨hy, hpid'⟩
    rw [hfirst] at hmem
    cases hmem
  have hpidx (pid' : UInt32) (hpid' : x.principal = .cpuProcess pid') : pid' = pid := by
    rw [hprincipal] at hpid'
    cases hpid'
    rfl
  have hbase : l'.base pid x.physBase = vaddrBase := by
    rw [hbases, update_self, update_self]
  have hbase' (pid' : UInt32) (hne : pid' ≠ pid) (p : UInt64) : l'.base pid' p = l.base pid' p := by
    rw [hbases, update_of_ne hne]
  have hwindow (e : UInt64 × UInt64)
      (he : e ∈ Vmm.rangeEntries vaddrBase x.physBase (grantFlags x) (pages x)) :
      e.1 ∈ windowPages vaddrBase (pages x) := by
    rw [← map_pageNumber_rangeEntries vaddrBase x.physBase (grantFlags x)]
    exact List.mem_map_of_mem he
  constructor
  · exact hset.sound
  · intro pid'
    rw [hgraph]
    by_cases hpid : pid' = pid
    · subst hpid
      rw [← hprincipal] at hfirst ⊢
      rw [grantsOf_grant_first hadded hfirst]
      exact le_rfl
    · rw [grantsOf_grant_of_ne]
      · exact h.single pid'
      · rw [hprincipal]
        intro heq
        cases heq
        exact hpid rfl
  · intro y hy pid' hpid'
    rcases (hlive y).mp hy with rfl | hy
    · rcases hpidx pid' hpid' with rfl
      rw [hbase]
      exact ⟨hfits, hroot⟩
    · rw [hbase' pid' (hother y hy pid' hpid')]
      exact h.fits y hy pid' hpid'
  · intro y hy z hz pid1 pid2 hpid1 hpid2 hne hsame
    rcases (hlive y).mp hy with rfl | hy
    · rcases hpidx pid1 hpid1 with rfl
      rcases (hlive z).mp hz with rfl | hz
      · exact absurd (hpidx pid2 hpid2) hne.symm
      · rw [hbase, hbase' pid2 (hother z hz pid2 hpid2)]
        exact hapart z hz pid2 hpid2 hsame.symm
    · rw [hbase' pid1 (hother y hy pid1 hpid1)]
      rcases (hlive z).mp hz with rfl | hz
      · rcases hpidx pid2 hpid2 with rfl
        rw [hbase]
        exact (hapart y hy pid1 hpid1 hsame).symm
      · rw [hbase' pid2 (hother z hz pid2 hpid2)]
        exact h.apart y hy z hz pid1 pid2 hpid1 hpid2 hne hsame
  · intro y hy pid' hpid' i hi
    rcases (hlive y).mp hy with rfl | hy
    · rcases hpidx pid' hpid' with rfl
      rw [hbase]
      apply hset.entry hroot (nodup_rangeEntries (hfits.count.trans (by decide)))
      exact List.mem_map.mpr ⟨i, mem_range.mpr hi, rfl⟩
    · rw [hbase' pid' (hother y hy pid' hpid'), ← h.complete y hy pid' hpid' i hi]
      apply hset.others (h.fits y hy pid' hpid').2
      intro e he
      by_cases hsame : pml4Of pid' = pml4Of pid
      · left
        exact (hapart y hy pid' hpid' hsame _ (hwindow e he) _
          (mem_windowPages.mpr ⟨i, hi, rfl⟩)).symm
      · exact .inr ⟨hfits.user _ (hwindow e he), hsame⟩
  · intro r page pid' hinstalled
    simp only [hinstaller, markWindow] at hinstalled
    split_ifs at hinstalled with hmine
    · cases hinstalled
      refine ⟨hmine.1, x, (hlive x).mpr (.inl rfl), hprincipal, ?_⟩
      rw [hbase]
      exact hmine.2
    · rcases h.installed r page pid' hinstalled with ⟨hr, y, hy, hpid', hpage⟩
      refine ⟨hr, y, (hlive y).mpr (.inr hy), hpid', ?_⟩
      rw [hbase' pid' (hother y hy pid' hpid')]
      exact hpage

theorem Orderly.grantsOf_eq (hx : x ∈ live l.authority.graph)
    (hprincipal : x.principal = .cpuProcess pid) :
    grantsOf l.authority.graph (.cpuProcess pid) = [x] := by
  have hmem : x ∈ grantsOf l.authority.graph (.cpuProcess pid) :=
    mem_grantsOf.mpr ⟨hx, hprincipal⟩
  rcases length_eq_one_iff.mp (le_antisymm (h.single pid) (length_pos_of_mem hmem)) with ⟨y, hy⟩
  rw [hy, mem_singleton] at hmem
  rw [hy, hmem]

theorem Orderly.revoke (hx : x ∈ live l.authority.graph)
    (hprincipal : x.principal = .cpuProcess pid)
    (hgraph : l'.authority.graph =
      (AuthorityGraph.revoke l.authority.graph (.cpuProcess pid) x.physBase).2)
    (hset : SetsEntries A roots (pml4Of pid)
      ((windowPages (l.base pid x.physBase) (pages x)).map fun v => (v, 0))
      l.authority.store l'.authority.store)
    (hbases : l'.base = l.base)
    (hinstaller : l'.installer =
      markWindow l.installer (pml4Of pid) (l.base pid x.physBase) (pages x) none) :
    Orderly A pml4Of roots l' := by
  have hlive (y : Grant) : y ∈ live l'.authority.graph ↔ y ∈ live l.authority.graph ∧
      ¬ (y.principal = .cpuProcess pid ∧ y.physBase = x.physBase) := by
    rw [hgraph]
    exact mem_live_revoke
  have hkept (y : Grant) (hy : y ∈ live l'.authority.graph) : y ∈ live l.authority.graph :=
    ((hlive y).mp hy).1
  have honly (y : Grant) (hy : y ∈ live l.authority.graph)
      (hpid : y.principal = .cpuProcess pid) : y = x := by
    have hmem := mem_grantsOf.mpr ⟨hy, hpid⟩
    rw [h.grantsOf_eq hx hprincipal] at hmem
    exact mem_singleton.mp hmem
  -- so the grants that stay are of other processes
  have hother (y : Grant) (hy : y ∈ live l'.authority.graph) (pid' : UInt32)
      (hpid' : y.principal = .cpuProcess pid') : pid ≠ pid' := by
    rintro rfl
    apply ((hlive y).mp hy).2
    rw [honly y (hkept y hy) hpid']
    exact ⟨hprincipal, rfl⟩
  constructor
  · exact hset.sound
  · intro pid'
    rw [hgraph, grantsOf_revoke]
    exact (length_filter_le _ _).trans (h.single pid')
  · intro y hy pid' hpid'
    rw [hbases]
    exact h.fits y (hkept y hy) pid' hpid'
  · intro y hy z hz
    rw [hbases]
    exact h.apart y (hkept y hy) z (hkept z hz)
  · intro y hy pid' hpid' i hi
    rw [hbases, ← h.complete y (hkept y hy) pid' hpid' i hi]
    apply hset.others (h.fits y (hkept y hy) pid' hpid').2
    intro e he
    rcases List.mem_map.mp he with ⟨v, hv, rfl⟩
    by_cases hsame : pml4Of pid = pml4Of pid'
    · left
      exact (h.apart x hx y (hkept y hy) pid pid' hprincipal hpid' (hother y hy pid' hpid') hsame
        v hv _ (mem_windowPages.mpr ⟨i, hi, rfl⟩)).symm
    · right
      exact ⟨(h.fits x hx pid hprincipal).1.user v hv, fun heq => hsame heq.symm⟩
  · intro r page pid' hinstalled
    simp only [hinstaller, markWindow] at hinstalled
    split_ifs at hinstalled with hmine
    rcases h.installed r page pid' hinstalled with ⟨hr, y, hy, hpid', hpage⟩
    refine ⟨hr, y, (hlive y).mpr ⟨hy, ?_⟩, hpid', hbases ▸ hpage⟩
    -- the entries of the revoked grant are the ones that were cleared
    rintro ⟨hpid, -⟩
    have hsame : pid' = pid := by
      rw [hpid] at hpid'
      cases hpid'
      rfl
    subst hsame
    rw [honly y hy hpid] at hpage
    exact hmine ⟨hr, hpage⟩

theorem Orderly.step {c : CpuCall}
    (hmatching : l.Matching pml4Of roots c) (hone : l.OneGrant pml4Of c)
    (hstep : l.step A c = some l') : Orderly A pml4Of roots l' := by
  cases c with
  | grantProcess pid pml4 vaddrBase physBase len writable executable =>
    rcases hmatching with ⟨rfl, hroot⟩
    rcases bind_eq_some_iff.mp hstep with ⟨⟨_, a⟩, hgrant, hnext⟩
    rcases grantProcess_cases hgrant with ⟨hrefused, rfl⟩ | ⟨hadded, hgraph, hmap⟩
    · simp only [hrefused, Bool.false_eq_true, if_false] at hnext
      cases hnext
      exact h
    · simp only [hadded, if_true] at hnext
      cases hnext
      rcases hone with hrefused | ⟨hfirst, hfits, hapart⟩
      · rw [hadded] at hrefused
        cases hrefused
      have hproject : projectPageTable a.graph (.cpuProcess pid) maxGrants =
          allEntries ⟨.cpuProcess pid, physBase, len, writable, executable⟩ := by
        apply projectPageTable_single _ hfits.count
        rw [hgraph]
        exact grantsOf_grant_first hadded hfirst
      rw [hproject] at hmap ⊢
      apply h.grant rfl hroot hadded hfirst hfits hapart hgraph
        (setsEntries_mapEntries h.sound hroot hmap) rfl
      simp only [allEntries, length_map, length_range]
      rfl
  | revokeProcess pid pml4 vaddrBase physBase =>
    rcases hmatching with ⟨rfl, hroot, hbase⟩
    rcases revokeProcess_cases l.authority pid (pml4Of pid) vaddrBase physBase with
      ⟨⟨x, hx, hprincipal, rfl⟩, hrevoke⟩ | hrevoke
    · have hcount : (projectPageTable l.authority.graph (.cpuProcess pid) maxGrants).length =
          pages x := by
        rw [projectPageTable_single (h.grantsOf_eq hx hprincipal)
          (h.fits x hx pid hprincipal).1.count]
        simp only [allEntries, length_map, length_range]
        rfl
      rcases hbase ⟨x, hx, hprincipal, rfl⟩ with rfl
      simp only [CpuLedger.step, hrevoke, if_true, hcount, some_inj] at hstep
      subst hstep
      exact h.revoke hx hprincipal rfl (setsEntries_unmap h.sound hroot) rfl rfl
    · simp only [CpuLedger.step, hrevoke, Bool.false_eq_true, if_false, some_inj] at hstep
      subst hstep
      exact h

end

theorem orderly_start {s : PageStore σ} (hs : PagesSound A roots s) :
    Orderly A pml4Of roots (start s) where
  sound := hs
  single _ := Nat.zero_le 1
  fits x hx := by cases hx
  apart x hx := by cases hx
  complete x hx := by cases hx
  installed _ _ _ h := by cases h

/-! ## Every run -/

/-- **Revoked memory is unmapped.** From an empty graph, over any sound page
tables: if every call is matching and every grant is the only one of its
process, then every state reached is contained and complete. -/
theorem cpu_authority_one_grant {s : PageStore σ} (hs : PagesSound A roots s)
    {calls : List CpuCall} {l : CpuLedger σ}
    (hcalls : Meets (step A) (fun l c => l.Matching pml4Of roots c ∧ l.OneGrant pml4Of c)
      (start s) calls) (hrun : attempt (step A) (start s) calls = some l) :
    l.Contained ∧ l.Complete pml4Of := by
  have h : Orderly A pml4Of roots l := by
    apply attempt_invariant _ (orderly_start hs) hcalls hrun
    intro l c _ hl hc hstep
    exact hl.step hc.1 hc.2 hstep
  exact ⟨h.contained, h.complete⟩

section

def emptyPml4 : PageStore Nat := ⟨fill (fun _ _ => 0) 4096 fun _ => 0, 1⟩

theorem emptyPml4_sound : PagesSound countingSource [4096] emptyPml4 :=
  Vmm.zeroedTable_sound trivial
    (rfl : zeroedTable countingSource ⟨fun _ _ => 0, 0⟩ = some (4096, emptyPml4))

/-- A page is granted and revoked, and another one granted at the next address. -/
def pageCalls : List CpuCall :=
  [.grantProcess 1 4096 0x400000 0x10000 4096 true false, .revokeProcess 1 4096 0x400000 0x10000,
    .grantProcess 1 4096 0x401000 0x20000 4096 true false]

theorem fits_page {pid : UInt32} {physBase vaddrBase : UInt64} (hbase : physBase.toNat % 4096 = 0)
    (hlt : physBase.toNat + 4096 ≤ 2 ^ 52) (huser : InUserHalf vaddrBase) :
    Fits ⟨.cpuProcess pid, physBase, 4096, true, false⟩ vaddrBase := by
  have hone : pages ⟨.cpuProcess pid, physBase, 4096, true, false⟩ = 1 :=
    show (pagesFor 4096).toNat = 1 by decide
  refine ⟨hone ▸ by decide, hbase, by rwa [hone], fun v hv => ?_⟩
  rw [hone] at hv
  rcases mem_windowPages.mp hv with ⟨i, hi, rfl⟩
  rcases Nat.lt_one_iff.mp hi with rfl
  simpa using huser

theorem cpu_authority_one_grant_pages :
    ∃ (s : PageStore Nat) (l : CpuLedger Nat), PagesSound countingSource [4096] s ∧
      attempt (step countingSource) (start s) pageCalls = some l ∧
      debugTranslate l.authority.store.mem 4096 0x401000 =
        leafEntry 0x20000 (pageWritable ||| pageNoExecute) ∧
      isPresent (debugTranslate l.authority.store.mem 4096 0x400000) = false ∧ l.Contained := by
  refine ⟨emptyPml4, ?_⟩
  rw [exists_and_left]
  refine ⟨emptyPml4_sound, exists_run_imp (Q := fun l =>
    ⟨.cpuProcess 1, 0x20000, 4096, true, false⟩ ∈ live l.authority.graph ∧
      l.base 1 0x20000 = 0x401000 ∧
      isPresent (debugTranslate l.authority.store.mem 4096 0x400000) = false)
    (by decide +kernel) ?_⟩
  rintro l hrun ⟨hlive, hbase, hgone⟩
  have hcalls : Meets (step countingSource)
      (fun l c => l.Matching (fun _ => 4096) [4096] c ∧ l.OneGrant (fun _ => 4096) c)
      (start emptyPml4) pageCalls := by
    refine ⟨⟨⟨rfl, mem_cons_self⟩, .inr ⟨rfl, fits_page rfl (by decide) (by decide), nofun⟩⟩, ?_⟩
    rintro _ ⟨⟩
    refine ⟨⟨⟨rfl, mem_cons_self, fun _ => by decide +kernel⟩, trivial⟩, ?_⟩
    rintro _ ⟨⟩
    refine ⟨⟨⟨rfl, mem_cons_self⟩, .inr ⟨by decide +kernel,
      fits_page rfl (by decide) (by decide), fun y hy => ?_⟩⟩, fun _ _ => trivial⟩
    exact absurd hy (eq_nil_iff_forall_not_mem.mp (by decide +kernel) y)
  obtain ⟨hcontained, hcomplete⟩ := cpu_authority_one_grant emptyPml4_sound hcalls hrun
  have hpage := hcomplete _ hlive 1 rfl 0 (by decide)
  rw [hbase] at hpage
  exact ⟨hpage, hgone, hcontained⟩

def Separate (l : CpuLedger σ) : CpuCall → Prop
  | .grantProcess pid _ vaddrBase physBase len writable executable =>
    let x : Grant := ⟨.cpuProcess pid, physBase, len, writable, executable⟩
    ∀ y ∈ grantsOf l.authority.graph (.cpuProcess pid),
      (x.physBase.toNat + pages x * 4096 ≤ y.physBase.toNat ∨
        y.physBase.toNat + pages y * 4096 ≤ x.physBase.toNat) ∧
      Apart x vaddrBase y (l.base pid y.physBase)
  | .revokeProcess .. => True

instance Matching.decidable (pml4Of : UInt32 → UInt64) (roots : List UInt64) (l : CpuLedger σ) :
    ∀ c, Decidable (l.Matching pml4Of roots c)
  | .grantProcess .. => inferInstanceAs (Decidable (_ ∧ _))
  | .revokeProcess .. => inferInstanceAs (Decidable (_ ∧ _ ∧ _))

instance Apart.decidable (y : Grant) (vaddrBase vaddrBase' : UInt64) :
    Decidable (Apart x vaddrBase y vaddrBase') :=
  decidable_of_iff ((windowPages vaddrBase (pages x)).all fun v =>
    (windowPages vaddrBase' (pages y)).all fun v' => pageNumber v ≠ pageNumber v') (by simp [Apart])

instance Separate.decidable (l : CpuLedger σ) : ∀ c, Decidable (l.Separate c)
  | .grantProcess .. => by unfold Separate; infer_instance
  | .revokeProcess .. => .isTrue trivial

/-- Two grants of one page each: the second call maps the page of the first one
at the address of the second. The first grant is revoked, and its page is
still mapped there. -/
theorem second_grant_keeps_revoked_page :
    ∃ (s : PageStore Nat) (l l' : CpuLedger Nat), PagesSound countingSource [4096] s ∧
      Meets (step countingSource)
        (fun l c => l.Matching (fun _ => 4096) [4096] c ∧ l.Separate c) (start s)
        [.grantProcess 1 4096 0x400000 0x10000 4096 true false,
          .grantProcess 1 4096 0x500000 0x20000 4096 true false,
          .revokeProcess 1 4096 0x400000 0x10000] ∧
      attempt (step countingSource) (start s)
        [.grantProcess 1 4096 0x400000 0x10000 4096 true false,
          .grantProcess 1 4096 0x500000 0x20000 4096 true false] = some l ∧
      ¬ l.Complete (fun _ => 4096) ∧
      l.step countingSource (.revokeProcess 1 4096 0x400000 0x10000) = some l' ∧
      ¬ l'.Contained := by
  refine ⟨emptyPml4, ?_⟩
  simp only [exists_and_left]
  -- the entry that the second grant leaves at its address is for the first page
  refine ⟨emptyPml4_sound, by decide +kernel, exists_run_imp (Q := fun l =>
    ⟨.cpuProcess 1, 0x20000, 4096, true, false⟩ ∈ live l.authority.graph ∧
      l.base 1 0x20000 = 0x500000 ∧ debugTranslate l.authority.store.mem 4096 0x500000 =
        leafEntry 0x10000 (pageWritable ||| pageNoExecute) ∧
      ∃ l', l.step countingSource (.revokeProcess 1 4096 0x400000 0x10000) = some l' ∧
        l'.installer 4096 (pageNumber 0x500000) = some 1 ∧
        debugTranslate l'.authority.store.mem 4096 0x500000 =
          leafEntry 0x10000 (pageWritable ||| pageNoExecute) ∧
        ¬ isReachable l'.authority.graph (.cpuProcess 1) 0x10000 = true) (by decide +kernel) ?_⟩
  rintro l - ⟨hlive, hbase, hentry, l', hstep, hinstaller, hkept, hgone⟩
  refine ⟨fun hcomplete => ?_, l', hstep, fun hcontained => ?_⟩
  · have hpage := hcomplete _ hlive 1 rfl 0 (by decide)
    rw [hbase] at hpage
    have hne : leafEntry 0x10000 (pageWritable ||| pageNoExecute) ≠
      leafEntry 0x20000 (pageWritable ||| pageNoExecute) := by decide
    exact hne (hentry.symm.trans hpage)
  · have hreach := hcontained 4096 0x500000 1 hinstaller
      (by rw [hkept]; exact isPresent_leafEntry _ _)
    rw [hkept] at hreach
    exact hgone hreach

end

end CpuLedger

end AgenticOS
