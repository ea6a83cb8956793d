import AgenticOS.Foundation.Execution

/-!
# The kernel lock

`critical::acquire` and `critical::release` of `kernel_rs/src/critical.rs`, run by
any number of cores at once. Every load, store and compare-exchange is a step
of its own. The lock is held through two variables: `KERNEL_LOCK_OWNER`, which
all cores share, and the core's own entry of `PER_CPU_DEPTH`, which counts how
often it has entered; a core that has entered does not look at the owner again.

The depth has 32 bits and is added to without a check.
-/

namespace AgenticOS

open Foundation List Function

def maxCpus : Nat := 32

/-- `smp::current_cpu_index().min(MAX_CPUS - 1)`. -/
def cpuSlot (index : Nat) : Fin maxCpus := ⟨min index (maxCpus - 1), by simp [maxCpus]⟩

inductive LockCall where
  | acquire
  | release
  deriving DecidableEq

inductive LockPoint where
  /-- Outside both functions. -/
  | idle
  /-- In `acquire`, with the depth it has loaded; it spins if that is 0. -/
  | acquireLoaded (depth : UInt32)
  /-- The compare-exchange has succeeded. -/
  | acquireWon
  /-- The depth is 1. -/
  | acquireStored
  /-- In `release`, with the depth it has loaded. -/
  | releaseLoaded (depth : UInt32)
  /-- The depth is 0 again. -/
  | releaseCleared
  /-- The owner is -1 again. -/
  | releaseUnlocked
  deriving DecidableEq

/-- The variables that the code of one core reads and writes, with the calls
that it is still to make. -/
@[ext] structure LockView where
  owner : Int
  depth : UInt32
  totalAcquires : UInt64
  totalReleases : UInt64
  unbalancedReleases : UInt64
  point : LockPoint
  calls : List LockCall

namespace LockView

/-- One access to memory. `fails` says that a weak compare-exchange fails for no
reason; the report of a lock that is stuck is left out. -/
def step (me : Fin maxCpus) (fails : Bool) (v : LockView) : LockView :=
  match v.point with
  | .idle =>
    match v.calls with
    | [] => v
    | .acquire :: rest => { v with point := .acquireLoaded v.depth, calls := rest }
    | .release :: rest => { v with point := .releaseLoaded v.depth, calls := rest }
  | .acquireLoaded depth =>
    if depth > 0 then { v with depth := depth + 1, point := .idle }
    else if v.owner = -1 ∧ fails = false then { v with owner := me.val, point := .acquireWon }
    else v
  | .acquireWon => { v with depth := 1, point := .acquireStored }
  | .acquireStored => { v with totalAcquires := v.totalAcquires + 1, point := .idle }
  | .releaseLoaded depth =>
    if depth = 0 then
      { v with unbalancedReleases := v.unbalancedReleases + 1, point := .idle }
    else if depth = 1 then { v with depth := 0, point := .releaseCleared }
    else { v with depth := depth - 1, point := .idle }
  | .releaseCleared => { v with owner := -1, point := .releaseUnlocked }
  | .releaseUnlocked => { v with totalReleases := v.totalReleases + 1, point := .idle }

end LockView

/-- The lock with the cores `κ`. -/
structure KernelLock (κ : Type) where
  owner : Int
  depth : Fin maxCpus → UInt32
  totalAcquires : UInt64
  totalReleases : UInt64
  unbalancedReleases : UInt64
  point : κ → LockPoint
  calls : κ → List LockCall

namespace KernelLock

variable {κ : Type} (index : κ → Nat)

/-- What the core `c` works on. -/
def view (s : KernelLock κ) (c : κ) : LockView where
  owner := s.owner
  depth := s.depth (cpuSlot (index c))
  totalAcquires := s.totalAcquires
  totalReleases := s.totalReleases
  unbalancedReleases := s.unbalancedReleases
  point := s.point c
  calls := s.calls c

variable [DecidableEq κ]

def put (s : KernelLock κ) (c : κ) (v : LockView) : KernelLock κ where
  owner := v.owner
  depth := Function.update s.depth (cpuSlot (index c)) v.depth
  totalAcquires := v.totalAcquires
  totalReleases := v.totalReleases
  unbalancedReleases := v.unbalancedReleases
  point := Function.update s.point c v.point
  calls := Function.update s.calls c v.calls

def step (s : KernelLock κ) (turn : κ × Bool) : KernelLock κ :=
  s.put index turn.1 ((s.view index turn.1).step (cpuSlot (index turn.1)) turn.2)

omit [DecidableEq κ] in
def boot (programs : κ → List LockCall) : KernelLock κ where
  owner := -1
  depth := fun _ => 0
  totalAcquires := 0
  totalReleases := 0
  unbalancedReleases := 0
  point := fun _ => .idle
  calls := programs

end KernelLock

/-! ## Nested calls -/

namespace LockCall

/-- From `level` open acquires on, every release has its acquire and every
acquire its release. -/
def Nested : Nat → List LockCall → Prop
  | level, [] => level = 0
  | level, .acquire :: rest => Nested (level + 1) rest
  | level, .release :: rest => 0 < level ∧ Nested (level - 1) rest

/-- The most acquires that are open at once. -/
def peak : Nat → List LockCall → Nat
  | level, [] => level
  | level, .acquire :: rest => max level (peak (level + 1) rest)
  | level, .release :: rest => max level (peak (level - 1) rest)

/-- The acquires that are open before the calls. -/
def level (calls : List LockCall) : Nat := calls.count .release - calls.count .acquire

instance decidableNested : ∀ (n : Nat) (calls : List LockCall), Decidable (Nested n calls)
  | n, [] => inferInstanceAs (Decidable (n = 0))
  | n, .acquire :: rest => decidableNested (n + 1) rest
  | n, .release :: rest =>
    have := decidableNested (n - 1) rest
    inferInstanceAs (Decidable (_ ∧ _))

theorem Nested.count {n : Nat} {calls : List LockCall} (h : Nested n calls) :
    calls.count .release = n + calls.count .acquire := by
  induction calls generalizing n with
  | nil =>
    rw [show n = 0 from h]
    rfl
  | cons call rest ih =>
    cases call with
    | acquire =>
      have hrest := ih h
      rw [count_cons_self, count_cons_of_ne (by decide), hrest]
      omega
    | release =>
      have hrest := ih h.2
      have hpos := h.1
      rw [count_cons_self, count_cons_of_ne (by decide), hrest]
      omega

theorem Nested.level_eq {n : Nat} {calls : List LockCall} (h : Nested n calls) :
    level calls = n := by
  rw [level, h.count, Nat.add_sub_cancel]

theorem le_peak (n : Nat) (calls : List LockCall) : n ≤ peak n calls := by
  cases calls with
  | nil => exact le_rfl
  | cons call =>
    cases call with
    | acquire | release => exact le_max_left _ _

end LockCall

/-! ## One core -/

namespace LockView

open LockCall

variable {me : Fin maxCpus} {fails : Bool} {v : LockView}

/-- The core has the lock, or is just about to have or not to have it. -/
def Holds (v : LockView) : Prop :=
  0 < v.depth ∨ v.point = .acquireWon ∨ v.point = .releaseCleared

/-- How many acquires are open when the next call is made. -/
def pending : LockPoint → Nat → Nat
  | .idle, depth => depth
  | .acquireLoaded _, depth => depth + 1
  | .acquireWon, _ => 1
  | .acquireStored, _ => 1
  | .releaseLoaded _, depth => depth - 1
  | .releaseCleared, _ => 0
  | .releaseUnlocked, _ => 0

def DepthAt (depth : UInt32) : LockPoint → Prop
  | .idle => True
  | .acquireLoaded loaded => loaded = depth
  | .acquireWon => depth = 0
  | .acquireStored => depth = 1
  | .releaseLoaded loaded => loaded = depth ∧ 0 < depth
  | .releaseCleared => depth = 0
  | .releaseUnlocked => depth = 0

/-- Acquires that are counted and whose release is not. -/
def outstanding (v : LockView) : UInt64 :=
  match v.point with
  | .acquireWon | .acquireStored => 0
  | .releaseCleared | .releaseUnlocked => 1
  | .idle | .acquireLoaded _ | .releaseLoaded _ => if 0 < v.depth then 1 else 0

/-- The variables of a core that makes nested calls. -/
structure Ok (me : Fin maxCpus) (v : LockView) : Prop where
  nested : Nested (pending v.point v.depth.toNat) v.calls
  shallow : peak (pending v.point v.depth.toNat) v.calls < 2 ^ 32
  depthAt : DepthAt v.depth v.point
  owner : v.Holds → v.owner = me.val

inductive OwnerMove (me : Fin maxCpus) (v v' : LockView) : Prop where
  | keep (howner : v'.owner = v.owner) (hholds : v'.Holds ↔ v.Holds)
  | take (hfree : v.owner = -1) (howner : v'.owner = me.val) (hholds : v'.Holds)
  | drop (hheld : v.Holds) (howner : v'.owner = -1) (hholds : ¬ v'.Holds)

structure Steps (me : Fin maxCpus) (v v' : LockView) : Prop where
  ok : Ok me v'
  owner : OwnerMove me v v'
  balanced : v'.unbalancedReleases = v.unbalancedReleases
  counted : v'.totalAcquires + v.totalReleases + v.outstanding =
    v.totalAcquires + v'.totalReleases + v'.outstanding

theorem Steps.refl (h : Ok me v) : Steps me v v :=
  ⟨h, .keep rfl Iff.rfl, rfl, rfl⟩

theorem Steps.of_keep {v' : LockView} (h : Ok me v) (howner : v'.owner = v.owner)
    (hholds : v'.Holds ↔ v.Holds)
    (hnested : Nested (pending v'.point v'.depth.toNat) v'.calls)
    (hshallow : peak (pending v'.point v'.depth.toNat) v'.calls < 2 ^ 32)
    (hdepth : DepthAt v'.depth v'.point)
    (hbalanced : v'.unbalancedReleases = v.unbalancedReleases)
    (hcounted : v'.totalAcquires + v.totalReleases + v.outstanding =
      v.totalAcquires + v'.totalReleases + v'.outstanding) : Steps me v v' :=
  ⟨⟨hnested, hshallow, hdepth, fun hh => howner.trans (h.owner (hholds.mp hh))⟩,
    .keep howner hholds, hbalanced, hcounted⟩

theorem toNat_pos {d : UInt32} : 0 < d ↔ 0 < d.toNat := UInt32.lt_iff_toNat_lt

theorem eq_zero_of_not_pos {d : UInt32} (h : ¬ 0 < d) : d = 0 := by
  rw [toNat_pos, Nat.pos_iff_ne_zero, not_not] at h
  exact UInt32.toNat_inj.mp h

theorem Ok.steps (h : Ok me v) : Steps me v (v.step me fails) := by
  have hnested := h.nested
  have hshallow := h.shallow
  have hdepth := h.depthAt
  cases hpoint : v.point with
  | idle =>
    rw [hpoint] at hnested hshallow
    cases hcalls : v.calls with
    | nil =>
      simp only [step, hpoint, hcalls]
      exact .refl h
    | cons call =>
      rw [hcalls] at hnested hshallow
      cases call with
      | acquire =>
        simp only [step, hpoint, hcalls]
        refine .of_keep h rfl (by simp [Holds, hpoint]) hnested ?_ rfl rfl ?_
        · exact (le_max_right _ _).trans_lt hshallow
        · simp [outstanding, hpoint]
      | release =>
        simp only [step, hpoint, hcalls]
        refine .of_keep h rfl (by simp [Holds, hpoint]) hnested.2 ?_ ?_ rfl ?_
        · exact (le_max_right _ _).trans_lt hshallow
        · exact ⟨rfl, toNat_pos.mpr hnested.1⟩
        · simp [outstanding, hpoint]
  | acquireLoaded loaded =>
    rw [hpoint] at hnested hshallow hdepth
    rw [show loaded = v.depth from hdepth] at hpoint
    simp only [step, hpoint]
    split_ifs with hpos hwon
    · -- the depth does not wrap
      have hsucc : (v.depth + 1).toNat = v.depth.toNat + 1 := by
        have hlt := (le_peak _ _).trans_lt hshallow
        rw [UInt32.toNat_add]
        exact Nat.mod_eq_of_lt hlt
      have hpos' : 0 < v.depth + 1 := toNat_pos.mpr (by rw [hsucc]; exact Nat.succ_pos _)
      refine .of_keep h rfl (by simp [Holds, hpos, hpos']) ?_ ?_ trivial rfl ?_
      · simpa [pending, hsucc] using hnested
      · simpa [pending, hsucc] using hshallow
      · simp [outstanding, hpoint, hpos, hpos']
    · have hzero := eq_zero_of_not_pos hpos
      refine ⟨⟨?_, ?_, hzero, fun _ => rfl⟩, .take hwon.1 rfl (.inr (.inl rfl)), rfl, ?_⟩
      · simpa [pending, hzero] using hnested
      · simpa [pending, hzero] using hshallow
      · simp [outstanding, hpoint, hzero]
    · exact .refl h
  | acquireWon =>
    rw [hpoint] at hnested hshallow hdepth
    simp only [step, hpoint]
    refine .of_keep h rfl (by simp [Holds, hpoint]) hnested hshallow rfl rfl ?_
    simp [outstanding, hpoint]
  | acquireStored =>
    rw [hpoint] at hnested hshallow hdepth
    have hone : v.depth = 1 := hdepth
    simp only [step, hpoint]
    refine .of_keep h rfl (by simp [Holds, hpoint]) ?_ ?_ trivial rfl ?_
    · simpa [pending, hone] using hnested
    · simpa [pending, hone] using hshallow
    · simp only [outstanding, hpoint, hone]
      grind
  | releaseLoaded =>
    rw [hpoint] at hnested hshallow hdepth
    rcases hdepth with ⟨hloaded, hpos⟩
    rw [hloaded] at hpoint
    simp only [step, hpoint]
    split_ifs with hzero hone
    · rw [hzero] at hpos
      exact absurd hpos (by decide)
    · refine .of_keep h rfl ?_ ?_ ?_ rfl rfl ?_
      · simp [Holds, hpos]
      · simpa [pending, hone] using hnested
      · simpa [pending, hone] using hshallow
      · simp [outstanding, hpoint, hpos]
    · have hne : v.depth.toNat ≠ 1 := fun heq => hone (UInt32.toNat_inj.mp heq)
      have hlt := toNat_pos.mp hpos
      have hpred : (v.depth - 1).toNat = v.depth.toNat - 1 :=
        UInt32.toNat_sub_of_le _ _ (UInt32.le_iff_toNat_le.mpr hlt)
      have hpos' : 0 < v.depth - 1 := toNat_pos.mpr (by rw [hpred]; omega)
      refine .of_keep h rfl ?_ ?_ ?_ trivial rfl ?_
      · simp [Holds, hpos, hpos']
      · simpa [pending, hpred] using hnested
      · simpa [pending, hpred] using hshallow
      · simp [outstanding, hpoint, hpos, hpos']
  | releaseCleared =>
    rw [hpoint] at hnested hshallow hdepth
    have hzero : v.depth = 0 := hdepth
    simp only [step, hpoint]
    refine ⟨⟨hnested, hshallow, hzero, ?_⟩, .drop (.inr (.inr hpoint)) rfl ?_, rfl, ?_⟩
    · simp [Holds, hzero]
    · simp [Holds, hzero]
    · simp [outstanding, hpoint]
  | releaseUnlocked =>
    rw [hpoint] at hnested hshallow hdepth
    have hzero : v.depth = 0 := hdepth
    simp only [step, hpoint]
    refine .of_keep h rfl (by simp [Holds, hpoint]) ?_ ?_ trivial rfl ?_
    · simpa [pending, hzero] using hnested
    · simpa [pending, hzero] using hshallow
    · simp only [outstanding, hpoint, hzero]
      grind

end LockView

/-! ## All cores -/

namespace KernelLock

open LockCall

variable {κ : Type} {index : κ → Nat} {s : KernelLock κ} {c c' : κ}

structure Numbered (index : κ → Nat) : Prop where
  injective : Function.Injective index
  lt : ∀ c, index c < maxCpus

theorem Numbered.cpuSlot_val (h : Numbered index) (c : κ) : (cpuSlot (index c)).val = index c :=
  min_eq_left (Nat.le_sub_one_of_lt (h.lt c))

theorem Numbered.cpuSlot_injective (h : Numbered index) : Injective fun c => cpuSlot (index c) := by
  intro c c' heq
  apply h.injective
  rw [← h.cpuSlot_val c, ← h.cpuSlot_val c']
  exact congrArg Fin.val heq

variable [DecidableEq κ]

theorem put_view : s.put index c (s.view index c) = s := by
  simp [put, view]

theorem view_put_self (v : LockView) : (s.put index c v).view index c = v := by
  ext <;> simp [view, put]

theorem view_put_of_ne (h : Numbered index) (hne : c' ≠ c) (v : LockView) :
    (s.put index c v).view index c' = { v with
        depth := (s.view index c').depth
        point := (s.view index c').point
        calls := (s.view index c').calls } := by
  have hslot : cpuSlot (index c') ≠ cpuSlot (index c) := fun heq =>
    hne (h.cpuSlot_injective heq)
  ext <;> simp [view, put, update_of_ne hne, update_of_ne hslot]

variable (index) in
structure Inv [Fintype κ] (s : KernelLock κ) : Prop where
  cores : ∀ c, (s.view index c).Ok (cpuSlot (index c))
  owned : s.owner = -1 ∨ ∃ c, (s.view index c).Holds
  spare : ∀ i, (∀ c, cpuSlot (index c) ≠ i) → s.depth i = 0
  balanced : s.unbalancedReleases = 0
  counted : s.totalAcquires = s.totalReleases + ∑ c, (s.view index c).outstanding

variable [Fintype κ]

omit [DecidableEq κ] in
theorem Inv.holds_unique (h : Inv index s) (hn : Numbered index) (hc : (s.view index c).Holds)
    (hc' : (s.view index c').Holds) : c = c' := by
  apply hn.injective
  have howner := (h.cores c).owner hc
  have howner' := (h.cores c').owner hc'
  rw [hn.cpuSlot_val] at howner howner'
  exact Int.ofNat_inj.mp (howner.symm.trans howner')

theorem Inv.step (h : Inv index s) (hn : Numbered index) (turn : κ × Bool) :
    Inv index (s.step index turn) := by
  rcases turn with ⟨c, fails⟩
  have hsteps : LockView.Steps (cpuSlot (index c)) (s.view index c)
      ((s.view index c).step (cpuSlot (index c)) fails) :=
    (h.cores c).steps
  unfold KernelLock.step
  generalize (s.view index c).step (cpuSlot (index c)) fails = v' at hsteps ⊢
  have hself : (s.put index c v').view index c = v' := view_put_self v'
  have hother {c' : κ} (hne : c' ≠ c) := view_put_of_ne (s := s) hn hne v'
  constructor
  · intro c'
    by_cases hc : c' = c
    · rw [hc, hself]
      exact hsteps.ok
    · have hold := h.cores c'
      rw [hother hc]
      refine { hold with owner := fun hholds => ?_ }
      have howner := hold.owner hholds
      -- the step can only concern the owner if no other core holds the lock
      rcases hsteps.owner with ⟨hkeep, -⟩ | ⟨hfree, -, -⟩ | ⟨hheld, -, -⟩
      · exact hkeep.trans howner
      · rw [show (s.view index c').owner = (s.view index c).owner from rfl, hfree] at howner
        omega
      · exact absurd (h.holds_unique hn hholds hheld) hc
  · rcases hsteps.owner with ⟨hkeep, hholds⟩ | ⟨-, -, hholds⟩ | ⟨-, howner, -⟩
    · rcases h.owned with hfree | ⟨c', hc'⟩
      · exact .inl (hkeep.trans hfree)
      · right
        refine ⟨c', ?_⟩
        by_cases hc : c' = c
        · rw [hc, hself]
          rw [hc] at hc'
          exact hholds.mpr hc'
        · rw [hother hc]
          exact hc'
    · exact .inr ⟨c, by rwa [hself]⟩
    · exact .inl howner
  · intro i hi
    have hne : i ≠ cpuSlot (index c) := fun heq => hi c heq.symm
    rw [put]
    dsimp only
    rw [update_of_ne hne]
    exact h.spare i hi
  · exact hsteps.balanced.trans h.balanced
  · have hsum : ∑ c' ∈ Finset.univ.erase c, ((s.put index c v').view index c').outstanding =
        ∑ c' ∈ Finset.univ.erase c, (s.view index c').outstanding := by
      apply Finset.sum_congr rfl
      intro c' hc'
      rw [hother (Finset.ne_of_mem_erase hc')]
      rfl
    have hcounted := h.counted
    have hcell := hsteps.counted
    rw [← Finset.add_sum_erase _ _ (Finset.mem_univ c)] at hcounted ⊢
    rw [hsum, hself]
    show v'.totalAcquires = v'.totalReleases + _
    have hA : (s.view index c).totalAcquires = s.totalAcquires := rfl
    have hR : (s.view index c).totalReleases = s.totalReleases := rfl
    grind

omit [DecidableEq κ] in
theorem inv_boot {programs : κ → List LockCall} (hnested : ∀ c, Nested 0 (programs c))
    (hshallow : ∀ c, peak 0 (programs c) < 2 ^ 32) : Inv index (boot programs) := by
  constructor
  · intro c
    refine ⟨hnested c, hshallow c, trivial, ?_⟩
    simp [LockView.Holds, view, boot]
  · exact .inl rfl
  · exact fun _ _ => rfl
  · rfl
  · simp [boot, view, LockView.outstanding]

/-! ## What the lock guarantees -/

def acquiring : LockPoint → Bool
  | .acquireLoaded _ | .acquireWon | .acquireStored => true
  | .idle | .releaseLoaded _ | .releaseCleared | .releaseUnlocked => false

omit [DecidableEq κ] [Fintype κ] in
/-- The core is between the return of an outermost acquire and the start of the
release that belongs to it. A call that has started is no longer among `calls`. -/
def Inside (s : KernelLock κ) (c : κ) : Prop :=
  if acquiring (s.point c) then 1 < level (s.calls c) else 0 < level (s.calls c)

omit [DecidableEq κ] [Fintype κ] in
instance (s : KernelLock κ) (c : κ) : Decidable (Inside s c) :=
  inferInstanceAs (Decidable (if acquiring (s.point c) then 1 < level (s.calls c)
    else 0 < level (s.calls c)))

/-- The core is in an outermost acquire that has taken the lock, or in an
outermost release that has not given it back. -/
def Crossing : LockPoint → Prop
  | .acquireWon | .acquireStored | .releaseCleared => True
  | .releaseLoaded depth => depth = 1
  | .idle | .acquireLoaded _ | .releaseUnlocked => False

variable (index) in
structure Safe (s : KernelLock κ) : Prop where
  exclusive : ∀ c c', Inside s c → Inside s c' → c = c'
  owner_inside : ∀ c, Inside s c → s.owner = index c
  owner_else : (∀ c, ¬ Inside s c) →
    s.owner = -1 ∨ ∃ c, s.owner = index c ∧ Crossing (s.point c)
  nested_returns : ∀ c depth fails, s.point c = .acquireLoaded depth → Inside s c →
    (s.step index (c, fails)).point c = .idle
  complete : (∀ c, s.point c = .idle ∧ s.calls c = []) →
    (∀ i, s.depth i = 0) ∧ s.owner = -1 ∧ s.totalAcquires = s.totalReleases ∧
      s.unbalancedReleases = 0

omit [DecidableEq κ] in
theorem Inv.depth_pos_of_inside (h : Inv index s) (hc : Inside s c) :
    0 < s.depth (cpuSlot (index c)) := by
  have hlevel := (h.cores c).nested.level_eq
  have hdepth := (h.cores c).depthAt
  rw [LockView.toNat_pos]
  unfold Inside at hc
  simp only [view] at hlevel hdepth
  cases hpoint : s.point c with
  | idle | acquireLoaded | releaseLoaded | acquireWon | acquireStored | releaseCleared
  | releaseUnlocked =>
    rw [hpoint] at hlevel hdepth hc
    simp only [acquiring, LockView.pending, hlevel, if_true, Bool.false_eq_true, if_false] at hc
    omega

omit [DecidableEq κ] in
theorem Inv.inside_or_crossing (h : Inv index s) (hc : (s.view index c).Holds) :
    Inside s c ∨ Crossing (s.point c) := by
  have hlevel := (h.cores c).nested.level_eq
  have hdepth := (h.cores c).depthAt
  unfold LockView.Holds at hc
  unfold Inside
  rw [LockView.toNat_pos] at hc
  simp only [view] at hlevel hdepth hc
  cases hpoint : s.point c with
  | idle | acquireLoaded =>
    rw [hpoint] at hlevel hc
    simp only [reduceCtorEq, or_false] at hc
    left
    simp only [acquiring, LockView.pending, hlevel, if_true, Bool.false_eq_true, if_false]
    omega
  | acquireWon | acquireStored | releaseCleared => exact .inr trivial
  | releaseLoaded =>
    rw [hpoint] at hlevel hdepth
    rcases hdepth with ⟨rfl, hpos⟩
    by_cases hone : s.depth (cpuSlot (index c)) = 1
    · exact .inr hone
    · left
      have hne : (s.depth (cpuSlot (index c))).toNat ≠ 1 := fun heq =>
        hone (UInt32.toNat_inj.mp heq)
      rw [LockView.toNat_pos] at hpos
      simp only [acquiring, LockView.pending, hlevel, Bool.false_eq_true, if_false]
      omega
  | releaseUnlocked =>
    rw [hpoint] at hdepth hc
    rw [show s.depth (cpuSlot (index c)) = 0 from hdepth] at hc
    simp at hc

theorem Inv.safe (h : Inv index s) (hn : Numbered index) : Safe index s := by
  have hholds {c : κ} (hc : Inside s c) : (s.view index c).Holds :=
    .inl (h.depth_pos_of_inside hc)
  have howner {c : κ} (hc : (s.view index c).Holds) : s.owner = index c := by
    rw [← hn.cpuSlot_val c]
    exact (h.cores c).owner hc
  constructor
  · exact fun c _ hc hc' => h.holds_unique hn (hholds hc) (hholds hc')
  · exact fun c hc => howner (hholds hc)
  · intro hnone
    rcases h.owned with hfree | ⟨c, hc⟩
    · exact .inl hfree
    · exact .inr ⟨c, howner hc, (h.inside_or_crossing hc).resolve_left (hnone c)⟩
  · intro c depth _ hpoint hc
    have hdepth := (h.cores c).depthAt
    have hpos := h.depth_pos_of_inside hc
    simp only [view, hpoint, LockView.DepthAt] at hdepth
    rw [← hdepth] at hpos
    simp only [KernelLock.step, put, view, LockView.step, hpoint, gt_iff_lt, hpos, if_true,
      update_self]
  · intro hdone
    have hzero (c : κ) : s.depth (cpuSlot (index c)) = 0 := by
      have hnested := (h.cores c).nested
      simp only [view, (hdone c).1, (hdone c).2] at hnested
      exact UInt32.toNat_inj.mp hnested
    refine ⟨fun i => ?_, ?_, ?_, h.balanced⟩
    · by_cases hi : ∃ c, cpuSlot (index c) = i
      · rcases hi with ⟨c, rfl⟩
        exact hzero c
      · exact h.spare i fun c hc => hi ⟨c, hc⟩
    · rcases h.owned with hfree | ⟨c, hc⟩
      · exact hfree
      · simp [LockView.Holds, view, hzero, (hdone c).1] at hc
    · rw [h.counted]
      simp [LockView.outstanding, view, hzero, (hdone _).1]

/-- **The kernel lock.** Cores with numbers of their own make nested calls, at
most 2^32 - 1 of them open at once, in any interleaving of their accesses. -/
theorem lock_safe (hn : Numbered index) (programs : κ → List LockCall)
    (hnested : ∀ c, Nested 0 (programs c)) (hshallow : ∀ c, peak 0 (programs c) < 2 ^ 32)
    (turns : List (κ × Bool)) : Safe index (run (step index) (boot programs) turns) := by
  have hinv : Inv index (run (step index) (boot programs) turns) :=
    run_invariant (G := fun _ _ => True) (fun s turn hs _ => hs.step hn turn)
      (inv_boot hnested hshallow) (along_iff_split.mpr fun _ _ _ _ => trivial)
  exact hinv.safe hn

/-- Two cores that want the lock twice each. -/
theorem lock_safe_two_cores :
    Safe Fin.val (run (step Fin.val)
      (boot fun _ : Fin 2 => [.acquire, .acquire, .release, .release])
      [(0, false), (1, false), (0, false), (1, false), (0, false), (0, false), (0, false)]) :=
  lock_safe ⟨Fin.val_injective, by decide⟩ _ (by decide) (by decide) _

end KernelLock

/-! ## One core that nests too deep -/

namespace LockView

open LockCall

variable {me : Fin maxCpus} {v : LockView} {rest : List LockCall}

theorem step_nested (hidle : v.point = .idle) (hpos : 0 < v.depth)
    (hcalls : v.calls = .acquire :: rest) :
    step me false (step me false v) = { v with depth := v.depth + 1, calls := rest } := by
  simp only [step, hidle, hcalls, gt_iff_lt, hpos, if_true]

theorem step_iterate_nested (n : Nat) (hidle : v.point = .idle) (hpos : 0 < v.depth.toNat)
    (hbound : v.depth.toNat + n < 2 ^ 32)
    (hcalls : v.calls = List.replicate n .acquire ++ rest) :
    (step me false)^[2 * n] v =
      { v with depth := UInt32.ofNat (v.depth.toNat + n), calls := rest } := by
  induction n generalizing v with
  | zero => ext <;> simp [hcalls]
  | succ n ih =>
    have hsucc : (v.depth + 1).toNat = v.depth.toNat + 1 := by
      rw [UInt32.toNat_add]
      exact Nat.mod_eq_of_lt (show v.depth.toNat + 1 < 2 ^ 32 by omega)
    have hrest := ih (v := { v with
      depth := v.depth + 1, calls := replicate n .acquire ++ rest }) hidle
      (by dsimp only; omega) (by dsimp only; omega) rfl
    rw [show 2 * (n + 1) = 2 * n + 2 by omega, iterate_add_apply, iterate_succ_apply, iterate_one,
      step_nested hidle (toNat_pos.mpr hpos) hcalls]
    refine hrest.trans ?_
    rw [hsucc, Nat.add_right_comm, Nat.add_assoc]

end LockView

namespace KernelLock

open LockCall

theorem run_replicate {κ : Type} [DecidableEq κ] {index : κ → Nat} (s : KernelLock κ) (c : κ)
    (n : Nat) :
    run (step index) s (List.replicate n (c, false)) =
      s.put index c ((LockView.step (cpuSlot (index c)) false)^[n] (s.view index c)) := by
  induction n generalizing s with
  | zero => exact put_view.symm
  | succ n ih =>
    rw [replicate_succ, run_cons, ih, iterate_succ_apply]
    simp only [step, view_put_self]
    simp [put]

theorem nested_replicate (level n : Nat) (rest : List LockCall) :
    Nested level (List.replicate n .acquire ++ rest) ↔ Nested (level + n) rest := by
  induction n generalizing level with
  | zero => rfl
  | succ n ih =>
    rw [replicate_succ, cons_append, Nested, ih, Nat.add_right_comm, Nat.add_assoc]

theorem nested_replicate_release (n : Nat) : Nested n (List.replicate n .release) := by
  induction n with
  | zero => rfl
  | succ n ih => exact ⟨Nat.succ_pos n, ih⟩

/-- A core that opens one acquire after the other until the depth is 0 again,
and then one more. -/
def tooDeep (n : Nat) (rest : List LockCall) : List LockCall :=
  .acquire :: (List.replicate n .acquire ++ .acquire :: .acquire :: rest)

theorem step_iterate_tooDeep {n : Nat} (hn : n + 2 = 2 ^ 32) (rest : List LockCall) :
    (LockView.step (cpuSlot 0) false)^[1 + (2 + (2 * n + 4))]
      ((boot fun _ : Unit => tooDeep n rest).view (fun _ => 0) ()) =
        ⟨0, 0, 1, 0, 0, .acquireLoaded 0, rest⟩ := by
  have hfirst : (LockView.step (cpuSlot 0) false)^[4]
      ((boot fun _ : Unit => tooDeep n rest).view (fun _ => 0) ()) =
        ⟨0, 1, 1, 0, 0, .idle, replicate n .acquire ++ .acquire :: .acquire :: rest⟩ := rfl
  have hval : (UInt32.ofNat (1 + n)).toNat = 1 + n := by
    rw [UInt32.toNat_ofNat']
    exact Nat.mod_eq_of_lt (by omega)
  have hnested : (LockView.step (cpuSlot 0) false)^[2 * n]
      ⟨0, 1, 1, 0, 0, .idle, replicate n .acquire ++ .acquire :: .acquire :: rest⟩ =
        ⟨0, UInt32.ofNat (1 + n), 1, 0, 0, .idle, .acquire :: .acquire :: rest⟩ :=
    LockView.step_iterate_nested n rfl Nat.one_pos (show 1 + n < 2 ^ 32 by omega) rfl
  have hpos : 0 < UInt32.ofNat (1 + n) := by
    rw [LockView.toNat_pos, hval]
    omega
  have hlast : UInt32.ofNat (1 + n) + 1 = 0 := by
    apply UInt32.toNat_inj.mp
    rw [UInt32.toNat_add, hval]
    show (1 + n + 1) % 2 ^ 32 = 0
    rw [show 1 + n + 1 = n + 2 by omega, hn]
    rfl
  have hwrap : (LockView.step (cpuSlot 0) false)^[2]
      ⟨0, UInt32.ofNat (1 + n), 1, 0, 0, .idle, .acquire :: .acquire :: rest⟩ =
        ⟨0, 0, 1, 0, 0, .idle, .acquire :: rest⟩ := by
    rw [iterate_succ_apply, iterate_one, LockView.step_nested rfl hpos rfl]
    rw [hlast]
  rw [iterate_add_apply, iterate_add_apply, iterate_add_apply, hfirst, hnested, hwrap]
  rfl

/-- A core that has loaded the depth 0 while the lock is taken. -/
theorem run_stuck {κ : Type} [DecidableEq κ] {index : κ → Nat} {s : KernelLock κ} {c : κ}
    (hpoint : s.point c = .acquireLoaded 0) (howner : s.owner ≠ -1) (turns : List Bool) :
    run (step index) s (turns.map (c, ·)) = s := by
  induction turns with
  | nil => rfl
  | cons fails turns ih =>
    have hspin : (s.view index c).step (cpuSlot (index c)) fails = s.view index c := by
      simp [LockView.step, view, hpoint, howner]
    rw [map_cons, run_cons, step, hspin, put_view, ih]

/-- **Where the lock falls short.** A core that has cleared its depth in
`release` is not inside any more and not waiting either, but still the owner.
And a core that opens 2^32 acquires waits for itself in the next one. -/
theorem lock_gaps :
    (∃ turns, let s := run (step fun _ : Unit => 0) (boot fun _ => [.acquire, .release]) turns
      ¬ Inside s () ∧ s.owner = 0 ∧ s.point () = .releaseCleared) ∧
    ∃ program turns, Nested 0 program ∧
      let s := run (step fun _ : Unit => 0) (boot fun _ => program) turns
      Inside s () ∧ s.point () = .acquireLoaded 0 ∧
        ∀ more : List Bool, run (step fun _ : Unit => 0) s (more.map ((), ·)) = s := by
  constructor
  · exact ⟨replicate 6 ((), false), by decide⟩
  · obtain ⟨n, hn⟩ : ∃ n, n + 2 = 2 ^ 32 := ⟨2 ^ 32 - 2, by decide⟩
    refine ⟨tooDeep n (replicate (n + 3) .release),
      replicate (1 + (2 + (2 * n + 4))) ((), false), ?_, ?_⟩
    · rw [tooDeep, Nested, nested_replicate]
      show Nested (0 + 1 + n + 1 + 1) _
      rw [show 0 + 1 + n + 1 + 1 = n + 3 by omega]
      exact nested_replicate_release (n + 3)
    · rw [run_replicate, step_iterate_tooDeep hn]
      have hpoint : (put (fun _ => 0) (boot fun _ : Unit =>
          tooDeep n (replicate (n + 3) .release)) ()
            ⟨0, 0, 1, 0, 0, .acquireLoaded 0, replicate (n + 3) .release⟩).point () =
          .acquireLoaded 0 := rfl
      refine ⟨?_, hpoint, run_stuck hpoint (show (0 : Int) ≠ -1 by decide)⟩
      rw [Inside, hpoint]
      simp [acquiring, put, level, count_replicate]

end KernelLock

end AgenticOS
