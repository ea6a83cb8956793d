import Mathlib

/-!
# Runs of deterministic step functions

A system is a state type and a total step function; a run is the fold of a
list of labels. An interleaving of several threads is such a list as well:
the label says whose turn it is, and a turn that the state does not allow
leaves the state alone.

`Along` says that a side condition holds at every step of a run, in the state
the step starts from. The rules below reduce a fact about every run to a fact
about one step.
-/

namespace AgenticOS.Foundation

variable {σ ι ο : Type*}

/-- The state a run ends in. -/
def run (step : σ → ι → σ) (s : σ) (labels : List ι) : σ :=
  labels.foldl step s

/-- Every step of the run meets `G` in the state it starts from. -/
def Along (step : σ → ι → σ) (G : σ → ι → Prop) : σ → List ι → Prop
  | _, [] => True
  | s, a :: as => G s a ∧ Along step G (step s a) as

instance Along.decidable {step : σ → ι → σ} {G : σ → ι → Prop}
    [inst : ∀ s a, Decidable (G s a)] :
    ∀ (s : σ) (as : List ι), Decidable (Along step G s as)
  | _, [] => .isTrue trivial
  | s, a :: as => @instDecidableAnd _ _ (inst s a) (Along.decidable (step s a) as)

@[simp] theorem run_nil (step : σ → ι → σ) (s : σ) : run step s [] = s := rfl

@[simp] theorem run_cons (step : σ → ι → σ) (s : σ) (a : ι) (as : List ι) :
    run step s (a :: as) = run step (step s a) as := rfl

variable {as bs : List ι} {G : σ → ι → Prop}

theorem along_append {step : σ → ι → σ} {s : σ} :
    Along step G s (as ++ bs) ↔ Along step G s as ∧ Along step G (run step s as) bs := by
  induction as generalizing s with
  | nil => simp [Along]
  | cons a as ih =>
    simp only [List.cons_append, Along, run_cons, ih]
    tauto

variable {G' : σ → ι → Prop}

theorem Along.mono {step : σ → ι → σ} (h : ∀ s a, G s a → G' s a) :
    ∀ {s : σ} {as : List ι}, Along step G s as → Along step G' s as
  | _, [], _ => trivial
  | _, _ :: _, ⟨h1, h2⟩ => ⟨h _ _ h1, Along.mono h h2⟩

theorem along_congr {step : σ → ι → σ} (h : ∀ s a, G s a ↔ G' s a) {s : σ} :
    Along step G s as ↔ Along step G' s as :=
  ⟨Along.mono fun s a => (h s a).mp, Along.mono fun s a => (h s a).mpr⟩

/-- The side condition, read off every split of the run. -/
theorem along_iff_split {step : σ → ι → σ} {s : σ} :
    Along step G s as ↔ ∀ pre a post, as = pre ++ a :: post → G (run step s pre) a := by
  constructor
  · rintro h pre a post rfl
    exact (along_append.mp h).2.1
  · intro h
    induction as generalizing s with
    | nil => trivial
    | cons a as ih =>
      refine ⟨h [] a as rfl, ih ?_⟩
      rintro pre b post rfl
      exact h (a :: pre) b post rfl

variable {Inv P : σ → Prop}

/-- **Invariant rule.** What every guarded step keeps, every guarded run
keeps. -/
theorem run_invariant {step : σ → ι → σ} {G : σ → ι → Prop} {Inv : σ → Prop}
    (hstep : ∀ s a, Inv s → G s a → Inv (step s a)) :
    ∀ {s : σ} {as : List ι}, Inv s → Along step G s as → Inv (run step s as)
  | _, [], hs, _ => hs
  | s, a :: _, hs, hG =>
    run_invariant hstep (s := step s a) (hstep s a hs hG.1) hG.2

/-! ## Steps that may fail

A failing step ends the run. -/

/-- The state a run ends in, unless a step fails. -/
def attempt (step : σ → ι → Option σ) (s : σ) (labels : List ι) : Option σ :=
  labels.foldlM step s

/-- Every step that the run gets to meets `G` in the state it starts from. -/
def Meets (step : σ → ι → Option σ) (G : σ → ι → Prop) : σ → List ι → Prop
  | _, [] => True
  | s, a :: as => G s a ∧ ∀ s', step s a = some s' → Meets step G s' as

variable {step : σ → ι → Option σ}

theorem meets_of_forall (h : ∀ s a, G s a) : ∀ (s : σ) (as : List ι), Meets step G s as
  | _, [] => trivial
  | s, a :: as => ⟨h s a, fun s' _ => meets_of_forall h s' as⟩

instance Meets.decidable {step : σ → ι → Option σ} {G : σ → ι → Prop}
    [inst : ∀ s a, Decidable (G s a)] :
    ∀ (s : σ) (as : List ι), Decidable (Meets step G s as)
  | _, [] => .isTrue trivial
  | s, a :: as =>
    match h : step s a with
    | none => @decidable_of_iff _ (G s a)
        ⟨fun hG => ⟨hG, fun _ hs' => absurd (h.symm.trans hs') nofun⟩, And.left⟩ (inst s a)
    | some s₁ => @decidable_of_iff _ (G s a ∧ Meets step G s₁ as)
        ⟨fun hG => ⟨hG.1, fun _ hs' => Option.some_inj.mp (h.symm.trans hs') ▸ hG.2⟩,
          fun hG => ⟨hG.1, hG.2 s₁ h⟩⟩
        (@instDecidableAnd _ _ (inst s a) (Meets.decidable s₁ as))

@[simp] theorem attempt_nil (step : σ → ι → Option σ) (s : σ) : attempt step s [] = some s :=
  rfl

/-- Whether a run ends in a state with `P` is decided by running it. -/
instance decidableExistsSome {P : σ → Prop} [DecidablePred P] :
    ∀ o : Option σ, Decidable (∃ s, o = some s ∧ P s)
  | none => .isFalse nofun
  | some s => decidable_of_iff (P s) (by simp)

theorem exists_run_imp {o : Option σ} {Q : σ → Prop} (h : ∃ s, o = some s ∧ Q s)
    (hP : ∀ s, o = some s → Q s → P s) : ∃ s, o = some s ∧ P s :=
  h.imp fun s hs => ⟨hs.1, hP s hs.1 hs.2⟩

theorem exists_pair_of_isSome {o : Option (σ × ο)} {P : σ → ο → Prop} (h : o.isSome = true)
    (hP : ∀ s a, o = some (s, a) → P s a) : ∃ s a, o = some (s, a) ∧ P s a := by
  obtain ⟨⟨s, a⟩, rfl⟩ := Option.isSome_iff_exists.mp h
  exact ⟨s, a, rfl, hP s a rfl⟩

theorem attempt_cons (step : σ → ι → Option σ) (s : σ) (a : ι) (as : List ι) :
    attempt step s (a :: as) = (step s a).bind fun s' => attempt step s' as :=
  rfl

/-- The side condition in the middle of a run. -/
theorem Meets.at_split {a : ι} :
    ∀ {s s' : σ} {as : List ι}, Meets step G s (as ++ a :: bs) → attempt step s as = some s' →
      G s' a
  | _, _, [], h, hrun => Option.some_inj.mp hrun ▸ h.1
  | s, _, b :: as, h, hrun => by
    rw [attempt_cons] at hrun
    obtain ⟨s1, hs1, hrun⟩ := Option.bind_eq_some_iff.mp hrun
    exact Meets.at_split (h.2 s1 hs1) hrun

theorem attempt_invariant (hstep : ∀ s a s', Inv s → G s a → step s a = some s' → Inv s') :
    ∀ {s s' : σ} {as : List ι}, Inv s → Meets step G s as → attempt step s as = some s' → Inv s'
  | _, _, [], hs, _, hrun => Option.some_inj.mp hrun ▸ hs
  | s, _, a :: as, hs, hG, hrun => by
    rw [attempt_cons] at hrun
    obtain ⟨s1, hs1, hrun⟩ := Option.bind_eq_some_iff.mp hrun
    exact attempt_invariant hstep (hstep s a s1 hs hG.1 hs1) (hG.2 s1 hs1) hrun

/-- **Exact side conditions.** If `G` is what a step needs to keep the
invariant, and a step without `G` leaves a state without `P`, then `P` holds in
every state of a run exactly if every step meets `G`. -/
theorem attempt_forall_iff_meets {K : σ → ι → Prop} (hP : ∀ s, Inv s → P s)
    (hkeep : ∀ s a s', Inv s → K s a → G s a → step s a = some s' → Inv s')
    (hbreak : ∀ s a s', Inv s → K s a → ¬ G s a → step s a = some s' → ¬ P s') :
    ∀ {s s' : σ} {as : List ι}, Inv s → Meets step K s as → attempt step s as = some s' →
      ((∀ pre post s1, as = pre ++ post → attempt step s pre = some s1 → P s1) ↔ Meets step G s as)
  | s, _, [], hs, _, _ => by
    refine ⟨fun _ => trivial, fun _ pre post s1 hsplit hpre => ?_⟩
    rcases List.append_eq_nil_iff.mp hsplit.symm with ⟨rfl, -⟩
    cases hpre
    exact hP s hs
  | s, s', a :: as, hs, hK, hrun => by
    rw [attempt_cons] at hrun
    rcases Option.bind_eq_some_iff.mp hrun with ⟨s1, hstep, hrun⟩
    have hrest (hs1 : Inv s1) := attempt_forall_iff_meets hP hkeep hbreak hs1 (hK.2 s1 hstep) hrun
    constructor
    · intro hall
      have hG : G s a := by
        by_contra hG
        refine hbreak s a s1 hs hK.1 hG hstep (hall [a] as s1 rfl ?_)
        rw [attempt_cons, hstep]
        rfl
      refine ⟨hG, fun s2 hs2 => ?_⟩
      rw [hstep] at hs2
      cases hs2
      refine (hrest (hkeep s a s1 hs hK.1 hG hstep)).mp fun pre post s2 hsplit hpre => ?_
      refine hall (a :: pre) post s2 (by rw [hsplit]; rfl) ?_
      rw [attempt_cons, hstep]
      exact hpre
    · rintro ⟨hG, hmeets⟩ pre post s2 hsplit hpre
      cases pre with
      | nil =>
        cases hpre
        exact hP s hs
      | cons b pre =>
        rw [List.cons_append, List.cons.injEq] at hsplit
        rcases hsplit with ⟨rfl, hsplit⟩
        rw [attempt_cons, hstep] at hpre
        exact (hrest (hkeep s a s1 hs hK.1 hG hstep)).mpr (hmeets s1 hstep) pre post s2 hsplit hpre

/-- The labels of a run with what each of them returned. -/
def transcript (step : σ → ι → ο × σ) : σ → List ι → List (ι × ο)
  | _, [] => []
  | s, a :: as => (a, (step s a).1) :: transcript step (step s a).2 as

/-- The state transformer behind a step that also returns a value. -/
def next (step : σ → ι → ο × σ) (s : σ) (a : ι) : σ := (step s a).2

/-- Counting labels in the transcript is counting them in the run. -/
theorem countP_transcript_fst (step : σ → ι → ο × σ) (p : ι → Bool) (s : σ)
    (as : List ι) : (transcript step s as).countP (fun x => p x.1) = as.countP p := by
  induction as generalizing s with
  | nil => rfl
  | cons a as ih => rw [transcript, List.countP_cons, List.countP_cons, ih]

/-! ## Threads at control points

Each thread of an interleaving is at some point of its code, and a step moves
one of them. -/

section

variable {κ γ : Type*} [DecidableEq κ] {points : κ → γ} {P : γ → Prop} {t : κ} {c : γ}

/-- At most one thread is at a point with `P`, also after a thread has moved
that may only get there when no other is. -/
theorem atMostOne_update (hone : ∀ t1 t2, P (points t1) → P (points t2) → t1 = t2)
    (hmove : P c → ∀ t', P (points t') → t' = t) (t1 t2 : κ)
    (h1 : P (Function.update points t c t1)) (h2 : P (Function.update points t c t2)) :
    t1 = t2 := by
  rw [Function.update_apply] at h1 h2
  split_ifs at h1 h2 with ht1 ht2 ht2
  · rw [ht1, ht2]
  · rw [ht1, hmove h1 t2 h2]
  · rw [ht2, hmove h2 t1 h1]
  · exact hone t1 t2 h1 h2

/-- Who is at a point with `P` does not change when a thread moves between
points without it. -/
theorem at_update_iff (hold : ¬ P (points t)) (hnew : ¬ P c) (t' : κ) :
    P (Function.update points t c t') ↔ P (points t') := by
  rw [Function.update_apply]
  split_ifs with ht
  · subst ht
    exact ⟨fun h => absurd h hnew, fun h => absurd h hold⟩
  · rfl

/-- Where only one thread may be at a point with `P`, it may move on alone. -/
theorem one_update (hone : ∀ t', P (points t') → t' = t) (c : γ) (t' : κ)
    (h : P (Function.update points t c t')) : t' = t := by
  by_contra hne
  rw [Function.update_of_ne hne] at h
  exact hne (hone t' h)

end

end AgenticOS.Foundation
