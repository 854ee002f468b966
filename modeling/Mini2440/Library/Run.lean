import Mathlib.Data.List.Basic

/-!
# Runs of a step function

A system is a step function `step : σ → α → σ`; a run folds it over a list of actions.
`Along` says that every action of a run meets a condition in the state it finds, which is
how a result about all runs is restricted to the runs that avoid some branch. The
induction over a run is done here once: a property kept by every admitted step holds
after every admitted run. The last part is about steps that may fail.
-/

namespace Mini2440.Library

variable {σ α : Type*} {step : σ → α → σ} {ok : σ → α → Prop} {s : σ} {a : α} {as bs : List α}
  {P : σ → Prop}

def runFrom (step : σ → α → σ) (s : σ) (as : List α) : σ := as.foldl step s

/-- Each action of the run satisfies `ok` in the state that it is performed in. -/
def Along (step : σ → α → σ) (ok : σ → α → Prop) : σ → List α → Prop
  | _, [] => True
  | s, a :: as => ok s a ∧ Along step ok (step s a) as

@[simp] lemma runFrom_nil : runFrom step s [] = s := rfl

@[simp] lemma runFrom_cons : runFrom step s (a :: as) = runFrom step (step s a) as := rfl

@[simp] lemma runFrom_append : runFrom step s (as ++ bs) = runFrom step (runFrom step s as) bs := by
  simp [runFrom]

@[simp] lemma along_nil : Along step ok s [] := trivial

@[simp] lemma along_cons :
    Along step ok s (a :: as) ↔ ok s a ∧ Along step ok (step s a) as := Iff.rfl

instance decidableAlong [∀ s a, Decidable (ok s a)] : ∀ s as, Decidable (Along step ok s as)
  | _, [] => .isTrue trivial
  | s, a :: as => @instDecidableAnd _ _ _ (decidableAlong (step s a) as)

lemma along_append :
    Along step ok s (as ++ bs) ↔ Along step ok s as ∧ Along step ok (runFrom step s as) bs := by
  induction as generalizing s with
  | nil => simp
  | cons a as ih => simp [ih, and_assoc]

lemma along_of_forall (h : ∀ s a, ok s a) : Along step ok s as := by
  induction as generalizing s with
  | nil => exact along_nil
  | cons a as ih => exact ⟨h s a, ih⟩

/-- The induction over a run: an invariant of the admitted steps is one of the admitted runs. -/
lemma Along.invariant (keep : ∀ s a, P s → ok s a → P (step s a))
    (init : P s) (h : Along step ok s as) : P (runFrom step s as) := by
  induction as generalizing s with
  | nil => exact init
  | cons a as ih => exact ih (keep s a init h.1) h.2

/-- Two systems that take the same actions: a relation kept by the admitted steps of the first one
relates their states after an admitted run. -/
lemma Along.simulation {τ : Type*} {step' : τ → α → τ} {R : σ → τ → Prop} {t : τ}
    (keep : ∀ s t a, R s t → ok s a → R (step s a) (step' t a)) (init : R s t)
    (h : Along step ok s as) : R (runFrom step s as) (runFrom step' t as) := by
  induction as generalizing s t with
  | nil => exact init
  | cons a as ih => exact ih (keep s t a init h.1) h.2

lemma Along.and {ok' : σ → α → Prop} (h : Along step ok s as) (h' : Along step ok' s as) :
    Along step (fun s a => ok s a ∧ ok' s a) s as := by
  induction as generalizing s with
  | nil => exact along_nil
  | cons a as ih => exact ⟨⟨h.1, h'.1⟩, ih h.2 h'.2⟩

/-- An invariant that every step keeps needs no condition on the run. -/
lemma runFrom_invariant (keep : ∀ s a, P s → P (step s a)) (init : P s)
    (as : List α) : P (runFrom step s as) :=
  (along_of_forall fun _ _ => trivial).invariant (fun s a h _ => keep s a h) init

/-! ## The states that a run passes through -/

def visits (step : σ → α → σ) : σ → List α → List σ
  | s, [] => [s]
  | s, a :: as => s :: visits step (step s a) as

@[simp] lemma visits_nil : visits step s [] = [s] := rfl

@[simp] lemma visits_cons : visits step s (a :: as) = s :: visits step (step s a) as := rfl

lemma first_mem_visits : s ∈ visits step s as := by
  cases as <;> simp

lemma last_mem_visits (step : σ → α → σ) (s : σ) (as : List α) :
    runFrom step s as ∈ visits step s as := by
  induction as generalizing s with
  | nil => simp
  | cons a as ih => simp [ih]

lemma forall_visits_append :
    (∀ t ∈ visits step s (as ++ bs), P t) ↔
      (∀ t ∈ visits step s as, P t) ∧ ∀ t ∈ visits step (runFrom step s as) bs, P t := by
  induction as generalizing s with
  | nil =>
    have hs : s ∈ visits step s bs := first_mem_visits
    simp only [visits_nil, List.mem_singleton, forall_eq]
    exact ⟨fun h => ⟨h s hs, h⟩, fun h => h.2⟩
  | cons a as ih => simp [ih, and_assoc]

lemma forall_visits (keep : ∀ s, ∀ a ∈ as, P s → P (step s a)) (init : P s) :
    ∀ t ∈ visits step s as, P t := by
  induction as generalizing s with
  | nil => simpa using init
  | cons a as ih =>
    simp only [visits_cons, List.mem_cons, forall_eq_or_imp]
    exact ⟨init, ih (fun s b hb => keep s b (by simp [hb])) (keep s a (by simp) init)⟩

/-- A rank that every step lowers is zero after as many steps. -/
lemma runFrom_rank (rank : σ → Nat)
    (keep : ∀ s, ∀ a ∈ as, P s → P (step s a) ∧ rank (step s a) ≤ rank s - 1) (init : P s)
    (long : rank s ≤ as.length) : P (runFrom step s as) ∧ rank (runFrom step s as) = 0 := by
  induction as generalizing s with
  | nil => exact ⟨init, Nat.le_zero.mp long⟩
  | cons a as ih =>
    obtain ⟨hP, hrank⟩ := keep s a (by simp) init
    rw [List.length_cons] at long
    exact ih (fun s b hb => keep s b (by simp [hb])) hP (by omega)

/-! ## Runs that may fail -/

variable {ε : Type*} {stepE : σ → α → Except ε σ}

/-- If every step from a good state succeeds and gives a good state, every run does. -/
lemma foldlM_invariant (keep : ∀ s a, P s → ∃ s', stepE s a = .ok s' ∧ P s') (init : P s)
    (as : List α) : ∃ s', as.foldlM stepE s = .ok s' ∧ P s' := by
  induction as generalizing s with
  | nil => exact ⟨s, rfl, init⟩
  | cons a as ih =>
    obtain ⟨s', hs', hP⟩ := keep s a init
    obtain ⟨s'', hs'', hP'⟩ := ih hP
    refine ⟨s'', ?_, hP'⟩
    rw [List.foldlM_cons, hs']
    exact hs''

lemma foldlM_update_iff {ι β : Type*} [DecidableEq ι] {stepE : (ι → β) → ι → Except ε (ι → β)}
    {f : ι → β → Option β}
    (hstep : ∀ t k t', stepE t k = .ok t' ↔ ∃ b, f k (t k) = some b ∧ Function.update t k b = t')
    {l : List ι} (hl : l.Nodup) {t t' : ι → β} :
    l.foldlM stepE t = .ok t' ↔ ∀ k, if k ∈ l then f k (t k) = some (t' k) else t' k = t k := by
  induction l generalizing t with
  | nil => simp [pure, Except.pure, funext_iff, eq_comm]
  | cons a l ih =>
    obtain ⟨ha, hl⟩ := List.nodup_cons.mp hl
    have hcons : (a :: l).foldlM stepE t = .ok t' ↔
        ∃ b, f a (t a) = some b ∧ l.foldlM stepE (Function.update t a b) = .ok t' := by
      rw [List.foldlM_cons]
      cases hm : stepE t a with
      | error e =>
        refine iff_of_false nofun ?_
        rintro ⟨b, hb, -⟩
        cases hm.symm.trans ((hstep t a _).mpr ⟨b, hb, rfl⟩)
      | ok m =>
        obtain ⟨b, hb, rfl⟩ := (hstep t a m).mp hm
        simp [bind, Except.bind, hb]
    rw [hcons]
    constructor
    · rintro ⟨b, hb, h⟩ k
      have hk := (ih hl).mp h k
      by_cases heq : k = a
      · simp_all
      · simpa [heq] using hk
    · intro h
      refine ⟨t' a, by simpa using h a, (ih hl).mpr fun k => ?_⟩
      by_cases heq : k = a
      · simp [heq, ha]
      · simpa [heq] using h k

def Fails (stepE : σ → α → Except ε σ) (s : σ) : Prop :=
  ∃ (as : List α) (e : ε), as.foldlM stepE s = .error e

lemma Fails.of_error {e : ε} (h : stepE s a = .error e) : Fails stepE s :=
  ⟨[a], e, by rw [List.foldlM_cons, h]; rfl⟩

lemma Fails.of_step {s' : σ} (h : stepE s a = .ok s') (hs' : Fails stepE s') : Fails stepE s := by
  obtain ⟨as, e, he⟩ := hs'
  exact ⟨a :: as, e, by rw [List.foldlM_cons, h]; exact he⟩

/-- If every state of a kind fails at once or has a step to one of the same kind and of lower
rank, all of them can fail. -/
lemma Fails.of_rank (rank : σ → Nat)
    (h : ∀ s, P s → ∃ a, (∃ e, stepE s a = .error e) ∨
      ∃ s', stepE s a = .ok s' ∧ P s' ∧ rank s' < rank s) (hs : P s) : Fails stepE s := by
  induction hn : rank s using Nat.strongRecOn generalizing s with
  | ind n ih =>
    obtain ⟨a, ⟨e, he⟩ | ⟨s', hs', hP, hlt⟩⟩ := h s hs
    · exact .of_error he
    · exact .of_step hs' (ih _ (hn ▸ hlt) hP rfl)

/-! ## Machines without input -/

variable {next : σ → Except ε σ} {P Q : σ → Prop}

/-- Some number of steps leads from `s` to `s'`. -/
inductive Leads (next : σ → Except ε σ) : σ → σ → Prop where
  | refl (s : σ) : Leads next s s
  | step {s s' s'' : σ} (first : next s = .ok s') (rest : Leads next s' s'') : Leads next s s''

namespace Leads

variable {s' s'' : σ}

lemma single (h : next s = .ok s') : Leads next s s' := .step h (.refl s')

lemma trans (h : Leads next s s') (h' : Leads next s' s'') : Leads next s s'' := by
  induction h with
  | refl s => exact h'
  | step first _ ih => exact .step first (ih h')

lemma halts_unique (h : Leads next s s') (h' : Leads next s s'') (halt : next s' = .ok s')
    (halt' : next s'' = .ok s'') : s' = s'' := by
  induction h with
  | refl s =>
    induction h' with
    | refl => rfl
    | step first _ ih =>
      obtain rfl := Except.ok.inj (halt.symm.trans first)
      exact ih halt' halt
  | step first _ ih =>
    cases h' with
    | refl =>
      obtain rfl := Except.ok.inj (halt'.symm.trans first)
      exact ih (.refl _) halt
    | step first' rest =>
      obtain rfl := Except.ok.inj (first.symm.trans first')
      exact ih rest halt

end Leads

end Mini2440.Library
