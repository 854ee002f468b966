import Mini2440.Library.Run
import Mini2440.Timer.Wheel

/-!
# What the events do

An event that arms a timer moves it to the end of one list, an event that deletes it takes it out
of all lists, and every other one, apart from the rounds of `__run_timers`, leaves it where it is,
together with all timers in the same place. `Same` is about a group of timers: the lists restricted
to the group, and whatever else decides when they are called.
-/

namespace Mini2440.Timer

open Function Library

variable {τ : Type} [DecidableEq τ] {s s' : State τ} {l : List τ} {x y : τ} {e : Word}
  {ev : Event τ} {only : Bool}

namespace State

def among (s : State τ) (l : List τ) (b : Slot) : List τ := (s.lists b).filter (· ∈ l)

def calls (s : State τ) (l : List τ) : List (τ × Nat) := s.log.filter (·.1 ∈ l)

end State

/-! ## Events that leave a group alone -/

/-- Nothing that matters for the timers of the group differs. -/
structure Same (l : List τ) (s s' : State τ) : Prop where
  among : ∀ b, s'.among l b = s.among l b
  expires : ∀ x ∈ l, s'.expires x = s.expires x
  pending : ∀ x ∈ l, s'.pending x = s.pending x
  timerJiffies : s'.timerJiffies = s.timerJiffies
  now : s'.now = s.now
  tick : s'.tick = s.tick
  calls : s'.calls l = s.calls l

lemma Same.refl (l : List τ) (s : State τ) : Same l s s := by
  constructor <;> intros <;> rfl

lemma Same.trans {s'' : State τ} (h : Same l s s') (h' : Same l s' s'') : Same l s s'' where
  among b := (h'.among b).trans (h.among b)
  expires x hx := (h'.expires x hx).trans (h.expires x hx)
  pending x hx := (h'.pending x hx).trans (h.pending x hx)
  timerJiffies := h'.timerJiffies.trans h.timerJiffies
  now := h'.now.trans h.now
  tick := h'.tick.trans h.tick
  calls := h'.calls.trans h.calls

namespace State

lemma update_of_mem {β : Type*} {f : τ → β} {v : β} (hy : y ∉ l) (hx : x ∈ l) :
    update f y v x = f x :=
  update_of_ne (ne_of_mem_of_not_mem hx hy) v f

lemma filter_ne_of_notMem (hy : y ∉ l) (zs : List τ) :
    (zs.filter (· ≠ y)).filter (· ∈ l) = zs.filter (· ∈ l) := by
  rw [List.filter_filter]
  refine List.filter_congr fun z _ => ?_
  by_cases hz : z = y
  · subst hz
    simp [hy]
  · simp [hz]

lemma detachTimer_same (hy : y ∉ l) (clear : Bool) : Same l s (s.detachTimer y clear) where
  among b := filter_ne_of_notMem hy (s.lists b)
  expires _ _ := rfl
  pending x hx := by
    cases clear
    · rfl
    · exact update_of_mem hy hx
  timerJiffies := rfl
  now := rfl
  tick := rfl
  calls := rfl

lemma detachIfPending_of_pending (hy : s.pending y) (clear : Bool) :
    (s.detachIfPending y clear).2 = 1 ∧
      ∀ l, Same l (s.detachTimer y clear) (s.detachIfPending y clear).1 := by
  rw [detachIfPending, if_pos hy]
  exact ⟨rfl, fun l => ⟨fun _ => rfl, fun _ _ => rfl, fun _ _ => rfl, rfl, rfl, rfl, rfl⟩⟩

lemma detachIfPending_of_not (hy : ¬ s.pending y) (clear : Bool) :
    s.detachIfPending y clear = (s, 0) := if_neg hy

lemma detachIfPending_same (hy : y ∈ l → ¬ s.pending y) (clear : Bool) :
    Same l s (s.detachIfPending y clear).1 := by
  by_cases hp : s.pending y
  · exact (detachTimer_same (fun h => hy h hp) clear).trans
      ((detachIfPending_of_pending hp clear).2 l)
  · rw [detachIfPending_of_not hp]
    exact Same.refl l s

lemma addToList_same (hy : y ∉ l) : Same l s (s.addToList y) where
  among b := by
    unfold addToList among
    by_cases hb : b = slotOf s.timerJiffies (s.expires y)
    · subst hb
      simp [hy]
    · simp [update_of_ne hb]
  expires _ _ := rfl
  pending _ hx := update_of_mem hy hx
  timerJiffies := rfl
  now := rfl
  tick := rfl
  calls := rfl

lemma internalAddTimer_account (s : State τ) :
    Same l (s.addToList y) (s.internalAddTimer y) :=
  ⟨fun _ => rfl, fun _ _ => rfl, fun _ _ => rfl, rfl, rfl, rfl, rfl⟩

lemma setExpires_same (hy : y ∉ l) :
    Same l s { s with expires := update s.expires y e } :=
  ⟨fun _ => rfl, fun _ hx => update_of_mem hy hx, fun _ _ => rfl, rfl, rfl, rfl, rfl⟩

lemma modTimerCore_same (hy : y ∈ l → ¬ s.pending y ∧ only) :
    Same l s (s.modTimerCore y e only).1 := by
  by_cases hl : y ∈ l
  · obtain ⟨hp, rfl⟩ := hy hl
    rw [modTimerCore, detachIfPending_of_not hp]
    exact Same.refl l s
  · have hdetach := detachIfPending_same (s := s) (fun h : y ∈ l => absurd h hl) false
    unfold modTimerCore
    dsimp only
    split
    · exact hdetach
    · exact ((hdetach.trans (setExpires_same hl)).trans (addToList_same hl)).trans
        (internalAddTimer_account _)

lemma modTimer_same (hy : y ∈ l → s.pending y ∧ s.expires y = s.applySlack y e) :
    Same l s (s.modTimer y e).1 := by
  unfold modTimer
  dsimp only
  split_ifs with h
  · exact Same.refl l s
  · exact modTimerCore_same (fun hl => absurd (hy hl) h)

lemma modTimerPinned_same (hy : y ∈ l → s.expires y = e ∧ s.pending y) :
    Same l s (s.modTimerPinned y e).1 := by
  unfold modTimerPinned
  split_ifs with h
  · exact Same.refl l s
  · exact modTimerCore_same (fun hl => absurd (hy hl) h)

lemma addTimer_same (hy : y ∈ l → s.pending y) : Same l s (s.addTimer y e) := by
  unfold addTimer
  split_ifs with h
  · exact Same.refl l s
  · have hl : y ∉ l := fun hl => h (hy hl)
    exact (setExpires_same hl).trans (modTimer_same fun h => absurd h hl)

lemma addTimerOn_same (hy : y ∈ l → s.pending y) : Same l s (s.addTimerOn y e) := by
  unfold addTimerOn
  split_ifs with h
  · exact Same.refl l s
  · have hl : y ∉ l := fun hl => h (hy hl)
    exact ((setExpires_same hl).trans (addToList_same hl)).trans (internalAddTimer_account _)

lemma delTimer_same (hy : y ∈ l → ¬ s.pending y) : Same l s (s.delTimer y).1 := by
  unfold delTimer
  split_ifs with h
  · exact detachIfPending_same hy true
  · exact Same.refl l s

lemma tryToDelTimerSync_same (hy : y ∈ l → s.pending y → s.runningTimer = some y) :
    Same l s (s.tryToDelTimerSync y).1 := by
  unfold tryToDelTimerSync
  split_ifs with h
  · exact Same.refl l s
  · exact detachIfPending_same (fun hl hp => h (hy hl hp)) true

end State

def Untouched (l : List τ) (s : State τ) (ev : Event τ) : Prop :=
  ∀ x ∈ l, armsWith s x ev = none ∧ deletes s x ev = false

instance (l : List τ) (s : State τ) (ev : Event τ) : Decidable (Untouched l s ev) :=
  inferInstanceAs (Decidable (∀ x ∈ l, armsWith s x ev = none ∧ deletes s x ev = false))

lemma step_same (h : Untouched l s ev) (hrun : ev ≠ .run) : Same l s (step s ev) := by
  cases ev with
  | pass ticks => exact ⟨fun _ => rfl, fun _ _ => rfl, fun _ _ => rfl, rfl, rfl, rfl, rfl⟩
  | setSlack y slack => exact ⟨fun _ => rfl, fun _ _ => rfl, fun _ _ => rfl, rfl, rfl, rfl, rfl⟩
  | add y e =>
    refine State.addTimer_same fun hl => ?_
    simpa [armsWith] using (h y hl).1
  | addOn y e =>
    refine State.addTimerOn_same fun hl => ?_
    simpa [armsWith] using (h y hl).1
  | mod y e =>
    refine State.modTimer_same fun hl => ?_
    simpa [armsWith] using (h y hl).1
  | modPending y e =>
    refine State.modTimerCore_same (fun hl => ?_)
    simpa [armsWith] using (h y hl).1
  | modPinned y e =>
    refine State.modTimerPinned_same fun hl => ?_
    simpa [armsWith] using (h y hl).1
  | del y =>
    refine State.delTimer_same fun hl => ?_
    simpa [deletes] using (h y hl).2
  | tryDel y =>
    refine State.tryToDelTimerSync_same fun hl => ?_
    simpa [deletes] using (h y hl).2
  | run => exact absurd rfl hrun

/-! ## Events that arm a timer -/

/-- The timer is moved to the end of the list for its new value. -/
structure Armed (s s' : State τ) (x : τ) (e : Word) : Prop where
  lists : ∀ b, s'.lists b =
    (s.lists b).filter (· ≠ x) ++ if b = slotOf s.timerJiffies e then [x] else []
  expires : s'.expires x = e
  pending : s'.pending x = true
  timerJiffies : s'.timerJiffies = s.timerJiffies
  now : s'.now = s.now
  tick : s'.tick = s.tick
  log : s'.log = s.log

def Tracked (s : State τ) : Prop := ∀ x, s.pending x = false → ∀ b, x ∉ s.lists b

namespace State

lemma internalAddTimer_armed (hx : ∀ b, x ∉ s.lists b) :
    Armed s ({ s with expires := update s.expires x e }.internalAddTimer x) x e where
  lists b := by
    have hid := List.filter_eq_self.mpr fun y hy => decide_eq_true (ne_of_mem_of_not_mem hy (hx b))
    simp only [internalAddTimer, addToList, hid]
    by_cases hb : b = slotOf s.timerJiffies e
    · subst hb
      simp
    · simp [hb]
  expires := update_self ..
  pending := update_self ..
  timerJiffies := rfl
  now := rfl
  tick := rfl
  log := rfl

lemma modTimerCore_armed (hs : Tracked s) (h : s.pending x ∨ only = false) :
    Armed s (s.modTimerCore x e only).1 x e := by
  by_cases hp : s.pending x
  · have hlists : ∀ b, (s.detachIfPending x false).1.lists b = (s.lists b).filter (· ≠ x) := by
      rw [detachIfPending, if_pos hp]
      exact fun b => rfl
    have hmod : (s.modTimerCore x e only).1 = { (s.detachIfPending x false).1 with
          expires := update (s.detachIfPending x false).1.expires x e
          }.internalAddTimer x := by
      unfold modTimerCore
      simp [(detachIfPending_of_pending hp false).1]
    obtain ⟨-, -, -, ht', hn', hk', -⟩ := (detachIfPending_of_pending hp false).2 []
    have hg' : (s.detachIfPending x false).1.log = s.log := by
      rw [detachIfPending, if_pos hp]
      rfl
    obtain ⟨hl, he, hp, ht, hn, hk, hg⟩ :=
      internalAddTimer_armed (x := x) (e := e) (s := (s.detachIfPending x false).1)
        (by simp [hlists])
    rw [hmod]
    refine ⟨fun b => ?_, he, hp, ht.trans ht', hn.trans hn', hk.trans hk', hg.trans hg'⟩
    rw [hl, hlists, List.filter_filter, ht']
    simp only [Bool.and_self]
    rfl
  · have honly : only = false := h.resolve_left hp
    rw [modTimerCore, detachIfPending_of_not hp]
    simp only [honly]
    exact internalAddTimer_armed (hs x (by simpa using hp))

end State

lemma step_armed (hs : Tracked s) (h : armsWith s x ev = some e) : Armed s (step s ev) x e := by
  cases ev with
  | add y a =>
    obtain ⟨⟨rfl, hp⟩, rfl⟩ : (y = x ∧ ¬ s.pending x) ∧ s.applySlack x a = e := by
      simpa [armsWith] using h
    have hmod : step s (.add y a) = ({ s with expires := update s.expires y a }.modTimerCore y
          (s.applySlack y a) false).1 := by
      simp only [step, State.addTimer, State.modTimer, hp]
      rfl
    obtain ⟨hl, he, hp, ht, hn, hk, hg⟩ := State.modTimerCore_armed
      (s := { s with expires := update s.expires y a }) (x := y)
      (e := s.applySlack y a) hs (.inr rfl)
    rw [hmod]
    exact ⟨hl, he, hp, ht, hn, hk, hg⟩
  | addOn y a =>
    obtain ⟨⟨rfl, hp⟩, rfl⟩ : (y = x ∧ ¬ s.pending x) ∧ a = e := by
      simpa [armsWith] using h
    rw [step, State.addTimerOn, if_neg hp]
    exact State.internalAddTimer_armed (hs y (by simpa using hp))
  | mod y a =>
    obtain ⟨⟨rfl, hp⟩, rfl⟩ :
        (y = x ∧ ¬ (s.pending x ∧ s.expires x = s.applySlack x a)) ∧ s.applySlack x a = e := by
      simpa [armsWith] using h
    rw [step, State.modTimer, if_neg hp]
    exact State.modTimerCore_armed hs (.inr rfl)
  | modPending y a =>
    obtain ⟨⟨rfl, hp⟩, rfl⟩ : (y = x ∧ s.pending x) ∧ a = e := by simpa [armsWith] using h
    exact State.modTimerCore_armed hs (.inl hp)
  | modPinned y a =>
    obtain ⟨⟨rfl, hp⟩, rfl⟩ : (y = x ∧ ¬ (s.expires x = a ∧ s.pending x)) ∧ a = e := by
      simpa [armsWith] using h
    rw [step, State.modTimerPinned, if_neg hp]
    exact State.modTimerCore_armed hs (.inr rfl)
  | _ => simp [armsWith] at h

/-! ## Events that delete a timer -/

lemma State.detachIfPending_deleted (h : s.pending x) :
    (∀ b, x ∉ (s.detachIfPending x true).1.lists b) ∧
      (s.detachIfPending x true).1.pending x = false := by
  rw [detachIfPending, if_pos h]
  exact ⟨fun b => by simp [detachTimer], update_self ..⟩

lemma step_deleted (h : deletes s x ev) :
    (∀ b, x ∉ (step s ev).lists b) ∧ (step s ev).pending x = false := by
  cases ev with
  | del y =>
    obtain ⟨rfl, hp⟩ : y = x ∧ s.pending x := by simpa [deletes] using h
    rw [step, State.delTimer, if_pos hp]
    exact State.detachIfPending_deleted hp
  | tryDel y =>
    obtain ⟨rfl, hp, hr⟩ : y = x ∧ s.pending x ∧ s.runningTimer ≠ some x := by
      simpa [deletes] using h
    rw [step, State.tryToDelTimerSync, if_neg hr]
    exact State.detachIfPending_deleted hp
  | _ => simp [deletes] at h

end Mini2440.Timer
