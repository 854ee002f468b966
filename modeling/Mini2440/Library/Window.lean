import Mathlib.Data.List.Basic

/-!
# A queue with a window of entries in flight

A producer appends entries, a loader hands the entry under a cursor to an engine, and the
engine finishes the entries it was given in that order. The entries in flight are never
more than the entries that the cursor has passed, and the cursor never leaves the queue;
both facts are fields, so every window has them.

`InStep` is the useful case: the entries in flight are exactly the ones in front of the
cursor. Halting the engine forgets the entries in flight without moving the cursor back,
which is the one operation that can lose `InStep`.
-/

namespace Mini2440.Library

open List

/-- A queue of entries, the ones handed to the engine, and the position of the next to hand. -/
@[ext] structure Window (α : Type*) where
  items : List α
  flight : List α
  cursor : Nat
  flight_le : flight.length ≤ cursor
  cursor_le : cursor ≤ items.length

namespace Window

variable {α : Type*} {w : Window α} {x : α} {n : Nat}

@[simps] def empty : Window α := ⟨[], [], 0, Nat.le_refl _, Nat.le_refl _⟩

def upcoming (w : Window α) : Option α := w.items[w.cursor]?

@[simps] def push (w : Window α) (x : α) : Window α where
  items := w.items ++ [x]
  flight := w.flight
  cursor := w.cursor
  flight_le := w.flight_le
  cursor_le := by have := w.cursor_le; simp; omega

/-- Hand over the next `n` entries, or as many as there are. -/
@[simps] def ahead (w : Window α) (n : Nat) : Window α where
  items := w.items
  flight := w.flight ++ (w.items.drop w.cursor).take n
  cursor := min (w.cursor + n) w.items.length
  flight_le := by have := w.flight_le; have := w.cursor_le; simp; omega
  cursor_le := Nat.min_le_right _ _

/-- The engine finishes the oldest entry in flight and the queue drops its first entry. -/
@[simps] def finish (w : Window α) : Window α where
  items := w.items.tail
  flight := w.flight.tail
  cursor := w.cursor - 1
  flight_le := by have := w.flight_le; simp; omega
  cursor_le := by have := w.cursor_le; simp; omega

@[simps] def halt (w : Window α) : Window α where
  items := w.items
  flight := []
  cursor := w.cursor
  flight_le := by simp
  cursor_le := w.cursor_le

@[simp] lemma ahead_zero : w.ahead 0 = w := by
  have := w.cursor_le
  ext1 <;> simp
  omega

lemma ahead_ahead (m n : Nat) : (w.ahead m).ahead n = w.ahead (m + n) := by
  have hdrop : w.items.drop (min (w.cursor + m) w.items.length) =
      (w.items.drop w.cursor).drop m := by
    rw [drop_drop]
    rcases Nat.le_total (w.cursor + m) w.items.length with h | h
    · rw [Nat.min_eq_left h]
    · rw [Nat.min_eq_right h, drop_length, drop_eq_nil_of_le h]
  ext1
  · rfl
  · simp [hdrop, take_add]
  · simp only [ahead_cursor, ahead_items]
    omega

lemma flight_ahead_one (h : w.upcoming = some x) : (w.ahead 1).flight = w.flight ++ [x] := by
  obtain ⟨hlt, hx⟩ := List.getElem?_eq_some_iff.mp h
  simp [List.drop_eq_getElem_cons hlt, hx]

lemma upcoming_ahead_one (h : w.upcoming = some x) :
    (w.ahead 1).upcoming = w.items[w.cursor + 1]? := by
  obtain ⟨hlt, -⟩ := List.getElem?_eq_some_iff.mp h
  have hmin : min (w.cursor + 1) w.items.length = w.cursor + 1 := by omega
  simp [upcoming, hmin]

lemma upcoming_eq_none : w.upcoming = none ↔ w.cursor = w.items.length := by
  have := w.cursor_le
  simp only [upcoming, getElem?_eq_none_iff]
  omega

/-- A new entry is the upcoming one exactly when everything before it was handed over. -/
lemma upcoming_push : (w.push x).upcoming = some (w.upcoming.getD x) := by
  cases h : w.upcoming with
  | none =>
    have := upcoming_eq_none.mp h
    simp [upcoming, this]
  | some y =>
    obtain ⟨hlt, -⟩ := List.getElem?_eq_some_iff.mp h
    simpa [upcoming, List.getElem?_append_left hlt] using h

/-- While an entry is in flight, dropping the first entry does not disturb the upcoming one. -/
lemma upcoming_finish (h : w.flight ≠ []) : w.finish.upcoming = w.upcoming := by
  have hpos : 0 < w.flight.length := length_pos_iff.mpr h
  have hcur : w.cursor - 1 + 1 = w.cursor := by have := w.flight_le; omega
  simp [upcoming, hcur]

lemma items_ne_nil (h : w.flight ≠ []) : w.items ≠ [] := by
  have hpos : 0 < w.flight.length := length_pos_iff.mpr h
  have := w.flight_le
  have := w.cursor_le
  exact length_pos_iff.mp (by omega)

lemma halt_eq_self (h : w.flight = []) : w.halt = w := by
  ext1 <;> simp [h]

def InStep (w : Window α) : Prop := w.flight = w.items.take w.cursor

lemma InStep.cursor_eq (h : w.InStep) : w.cursor = w.flight.length := by
  have := w.cursor_le
  rw [h]
  simp
  omega

lemma inStep_empty : (empty : Window α).InStep := rfl

lemma InStep.push (h : w.InStep) : (w.push x).InStep := by
  simp only [InStep, push_items, push_cursor, take_append_of_le_length w.cursor_le]
  exact h

lemma InStep.ahead (h : w.InStep) : (w.ahead n).InStep := by
  simp only [InStep, ahead_flight]
  rw [h, ← take_add]
  exact take_eq_take_min

lemma InStep.finish (h : w.InStep) : w.finish.InStep := by
  simp only [InStep, finish_flight, finish_items, finish_cursor]
  rw [h]
  cases w.items <;> cases w.cursor <;> simp

lemma InStep.head (h : w.InStep) (busy : w.flight ≠ []) : w.flight.head? = w.items.head? := by
  have hpos : 0 < w.flight.length := length_pos_iff.mpr busy
  have hcur := h.cursor_eq
  rw [h]
  simp [head?_take]
  omega

end Window

end Mini2440.Library
