import Mathlib.Data.List.Basic
import Mathlib.Data.List.Perm.Basic

/-! A replicated log whose state machine remembers the serial number of the last request and skips a
request that carries it again. `Fresh` says that no request of a log is skipped; then the state is that
of the last request. `Serial` runs operations one after the other and asks for given answers. -/

namespace ReplicatedLog

open List

variable {β : Type}

structure Request (β : Type) where
  serial : Nat
  status : β

/-- The state machine for one client: the serial it saw last and the status it keeps. -/
structure Machine (β : Type) where
  last : Option Nat := none
  status : Option β := none

namespace Machine

def accepts (m : Machine β) (r : Request β) : Bool := m.last ≠ some r.serial

/-- A request with the serial that was seen last changes nothing. -/
def apply (m : Machine β) (r : Request β) : Machine β :=
  if m.accepts r then ⟨some r.serial, some r.status⟩ else m

theorem last_apply (m : Machine β) (r : Request β) : (m.apply r).last = some r.serial := by
  unfold apply accepts
  by_cases h : m.last = some r.serial
  · simp [h]
  · simp [h]

theorem status_apply {m : Machine β} {r : Request β} (h : m.accepts r = true) : (m.apply r).status = some r.status := by
  rw [apply, if_pos h]

end Machine

variable (log : List (Request β))

/-- The state machine after a log. -/
def replay : Machine β := log.foldl Machine.apply {}

theorem replay_snoc (r : Request β) : replay (log ++ [r]) = (replay log).apply r := by
  rw [replay, foldl_append]
  rfl

theorem last_replay : (replay log).last = log.getLast?.map (·.serial) := by
  rcases eq_nil_or_concat log with rfl | ⟨front, r, rfl⟩
  · rfl
  · rw [concat_eq_append, replay_snoc, Machine.last_apply]
    simp

def Fresh : Prop := ∀ p r, log[p]? = some r → (replay (log.take p)).accepts r = true

theorem fresh_nil : Fresh ([] : List (Request β)) := by
  intro p r h
  simp at h

theorem Fresh.snoc {log : List (Request β)} {r : Request β} (hlog : Fresh log)
    (hr : (replay log).accepts r = true) : Fresh (log ++ [r]) := by
  intro p s hs
  rcases Nat.lt_trichotomy p log.length with hlt | heq | hgt
  · rw [List.getElem?_append_left hlt] at hs
    rw [take_append_of_le_length (Nat.le_of_lt hlt)]
    exact hlog p s hs
  · subst heq
    rw [List.getElem?_concat_length] at hs
    cases hs
    rw [take_append_of_le_length (Nat.le_refl _), take_length]
    exact hr
  · rw [List.getElem?_eq_none (by simp; omega)] at hs
    cases hs

theorem Fresh.take {log : List (Request β)} (hlog : Fresh log) (n : Nat) : Fresh (log.take n) := by
  intro p r hr
  have hp : p < n := by
    have hlen := (List.getElem?_eq_some_iff.mp hr).1
    rw [length_take] at hlen
    omega
  rw [List.getElem?_take_of_lt hp] at hr
  rw [take_take, Nat.min_eq_left (Nat.le_of_lt hp)]
  exact hlog p r hr

/-! ### Operations one after the other -/

section

variable {σ ο ρ : Type} (exec : σ → ο → Option (ρ × σ))

/-- The operations run one after the other from the first state, with the given answers, and end in the
second. -/
def Serial : σ → List (ο × ρ) → σ → Prop
  | s, [], s' => s = s'
  | s, (op, answer) :: ops, s' => ∃ m, exec s op = some (answer, m) ∧ Serial m ops s'

theorem serial_snoc {s s' : σ} {ops : List (ο × ρ)} {op : ο} {answer : ρ} : Serial exec s (ops ++ [(op, answer)]) s' ↔
      ∃ m, Serial exec s ops m ∧ exec m op = some (answer, s') := by
  induction ops generalizing s with
  | nil => simp [Serial]
  | cons head ops ih =>
    simp only [cons_append, Serial, ih]
    constructor
    · rintro ⟨m, hm, k, hk, h⟩
      exact ⟨k, ⟨m, hm, hk⟩, h⟩
    · rintro ⟨k, ⟨m, hm, hk⟩, h⟩
      exact ⟨m, hm, k, hk, h⟩

end

end ReplicatedLog
