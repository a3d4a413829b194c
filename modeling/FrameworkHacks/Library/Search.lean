import Mathlib.Tactic.Common

/-!
# Linear searches

The first of `n` places, `stride` apart, at which a predicate holds. `searchFrom_eq_some` describes the
result without the loop.
-/

namespace Effects

def searchFrom (p : Nat → Prop) [DecidablePred p] (stride i : Nat) : Nat → Option Nat
  | 0 => none
  | n + 1 => if p i then some i else searchFrom p stride (i + stride) n

theorem searchFrom_eq_some (p : Nat → Prop) [DecidablePred p] (stride i n found : Nat) :
    searchFrom p stride i n = some found ↔ ∃ k < n, found = i + stride * k ∧ p found ∧
      ∀ j < k, ¬ p (i + stride * j) := by
  induction n generalizing i with
  | zero =>
    refine ⟨fun h => (by cases h), fun h => ?_⟩
    obtain ⟨k, hk, -⟩ := h
    omega
  | succ n ih =>
    have hnext : ∀ j, i + stride * (j + 1) = i + stride + stride * j := fun j => by
      rw [Nat.mul_succ]
      omega
    rw [searchFrom]
    by_cases hp : p i
    · rw [if_pos hp]
      constructor
      · intro h
        have hfound : i = found := Option.some.inj h
        exact ⟨0, by omega, by rw [← hfound, Nat.mul_zero, Nat.add_zero], hfound ▸ hp, by omega⟩
      · intro h
        obtain ⟨k, -, hfound, -, hfirst⟩ := h
        cases k with
        | zero => rw [hfound, Nat.mul_zero, Nat.add_zero]
        | succ k => exact absurd hp (hfirst 0 (by omega))
    · rw [if_neg hp, ih]
      constructor
      · intro h
        obtain ⟨k, hk, hfound, hp', hfirst⟩ := h
        refine ⟨k + 1, by omega, by rw [hnext, hfound], hp', fun j hj => ?_⟩
        cases j with
        | zero => exact hp
        | succ j =>
          rw [hnext]
          exact hfirst j (by omega)
      · intro h
        obtain ⟨k, hk, hfound, hp', hfirst⟩ := h
        cases k with
        | zero =>
          rw [Nat.mul_zero, Nat.add_zero] at hfound
          exact absurd (hfound ▸ hp') hp
        | succ k =>
          rw [hnext] at hfound
          refine ⟨k, by omega, hfound, hp', fun j hj => ?_⟩
          rw [← hnext]
          exact hfirst (j + 1) (by omega)

end Effects
