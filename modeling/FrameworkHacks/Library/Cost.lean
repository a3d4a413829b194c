import Mathlib.Algebra.GroupWithZero.Nat
import FrameworkHacks.Library.Run

/-!
# Bounded runs

`Prog.Within cost Q p b`: whatever the answers, the operations of `p` cost at most `b` in all, `p` does
not stop without a result, and its result satisfies `Q`. The loop rule (`Within.loop`) charges each
round the same and takes the number of rounds from a measure of the state.
-/

namespace Effects

namespace Prog

variable {E : Signature} {α β σ ρ : Type} {cost : E.Op → Nat} {Q : α → Prop} {R : β → Prop}

def Within (cost : E.Op → Nat) (Q : α → Prop) : Prog E α → Nat → Prop
  | .ret a, _ => Q a
  | .halt _, _ => False
  | .call op k, b => cost op ≤ b ∧ ∀ x, Within cost Q (k x) (b - cost op)

@[simp] theorem within_pure {a : α} {b : Nat} : Within cost Q (pure a) b ↔ Q a := Iff.rfl

theorem Within.mono {p : Prog E α} {b b' : Nat} (h : Within cost Q p b) (hb : b ≤ b') :
    Within cost Q p b' := by
  induction p generalizing b b' with
  | ret a => exact h
  | halt r => exact h
  | call op k ih => exact ⟨Nat.le_trans h.1 hb, fun x => ih x (h.2 x) (by omega)⟩

theorem Within.bind {p : Prog E α} {f : α → Prog E β} {b c : Nat} (hp : Within cost Q p b)
    (hf : ∀ a, Q a → Within cost R (f a) c) : Within cost R (p >>= f) (b + c) := by
  induction p generalizing b with
  | ret a => exact (hf a hp).mono (by omega)
  | halt r => exact hp
  | call op k ih =>
    refine ⟨Nat.le_trans hp.1 (Nat.le_add_right b c), fun x => ?_⟩
    rw [Nat.sub_add_comm hp.1]
    exact ih x (hp.2 x)

theorem Within.perform_bind {op : E.Op} {f : E.Ans op → Prog E β} {b : Nat}
    (hf : ∀ x, Within cost R (f x) b) : Within cost R (perform op >>= f) (cost op + b) :=
  ⟨Nat.le_add_right _ b, fun x => by rw [Nat.add_sub_cancel_left]; exact hf x⟩

/-- Every round costs at most `b`, and one that goes on lowers `μ`. -/
theorem Within.loop {body : σ → Prog E (ρ ⊕ σ)} {Q : ρ → Prop} (μ : σ → Nat) {b : Nat}
    (hbody : ∀ s, Within cost (Sum.elim Q fun s' => μ s' < μ s) (body s) b) (n : Nat) (s : σ)
    (hn : μ s < n) : Within cost Q (Prog.loop body n s) ((μ s + 1) * b) := by
  induction n generalizing s with
  | zero => omega
  | succ n ih =>
    rw [loop_succ, Nat.add_mul, Nat.one_mul, Nat.add_comm]
    apply (hbody s).bind
    intro r hr
    cases r with
    | inl r => exact hr
    | inr s' =>
      have hlt : μ s' < μ s := hr
      exact (ih s' (by omega)).mono (Nat.mul_le_mul_right b hlt)

theorem Within.run {p : Prog E α} {t : Trace E} {o : Outcome α} {b : Nat} (h : Within cost Q p b)
    (hr : Run p t o) : (t.map fun e => cost e.op).sum ≤ b ∧ ∀ r, o ≠ .halted r := by
  induction hr generalizing b with
  | ret a => exact ⟨Nat.zero_le b, nofun⟩
  | halt r => exact h.elim
  | running p => exact ⟨Nat.zero_le b, nofun⟩
  | @call op x k t o _ ih =>
    have hcost := h.1
    obtain ⟨hsum, ho⟩ := ih (h.2 x)
    rw [List.map_cons, List.sum_cons]
    exact ⟨by simp only []; omega, ho⟩

end Prog

end Effects
