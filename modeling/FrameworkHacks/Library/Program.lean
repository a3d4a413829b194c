import Mathlib.Data.List.Basic
import Mathlib.Tactic.Common

/-!
# Programs with effects

A program over an effect signature is a finite tree: it returns, it stops without a result, or it
calls an operation and goes on with the answer. What an operation means is left open here: `Run`
(in `Library.Run`) lets every answer happen, `Prog.exec` (in `Library.Exec`) takes the answers from
a handler.

A program stops without a result in two ways. `fault` is undefined behaviour (an access outside an
object, a division by zero); nothing after it is promised. `fuel` is a loop whose body was entered
more often than its bound allows.
-/

namespace Effects

/-- The operations a program may call and, for each, the type of its answer. -/
structure Signature where
  Op : Type
  Ans : Op → Type

/-- Why a program stopped without a result. -/
inductive Halt
  | fault
  | fuel
  deriving DecidableEq, Repr

inductive Prog (E : Signature) (α : Type) where
  | ret (a : α)
  | halt (h : Halt)
  | call (op : E.Op) (k : E.Ans op → Prog E α)

namespace Prog

variable {E : Signature} {α β γ σ ρ : Type}

def bind : Prog E α → (α → Prog E β) → Prog E β
  | .ret a, f => f a
  | .halt h, _ => .halt h
  | .call op k, f => .call op fun x => (k x).bind f

instance : Monad (Prog E) where
  pure := ret
  bind := bind

theorem pure_def (a : α) : (pure a : Prog E α) = ret a := rfl

theorem bind_def (p : Prog E α) (f : α → Prog E β) : p >>= f = p.bind f := rfl

@[simp] theorem halt_bind (h : Halt) (f : α → Prog E β) : (halt h : Prog E α) >>= f = halt h := rfl

@[simp] theorem call_bind (op : E.Op) (k : E.Ans op → Prog E α) (f : α → Prog E β) :
    call op k >>= f = call op fun x => k x >>= f := rfl

theorem bind_ret (p : Prog E α) : p.bind ret = p := by
  induction p with
  | ret a => rfl
  | halt h => rfl
  | call op k ih => simp only [bind, ih]

theorem bind_assoc' (p : Prog E α) (f : α → Prog E β) (g : β → Prog E γ) :
    (p.bind f).bind g = p.bind fun a => (f a).bind g := by
  induction p with
  | ret a => rfl
  | halt h => rfl
  | call op k ih => simp only [bind, ih]

instance : LawfulMonad (Prog E) :=
  LawfulMonad.mk' _ bind_ret (fun _ _ => rfl) bind_assoc'

/-- Call one operation and return its answer. -/
def perform (op : E.Op) : Prog E (E.Ans op) := .call op .ret

/-! A program that returns without an operation. -/

theorem bind_eq_pure {p : Prog E α} {f : α → Prog E β} {b : β} (h : p >>= f = pure b) :
    ∃ a, p = pure a ∧ f a = pure b := by
  cases p with
  | ret a => exact ⟨a, rfl, h⟩
  | halt r => cases h
  | call op k => cases h

theorem perform_bind_ne_pure (op : E.Op) (f : E.Ans op → Prog E β) (b : β) :
    perform op >>= f ≠ pure b := by
  intro h
  cases h

/-- Undefined behaviour. -/
def fault : Prog E α := .halt .fault

@[simp] theorem fault_bind (f : α → Prog E β) : (fault : Prog E α) >>= f = fault := rfl

/-- A loop: each round leaves with a result or goes round again with a new state. -/
def loop (body : σ → Prog E (ρ ⊕ σ)) : Nat → σ → Prog E ρ
  | 0, _ => .halt .fuel
  | n + 1, s => do
    match ← body s with
    | .inl r => pure r
    | .inr s => loop body n s

@[simp] theorem loop_zero (body : σ → Prog E (ρ ⊕ σ)) (s : σ) : loop body 0 s = .halt .fuel := rfl

theorem loop_succ (body : σ → Prog E (ρ ⊕ σ)) (n : Nat) (s : σ) :
    loop body (n + 1) s = body s >>= fun
      | .inl r => pure r
      | .inr s => loop body n s := rfl

/-- `for (i = lo; i < lo + n; ++i) s = body(i, s);` -/
def forRange (body : Nat → σ → Prog E σ) : (lo n : Nat) → σ → Prog E σ
  | _, 0, s => pure s
  | lo, n + 1, s => do
    let s ← body lo s
    forRange body (lo + 1) n s

@[simp] theorem forRange_zero (body : Nat → σ → Prog E σ) (lo : Nat) (s : σ) :
    forRange body lo 0 s = pure s := rfl

theorem forRange_succ (body : Nat → σ → Prog E σ) (lo n : Nat) (s : σ) :
    forRange body lo (n + 1) s = body lo s >>= forRange body (lo + 1) n := rfl

end Prog

end Effects
