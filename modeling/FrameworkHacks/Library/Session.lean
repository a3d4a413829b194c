import FrameworkHacks.Library.Exec
import Mathlib.Data.List.Basic
import Mathlib.Tactic.Common

/-!
# Requests that may go unanswered

A client sends requests to a server one after another and may give up on any of them, before it is sent or
while the server is at work on it. The server goes through with what it has taken, and takes nothing new
before that (`Exchanged`). `Session` is a run of such exchanges, with the list of the requests that were taken.

The server has then done what was taken, each once and in order, and what an answered request was answered
with is the answer to that request, given what was taken before it (`Session.exactlyOnce`).

Any program whose operations put requests to the server in this way has such a session (`Connects.session`).
-/

namespace Effects

variable {σ Q R : Type}

/-- A server: the answer to a request, and its state after it. -/
abbrev Server (σ Q R : Type) := σ → Q → R × σ

/-- The server and the request it is still at work on. -/
abbrev Pending (σ Q : Type) := σ × Option Q

section

variable (serve : Server σ Q R)

/-- The state once what is pending is done. -/
def settle (s : Pending σ Q) : σ :=
  match s.2 with
  | none => s.1
  | some q => (serve s.1 q).2

/-- The state after these requests. -/
def serveAll (s : σ) (qs : List Q) : σ := qs.foldl (fun s q => (serve s q).2) s

@[simp] theorem serveAll_nil (s : σ) : serveAll serve s [] = s := rfl

@[simp] theorem serveAll_cons (s : σ) (q : Q) (qs : List Q) :
    serveAll serve s (q :: qs) = serveAll serve (serve s q).2 qs := rfl

/-- One request, what the client got for it, and whether the server has taken it. -/
inductive Exchanged (q : Q) : Pending σ Q → Option R → Bool → Pending σ Q → Prop
  | unsent (s : Pending σ Q) : Exchanged q s none false s
  | unanswered (s : Pending σ Q) : Exchanged q s none true (settle serve s, some q)
  | answered (s : Pending σ Q) :
      Exchanged q s (some (serve (settle serve s) q).1) true ((serve (settle serve s) q).2, none)

inductive Session : Pending σ Q → List (Q × Option R) → List Q → Pending σ Q → Prop
  | nil (s : Pending σ Q) : Session s [] [] s
  | cons {s s' s'' : Pending σ Q} {q : Q} {r : Option R} {taken : Bool} {rest : List (Q × Option R)}
      {qs : List Q} : Exchanged serve q s r taken s' → Session s' rest qs s'' →
      Session s ((q, r) :: rest) (if taken then q :: qs else qs) s''

end

variable {serve : Server σ Q R} {s s' : Pending σ Q} {q : Q} {r : Option R} {taken : Bool}
  {log : List (Q × Option R)} {qs : List Q}

theorem Exchanged.settled (h : Exchanged serve q s r taken s') :
    settle serve s' = serveAll serve (settle serve s) (if taken then [q] else []) := by
  cases h <;> rfl

/-- **What was taken has been done, each request once and in order.** -/
theorem Session.settled (h : Session serve s log qs s') :
    settle serve s' = serveAll serve (settle serve s) qs := by
  induction h with
  | nil s => rfl
  | @cons s s' s'' q r taken rest qs hstep _ ih =>
    rw [ih, hstep.settled]
    cases taken <;> rfl

theorem Session.append {s'' : Pending σ Q} {log' : List (Q × Option R)} {qs' : List Q}
    (h : Session serve s log qs s') (h' : Session serve s' log' qs' s'') :
    Session serve s (log ++ log') (qs ++ qs') s'' := by
  induction h with
  | nil s => exact h'
  | @cons s s' _ q r taken rest qs hstep _ ih =>
    have hcons := Session.cons hstep (ih h')
    cases taken <;> exact hcons

theorem Session.sublist (h : Session serve s log qs s') : qs.Sublist (log.map Prod.fst) := by
  induction h with
  | nil s => exact List.Sublist.refl _
  | @cons s s' s'' q r taken rest qs _ _ ih =>
    cases taken with
    | true => exact ih.cons_cons q
    | false => exact ih.cons q

/-- **An answer is the answer to its request.** -/
theorem Session.answered (h : Session serve s log qs s') {before after : List (Q × Option R)} {a : R}
    (hlog : log = before ++ (q, some a) :: after) :
    ∃ earlier later, qs = earlier ++ q :: later ∧ earlier.Sublist (before.map Prod.fst) ∧
      later.Sublist (after.map Prod.fst) ∧ a = (serve (serveAll serve (settle serve s) earlier) q).1 := by
  induction h generalizing before with
  | nil s => cases before <;> cases hlog
  | @cons s s' s'' q' r taken rest qs hstep hrest ih =>
    cases before with
    | nil =>
      cases hlog
      cases hstep
      exact ⟨[], qs, rfl, List.Sublist.refl _, hrest.sublist, rfl⟩
    | cons e before =>
      cases hlog
      obtain ⟨earlier, later, rfl, hearlier, hlater, ha⟩ := ih rfl
      rw [hstep.settled] at ha
      cases taken with
      | true => exact ⟨q' :: earlier, later, rfl, hearlier.cons_cons q', hlater, ha⟩
      | false => exact ⟨earlier, later, rfl, hearlier.cons q', hlater, ha⟩

/-- What a client may rely on, whatever became of its requests. -/
structure ExactlyOnce (serve : Server σ Q R) (s : Pending σ Q) (log : List (Q × Option R)) (qs : List Q)
    (s' : Pending σ Q) : Prop where
  taken : qs.Sublist (log.map Prod.fst)
  done : settle serve s' = serveAll serve (settle serve s) qs
  answered : ∀ before q a after, log = before ++ (q, some a) :: after →
    ∃ earlier later, qs = earlier ++ q :: later ∧ earlier.Sublist (before.map Prod.fst) ∧
      later.Sublist (after.map Prod.fst) ∧ a = (serve (serveAll serve (settle serve s) earlier) q).1

theorem Session.exactlyOnce (h : Session serve s log qs s') : ExactlyOnce serve s log qs s' :=
  ⟨h.sublist, h.settled, fun _ _ _ _ hlog => h.answered hlog⟩

/-! ### Clients -/

section Clients

variable {E : Signature} {S α : Type}

/-- What the requests of a run were and what came of them. `request` is the request an operation makes, if it
makes one, and `got` what its answer tells of the response. -/
inductive Logged (request : E.Op → Option Q) (got : Event E → Option R → Prop) :
    Trace E → List (Q × Option R) → Prop
  | nil : Logged request got [] []
  | silent {e : Event E} {t : Trace E} {log : List (Q × Option R)} : request e.op = none →
      Logged request got t log → Logged request got (e :: t) log
  | asks {e : Event E} {q : Q} {r : Option R} {t : Trace E} {log : List (Q × Option R)} :
      request e.op = some q → got e r → Logged request got t log → Logged request got (e :: t) ((q, r) :: log)

theorem Logged.got {request : E.Op → Option Q} {got got' : Event E → Option R → Prop} {A : Option R → Prop}
    {t : Trace E} {log : List (Q × Option R)} (h : Logged request got t log)
    (hgot : ∀ e r, got e r → got' e r ∧ A r) : Logged request got' t log ∧ ∀ e ∈ log, A e.2 := by
  induction h with
  | nil => exact ⟨.nil, nofun⟩
  | silent hq _ ih => exact ⟨.silent hq ih.1, ih.2⟩
  | asks hq hr _ ih =>
    obtain ⟨hr, hA⟩ := hgot _ _ hr
    exact ⟨.asks hq hr ih.1, List.forall_mem_cons.2 ⟨hA, ih.2⟩⟩

/-- The device `g` puts the requests of the operations in `P` to the server, of which it shows `view`. -/
structure Connects (serve : Server σ Q R) (g : Handler E S) (view : S → Pending σ Q)
    (request : E.Op → Option Q) (got : Event E → Option R → Prop) (P : E.Op → Prop) : Prop where
  silent : ∀ op s, P op → request op = none → ∃ x s', g op s = .ok (x, s') ∧ view s' = view s
  asks : ∀ op s q, P op → request op = some q → ∃ x s' r taken, g op s = .ok (x, s') ∧
    Exchanged serve q (view s) r taken (view s') ∧ got ⟨op, x⟩ r

/-- **Whatever a client does, it is a session.** -/
theorem Connects.session {g : Handler E S} {view : S → Pending σ Q} {request : E.Op → Option Q}
    {got : Event E → Option R → Prop} {P : E.Op → Prop} (hc : Connects serve g view request got P) {p : Prog E α}
    (hp : Prog.Holds (fun _ => False) (fun _ => True) (fun e => P e.op) (fun _ => True) p)
    (hans : ∀ op, Nonempty (E.Ans op)) (s : S) :
    ∃ a s' t log qs, p.exec g s = (.ok a, s') ∧ Run p t (.done a) ∧ Logged request got t log ∧
      Session serve (view s) log qs (view s') := by
  induction p generalizing s with
  | ret a => exact ⟨a, s, [], [], [], rfl, .ret a, .nil, .nil _⟩
  | halt r => exact False.elim hp
  | call op k ih =>
    obtain ⟨x₀⟩ := hans op
    have hop : P op := (hp x₀).1
    -- what the rest of the client does, once the operation is answered
    have hrest {x : E.Ans op} {s₁ : S} (hg : g op s = .ok (x, s₁)) : ∃ a s' t log qs,
        (Prog.call op k).exec g s = (.ok a, s') ∧ Run (.call op k) (⟨op, x⟩ :: t) (.done a) ∧
          Logged request got t log ∧ Session serve (view s₁) log qs (view s') := by
      obtain ⟨a, s', t, log, qs, hexec, hrun, hlogged, hsession⟩ := ih x ((hp x).2 trivial) s₁
      exact ⟨a, s', t, log, qs, by simp only [Prog.exec, hg, hexec], .call hrun, hlogged, hsession⟩
    cases hq : request op with
    | none =>
      obtain ⟨x, s₁, hg, hview⟩ := hc.silent op s hop hq
      obtain ⟨a, s', t, log, qs, hexec, hrun, hlogged, hsession⟩ := hrest hg
      rw [hview] at hsession
      exact ⟨a, s', _, log, qs, hexec, hrun, .silent hq hlogged, hsession⟩
    | some q =>
      obtain ⟨x, s₁, r, taken, hg, hstep, hgot⟩ := hc.asks op s q hop hq
      obtain ⟨a, s', t, log, qs, hexec, hrun, hlogged, hsession⟩ := hrest hg
      exact ⟨a, s', _, _, _, hexec, hrun, .asks hq hgot hlogged, .cons hstep hsession⟩

end Clients

end Effects
