import FrameworkHacks.Library.Program

/-!
# Runs under every answer

`Run p t o`: the program `p` can perform the events `t`, each operation answered as recorded, and be
in situation `o` afterwards: finished with a result, stopped, or still going. Since a run may be
looked at before its end, every prefix of a run is a run.

`Prog.Holds H G P Q p` is the proof rule for properties of single events: as long as the answers
satisfy `G`, every event satisfies `P`, the result satisfies `Q`, and the program stops without one
only for a reason in `H`. It is computed along the tree, so a loop needs only an invariant of its
state (`Holds.loop`), and a measure where it must not run out of fuel (`Holds.loop_lt`).
-/

namespace Effects

/-- One operation together with the answer it got. -/
structure Event (E : Signature) where
  op : E.Op
  ans : E.Ans op

abbrev Trace (E : Signature) := List (Event E)

inductive Outcome (α : Type) where
  | done (a : α)
  | halted (h : Halt)
  | running

inductive Run {E : Signature} {α : Type} : Prog E α → Trace E → Outcome α → Prop
  | ret (a : α) : Run (.ret a) [] (.done a)
  | halt (h : Halt) : Run (.halt h) [] (.halted h)
  | running (p : Prog E α) : Run p [] .running
  | call {op : E.Op} {x : E.Ans op} {k : E.Ans op → Prog E α} {t : Trace E} {o : Outcome α} :
      Run (k x) t o → Run (.call op k) (⟨op, x⟩ :: t) o

variable {E : Signature} {α β σ ρ : Type}

namespace Run

/-! ### What a run of each form looks like -/

theorem pure_done {a b : α} {t : Trace E} (h : Run (pure a : Prog E α) t (.done b)) :
    t = [] ∧ b = a := by
  cases h
  exact ⟨rfl, rfl⟩

theorem pure_nil {a : α} {t : Trace E} {o : Outcome α} (h : Run (pure a : Prog E α) t o) :
    t = [] := by
  cases h <;> rfl

theorem halt_not_done {r : Halt} {t : Trace E} {a : α} : ¬ Run (.halt r : Prog E α) t (.done a) :=
  nofun

theorem halt_nil {r : Halt} {t : Trace E} {o : Outcome α} (h : Run (.halt r : Prog E α) t o) :
    t = [] := by
  cases h <;> rfl

theorem perform_done {op : E.Op} {x : E.Ans op} {t : Trace E}
    (h : Run (Prog.perform op) t (.done x)) : t = [⟨op, x⟩] := by
  cases h with
  | call h => cases h; rfl

theorem perform (op : E.Op) (x : E.Ans op) : Run (Prog.perform op) [⟨op, x⟩] (.done x) :=
  .call (.ret x)

/-! ### Sequencing -/

theorem bind {p : Prog E α} {f : α → Prog E β} {t u : Trace E} {a : α} {o : Outcome β}
    (hp : Run p t (.done a)) (hf : Run (f a) u o) : Run (p >>= f) (t ++ u) o := by
  generalize ho : Outcome.done a = r at hp
  induction hp with
  | ret b => cases ho; exact hf
  | halt h => cases ho
  | running p => cases ho
  | call _ ih => exact .call (ih ho)

theorem perform_bind {op : E.Op} {x : E.Ans op} {f : E.Ans op → Prog E β} {t : Trace E}
    {o : Outcome β} (hf : Run (f x) t o) : Run (Prog.perform op >>= f) (⟨op, x⟩ :: t) o :=
  .call hf

theorem perform_bind_iff {op : E.Op} {x : E.Ans op} {f : E.Ans op → Prog E β} {t : Trace E}
    {o : Outcome β} : Run (Prog.perform op >>= f) (⟨op, x⟩ :: t) o ↔ Run (f x) t o := by
  refine ⟨fun h => ?_, .perform_bind⟩
  cases h with
  | call h => exact h

theorem bind_running {p : Prog E α} {f : α → Prog E β} {t : Trace E} (h : Run p t .running) :
    Run (p >>= f) t .running := by
  generalize hr : (Outcome.running : Outcome α) = o at h
  induction h with
  | ret a => cases hr
  | halt h => cases hr
  | running p => exact .running _
  | call _ ih => exact .call (ih hr)

theorem bind_inv {p : Prog E α} {f : α → Prog E β} {t : Trace E} {o : Outcome β}
    (h : Run (p >>= f) t o) :
    (∃ u v a, t = u ++ v ∧ Run p u (.done a) ∧ Run (f a) v o) ∨
      (∃ r, Run p t (.halted r) ∧ o = .halted r) ∨ (Run p t .running ∧ o = .running) := by
  induction p generalizing t with
  | ret a => exact .inl ⟨[], t, a, rfl, .ret a, h⟩
  | halt r =>
    rcases h with _ | _ | _
    · exact .inr (.inl ⟨r, .halt r, rfl⟩)
    · exact .inr (.inr ⟨.running _, rfl⟩)
  | call op k ih =>
    cases h with
    | running => exact .inr (.inr ⟨.running _, rfl⟩)
    | @call _ x _ t _ h =>
      rcases ih x h with ⟨u, v, a, rfl, hu, hv⟩ | ⟨r, hr, rfl⟩ | ⟨hr, rfl⟩
      · exact .inl ⟨_, v, a, rfl, .call hu, hv⟩
      · exact .inr (.inl ⟨r, .call hr, rfl⟩)
      · exact .inr (.inr ⟨.call hr, rfl⟩)

theorem bind_cases {p : Prog E α} {f : α → Prog E β} {t : Trace E} {o : Outcome β}
    (h : Run (p >>= f) t o) :
    (∃ u v a, t = u ++ v ∧ Run p u (.done a) ∧ Run (f a) v o) ∨
      ∃ o', Run p t o' ∧ (∀ a, o' ≠ .done a) ∧ ∀ b, o ≠ .done b := by
  rcases h.bind_inv with h | ⟨r, hr, rfl⟩ | ⟨hr, rfl⟩
  · exact .inl h
  · exact .inr ⟨_, hr, nofun, nofun⟩
  · exact .inr ⟨_, hr, nofun, nofun⟩

theorem bind_done {p : Prog E α} {f : α → Prog E β} {t : Trace E} {b : β}
    (h : Run (p >>= f) t (.done b)) :
    ∃ u v a, t = u ++ v ∧ Run p u (.done a) ∧ Run (f a) v (.done b) := by
  rcases h.bind_inv with h | ⟨_, _, h⟩ | ⟨_, h⟩
  · exact h
  · cases h
  · cases h

theorem perform_bind_done {op : E.Op} {f : E.Ans op → Prog E β} {t : Trace E} {b : β}
    (h : Run (Prog.perform op >>= f) t (.done b)) :
    ∃ x u, t = ⟨op, x⟩ :: u ∧ Run (f x) u (.done b) := by
  obtain ⟨u, v, x, rfl, hu, hv⟩ := h.bind_done
  cases hu.perform_done
  exact ⟨x, v, rfl, hv⟩

/-- The answers fix where a run ends. -/
theorem done_of_prefix {p : Prog E α} {u t : Trace E} {a : α} {o : Outcome α} (hu : Run p u (.done a))
    (ht : Run p t o) (hpre : u <+: t) : t = u ∧ (o = .done a ∨ o = .running) := by
  generalize hr : Outcome.done a = r at hu
  induction hu generalizing t with
  | ret b =>
    cases hr
    cases ht with
    | ret => exact ⟨rfl, .inl rfl⟩
    | running => exact ⟨rfl, .inr rfl⟩
  | halt h => cases hr
  | running p => cases hr
  | call _ ih =>
    cases ht with
    | running => exact absurd (List.prefix_nil.1 hpre) (List.cons_ne_nil _ _)
    | call ht =>
      obtain ⟨hhead, htail⟩ := List.cons_prefix_cons.1 hpre
      cases hhead
      obtain ⟨rfl, ho⟩ := ih ht htail hr
      exact ⟨rfl, ho⟩

/-- Two finished runs that begin the same trace are one. -/
theorem done_unique {p : Prog E α} {u v t : Trace E} {a b : α} (hu : Run p u (.done a))
    (hv : Run p v (.done b)) (hut : u <+: t) (hvt : v <+: t) : u = v ∧ a = b := by
  rcases List.prefix_or_prefix_of_prefix hut hvt with hpre | hpre
  · obtain ⟨rfl, ho⟩ := hu.done_of_prefix hv hpre
    rcases ho with ho | ho <;> cases ho
    exact ⟨rfl, rfl⟩
  · obtain ⟨rfl, ho⟩ := hv.done_of_prefix hu hpre
    rcases ho with ho | ho <;> cases ho
    exact ⟨rfl, rfl⟩

end Run

/-! ### A run with given answers -/

namespace Prog

/-- The events when every operation gets its answer from `answer`. -/
def transcript (answer : (op : E.Op) → E.Ans op) : Prog E α → Trace E
  | .ret _ => []
  | .halt _ => []
  | .call op k => ⟨op, answer op⟩ :: (k (answer op)).transcript answer

/-- The situation after them. -/
def outcome (answer : (op : E.Op) → E.Ans op) : Prog E α → Outcome α
  | .ret a => .done a
  | .halt r => .halted r
  | .call op k => (k (answer op)).outcome answer

theorem run_transcript (answer : (op : E.Op) → E.Ans op) (p : Prog E α) :
    Run p (p.transcript answer) (p.outcome answer) := by
  induction p with
  | ret a => exact .ret a
  | halt r => exact .halt r
  | call op k ih => exact .call (ih (answer op))

theorem ans_of_transcript {answer : (op : E.Op) → E.Ans op} {p : Prog E α} {e : Event E}
    (h : e ∈ p.transcript answer) : e.ans = answer e.op := by
  induction p with
  | ret a => cases h
  | halt r => cases h
  | call op k ih =>
    rcases List.mem_cons.1 h with rfl | h
    · rfl
    · exact ih (answer op) h

theorem outcome_ne_running (answer : (op : E.Op) → E.Ans op) (p : Prog E α) : p.outcome answer ≠ .running := by
  induction p with
  | ret a => exact nofun
  | halt r => exact nofun
  | call op k ih => exact ih (answer op)

end Prog

/-- Every run is without events, and one that is over has returned `a`. -/
def Prog.Returns (p : Prog E α) (a : α) : Prop :=
  ∀ t o, Run p t o → t = [] ∧ (o = .running ∨ o = .done a)

theorem Prog.returns_iff (answer : (op : E.Op) → E.Ans op) {p : Prog E α} {a : α} :
    p.Returns a ↔ p = pure a := by
  constructor
  · intro h
    cases p with
    | ret b =>
      obtain hb | hb := (h _ _ (.ret b)).2
      · cases hb
      · cases hb
        rfl
    | halt r =>
      obtain hr | hr := (h _ _ (.halt r)).2
      · cases hr
      · cases hr
    | call op k =>
      have hnil := (h _ _ (.call (.running (k (answer op))))).1
      cases hnil
  · rintro rfl t o h
    cases h with
    | ret => exact ⟨rfl, .inr rfl⟩
    | running => exact ⟨rfl, .inl rfl⟩

/-! ### Properties of events -/

namespace Prog

variable {H : Halt → Prop} {G P : Event E → Prop} {Q : α → Prop} {R : β → Prop}

/-- While the answers satisfy `G`, every event of `p` satisfies `P`, its result satisfies `Q`, and if
it stops it is for a reason in `H`. -/
def Holds (H : Halt → Prop) (G P : Event E → Prop) (Q : α → Prop) : Prog E α → Prop
  | .ret a => Q a
  | .halt r => H r
  | .call op k => ∀ x, P ⟨op, x⟩ ∧ (G ⟨op, x⟩ → Holds H G P Q (k x))

@[simp] theorem holds_pure {a : α} : Holds H G P Q (pure a) ↔ Q a := Iff.rfl

@[simp] theorem holds_halt {r : Halt} : Holds H G P Q (.halt r : Prog E α) ↔ H r := Iff.rfl

@[simp] theorem holds_fault : Holds H G P Q (fault : Prog E α) ↔ H .fault := Iff.rfl

theorem Holds.mono {P' : Event E → Prop} {Q' : α → Prop} {p : Prog E α} (h : Holds H G P Q p)
    (hP : ∀ e, P e → P' e) (hQ : ∀ a, Q a → Q' a) : Holds H G P' Q' p := by
  induction p with
  | ret a => exact hQ a h
  | halt r => exact h
  | call op k ih => exact fun x => ⟨hP _ (h x).1, fun hx => ih x ((h x).2 hx)⟩

theorem holds_true (p : Prog E α) :
    Holds (fun _ => True) G (fun _ => True) (fun _ => True) p := by
  induction p with
  | ret a => trivial
  | halt r => trivial
  | call op k ih => exact fun x => ⟨trivial, fun _ => ih x⟩

theorem Holds.post {Q' : α → Prop} {p : Prog E α} (h : Holds H G P Q p) (hQ : ∀ a, Q a → Q' a) :
    Holds H G P Q' p :=
  h.mono (fun _ he => he) hQ

theorem Holds.weaken {H' : Halt → Prop} {p : Prog E α} (h : Holds H G P Q p) (hH : ∀ r, H r → H' r) :
    Holds H' G P Q p := by
  induction p with
  | ret a => exact h
  | halt r => exact hH r h
  | call op k ih => exact fun x => ⟨(h x).1, fun hx => ih x ((h x).2 hx)⟩

theorem Holds.bind {p : Prog E α} {f : α → Prog E β} (hp : Holds H G P Q p)
    (hf : ∀ a, Q a → Holds H G P R (f a)) : Holds H G P R (p >>= f) := by
  induction p with
  | ret a => exact hf a hp
  | halt r => exact hp
  | call op k ih => exact fun x => ⟨(hp x).1, fun hx => ih x ((hp x).2 hx)⟩

theorem Holds.perform_bind {op : E.Op} {f : E.Ans op → Prog E β}
    (h : ∀ x, P ⟨op, x⟩ ∧ (G ⟨op, x⟩ → Holds H G P R (f x))) : Holds H G P R (perform op >>= f) :=
  h

/-- The invariant rule: `I n` holds of the state whenever a round begins with `n` rounds of fuel left. -/
theorem Holds.loop_fuel {body : σ → Prog E (ρ ⊕ σ)} {I : Nat → σ → Prop} {Q : ρ → Prop}
    (hfuel : ∀ s, I 0 s → H .fuel)
    (hbody : ∀ n s, I (n + 1) s → Holds H G P (Sum.elim Q (I n)) (body s)) (n : Nat) (s : σ) (hs : I n s) :
    Holds H G P Q (loop body n s) := by
  induction n generalizing s with
  | zero => exact hfuel s hs
  | succ n ih =>
    rw [loop_succ]
    apply (hbody n s hs).bind
    intro r hr
    cases r with
    | inl r => exact hr
    | inr s => exact ih s hr

/-- The invariant rule: `I` holds of the state whenever a round begins. -/
theorem Holds.loop {body : σ → Prog E (ρ ⊕ σ)} {I : σ → Prop} {Q : ρ → Prop} (hfuel : H .fuel)
    (hbody : ∀ s, I s → Holds H G P (Sum.elim Q I) (body s)) (n : Nat) (s : σ) (hs : I s) :
    Holds H G P Q (loop body n s) :=
  Holds.loop_fuel (I := fun _ => I) (fun _ _ => hfuel) (fun _ => hbody) n s hs

/-- The invariant rule with a measure: every round that goes on lowers `μ`, and the fuel suffices. -/
theorem Holds.loop_lt {body : σ → Prog E (ρ ⊕ σ)} {I : σ → Prop} {Q : ρ → Prop} (μ : σ → Nat)
    (hbody : ∀ s, I s → Holds H G P (Sum.elim Q fun s' => I s' ∧ μ s' < μ s) (body s)) (n : Nat)
    (s : σ) (hs : I s) (hn : μ s < n) : Holds H G P Q (Prog.loop body n s) := by
  refine Holds.loop_fuel (I := fun n s => I s ∧ μ s < n) (fun s h => by omega) (fun n s h => ?_) n s ⟨hs, hn⟩
  refine (hbody s h.1).post fun r hr => ?_
  cases r with
  | inl r => exact hr
  | inr s' => exact ⟨hr.1, by have := hr.2; omega⟩

theorem Holds.forRange {body : Nat → σ → Prog E σ} {I : Nat → σ → Prop} (lo n : Nat)
    (hbody : ∀ i s, lo ≤ i → i < lo + n → I i s → Holds H G P (I (i + 1)) (body i s)) (s : σ)
    (hs : I lo s) : Holds H G P (I (lo + n)) (forRange body lo n s) := by
  induction n generalizing lo s with
  | zero => exact hs
  | succ n ih =>
    rw [forRange_succ]
    refine (hbody lo s (Nat.le_refl _) (by omega) hs).bind ?_
    intro s hs
    have h := ih (lo + 1) (fun i s hlo hi => hbody i s (by omega) (by omega)) s hs
    rwa [show lo + 1 + n = lo + (n + 1) by omega] at h

theorem Holds.run {p : Prog E α} {t : Trace E} {o : Outcome α} (h : Holds H G P Q p)
    (hr : Run p t o) (hG : ∀ e ∈ t, G e) :
    (∀ e ∈ t, P e) ∧ (∀ a, o = .done a → Q a) ∧ ∀ r, o = .halted r → H r := by
  induction hr with
  | ret a => exact ⟨by simp, fun b hb => by cases hb; exact h, nofun⟩
  | halt r => exact ⟨by simp, nofun, fun r' hr => by cases hr; exact h⟩
  | running p => exact ⟨by simp, nofun, nofun⟩
  | @call op x k t o _ ih =>
    have hx := h x
    have ht := ih (hx.2 (hG _ (by simp))) fun e he => hG e (by simp [he])
    exact ⟨by simpa using ⟨hx.1, ht.1⟩, ht.2⟩

theorem Holds.events {p : Prog E α} {t : Trace E} {o : Outcome α}
    (h : Holds H (fun _ => True) P Q p) (hr : Run p t o) : ∀ e ∈ t, P e :=
  (h.run hr fun _ _ => trivial).1

theorem Holds.result {p : Prog E α} {t : Trace E} {a : α} (h : Holds H (fun _ => True) P Q p)
    (hr : Run p t (.done a)) : Q a :=
  (h.run hr fun _ _ => trivial).2.1 a rfl

theorem Holds.halted {p : Prog E α} {t : Trace E} {r : Halt} (h : Holds H (fun _ => True) P Q p)
    (hr : Run p t (.halted r)) : H r :=
  (h.run hr fun _ _ => trivial).2.2 r rfl

end Prog

end Effects
