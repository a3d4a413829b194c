import FrameworkHacks.Library.Run

/-!
# Running a program against a device

A handler answers operations out of a state, or refuses one. `Prog.exec` runs a program against it.
`Prog.Ends` is the total-correctness judgement: the run finishes, with a result and a state in `Q`.
Its loop rule (`Ends.loop`) asks for an invariant and for a measure that decreases each round, so a
loop proved with it never runs out of fuel. `Prog.Post` is the partial one: a run that finishes does
so in `Q`.
-/

namespace Effects

abbrev Handler (E : Signature) (S : Type) := (op : E.Op) → S → Except Halt (E.Ans op × S)

namespace Prog

variable {E : Signature} {S T α β σ ρ : Type} {h : Handler E S}

/-- Run a program from a state; a stopped run keeps the state it stopped in. -/
def exec (h : Handler E S) : Prog E α → S → Except Halt α × S
  | .ret a, d => (.ok a, d)
  | .halt r, d => (.error r, d)
  | .call op k, d =>
    match h op d with
    | .ok (x, d) => (k x).exec h d
    | .error r => (.error r, d)

@[simp] theorem exec_pure (a : α) (d : S) : (pure a : Prog E α).exec h d = (.ok a, d) := rfl

@[simp] theorem exec_halt (r : Halt) (d : S) : (.halt r : Prog E α).exec h d = (.error r, d) := rfl

@[simp] theorem exec_fault (d : S) : (fault : Prog E α).exec h d = (.error .fault, d) := rfl

theorem exec_perform {op : E.Op} {x : E.Ans op} {d d' : S} (hop : h op d = .ok (x, d')) :
    (perform op).exec h d = (.ok x, d') := by
  simp only [perform, exec, hop]

theorem exec_bind (p : Prog E α) (f : α → Prog E β) (d : S) :
    (p >>= f).exec h d =
      match p.exec h d with
      | (.ok a, d) => (f a).exec h d
      | (.error r, d) => (.error r, d) := by
  induction p generalizing d with
  | ret a => rfl
  | halt r => rfl
  | call op k ih =>
    simp only [call_bind, exec]
    cases h op d with
    | error r => rfl
    | ok y => exact ih y.1 y.2

theorem exec_bind_ok {p : Prog E α} {f : α → Prog E β} {d d' : S} {a : α}
    (hp : p.exec h d = (.ok a, d')) : (p >>= f).exec h d = (f a).exec h d' := by
  rw [exec_bind, hp]

theorem exec_bind_error {p : Prog E α} {f : α → Prog E β} {d d' : S} {r : Halt}
    (hp : p.exec h d = (.error r, d')) : (p >>= f).exec h d = (.error r, d') := by
  rw [exec_bind, hp]

/-- The events are what the handler does from `d`, and `d'` is its state after them. -/
inductive Follows (h : Handler E S) : S → Trace E → S → Prop
  | nil (d : S) : Follows h d [] d
  | cons {op : E.Op} {x : E.Ans op} {d d₁ d' : S} {t : Trace E} (hop : h op d = .ok (x, d₁))
      (ht : Follows h d₁ t d') : Follows h d (⟨op, x⟩ :: t) d'

theorem Follows.at_event {d d' : S} {u v : Trace E} {e : Event E} (h' : Follows h d (u ++ e :: v) d') :
    ∃ d₁ d₂, Follows h d u d₁ ∧ h e.op d₁ = .ok (e.ans, d₂) := by
  induction u generalizing d with
  | nil =>
    cases h' with
    | cons hop ht => exact ⟨d, _, .nil d, hop⟩
  | cons e' u ih =>
    cases h' with
    | cons hop ht =>
      obtain ⟨d₁, d₂, hu, he⟩ := ih ht
      exact ⟨d₁, d₂, .cons hop hu, he⟩

theorem exec_follows {p : Prog E α} {d d' : S} {a : α} (hp : p.exec h d = (.ok a, d')) :
    ∃ t, Run p t (.done a) ∧ Follows h d t d' := by
  induction p generalizing d with
  | ret b =>
    cases hp
    exact ⟨[], .ret a, .nil _⟩
  | halt r => cases hp
  | call op k ih =>
    simp only [exec] at hp
    split at hp
    · rename_i x d₁ hop
      obtain ⟨t, ht, hfollows⟩ := ih x hp
      exact ⟨_, .call ht, .cons hop hfollows⟩
    · cases hp

theorem exec_run {p : Prog E α} {d d' : S} {a : α} (hp : p.exec h d = (.ok a, d')) :
    ∃ t, Run p t (.done a) :=
  (exec_follows hp).imp fun _ ht => ht.1

/-- What every answer preserves, the execution preserves. -/
theorem exec_invariant {I : S → Prop} (hI : ∀ op d x d', h op d = .ok (x, d') → I d → I d')
    (p : Prog E α) (d : S) (hd : I d) : I (p.exec h d).2 := by
  induction p generalizing d with
  | ret a => exact hd
  | halt r => exact hd
  | call op k ih =>
    simp only [exec]
    split
    · rename_i x d₁ hop
      exact ih x d₁ (hI op d x d₁ hop hd)
    · exact hd

/-- A stopped execution is a stopped run, if the handler refuses nothing. -/
theorem exec_halted (hok : ∀ op d, ∃ y, h op d = .ok y) {p : Prog E α} {d d' : S} {r : Halt}
    (hp : p.exec h d = (.error r, d')) : ∃ t, Run p t (.halted r) := by
  induction p generalizing d with
  | ret b => cases hp
  | halt r' =>
    cases hp
    exact ⟨[], .halt r⟩
  | call op k ih =>
    obtain ⟨⟨x, d₁⟩, hop⟩ := hok op d
    simp only [exec, hop] at hp
    obtain ⟨t, ht⟩ := ih x hp
    exact ⟨_, .call ht⟩

/-- A program that cannot finish and may only fault does fault. -/
theorem exec_faults (hok : ∀ op d, ∃ y, h op d = .ok y) {p : Prog E α} {P : Event E → Prop}
    (hp : Holds (· = .fault) (fun _ => True) P (fun _ => False) p) (d : S) :
    (p.exec h d).1 = .error .fault := by
  rcases hpd : p.exec h d with ⟨r | a, d'⟩
  · obtain ⟨t, ht⟩ := exec_halted hok hpd
    rw [hp.halted ht]
  · obtain ⟨t, ht⟩ := exec_run hpd
    exact (hp.result ht).elim

/-! ### Total correctness -/

/-- The run of `p` from `d` finishes, and its result and final state satisfy `Q`. -/
def Ends (h : Handler E S) (p : Prog E α) (d : S) (Q : α → S → Prop) : Prop :=
  ∃ a d', p.exec h d = (.ok a, d') ∧ Q a d'

variable {d : S} {Q : α → S → Prop} {R : β → S → Prop}

theorem ends_iff {p : Prog E α} {a : α} {d' : S} (hp : p.exec h d = (.ok a, d')) :
    Ends h p d Q ↔ Q a d' := by
  constructor
  · intro hends
    obtain ⟨b, d₁, hb, hQ⟩ := hends
    rw [hp] at hb
    cases hb
    exact hQ
  · exact fun hQ => ⟨a, d', hp, hQ⟩

theorem Ends.pure {a : α} (hQ : Q a d) : Ends h (pure a) d Q :=
  ⟨a, d, rfl, hQ⟩

theorem Ends.perform {op : E.Op} {x : E.Ans op} {d' : S} {Q : E.Ans op → S → Prop}
    (hop : h op d = .ok (x, d')) (hQ : Q x d') : Ends h (perform op) d Q :=
  ⟨x, d', exec_perform hop, hQ⟩

theorem Ends.bind {p : Prog E α} {f : α → Prog E β} (hp : Ends h p d Q)
    (hf : ∀ a d, Q a d → Ends h (f a) d R) : Ends h (p >>= f) d R := by
  obtain ⟨a, d₁, hp, hQ⟩ := hp
  obtain ⟨b, d₂, hb, hR⟩ := hf a d₁ hQ
  exact ⟨b, d₂, by rw [exec_bind_ok hp, hb], hR⟩

theorem Ends.perform_bind {op : E.Op} {x : E.Ans op} {f : E.Ans op → Prog E β} {d' : S}
    (hop : h op d = .ok (x, d')) (hf : Ends h (f x) d' R) : Ends h (Prog.perform op >>= f) d R :=
  (Ends.perform (Q := fun y e => y = x ∧ e = d') hop ⟨rfl, rfl⟩).bind fun _ _ ⟨hy, he⟩ => by
    rw [hy, he]; exact hf

theorem Ends.mono {p : Prog E α} {Q' : α → S → Prop} (hp : Ends h p d Q)
    (hQ : ∀ a d, Q a d → Q' a d) : Ends h p d Q' := by
  obtain ⟨a, d₁, hp, ha⟩ := hp
  exact ⟨a, d₁, hp, hQ a d₁ ha⟩

/-- The loop rule: `I` holds whenever a round begins, and every round that goes on lowers `μ`. -/
theorem Ends.loop {body : σ → Prog E (ρ ⊕ σ)} {I : σ → S → Prop} {μ : σ → Nat} {Q : ρ → S → Prop}
    (hbody : ∀ s d, I s d →
      Ends h (body s) d (fun r d => Sum.elim (fun r => Q r d) (fun s' => I s' d ∧ μ s' < μ s) r))
    (n : Nat) (s : σ) (d : S) (hs : I s d) (hn : μ s < n) : Ends h (loop body n s) d Q := by
  induction n generalizing s d with
  | zero => omega
  | succ n ih =>
    rw [loop_succ]
    apply (hbody s d hs).bind
    intro r d hr
    cases r with
    | inl r => exact .pure hr
    | inr s' => exact ih s' d hr.1 (by have := hr.2; omega)

theorem Ends.forRange {body : Nat → σ → Prog E σ} {I : Nat → σ → S → Prop} (lo n : Nat)
    (hbody : ∀ i s d, lo ≤ i → i < lo + n → I i s d → Ends h (body i s) d (I (i + 1)))
    (s : σ) (d : S) (hs : I lo s d) : Ends h (forRange body lo n s) d (I (lo + n)) := by
  induction n generalizing lo s d with
  | zero => exact .pure hs
  | succ n ih =>
    rw [forRange_succ]
    refine (hbody lo s d (Nat.le_refl _) (by omega) hs).bind ?_
    intro s d hs
    have hrest := ih (lo + 1) (fun i s d hlo hi => hbody i s d (by omega) (by omega)) s d hs
    rwa [show lo + 1 + n = lo + (n + 1) by omega] at hrest

/-! ### Partial correctness -/

/-- If the run of `p` from `s` finishes, it does so in `Q`. -/
def Post (h : Handler E S) (p : Prog E α) (s : S) (Q : α → S → Prop) : Prop :=
  ∀ a s', p.exec h s = (.ok a, s') → Q a s'

namespace Post

variable {p : Prog E α} {s : S} {Q : α → S → Prop}

theorem ret {a : α} (hQ : Q a s) : Post h (pure a) s Q := by
  intro b s' hexec
  cases hexec
  exact hQ

theorem fault : Post h (fault : Prog E α) s Q := by
  intro a s' hexec
  cases hexec

theorem perform {op : E.Op} {Q : E.Ans op → S → Prop} (hQ : ∀ x s', h op s = .ok (x, s') → Q x s') :
    Post h (Prog.perform op) s Q := by
  intro x s' hexec
  simp only [Prog.perform, exec] at hexec
  rcases hop : h op s with _ | ⟨y, s₁⟩
  · rw [hop] at hexec
    cases hexec
  · rw [hop] at hexec
    cases hexec
    exact hQ x s' hop

theorem of_holds {H : Halt → Prop} {P : Event E → Prop} {R : α → Prop} (hp : Holds H (fun _ => True) P R p) :
    Post h p s fun a _ => R a := by
  intro a s' hexec
  obtain ⟨t, ht⟩ := exec_run hexec
  exact hp.result ht

theorem of_ends (hp : Ends h p s Q) : Post h p s Q := fun _ _ hexec => (ends_iff hexec).1 hp

theorem mono {R : α → S → Prop} (hp : Post h p s Q) (hQR : ∀ a s', Q a s' → R a s') : Post h p s R :=
  fun a s' hexec => hQR a s' (hp a s' hexec)

theorem bind {f : α → Prog E β} {R : β → S → Prop} (hp : Post h p s Q) (hf : ∀ a s', Q a s' → Post h (f a) s' R) :
    Post h (p >>= f) s R := by
  intro b s' hexec
  rw [exec_bind] at hexec
  rcases hpe : p.exec h s with ⟨_ | a, s₁⟩
  · rw [hpe] at hexec
    cases hexec
  · rw [hpe] at hexec
    exact hf a s₁ (hp a s₁ hpe) b s' hexec

/-- The loop rule without a measure: `I` holds whenever a round begins. -/
theorem loop {body : σ → Prog E (ρ ⊕ σ)} {I : σ → S → Prop} {Q : ρ → S → Prop}
    (hstep : ∀ c s, I c s → Post h (body c) s fun r s' => Sum.elim (Q · s') (I · s') r) (n : Nat) (c : σ) (s : S)
    (hc : I c s) : Post h (Prog.loop body n c) s Q := by
  induction n generalizing c s with
  | zero =>
    intro a s' hexec
    cases hexec
  | succ n ih =>
    rw [loop_succ]
    refine (hstep c s hc).bind ?_
    rintro (a | c') s' hr
    · exact ret hr
    · exact ih c' s' hr

end Post

end Prog

end Effects
