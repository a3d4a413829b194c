import FrameworkHacks.Library.History

/-!
# Programs for operations

An implementation `Impl E F` gives a program over `F` for each operation of `E`; `Prog.interpret` puts
these programs in the place of the operations. Two things follow for any program over `E`.

* If running the implementation on a device `h` gives what an abstract device `g` answers
  (`Realizes`), running the interpreted program on `h` gives what the program itself gives on `g`
  (`Realizes.exec`). The implementation itself makes such a device of `h` (`Handler.through`).
* Every run of the interpreted program is made of runs of the implementations, one for each event of a
  run of the program (`run_interpret`). What holds of every result of the implementations may therefore
  be assumed of the answers (`Holds.interpret`, `run_of_interpret`).

`Signature.sum` has the operations of two signatures; programs over either are programs over it.
-/

namespace Effects

abbrev Impl (E F : Signature) := (op : E.Op) → Prog F (E.Ans op)

variable {E F G : Signature} {S T U α β σ ρ : Type}

namespace Prog

def interpret (impl : Impl E F) : Prog E α → Prog F α
  | .ret a => .ret a
  | .halt r => .halt r
  | .call op k => impl op >>= fun x => (k x).interpret impl

section Laws

variable (impl : Impl E F)

@[simp] theorem interpret_pure (a : α) : (pure a : Prog E α).interpret impl = pure a := rfl

@[simp] theorem interpret_halt (r : Halt) : (halt r : Prog E α).interpret impl = halt r := rfl

@[simp] theorem interpret_fault : (fault : Prog E α).interpret impl = fault := rfl

@[simp] theorem interpret_perform (op : E.Op) : (perform op).interpret impl = impl op := bind_ret (impl op)

theorem interpret_bind (p : Prog E α) (f : α → Prog E β) :
    (p >>= f).interpret impl = p.interpret impl >>= fun a => (f a).interpret impl := by
  induction p with
  | ret a => rfl
  | halt r => rfl
  | call op k ih =>
    rw [call_bind]
    simp only [interpret, ih, bind_assoc]

theorem interpret_interpret (impl' : Impl F G) (p : Prog E α) :
    (p.interpret impl).interpret impl' = p.interpret fun op => (impl op).interpret impl' := by
  induction p with
  | ret a => rfl
  | halt r => rfl
  | call op k ih => simp only [interpret, interpret_bind, ih]

end Laws

end Prog

theorem Prog.Ends.and {h : Handler E S} {p : Prog E α} {d : S} {Q R : α → S → Prop}
    (hQ : Prog.Ends h p d Q) (hR : Prog.Ends h p d R) : Prog.Ends h p d fun a d' => Q a d' ∧ R a d' := by
  obtain ⟨a, d', hexec, ha⟩ := hQ
  exact ⟨a, d', hexec, ha, (Prog.ends_iff hexec).1 hR⟩

/-! ### Two signatures -/

@[reducible] def Signature.sumAns (E F : Signature) : E.Op ⊕ F.Op → Type
  | .inl op => E.Ans op
  | .inr op => F.Ans op

@[reducible] def Signature.sum (E F : Signature) : Signature := ⟨E.Op ⊕ F.Op, Signature.sumAns E F⟩

/-- An event of the left operations. -/
def Event.inl (e : Event E) : Event (E.sum F) := ⟨.inl e.op, e.ans⟩

namespace Prog

def inl (p : Prog E α) : Prog (E.sum F) α :=
  p.interpret fun op => perform (E := E.sum F) (.inl op)

def inr (p : Prog F α) : Prog (E.sum F) α :=
  p.interpret fun op => perform (E := E.sum F) (.inr op)

end Prog

/-- Implements the left operations and leaves the right ones as they are. -/
def Impl.left (impl : Impl E F) : Impl (E.sum G) (F.sum G)
  | .inl op => (impl op).inl
  | .inr op => Prog.perform (E := F.sum G) (.inr op)

theorem Prog.interpret_left_inl (impl : Impl E F) (p : Prog E α) :
    (p.inl : Prog (E.sum G) α).interpret impl.left = (p.interpret impl).inl := by
  rw [Prog.inl, Prog.inl, Prog.interpret_interpret, Prog.interpret_interpret]
  congr 1
  funext op
  exact Prog.interpret_perform _ _

/-- Two devices side by side. -/
def Handler.sum (h : Handler E S) (g : Handler F T) : Handler (E.sum F) (S × T)
  | .inl op, s => (h op s.1).map fun r => (r.1, r.2, s.2)
  | .inr op, s => (g op s.2).map fun r => (r.1, s.1, r.2)

namespace Prog

theorem exec_inl (h : Handler E S) (g : Handler F T) (p : Prog E α) (s : S) (t : T) :
    (p.inl : Prog (E.sum F) α).exec (h.sum g) (s, t) = ((p.exec h s).1, (p.exec h s).2, t) := by
  induction p generalizing s with
  | ret a => rfl
  | halt r => rfl
  | call op k ih =>
    have hstep : (call op k : Prog E α).inl = (call (.inl op) fun x => (k x).inl : Prog (E.sum F) α) := rfl
    rw [hstep]
    simp only [exec, Handler.sum]
    cases h op s with
    | error r => rfl
    | ok y => exact ih y.1 y.2

theorem exec_left (h : Handler (E.sum F) S) (p : Prog E α) (s : S) :
    (p.inl : Prog (E.sum F) α).exec h s = p.exec (fun op => h (.inl op)) s := by
  induction p generalizing s with
  | ret a => rfl
  | halt r => rfl
  | call op k ih =>
    have hstep : (call op k : Prog E α).inl = (call (.inl op) fun x => (k x).inl : Prog (E.sum F) α) := rfl
    rw [hstep]
    simp only [exec]
    cases h (.inl op) s with
    | error r => rfl
    | ok y => exact ih y.1 y.2

theorem ends_inl {h : Handler E S} {g : Handler F T} {p : Prog E α} {s : S} {t : T} {Q : α → S → Prop}
    (hp : Ends h p s Q) :
    Ends (h.sum g) (p.inl : Prog (E.sum F) α) (s, t) fun a st => Q a st.1 ∧ st.2 = t := by
  obtain ⟨a, s', hexec, hQ⟩ := hp
  exact ⟨a, (s', t), by rw [exec_inl, hexec], hQ, rfl⟩

end Prog

theorem Prog.exec_inr (h : Handler E S) (g : Handler F T) (p : Prog F α) (s : S) (t : T) :
    (p.inr : Prog (E.sum F) α).exec (h.sum g) (s, t) = ((p.exec g t).1, s, (p.exec g t).2) := by
  induction p generalizing t with
  | ret a => rfl
  | halt r => rfl
  | call op k ih =>
    have hstep : (call op k : Prog F α).inr = (call (.inr op) fun x => (k x).inr : Prog (E.sum F) α) := rfl
    rw [hstep]
    simp only [exec, Handler.sum]
    cases g op t with
    | error r => rfl
    | ok y => exact ih y.1 y.2

namespace Prog.Post

variable {h : Handler E S} {g : Handler F T} {p : Prog E α} {s : S}

theorem inl {t : T} {R : α → S × T → Prop} (hp : Post h p s fun a s' => R a (s', t)) :
    Post (h.sum g) (p.inl : Prog (E.sum F) α) (s, t) R := by
  rintro a ⟨s', t'⟩ hexec
  rw [exec_inl] at hexec
  obtain ⟨hok, rfl, rfl⟩ : (p.exec h s).1 = .ok a ∧ (p.exec h s).2 = s' ∧ t = t' := by simpa using hexec
  exact hp a _ (by rw [← hok])

theorem inr {q : Prog F α} {t : T} {R : α → S × T → Prop} (hq : Post g q t fun a t' => R a (s, t')) :
    Post (h.sum g) (q.inr : Prog (E.sum F) α) (s, t) R := by
  rintro a ⟨s', t'⟩ hexec
  rw [exec_inr] at hexec
  obtain ⟨hok, rfl, rfl⟩ : (q.exec g t).1 = .ok a ∧ s = s' ∧ (q.exec g t).2 = t' := by simpa using hexec
  exact hq a _ (by rw [← hok])

end Prog.Post

/-! ### The device an implementation makes -/

/-- What the implementation answers on `h`. -/
def Handler.through (h : Handler F T) (impl : Impl E F) : Handler E T := fun op t =>
  match (impl op).exec h t with
  | (.ok x, t') => .ok (x, t')
  | (.error r, _) => .error r

theorem Handler.through_ok {h : Handler F T} {impl : Impl E F} {op : E.Op} {x : E.Ans op} {t t' : T}
    (hop : (impl op).exec h t = (.ok x, t')) : h.through impl op t = .ok (x, t') := by
  rw [through, hop]

theorem Prog.Ends.interpret {h : Handler F T} {impl : Impl E F} {p : Prog E α} {t : T} {Q : α → T → Prop}
    (hp : Prog.Ends (h.through impl) p t Q) : Prog.Ends h (p.interpret impl) t Q := by
  obtain ⟨a, t', hexec, hQ⟩ := hp
  refine ⟨a, t', ?_, hQ⟩
  induction p generalizing t with
  | ret b => exact hexec
  | halt r => cases hexec
  | call op k ih =>
    simp only [exec, Handler.through] at hexec
    rw [Prog.interpret, exec_bind]
    rcases hop : (impl op).exec h t with ⟨r | x, t₁⟩
    · rw [hop] at hexec
      cases hexec
    · rw [hop] at hexec
      exact ih x hexec

/-! ### An implementation against an abstract device -/

/-- Running `q` on `h` gives the outcome `o`, and if it finishes a state that `R` allows. -/
def Prog.Matches (h : Handler F T) (R : S → T → Prop) (q : Prog F α) (t : T)
    (o : Except Halt α × S) : Prop :=
  match o with
  | (.ok a, s) => Prog.Ends h q t fun b t' => b = a ∧ R s t'
  | (.error r, _) => ∃ t', q.exec h t = (.error r, t')

/-- On the operations in `P`, running the implementation on `h` gives what the abstract device `g`
answers; `R` relates the states of the two. -/
def Realizes (g : Handler E S) (h : Handler F T) (impl : Impl E F) (R : S → T → Prop)
    (P : E.Op → Prop) : Prop :=
  ∀ op s t, P op → R s t → Prog.Matches h R (impl op) t ((Prog.perform op).exec g s)

theorem Prog.Matches.mono {h : Handler F T} {R R' : S → T → Prop} {q : Prog F α} {t : T} {o : Except Halt α × S}
    (hm : Prog.Matches h R q t o) (hR : ∀ s t, R s t → R' s t) : Prog.Matches h R' q t o := by
  obtain ⟨r | a, s⟩ := o
  · exact hm
  · exact Prog.Ends.mono hm fun b t' ht => ⟨ht.1, hR s t' ht.2⟩

theorem Prog.Matches.after {h : Handler F T} {R : S → T → Prop} {p : Prog F α} {f : α → Prog F β} {t t' : T}
    {a : α} {o : Except Halt β × S} (hm : Prog.Matches h R (f a) t' o) (hp : p.exec h t = (.ok a, t')) :
    Prog.Matches h R (p >>= f) t o := by
  obtain ⟨r | b, s⟩ := o
  · obtain ⟨u, hu⟩ := hm
    exact ⟨u, by rw [Prog.exec_bind_ok hp, hu]⟩
  · obtain ⟨c, u, hu, hc⟩ := hm
    exact ⟨c, u, by rw [Prog.exec_bind_ok hp, hu], hc⟩

theorem Prog.Matches.trans {h : Handler F T} {g : Handler E S} {R : S → T → Prop} {R' : U → S → Prop} {q : Prog F α}
    {p : Prog E α} {s : S} {t : T} {o : Except Halt α × U} (hm : Prog.Matches h R q t (p.exec g s))
    (hn : Prog.Matches g R' p s o) : Prog.Matches h (fun u t => ∃ s, R' u s ∧ R s t) q t o := by
  obtain ⟨r | a, u⟩ := o
  · obtain ⟨s', hs'⟩ := hn
    rwa [hs'] at hm
  · obtain ⟨_, s', hs', rfl, hR'⟩ := hn
    rw [hs'] at hm
    exact Prog.Ends.mono hm fun b t' ht => ⟨ht.1, s', hR', ht.2⟩

namespace Realizes

variable {g : Handler E S} {h : Handler F T} {impl : Impl E F} {R : S → T → Prop} {P : E.Op → Prop}

/-- The interpreted program runs as the program does. -/
theorem exec (hans : ∀ op, Nonempty (E.Ans op)) (hr : Realizes g h impl R P) {p : Prog E α}
    (hp : Prog.Holds (fun _ => True) (fun _ => True) (fun e => P e.op) (fun _ => True) p) {s : S} {t : T}
    (hR : R s t) : Prog.Matches h R (p.interpret impl) t (p.exec g s) := by
  induction p generalizing s t with
  | ret a => exact .pure ⟨rfl, hR⟩
  | halt r => exact ⟨t, rfl⟩
  | call op k ih =>
    obtain ⟨x₀⟩ := hans op
    have hop := hr op s t (hp x₀).1 hR
    simp only [Prog.perform, Prog.exec, Prog.interpret] at hop ⊢
    cases hg : g op s with
    | error r =>
      rw [hg] at hop
      obtain ⟨t', ht'⟩ := hop
      exact ⟨t', Prog.exec_bind_error ht'⟩
    | ok y =>
      rw [hg] at hop
      obtain ⟨_, t', ht', rfl, hR'⟩ := hop
      exact Prog.Matches.after (f := fun x => (k x).interpret impl) (ih y.1 ((hp y.1).2 trivial) hR') ht'

theorem left (hr : Realizes g h impl R P) (f : Handler G U) :
    Realizes (g.sum f) (h.sum f) impl.left (fun s t => R s.1 t.1 ∧ s.2 = t.2) (Sum.elim P fun _ => True) := by
  intro op s t hP hR
  obtain ⟨s, u⟩ := s
  obtain ⟨t, u'⟩ := t
  obtain ⟨hR, rfl⟩ := hR
  cases op with
  | inl op =>
    have hop := hr op s t hP hR
    simp only [Prog.perform, Prog.exec, Handler.sum, Impl.left] at hop ⊢
    cases hg : g op s with
    | error r =>
      rw [hg] at hop
      obtain ⟨t', ht'⟩ := hop
      exact ⟨(t', u), by rw [Prog.exec_inl, ht']⟩
    | ok y =>
      rw [hg] at hop
      exact (Prog.ends_inl hop).mono fun a d hd => ⟨hd.1.1, hd.1.2, hd.2.symm⟩
  | inr op =>
    simp only [Prog.perform, Prog.exec, Handler.sum, Impl.left]
    cases hf : f op u with
    | error r => exact ⟨(t, u), by simp only [Prog.exec, Handler.sum, hf, Except.map]⟩
    | ok y =>
      exact ⟨y.1, (t, y.2), by simp only [Prog.exec, Handler.sum, hf, Except.map], rfl, hR, rfl⟩

end Realizes

/-! ### Runs of an interpreted program -/

/-- `t` is made of runs of the implementations, one for each event of `u`, to its answer. -/
inductive Implements (impl : Impl E F) : Trace E → Trace F → Prop
  | nil : Implements impl [] []
  | cons {op : E.Op} {x : E.Ans op} {u : Trace E} {v t : Trace F} :
      Run (impl op) v (.done x) → Implements impl u t → Implements impl (⟨op, x⟩ :: u) (v ++ t)

variable {impl : Impl E F}

/-- A run of the interpreted program is made of a run of the program; it may end inside an operation. -/
theorem run_interpret {p : Prog E α} {t : Trace F} {o : Outcome α} (h : Run (p.interpret impl) t o) :
    ∃ u v w, t = v ++ w ∧ Implements impl u v ∧
      (w = [] ∧ Run p u o ∨ ∃ (op : E.Op) (o' : Outcome (E.Ans op)), Run (impl op) w o' ∧
        (∀ x, Run p (u ++ [⟨op, x⟩]) .running) ∧
        (o' = .running ∧ o = .running ∨ ∃ r, o' = .halted r ∧ o = .halted r)) := by
  induction p generalizing t with
  | ret a =>
    have hret : Run (.ret a : Prog F α) t o := h
    cases hret with
    | ret => exact ⟨[], [], [], rfl, .nil, .inl ⟨rfl, .ret a⟩⟩
    | running => exact ⟨[], [], [], rfl, .nil, .inl ⟨rfl, .running _⟩⟩
  | halt r =>
    have hhalt : Run (.halt r : Prog F α) t o := h
    cases hhalt with
    | halt => exact ⟨[], [], [], rfl, .nil, .inl ⟨rfl, .halt r⟩⟩
    | running => exact ⟨[], [], [], rfl, .nil, .inl ⟨rfl, .running _⟩⟩
  | call op k ih =>
    have hop : ∀ x, Run (.call op k) ([] ++ [⟨op, x⟩]) .running := fun x => .call (.running (k x))
    rcases Run.bind_inv h with ⟨v, t', x, rfl, hv, ht'⟩ | ⟨r, hr, rfl⟩ | ⟨hr, rfl⟩
    · obtain ⟨u, v', w, rfl, himpl, hu⟩ := ih x ht'
      refine ⟨⟨op, x⟩ :: u, v ++ v', w, (List.append_assoc ..).symm, .cons hv himpl, ?_⟩
      obtain ⟨rfl, hrun⟩ | ⟨op', o', hw, hrun, ho⟩ := hu
      · exact .inl ⟨rfl, .call hrun⟩
      · exact .inr ⟨op', o', hw, fun y => .call (hrun y), ho⟩
    · exact ⟨[], [], t, rfl, .nil, .inr ⟨op, _, hr, hop, .inr ⟨r, rfl, rfl⟩⟩⟩
    · exact ⟨[], [], t, rfl, .nil, .inr ⟨op, _, hr, hop, .inl ⟨rfl, rfl⟩⟩⟩

theorem Run.before {p : Prog E α} {u v : Trace E} {o : Outcome α} (h : Run p (u ++ v) o) :
    Run p u .running := by
  induction u generalizing p with
  | nil => exact .running p
  | cons e u ih =>
    cases h with
    | call h => exact .call (ih h)

/-- The program finishes with a result in `Q`, whatever the answers. -/
abbrev Prog.Finishes (Q : α → Prop) (p : Prog E α) : Prop :=
  Prog.Holds (fun _ => False) (fun _ => True) (fun _ => True) Q p

theorem mem_of_split {t₁ t₂ v t : Trace F} {e : Event F} (h : t₁ ++ e :: t₂ = v ++ t) :
    (∃ w, v = t₁ ++ e :: w) ∨ ∃ w, t₁ = v ++ w ∧ t = w ++ e :: t₂ := by
  rcases List.append_eq_append_iff.1 h with ⟨w, hv, hw⟩ | ⟨w, ht₁, hw⟩
  · cases w with
    | nil =>
      rw [List.append_nil] at hv
      exact .inr ⟨[], by rw [hv, List.append_nil], hw.symm⟩
    | cons e' w =>
      cases hw
      exact .inl ⟨w, hv⟩
  · exact .inr ⟨w, ht₁, hw⟩

/-- Every event of the interpreted program belongs to an operation of the program. -/
theorem run_interpret_at {p : Prog E α} {t₁ t₂ : Trace F} {e : Event F} {o : Outcome α}
    (h : Run (p.interpret impl) (t₁ ++ e :: t₂) o) :
    ∃ u v w op, t₁ = v ++ w ∧ Implements impl u v ∧ (∀ x, Run p (u ++ [⟨op, x⟩]) .running) ∧
      Run (impl op) (w ++ [e]) .running := by
  induction p generalizing t₁ with
  | ret a =>
    have hnil := Run.pure_nil (E := F) h
    exact absurd hnil (by simp)
  | halt r =>
    have hnil := Run.halt_nil (E := F) h
    exact absurd hnil (by simp)
  | call op k ih =>
    have hop : ∀ x, Run (.call op k) ([] ++ [⟨op, x⟩]) .running := fun x => .call (.running (k x))
    -- where the event is one of the first operation's
    have hfirst {w : Trace F} {o' : Outcome (E.Ans op)} (hrun : Run (impl op) (t₁ ++ e :: w) o') :
        ∃ u v w op', t₁ = v ++ w ∧ Implements impl u v ∧
          (∀ x, Run (.call op k) (u ++ [⟨op', x⟩]) .running) ∧ Run (impl op') (w ++ [e]) .running := by
      refine ⟨[], [], t₁, op, rfl, .nil, hop, ?_⟩
      rw [← List.singleton_append, ← List.append_assoc] at hrun
      exact hrun.before
    rcases Run.bind_inv h with ⟨v, t', x, hsplit, hv, ht'⟩ | ⟨r, hr, rfl⟩ | ⟨hr, rfl⟩
    · rcases mem_of_split hsplit with ⟨w, rfl⟩ | ⟨w, rfl, rfl⟩
      · exact hfirst hv
      · obtain ⟨u, v', w', op', rfl, himpl, hrun, hlast⟩ := ih x ht'
        exact ⟨⟨op, x⟩ :: u, v ++ v', w', op', (List.append_assoc ..).symm, .cons hv himpl,
          fun y => .call (hrun y), hlast⟩
    · exact hfirst hr
    · exact hfirst hr

/-- The same, where each event and the run that carried it out satisfy `K`. -/
inductive Fulfils (impl : Impl E F) (K : Event E → Trace F → Prop) : Trace E → Trace F → Prop
  | nil : Fulfils impl K [] []
  | cons {op : E.Op} {x : E.Ans op} {u : Trace E} {v t : Trace F} :
      Run (impl op) v (.done x) → K ⟨op, x⟩ v → Fulfils impl K u t → Fulfils impl K (⟨op, x⟩ :: u) (v ++ t)

/-- What holds of every run of an implementation to its end holds of the events. -/
theorem Implements.fulfils {P : E.Op → Prop} {G : Event F → Prop} {K : Event E → Trace F → Prop} {u : Trace E}
    {t : Trace F} (h : Implements impl u t) (hP : ∀ e ∈ u, P e.op) (hG : ∀ e ∈ t, G e)
    (hK : ∀ op v x, P op → (∀ e ∈ v, G e) → Run (impl op) v (.done x) → K ⟨op, x⟩ v) : Fulfils impl K u t := by
  induction h with
  | nil => exact .nil
  | @cons op x u v t hv _ ih =>
    rw [List.forall_mem_cons] at hP
    rw [List.forall_mem_append] at hG
    exact .cons hv (hK op v x hP.1 hG.1 hv) (ih hP.2 hG.2)

theorem Fulfils.forall {K : Event E → Trace F → Prop} {Q : Event E → Prop} {u : Trace E} {t : Trace F}
    (h : Fulfils impl K u t) (hQ : ∀ e v, K e v → Q e) : ∀ e ∈ u, Q e := by
  induction h with
  | nil => simp
  | cons _ hK _ ih =>
    rw [List.forall_mem_cons]
    exact ⟨hQ _ _ hK, ih⟩

/-- The run `t` of the interpreted program is the run `u` of the program: each event is carried out by a run of
its implementation that `K` holds of, and the last one may be unfinished. -/
inductive RunsAs (impl : Impl E F) (K : Event E → Trace F → Prop) (p : Prog E α) (u : Trace E) :
    Trace F → Outcome α → Prop
  | complete {t : Trace F} {o : Outcome α} : Fulfils impl K u t → Run p u o → RunsAs impl K p u t o
  | inside {v w : Trace F} {op : E.Op} : Fulfils impl K u v → (∀ x, Run p (u ++ [⟨op, x⟩]) .running) →
      Run (impl op) w .running → RunsAs impl K p u (v ++ w) .running

section RunsAs

variable {K : Event E → Trace F → Prop} {p : Prog E α} {u : Trace E} {t : Trace F} {o : Outcome α}

theorem RunsAs.run (hans : ∀ op, Nonempty (E.Ans op)) (h : RunsAs impl K p u t o) : Run p u o := by
  cases h with
  | complete _ hrun => exact hrun
  | @inside _ _ op _ hrun _ =>
    obtain ⟨x⟩ := hans op
    exact (hrun x).before

theorem RunsAs.forall {Q : Event E → Prop} (h : RunsAs impl K p u t o) (hQ : ∀ e v, K e v → Q e) :
    ∀ e ∈ u, Q e := by
  cases h with
  | complete hu _ => exact hu.forall hQ
  | inside hu _ _ => exact hu.forall hQ

/-- Implementations that always finish, with `K` of the result and the run: a run of the interpreted program is
one of the program. -/
theorem run_of_interpret (hans : ∀ op, Nonempty (E.Ans op)) {P : E.Op → Prop} {G : Event F → Prop}
    (hp : Prog.Holds (fun _ => True) (fun _ => True) (fun e => P e.op) (fun _ => True) p)
    (himpl : ∀ op, P op → Prog.Along (fun _ => False) G (fun _ _ => True) (fun x v => K ⟨op, x⟩ v) (impl op) [])
    (hG : ∀ e ∈ t, G e) (h : Run (p.interpret impl) t o) : ∃ u, RunsAs impl K p u t o := by
  obtain ⟨u, v, w, rfl, hu, hrest⟩ := run_interpret h
  rw [List.forall_mem_append] at hG
  have hfulfils (hrun : Run p u .running) : Fulfils impl K u v := by
    refine hu.fulfils (hp.events hrun) hG.1 fun op v x hop hv hrun => ?_
    exact ((himpl op hop).run hrun hv).2.1 x rfl
  obtain ⟨rfl, hrun⟩ | ⟨op, o', hw, hrun, ho⟩ := hrest
  · rw [List.append_nil]
    exact ⟨u, .complete (hfulfils (Run.before (by rwa [List.append_nil]))) hrun⟩
  · obtain ⟨x⟩ := hans op
    have hbefore : Run p u .running := (hrun x).before
    obtain ⟨rfl, rfl⟩ | ⟨r, rfl, rfl⟩ := ho
    · exact ⟨u, .inside (hfulfils hbefore) hrun hw⟩
    · have hop : P op := hp.events (hrun x) ⟨op, x⟩ (by simp)
      exact (((himpl op hop).run hw hG.2).2.2 r rfl).elim

end RunsAs

namespace Prog

variable {H : Halt → Prop} {P Q : Event E → Prop} {P' : Event F → Prop} {R : α → Prop}

/-- A property of the program whose assumption about the answers the implementations meet. -/
theorem Holds.interpret {p : Prog E α} (h : Holds H Q P R p)
    (himpl : ∀ op, (∀ x, P ⟨op, x⟩) → Holds H (fun _ => True) P' (fun x => Q ⟨op, x⟩) (impl op)) :
    Holds H (fun _ => True) P' R (p.interpret impl) := by
  induction p with
  | ret a => exact h
  | halt r => exact h
  | call op k ih => exact (himpl op fun x => (h x).1).bind fun x hx => ih x ((h x).2 hx)

theorem Along.inl {A : Trace E → Event E → Prop} {R : α → Trace E → Prop} {p : Prog E α} {pre : Trace E}
    (h : Along H (fun _ => True) A R p pre) :
    Along H (fun _ => True) (fun _ _ => True) (fun a t => ∃ s, t = s.map Event.inl ∧ R a s)
      (p.inl : Prog (E.sum F) α) (pre.map Event.inl) := by
  induction p generalizing pre with
  | ret a => exact ⟨pre, rfl, h⟩
  | halt r => exact h
  | call op k ih =>
    refine fun x => ⟨trivial, fun _ => ?_⟩
    have hrest := ih x ((h x).2 trivial)
    rwa [List.map_append] at hrest

theorem Holds.inl {G : Event E → Prop} {P' : Event (E.sum F) → Prop} {G' : Event (E.sum F) → Prop} {p : Prog E α}
    (h : Holds H G P R p) (hP : ∀ op x, P ⟨op, x⟩ → P' ⟨.inl op, x⟩) (hG : ∀ op x, G' ⟨.inl op, x⟩ → G ⟨op, x⟩) :
    Holds H G' P' R (p.inl : Prog (E.sum F) α) := by
  induction p with
  | ret a => exact h
  | halt r => exact h
  | call op k ih => exact fun x => ⟨hP op x (h x).1, fun hx => ih x ((h x).2 (hG op x hx))⟩

end Prog

end Effects
