import FrameworkHacks.Library.History

/-!
# Programs that may leave early

An `Attempt` is a program with exits: it gets through with a value or leaves with an exit, as C code
with `goto` to a clean-up does. A run of `x >>= f` either ends inside `x` (`Left`) or gets through
`x` and goes on in `f` (`bind_inv`). `Attempt.Holds` is `Prog.Holds` with one assertion for the value
and one for the exit.
-/

namespace Effects

abbrev Attempt (E : Signature) (ε : Type) := ExceptT ε (Prog E)

namespace Attempt

variable {E : Signature} {ε α β σ : Type}

/-- Leave with `e` if `c` holds. -/
def leaveIf (c : Prop) [Decidable c] (e : ε) : Attempt E ε Unit := if c then throw e else pure ()

theorem run_bind (x : Attempt E ε α) (f : α → Attempt E ε β) :
    (x >>= f).run = x.run >>= fun r => match r with
      | .ok a => (f a).run
      | .error e => pure (.error e) := ExceptT.run_bind x f

theorem run_lift (p : Prog E α) : (liftM p : Attempt E ε α).run = p >>= fun a => pure (.ok a) := rfl

theorem run_lift_bind (p : Prog E α) (f : α → Attempt E ε β) :
    (liftM p >>= f : Attempt E ε β).run = p >>= fun a => (f a).run := by
  rw [run_bind, run_lift, bind_assoc]
  simp only [pure_bind]

theorem run_leaveIf_bind (c : Prop) [Decidable c] (e : ε) (f : Unit → Attempt E ε β) :
    (leaveIf c e >>= f).run = if c then pure (.error e) else (f ()).run := by
  unfold leaveIf
  split <;> rfl

/-! ### Getting through -/

/-- The run `t` of `x` gets through with `a`. -/
def Reaches (x : Attempt E ε α) (t : Trace E) (a : α) : Prop := Run x.run t (.done (.ok a))

theorem reaches_pure {a b : α} {t : Trace E} (h : Reaches (pure a : Attempt E ε α) t b) :
    t = [] ∧ b = a := by
  obtain ⟨ht, hb⟩ := Run.pure_done (a := Except.ok a) h
  cases hb
  exact ⟨ht, rfl⟩

theorem not_reaches_throw {e : ε} {a : α} {t : Trace E} :
    ¬ Reaches (throw e : Attempt E ε α) t a := fun h => by
  obtain ⟨-, hb⟩ := Run.pure_done (a := Except.error e) h
  cases hb

theorem reaches_lift {p : Prog E α} {a : α} {t : Trace E}
    (h : Reaches (liftM p : Attempt E ε α) t a) : Run p t (.done a) := by
  obtain ⟨u, v, b, rfl, hu, hv⟩ := Run.bind_done h
  obtain ⟨rfl, hb⟩ := hv.pure_done
  cases hb
  rwa [List.append_nil]

theorem reaches_leaveIf {c : Prop} [Decidable c] {e : ε} {t : Trace E}
    (h : Reaches (leaveIf c e : Attempt E ε Unit) t ()) : ¬c ∧ t = [] := by
  unfold leaveIf at h
  split at h
  · exact (not_reaches_throw h).elim
  · exact ⟨‹_›, (reaches_pure h).1⟩

theorem Reaches.bind {x : Attempt E ε α} {f : α → Attempt E ε β} {t u : Trace E} {a : α} {b : β}
    (hx : Reaches x t a) (hf : Reaches (f a) u b) : Reaches (x >>= f) (t ++ u) b := by
  rw [Reaches, run_bind]
  exact Run.bind hx hf

theorem Reaches.leaveIf_bind {c : Prop} [Decidable c] {e : ε} {f : Unit → Attempt E ε β} {t : Trace E}
    {b : β} (hc : ¬c) (hf : Reaches (f ()) t b) : Reaches (leaveIf c e >>= f) t b := by
  rwa [Reaches, run_leaveIf_bind, if_neg hc]

theorem Reaches.perform_bind {op : E.Op} {x : E.Ans op} {f : E.Ans op → Attempt E ε β} {t : Trace E} {b : β}
    (hf : Reaches (f x) t b) : Reaches (liftM (Prog.perform op) >>= f) (⟨op, x⟩ :: t) b := by
  rw [Reaches, run_lift_bind]
  exact .perform_bind hf

theorem reaches_bind {x : Attempt E ε α} {f : α → Attempt E ε β} {t : Trace E} {b : β}
    (h : Reaches (x >>= f) t b) :
    ∃ u v a, t = u ++ v ∧ Reaches x u a ∧ Reaches (f a) v b := by
  rw [Reaches, run_bind] at h
  obtain ⟨u, v, r, rfl, hu, hv⟩ := h.bind_done
  cases r with
  | ok a => exact ⟨u, v, a, rfl, hu, hv⟩
  | error e => exact (not_reaches_throw hv).elim

theorem reaches_perform {op : E.Op} {f : E.Ans op → Attempt E ε β} {t : Trace E} {b : β}
    (h : Reaches (liftM (Prog.perform op) >>= f) t b) :
    ∃ x u, t = ⟨op, x⟩ :: u ∧ Reaches (f x) u b := by
  obtain ⟨u, v, x, rfl, hu, hv⟩ := reaches_bind h
  cases (reaches_lift hu).perform_done
  exact ⟨x, v, rfl, hv⟩

theorem reaches_leaveIf_bind {c : Prop} [Decidable c] {e : ε} {f : Unit → Attempt E ε β} {t : Trace E}
    {b : β} (h : Reaches (leaveIf c e >>= f) t b) : ¬c ∧ Reaches (f ()) t b := by
  obtain ⟨u, v, a, rfl, hu, hv⟩ := reaches_bind h
  obtain ⟨hc, rfl⟩ := reaches_leaveIf hu
  exact ⟨hc, hv⟩

theorem reaches_lift_bind_iff {p : Prog E α} {f : α → Attempt E ε β} {t : Trace E} {b : β} :
    Reaches (liftM p >>= f) t b ↔ ∃ u v a, t = u ++ v ∧ Run p u (.done a) ∧ Reaches (f a) v b := by
  constructor
  · intro h
    obtain ⟨u, v, a, ht, hu, hv⟩ := reaches_bind h
    exact ⟨u, v, a, ht, reaches_lift hu, hv⟩
  · rintro ⟨u, v, a, rfl, hu, hv⟩
    rw [Reaches, run_lift_bind]
    exact hu.bind hv

/-! ### Runs that end inside -/

/-- The run `t` ends inside `x`: at an exit, stopped, or still going. -/
inductive Left (x : Attempt E ε α) (t : Trace E) : Outcome (Except ε β) → Prop
  | exit {e : ε} : Run x.run t (.done (.error e)) → Left x t (.done (.error e))
  | halted {r : Halt} : Run x.run t (.halted r) → Left x t (.halted r)
  | running : Run x.run t .running → Left x t .running

/-- Every run may be looked at as unfinished. -/
theorem run_running {p : Prog E α} {t : Trace E} {o : Outcome α} (h : Run p t o) :
    Run p t .running := by
  induction h with
  | ret a => exact .running _
  | halt r => exact .running _
  | running p => exact .running p
  | call _ ih => exact .call ih

theorem Left.running' {x : Attempt E ε α} {t : Trace E} {o : Outcome (Except ε β)}
    (h : Left x t o) : Run x.run t .running := by
  cases h with
  | exit h => exact run_running h
  | halted h => exact run_running h
  | running h => exact h

theorem bind_inv {x : Attempt E ε α} {f : α → Attempt E ε β} {t : Trace E}
    {o : Outcome (Except ε β)} (h : Run (x >>= f).run t o) :
    (∃ u v a, t = u ++ v ∧ Reaches x u a ∧ Run (f a).run v o) ∨ Left x t o := by
  rw [run_bind] at h
  rcases h.bind_inv with ⟨u, v, r, rfl, hu, hv⟩ | ⟨r, hr, rfl⟩ | ⟨hr, rfl⟩
  · cases r with
    | ok a => exact .inl ⟨u, v, a, rfl, hu, hv⟩
    | error e =>
      simp only at hv
      obtain rfl := hv.pure_nil
      rw [List.append_nil]
      cases hv with
      | ret => exact .inr (.exit hu)
      | running => exact .inr (.running (run_running hu))
  · exact .inr (.halted hr)
  · exact .inr (.running hr)

/-! ### Properties of events -/

section Holds

variable {H : Halt → Prop} {G P : Event E → Prop} {X : ε → Prop} {Q : α → Prop} {R : β → Prop}

/-- `Prog.Holds` for an attempt: its value satisfies `Q`, its exit `X`. -/
def Holds (H : Halt → Prop) (G P : Event E → Prop) (X : ε → Prop) (Q : α → Prop)
    (x : Attempt E ε α) : Prop :=
  Prog.Holds H G P (fun r => match r with | .ok a => Q a | .error e => X e) x.run

theorem holds_pure {a : α} (h : Q a) : Holds H G P X Q (pure a : Attempt E ε α) := h

theorem holds_throw {e : ε} (h : X e) : Holds H G P X Q (throw e : Attempt E ε α) := h

theorem holds_lift {p : Prog E α} (h : Prog.Holds H G P Q p) :
    Holds H G P X Q (liftM p : Attempt E ε α) :=
  Prog.Holds.bind h fun _ ha => ha

theorem holds_leaveIf {c : Prop} [Decidable c] {e : ε} {Q : Unit → Prop} (hX : c → X e)
    (hQ : ¬c → Q ()) : Holds H G P X Q (leaveIf c e : Attempt E ε Unit) := by
  unfold leaveIf
  split
  · exact holds_throw (hX ‹_›)
  · exact holds_pure (hQ ‹_›)

theorem Holds.bind {x : Attempt E ε α} {f : α → Attempt E ε β} (hx : Holds H G P X Q x)
    (hf : ∀ a, Q a → Holds H G P X R (f a)) : Holds H G P X R (x >>= f) := by
  rw [Holds, run_bind]
  apply Prog.Holds.bind hx
  intro r hr
  cases r with
  | ok a => exact hf a hr
  | error e => exact hr

theorem Holds.perform_bind {op : E.Op} {f : E.Ans op → Attempt E ε β}
    (h : ∀ x, P ⟨op, x⟩ ∧ (G ⟨op, x⟩ → Holds H G P X R (f x))) :
    Holds H G P X R (liftM (Prog.perform op) >>= f) := h

theorem Holds.leaveIf_bind {c : Prop} [Decidable c] {e : ε} {f : Unit → Attempt E ε β} (hX : c → X e)
    (hf : ¬c → Holds H G P X R (f ())) : Holds H G P X R (leaveIf c e >>= f) :=
  (holds_leaveIf (Q := fun _ => ¬c) hX fun h => h).bind fun _ h => hf h

theorem Holds.value {x : Attempt E ε α} {t : Trace E} {a : α} (h : Holds H (fun _ => True) P X Q x)
    (hr : Reaches x t a) : Q a := by
  have hvalue := Prog.Holds.result h hr
  exact hvalue

end Holds

/-! ### Properties of the history -/

section Along

variable {H : Halt → Prop} {G : Event E → Prop} {ok : Trace E → Event E → Prop}
  {X : ε → Trace E → Prop} {Q : α → Trace E → Prop} {R : β → Trace E → Prop} {pre : Trace E}

/-- `Prog.Along` for an attempt: its value and the history satisfy `Q`, its exit and the history `X`. -/
def Along (H : Halt → Prop) (G : Event E → Prop) (ok : Trace E → Event E → Prop)
    (X : ε → Trace E → Prop) (Q : α → Trace E → Prop) (x : Attempt E ε α) (pre : Trace E) : Prop :=
  Prog.Along H G ok (fun r t => match r with | .ok a => Q a t | .error e => X e t) x.run pre

theorem along_pure {a : α} (h : Q a pre) : Along H G ok X Q (pure a : Attempt E ε α) pre := h

theorem along_throw {e : ε} (h : X e pre) : Along H G ok X Q (throw e : Attempt E ε α) pre := h

theorem along_lift {p : Prog E α} (h : Prog.Along H G ok Q p pre) :
    Along H G ok X Q (liftM p : Attempt E ε α) pre :=
  Prog.Along.bind h fun _ _ ha => ha

theorem Along.bind {x : Attempt E ε α} {f : α → Attempt E ε β} (hx : Along H G ok X Q x pre)
    (hf : ∀ a t, Q a t → Along H G ok X R (f a) t) : Along H G ok X R (x >>= f) pre := by
  rw [Along, run_bind]
  apply Prog.Along.bind hx
  intro r t hr
  cases r with
  | ok a => exact hf a t hr
  | error e => exact hr

theorem Along.perform_bind {op : E.Op} {f : E.Ans op → Attempt E ε β}
    (h : ∀ x, ok pre ⟨op, x⟩ ∧ (G ⟨op, x⟩ → Along H G ok X R (f x) (pre ++ [⟨op, x⟩]))) :
    Along H G ok X R (liftM (Prog.perform op) >>= f) pre := h

theorem Along.leaveIf_bind {c : Prop} [Decidable c] {e : ε} {f : Unit → Attempt E ε β} (hX : c → X e pre)
    (hf : ¬c → Along H G ok X R (f ()) pre) : Along H G ok X R (leaveIf c e >>= f) pre := by
  rw [Along, run_leaveIf_bind]
  split
  · exact hX ‹_›
  · exact hf ‹_›

end Along

/-! ### Total correctness

The attempt `x` is run against a device and its result handed to `g`. -/

section Ends

variable {S : Type} {h : Handler E S} {d : S} {g : Except ε β → Prog E σ} {Q : σ → S → Prop}

theorem ends_perform {op : E.Op} {x : E.Ans op} {f : E.Ans op → Attempt E ε β} {d' : S}
    (hop : h op d = .ok (x, d')) (hf : Prog.Ends h ((f x).run >>= g) d' Q) :
    Prog.Ends h ((liftM (Prog.perform op) >>= f).run >>= g) d Q := by
  rw [run_lift_bind, bind_assoc]
  exact .perform_bind hop hf

theorem ends_lift_pure {p : Prog E α} {a : α} {f : α → Attempt E ε β} (hp : p = pure a)
    (hf : Prog.Ends h ((f a).run >>= g) d Q) : Prog.Ends h ((liftM p >>= f).run >>= g) d Q := by
  rwa [run_lift_bind, hp, pure_bind]

theorem ends_leaveIf {c : Prop} [Decidable c] {e : ε} {f : Unit → Attempt E ε β}
    (hleave : c → Prog.Ends h (g (.error e)) d Q)
    (hstay : ¬c → Prog.Ends h ((f ()).run >>= g) d Q) :
    Prog.Ends h ((leaveIf c e >>= f).run >>= g) d Q := by
  rw [run_leaveIf_bind]
  split
  · exact hleave ‹_›
  · exact hstay ‹_›

end Ends

/-! ### Getting through for sure -/

section Succeeds

variable {S : Type} {h : Handler E S} {d : S} {Q : α → S → Prop} {R : β → S → Prop}

/-- The attempt finishes and does not leave; its value and the final state satisfy `Q`. -/
def Succeeds (h : Handler E S) (x : Attempt E ε α) (d : S) (Q : α → S → Prop) : Prop :=
  Prog.Ends h x.run d fun r d' => ∃ a, r = .ok a ∧ Q a d'

theorem succeeds_pure {a : α} (hQ : Q a d) : Succeeds h (pure a : Attempt E ε α) d Q := .pure ⟨a, rfl, hQ⟩

theorem succeeds_lift {p : Prog E α} (hp : Prog.Ends h p d Q) : Succeeds h (liftM p : Attempt E ε α) d Q :=
  Prog.Ends.bind hp fun a _ ha => .pure ⟨a, rfl, ha⟩

theorem Succeeds.bind {x : Attempt E ε α} {f : α → Attempt E ε β} (hx : Succeeds h x d Q)
    (hf : ∀ a d', Q a d' → Succeeds h (f a) d' R) : Succeeds h (x >>= f) d R := by
  rw [Succeeds, run_bind]
  refine Prog.Ends.bind hx ?_
  rintro _ d' ⟨a, rfl, ha⟩
  exact hf a d' ha

theorem Succeeds.mono {Q' : α → S → Prop} {x : Attempt E ε α} (hx : Succeeds h x d Q) (hQ : ∀ a d', Q a d' → Q' a d') :
    Succeeds h x d Q' :=
  Prog.Ends.mono hx fun _ d' ⟨a, hr, ha⟩ => ⟨a, hr, hQ a d' ha⟩

theorem Succeeds.leaveIf_bind {c : Prop} [Decidable c] {e : ε} {f : Unit → Attempt E ε β} (hc : ¬c)
    (hf : Succeeds h (f ()) d R) : Succeeds h (leaveIf c e >>= f) d R := by
  rwa [Succeeds, run_leaveIf_bind, if_neg hc]

theorem succeeds_leaveIf {c : Prop} [Decidable c] {e : ε} {Q : Unit → S → Prop} (hc : ¬c) (hQ : Q () d) :
    Succeeds h (leaveIf c e : Attempt E ε Unit) d Q := by
  rw [leaveIf, if_neg hc]
  exact succeeds_pure hQ

/-- The attempt finishes by leaving; its exit and the final state satisfy `X`. -/
def Leaves (h : Handler E S) (x : Attempt E ε α) (d : S) (X : ε → S → Prop) : Prop :=
  Prog.Ends h x.run d fun r d' => ∃ e, r = .error e ∧ X e d'

variable {X : ε → S → Prop}

theorem Leaves.bind {x : Attempt E ε α} {f : α → Attempt E ε β} (hx : Leaves h x d X) : Leaves h (x >>= f) d X := by
  rw [Leaves, run_bind]
  refine Prog.Ends.bind hx ?_
  rintro _ d' ⟨e, rfl, he⟩
  exact .pure ⟨e, rfl, he⟩

theorem Succeeds.bind_leaves {x : Attempt E ε α} {f : α → Attempt E ε β} (hx : Succeeds h x d Q)
    (hf : ∀ a d', Q a d' → Leaves h (f a) d' X) : Leaves h (x >>= f) d X := by
  rw [Leaves, run_bind]
  refine Prog.Ends.bind hx ?_
  rintro _ d' ⟨a, rfl, ha⟩
  exact hf a d' ha

theorem Leaves.leaveIf_bind {c : Prop} [Decidable c] {e : ε} {f : Unit → Attempt E ε β} (hc : ¬c)
    (hf : Leaves h (f ()) d X) : Leaves h (leaveIf c e >>= f) d X := by
  rwa [Leaves, run_leaveIf_bind, if_neg hc]

end Succeeds

end Attempt

end Effects
