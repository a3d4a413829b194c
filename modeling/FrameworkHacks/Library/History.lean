import FrameworkHacks.Library.Exec

/-!
# Programs and their history

`Prog.Along H G ok Q p pre`: after the events `pre`, and as long as the answers satisfy `G`, every
event `e` that `p` goes on with is one that `ok` allows after the events before it, its result and
the whole history satisfy `Q`, and it stops without a result only for a reason in `H`. Where
`Prog.Holds` speaks of single events, `Along` speaks of their order. The rules are the same, with
invariants of the state and the history.

`replay h d t` is where a device is after the events `t`.
-/

namespace Effects

variable {E : Signature} {S α β σ ρ : Type}

namespace Prog

variable {H : Halt → Prop} {G : Event E → Prop} {ok : Trace E → Event E → Prop}
  {Q : α → Trace E → Prop} {R : β → Trace E → Prop}

def Along (H : Halt → Prop) (G : Event E → Prop) (ok : Trace E → Event E → Prop)
    (Q : α → Trace E → Prop) : Prog E α → Trace E → Prop
  | .ret a, pre => Q a pre
  | .halt r, _ => H r
  | .call op k, pre => ∀ x, ok pre ⟨op, x⟩ ∧ (G ⟨op, x⟩ → Along H G ok Q (k x) (pre ++ [⟨op, x⟩]))

@[simp] theorem along_pure {a : α} {pre : Trace E} : Along H G ok Q (pure a) pre ↔ Q a pre := Iff.rfl

theorem Along.post {Q' : α → Trace E → Prop} {p : Prog E α} {pre : Trace E}
    (h : Along H G ok Q p pre) (hQ : ∀ a t, Q a t → Q' a t) : Along H G ok Q' p pre := by
  induction p generalizing pre with
  | ret a => exact hQ a pre h
  | halt r => exact h
  | call op k ih => exact fun x => ⟨(h x).1, fun hx => ih x ((h x).2 hx)⟩

theorem Along.bind {p : Prog E α} {f : α → Prog E β} {pre : Trace E} (hp : Along H G ok Q p pre)
    (hf : ∀ a t, Q a t → Along H G ok R (f a) t) : Along H G ok R (p >>= f) pre := by
  induction p generalizing pre with
  | ret a => exact hf a pre hp
  | halt r => exact hp
  | call op k ih => exact fun x => ⟨(hp x).1, fun hx => ih x ((hp x).2 hx)⟩

theorem Along.perform_bind {op : E.Op} {f : E.Ans op → Prog E β} {pre : Trace E}
    (h : ∀ x, ok pre ⟨op, x⟩ ∧ (G ⟨op, x⟩ → Along H G ok R (f x) (pre ++ [⟨op, x⟩]))) :
    Along H G ok R (perform op >>= f) pre :=
  h

/-- The invariant rule: `I` holds of the state and the history whenever a round begins. -/
theorem Along.loop {body : σ → Prog E (ρ ⊕ σ)} {I : σ → Trace E → Prop} {Q : ρ → Trace E → Prop}
    (hfuel : H .fuel)
    (hbody : ∀ s t, I s t → Along H G ok (fun r t => Sum.elim (Q · t) (I · t) r) (body s) t) (n : Nat)
    (s : σ) (pre : Trace E) (hs : I s pre) : Along H G ok Q (loop body n s) pre := by
  induction n generalizing s pre with
  | zero => exact hfuel
  | succ n ih =>
    rw [loop_succ]
    apply (hbody s pre hs).bind
    intro r t hr
    cases r with
    | inl r => exact hr
    | inr s => exact ih s t hr

theorem Along.forRange {body : Nat → σ → Prog E σ} {I : Nat → σ → Trace E → Prop} (lo n : Nat)
    (hbody : ∀ i s t, lo ≤ i → i < lo + n → I i s t → Along H G ok (I (i + 1)) (body i s) t) (s : σ)
    (pre : Trace E) (hs : I lo s pre) : Along H G ok (I (lo + n)) (forRange body lo n s) pre := by
  induction n generalizing lo s pre with
  | zero => exact hs
  | succ n ih =>
    rw [forRange_succ]
    refine (hbody lo s pre (Nat.le_refl _) (by omega) hs).bind fun s t hs => ?_
    have hrest := ih (lo + 1) (fun i s t hlo hi => hbody i s t (by omega) (by omega)) s t hs
    rwa [show lo + 1 + n = lo + (n + 1) by omega] at hrest

theorem Holds.and_along {P : Event E → Prop} {Q : α → Prop} {R : α → Trace E → Prop} {p : Prog E α} {pre : Trace E}
    (h : Holds H G P Q p) (hR : Along (fun _ => True) G ok R p pre) :
    Along H G ok (fun a t => Q a ∧ R a t) p pre := by
  induction p generalizing pre with
  | ret a => exact ⟨h, hR⟩
  | halt r => exact h
  | call op k ih => exact fun x => ⟨(hR x).1, fun hx => ih x ((h x).2 hx) ((hR x).2 hx)⟩

/-- Where single events satisfying `P` are allowed after `pre` and others of their kind. The history
is then `pre` and a run of the program. -/
theorem Holds.along {P : Event E → Prop} {Q : α → Prop} {p : Prog E α} (h : Holds H G P Q p)
    (pre : Trace E) (hok : ∀ w e, (∀ x ∈ w, P x) → P e → ok (pre ++ w) e) :
    Along H G ok (fun a t => ∃ w, t = pre ++ w ∧ Run p w (.done a) ∧ (∀ x ∈ w, P x) ∧ Q a) p pre := by
  induction p generalizing pre with
  | ret a => exact ⟨[], by simp, .ret a, by simp, h⟩
  | halt r => exact h
  | call op k ih =>
    intro x
    refine ⟨by simpa using hok [] _ (by simp) (h x).1, fun hx => ?_⟩
    refine (ih x ((h x).2 hx) (pre ++ [⟨op, x⟩]) ?_).post ?_
    rotate_left
    · rintro a t ⟨w, rfl, hrun, hw, hQ⟩
      refine ⟨⟨op, x⟩ :: w, by simp, .call hrun, ?_, hQ⟩
      simpa using ⟨(h x).1, hw⟩
    · intro w e hw he
      have hstep := hok (⟨op, x⟩ :: w) e (by simpa using ⟨(h x).1, hw⟩) he
      simpa using hstep

theorem Holds.after {P : Event E → Prop} {Q : α → Prop} {p : Prog E α} (h : Holds H G P Q p) (pre : Trace E) :
    Along H G (fun _ _ => True) (fun a _ => Q a) p pre :=
  (h.along pre fun _ _ _ _ => trivial).post fun _ _ ⟨_, _, _, _, hQ⟩ => hQ

theorem Along.run {p : Prog E α} {pre t : Trace E} {o : Outcome α} (h : Along H G ok Q p pre)
    (hr : Run p t o) (hG : ∀ e ∈ t, G e) :
    (∀ u e v, t = u ++ e :: v → ok (pre ++ u) e) ∧ (∀ a, o = .done a → Q a (pre ++ t)) ∧
      ∀ r, o = .halted r → H r := by
  induction hr generalizing pre with
  | ret a =>
    refine ⟨by simp, fun b hb => ?_, nofun⟩
    cases hb
    rwa [List.append_nil]
  | halt r => exact ⟨by simp, nofun, fun r' hr => by cases hr; exact h⟩
  | running p => exact ⟨by simp, nofun, nofun⟩
  | @call op x k t o _ ih =>
    have hx := h x
    obtain ⟨hev, hres, hhalt⟩ := ih (hx.2 (hG _ (by simp))) fun e he => hG e (by simp [he])
    refine ⟨fun u e v huv => ?_, fun a ha => by simpa using hres a ha, hhalt⟩
    cases u with
    | nil =>
      cases huv
      rw [List.append_nil]
      exact hx.1
    | cons e' u =>
      cases huv
      simpa using hev u e v rfl

/-! ### Devices along a history -/

variable {h : Handler E S}

/-- Where a device is after the events `t`, whatever they were answered with. -/
def replay (h : Handler E S) (d : S) (t : Trace E) : S :=
  t.foldl (fun d e => match h e.op d with
    | .ok (_, d') => d'
    | .error _ => d) d

@[simp] theorem replay_nil (d : S) : replay h d [] = d := rfl

theorem replay_append (d : S) (t u : Trace E) : replay h d (t ++ u) = replay h (replay h d t) u :=
  List.foldl_append

theorem replay_cons {d d' : S} {e : Event E} {x : E.Ans e.op} (hop : h e.op d = .ok (x, d'))
    (t : Trace E) : replay h d (e :: t) = replay h d' t := by
  simp only [replay, List.foldl_cons, hop]

/-- A program whose operations have one answer each has one run to its end, the device's. -/
theorem exec_replay {P : Event E → Prop} {Q : α → Prop} (hP : ∀ e, P e → ∀ x : E.Ans e.op, x = e.ans)
    {p : Prog E α} (hp : Holds H (fun _ => True) P Q p) {d d' : S} {a : α}
    (hexec : p.exec h d = (.ok a, d')) {t : Trace E} {b : α} (hr : Run p t (.done b)) :
    b = a ∧ replay h d t = d' := by
  induction p generalizing d t with
  | ret c =>
    cases hexec
    cases hr
    exact ⟨rfl, rfl⟩
  | halt r => cases hexec
  | call op k ih =>
    cases hr with
    | @call _ x _ t _ hr =>
      simp only [exec] at hexec
      split at hexec
      · rename_i y d₁ hop
        cases hP _ (hp x).1 y
        rw [replay_cons hop]
        exact ih _ ((hp _).2 trivial) hexec hr
      · cases hexec

end Prog

end Effects
