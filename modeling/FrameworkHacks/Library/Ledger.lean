import FrameworkHacks.Library.History

/-!
# Resources along a history

What an event is to a resource: its acquisition, its release, a use of it, or nothing. The account of a
resource moves from unheld to held to released and refuses everything else: a second acquisition, a
release of what is not held, a use after the release. A use before the acquisition is no breach, so uses
may be over-approximated. A history is tidy if it is accepted and leaves nothing held (`Tidy`).

`Books` are the accounts of a family of resources. `Only` is `Prog.Holds` for the operations alone.
-/

namespace Effects

variable {E : Signature} {α β σ ρ R : Type}

inductive Deed
  | acquire
  | release
  | use
  deriving DecidableEq

inductive Account
  | unheld
  | held
  | released
  deriving DecidableEq

namespace Account

def after : Account → Deed → Option Account
  | .unheld, .use => some .unheld
  | .unheld, .acquire => some .held
  | .held, .use => some .held
  | .held, .release => some .released
  | _, _ => none

def next (deed : Event E → Option Deed) (a : Account) (e : Event E) : Option Account :=
  match deed e with
  | none => some a
  | some d => a.after d

theorem next_of_none {deed : Event E → Option Deed} {e : Event E} (h : deed e = none) (a : Account) :
    a.next deed e = some a := by
  rw [next, h]

theorem next_of_some {deed : Event E → Option Deed} {e : Event E} {d : Deed} (h : deed e = some d)
    (a : Account) : a.next deed e = a.after d := by
  rw [next, h]

end Account

/-- The account after a history, if nothing in it is refused. -/
def account (deed : Event E → Option Deed) (t : Trace E) : Option Account :=
  t.foldlM (Account.next deed) .unheld

/-- If the resource was acquired it was released, once, and not used after that. -/
def Tidy (deed : Event E → Option Deed) (t : Trace E) : Prop :=
  account deed t = some .unheld ∨ account deed t = some .released

theorem account_append (deed : Event E → Option Deed) (t w : Trace E) :
    account deed (t ++ w) = account deed t >>= fun a => w.foldlM (Account.next deed) a := by
  rw [account, List.foldlM_append]
  rfl

theorem account_snoc (deed : Event E → Option Deed) (t : Trace E) (e : Event E) :
    account deed (t ++ [e]) = account deed t >>= fun a => a.next deed e := by
  rw [account_append]
  simp only [List.foldlM_cons, List.foldlM_nil, bind_pure]

theorem account_none_append {deed : Event E → Option Deed} {t : Trace E} (h : account deed t = none)
    (w : Trace E) : account deed (t ++ w) = none := by
  rw [account_append, h]
  rfl

/-! ### A family of resources -/

def Books (deed : R → Event E → Option Deed) (acc : R → Account) (t : Trace E) : Prop :=
  ∀ r, account (deed r) t = some (acc r)

section

variable {deed : R → Event E → Option Deed} {acc acc' : R → Account} {t : Trace E}

theorem Books.snoc (h : Books deed acc t) {e : Event E}
    (hstep : ∀ r, (acc r).next (deed r) e = some (acc' r)) : Books deed acc' (t ++ [e]) := by
  intro r
  rw [account_snoc, h r]
  exact hstep r

theorem Books.idle (h : Books deed acc t) {w : Trace E}
    (hw : ∀ e ∈ w, ∀ r, (acc r).next (deed r) e = some (acc r)) : Books deed acc (t ++ w) := by
  induction w generalizing t with
  | nil => rwa [List.append_nil]
  | cons e w ih =>
    rw [List.append_cons]
    exact ih (h.snoc (hw e List.mem_cons_self)) fun e' he' => hw e' (List.mem_cons_of_mem e he')

theorem Books.tidy (h : Books deed acc t) (hacc : ∀ r, acc r ≠ .held) (r : R) : Tidy (deed r) t := by
  rw [Tidy, h r]
  cases hr : acc r with
  | unheld => exact .inl rfl
  | held => exact absurd hr (hacc r)
  | released => exact .inr rfl

theorem Books.not_tidy (h : Books deed acc t) {r : R} (hr : acc r = .held) : ¬ Tidy (deed r) t := by
  rw [Tidy, h r, hr]
  exact fun hor => hor.elim nofun nofun

end

/-! ### Releasing what is held -/

/-- The accounts when `r` is not held any more. -/
def settleAt [DecidableEq R] (r : R) (acc : R → Account) (r' : R) : Account :=
  if r' = r ∧ acc r' = .held then .released else acc r'

theorem settleAt_ne_held [DecidableEq R] {r r' : R} {acc : R → Account} (h : acc r' = .held → r' = r) :
    settleAt r acc r' ≠ .held := by
  unfold settleAt
  split
  · exact nofun
  · rename_i hnot
    exact fun hheld => hnot ⟨h hheld, hheld⟩

namespace Prog

/-- An operation that releases `r` and is nothing to the others, called if `r` is held. `J` is what else
is known of the history. -/
theorem along_releaseIf [DecidableEq R] {H : Halt → Prop} {G : Event E → Prop} {Q : α → Trace E → Prop}
    {deed : R → Event E → Option Deed} {acc : R → Account} {J : Trace E → Prop} {t : Trace E} {r : R}
    {c : Bool} {op : E.Op} {rest : Prog E α}
    (hdeed : ∀ x r', deed r' ⟨op, x⟩ = if r' = r then some .release else none)
    (hc : c = true ↔ acc r = .held) (hJ : ∀ x t, J t → J (t ++ [⟨op, x⟩])) (h : Books deed acc t ∧ J t)
    (hrest : ∀ t, Books deed (settleAt r acc) t ∧ J t → Along H G (fun _ _ => True) Q rest t) :
    Along H G (fun _ _ => True) Q (if c = true then perform op >>= fun _ => rest else rest) t := by
  by_cases hheld : c = true
  · rw [if_pos hheld]
    refine Along.perform_bind fun x => ⟨trivial, fun _ => hrest _ ⟨h.1.snoc fun r' => ?_, hJ x t h.2⟩⟩
    by_cases hr : r' = r
    · subst hr
      rw [Account.next_of_some (by rw [hdeed, if_pos rfl]), settleAt, if_pos ⟨rfl, hc.1 hheld⟩, hc.1 hheld]
      rfl
    · rw [Account.next_of_none (by rw [hdeed, if_neg hr]), settleAt, if_neg fun hand => hr hand.1]
  · rw [if_neg hheld]
    refine hrest t ⟨fun r' => ?_, h.2⟩
    rw [h.1 r', settleAt, if_neg]
    rintro ⟨rfl, hr⟩
    exact hheld (hc.2 hr)

/-! ### The operations of a program -/

/-- The program calls no operation outside `A`. -/
def Only (A : E.Op → Prop) (p : Prog E α) : Prop :=
  Holds (fun _ => True) (fun _ => True) (fun e => A e.op) (fun _ => True) p

section

variable {A : E.Op → Prop}

theorem Only.holds {G : Event E → Prop} {p : Prog E α} (h : Only A p) :
    Holds (fun _ => True) G (fun e => A e.op) (fun _ => True) p := by
  induction p with
  | ret a => trivial
  | halt r => trivial
  | call op k ih => exact fun x => ⟨(h x).1, fun _ => ih x ((h x).2 trivial)⟩

theorem Only.bind {p : Prog E α} {f : α → Prog E β} (hp : Only A p) (hf : ∀ a, Only A (f a)) :
    Only A (p >>= f) :=
  Holds.bind hp fun a _ => hf a

theorem Only.perform_bind {op : E.Op} {f : E.Ans op → Prog E β} (hop : A op) (hf : ∀ x, Only A (f x)) :
    Only A (perform op >>= f) :=
  Holds.perform_bind fun x => ⟨hop, fun _ => hf x⟩

theorem Only.loop {body : σ → Prog E (ρ ⊕ σ)} (hbody : ∀ s, Only A (body s)) (n : Nat) (s : σ) :
    Only A (Prog.loop body n s) :=
  Holds.loop (I := fun _ => True) trivial (fun s _ => (hbody s).post fun r _ => by cases r <;> trivial)
    n s trivial

end

end Prog

end Effects
