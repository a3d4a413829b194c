import FrameworkHacks.Library.Cost
import FrameworkHacks.ECTool.Erase

/-!
# Waiting for a slow erase

An erase of version 1 is started and its result then asked for, every half second. The comment at the
counter says "up to 20 seconds at 500ms/piece", the counter says four tries. `SlowEc` is an EC that
needs any number of polls; `flashErase_patient_iff` says which of them the tool waits for.
-/

namespace FrameworkHacks.ECTool

open Effects

/-- The polling delay the code documents, 20 seconds, and the length of one stall. -/
def eraseBudget : Nat := 20000000
def erasePollDelay : Nat := 500000

/-- The request for the result of the erase. -/
def resultRequest (offset size : Int) : HostCommand :=
  eraseRequestV1 flashEraseGetResult offset size

/-- An EC that supports `FLASH_ERASE` version 1 and accepts the erase. `results n` is its reply when
it is asked for the result for the `n`-th time, counted from 0. -/
structure SlowEc where
  versions : Reply
  supported : ∀ rgv, (eraseVersionMask versions rgv).testBit 1 = true
  accepted : Reply
  accepts : 0 ≤ accepted.rv
  results : Nat → Reply

/-- It answers BUSY or not at all `polls` times, and then success. -/
structure SlowEc.DoneAfter (ec : SlowEc) (offset size : Int) (polls : Nat) : Prop where
  waiting : ∀ n < polls, LeavesOpen (resultRequest offset size) (ec.results n).rv
  done : 0 ≤ (ec.results polls).rv

/-- The EC while it is asked to erase a range; the state counts the polls. -/
def SlowEc.handler (ec : SlowEc) (offset size : Int) (rgv : Mem) : Handler Services Nat
  | .indeterminate, n => .ok (rgv, n)
  | .stall _, n => .ok ((), n)
  | .sendCommand c, n =>
    if c = versionsRequest then .ok (ec.versions, n)
    else if c = eraseRequestV1 flashEraseSectorAsync offset size then .ok (ec.accepted, n)
    else if c = resultRequest offset size then .ok (ec.results n, n + 1)
    else .error .fault
  | _, _ => .error .fault

section

variable {offset size : Int} {ec : SlowEc} {rgv : Mem}

theorem LeavesOpen.neg {c : HostCommand} {rv : Int} (h : LeavesOpen c rv) : rv < 0 := by
  rcases h with rfl | ⟨-, rfl⟩
  · decide
  · decide

theorem SlowEc.handler_versions (n : Nat) :
    ec.handler offset size rgv (.sendCommand versionsRequest) n = .ok (ec.versions, n) := by
  simp only [SlowEc.handler, if_true]

theorem SlowEc.handler_start (n : Nat) :
    ec.handler offset size rgv (.sendCommand (eraseRequestV1 flashEraseSectorAsync offset size)) n =
      .ok (ec.accepted, n) := by
  have hne : eraseRequestV1 flashEraseSectorAsync offset size ≠ versionsRequest := fun h =>
    absurd (congrArg HostCommand.version h) (by decide : (1 : Nat) ≠ 0)
  simp only [SlowEc.handler, if_neg hne, if_true]

theorem SlowEc.handler_result (n : Nat) :
    ec.handler offset size rgv (.sendCommand (resultRequest offset size)) n =
      .ok (ec.results n, n + 1) := by
  have hversion : resultRequest offset size ≠ versionsRequest := fun h =>
    absurd (congrArg HostCommand.version h) (by decide : (1 : Nat) ≠ 0)
  have hcmd : resultRequest offset size ≠ eraseRequestV1 flashEraseSectorAsync offset size := fun h =>
    absurd (congrArg (fun c => c.outdata.head?) h)
      (by decide : some flashEraseGetResult ≠ some flashEraseSectorAsync)
  simp only [SlowEc.handler, if_neg hversion, if_neg hcmd, if_true]

/-- With `tries` left, the loop sees the success if it is among as many polls. -/
theorem ends_getResult {polls : Nat} (h : ec.DoneAfter offset size polls) (tries n : Nat)
    (hn : n ≤ polls) :
    Prog.Ends (ec.handler offset size rgv)
      (Prog.loop (getResultRound offset size) (tries + 1) (tries + 1)) n
      (fun rv _ => 0 ≤ rv ↔ polls < n + (tries + 1)) := by
  induction tries generalizing n with
  | zero =>
    rw [Prog.loop_succ, getResultRound]
    simp only [bind_assoc]
    refine Prog.Ends.perform_bind rfl (Prog.Ends.perform_bind (SlowEc.handler_result n) ?_)
    rw [if_neg fun hagain => hagain.2 rfl]
    refine .pure ?_
    by_cases hlast : n = polls
    · subst hlast
      exact iff_of_true h.done (by omega)
    · have hneg := (h.waiting n (by omega)).neg
      exact iff_of_false (by omega) (by omega)
  | succ tries ih =>
    rw [Prog.loop_succ, getResultRound]
    simp only [bind_assoc]
    refine Prog.Ends.perform_bind rfl (Prog.Ends.perform_bind (SlowEc.handler_result n) ?_)
    by_cases hlast : n = polls
    · subst hlast
      have hdone := h.done
      rw [if_neg fun hagain => by omega]
      exact .pure (iff_of_true hdone (by omega))
    · have hneg := (h.waiting n (by omega)).neg
      rw [if_pos ⟨hneg, by omega⟩]
      simp only [pure_bind]
      refine (ih (n + 1) (by omega)).mono fun rv _ hiff => ?_
      rw [hiff]
      omega

theorem ends_flashErase {polls : Nat} (rgv : Mem) (h : ec.DoneAfter offset size polls) :
    Prog.Ends (ec.handler offset size rgv) (flashErase offset size) 0
      (fun rv _ => 0 ≤ rv ↔ polls < 4) := by
  unfold flashErase
  refine Prog.Ends.perform_bind rfl (Prog.Ends.perform_bind (SlowEc.handler_versions 0) ?_)
  rw [if_pos (ec.supported rgv)]
  unfold flashEraseAsync
  refine Prog.Ends.perform_bind (SlowEc.handler_start 0) ?_
  have haccepts := ec.accepts
  rw [if_neg (by omega)]
  exact (ends_getResult h 3 0 (Nat.zero_le polls)).mono fun rv _ hiff => by rw [hiff, Nat.zero_add]

end

/-! ### The number of commands -/

def commandCost : ServiceOp → Nat
  | .sendCommand _ => 1
  | _ => 0

/-- The most commands an erase sends: the versions, the erase, and a HELLO for each try. -/
def eraseCommands : Nat := 23

theorem within_getResult (offset size : Int) (tries : Nat) (h : 0 < tries) :
    Prog.Within (E := Services) commandCost (fun _ => True)
      (Prog.loop (getResultRound offset size) tries tries) tries := by
  refine Prog.Within.mono (Prog.Within.loop (b := 1) (fun tries => tries - 1) (fun tries => ?_) tries tries
    (by omega)) (by omega)
  unfold getResultRound
  refine Prog.Within.perform_bind (b := 1) fun _ => Prog.Within.perform_bind (b := 0) fun r => ?_
  split
  · rename_i hagain
    have hmore := hagain.2
    exact (by omega : tries - 1 - 1 < tries - 1)
  · trivial

theorem within_hello (fuel : Nat) (s : Int × Nat) (h : s.2 < fuel) :
    Prog.Within (E := Services) commandCost (fun _ => True) (Prog.loop helloRound fuel s) (s.2 + 1) := by
  refine Prog.Within.mono (Prog.Within.loop (b := 1) (fun s => s.2) ?_ fuel s h) (by omega)
  · rintro ⟨rv, tries⟩
    unfold helloRound
    simp only []
    split
    · rename_i hagain
      have hmore := hagain.2
      refine Prog.Within.perform_bind (b := 1) fun _ => Prog.Within.perform_bind (b := 0) fun r => ?_
      exact (by omega : tries - 1 < tries)
    · trivial

theorem within_flashErase (offset size : Int) :
    Prog.Within (E := Services) commandCost (fun _ => True) (flashErase offset size) eraseCommands := by
  unfold flashErase
  refine Prog.Within.perform_bind (b := 23) fun rgv => Prog.Within.perform_bind (b := 22) fun r => ?_
  split
  · unfold flashEraseAsync
    refine Prog.Within.perform_bind (b := 21) fun a => ?_
    split
    · trivial
    · exact (within_getResult offset size 4 (by decide)).mono (by decide)
  · exact Prog.Within.perform_bind (b := 21) fun e =>
      within_hello 21 (e.rv, 20) (Nat.lt_succ_self 20)

/-! ### Patience -/

/-- An erase the EC finishes within the documented budget is not reported as failed, and whatever the
EC answers, the erase ends after a bounded number of commands. -/
structure Patient (offset size : Int) (ec : SlowEc) (rgv : Mem) (polls : Nat) : Prop where
  succeeds : (polls + 1) * erasePollDelay ≤ eraseBudget →
    Prog.Ends (ec.handler offset size rgv) (flashErase offset size) 0 fun rv _ => 0 ≤ rv
  bounded : ∀ t o, Run (flashErase offset size) t o →
    (t.map fun e => commandCost e.op).sum ≤ eraseCommands ∧ ∀ r, o ≠ .halted r

/-- The erase is as patient as it says exactly with an EC that is done by the fourth poll, or not
within the budget at all. -/
theorem flashErase_patient_iff (offset size : Int) (ec : SlowEc) (rgv : Mem) (polls : Nat)
    (h : ec.DoneAfter offset size polls) :
    Patient offset size ec rgv polls ↔ polls < 4 ∨ eraseBudget < (polls + 1) * erasePollDelay := by
  obtain ⟨rv, n, hexec, hiff⟩ := ends_flashErase rgv h
  constructor
  · intro hpatient
    by_cases hbudget : (polls + 1) * erasePollDelay ≤ eraseBudget
    · exact .inl (hiff.1 ((Prog.ends_iff hexec).1 (hpatient.succeeds hbudget)))
    · exact .inr (by omega)
  · intro hpolls
    refine ⟨fun hbudget => ?_, fun t o hrun => (within_flashErase offset size).run hrun⟩
    exact (Prog.ends_iff hexec).2 (hiff.2 (hpolls.resolve_right (by omega)))

/-- An EC that is busy for a number of polls. -/
def busyEc (polls : Nat) : SlowEc where
  versions := ⟨4, [3, 0, 0, 0]⟩
  supported rgv := by
    have hmask : eraseVersionMask ⟨4, [3, 0, 0, 0]⟩ rgv = 3 := rfl
    rw [hmask]
    decide
  accepted := ⟨0, []⟩
  accepts := Int.le_refl 0
  results n := ⟨if n < polls then -eecresult - EcStatus.busy.code else 0, []⟩

theorem busyEc_doneAfter (offset size : Int) (polls : Nat) :
    (busyEc polls).DoneAfter offset size polls where
  waiting n hn := .inr ⟨rfl, by simp only [busyEc, if_pos hn]⟩
  done := by simp only [busyEc, Nat.lt_irrefl, if_false, Int.le_refl]

theorem flashErase_patient_three :
    (busyEc 3).DoneAfter 0x40000 0x39000 3 ∧
      (Patient 0x40000 0x39000 (busyEc 3) (fun _ => 0) 3 ↔
        3 < 4 ∨ eraseBudget < (3 + 1) * erasePollDelay) :=
  ⟨busyEc_doneAfter 0x40000 0x39000 3,
    flashErase_patient_iff 0x40000 0x39000 (busyEc 3) (fun _ => 0) 3 (busyEc_doneAfter _ _ 3)⟩

/-- An erase that takes two and a half seconds is given up. -/
theorem not_patient_four :
    ¬∀ (offset size : Int) (ec : SlowEc) (rgv : Mem) (polls : Nat), ec.DoneAfter offset size polls →
      Patient offset size ec rgv polls := by
  intro hall
  have hdone := busyEc_doneAfter 0x40000 0x39000 4
  have hpatient := hall 0x40000 0x39000 (busyEc 4) (fun _ => 0) 4 hdone
  obtain ⟨rv, n, hexec, hiff⟩ := ends_flashErase (fun _ => 0) hdone
  have hearly := hiff.1 ((Prog.ends_iff hexec).1 (hpatient.succeeds (by decide)))
  omega

end FrameworkHacks.ECTool
