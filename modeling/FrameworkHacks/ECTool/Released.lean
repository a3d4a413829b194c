import FrameworkHacks.ECTool.Resources
import FrameworkHacks.ECTool.ECTool

/-!
# What `flashread` acquires and releases

As for `reflash`, with one more thing to know at the labels: a file whose close failed has been closed, but
its pointer is not NULL, so `Out` closes it again. `tidy_iff_undisturbed` is the result for both commands.
-/

namespace FrameworkHacks.ECTool

open Effects

/-! ### `flashread` -/

def FlashreadHeld.account (held : FlashreadHeld) : Resource → Account
  | .file => bif held.file then .held else .unheld
  | .block .flashBuffer => bif held.flashBuffer then .held else .unheld
  | .block _ => .unheld

theorem FlashreadHeld.not_released (held : FlashreadHeld) (b : Block) : held.account (.block b) ≠ .released := by
  obtain ⟨unlocked, file, buffer⟩ := held
  cases b <;> cases buffer <;> simp [FlashreadHeld.account]

/-- After the close that follows the write. -/
def closedAccount : Resource → Account
  | .file => .released
  | .block .flashBuffer => .held
  | .block _ => .unheld

/-- What a close of the file returned. -/
def closeStatus : Event Services → Option EfiStatus
  | ⟨.shellCloseFile, status⟩ => some status
  | _ => none

/-- The event is not a write to the file that succeeded. -/
def NotWritten : Event Services → Prop
  | ⟨.shellWriteFile .., status⟩ => efiError status = true
  | _ => True

/-- What the first close of the file returned, after a write that succeeded. -/
def CloseReturned (t : Trace Services) (status : EfiStatus) : Prop :=
  (∃ e ∈ t, ¬ NotWritten e) ∧ (t.filterMap closeStatus).head? = some status

/-- The file was written, and the close after that failed. -/
def CloseFailed (t : Trace Services) : Prop := ∃ status, CloseReturned t status ∧ efiError status = true

theorem CloseReturned.append {t : Trace Services} {status : EfiStatus} (h : CloseReturned t status)
    (w : Trace Services) : CloseReturned (t ++ w) status := by
  obtain ⟨⟨e, he, hwritten⟩, hclose⟩ := h
  refine ⟨⟨e, List.mem_append_left w he, hwritten⟩, ?_⟩
  rw [List.filterMap_append, List.head?_append, hclose]
  rfl

theorem not_closeFailed_of_notWritten {t : Trace Services} (h : ∀ e ∈ t, NotWritten e) : ¬ CloseFailed t := by
  rintro ⟨status, ⟨⟨e, he, hwritten⟩, -⟩, -⟩
  exact hwritten (h e he)

theorem CloseReturned.not_closeFailed {t : Trace Services} {status : EfiStatus} (h : CloseReturned t status)
    (hstatus : efiError status = false) : ¬ CloseFailed t := by
  rintro ⟨status', ⟨-, hclose⟩, herror⟩
  cases h.2.symm.trans hclose
  rw [hstatus] at herror
  cases herror

/-- What is known when `flashread` leaves. -/
inductive FlashreadHeld.Accounted (held : FlashreadHeld) (t : Trace Services) : Prop
  | unwritten : Books deed held.account t → (∀ e ∈ t, NotWritten e) → Accounted held t
  | closed {status : EfiStatus} : held.file = false → held.flashBuffer = true → Books deed closedAccount t →
      CloseReturned t status → efiError status = false → Accounted held t
  | forgotten {status : EfiStatus} : held = ⟨true, true, true⟩ → Books deed closedAccount t →
      CloseReturned t status → efiError status = true → Accounted held t

theorem along_flashreadOut {held : FlashreadHeld} {acc : Resource → Account} {J : Trace Services → Prop}
    {t : Trace Services} (status : EfiStatus) (hfile : held.file = true ↔ acc .file = .held)
    (hbuffer : held.flashBuffer = true ↔ acc (.block .flashBuffer) = .held)
    (hblocks : ∀ b, acc (.block b) ≠ .released) (hrest : ∀ b, b ≠ .flashBuffer → acc (.block b) ≠ .held)
    (hJ : ∀ e t, NotWritten e → J t → J (t ++ [e])) (h : Books deed acc t ∧ J t) :
    Prog.Along (fun _ => True) (fun _ => True) (fun _ _ => True)
      (fun _ t => (∀ r, Tidy (deed r) t) ∧ J t) (flashreadOut held status) t := by
  obtain ⟨unlocked, file, buffer⟩ := held
  have hout {t : Trace Services} (h : Books deed acc t ∧ J t) :
      Prog.Along (fun _ => True) (fun _ => True) (fun _ _ => True)
        (fun _ t => (∀ r, Tidy (deed r) t) ∧ J t) (flashreadOut ⟨false, file, buffer⟩ status) t := by
    unfold flashreadOut
    simp only [Bool.false_eq_true, if_false]
    refine Prog.along_releaseIf (r := Resource.file) deed_close hfile (fun _ t => hJ _ t trivial) h
      fun t h => ?_
    refine Prog.along_releaseIf (r := Resource.block .flashBuffer) (deed_free _) ?_
      (fun _ t => hJ _ t trivial) h fun t h => ?_
    · rw [settleAt, if_neg fun hand => absurd hand.1 (by decide)]
      exact hbuffer
    refine Prog.along_pure.2 ⟨h.1.tidy fun r => ?_, h.2⟩
    cases r with
    | file => exact settleAt_ne_held fun hheld => absurd hheld (settleAt_ne_held fun _ => rfl)
    | block b =>
      refine settleAt_ne_held fun hheld => ?_
      by_contra hb
      refine settleAt_ne_held (fun hheld => ?_) hheld
      exact absurd hheld (hrest b fun heq => hb (heq ▸ rfl))
  cases unlocked with
  | false => exact hout h
  | true =>
    refine Prog.Along.perform_bind fun r => ⟨trivial, fun _ => hout ⟨?_, hJ _ t trivial h.2⟩⟩
    exact h.1.snoc fun r' => next_working (e := ⟨.sendCommand _, r⟩) trivial hblocks r'

/-- The close failed: `Out` closes the handle once more. -/
theorem along_closesTwice {t : Trace Services} {closeStatus : EfiStatus} (status : EfiStatus)
    (hbooks : Books deed closedAccount t) (hclose : CloseReturned t closeStatus)
    (herror : efiError closeStatus = true) :
    Prog.Along (fun _ => True) (fun _ => True) (fun _ _ => True)
      (fun _ t => (∀ r, Tidy (deed r) t) ↔ ¬ CloseFailed t) (flashreadOut ⟨true, true, true⟩ status) t := by
  refine Prog.Along.perform_bind fun r => ⟨trivial, fun _ => ?_⟩
  refine Prog.Along.perform_bind fun s => ⟨trivial, fun _ => ?_⟩
  refine Prog.Along.perform_bind fun x => ⟨trivial, fun _ => ?_⟩
  refine Prog.along_pure.2 (iff_of_false (fun htidy => ?_) fun hno => hno ?_)
  · have htwice : account (deed .file) (t ++ [⟨.sendCommand _, r⟩] ++ [⟨.shellCloseFile, s⟩]) = none := by
      rw [account_snoc, account_snoc, hbooks .file]
      rfl
    have hnone := account_none_append htwice [⟨.freePool .flashBuffer, x⟩]
    have hfile := htidy .file
    rw [Tidy, hnone] at hfile
    simp at hfile
  · exact ⟨_, ((hclose.append _).append _).append _, herror⟩

theorem along_flashreadFinish {e : FlashreadExit} {t : Trace Services} (h : e.held.Accounted t) :
    Prog.Along (fun _ => True) (fun _ => True) (fun _ _ => True)
      (fun _ t => (∀ r, Tidy (deed r) t) ↔ ¬ CloseFailed t) (flashreadFinish e) t := by
  have hout (status : EfiStatus) : Prog.Along (fun _ => True) (fun _ => True) (fun _ _ => True)
      (fun _ t => (∀ r, Tidy (deed r) t) ↔ ¬ CloseFailed t) (flashreadOut e.held status) t := by
    generalize e.held = held at h
    cases h with
    | unwritten hbooks hwritten =>
      obtain ⟨unlocked, file, buffer⟩ := held
      refine (along_flashreadOut (J := fun t => ∀ e ∈ t, NotWritten e) status ?_ ?_ ?_ ?_ ?_
        ⟨hbooks, hwritten⟩).post fun _ t hend => iff_of_true hend.1 (not_closeFailed_of_notWritten hend.2)
      · cases file <;> simp [FlashreadHeld.account]
      · cases buffer <;> simp [FlashreadHeld.account]
      · exact FlashreadHeld.not_released _
      · intro b hb
        cases b <;> first | exact absurd rfl hb | simp [FlashreadHeld.account]
      · intro e t he ht e' he'
        rcases List.mem_append.1 he' with he' | he'
        · exact ht e' he'
        · rwa [List.mem_singleton.1 he']
    | @closed closeStatus hfile hbuffer hbooks hclose hstatus =>
      refine (along_flashreadOut (J := fun t => CloseReturned t closeStatus) status ?_ ?_ ?_ ?_
        (fun e t _ ht => ht.append [e]) ⟨hbooks, hclose⟩).post fun _ t hend =>
          iff_of_true hend.1 (hend.2.not_closeFailed hstatus)
      · rw [hfile]
        exact ⟨nofun, nofun⟩
      · rw [hbuffer]
        exact iff_of_true rfl rfl
      · intro b
        cases b <;> decide
      · intro b hb
        cases b <;> first | exact absurd rfl hb | decide
    | forgotten hheld hbooks hclose herror =>
      subst hheld
      exact along_closesTwice status hbooks hclose herror
  cases e with
  | ecOut held rv status => exact hout _
  | out held status => exact hout status

/-- The pointers and the accounts agree, and the file was neither written nor closed. -/
def FlashreadHeld.Kept (held : FlashreadHeld) (t : Trace Services) : Prop :=
  Books deed held.account t ∧ ∀ e ∈ t, NotWritten e ∧ closeStatus e = none

theorem FlashreadHeld.Kept.snoc {held : FlashreadHeld} {t : Trace Services} {e : Event Services}
    (h : held.Kept t) (held' : FlashreadHeld) (he : NotWritten e ∧ closeStatus e = none)
    (hstep : ∀ r, (held.account r).next (deed r) e = some (held'.account r)) : held'.Kept (t ++ [e]) := by
  refine ⟨h.1.snoc hstep, fun e' he' => ?_⟩
  rcases List.mem_append.1 he' with he' | he'
  · exact h.2 e' he'
  · rwa [List.mem_singleton.1 he']

theorem FlashreadHeld.Kept.accounted {held : FlashreadHeld} {t : Trace Services} (h : held.Kept t) :
    held.Accounted t :=
  .unwritten h.1 fun e he => (h.2 e he).1

theorem FlashreadHeld.Kept.works {held : FlashreadHeld} {t : Trace Services} {α : Type} {p : Prog Services α}
    (h : held.Kept t) (hp : Prog.Only Working p) :
    Prog.Along (fun _ => True) (fun _ => True) (fun _ _ => True) (fun _ t => held.Kept t) p t := by
  refine along_working (J := fun t => ∀ e ∈ t, NotWritten e ∧ closeStatus e = none) hp held.not_released ?_ h
  intro e t he ht e' he'
  rcases List.mem_append.1 he' with he' | he'
  · exact ht e' he'
  · rw [List.mem_singleton.1 he']
    obtain ⟨op, x⟩ := e
    cases op <;> first | exact ⟨trivial, rfl⟩ | exact he.elim

theorem along_flashreadPrepare_books (argv : List String) :
    Attempt.Along (fun _ => True) (fun _ => True) (fun _ _ => True) (fun e t => e.held.Accounted t)
      (fun _ t => FlashreadHeld.Kept { file := true, flashBuffer := true } t) (flashreadPrepare argv) [] := by
  have hstart : FlashreadHeld.Kept {} [] := by
    refine ⟨fun r => ?_, nofun⟩
    cases r with
    | file => rfl
    | block b => cases b <;> rfl
  have hparsed (text : String) (v : UInt64) {t : Trace Services} (h : FlashreadHeld.Kept {} t) :
      FlashreadHeld.Kept {} (t ++ [⟨.shellStrToUintn text, v⟩]) :=
    h.snoc {} ⟨trivial, rfl⟩ fun r => next_of_use rfl (fun _ => rfl) (FlashreadHeld.not_released _) r
  unfold flashreadPrepare
  refine Attempt.Along.leaveIf_bind (fun _ => hstart.accounted) fun _ => ?_
  refine Attempt.Along.perform_bind fun offset => ⟨trivial, fun _ => ?_⟩
  refine Attempt.Along.perform_bind fun size => ⟨trivial, fun _ => ?_⟩
  have hboth := hparsed (argv.getD 2 "") size (hparsed (argv.getD 1 "") offset hstart)
  refine Attempt.Along.perform_bind fun buffer => ⟨trivial, fun _ => ?_⟩
  cases buffer with
  | none =>
    refine Attempt.along_throw (FlashreadHeld.Kept.accounted (hboth.snoc {} ⟨trivial, rfl⟩ fun r => ?_))
    cases r with
    | file => rfl
    | block b => cases b <;> rfl
  | some flashBuffer =>
    have hbuffer := hboth.snoc (e := ⟨.allocatePool .flashBuffer size, some flashBuffer⟩)
      { flashBuffer := true } ⟨trivial, rfl⟩ fun r => by
        cases r with
        | file => rfl
        | block b => cases b <;> rfl
    refine Attempt.Along.perform_bind fun status => ⟨trivial, fun _ => ?_⟩
    refine Attempt.Along.leaveIf_bind (fun herror => FlashreadHeld.Kept.accounted ?_) fun hopened => ?_
    · refine hbuffer.snoc { flashBuffer := true } ⟨trivial, rfl⟩ fun r => ?_
      cases r with
      | file => simp [Account.next, deed, herror]
      | block b => cases b <;> rfl
    · refine Attempt.along_pure (hbuffer.snoc { file := true, flashBuffer := true } ⟨trivial, rfl⟩ fun r => ?_)
      cases r with
      | file =>
        simp [Account.next, deed, hopened]
        rfl
      | block b => cases b <;> rfl

theorem along_flashreadTransfer_books (plan : FlashreadPlan) {t : Trace Services}
    (h : FlashreadHeld.Kept ⟨true, true, true⟩ t) :
    Attempt.Along (fun _ => True) (fun _ => True) (fun _ _ => True) (fun e t => e.held.Accounted t)
      (fun e t => e.held.Accounted t) (flashreadTransfer plan) t := by
  unfold flashreadTransfer
  refine (Attempt.along_lift (h.works (only_flashRead _ _ _ _))).bind fun read t h => ?_
  refine Attempt.Along.leaveIf_bind (fun _ => h.accounted) fun _ => ?_
  refine Attempt.Along.perform_bind fun status => ⟨trivial, fun _ => ?_⟩
  have hwrite : Books deed (FlashreadHeld.account ⟨true, true, true⟩)
      (t ++ [⟨.shellWriteFile plan.size read.2.bytes, status⟩]) := h.1.snoc fun r => by
    cases r with
    | file => rfl
    | block b => cases b <;> rfl
  refine Attempt.Along.leaveIf_bind (fun herror => .unwritten hwrite fun e he => ?_) fun hwritten => ?_
  · rcases List.mem_append.1 he with he | he
    · exact (h.2 e he).1
    · rw [List.mem_singleton.1 he]
      exact herror
  refine Attempt.Along.perform_bind fun closed => ⟨trivial, fun _ => ?_⟩
  have hbooks : Books deed closedAccount
      (t ++ [⟨.shellWriteFile plan.size read.2.bytes, status⟩] ++ [⟨.shellCloseFile, closed⟩]) :=
    hwrite.snoc fun r => by
      cases r with
      | file => rfl
      | block b => cases b <;> rfl
  have hclose : CloseReturned
      (t ++ [⟨.shellWriteFile plan.size read.2.bytes, status⟩] ++ [⟨.shellCloseFile, closed⟩]) closed := by
    refine ⟨⟨⟨.shellWriteFile plan.size read.2.bytes, status⟩, by simp, hwritten⟩, ?_⟩
    rw [List.filterMap_append, List.filterMap_append, List.filterMap_eq_nil_iff.2 fun e he => (h.2 e he).2]
    rfl
  refine Attempt.Along.leaveIf_bind (fun herror => .forgotten rfl hbooks hclose herror) fun hok => ?_
  exact Attempt.along_pure (.closed rfl rfl hbooks hclose (Bool.eq_false_of_not_eq_true hok))

theorem cmdFlashread_tidy_iff {argv : List String} {t : Trace Services} {status : EfiStatus}
    (h : Run (cmdFlashread argv) t (.done status)) : (∀ r, Tidy (deed r) t) ↔ ¬ CloseFailed t := by
  have hbody : Attempt.Along (fun _ => True) (fun _ => True) (fun _ _ => True)
      (fun e t => e.held.Accounted t) (fun e t => e.held.Accounted t) (flashread argv) [] := by
    unfold flashread
    refine (along_flashreadPrepare_books argv).bind fun plan t h => ?_
    refine Attempt.Along.bind (Attempt.along_lift (h.works (p := flashNotified flashAccessSpi) ?_)) fun r t h => ?_
    · exact fun _ => ⟨trivial, fun _ => trivial⟩
    refine Attempt.Along.leaveIf_bind (fun _ => FlashreadHeld.Kept.accounted h) fun _ => ?_
    exact along_flashreadTransfer_books plan h
  have halong : Prog.Along (fun _ => True) (fun _ => True) (fun _ _ => True)
      (fun _ t => (∀ r, Tidy (deed r) t) ↔ ¬ CloseFailed t) (cmdFlashread argv) [] := by
    unfold cmdFlashread
    refine Prog.Along.bind hbody fun r t hr => ?_
    cases r with
    | error e => exact along_flashreadFinish hr
    | ok e => exact along_flashreadFinish hr
  obtain ⟨-, hdone, -⟩ := halong.run h fun _ _ => trivial
  exact hdone status rfl

/-! ### Both commands -/

/-- The commands that acquire something, with their arguments. -/
inductive FileCommand
  | reflash (fuel : Nat) (image : Mem) (argv : List String)
  | flashread (argv : List String)

def FileCommand.prog : FileCommand → Prog Services EfiStatus
  | reflash fuel image argv => cmdReflash fuel image argv
  | flashread argv => cmdFlashread argv

/-- What makes each of them go wrong. -/
def FileCommand.Disturbed (t : Trace Services) : FileCommand → Prop
  | reflash .. => KeyRead t
  | flashread _ => CloseFailed t

theorem tidy_iff_undisturbed (c : FileCommand) {t : Trace Services} {status : EfiStatus}
    (h : Run c.prog t (.done status)) : (∀ r, Tidy (deed r) t) ↔ ¬ c.Disturbed t := by
  cases c with
  | reflash fuel image argv => exact cmdReflash_tidy_iff h
  | flashread argv => exact cmdFlashread_tidy_iff h

/-- A dump of no bytes, with the answers given. -/
abbrev sampleDump (answer : (op : ServiceOp) → op.Ans) : Trace Services :=
  (cmdFlashread ["flashread", "0", "0", "ec.bin"]).transcript answer

theorem tidy_sampleDump :
    Run (cmdFlashread ["flashread", "0", "0", "ec.bin"])
      (sampleDump (sampleServices fun _ => ⟨0, []⟩)) (.done efiSuccess) ∧
    ∀ r, Tidy (deed r) (sampleDump (sampleServices fun _ => ⟨0, []⟩)) := by
  have hrun : Run (cmdFlashread ["flashread", "0", "0", "ec.bin"])
      (sampleDump (sampleServices fun _ => ⟨0, []⟩)) (.done efiSuccess) := Prog.run_transcript _ _
  refine ⟨hrun, (tidy_iff_undisturbed (.flashread _) hrun).2 ?_⟩
  rintro ⟨status, ⟨-, hclose⟩, herror⟩
  obtain rfl : efiSuccess = status := Option.some.inj hclose
  exact absurd herror (by decide)

/-- Somebody presses a key. -/
def keyServices : (op : ServiceOp) → op.Ans
  | .readKeyStroke => efiSuccess
  | op => sampleServices (sampleEc "hx30_v0" fun _ => true) op

/-- The file cannot be closed. -/
def closeServices : (op : ServiceOp) → op.Ans
  | .shellCloseFile => efiDeviceError
  | op => sampleServices (fun _ => ⟨0, []⟩) op

abbrev cancelledRun : Trace Services :=
  (cmdReflash 1 (sampleImage "hx30_v1") ["reflash", "ec.bin"]).transcript keyServices

theorem not_tidy_disturbed :
    (Run (cmdReflash 1 (sampleImage "hx30_v1") ["reflash", "ec.bin"]) cancelledRun (.done efiAborted) ∧
      ¬ Tidy (deed .file) cancelledRun ∧ ¬ Tidy (deed (.block .fileInfo)) cancelledRun ∧
      ¬ Tidy (deed (.block .firmwareBuffer)) cancelledRun ∧
      ¬ Tidy (deed (.block .verifyBuffer)) cancelledRun) ∧
    Run (cmdFlashread ["flashread", "0", "0", "ec.bin"]) (sampleDump closeServices) (.done efiDeviceError) ∧
      ¬ Tidy (deed .file) (sampleDump closeServices) := by
  have hclose : Run (cmdFlashread ["flashread", "0", "0", "ec.bin"]) (sampleDump closeServices)
      (.done efiDeviceError) := Prog.run_transcript closeServices (cmdFlashread _)
  have hkey : Run (cmdReflash 1 (sampleImage "hx30_v1") ["reflash", "ec.bin"]) cancelledRun
      (.done efiAborted) := Prog.run_transcript keyServices (cmdReflash 1 _ _)
  refine ⟨⟨hkey, ?_⟩, hclose, ?_⟩
  · unfold Tidy
    decide
  · unfold Tidy
    decide

end FrameworkHacks.ECTool
