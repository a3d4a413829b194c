import FrameworkHacks.Library.Ledger
import FrameworkHacks.ECTool.Gates

/-!
# What `reflash` acquires and releases

The file handle and the blocks of pool memory as accounts along a run. The command knows what it holds by
its pointers being non-NULL (`Held`). The accounts agree with that record up to the labels (`Kept`) and
`Out` settles them (`along_out`), but the countdown returns without `Out`.
-/

namespace FrameworkHacks.ECTool

open Effects

inductive Resource
  | file
  | block (b : Block)
  deriving DecidableEq

/-- What an event is to a resource. The blocks are read and written between the calls, so every call that
is not about another resource counts as a use of a block. A close releases the handle whatever it
returns. -/
def deed : Resource → Event Services → Option Deed
  | .file, ⟨.shellOpenFileByName _, status⟩ => if efiError status then none else some .acquire
  | .file, ⟨.shellGetFileInfo, _⟩ => some .use
  | .file, ⟨.shellReadFile _, _⟩ => some .use
  | .file, ⟨.shellWriteFile .., _⟩ => some .use
  | .file, ⟨.shellCloseFile, _⟩ => some .release
  | .file, _ => none
  | .block _, ⟨.shellOpenFileByName _, _⟩ => none
  | .block _, ⟨.shellCloseFile, _⟩ => none
  | .block b, ⟨.shellGetFileInfo, info⟩ =>
    if b = .fileInfo then (if info.isSome then some .acquire else none) else some .use
  | .block b, ⟨.allocatePool b' _, block⟩ =>
    if b = b' then (if block.isSome then some .acquire else none) else none
  | .block b, ⟨.freePool b', _⟩ => if b = b' then some .release else none
  | .block _, _ => some .use

theorem deed_close (status : EfiStatus) (r : Resource) :
    deed r ⟨.shellCloseFile, status⟩ = if r = .file then some .release else none := by
  cases r with
  | file => rfl
  | block b => rfl

theorem deed_free (b : Block) (x : Unit) (r : Resource) :
    deed r ⟨.freePool b, x⟩ = if r = .block b then some .release else none := by
  cases r with
  | file => rfl
  | block b' => cases b <;> cases b' <;> rfl

/-! ### Calls that acquire and release nothing -/

section

variable {acc : Resource → Account} {t : Trace Services} {J : Trace Services → Prop}

theorem next_of_use {e : Event Services} (hfile : deed .file e = none)
    (hblock : ∀ b, deed (.block b) e = some .use) (hacc : ∀ b, acc (.block b) ≠ .released) (r : Resource) :
    (acc r).next (deed r) e = some (acc r) := by
  cases r with
  | file => exact Account.next_of_none hfile _
  | block b =>
    have hb := hacc b
    rw [Account.next_of_some (hblock b)]
    revert hb
    cases acc (.block b) <;> simp [Account.after]

/-- The calls of the parts of a command that neither acquire nor release. -/
def Working : ServiceOp → Prop
  | .sendCommand _ => True
  | .readMemory .. => True
  | .stall _ => True
  | .indeterminate => True
  | _ => False

theorem next_working {e : Event Services} (he : Working e.op) (hacc : ∀ b, acc (.block b) ≠ .released)
    (r : Resource) : (acc r).next (deed r) e = some (acc r) := by
  obtain ⟨op, x⟩ := e
  refine next_of_use ?_ (fun b => ?_) hacc r
  · cases op <;> first | rfl | exact he.elim
  · cases op <;> first | rfl | exact he.elim

theorem working_append (hacc : ∀ b, acc (.block b) ≠ .released)
    (hJ : ∀ e t, Working e.op → J t → J (t ++ [e])) (h : Books deed acc t ∧ J t) {w : Trace Services}
    (hw : ∀ e ∈ w, Working e.op) : Books deed acc (t ++ w) ∧ J (t ++ w) := by
  refine ⟨h.1.idle fun e he => next_working (hw e he) hacc, ?_⟩
  induction w generalizing t with
  | nil =>
    rw [List.append_nil]
    exact h.2
  | cons e w ih =>
    have he := hw e List.mem_cons_self
    rw [List.append_cons]
    exact ih ⟨h.1.snoc fun r => next_working he hacc r, hJ e t he h.2⟩ fun e' he' =>
      hw e' (List.mem_cons_of_mem e he')

theorem along_working {α : Type} {G : Event Services → Prop} {p : Prog Services α} (hp : Prog.Only Working p)
    (hacc : ∀ b, acc (.block b) ≠ .released) (hJ : ∀ e t, Working e.op → J t → J (t ++ [e]))
    (h : Books deed acc t ∧ J t) :
    Prog.Along (fun _ => True) G (fun _ _ => True) (fun _ t => Books deed acc t ∧ J t) p t := by
  refine (Prog.Holds.along hp.holds t fun _ _ _ _ => trivial).post ?_
  rintro a _ ⟨w, rfl, -, hw, -⟩
  exact working_append hacc hJ h hw

end

theorem only_addInt (a b : Int) : Prog.Only Working (addInt a b : Prog Services Int) :=
  holds_addInt trivial fun _ => trivial

theorem only_copyIn (b : Buf) (start : Nat) (src : Mem) (n : Nat) :
    Prog.Only Working (b.copyIn start src n : Prog Services Buf) := by
  unfold Buf.copyIn
  split <;> trivial

theorem only_copyOut (b : Buf) (start n : Nat) : Prog.Only Working (b.copyOut start n : Prog Services Mem) := by
  unfold Buf.copyOut
  split <;> trivial

theorem only_flashRead (offset size : Int) (buffer : Buf) (start : Nat) :
    Prog.Only Working (flashRead offset size buffer start) := by
  refine .loop (fun s => ?_) _ _
  unfold flashReadRound
  simp only []
  split
  · refine (only_addInt _ _).bind fun a => .perform_bind trivial fun r => ?_
    split
    · trivial
    · exact (only_copyIn _ _ _ _).bind fun b => (only_addInt _ _).bind fun i => trivial
  · trivial

theorem only_flashWrite (fuel : Nat) (offset size : Int) (buffer : Buf) (start : Nat) :
    Prog.Only Working (flashWrite fuel offset size buffer start) := by
  unfold flashWrite
  refine .perform_bind trivial fun info => .perform_bind trivial fun r => ?_
  split
  · trivial
  simp only []
  split
  · trivial
  refine .loop (fun s => ?_) _ _
  unfold flashWriteRound
  simp only []
  split
  · refine (only_addInt _ _).bind fun a => (only_copyIn _ _ _ _).bind fun b =>
      (only_copyOut _ _ _).bind fun m => (only_copyIn _ _ _ _).bind fun b =>
      .perform_bind trivial fun r => ?_
    split
    · trivial
    · exact (only_addInt _ _).bind fun i => trivial
  · trivial

theorem only_flashErase (offset size : Int) : Prog.Only Working (flashErase offset size) := by
  unfold flashErase
  refine .perform_bind trivial fun rgv => .perform_bind trivial fun r => ?_
  split
  · unfold flashEraseAsync
    refine .perform_bind trivial fun r => ?_
    split
    · trivial
    · refine .loop (fun tries => ?_) _ _
      unfold getResultRound
      refine .perform_bind trivial fun _ => .perform_bind trivial fun r => ?_
      split <;> trivial
  · refine .perform_bind trivial fun r => .loop (fun s => ?_) _ _
    unfold helloRound
    simp only []
    split
    · exact .perform_bind trivial fun _ => .perform_bind trivial fun r => trivial
    · trivial

theorem only_checkReadyForECFlash : Prog.Only Working checkReadyForECFlash :=
  (holds_checkReadyForECFlash trivial fun _ _ _ => trivial).post fun _ _ => trivial

theorem only_readyOrForced (force : Nat) : Prog.Only Working (readyOrForced force) := by
  unfold readyOrForced
  split
  · trivial
  · exact only_checkReadyForECFlash

/-! ### `reflash` -/

/-- The accounts of what the pointers say is held. -/
def Held.account (held : Held) : Resource → Account
  | .file => bif held.firmwareFile then .held else .unheld
  | .block .fileInfo => bif held.fileInfo then .held else .unheld
  | .block .firmwareBuffer => bif held.firmwareBuffer then .held else .unheld
  | .block .verifyBuffer => bif held.verifyBuffer then .held else .unheld
  | .block .flashBuffer => .unheld

theorem Held.not_released (held : Held) (r : Resource) : held.account r ≠ .released := by
  obtain ⟨file, info, firmware, verify⟩ := held
  cases r with
  | file => cases file <;> exact nofun
  | block b => cases b <;> cases info <;> cases firmware <;> cases verify <;> exact nofun

/-- A key was read. -/
def KeyRead (t : Trace Services) : Prop :=
  ∃ e ∈ t, ∃ status, keyStatus e = some status ∧ efiError status = false

theorem keyRead_snoc {t : Trace Services} {e : Event Services} :
    KeyRead (t ++ [e]) ↔ KeyRead t ∨ ∃ status, keyStatus e = some status ∧ efiError status = false := by
  simp only [KeyRead, List.mem_append, List.mem_singleton]
  constructor
  · rintro ⟨e', he' | rfl, h⟩
    · exact .inl ⟨e', he', h⟩
    · exact .inr h
  · rintro (⟨e', he', h⟩ | h)
    · exact ⟨e', .inl he', h⟩
    · exact ⟨e, .inr rfl, h⟩

theorem not_keyRead_snoc {t : Trace Services} {e : Event Services} (he : keyStatus e = none)
    (h : ¬ KeyRead t) : ¬ KeyRead (t ++ [e]) := by
  rw [keyRead_snoc, he]
  exact fun hor => hor.elim h nofun

theorem keyStatus_working {e : Event Services} (he : Working e.op) : keyStatus e = none := by
  obtain ⟨op, x⟩ := e
  cases op <;> first | rfl | exact he.elim

/-- The pointers and the accounts agree, and no key was read. -/
def Kept (held : Held) (t : Trace Services) : Prop := Books deed held.account t ∧ ¬ KeyRead t

theorem Kept.works {held : Held} {t w : Trace Services} (h : Kept held t) (hw : ∀ e ∈ w, Working e.op) :
    Kept held (t ++ w) :=
  working_append (J := fun t => ¬ KeyRead t) (fun _ => held.not_released _)
    (fun _ _ he => not_keyRead_snoc (keyStatus_working he)) h hw

/-- What is known when `reflash` leaves. -/
def Exit.Accounted (t : Trace Services) : Exit → Prop
  | .ret _ => Books deed Held.all.account t ∧ KeyRead t
  | .ecOut held _ _ => Kept held t
  | .errorOut held _ _ => Kept held t
  | .out held _ => Kept held t

theorem along_out {held : Held} {t : Trace Services} (status : EfiStatus) (h : Kept held t) :
    Prog.Along (fun _ => True) (fun _ => True) (fun _ _ => True)
      (fun _ t => (∀ r, Tidy (deed r) t) ∧ ¬ KeyRead t) (out held status) t := by
  obtain ⟨file, info, firmware, verify⟩ := held
  unfold out
  simp only []
  have hkey {e : Event Services} (he : keyStatus e = none) (t : Trace Services) :
      ¬ KeyRead t → ¬ KeyRead (t ++ [e]) := not_keyRead_snoc he
  refine Prog.along_releaseIf (r := Resource.file) deed_close ?_ (fun _ => hkey rfl) h fun t h => ?_
  · cases file <;> simp [Held.account]
  refine Prog.along_releaseIf (r := Resource.block .fileInfo) (deed_free _) ?_ (fun _ => hkey rfl) h fun t h => ?_
  · cases info <;> simp [settleAt, Held.account]
  refine Prog.along_releaseIf (r := Resource.block .firmwareBuffer) (deed_free _) ?_ (fun _ => hkey rfl) h
    fun t h => ?_
  · cases firmware <;> simp [settleAt, Held.account]
  refine Prog.along_releaseIf (r := Resource.block .verifyBuffer) (deed_free _) ?_ (fun _ => hkey rfl) h
    fun t h => ?_
  · cases verify <;> simp [settleAt, Held.account]
  refine Prog.along_pure.2 ⟨h.1.tidy fun r => ?_, h.2⟩
  -- each resource is settled by its own release, and by none after it
  have later {r r' : Resource} {acc : Resource → Account} (h : acc r' ≠ .held) : settleAt r acc r' ≠ .held :=
    settleAt_ne_held fun hheld => absurd hheld h
  cases r with
  | file => exact later (later (later (settleAt_ne_held fun _ => rfl)))
  | block b =>
    cases b with
    | fileInfo => exact later (later (settleAt_ne_held fun _ => rfl))
    | firmwareBuffer => exact later (settleAt_ne_held fun _ => rfl)
    | verifyBuffer => exact settleAt_ne_held fun _ => rfl
    | flashBuffer => exact later (later (later (later (by decide : Account.unheld ≠ .held))))

theorem along_finish {e : Exit} {t : Trace Services} (h : e.Accounted t) :
    Prog.Along (fun _ => True) (fun _ => True) (fun _ _ => True)
      (fun _ t => (∀ r, Tidy (deed r) t) ↔ ¬ KeyRead t) (finish e) t := by
  cases e with
  | ret status =>
    refine Prog.along_pure.2 (iff_of_false (fun htidy => ?_) fun hno => hno h.2)
    exact h.1.not_tidy (r := Resource.file) rfl (htidy .file)
  | ecOut held rv status => exact (along_out _ h).post fun _ _ hend => iff_of_true hend.1 hend.2
  | errorOut held rv status => exact (along_out _ h).post fun _ _ hend => iff_of_true hend.1 hend.2
  | out held status => exact (along_out _ h).post fun _ _ hend => iff_of_true hend.1 hend.2

/-! The parts before the labels. -/

/-- An exit that releases everything. -/
def Exit.ReleasesAll : Exit → Prop
  | .ret _ => False
  | .ecOut held _ _ => held = .all
  | .errorOut held _ _ => held = .all
  | .out held _ => held = .all

theorem Exit.ReleasesAll.accounted {e : Exit} {t : Trace Services} (he : e.ReleasesAll) (h : Kept .all t) :
    e.Accounted t := by
  cases e with
  | ret status => exact he.elim
  | ecOut held rv status => exact he ▸ h
  | errorOut held rv status => exact he ▸ h
  | out held status => exact he ▸ h

/-- A part that only works on what is held. -/
def Works {α : Type} (x : Step α) : Prop :=
  Attempt.Holds (fun _ => True) (fun _ => True) (fun e => Working e.op) Exit.ReleasesAll (fun _ => True) x

theorem works_checkBoard (image : Mem) (force : Nat) : Works (checkBoard image force) := by
  unfold checkBoard
  refine Attempt.Holds.perform_bind fun r => ⟨trivial, fun _ => ?_⟩
  refine Attempt.Holds.leaveIf_bind (fun _ => rfl) fun _ => ?_
  cases roFrid image with
  | none => exact Attempt.holds_throw rfl
  | some area =>
    simp only []
    split
    · refine Attempt.Holds.bind (Q := fun _ => True) (Attempt.holds_lift ?_) fun _ _ => Attempt.holds_throw rfl
      unfold Buf.store
      split <;> trivial
    · cases findFlashMap (firmwareBoardId image area) (firmwareBoardIdLength image area) with
      | some map => exact Attempt.holds_pure trivial
      | none => exact Attempt.Holds.leaveIf_bind (fun _ => rfl) fun _ => Attempt.holds_pure trivial

theorem works_flashRegion (fuel : Nat) (image : Mem) (region : FlashRegion) (verify : Buf) :
    Works (flashRegion fuel image region verify) := by
  unfold flashRegion
  refine (Attempt.holds_lift (only_flashErase _ _)).bind fun rv _ => ?_
  refine Attempt.Holds.leaveIf_bind (fun _ => rfl) fun _ => ?_
  refine (Attempt.holds_lift (only_flashWrite _ _ _ _ _)).bind fun rv _ => ?_
  refine Attempt.Holds.leaveIf_bind (fun _ => rfl) fun _ => ?_
  refine (Attempt.holds_lift (only_flashRead _ _ _ _)).bind fun read _ => ?_
  refine Attempt.Holds.leaveIf_bind (fun _ => rfl) fun _ => ?_
  exact Attempt.Holds.leaveIf_bind (fun _ => rfl) fun _ => Attempt.holds_pure trivial

theorem works_flashRegions (fuel : Nat) (image : Mem) (map : FlashMap) (mask : BitVec 16) (verify : Buf) :
    Works (flashRegions fuel image map mask verify) := by
  refine Prog.Holds.loop (I := fun _ => True) trivial ?_ _ _ trivial
  rintro ⟨mask, verify⟩ _
  unfold regionRound
  simp only []
  split
  · trivial
  · cases map.regions[highestBit mask]? with
    | none => trivial
    | some region =>
      refine Prog.Holds.bind (works_flashRegion fuel image region verify) fun r hr => ?_
      cases r with
      | error e => exact hr
      | ok verify => trivial

theorem works_notifications (map : FlashMap) (first second : UInt8) :
    Works (if map.requiresUnlock then do
        let r ← flashNotified first
        Attempt.leaveIf (r.rv < 0) (.ecOut .all r.rv efiSuccess)
        let r ← flashNotified second
        Attempt.leaveIf (r.rv < 0) (.ecOut .all r.rv efiSuccess)
      else
        return () : Step Unit) := by
  split
  · refine Attempt.Holds.perform_bind fun r => ⟨trivial, fun _ => ?_⟩
    refine Attempt.Holds.leaveIf_bind (fun _ => rfl) fun _ => ?_
    refine Attempt.Holds.perform_bind fun r => ⟨trivial, fun _ => ?_⟩
    exact Attempt.holds_leaveIf (fun _ => rfl) fun _ => trivial
  · exact Attempt.holds_pure trivial

theorem Works.along {α : Type} {x : Step α} (hx : Works x) {t : Trace Services} (h : Kept .all t) :
    Attempt.Along (fun _ => True) (fun _ => True) (fun _ _ => True) (fun e t => e.Accounted t)
      (fun _ t => Kept .all t) x t := by
  refine (Prog.Holds.along hx t fun _ _ _ _ => trivial).post ?_
  rintro r _ ⟨w, rfl, -, hw, hr⟩
  cases r with
  | ok a => exact h.works hw
  | error e => exact Exit.ReleasesAll.accounted hr (h.works hw)

theorem along_readyOrForced {held : Held} {t : Trace Services} (force : Nat) (h : Kept held t) :
    Prog.Along (fun _ => True) (fun _ => True) (fun _ _ => True) (fun _ t => Kept held t)
      (readyOrForced force) t :=
  along_working (J := fun t => ¬ KeyRead t) (only_readyOrForced force) (fun _ => held.not_released _)
    (fun _ _ he => not_keyRead_snoc (keyStatus_working he)) h

theorem Kept.snoc {held : Held} {t : Trace Services} {e : Event Services} (h : Kept held t) (held' : Held)
    (hkey : keyStatus e = none) (hstep : ∀ r, (held.account r).next (deed r) e = some (held'.account r)) :
    Kept held' (t ++ [e]) :=
  ⟨h.1.snoc hstep, not_keyRead_snoc hkey h.2⟩

theorem along_loadFirmware (filename : String) {t : Trace Services} (h : Kept {} t) :
    Attempt.Along (fun _ => True) (fun _ => True) (fun _ _ => True) (fun e t => e.Accounted t)
      (fun _ t => Kept .all t) (loadFirmware filename) t := by
  unfold loadFirmware
  refine Attempt.Along.perform_bind fun status => ⟨trivial, fun _ => ?_⟩
  refine Attempt.Along.leaveIf_bind (fun herror => ?_) fun hopened => ?_
  · refine h.snoc {} rfl fun r => ?_
    cases r with
    | file => simp [Account.next, deed, herror]
    | block b => cases b <;> rfl
  have hfile : Kept { firmwareFile := true } (t ++ [⟨.shellOpenFileByName filename, status⟩]) := by
    refine h.snoc { firmwareFile := true } rfl fun r => ?_
    cases r with
    | file =>
      simp [Account.next, deed, hopened]
      rfl
    | block b => cases b <;> rfl
  refine Attempt.Along.perform_bind fun info => ⟨trivial, fun _ => ?_⟩
  cases info with
  | none => exact Attempt.along_lift trivial
  | some fileSize =>
    have hinfo := hfile.snoc (e := ⟨.shellGetFileInfo, some fileSize⟩)
      { firmwareFile := true, fileInfo := true } rfl fun r => by
        cases r with
        | file => rfl
        | block b => cases b <;> rfl
    refine Attempt.Along.leaveIf_bind (fun _ => hinfo) fun _ => ?_
    refine Attempt.Along.perform_bind fun firmware => ⟨trivial, fun _ => ?_⟩
    have hfirmware := hinfo.snoc (e := ⟨.allocatePool .firmwareBuffer fileSize, firmware⟩)
      { firmwareFile := true, fileInfo := true, firmwareBuffer := firmware.isSome } rfl fun r => by
        cases r with
        | file => rfl
        | block b => cases b <;> cases firmware <;> rfl
    refine Attempt.Along.perform_bind fun verify => ⟨trivial, fun _ => ?_⟩
    have hverify := hfirmware.snoc (e := ⟨.allocatePool .verifyBuffer fileSize, verify⟩)
      ⟨true, true, firmware.isSome, verify.isSome⟩ rfl fun r => by
        cases r with
        | file => rfl
        | block b => cases b <;> cases firmware <;> cases verify <;> rfl
    refine Attempt.Along.leaveIf_bind (fun _ => hverify) fun hall => ?_
    obtain ⟨firmware, rfl⟩ : ∃ m, firmware = some m := by
      cases firmware with
      | none => exact (hall (.inl rfl)).elim
      | some m => exact ⟨m, rfl⟩
    obtain ⟨verify, rfl⟩ : ∃ m, verify = some m := by
      cases verify with
      | none => exact (hall (.inr rfl)).elim
      | some m => exact ⟨m, rfl⟩
    refine Attempt.Along.perform_bind fun read => ⟨trivial, fun _ => ?_⟩
    have hread := hverify.snoc (e := ⟨.shellReadFile fileSize, read⟩) .all rfl fun r => by
      cases r with
      | file => rfl
      | block b => cases b <;> rfl
    refine Attempt.Along.leaveIf_bind (fun _ => hread) fun _ => ?_
    exact Attempt.Along.leaveIf_bind (fun _ => hread) fun _ => Attempt.along_pure hread

theorem along_countdown (i : Nat) {t : Trace Services} (h : Kept .all t) :
    Attempt.Along (fun _ => True) (fun _ => True) (fun _ _ => True) (fun e t => e.Accounted t)
      (fun _ t => Kept .all t) (countdown i) t := by
  induction i generalizing t with
  | zero => exact Attempt.along_pure h
  | succ i ih =>
    unfold countdown
    refine Attempt.Along.perform_bind fun _ => ⟨trivial, fun _ => ?_⟩
    have hstall := h.works (w := [⟨.stall 1000000, ()⟩]) (by simp [Working])
    refine Attempt.Along.perform_bind fun status => ⟨trivial, fun _ => ?_⟩
    have hbooks := hstall.1.snoc (e := ⟨.readKeyStroke, status⟩)
      fun r => next_of_use rfl (fun _ => rfl) (fun _ => Held.all.not_released _) r
    refine Attempt.Along.leaveIf_bind (fun hread => ?_) fun hnone => ?_
    · exact ⟨hbooks, keyRead_snoc.2 (.inr ⟨status, rfl, hread⟩)⟩
    · refine ih ⟨hbooks, fun hread => ?_⟩
      rcases keyRead_snoc.1 hread with hbefore | ⟨status', hstatus, hread⟩
      · exact hstall.2 hbefore
      · cases hstatus
        exact hnone hread

theorem along_reflash (fuel : Nat) (image : Mem) (a : ReflashArgs) (filename : String) :
    Attempt.Along (fun _ => True) (fun _ => True) (fun _ _ => True) (fun e t => e.Accounted t)
      (fun _ t => Kept .all t) (reflash fuel image a filename) [] := by
  have hstart : Kept {} [] := by
    refine ⟨fun r => ?_, nofun⟩
    cases r with
    | file => rfl
    | block b => cases b <;> rfl
  have hprepare : Attempt.Along (fun _ => True) (fun _ => True) (fun _ _ => True)
      (fun e t => e.Accounted t) (fun _ t => Kept .all t) (prepare image a filename) [] := by
    unfold prepare
    refine (Attempt.along_lift (along_readyOrForced _ hstart)).bind fun status t h => ?_
    refine Attempt.Along.leaveIf_bind (fun _ => h) fun _ => ?_
    refine (along_loadFirmware filename h).bind fun verify t h => ?_
    refine ((works_checkBoard image _).along h).bind fun map t h => ?_
    refine (along_countdown 7 h).bind fun _ t h => ?_
    refine (Attempt.along_lift (along_readyOrForced _ h)).bind fun status t h => ?_
    exact Attempt.Along.leaveIf_bind (fun _ => h) fun _ => Attempt.along_pure h
  unfold reflash
  refine hprepare.bind fun plan t h => ?_
  refine ((works_notifications plan.map _ _).along h).bind fun _ t h => ?_
  refine ((works_flashRegions _ _ _ _ _).along h).bind fun _ t h => ?_
  exact (works_notifications plan.map _ _).along h

theorem cmdReflash_tidy_iff {fuel : Nat} {image : Mem} {argv : List String} {t : Trace Services}
    {status : EfiStatus} (h : Run (cmdReflash fuel image argv) t (.done status)) :
    (∀ r, Tidy (deed r) t) ↔ ¬ KeyRead t := by
  have halong : Prog.Along (fun _ => True) (fun _ => True) (fun _ _ => True)
      (fun _ t => (∀ r, Tidy (deed r) t) ↔ ¬ KeyRead t) (cmdReflash fuel image argv) [] := by
    unfold cmdReflash
    simp only []
    cases (reflashArgs {} (argv.drop 1)).filename with
    | none => exact Prog.along_pure.2 (iff_of_true (fun r => .inl rfl) nofun)
    | some filename =>
      refine Prog.Along.bind (along_reflash fuel image _ filename) fun r t hr => ?_
      cases r with
      | error e => exact along_finish hr
      | ok _ => exact along_finish (e := .out .all efiSuccess) hr
  obtain ⟨-, hdone, -⟩ := halong.run h fun _ _ => trivial
  exact hdone status rfl

end FrameworkHacks.ECTool
