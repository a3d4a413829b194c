import FrameworkHacks.ECTool.FlashCommands
import FrameworkHacks.ECTool.Selection

/-!
# The stages of `cmd_reflash`

What each stage sends and what it settles. Up to the unlock nothing is sent that changes the flash or
announces a change, and a run that ends there does not report success (`holds_prepare`). What stands
behind the labels sends nothing and returns the status of the exit (`holds_finish`).
-/

namespace FrameworkHacks.ECTool

open Effects

/-- The host commands of an event neither touch the flash nor notify. -/
abbrev Quiet (e : Event Services) : Prop := Sends Harmless e

/-! ### Leaving -/

/-- What `cmd_reflash` returns when it leaves here. -/
def Exit.status : Exit → EfiStatus
  | .ret status => status
  | .ecOut _ rv status => if rv < 0 then efiDeviceError else status
  | .errorOut _ rv status => if rv < 0 then efiDeviceError else status
  | .out _ status => status

section

variable {H : Halt → Prop} {G : Event Services → Prop}

theorem holds_out (held : Held) (status : EfiStatus) :
    Prog.Holds H G (Sends fun _ => False) (· = status) (out held status) := by
  obtain ⟨file, info, firmware, verify⟩ := held
  cases file <;> cases info <;> cases firmware <;> cases verify <;>
    simp [out, shellCloseFile, freePool, Prog.Holds, Prog.bind_def, Prog.bind, Prog.perform, Sends,
      hostCommand, Prog.pure_def]

theorem holds_finish (e : Exit) :
    Prog.Holds H G (Sends fun _ => False) (· = e.status) (finish e) := by
  cases e with
  | ret status => exact Prog.holds_pure.2 rfl
  | ecOut held rv status => exact holds_out held _
  | errorOut held rv status => exact holds_out held _
  | out held status => exact holds_out held _

end

/-- An exit that does not report success. -/
def Exit.Fails (e : Exit) : Prop := e.status ≠ efiSuccess

theorem ne_success_of_error {status : EfiStatus} (h : efiError status = true) :
    status ≠ efiSuccess := by
  rintro rfl
  exact absurd h (by decide)

theorem out_fails {held : Held} {status : EfiStatus} (h : status ≠ efiSuccess) :
    (Exit.out held status).Fails := h

/-- A negative result of the EC is a device error, whatever `Status` holds. -/
theorem ecOut_fails {held : Held} {rv : Int} {status : EfiStatus} (h : rv < 0) :
    (Exit.ecOut held rv status).Fails := by
  rw [Exit.Fails, Exit.status, if_pos h]
  decide

/-! ### Before the unlock -/

/-- `FinalFlashMap`. The level of force decides whether the run gets that far, the image which map it
is. -/
def finalFlashMap (image : Mem) : Option FlashMap :=
  (roFrid image).map fun area =>
    (findFlashMap (firmwareBoardId image area) (firmwareBoardIdLength image area)).getD
      unknownBoardFlashMap

section

variable {H : Halt → Prop} {G : Event Services → Prop}

theorem quiet_getVersion (r : Reply) :
    Quiet ⟨.sendCommand ⟨ecCmdGetVersion, 0, [], sizeofGetVersion⟩, r⟩ :=
  sends_sendCommand (by simp [Harmless]; decide)

theorem holds_checkReadyForECFlash (hfault : H .fault) {P : Event Services → Prop}
    (hP : ∀ offset length m, P ⟨.readMemory offset length, m⟩) :
    Prog.Holds H G P (fun status => efiError status = false → status = efiSuccess)
      checkReadyForECFlash := by
  have hfails {status : EfiStatus} (h : efiError status = true) :
      Prog.Holds H G P (fun status => efiError status = false → status = efiSuccess)
        (pure status : Prog Services EfiStatus) := fun hfalse => by
    rw [h] at hfalse
    cases hfalse
  unfold checkReadyForECFlash
  refine Prog.Holds.perform_bind fun ecid => ⟨hP _ _ _, fun _ => ?_⟩
  split
  · exact hfails (by decide)
  refine Prog.Holds.perform_bind fun flag => ⟨hP _ _ _, fun _ => ?_⟩
  refine Prog.Holds.perform_bind fun lfcc => ⟨hP _ _ _, fun _ => ?_⟩
  refine Prog.Holds.perform_bind fun cap => ⟨hP _ _ _, fun _ => ?_⟩
  split
  · exact hfails (by decide)
  simp only []
  split
  · refine Prog.Holds.bind (Q := fun _ => True) ?_ fun low _ => ?_
    · unfold chargedBelow
      split
      · exact hfault
      · trivial
    · cases low with
      | true => exact hfails (by decide)
      | false => exact fun _ => rfl
  · exact fun _ => rfl

theorem holds_readyOrForced (hfault : H .fault) (force : Nat) :
    Prog.Holds H G Quiet (fun _ => True) (readyOrForced force) := by
  unfold readyOrForced
  split
  · trivial
  · exact (holds_checkReadyForECFlash hfault fun _ _ _ => nofun).post fun _ _ => trivial

theorem holds_loadFirmware (hfault : H .fault) (filename : String) :
    Attempt.Holds H G Quiet Exit.Fails (fun _ => True) (loadFirmware filename) := by
  unfold loadFirmware
  refine Attempt.Holds.perform_bind fun status => ⟨nofun, fun _ => ?_⟩
  refine Attempt.Holds.leaveIf_bind ne_success_of_error ?_
  intro _
  refine Attempt.Holds.perform_bind fun info => ⟨nofun, fun _ => ?_⟩
  cases info with
  | none => exact Attempt.holds_lift hfault
  | some fileSize =>
    refine Attempt.Holds.leaveIf_bind (fun _ => out_fails (by decide)) ?_
    intro _
    refine Attempt.Holds.perform_bind fun firmware => ⟨nofun, fun _ => ?_⟩
    refine Attempt.Holds.perform_bind fun verify => ⟨nofun, fun _ => ?_⟩
    refine Attempt.Holds.leaveIf_bind (fun _ => out_fails (by decide)) ?_
    intro _
    refine Attempt.Holds.perform_bind fun read => ⟨nofun, fun _ => ?_⟩
    refine Attempt.Holds.leaveIf_bind ne_success_of_error ?_
    intro _
    exact Attempt.Holds.leaveIf_bind (fun _ => out_fails (by decide)) fun _ => Attempt.holds_pure trivial

theorem holds_checkBoard (hfault : H .fault) (image : Mem) (force : Nat) :
    Attempt.Holds H G Quiet Exit.Fails (fun map => finalFlashMap image = some map)
      (checkBoard image force) := by
  unfold checkBoard
  refine Attempt.Holds.perform_bind fun r => ⟨quiet_getVersion r, fun _ => ?_⟩
  apply Attempt.Holds.leaveIf_bind ecOut_fails
  intro _
  unfold finalFlashMap
  cases roFrid image with
  | none => exact Attempt.holds_throw (out_fails (by decide))
  | some area =>
    simp only []
    split
    · refine Attempt.Holds.bind (Q := fun _ => True) (Attempt.holds_lift ?_) fun _ _ =>
        Attempt.holds_throw (out_fails (by decide))
      unfold Buf.store
      split
      · trivial
      · exact hfault
    · rw [Option.map_some]
      cases findFlashMap (firmwareBoardId image area) (firmwareBoardIdLength image area) with
      | some map => exact Attempt.holds_pure rfl
      | none =>
        exact Attempt.Holds.leaveIf_bind (fun _ => out_fails (by decide)) fun _ => Attempt.holds_pure rfl

theorem holds_countdown (i : Nat) :
    Attempt.Holds H G Quiet Exit.Fails (fun _ => True) (countdown i) := by
  induction i with
  | zero => exact Attempt.holds_pure trivial
  | succ i ih =>
    unfold countdown
    refine Attempt.Holds.perform_bind fun _ => ⟨nofun, fun _ => ?_⟩
    refine Attempt.Holds.perform_bind fun key => ⟨nofun, fun _ => ?_⟩
    exact Attempt.Holds.leaveIf_bind (fun _ => show efiAborted ≠ efiSuccess by decide) fun _ => ih

/-- **Nothing before the unlock touches the flash, and a run that ends there does not report
success.** -/
theorem holds_prepare (hfault : H .fault) (image : Mem) (a : ReflashArgs) (filename : String) :
    Attempt.Holds H G Quiet Exit.Fails
      (fun plan => finalFlashMap image = some plan.map ∧ plan.mask = regionMask a plan.map)
      (prepare image a filename) := by
  unfold prepare
  refine (Attempt.holds_lift (holds_readyOrForced hfault _)).bind ?_
  intro status _
  refine Attempt.Holds.leaveIf_bind ne_success_of_error ?_
  intro _
  apply (holds_loadFirmware hfault filename).bind
  intro verifyBuffer _
  refine (holds_checkBoard hfault image _).bind ?_
  intro map hmap
  apply (holds_countdown 7).bind
  intro _ _
  refine (Attempt.holds_lift (holds_readyOrForced hfault _)).bind ?_
  intro status _
  exact Attempt.Holds.leaveIf_bind ne_success_of_error fun _ => Attempt.holds_pure ⟨hmap, rfl⟩

/-! ### The regions -/

/-- A command the flash functions send for a region. -/
def RegionCommand (image : Mem) (r : FlashRegion) (c : HostCommand) : Prop :=
  EraseCommand r.base r.size c ∨ WriteCommand (image.drop r.base) r.base r.size c

theorem holds_flashRegion (hfault : H .fault) (hfuel : H .fuel) (fuel : Nat) (image : Mem)
    {region : FlashRegion} (hsmall : region.base + region.size < 4294967296) (verify : Buf) :
    Attempt.Holds H (fun _ => True) (Sends (RegionCommand image region)) Exit.Fails (fun _ => True)
      (flashRegion fuel image region verify) := by
  unfold flashRegion
  have herase : Prog.Holds H (fun _ => True) (Sends (RegionCommand image region)) (fun _ => True)
      (flashErase region.base region.size) :=
    holds_sends (flashErase_sends hfuel (by omega) (by omega)) fun _ hc => .inl hc
  apply (Attempt.holds_lift herase).bind
  intro rv _
  apply Attempt.Holds.leaveIf_bind ecOut_fails
  intro _
  have hwrite : Prog.Holds H (fun _ => True) (Sends (RegionCommand image region)) (fun _ => True)
      (flashWrite fuel region.base region.size ⟨image, imageSize.toNat⟩ region.base) :=
    holds_sends (flashWrite_sends hfault hfuel _ _ _ _ _) fun _ hc => .inr hc
  apply (Attempt.holds_lift hwrite).bind
  intro rv _
  apply Attempt.Holds.leaveIf_bind ecOut_fails
  intro _
  have hread : Prog.Holds H (fun _ => True) (Sends (RegionCommand image region)) (fun _ => True)
      (flashRead region.base region.size verify region.base) :=
    holds_sends (flashRead_sends hfault hfuel _ _ _ _) fun _ hc => .inl (.inl hc)
  apply (Attempt.holds_lift hread).bind
  intro read _
  apply Attempt.Holds.leaveIf_bind ecOut_fails
  intro _
  refine Attempt.Holds.leaveIf_bind (fun _ => ?_) fun _ => Attempt.holds_pure trivial
  exact show efiDeviceError ≠ efiSuccess by decide

theorem holds_flashAll (hfault : H .fault) (hfuel : H .fuel) (fuel : Nat) (image : Mem)
    {map : FlashMap} (hsmall : ∀ r ∈ map.regions, r.base + r.size < 4294967296) (ks : List Nat)
    (verify : Buf) :
    Attempt.Holds H (fun _ => True)
      (Sends fun c => ∃ k ∈ ks, ∃ r, map.regions[k]? = some r ∧ RegionCommand image r c)
      Exit.Fails (fun _ => True) (flashAll fuel image map ks verify) := by
  induction ks generalizing verify with
  | nil => exact Attempt.holds_pure trivial
  | cons k rest ih =>
    unfold flashAll
    cases hr : map.regions[k]? with
    | none => exact Attempt.holds_lift hfault
    | some region =>
      have hregion := holds_flashRegion hfault hfuel fuel image
        (hsmall region (List.mem_of_getElem? hr)) verify
      refine Attempt.Holds.bind (holds_sends hregion fun c hc => ?_) fun verify _ =>
        holds_sends (ih verify) fun c hc => ?_
      · exact ⟨k, List.mem_cons_self, region, hr, hc⟩
      · obtain ⟨j, hj, r, hrj, hc⟩ := hc
        exact ⟨j, List.mem_cons_of_mem k hj, r, hrj, hc⟩

/-! ### Notifications -/

/-- The command that notifies with these flags. -/
def notification (flags : UInt8) : HostCommand := ⟨ecCmdFlashNotified, 0, [flags], 0⟩

theorem holds_notifications (map : FlashMap) (first second : UInt8) :
    Attempt.Holds H G (Sends fun c => c = notification first ∨ c = notification second)
      Exit.Fails (fun _ => True) (if map.requiresUnlock then do
        let r ← flashNotified first
        Attempt.leaveIf (r.rv < 0) (.ecOut .all r.rv efiSuccess)
        let r ← flashNotified second
        Attempt.leaveIf (r.rv < 0) (.ecOut .all r.rv efiSuccess)
      else
        return () : Step Unit) := by
  split
  · refine Attempt.Holds.perform_bind fun r => ⟨sends_sendCommand (.inl rfl), fun _ => ?_⟩
    apply Attempt.Holds.leaveIf_bind ecOut_fails
    intro _
    refine Attempt.Holds.perform_bind fun r => ⟨sends_sendCommand (.inr rfl), fun _ => ?_⟩
    exact Attempt.holds_leaveIf ecOut_fails fun _ => trivial
  · exact Attempt.holds_pure trivial

theorem holds_unlock (map : FlashMap) :
    Attempt.Holds H G
      (Sends fun c => c = notification flashAccessSpi ∨ c = notification flashFirmwareStart)
      Exit.Fails (fun _ => True) (unlock map) :=
  holds_notifications map flashAccessSpi flashFirmwareStart

theorem holds_lock (map : FlashMap) :
    Attempt.Holds H G
      (Sends fun c => c = notification flashAccessSpiDone ∨ c = notification flashFirmwareDone)
      Exit.Fails (fun _ => True) (lock map) :=
  holds_notifications map flashAccessSpiDone flashFirmwareDone

end

/-! ### Whole runs -/

/-- A run of `cmd_reflash` that has a file name is one of `reflash` followed by the clean-up, which
sends nothing. -/
theorem cmdReflash_inv {fuel : Nat} {image : Mem} {argv : List String} {t : Trace Services}
    {o : Outcome EfiStatus} (h : Run (cmdReflash fuel image argv) t o) :
    (t = [] ∧ ∀ status, o = .done status → status = 1) ∨
      ∃ filename u v o', (reflashArgs {} (argv.drop 1)).filename = some filename ∧ t = u ++ v ∧
        Run (reflash fuel image (reflashArgs {} (argv.drop 1)) filename).run u o' ∧
        (∀ e ∈ v, Sends (fun _ => False) e) ∧
        ∀ status, o = .done status →
          (∃ e, o' = .done (.error e) ∧ status = e.status) ∨ o' = .done (.ok ()) ∧ status = efiSuccess := by
  unfold cmdReflash at h
  cases hfile : (reflashArgs {} (argv.drop 1)).filename with
  | none =>
    simp only [hfile] at h
    obtain rfl := h.pure_nil
    refine .inl ⟨rfl, fun status ho => ?_⟩
    subst ho
    exact h.pure_done.2
  | some filename =>
    simp only [hfile] at h
    refine .inr ?_
    rcases h.bind_cases with ⟨u, v, r, rfl, hu, hv⟩ | ⟨o', hr, -, ho⟩
    · have hleave (e : Exit) (hv : Run (finish e) v o) : (∀ x ∈ v, Sends (fun _ => False) x) ∧
          ∀ status, o = .done status → status = e.status := by
        have hrun := (holds_finish (H := fun _ => True) (G := fun _ => True) e).run hv fun _ _ => trivial
        exact ⟨hrun.1, hrun.2.1⟩
      cases r with
      | error e =>
        obtain ⟨hsends, hstatus⟩ := hleave e hv
        exact ⟨filename, u, v, _, rfl, rfl, hu, hsends, fun s hs => .inl ⟨e, rfl, hstatus s hs⟩⟩
      | ok a =>
        obtain ⟨hsends, hstatus⟩ := hleave _ hv
        exact ⟨filename, u, v, _, rfl, rfl, hu, hsends, fun s hs => .inr ⟨rfl, hstatus s hs⟩⟩
    · exact ⟨filename, t, [], o', rfl, (List.append_nil t).symm, hr, by simp, fun s hs => (ho s hs).elim⟩

/-! ### A sample -/

/-- An image whose flash map has one area, RO_FRID, with the given text. -/
def sampleImage (frid : String) : Mem :=
  Mem.ofList (ascii "__FMAP__" ++ List.replicate 46 0 ++ [1, 0] ++ Mem.le32Bytes 98 ++ Mem.le32Bytes 32 ++
    ascii "RO_FRID" ++ List.replicate 27 0 ++ ascii frid)

/-- Services that all succeed, on mains power and with nobody at the keyboard; the EC is left open. -/
def sampleServices (ec : HostCommand → Reply) : (op : ServiceOp) → op.Ans
  | .sendCommand c => ec c
  | .readMemory offset _ => fun i =>
    if offset = ecMemmapId then (if i = 0 then 'E'.toNat.toUInt8 else 'C'.toNat.toUInt8)
    else if offset = ecMemmapBattFlag then ecBattFlagAcPresent else 0
  | .shellOpenFileByName _ => efiSuccess
  | .shellGetFileInfo => some imageSize
  | .shellReadFile size => (efiSuccess, size)
  | .shellWriteFile .. => efiSuccess
  | .shellCloseFile => efiSuccess
  | .shellStrToUintn _ => 0
  | .allocatePool .. => some fun _ => 0
  | .freePool _ => ()
  | .readKeyStroke => efiNotReady
  | .stall _ => ()
  | .indeterminate => fun _ => 0

/-- An EC that reports a version, accepts some notifications and fails everything else. -/
def sampleEc (version : String) (accepted : UInt8 → Bool) (c : HostCommand) : Reply :=
  if c.command = ecCmdGetVersion then ⟨sizeofGetVersion, ascii version⟩
  else match c.command, c.outdata with
    | 0x3E01, [flags] => ⟨if accepted flags then 0 else -1, []⟩
    | _, _ => ⟨-1, []⟩

/-- What `cmd_reflash` then does with an image. -/
abbrev sampleRun (frid version : String) (accepted : UInt8 → Bool) (argv : List String) :
    Trace Services :=
  (cmdReflash 1 (sampleImage frid) argv).transcript (sampleServices (sampleEc version accepted))

end FrameworkHacks.ECTool
