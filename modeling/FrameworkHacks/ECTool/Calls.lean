import FrameworkHacks.ECTool.Main
import FrameworkHacks.ECTool.Reading
import FrameworkHacks.ECTool.Stages

/-!
# What each command may call

`Calls cmds` allows host commands with the numbers in `cmds`, in a size that both libraries can carry, reads
of the memory map that both libraries serve alike, and every other service. Each command of the tool keeps
to a list of its own (`handler_calls`).
-/

namespace FrameworkHacks.ECTool

open Effects

def Calls (cmds : List Nat) : ServiceOp → Prop
  | .sendCommand c => c.command ∈ cmds ∧ c.version < 256 ∧ c.outdata.length ≤ gEcMaxRequest ∧
      c.insize ≤ gEcMaxResponse
  | .readMemory offset length => 0 < length ∧ offset + length ≤ ecMemmapSize ∧ offset % 4 = 0
  | _ => True

/-- The program keeps to these commands. -/
abbrev KeepsTo (cmds : List Nat) {α : Type} (p : Prog Services α) : Prop :=
  Prog.Holds (fun _ => True) (fun _ => True) (fun e => Calls cmds e.op) (fun _ => True) p

/-- So does the attempt. -/
abbrev StepKeepsTo (cmds : List Nat) {ε α : Type} (x : Attempt Services ε α) : Prop :=
  Attempt.Holds (fun _ => True) (fun _ => True) (fun e => Calls cmds e.op) (fun _ => True) (fun _ => True) x

variable {cmds : List Nat}

/-! ### Flash.c -/

theorem flashRead_calls (h : ecCmdFlashRead ∈ cmds) (offset size : Int) (buffer : Buf) (start : Nat) :
    KeepsTo cmds (flashRead offset size buffer start) := by
  unfold flashRead
  refine Prog.Holds.loop (I := fun s => 0 ≤ s.1) trivial ?_ _ _ (Int.le_refl 0)
  rintro ⟨i, buf, buffer⟩ hi
  simp only at hi
  obtain ⟨k, rfl⟩ := Int.eq_ofNat_of_zero_le hi
  unfold flashReadRound
  by_cases hlt : (k : Int) < size
  · simp only [if_pos hlt]
    refine (holds_addInt (Q := fun _ => True) trivial fun _ => trivial).bind ?_
    intro a _
    have hchunk : toUint32 (min (size - k) gEcMaxResponse) ≤ gEcMaxResponse := by
      have := chunkSize_eq hlt
      unfold chunkSize at this
      rw [gEcMaxResponse_eq] at this ⊢
      omega
    refine Prog.Holds.perform_bind fun r => ⟨⟨h, by simp, ?_, hchunk⟩, fun _ => ?_⟩
    · simp [offsetSize, Mem.le32Bytes, gEcMaxRequest_eq]
    split
    · trivial
    refine (Buf.holds_copyIn (Q := fun _ => True) trivial fun _ => trivial).bind ?_
    intro b _
    generalize hmax : (gEcMaxResponse : Int) = chunk
    exact (holds_addInt (Q := fun a => 0 ≤ a) trivial fun _ => by omega).bind fun a ha => ha
  · simp only [if_neg hlt]
    trivial

theorem flashWrite_calls (hinfo : ecCmdFlashInfo ∈ cmds) (hwrite : ecCmdFlashWrite ∈ cmds) (fuel : Nat)
    (offset size : Int) (buffer : Buf) (start : Nat) :
    KeepsTo cmds (flashWrite fuel offset size buffer start) := by
  unfold flashWrite
  refine Prog.Holds.perform_bind fun info => ⟨trivial, fun _ => ?_⟩
  refine Prog.Holds.perform_bind fun r => ⟨⟨hinfo, by simp, by simp, by decide⟩, fun _ => ?_⟩
  split
  · trivial
  simp only []
  split
  · trivial
  -- the request is laid out in a buffer of the largest size
  refine Prog.Holds.loop (I := fun s => s.2.size = gEcMaxRequest) trivial ?_ _ _ rfl
  rintro ⟨i, commandBuffer⟩ hsize
  simp only at hsize
  unfold flashWriteRound
  by_cases hlt : i < size
  swap
  · simp only [if_neg hlt]
    trivial
  simp only [if_pos hlt]
  refine (holds_addInt (Q := fun _ => True) trivial fun _ => trivial).bind ?_
  intro a _
  refine (Buf.holds_copyIn (Q := fun b => b.size = gEcMaxRequest) trivial fun _ => hsize).bind ?_
  intro b hb
  refine (Buf.holds_copyOut (Q := fun _ => True) trivial fun _ => trivial).bind ?_
  intro source _
  refine (Buf.holds_copyIn (Q := fun b' => b'.size = gEcMaxRequest ∧
    sizeofFlashWrite + toUint32 (min (size - i) _) ≤ gEcMaxRequest) trivial fun hfit => ⟨hb, hb ▸ hfit⟩).bind ?_
  rintro b' ⟨hb', hfit⟩
  refine Prog.Holds.perform_bind fun r => ⟨⟨hwrite, by simp, ?_, by simp⟩, fun _ => ?_⟩
  · rw [Mem.toList_length]
    exact hfit
  split
  · trivial
  · exact (holds_addInt (Q := fun _ => True) trivial fun _ => trivial).bind fun _ _ => Prog.holds_pure.2 hb'

theorem sendErase_calls (h : ecCmdFlashErase ∈ cmds) (cmd : UInt8) (offset size : Int) :
    KeepsTo cmds (sendErase cmd offset size) :=
  fun _ => ⟨⟨h, by simp, by simp [eraseParams, offsetSize, Mem.le32Bytes, gEcMaxRequest_eq], by simp⟩,
    fun _ => trivial⟩

theorem flashErase_calls (hversions : ecCmdGetCmdVersions ∈ cmds) (herase : ecCmdFlashErase ∈ cmds)
    (hhello : ecCmdHello ∈ cmds) (offset size : Int) : KeepsTo cmds (flashErase offset size) := by
  unfold flashErase
  refine Prog.Holds.perform_bind fun rgv => ⟨trivial, fun _ => ?_⟩
  refine Prog.Holds.perform_bind fun r => ⟨⟨hversions, by simp, by simp [gEcMaxRequest_eq], by decide⟩, fun _ => ?_⟩
  split
  · unfold flashEraseAsync
    refine (sendErase_calls herase _ offset size).bind ?_
    intro r _
    split
    · trivial
    refine Prog.Holds.loop (I := fun _ => True) trivial ?_ _ _ trivial
    intro tries _
    unfold getResultRound
    refine Prog.Holds.perform_bind fun _ => ⟨trivial, fun _ => ?_⟩
    refine (sendErase_calls herase _ offset size).bind ?_
    intro r _
    split <;> trivial
  · refine Prog.Holds.perform_bind fun r => ⟨⟨herase, by simp, ?_, by simp⟩, fun _ => ?_⟩
    · simp [offsetSize, Mem.le32Bytes, gEcMaxRequest_eq]
    refine Prog.Holds.loop (I := fun _ => True) trivial ?_ _ _ trivial
    rintro ⟨rv, tries⟩ _
    rw [helloRound]
    split
    · refine Prog.Holds.perform_bind fun _ => ⟨trivial, fun _ => ?_⟩
      refine Prog.Holds.perform_bind fun r => ⟨⟨hhello, by simp, ?_, by decide⟩, fun _ => trivial⟩
      simp [Mem.le32Bytes, gEcMaxRequest_eq]
    · trivial

theorem flashNotified_calls (h : ecCmdFlashNotified ∈ cmds) (flags : UInt8) :
    KeepsTo cmds (flashNotified flags) :=
  fun _ => ⟨⟨h, by simp, by simp [gEcMaxRequest_eq], by simp⟩, fun _ => trivial⟩

/-! ### FWUpdate.c -/

theorem readyOrForced_calls (force : Nat) : KeepsTo cmds (readyOrForced force) := by
  have hread {offset length : Nat} (h : 0 < length ∧ offset + length ≤ ecMemmapSize ∧ offset % 4 = 0) :
      Calls cmds (.readMemory offset length) := h
  unfold readyOrForced
  split
  · trivial
  unfold checkReadyForECFlash
  refine Prog.Holds.perform_bind fun ecid => ⟨hread (by decide), fun _ => ?_⟩
  split
  · trivial
  refine Prog.Holds.perform_bind fun flag => ⟨hread (by decide), fun _ => ?_⟩
  refine Prog.Holds.perform_bind fun lfcc => ⟨hread (by decide), fun _ => ?_⟩
  refine Prog.Holds.perform_bind fun cap => ⟨hread (by decide), fun _ => ?_⟩
  split
  · trivial
  simp only []
  split
  · refine Prog.Holds.bind (Q := fun _ => True) ?_ fun low _ => ?_
    · unfold chargedBelow
      split <;> trivial
    · cases low <;> trivial
  · trivial

theorem loadFirmware_calls (filename : String) : StepKeepsTo cmds (loadFirmware filename) := by
  unfold loadFirmware
  refine Attempt.Holds.perform_bind fun status => ⟨trivial, fun _ => ?_⟩
  refine Attempt.Holds.leaveIf_bind (fun _ => trivial) fun _ => ?_
  refine Attempt.Holds.perform_bind fun info => ⟨trivial, fun _ => ?_⟩
  cases info with
  | none => exact Attempt.holds_lift (Q := fun _ => True) trivial
  | some fileSize =>
    refine Attempt.Holds.leaveIf_bind (fun _ => trivial) fun _ => ?_
    refine Attempt.Holds.perform_bind fun firmware => ⟨trivial, fun _ => ?_⟩
    refine Attempt.Holds.perform_bind fun verify => ⟨trivial, fun _ => ?_⟩
    refine Attempt.Holds.leaveIf_bind (fun _ => trivial) fun _ => ?_
    refine Attempt.Holds.perform_bind fun read => ⟨trivial, fun _ => ?_⟩
    refine Attempt.Holds.leaveIf_bind (fun _ => trivial) fun _ => ?_
    exact Attempt.Holds.leaveIf_bind (fun _ => trivial) fun _ => Attempt.holds_pure trivial

theorem checkBoard_calls (h : ecCmdGetVersion ∈ cmds) (image : Mem) (force : Nat) :
    StepKeepsTo cmds (checkBoard image force) := by
  unfold checkBoard
  refine Attempt.Holds.perform_bind fun r => ⟨⟨h, by simp, by simp, by decide⟩, fun _ => ?_⟩
  refine Attempt.Holds.leaveIf_bind (fun _ => trivial) fun _ => ?_
  cases roFrid image with
  | none => exact Attempt.holds_throw trivial
  | some area =>
    simp only []
    split
    · refine Attempt.Holds.bind (Q := fun _ => True) (Attempt.holds_lift ?_) fun _ _ => Attempt.holds_throw trivial
      unfold Buf.store
      split <;> trivial
    · cases findFlashMap (firmwareBoardId image area) (firmwareBoardIdLength image area) with
      | some map => exact Attempt.holds_pure trivial
      | none => exact Attempt.Holds.leaveIf_bind (fun _ => trivial) fun _ => Attempt.holds_pure trivial

theorem countdown_calls (i : Nat) : StepKeepsTo cmds (countdown i) := by
  induction i with
  | zero => exact Attempt.holds_pure trivial
  | succ i ih =>
    unfold countdown
    refine Attempt.Holds.perform_bind fun _ => ⟨trivial, fun _ => ?_⟩
    refine Attempt.Holds.perform_bind fun key => ⟨trivial, fun _ => ?_⟩
    exact Attempt.Holds.leaveIf_bind (fun _ => trivial) fun _ => ih

theorem prepare_calls (h : ecCmdGetVersion ∈ cmds) (image : Mem) (a : ReflashArgs) (filename : String) :
    StepKeepsTo cmds (prepare image a filename) := by
  unfold prepare
  refine (Attempt.holds_lift (readyOrForced_calls _)).bind fun status _ => ?_
  refine Attempt.Holds.leaveIf_bind (fun _ => trivial) fun _ => ?_
  refine (loadFirmware_calls filename).bind fun verifyBuffer _ => ?_
  refine (checkBoard_calls h image _).bind fun map _ => ?_
  refine (countdown_calls 7).bind fun _ _ => ?_
  refine (Attempt.holds_lift (readyOrForced_calls _)).bind fun status _ => ?_
  exact Attempt.Holds.leaveIf_bind (fun _ => trivial) fun _ => Attempt.holds_pure trivial

theorem notifications_calls (h : ecCmdFlashNotified ∈ cmds) (map : FlashMap) (first second : UInt8) :
    StepKeepsTo cmds (if map.requiresUnlock then do
        let r ← flashNotified first
        Attempt.leaveIf (r.rv < 0) (.ecOut .all r.rv efiSuccess)
        let r ← flashNotified second
        Attempt.leaveIf (r.rv < 0) (.ecOut .all r.rv efiSuccess)
      else
        return () : Step Unit) := by
  split
  · refine (Attempt.holds_lift (flashNotified_calls h first)).bind fun r _ => ?_
    refine Attempt.Holds.leaveIf_bind (fun _ => trivial) fun _ => ?_
    refine (Attempt.holds_lift (flashNotified_calls h second)).bind fun r _ => ?_
    exact Attempt.holds_leaveIf (fun _ => trivial) fun _ => trivial
  · exact Attempt.holds_pure trivial

/-- The commands of `flash_erase`, `flash_write` and `flash_read`. -/
def flashCommands : List Nat :=
  [ecCmdGetCmdVersions, ecCmdFlashErase, ecCmdHello, ecCmdFlashInfo, ecCmdFlashWrite, ecCmdFlashRead]

theorem flashRegion_calls (h : ∀ c ∈ flashCommands, c ∈ cmds) (fuel : Nat) (image : Mem)
    (region : FlashRegion) (verify : Buf) : StepKeepsTo cmds (flashRegion fuel image region verify) := by
  have hmem {c : Nat} (hc : c ∈ flashCommands) : c ∈ cmds := h c hc
  unfold flashRegion
  refine (Attempt.holds_lift (flashErase_calls (hmem (by decide)) (hmem (by decide)) (hmem (by decide)) _ _)).bind
    fun rv _ => ?_
  refine Attempt.Holds.leaveIf_bind (fun _ => trivial) fun _ => ?_
  refine (Attempt.holds_lift (flashWrite_calls (hmem (by decide)) (hmem (by decide)) fuel _ _ _ _)).bind
    fun rv _ => ?_
  refine Attempt.Holds.leaveIf_bind (fun _ => trivial) fun _ => ?_
  refine (Attempt.holds_lift (flashRead_calls (hmem (by decide)) _ _ _ _)).bind fun read _ => ?_
  refine Attempt.Holds.leaveIf_bind (fun _ => trivial) fun _ => ?_
  exact Attempt.Holds.leaveIf_bind (fun _ => trivial) fun _ => Attempt.holds_pure trivial

theorem flashRegions_calls (h : ∀ c ∈ flashCommands, c ∈ cmds) (fuel : Nat) (image : Mem) (map : FlashMap)
    (mask : BitVec 16) (verify : Buf) : StepKeepsTo cmds (flashRegions fuel image map mask verify) := by
  refine Prog.Holds.post (Q := fun _ => True) ?_ fun r _ => by cases r <;> trivial
  refine Prog.Holds.loop (I := fun _ => True) trivial ?_ _ _ trivial
  rintro ⟨mask, verify⟩ _
  unfold regionRound
  simp only []
  split
  · trivial
  split
  · trivial
  rename_i region _
  refine Prog.Holds.bind (flashRegion_calls h fuel image region verify) fun r _ => ?_
  cases r <;> trivial

theorem out_calls (held : Held) (status : EfiStatus) : KeepsTo cmds (out held status) := by
  obtain ⟨file, info, firmware, verify⟩ := held
  cases file <;> cases info <;> cases firmware <;> cases verify <;>
    simp [out, shellCloseFile, freePool, Prog.Holds, Prog.bind_def, Prog.bind, Prog.perform, Calls, Prog.pure_def]

theorem finish_calls (e : Exit) : KeepsTo cmds (finish e) := by
  cases e with
  | ret status => trivial
  | ecOut held rv status => exact out_calls held _
  | errorOut held rv status => exact out_calls held _
  | out held status => exact out_calls held _

/-- The commands of `ectool reflash`. -/
def reflashCommands : List Nat := ecCmdGetVersion :: ecCmdFlashNotified :: flashCommands

theorem reflash_calls (fuel : Nat) (image : Mem) (a : ReflashArgs) (filename : String) :
    StepKeepsTo reflashCommands (reflash fuel image a filename) := by
  have hversion : ecCmdGetVersion ∈ reflashCommands := by decide
  have hnotified : ecCmdFlashNotified ∈ reflashCommands := by decide
  have hflash : ∀ c ∈ flashCommands, c ∈ reflashCommands := fun c hc =>
    List.mem_cons_of_mem _ (List.mem_cons_of_mem _ hc)
  unfold reflash
  refine (prepare_calls hversion image a filename).bind fun plan _ => ?_
  refine (notifications_calls hnotified plan.map _ _).bind fun _ _ => ?_
  refine (flashRegions_calls hflash fuel image plan.map _ _).bind fun _ _ => ?_
  exact notifications_calls hnotified plan.map _ _

theorem cmdReflash_calls (fuel : Nat) (image : Mem) (argv : List String) :
    KeepsTo reflashCommands (cmdReflash fuel image argv) := by
  rw [cmdReflash]
  split
  · trivial
  · rename_i filename _
    refine Prog.Holds.bind (reflash_calls fuel image _ filename) fun r _ => ?_
    cases r with
    | error e => exact finish_calls e
    | ok _ => exact finish_calls _

/-! ### ECTool.c -/

def versionCommands : List Nat := [ecCmdGetBuildInfo, ecCmdFlashNotified, ecCmdGetVersion]

theorem cmdVersion_calls : KeepsTo versionCommands cmdVersion := by
  have hnotified : ecCmdFlashNotified ∈ versionCommands := by decide
  have hout (rv : Int) (unlocked : Bool) : KeepsTo versionCommands (versionEcOut rv unlocked) := by
    cases unlocked with
    | false => trivial
    | true => exact (flashNotified_calls hnotified _).bind fun _ _ => trivial
  unfold cmdVersion
  refine Prog.Holds.perform_bind fun r => ⟨⟨by decide, by simp, by simp, by decide⟩, fun _ => ?_⟩
  split
  · exact hout _ _
  refine (flashNotified_calls hnotified _).bind fun r _ => ?_
  split
  · exact hout _ _
  exact Prog.Holds.perform_bind fun r => ⟨⟨by decide, by simp, by simp, by decide⟩, fun _ => hout _ _⟩

def flashreadCommands : List Nat := [ecCmdFlashNotified, ecCmdFlashRead]

theorem flashreadFinish_calls (e : FlashreadExit) : KeepsTo flashreadCommands (flashreadFinish e) := by
  have hout (held : FlashreadHeld) (status : EfiStatus) :
      KeepsTo flashreadCommands (flashreadOut held status) := by
    obtain ⟨unlocked, file, buffer⟩ := held
    cases unlocked <;> cases file <;> cases buffer <;>
      simp [flashreadOut, shellCloseFile, freePool, flashNotified, sendCommand, Prog.Holds, Prog.bind_def, Prog.bind,
        Prog.perform, Calls, Prog.pure_def, gEcMaxRequest_eq, flashreadCommands]
  cases e with
  | ecOut held rv status => exact hout held _
  | out held status => exact hout held _

theorem flashread_calls (argv : List String) : StepKeepsTo flashreadCommands (flashread argv) := by
  have hnotified : ecCmdFlashNotified ∈ flashreadCommands := by decide
  have hread : ecCmdFlashRead ∈ flashreadCommands := by decide
  unfold flashread
  refine Attempt.Holds.bind (Q := fun _ => True) ?_ fun plan _ => ?_
  · unfold flashreadPrepare
    refine Attempt.Holds.leaveIf_bind (fun _ => trivial) fun _ => ?_
    refine Attempt.Holds.perform_bind fun offset => ⟨trivial, fun _ => ?_⟩
    refine Attempt.Holds.perform_bind fun size => ⟨trivial, fun _ => ?_⟩
    refine Attempt.Holds.perform_bind fun buffer => ⟨trivial, fun _ => ?_⟩
    cases buffer with
    | none => exact Attempt.holds_throw trivial
    | some flashBuffer =>
      refine Attempt.Holds.perform_bind fun status => ⟨trivial, fun _ => ?_⟩
      exact Attempt.Holds.leaveIf_bind (fun _ => trivial) fun _ => Attempt.holds_pure trivial
  refine (Attempt.holds_lift (flashNotified_calls hnotified _)).bind fun r _ => ?_
  refine Attempt.Holds.leaveIf_bind (fun _ => trivial) fun _ => ?_
  unfold flashreadTransfer
  refine (Attempt.holds_lift (flashRead_calls hread _ _ _ _)).bind fun read _ => ?_
  refine Attempt.Holds.leaveIf_bind (fun _ => trivial) fun _ => ?_
  refine Attempt.Holds.perform_bind fun status => ⟨trivial, fun _ => ?_⟩
  refine Attempt.Holds.leaveIf_bind (fun _ => trivial) fun _ => ?_
  refine Attempt.Holds.perform_bind fun status => ⟨trivial, fun _ => ?_⟩
  exact Attempt.Holds.leaveIf_bind (fun _ => trivial) fun _ => Attempt.holds_pure trivial

theorem cmdFlashread_calls (argv : List String) : KeepsTo flashreadCommands (cmdFlashread argv) := by
  rw [cmdFlashread]
  refine Prog.Holds.bind (flashread_calls argv) fun r _ => ?_
  cases r with
  | error e => exact flashreadFinish_calls e
  | ok e => exact flashreadFinish_calls e

end FrameworkHacks.ECTool
