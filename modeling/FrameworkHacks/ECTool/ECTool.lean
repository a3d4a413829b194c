import FrameworkHacks.Library.Attempt
import FrameworkHacks.ECTool.Flash
import FrameworkHacks.ECTool.FWUpdate

/-!
# ECTool.c

The commands `version` and `flashread`: the two besides `reflash` that ask the EC for access to the
SPI flash.
-/

namespace FrameworkHacks.ECTool

open Effects

/-! ### `ectool version` -/

/-- `EcOut:` of `cmd_version` -/
def versionEcOut (rv : Int) (unlocked : Bool) : Prog Services EfiStatus := do
  let status := if rv < 0 then efiDeviceError else efiSuccess
  if unlocked then
    -- last ditch effort: tell the EC we're done with SPI
    let _ ← flashNotified flashAccessSpiDone
  return status

def cmdVersion : Prog Services EfiStatus := do
  let r ← sendCommand ecCmdGetBuildInfo 0 [] 248
  if r.rv < 0 then
    versionEcOut r.rv false
  else
    -- it's necessary to unlock SPI to read the RW version
    let r ← flashNotified flashAccessSpi
    if r.rv < 0 then
      versionEcOut r.rv false
    else
      let r ← sendCommand ecCmdGetVersion 0 [] sizeofGetVersion
      versionEcOut r.rv true

/-! ### `ectool flashread` -/

/-- A conversion of a `UINTN` to `int`. -/
def toInt32 (v : UInt64) : Int := v.toUInt32.toInt32.toInt

theorem toInt32_eq (v : UInt64) : toInt32 v =
    if v.toNat % 4294967296 < 2147483648 then ((v.toNat % 4294967296 : Nat) : Int)
    else ((v.toNat % 4294967296 : Nat) : Int) - 4294967296 := by
  unfold toInt32
  rw [← Int32.toInt_toBitVec, UInt32.toBitVec_toInt32, BitVec.toInt_eq_toNat_cond]
  simp
  split <;> split <;> omega

/-- What is to be undone at `Out`. -/
structure FlashreadHeld where
  unlocked : Bool := false
  file : Bool := false
  flashBuffer : Bool := false

/-- The labels of `cmd_flashread`. -/
inductive FlashreadExit
  | ecOut (held : FlashreadHeld) (rv : Int) (status : EfiStatus)
  | out (held : FlashreadHeld) (status : EfiStatus)

def FlashreadExit.held : FlashreadExit → FlashreadHeld
  | .ecOut held _ _ => held
  | .out held _ => held

/-- `Out:` of `cmd_flashread` -/
def flashreadOut (held : FlashreadHeld) (status : EfiStatus) : Prog Services EfiStatus := do
  if held.unlocked then
    -- last ditch effort: tell the EC we're done with SPI
    let _ ← flashNotified flashAccessSpiDone
  if held.file then
    let _ ← shellCloseFile
  if held.flashBuffer then freePool .flashBuffer
  return status

def flashreadFinish : FlashreadExit → Prog Services EfiStatus
  | .ecOut held rv status => flashreadOut held (if rv < 0 then efiDeviceError else status)
  | .out held status => flashreadOut held status

/-- What is known when the EC is asked for the flash. -/
structure FlashreadPlan where
  offset : UInt64
  size : UInt64
  flashBuffer : Mem

/-- The part before the unlock. `ShellStrToUintn` returns an unsigned number, so that the tests for a
negative offset or size never hold. The initialiser of `path` reads `argv[3]` before `argc` is tested, beyond
the arguments of a short command line; that read is left out. -/
def flashreadPrepare (argv : List String) : Attempt Services FlashreadExit FlashreadPlan := do
  Attempt.leaveIf (argv.length < 4) (.out {} efiInvalidParameter)
  let offset ← shellStrToUintn (argv.getD 1 "")
  let size ← shellStrToUintn (argv.getD 2 "")
  match ← allocatePool .flashBuffer size with
  | none => throw (.out {} efiNotReady)
  | some flashBuffer =>
    let status ← shellOpenFileByName (argv.getD 3 "")
    Attempt.leaveIf (efiError status = true) (.out { flashBuffer := true } status)
    return ⟨offset, size, flashBuffer⟩

/-- The part after the unlock. The result is the exit at its end. -/
def flashreadTransfer (plan : FlashreadPlan) : Attempt Services FlashreadExit FlashreadExit := do
  let held : FlashreadHeld := { unlocked := true, file := true, flashBuffer := true }
  let (rv, flashBuffer) ← flashRead (toInt32 plan.offset) (toInt32 plan.size)
    ⟨plan.flashBuffer, plan.size.toNat⟩ 0
  Attempt.leaveIf (rv < 0) (.ecOut held rv efiSuccess)
  let status ← shellWriteFile plan.size flashBuffer.bytes
  Attempt.leaveIf (efiError status = true) (.out held status)
  let status ← shellCloseFile
  Attempt.leaveIf (efiError status = true) (.out held status)
  return .ecOut { held with file := false } rv status

def flashread (argv : List String) : Attempt Services FlashreadExit FlashreadExit := do
  let plan ← flashreadPrepare argv
  let r ← flashNotified flashAccessSpi
  Attempt.leaveIf (r.rv < 0) (.ecOut { file := true, flashBuffer := true } r.rv efiSuccess)
  flashreadTransfer plan

def cmdFlashread (argv : List String) : Prog Services EfiStatus := do
  match ← (flashread argv).run with
  | .error exit => flashreadFinish exit
  | .ok exit => flashreadFinish exit

end FrameworkHacks.ECTool
