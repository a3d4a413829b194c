import FrameworkHacks.Library.Attempt
import FrameworkHacks.ECTool.Services

/-!
# FrameworkPanicCaptureDriver

`EntryPoint` asks the EC for the record of its last panic and saves a new one in the variable
`SavedPanic`, behind the date and the EC's version. `capture` is its body up to `Out`, `entryPoint`
the whole of it.
-/

namespace FrameworkHacks.Panic

open Effects ECTool

/-! ### What the driver calls -/

/-- `EFI_TIME`, as far as the driver looks at it. -/
structure EfiTime where
  year : UInt16
  month : UInt8
  day : UInt8
  hour : UInt8
  minute : UInt8
  second : UInt8

inductive DriverOp
  | locateProtocol
  | getTime
  | allocatePool (size : Nat)
  | sendCommand (c : HostCommand)
  /-- `SetVariable` of `SavedPanic`: the size, and memory from the data on. -/
  | setVariable (size : Nat) (data : Mem)
  | freePool
  /-- The contents of an uninitialised local. -/
  | indeterminate

@[reducible] def DriverOp.Ans : DriverOp → Type
  | .locateProtocol => EfiStatus
  | .getTime => EfiStatus × EfiTime
  | .allocatePool _ => EfiStatus
  | .sendCommand _ => Reply
  | .setVariable .. => EfiStatus
  | .freePool => Unit
  | .indeterminate => Mem

@[reducible] def DriverServices : Signature := ⟨DriverOp, DriverOp.Ans⟩

def locateProtocol : Prog DriverServices EfiStatus := Prog.perform (E := DriverServices) .locateProtocol

def getTime : Prog DriverServices (EfiStatus × EfiTime) := Prog.perform (E := DriverServices) .getTime

def allocatePool (size : Nat) : Prog DriverServices EfiStatus :=
  Prog.perform (E := DriverServices) (.allocatePool size)

def sendCommand (command insize : Nat) : Prog DriverServices Reply :=
  Prog.perform (E := DriverServices) (.sendCommand ⟨command, 0, [], insize⟩)

def setVariable (size : Nat) (data : Mem) : Prog DriverServices EfiStatus :=
  Prog.perform (E := DriverServices) (.setVariable size data)

def freePool : Prog DriverServices Unit := Prog.perform (E := DriverServices) .freePool

def indeterminate : Prog DriverServices Mem := Prog.perform (E := DriverServices) .indeterminate

/-! ### `struct SavedPanicInfo` -/

/-- `sizeof(struct SavedPanicInfo)`: DriverVersion (1), Date (7), ECVersion (32). -/
def sizeofSavedPanicInfo : Nat := 40

/-- `offsetof(struct SavedPanicInfo, ECVersion)` -/
def ecVersionOffset : Nat := 8

/-- `offsetof(struct PartialECPanicData, Flags)` -/
def panicFlagsOffset : Nat := 2

def partialPanicDataFlagOldHostcmd : UInt8 := (1 : UInt8) <<< 2

/-- The size of `BuildInfo`, and of the room for the panic record. -/
def panicSize : Nat := 255

/-- `DriverVersion` and `Date`. -/
def savedHeader (t : EfiTime) : List UInt8 :=
  [1] ++ Mem.le16Bytes t.year.toNat ++ [t.month, t.day, t.hour, t.minute, t.second]

/-- `Saved` after `ZeroMem`, with the first fields set. -/
def newSaved (t : EfiTime) : Buf := ⟨Mem.ofList (savedHeader t), sizeofSavedPanicInfo + panicSize⟩

/-- The bytes of a reply that go into a buffer of `insize` bytes. -/
def stored (r : Reply) (insize : Nat) : List UInt8 := r.data.take insize

/-- What a query leaves behind the structure. -/
def storePanic (saved : Buf) (r : Reply) (insize : Nat) : Prog DriverServices Buf :=
  saved.copyIn sizeofSavedPanicInfo (Mem.ofList (stored r insize)) (stored r insize).length

/-! ### `EntryPoint` -/

/-- A jump to `Out`: whether `Saved` is not NULL, and `Status`. -/
structure Leave where
  saved : Bool
  status : EfiStatus

/-- `EntryPoint` up to `Out`; the result is the status of `SetVariable`. -/
def capture : Attempt DriverServices Leave EfiStatus := do
  let status ← locateProtocol
  Attempt.leaveIf (efiError status = true) ⟨false, status⟩
  let (status, currentTime) ← getTime
  Attempt.leaveIf (efiError status = true) ⟨false, status⟩
  let status ← allocatePool (sizeofSavedPanicInfo + panicSize)
  Attempt.leaveIf (efiError status = true) ⟨false, status⟩
  let saved := newSaved currentTime
  let buildInfo ← indeterminate
  let r ← sendCommand ecCmdGetBuildInfo panicSize
  Attempt.leaveIf (r.rv < 0) ⟨true, efiDeviceError⟩
  let saved ← (saved.copyIn ecVersionOffset (r.into buildInfo panicSize) 31 : Prog DriverServices Buf)
  let r ← sendCommand ecCmdGetPanicInfo panicSize
  let saved ← storePanic saved r panicSize
  Attempt.leaveIf (r.rv < 0) ⟨true, efiDeviceError⟩
  -- there was no panic, so we should leave the existing one alone
  Attempt.leaveIf (r.rv = 0) ⟨true, efiSuccess⟩
  let insize := toUintn r.rv
  let r ← sendCommand ecCmdGetPanicInfo insize
  let saved ← storePanic saved r insize
  -- already reported by the host command interface, so it is not new
  let flags := saved.bytes (sizeofSavedPanicInfo + panicFlagsOffset)
  Attempt.leaveIf (flags &&& partialPanicDataFlagOldHostcmd ≠ 0) ⟨true, efiSuccess⟩
  setVariable (toUintn (sizeofSavedPanicInfo + r.rv)) saved.bytes

/-- `Out:`. The driver doesn't need to remain loaded, so success becomes `EFI_ABORTED`. -/
def out (leave : Leave) : Prog DriverServices EfiStatus := do
  if leave.saved then freePool
  return if leave.status = efiSuccess then efiAborted else leave.status

def entryPoint : Prog DriverServices EfiStatus := do
  match ← capture.run with
  | .error leave => out leave
  | .ok status => out ⟨true, status⟩

end FrameworkHacks.Panic
