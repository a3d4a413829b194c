import FrameworkHacks.ECTool.Services
import FrameworkHacks.Transport.Firmware

/-!
# The drivers with one command

ChassisIntrusionPCRMeasurementDriver asks the EC whether the chassis was opened and extends a PCR with the
answer; FrameworkKeyMapDriver has the EC change a key. Each is an entry point that looks for the EC protocol and
makes one call of it. `dispatchAll` runs such drivers one after the other, as the firmware does when it loads them.
-/

namespace FrameworkHacks.Drivers

open Effects ECTool Transport

/-! ### What the drivers call -/

inductive PlatformOp
  | locateProtocol
  /-- `HashAndExtend`: the PCR, and the bytes from a buffer. -/
  | hashAndExtend (pcrIndex : Nat) (dataToHash : Mem) (dataToHashLen : Nat)
  /-- The contents of an uninitialised local. -/
  | indeterminate

@[reducible] def PlatformOp.Ans : PlatformOp → Type
  | .locateProtocol => EfiStatus
  | .hashAndExtend .. => EfiStatus
  | .indeterminate => Mem

@[reducible] def Platform : Signature := ⟨PlatformOp, PlatformOp.Ans⟩

/-- What a driver is linked against. -/
@[reducible] def DriverEnv : Signature := CrosEc.sum Platform

def locateProtocol : Prog DriverEnv EfiStatus := Prog.perform (E := DriverEnv) (.inr .locateProtocol)

def hashAndExtend (pcrIndex : Nat) (dataToHash : Mem) (dataToHashLen : Nat) : Prog DriverEnv EfiStatus :=
  Prog.perform (E := DriverEnv) (.inr (.hashAndExtend pcrIndex dataToHash dataToHashLen))

def indeterminate : Prog DriverEnv Mem := Prog.perform (E := DriverEnv) (.inr .indeterminate)

/-- `SendCommand`, with its result as the `int` that the drivers make of it, and the response buffer. -/
def sendCommand (q : Request) (response : Mem) (insize : Nat) : Prog DriverEnv (Int × Mem) := do
  let (rv, response) ← Prog.perform (E := DriverEnv) (.inl (.sendCommand (UInt64.ofNat q.command)
    (UInt64.ofNat q.version) (Mem.ofList q.payload) (UInt64.ofNat q.payload.length) response (UInt64.ofNat insize)))
  return ((Int32.ofInt rv).toInt, response)

/-! ### ChassisIntrusionPCRMeasurementDriver -/

/-- `EC_CMD_CHASSIS_INTRUSION` -/
def ecCmdChassisIntrusion : Nat := 0x3E09

/-- A `struct ec_params_chassis_intrusion_control` that clears nothing. -/
def chassisIntrusionRequest : Request := ⟨ecCmdChassisIntrusion, 0, [0, 0]⟩

/-- `sizeof(struct ec_response_chassis_intrusion_control)` -/
def sizeofChassisIntrusion : Nat := 4

/-- `EntryPoint` -/
def chassisIntrusionEntryPoint : Prog DriverEnv EfiStatus := do
  let status ← locateProtocol
  if efiError status then
    return status
  else
    let (rv, response) ← sendCommand chassisIntrusionRequest (fun _ => 0) sizeofChassisIntrusion
    if rv < 0 then
      return efiDeviceError
    else
      let status ← hashAndExtend 6 response sizeofChassisIntrusion
      -- this driver doesn't need to remain loaded
      return if status = efiSuccess then efiAborted else status

/-! ### FrameworkKeyMapDriver -/

/-- `EC_CMD_UPDATE_KEYBOARD_MATRIX` -/
def ecCmdUpdateKeyboardMatrix : Nat := 0x3E0C

/-- `struct keyboard_matrix_map` -/
structure KeyboardMatrixMap where
  row : UInt8
  col : UInt8
  scanset : Nat

def KeyboardMatrixMap.bytes (m : KeyboardMatrixMap) : List UInt8 := [m.row, m.col] ++ Mem.le16Bytes m.scanset

/-- A `struct ec_params_update_keyboard_matrix`; there is room for 32 items. -/
def updateKeyboardMatrix (numItems write : Nat) (scanUpdate : List KeyboardMatrixMap) : List UInt8 :=
  Mem.le32Bytes numItems ++ Mem.le32Bytes write ++
    (scanUpdate ++ List.replicate (32 - scanUpdate.length) (KeyboardMatrixMap.mk 0 0 0)).flatMap KeyboardMatrixMap.bytes

/-- One item, at row 4 and column 4. -/
def keyMapRequest : Request :=
  ⟨ecCmdUpdateKeyboardMatrix, 0, updateKeyboardMatrix 1 1 [⟨4, 4, 0x0076⟩]⟩

/-- `FrameworkKeyMapDriverEntryPoint` -/
def frameworkKeyMapDriverEntryPoint : Prog DriverEnv EfiStatus := do
  let response ← indeterminate
  let status ← locateProtocol
  if efiError status then
    return status
  else
    let _ ← sendCommand keyMapRequest response 256
    -- "initializing" drivers can return ABORTED to indicate that they have no further work to do
    return if status = efiSuccess then efiAborted else status

/-! ### Dispatching -/

inductive Driver
  | chassisIntrusion
  | keyMap
  deriving DecidableEq, Repr

def Driver.entryPoint : Driver → Prog DriverEnv EfiStatus
  | .chassisIntrusion => chassisIntrusionEntryPoint
  | .keyMap => frameworkKeyMapDriverEntryPoint

def Driver.request : Driver → Request
  | .chassisIntrusion => chassisIntrusionRequest
  | .keyMap => keyMapRequest

end FrameworkHacks.Drivers
