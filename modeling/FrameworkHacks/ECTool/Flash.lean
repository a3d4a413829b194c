import FrameworkHacks.ECTool.Services

/-!
# Flash.c

Reading, writing and erasing the EC's flash in chunks that fit a packet. Offsets and sizes are `int`;
a pointer argument is a buffer with a start in it.
-/

namespace FrameworkHacks.ECTool

open Effects

/-- The parameters of `FLASH_READ`, of `FLASH_ERASE` version 0 and, before the data, of
`FLASH_WRITE`. -/
def offsetSize (offset size : Nat) : List UInt8 := Mem.le32Bytes offset ++ Mem.le32Bytes size

/-! ### Reading -/

/-- One round of the loop of `flash_read`; the state is `i`, `buf` and the caller's buffer. -/
def flashReadRound (offset size : Int) (start : Nat) (s : Int × Mem × Buf) :
    Prog Services ((Int × Buf) ⊕ (Int × Mem × Buf)) := do
  let (i, buf, buffer) := s
  let chunk : Int := gEcMaxResponse
  if i < size then
    let pOffset := toUint32 (← addInt offset i)
    let pSize := toUint32 (min (size - i) chunk)
    let r ← sendCommand ecCmdFlashRead 0 (offsetSize pOffset pSize) pSize
    let buf := r.into buf pSize
    if r.rv < 0 then
      return .inl (r.rv, buffer)
    let buffer ← buffer.copyIn (start + i.toNat) buf pSize
    return .inr (← addInt i chunk, buf, buffer)
  else
    return .inl (0, buffer)

def flashRead (offset size : Int) (buffer : Buf) (start : Nat) : Prog Services (Int × Buf) :=
  Prog.loop (flashReadRound offset size start) (size.toNat + 1) (0, fun _ => 0, buffer)

/-! ### Writing -/

/-- `sizeof(struct ec_response_flash_info_1)` -/
def sizeofFlashInfo1 : Nat := 24

/-- `sizeof(struct ec_params_flash_write)` -/
def sizeofFlashWrite : Nat := 8

/-- One round of the loop of `flash_write`; the state is `i` and `commandBuffer`. -/
def flashWriteRound (offset size step : Int) (buffer : Buf) (start : Nat) (s : Int × Buf) :
    Prog Services (Int ⊕ (Int × Buf)) := do
  let (i, commandBuffer) := s
  if i < size then
    let pOffset := toUint32 (← addInt offset i)
    let pSize := toUint32 (min (size - i) step)
    let commandBuffer ← commandBuffer.copyIn 0 (Mem.ofList (offsetSize pOffset pSize)) sizeofFlashWrite
    let source ← buffer.copyOut (start + i.toNat) pSize
    let commandBuffer ← commandBuffer.copyIn sizeofFlashWrite source pSize
    let r ← sendCommand ecCmdFlashWrite 1 (commandBuffer.bytes.toList (sizeofFlashWrite + pSize)) 0
    if r.rv < 0 then
      return .inl r.rv
    return .inr (← addInt i step, commandBuffer)
  else
    return .inl 0

/-- `step`: as many whole ideal writes as fit a request. -/
def writeStep (writeIdealSize : Nat) : Nat := gEcMaxRequest / writeIdealSize * writeIdealSize

/-- `flash_write`. Where `step` is 0 its loop does not end, so the rounds it may take are a
parameter. -/
def flashWrite (fuel : Nat) (offset size : Int) (buffer : Buf) (start : Nat) : Prog Services Int := do
  let flashInfo ← indeterminate
  let r ← sendCommand ecCmdFlashInfo 1 [] sizeofFlashInfo1
  if r.rv < 0 then
    return r.rv
  let flashInfo := r.into flashInfo sizeofFlashInfo1
  let writeIdealSize := flashInfo.le32 16
  if writeIdealSize = 0 then
    -- division by zero
    .fault
  else
    Prog.loop (flashWriteRound offset size (writeStep writeIdealSize) buffer start) fuel
      (0, ⟨fun _ => 0, gEcMaxRequest⟩)

/-! ### Erasing -/

/-- `enum ec_flash_erase_cmd` -/
def flashEraseSectorAsync : UInt8 := 1
def flashEraseGetResult : UInt8 := 2

/-- `struct ec_params_flash_erase_v1` -/
def eraseParams (cmd : UInt8) (offset size : Nat) : List UInt8 := [cmd, 0, 0, 0] ++ offsetSize offset size

/-- Sends `FLASH_ERASE` version 1. -/
def sendErase (cmd : UInt8) (offset size : Int) : Prog Services Reply :=
  sendCommand ecCmdFlashErase 1 (eraseParams cmd (toUint32 offset) (toUint32 size)) 0

/-- One round of the loop that asks for the result; the state is `asyncTries`. -/
def getResultRound (offset size : Int) (asyncTries : Nat) : Prog Services (Int ⊕ Nat) := do
  stall 500000
  let r ← sendErase flashEraseGetResult offset size
  if r.rv < 0 ∧ asyncTries - 1 ≠ 0 then
    return .inr (asyncTries - 1)
  else
    return .inl r.rv

def flashEraseAsync (offset size : Int) : Prog Services Int := do
  let asyncTries := 4
  let r ← sendErase flashEraseSectorAsync offset size
  if r.rv < 0 then
    -- we failed to start the erase
    return r.rv
  else
    Prog.loop (getResultRound offset size) asyncTries asyncTries

/-- One round of the loop that says HELLO until the bus clears; the state is `(rv, asyncTries)`. -/
def helloRound (s : Int × Nat) : Prog Services (Int ⊕ (Int × Nat)) := do
  let (rv, asyncTries) := s
  if rv < 0 ∧ asyncTries ≠ 0 then
    stall 100000
    let r ← sendCommand ecCmdHello 0 (Mem.le32Bytes 0) 4
    return .inr (r.rv, asyncTries - 1)
  else
    return .inl rv

/-- `rgv.version_mask`. If the EC doesn't support GET_CMD_VERSIONS, assume it doesn't support
ERASE_V1. -/
def eraseVersionMask (r : Reply) (rgv : Mem) : Nat := if r.rv < 0 then 0 else (r.into rgv 4).le32 0

def flashErase (offset size : Int) : Prog Services Int := do
  let asyncTries := 20
  let rgv ← indeterminate
  let r ← sendCommand ecCmdGetCmdVersions 0 [UInt8.ofNat ecCmdFlashErase] 4
  if (eraseVersionMask r rgv).testBit 1 then
    flashEraseAsync offset size
  else
    let r ← sendCommand ecCmdFlashErase 0 (offsetSize (toUint32 offset) (toUint32 size)) 0
    Prog.loop helloRound (asyncTries + 1) (r.rv, asyncTries)

end FrameworkHacks.ECTool
