import FrameworkHacks.Library.Nor
import FrameworkHacks.Fmap

/-!
# ECNull.c

The simulated EC of `CrosECNullLib`: `SendCommand` with its handlers. A handler gets the parameters,
as an object of the size the caller gave, and the size of the caller's response buffer. It returns
the value of the call, the bytes it stored at the front of the response buffer and the simulator's
state after it. An access outside the flash or outside one of these buffers is a fault.

The debug output is left out, and with it the counters that only it shows.
-/

namespace FrameworkHacks.Null

open Effects

/-- What the simulator itself calls. -/
inductive BootOp
  | stall (usec : Nat)

@[reducible] def Boot : Signature := ⟨BootOp, fun _ => Unit⟩

def stall (usec : Nat) : Prog Boot Unit := Prog.perform (E := Boot) (.stall usec)

/-! ### State -/

def gFlashLen : Nat := 1048576

/-- The simulator's static data. `versionResp` is the response structure of GET_VERSION. -/
structure NullEc where
  gMutableFlash : Mem
  versionResp : Mem
  gConsoleCount : Nat

/-- `sizeof(struct ec_response_get_version)`: version_string_ro (32), version_string_rw (32),
reserved (32), current_image (4). -/
def sizeofGetVersion : Nat := 100

def versionStringLen : Nat := 32

/-- The state after `CrosECNullLibConstructor`. -/
def NullEc.initial : NullEc where
  gMutableFlash := fun _ => 0xFF
  versionResp := (Mem.ofList []).copy versionStringLen (Mem.ofList (ascii "fake_0.0.1")) 10
  gConsoleCount := 0

/-- The flash as an object. -/
def NullEc.flash (ec : NullEc) : Buf := ⟨ec.gMutableFlash, gFlashLen⟩

/-! ### Memory -/

/-- `CopyMem(response, src + start, n)`. A copy of no bytes accesses nothing. -/
def copyToResponse (responseSize : Nat) (src : Buf) (start : Nat) (n : Int) : Prog Boot (List UInt8) :=
  let length := toUintn n
  if length ≤ responseSize ∧ (length = 0 ∨ start + length ≤ src.size) then
    pure ((src.bytes.drop start).toList length)
  else
    .fault

/-- `SetMem(flash + start, n, v)` -/
def setMem (flash : Buf) (start n : Nat) (v : UInt8) : Prog Boot Buf :=
  if n = 0 ∨ start + n ≤ flash.size then
    pure { flash with bytes := flash.bytes.fill start n v }
  else
    .fault

/-- `old &= c` for a plain `char`, which is sign-extended first. -/
def andChar (old c : UInt8) : UInt8 := (old.toUInt32 &&& c.toInt8.toInt32.toUInt32).toUInt8

/-! ### Handlers -/

/-- What a call leaves: its value, the stored part of the response, and the state. -/
structure Answer where
  rv : Int
  response : List UInt8
  ec : NullEc

abbrev Impl := (ec : NullEc) → (params : Buf) → (responseSize : Nat) → Prog Boot Answer

def buildInfo : List UInt8 := ascii "CrosECNullLib Driver"

def implGetBuildInfo : Impl := fun ec _ responseSize => do
  let src : Buf := ⟨Mem.ofList buildInfo, 21⟩
  let response ← copyToResponse responseSize src 0 (min (toIntn responseSize) 20)
  return ⟨20, response, ec⟩

/-- Copies the version string that an area names into the field of `resp` at `field`. -/
def copyVersionString (flash : Buf) (hdr : Nat) (areaName : String) (resp : Mem) (field : Nat) :
    Prog Boot Mem := do
  match ← getImageFlashArea flash.load hdr (ascii areaName) with
  | none => return resp
  | some area =>
    let offset ← loadLe32 flash.load area
    let source ← flash.copyOut offset versionStringLen
    return resp.copy field source versionStringLen

def implGetVersion : Impl := fun ec _ responseSize => do
  let resp ← do
    match ← getImageFlashMap ec.flash.load gFlashLen with
    | none => pure ec.versionResp
    | some hdr =>
      let resp ← copyVersionString ec.flash hdr "RO_FRID" ec.versionResp 0
      copyVersionString ec.flash hdr "RW_FWID" resp versionStringLen
  let response ← copyToResponse responseSize ⟨resp, sizeofGetVersion⟩ 0 sizeofGetVersion
  return ⟨sizeofGetVersion, response, { ec with versionResp := resp }⟩

/-- `struct ec_response_flash_info_1`: flash_size, write_block_size, erase_block_size,
protect_block_size, write_ideal_size, flags. -/
def flashInfoResp : List UInt8 :=
  Mem.le32Bytes gFlashLen ++ Mem.le32Bytes 4 ++ Mem.le32Bytes 4096 ++ Mem.le32Bytes 4096 ++
    Mem.le32Bytes 240 ++ Mem.le32Bytes 0

def implFlashInfo : Impl := fun ec _ responseSize => do
  let response ← copyToResponse responseSize ⟨Mem.ofList flashInfoResp, 24⟩ 0 24
  return ⟨24, response, ec⟩

def implFlashRead : Impl := fun ec params responseSize => do
  let offset ← loadLe32 params.load 0
  let size ← loadLe32 params.load 4
  let n : Int := min (toIntn responseSize) size
  let response ← copyToResponse responseSize ec.flash offset n
  stall 457
  return ⟨n, response, ec⟩

/-- `gMutableFlash[p->offset + i] &= ((char*)(p + 1))[i];` -/
def flashWriteByte (params : Buf) (offset i : Nat) (flash : Buf) : Prog Boot Buf := do
  let index := (offset + i) % 4294967296
  let old ← flash.load index
  let c ← params.load (8 + i)
  flash.store index (andChar old c)

def implFlashWrite : Impl := fun ec params _ => do
  let offset ← loadLe32 params.load 0
  let size ← loadLe32 params.load 4
  let flash ← Prog.forRange (flashWriteByte params offset) 0 size ec.flash
  stall 457
  return ⟨size, [], { ec with gMutableFlash := flash.bytes }⟩

/-- The parameters are those of version 0, whatever version is asked for. -/
def implFlashErase : Impl := fun ec params _ => do
  let offset ← loadLe32 params.load 0
  let size ← loadLe32 params.load 4
  let flash ← setMem ec.flash offset size 0xFF
  stall 500000
  return ⟨0, [], { ec with gMutableFlash := flash.bytes }⟩

def implConsoleSnapshot : Impl := fun ec _ _ => return ⟨0, [], { ec with gConsoleCount := 0 }⟩

def staticConsoleLogs : List String :=
  ["This is the CrosECNullLib\r\nsimulation console. It wi",
   "\r\nll be read",
   " out in multipl\n",
   "e p",
   "ackets.\r\n"]

/-- The length of an entry is unsigned, so the minimum is taken of unsigned numbers. -/
def implConsoleRead : Impl := fun ec params responseSize => do
  match staticConsoleLogs[ec.gConsoleCount]? with
  | none => return ⟨EcStatus.success.code, [], ec⟩
  | some currentLogEntry =>
    let subcmd ← params.load 0
    if subcmd = consoleReadRecent ∨ subcmd = consoleReadNext then
      let entry := ascii currentLogEntry
      let n := min responseSize entry.length
      let response ← copyToResponse responseSize ⟨Mem.ofList entry, entry.length + 1⟩ 0 n
      return ⟨n, response, { ec with gConsoleCount := ec.gConsoleCount + 1 }⟩
    else
      return ⟨-eecresult - EcStatus.invalidParam.code, [], ec⟩

/-- Framework flash lock/unlock -/
def implFlashLock : Impl := fun ec params _ => do
  let _ ← params.load 0
  return ⟨EcStatus.success.code, [], ec⟩

/-- Custom EC command to dump flash stats -/
def implFlashStat : Impl := fun ec _ _ => return ⟨EcStatus.success.code, [], ec⟩

/-! ### The protocol -/

/-- `ECSendCommandNullLpc`; `insize` is the size of the response buffer. -/
def ecSendCommandNullLpc (ec : NullEc) (command : Nat) (outdata : List UInt8) (insize : Nat) :
    Prog Boot Answer :=
  let params : Buf := ⟨Mem.ofList outdata, outdata.length⟩
  if command = ecCmdGetBuildInfo then implGetBuildInfo ec params insize
  else if command = ecCmdGetVersion then implGetVersion ec params insize
  else if command = ecCmdFlashInfo then implFlashInfo ec params insize
  else if command = ecCmdFlashRead then implFlashRead ec params insize
  else if command = ecCmdFlashWrite then implFlashWrite ec params insize
  else if command = ecCmdFlashErase then implFlashErase ec params insize
  else if command = ecCmdConsoleSnapshot then implConsoleSnapshot ec params insize
  else if command = ecCmdConsoleRead then implConsoleRead ec params insize
  else if command = 0x3E01 then implFlashLock ec params insize
  else if command = 0x3EFF then implFlashStat ec params insize
  else pure ⟨-EcStatus.invalidCommand.code, [], ec⟩

/-! ### Mapped memory -/

/-- A memory dump of EC mapped memory from a Framework Laptop 13 (11th Gen Intel) running EC ver
8109392. It was plugged in at the time (so the battery flags includes AC_PRESENT). -/
def ecmemBin : List UInt8 :=
  [0x6b, 0x79, 0x6e, 0x5e, 0x98, 0xff, 0xff, 0xff, 0xff, 0xff, 0xff, 0xff, 0xff, 0xff, 0xff, 0xff,
   0xad, 0x0b, 0xff, 0xff, 0xff, 0xff, 0xff, 0xff, 0xff, 0xff, 0xff, 0xff, 0xff, 0xff, 0xff, 0xff,
   0x45, 0x43, 0x01, 0x02, 0x01, 0x01, 0x01, 0x03, 0x00, 0x00, 0x00, 0x00, 0x00, 0x00, 0x00, 0x00,
   0x05, 0x00, 0x00, 0x00, 0x00, 0x00, 0x00, 0x00, 0x00, 0x00, 0x00, 0x00, 0x00, 0x00, 0x00, 0x00,
   0xcb, 0x40, 0x00, 0x00, 0x03, 0x00, 0x00, 0x00, 0xf8, 0x0a, 0x00, 0x00, 0x0b, 0x00, 0x00, 0x00,
   0xf4, 0x0d, 0x00, 0x00, 0x28, 0x3c, 0x00, 0x00, 0x94, 0x0d, 0x00, 0x00, 0x3c, 0x00, 0x00, 0x00,
   0x4e, 0x56, 0x54, 0x00, 0x00, 0x00, 0x00, 0x00, 0x46, 0x72, 0x61, 0x6d, 0x65, 0x77, 0x6f, 0x00,
   0x30, 0x30, 0x43, 0x44, 0x00, 0x00, 0x00, 0x00, 0x4c, 0x49, 0x4f, 0x4e, 0x00, 0x00, 0x00, 0x00,
   0x00, 0x00, 0x00, 0x00, 0x00, 0x00, 0x00, 0x00, 0x00, 0x00, 0x00, 0x00, 0x00, 0x00, 0x00, 0x00,
   0x00, 0x00, 0x00, 0x00, 0x00, 0x00, 0x00, 0x00, 0x00, 0x00, 0x00, 0x00, 0x00, 0x00, 0x00, 0x00,
   0x00, 0x00, 0x00, 0x00, 0x00, 0x00, 0x00, 0x00, 0x00, 0x00, 0x00, 0x00, 0x00, 0x00, 0x00, 0x00,
   0x00, 0x00, 0x00, 0x00, 0x00, 0x00, 0x00, 0x00, 0x00, 0x00, 0x00, 0x00, 0x00, 0x00, 0x00, 0x00,
   0x00, 0x00, 0x00, 0x00, 0x00, 0x00, 0x00, 0x00, 0x00, 0x00, 0x00, 0x00, 0x00, 0x00, 0x00, 0x00,
   0x00, 0x00, 0x00, 0x00, 0x00, 0x00, 0x00, 0x00, 0x00, 0x00, 0x00, 0x00, 0x00, 0x00, 0x00, 0x00,
   0x00, 0x00, 0x00, 0x00, 0x00, 0x00, 0x00, 0x00, 0x00, 0x00, 0x00, 0x00, 0x00, 0x00, 0x00, 0x00,
   0x00, 0x00, 0x00, 0x00, 0x00, 0x00, 0x00, 0x00, 0x00, 0x00, 0x00, 0x00, 0x00, 0x00]

def ecmemBinBuf : Buf := ⟨Mem.ofList ecmemBin, ecmemBin.length⟩

/-- `*s = ECMEM_BIN[off]` -/
def loadEcmem (off : Int) : Prog Boot UInt8 := if 0 ≤ off then ecmemBinBuf.load off.toNat else .fault

/-- One round of the loop that reads a string until a \0; the state is `off` and what was stored. -/
def readStringRound (s : Int × List UInt8) :
    Prog Boot ((Int × List UInt8) ⊕ (Int × List UInt8)) := do
  let (off, stored) := s
  if off < (ecMemmapSize : Nat) then
    let c ← loadEcmem off
    let stored := stored ++ [c]
    if c = 0 then
      return .inl (stored.length, stored)
    return .inr (off + 1, stored)
  else
    return .inl (stored.length, stored)

/-- `ECReadMemoryNullLpc`; the result is its value and the bytes it stored in the buffer. -/
def ecReadMemoryNullLpc (offset length : UInt64) : Prog Boot (Int × List UInt8) := do
  let off := toInt offset.toNat
  if (offset + length).toNat > ecMemmapSize then
    return (-1, [])
  if length.toNat > 0 then
    -- read specified bytes directly
    if off < 0 then
      .fault
    else
      let source ← ecmemBinBuf.copyOut off.toNat length.toNat
      return (toInt length.toNat, source.toList length.toNat)
  else
    Prog.loop readStringRound 256 (off, [])

end FrameworkHacks.Null
