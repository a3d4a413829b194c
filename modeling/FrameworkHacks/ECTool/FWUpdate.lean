import FrameworkHacks.Library.Attempt
import FrameworkHacks.ECTool.Flash
import FrameworkHacks.Fmap

/-!
# FWUpdate.c

`ectool reflash`. The stages of `cmd_reflash` are functions of their own, in the order of the source;
its `goto`s are exits of an `Attempt`, and `finish` is what stands behind the labels.

The file's contents are a parameter, `image`: memory from `FirmwareBuffer` on. Its first 512 KiB are
the file; what follows is whatever lies behind the buffer, which a broken flash map makes the code
read.
-/

namespace FrameworkHacks.ECTool

open Effects

/-! ### Readiness -/

def ecMemmapId : Nat := 0x20
def ecMemmapBattCap : Nat := 0x48
def ecMemmapBattFlag : Nat := 0x4c
def ecMemmapBattLfcc : Nat := 0x58

def ecBattFlagAcPresent : UInt8 := 0x01
def ecBattFlagBattPresent : UInt8 := 0x02

/-- The comparison of the charge with 20%. -/
def chargedBelow (batteryCap batteryLfcc : Nat) : Prog Services Bool :=
  if batteryLfcc = 0 then .fault else pure (decide (100 * batteryCap / batteryLfcc < 20))

def checkReadyForECFlash : Prog Services EfiStatus := do
  let ecid ← readMemory ecMemmapId 2
  if ecid 0 ≠ 'E'.toNat.toUInt8 ∨ ecid 1 ≠ 'C'.toNat.toUInt8 then
    return efiInvalidParameter
  let batteryFlag ← readMemory ecMemmapBattFlag 1
  let batteryLfcc ← readMemory ecMemmapBattLfcc 4
  let batteryCap ← readMemory ecMemmapBattCap 4
  if batteryFlag 0 &&& ecBattFlagAcPresent = 0 then
    return efiNotReady
  if batteryFlag 0 &&& ecBattFlagBattPresent ≠ 0 then
    if ← chargedBelow (batteryCap.le32 0) (batteryLfcc.le32 0) then
      return efiNotReady
  return efiSuccess

/-! ### Flash maps -/

def flashRegionBootblock : Nat := 0x01
def flashRegionSkip : Nat := 0x02
def flashDeviceRequiresUnlock : Nat := 0x1

structure FlashRegion where
  name : String
  base : Nat
  size : Nat
  flags : Nat
  deriving DecidableEq, Repr

structure FlashMap where
  board : String
  regions : List FlashRegion
  flags : Nat
  deriving DecidableEq, Repr

def FlashRegion.skip (r : FlashRegion) : Bool := r.flags &&& flashRegionSkip ≠ 0

def FlashMap.requiresUnlock (m : FlashMap) : Bool := m.flags &&& flashDeviceRequiresUnlock ≠ 0

def hxFlashRegions : List FlashRegion :=
  [⟨"RO", 0x00000, 0x3C000, flashRegionBootblock⟩,
   ⟨"RO_VPD", 0x3C000, 0x04000, flashRegionSkip⟩,
   ⟨"RW", 0x40000, 0x39000, 0⟩,
   ⟨"RW_VPD", 0x79000, 0x07000, flashRegionSkip⟩]

def npcxFlashRegions : List FlashRegion :=
  [⟨"RO", 0x00000, 0x40000, flashRegionBootblock⟩,
   ⟨"RW", 0x40000, 0x3F000, 0⟩,
   ⟨"SPI_FLAGS", 0x7F000, 0x01000, flashRegionSkip⟩]

/-- When we can't tell what board it is, and the user passes `-f -f`, just assume it is a 50/50 split
between RO and RW. -/
def unknownBoardFlashRegions : List FlashRegion :=
  [⟨"RO", 0x00000, 0x40000, flashRegionBootblock⟩,
   ⟨"RW", 0x40000, 0x40000, 0⟩]

def unknownBoardFlashMap : FlashMap := ⟨"unknown", unknownBoardFlashRegions, flashDeviceRequiresUnlock⟩

def flashMaps : List FlashMap :=
  [⟨"hx20", hxFlashRegions, flashDeviceRequiresUnlock⟩,
   ⟨"hx30", hxFlashRegions, flashDeviceRequiresUnlock⟩,
   ⟨"azalea", npcxFlashRegions, 0⟩,
   ⟨"lotus", npcxFlashRegions, 0⟩,
   ⟨"marigold", npcxFlashRegions, 0⟩,
   ⟨"sunflower", npcxFlashRegions, 0⟩,
   ⟨"lilac", npcxFlashRegions, 0⟩,
   ⟨"tulip", npcxFlashRegions, 0⟩]

/-! ### Arguments -/

structure ReflashArgs where
  force : Nat := 0
  roRequested : Bool := false
  rwRequested : Bool := false
  allRequested : Bool := false
  /-- `RegionFlashDesireMask`; by default, we desire all regions. -/
  desireMask : BitVec 16 := 0xFFFF
  filename : Option String := none

/-- The argument loop. The file name is the last argument; what follows it is not looked at. -/
def reflashArgs (a : ReflashArgs) : List String → ReflashArgs
  | [] => a
  | arg :: rest =>
    if arg = "-f" then reflashArgs { a with force := a.force + 1 } rest
    else if arg = "--ro" then reflashArgs { a with desireMask := 0, roRequested := true } rest
    else if arg = "--rw" then reflashArgs { a with desireMask := 0, rwRequested := true } rest
    else if arg = "--all" then reflashArgs { a with allRequested := true } rest
    else { a with filename := some arg }

/-- The loop over the regions; `i` is the index of the next one. The masks are `RegionFlashMask` and
`RegionFlashDesireMask`. -/
def maskLoop (a : ReflashArgs) : List FlashRegion → (i : Nat) → (flash desire : BitVec 16) →
    BitVec 16 × BitVec 16
  | [], _, flash, desire => (flash, desire)
  | region :: rest, i, flash, desire =>
    let regionBit := 1#16 <<< i
    let flash := flash ||| regionBit
    -- skipped regions are not desired; the user can override this with `--all`
    let desire := if region.skip then desire &&& ~~~regionBit else desire
    let desire :=
      if a.roRequested && region.name == "RO" then desire ||| regionBit
      else if a.rwRequested && region.name == "RW" then desire ||| regionBit
      else desire
    maskLoop a rest (i + 1) flash desire

/-- The mask of regions to flash. -/
def regionMask (a : ReflashArgs) (map : FlashMap) : BitVec 16 :=
  let (flash, desire) := maskLoop a map.regions 0 0 a.desireMask
  let desire := if a.allRequested then 0xFFFF else desire
  flash &&& desire

/-! ### Exits -/

/-- Which of the pointers that are released at `Out` are not NULL. -/
structure Held where
  firmwareFile : Bool := false
  fileInfo : Bool := false
  firmwareBuffer : Bool := false
  verifyBuffer : Bool := false

def Held.all : Held := ⟨true, true, true, true⟩

/-- The ways out of `cmd_reflash`: a plain `return` and the three labels. -/
inductive Exit
  | ret (status : EfiStatus)
  | ecOut (held : Held) (rv : Int) (status : EfiStatus)
  | errorOut (held : Held) (rv : Int) (status : EfiStatus)
  | out (held : Held) (status : EfiStatus)

abbrev Step := Attempt Services Exit

/-- `Out:` -/
def out (held : Held) (status : EfiStatus) : Prog Services EfiStatus := do
  if held.firmwareFile then
    let _ ← shellCloseFile
  if held.fileInfo then freePool .fileInfo
  if held.firmwareBuffer then freePool .firmwareBuffer
  if held.verifyBuffer then freePool .verifyBuffer
  return status

/-- `ErrorOut:` -/
def errorOut (held : Held) (rv : Int) (status : EfiStatus) : Prog Services EfiStatus :=
  out held (if rv < 0 then efiDeviceError else status)

/-- What stands behind the labels; `EcOut` only prints. -/
def finish : Exit → Prog Services EfiStatus
  | .ret status => pure status
  | .ecOut held rv status => errorOut held rv status
  | .errorOut held rv status => errorOut held rv status
  | .out held status => out held status

/-! ### The firmware image -/

def imageSize : UInt64 := 512 * 1024

/-- Opens and reads the file. The result is what `VerifyBuffer` holds. -/
def loadFirmware (filename : String) : Step Mem := do
  let status ← shellOpenFileByName filename
  Attempt.leaveIf (efiError status = true) (.out {} status)
  let held : Held := { firmwareFile := true }
  match ← shellGetFileInfo with
  | none =>
    -- `FileInfo->FileSize` through NULL
    liftM (Prog.fault : Prog Services Mem)
  | some fileSize =>
    let held := { held with fileInfo := true }
    Attempt.leaveIf (fileSize ≠ imageSize) (.out held efiUnsupported)
    let firmware ← allocatePool .firmwareBuffer fileSize
    let verify ← allocatePool .verifyBuffer fileSize
    let held := { held with firmwareBuffer := firmware.isSome, verifyBuffer := verify.isSome }
    Attempt.leaveIf (firmware.isNone = true ∨ verify.isNone = true) (.out held efiNotReady)
    let (status, readSize) ← shellReadFile fileSize
    Attempt.leaveIf (efiError status = true) (.out .all status)
    Attempt.leaveIf (readSize ≠ fileSize) (.out .all efiEndOfFile)
    return verify.getD fun _ => 0

/-! ### The board -/

/-- `sizeof(struct ec_response_get_version)`: version_string_ro (32), version_string_rw (32),
reserved (32), current_image (4). -/
def sizeofGetVersion : Nat := 100

def isDelimiter (c : UInt8) : Bool := c = '_'.toNat.toUInt8 || c = '-'.toNat.toUInt8

/-- Truncates a version string at its first delimiter; `n` characters to go from `k` on. -/
def truncateBoard (id : Mem) (k : Nat) : (n : Nat) → Mem
  | 0 => id
  | n + 1 => if isDelimiter (id k) then id.set k 0 else truncateBoard id (k + 1) n

/-- `CurrentBoardId`. The hx20 EC will by default only return the current active version;
compensate. -/
def currentBoardId (versionResponse : Mem) : Mem :=
  let id := if versionResponse 0 = 0 then versionResponse.drop 32 else versionResponse
  truncateBoard id 0 32

/-- The loop that finds `FirmwareBoardIdLength`. It looks at a character before it tests the bound. -/
def boardIdLength {m : Type → Type} [Monad m] (id : Nat → m UInt8) (k : Nat) : (n : Nat) → m Nat
  | 0 => do
    let _ ← id k
    return k
  | n + 1 => do
    if isDelimiter (← id k) then
      return k
    else
      boardIdLength id (k + 1) n

/-- `AsciiStrnCmp` on plain memory. -/
def strnCmp (first second : Mem) (length : Nat) : Int := asciiStrnCmp (m := Id) first second length

/-- Figure out which board map to use. -/
def findFlashMap (id : Mem) (length : Nat) : Option FlashMap :=
  flashMaps.find? fun map => strnCmp (Mem.ofList (ascii map.board)) id length = 0

/-- The offset of the flash map of an image, or NULL. -/
def imageFlashMap (image : Mem) : Option Nat := getImageFlashMap (m := Id) image imageSize.toNat

/-- The offset of the header of an area of an image, or NULL. -/
def imageFlashArea (image : Mem) (map : Nat) (areaName : String) : Option Nat :=
  getImageFlashArea (m := Id) image map (ascii areaName)

/-- The RO_FRID area of an image, if it has a flash map with one. -/
def roFrid (image : Mem) : Option Nat :=
  (imageFlashMap image).bind fun map => imageFlashArea image map "RO_FRID"

/-- `FirmwareBoardId`: the image from the offset the area names. -/
def firmwareBoardId (image : Mem) (area : Nat) : Mem := image.drop (image.le32 area)

def firmwareBoardIdLength (image : Mem) (area : Nat) : Nat :=
  boardIdLength (m := Id) (firmwareBoardId image area) 0 32

/-- The board checks. The result is `FinalFlashMap`. -/
def checkBoard (image : Mem) (force : Nat) : Step FlashMap := do
  let r ← sendCommand ecCmdGetVersion 0 [] sizeofGetVersion
  Attempt.leaveIf (r.rv < 0) (.ecOut .all r.rv efiSuccess)
  let current := currentBoardId (r.into (fun _ => 0) sizeofGetVersion)
  match roFrid image with
  | none => throw (.out .all efiAborted)
  | some area =>
    let id := firmwareBoardId image area
    let length := firmwareBoardIdLength image area
    if force < 2 ∧ strnCmp current id length ≠ 0 then
      -- we're about to abort, so the board ID in the buffer can be terminated in place
      let _ ← (Buf.store ⟨image, imageSize.toNat⟩ (image.le32 area + length) 0 : Prog Services Buf)
      throw (.out .all efiAborted)
    else
      match findFlashMap id length with
      | some map => return map
      | none =>
        Attempt.leaveIf (force < 2) (.out .all efiAborted)
        return unknownBoardFlashMap

/-! ### Flashing -/

/-- Seconds in which any key cancels. -/
def countdown : (i : Nat) → Step Unit
  | 0 => return ()
  | i + 1 => do
    stall 1000000
    let keyStatus ← readKeyStroke
    Attempt.leaveIf (efiError keyStatus = false) (.ret efiAborted)
    countdown i

/-- `force > 0 ? EFI_SUCCESS : CheckReadyForECFlash()` -/
def readyOrForced (force : Nat) : Prog Services EfiStatus :=
  if force > 0 then pure efiSuccess else checkReadyForECFlash

/-- What is settled before the flash is touched. -/
structure Plan where
  map : FlashMap
  mask : BitVec 16
  verifyBuffer : Mem

/-- Everything before the unlock. -/
def prepare (image : Mem) (a : ReflashArgs) (filename : String) : Step Plan := do
  let status ← readyOrForced a.force
  Attempt.leaveIf (efiError status = true) (.out {} status)
  let verifyBuffer ← loadFirmware filename
  let map ← checkBoard image a.force
  let mask := regionMask a map
  countdown 7
  let status ← readyOrForced a.force
  Attempt.leaveIf (efiError status = true) (.out .all status)
  return ⟨map, mask, verifyBuffer⟩

/-- `enum ec_flash_notified_flags` -/
def flashAccessSpi : UInt8 := 0
def flashFirmwareStart : UInt8 := 1
def flashFirmwareDone : UInt8 := 2
def flashAccessSpiDone : UInt8 := 3

def flashNotified (flags : UInt8) : Prog Services Reply :=
  sendCommand ecCmdFlashNotified 0 [flags] 0

def unlock (map : FlashMap) : Step Unit :=
  if map.requiresUnlock then do
    let r ← flashNotified flashAccessSpi
    Attempt.leaveIf (r.rv < 0) (.ecOut .all r.rv efiSuccess)
    let r ← flashNotified flashFirmwareStart
    Attempt.leaveIf (r.rv < 0) (.ecOut .all r.rv efiSuccess)
  else
    return ()

/-- `CompareMem(a, b, n) == 0` -/
def sameMem (a b : Mem) (n : Nat) : Bool := (List.range n).all fun i => a i == b i

/-- Erases, writes and verifies one region. The result is `VerifyBuffer`. -/
def flashRegion (fuel : Nat) (image : Mem) (region : FlashRegion) (verify : Buf) : Step Buf := do
  let rv ← flashErase region.base region.size
  Attempt.leaveIf (rv < 0) (.ecOut .all rv efiSuccess)
  let rv ← flashWrite fuel region.base region.size ⟨image, imageSize.toNat⟩ region.base
  Attempt.leaveIf (rv < 0) (.ecOut .all rv efiSuccess)
  let (rv, verify) ← flashRead region.base region.size verify region.base
  Attempt.leaveIf (rv < 0) (.ecOut .all rv efiSuccess)
  Attempt.leaveIf (sameMem (verify.bytes.drop region.base) (image.drop region.base) region.size = false)
    (.errorOut .all (-1) efiSuccess)
  return verify

/-- `31 - __builtin_clz(mask)` -/
def highestBit (mask : BitVec 16) : Nat := mask.toNat.log2

/-- One round of `while(RegionFlashMask)`. The regions are flashed in reverse order; bailing out after
RW but before RO stands a chance of preserving the system. -/
def regionRound (fuel : Nat) (image : Mem) (map : FlashMap) (s : BitVec 16 × Buf) :
    Prog Services (Except Exit Unit ⊕ (BitVec 16 × Buf)) := do
  let (mask, verify) := s
  if mask = 0 then
    return .inl (.ok ())
  else
    let index := highestBit mask
    let mask := mask &&& ~~~(1#16 <<< index)
    match map.regions[index]? with
    | none => .fault
    | some region =>
      match ← (flashRegion fuel image region verify).run with
      | .error e => return .inl (.error e)
      | .ok verify => return .inr (mask, verify)

def flashRegions (fuel : Nat) (image : Mem) (map : FlashMap) (mask : BitVec 16) (verify : Buf) :
    Step Unit :=
  ExceptT.mk (Prog.loop (regionRound fuel image map) 17 (mask, verify))

def lock (map : FlashMap) : Step Unit :=
  if map.requiresUnlock then do
    let r ← flashNotified flashAccessSpiDone
    Attempt.leaveIf (r.rv < 0) (.ecOut .all r.rv efiSuccess)
    let r ← flashNotified flashFirmwareDone
    Attempt.leaveIf (r.rv < 0) (.ecOut .all r.rv efiSuccess)
  else
    return ()

/-- Everything from the readiness check to the labels. -/
def reflash (fuel : Nat) (image : Mem) (a : ReflashArgs) (filename : String) : Step Unit := do
  let plan ← prepare image a filename
  unlock plan.map
  flashRegions fuel image plan.map plan.mask ⟨plan.verifyBuffer, imageSize.toNat⟩
  lock plan.map

/-- `cmd_reflash`. `fuel` bounds the rounds of each `flash_write`. -/
def cmdReflash (fuel : Nat) (image : Mem) (argv : List String) : Prog Services EfiStatus := do
  let a := reflashArgs {} (argv.drop 1)
  match a.filename with
  | none =>
    -- usage
    return 1
  | some filename =>
    match ← (reflash fuel image a filename).run with
    | .error exit => finish exit
    | .ok () => finish (.out .all efiSuccess)

end FrameworkHacks.ECTool
