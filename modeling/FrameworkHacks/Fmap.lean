import FrameworkHacks.Protocol

/-!
# FmapLib

Finding the flash map in an EC image, and an area in the map. The library functions it rests on,
`ScanMem64` and `AsciiStrnCmp`, are here as they are documented. All of them read memory byte by byte
through `load`, in any monad, so that the same code can be run on plain memory or on memory that
watches its bounds.
-/

namespace FrameworkHacks

open Effects

variable {m : Type → Type} [Monad m]

/-- `AsciiStrnCmp` from character `i` on, with `length + 1` characters to go. -/
def asciiStrnCmpFrom (first second : Nat → m UInt8) (i : Nat) : (length : Nat) → m Int
  | 0 => do
    let a ← first i
    let b ← second i
    return (a.toNat : Int) - b.toNat
  | length + 1 => do
    let a ← first i
    let b ← second i
    if a ≠ 0 ∧ b ≠ 0 ∧ a = b then
      asciiStrnCmpFrom first second (i + 1) length
    else
      return (a.toNat : Int) - b.toNat

/-- Compares at most `length` characters of two strings, up to a NUL. -/
def asciiStrnCmp (first second : Nat → m UInt8) : (length : Nat) → m Int
  | 0 => return 0
  | length + 1 => asciiStrnCmpFrom first second 0 length

/-- The 8 bytes at `i` as a number. -/
def loadLe64 (load : Nat → m UInt8) (i : Nat) : m Nat :=
  (List.range 8).foldlM (fun v k => do return v + (← load (i + k)).toNat * 256 ^ k) 0

def loadLe16 (load : Nat → m UInt8) (i : Nat) : m Nat := do
  return (← load i).toNat + 256 * (← load (i + 1)).toNat

def loadLe32 (load : Nat → m UInt8) (i : Nat) : m Nat := do
  return (← loadLe16 load i) + 65536 * (← loadLe16 load (i + 2))

/-- The offset of the first of `n` quadwords from `i` on that is `value`. -/
def scanMem64 (load : Nat → m UInt8) (value i : Nat) : (n : Nat) → m (Option Nat)
  | 0 => return none
  | n + 1 => do
    if (← loadLe64 load i) = value then
      return some i
    else
      scanMem64 load value (i + 8) n

/-- `__FMAP__`, little-endian. -/
def fmapSignature : Nat := 0x5F5F50414D465F5F

def fmapNamelen : Nat := 32

/-- `sizeof(EC_IMAGE_FMAP_HEADER)`: Signature (8), VerMajor, VerMinor, Base (8), Size (4), Name (32),
NAreas (2). -/
def sizeofFmapHeader : Nat := 56

/-- `sizeof(EC_IMAGE_FMAP_AREA_HEADER)`: Offset (4), Size (4), Name (32), Flags (2). -/
def sizeofFmapAreaHeader : Nat := 42

/-- The offset of the flash map in a buffer, or NULL. -/
def getImageFlashMap (buffer : Nat → m UInt8) (length : Nat) : m (Option Nat) :=
  scanMem64 buffer fmapSignature 0 (length / 8)

/-- The loop of `GetImageFlashArea`, with `n` areas to go from the one at `area` on. -/
def findArea (buffer : Nat → m UInt8) (areaName : List UInt8) (area : Nat) : (n : Nat) → m (Option Nat)
  | 0 => return none
  | n + 1 => do
    let name := fun i => buffer (area + 8 + i)
    if (← asciiStrnCmp (fun i => pure (Mem.ofList areaName i)) name fmapNamelen) = 0 then
      return some area
    else
      findArea buffer areaName (area + sizeofFmapAreaHeader) n

/-- The offset of the header of the first area with a name, or NULL. -/
def getImageFlashArea (buffer : Nat → m UInt8) (map : Nat) (areaName : List UInt8) : m (Option Nat) := do
  let nAreas ← loadLe16 buffer (map + 54)
  findArea buffer areaName (map + sizeofFmapHeader) nAreas

end FrameworkHacks
