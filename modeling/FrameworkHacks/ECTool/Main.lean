import FrameworkHacks.Library.Interpret
import FrameworkHacks.ECTool.Console
import FrameworkHacks.ECTool.ECTool

/-!
# ECTool.c, from the entry point

`UefiMain` and the commands `reboot` and `console`, with `PrintECResponse` of EC.c. The operations of the
entry point (the shell, the protocol database, the terminal) are added to the services. `Startup.print` is
what the console and the error messages write; the other messages are left out, since nothing depends on
them.
-/

namespace FrameworkHacks.ECTool

open Effects

inductive StartupOp
  | shellInitialize
  /-- `HandleProtocol` for the shell's parameters. -/
  | handleProtocol
  /-- `LocateProtocol` for the EC protocol. -/
  | locateProtocol
  | print (text : List UInt8)

/-- The shell's parameters are the arguments, or there are none. -/
@[reducible] def StartupOp.Ans : StartupOp → Type
  | .shellInitialize => EfiStatus
  | .handleProtocol => Option (List String)
  | .locateProtocol => EfiStatus
  | .print _ => Unit

@[reducible] def Startup : Signature := ⟨StartupOp, StartupOp.Ans⟩

/-- What `ectool` calls. -/
@[reducible] def App : Signature := Services.sum Startup

def shellInitialize : Prog App EfiStatus := Prog.perform (E := App) (.inr .shellInitialize)

def handleProtocol : Prog App (Option (List String)) := Prog.perform (E := App) (.inr .handleProtocol)

def locateProtocol : Prog App EfiStatus := Prog.perform (E := App) (.inr .locateProtocol)

def printText (text : List UInt8) : Prog App Unit := Prog.perform (E := App) (.inr (.print text))

/-! ### EC.c -/

def mEcErrorMessages : List String :=
  ["success",
   "invalid command",
   "error",
   "invalid param",
   "access denied",
   "invalid response",
   "invalid version",
   "invalid checksum",
   "in progress",
   "unavailable",
   "timeout",
   "overflow",
   "invalid header",
   "request truncated",
   "response too big",
   "bus error",
   "busy",
   "invalid header version",
   "invalid header crc",
   "invalid data crc",
   "dup unavailable"]

/-- `mEcErrorMessages[i]` -/
def errorMessage {E : Signature} (i : Int) : Prog E String :=
  if 0 ≤ i then
    match mEcErrorMessages[i.toNat]? with
    | some message => pure message
    | none => .fault
  else .fault

/-- `if(rv < -EECRESULT) rv += EECRESULT;` -/
def ownCode {E : Signature} (rv : Int) : Prog E Int :=
  if rv < -eecresult then addInt rv eecresult else pure rv

def codeMessage {E : Signature} (rv : Int) : Prog E String :=
  if rv ≥ -EcStatus.dupUnavailable.code then errorMessage (-rv) else pure "<unknown error>"

/-- The text of `PrintECResponse` for a negative value. -/
def responseText {E : Signature} (rv : Int) : Prog E (List UInt8) := do
  let rv ← ownCode rv
  let message ← codeMessage rv
  return ascii (toString (-rv)) ++ ascii " (" ++ ascii message ++ ascii ")"

def printEcResponse (rv : Int) : Prog App Unit := do
  if rv ≥ 0 then
    return ()
  printText (← responseText rv)

/-! ### `ectool reboot` -/

def ecCmdRebootEc : Nat := 0x00D2

/-- `enum ec_reboot_cmd` -/
def ecRebootJumpRo : UInt8 := 1
def ecRebootJumpRw : UInt8 := 2
def ecRebootCold : UInt8 := 4

def ecRebootFlagOnApShutdown : UInt8 := 2

/-- `struct ec_params_reboot_ec` -/
def rebootParams (argv : List String) : List UInt8 :=
  let cmd := if argv.length > 1 then
      if argv.getD 1 "" = "ro" then ecRebootJumpRo
      else if argv.getD 1 "" = "rw" then ecRebootJumpRw
      else ecRebootCold
    else ecRebootCold
  let flags := if argv.length > 2 then
      if argv.getD 2 "" = "at-shutdown" then ecRebootFlagOnApShutdown else 0
    else 0
  [cmd, flags]

def cmdReboot (argv : List String) : Prog App EfiStatus := do
  let r ← (sendCommand ecCmdRebootEc 0 (rebootParams argv) 0).inl
  -- unreachable on success on the Framework Laptop
  if r.rv < 0 then
    printEcResponse r.rv
    return efiDeviceError
  return efiSuccess

/-! ### `ectool console` -/

/-- `PrintLogBuffer` on the buffer of `cmd_console`. -/
def overBuffer (buf : Mem) : Impl Console App
  | .load i => Buf.load ⟨buf, gEcMaxResponse⟩ i
  | .print text => printText text

/-- One round of the loop of `cmd_console`; the state is `buf` and `p.subcmd`, the result `rv`. -/
def consoleRound (whole : Bool) (s : Mem × UInt8) : Prog App (Int ⊕ (Mem × UInt8)) := do
  let (buf, subcmd) := s
  let r ← (sendCommand ecCmdConsoleRead 1 [subcmd] gEcMaxResponse).inl
  let buf := r.into buf gEcMaxResponse
  if r.rv < 0 then
    return .inl r.rv
  if r.rv > 0 then
    (printLogBuffer whole r.rv.toNat).interpret (overBuffer buf)
  if r.rv > 0 ∧ buf 0 ≠ 0 then
    return .inr (buf, consoleReadNext)
  else
    return .inl r.rv

/-- `EcOut:` of `cmd_console` -/
def consoleEcOut (rv : Int) : Prog App EfiStatus := do
  if rv < 0 then
    printEcResponse rv
    return efiDeviceError
  return efiSuccess

/-- `cmd_console`. Its loop ends when the EC says so; `fuel` bounds its rounds. `whole` is how much
`ScanMem8` looks at. -/
def cmdConsole (whole : Bool) (fuel : Nat) : Prog App EfiStatus := do
  let r ← (sendCommand ecCmdConsoleSnapshot 0 [] 0).inl
  if r.rv < 0 then
    consoleEcOut r.rv
  else
    let rv ← Prog.loop (consoleRound whole) fuel (fun _ => 0, consoleReadRecent)
    consoleEcOut rv

/-! ### The entry point -/

/-- What the model leaves open about a run: the bounds of the loops that need not end, the contents of the
firmware file, and how much `ScanMem8` looks at. -/
structure Setting where
  fuel : Nat
  image : Mem
  whole : Bool

abbrev CommandHandler := (argv : List String) → Prog App EfiStatus

def commands (c : Setting) : List (String × CommandHandler) :=
  [("version", fun _ => cmdVersion.inl),
   ("reboot", cmdReboot),
   ("flashread", fun argv => (cmdFlashread argv).inl),
   ("reflash", fun argv => (cmdReflash c.fuel c.image argv).inl),
   ("console", fun _ => cmdConsole c.whole c.fuel)]

/-- `GetArg`. Where it fails, `Argc` stays 0; its status is not looked at. -/
def getArg : Prog App (List String) := do
  return (← handleProtocol).getD []

def uefiMain (c : Setting) : Prog App EfiStatus := do
  let status ← shellInitialize
  if efiError status then
    return status
  let argv ← getArg
  if argv.length < 2 then
    return 1
  let status ← locateProtocol
  if efiError status then
    return status
  match (commands c).find? fun spec => argv.getD 1 "" = spec.1 with
  | some spec => spec.2 (argv.drop 1)
  | none => return 1

end FrameworkHacks.ECTool
