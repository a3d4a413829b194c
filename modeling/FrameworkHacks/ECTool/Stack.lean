import FrameworkHacks.ECTool.Calls
import FrameworkHacks.Transport.CrosEC

/-!
# The tool on the machine

`ectool` reaches the EC through `EFI_CROSEC_PROTOCOL` and nothing else: `overProtocol` makes each of its
services a call of the protocol or one of the host's own (`Host`). With a hardware library for the protocol
the whole tool is a program of port accesses, and it runs on the machine behind the ports as it does on the
abstract one (`ectool_onMachine`).
-/

namespace FrameworkHacks.ECTool

open Effects Transport

/-! ### Services over the protocol -/

/-- The services that are not the EC protocol's. -/
def ServiceOp.isLocal : ServiceOp → Bool
  | .sendCommand _ => false
  | .readMemory .. => false
  | _ => true

@[reducible] def Local : Signature := ⟨{op : ServiceOp // op.isLocal = true}, fun op => op.1.Ans⟩

/-- What the host answers by itself. -/
@[reducible] def Host : Signature := Local.sum Startup

/-- A `SendCommand` of the tool. The reply is the result as an `int` and the bytes stored, which a negative
result has none of. -/
def callSendCommand (c : HostCommand) : Prog CrosEc Reply := do
  let (rv, indata) ← Prog.perform (E := CrosEc) (.sendCommand (UInt64.ofNat c.command) (UInt64.ofNat c.version)
    (Mem.ofList c.outdata) (UInt64.ofNat c.outdata.length) (fun _ => 0) (UInt64.ofNat c.insize))
  return ⟨(Int32.ofInt rv).toInt, indata.toList rv.toNat⟩

/-- A `ReadMemory` of the tool, into a variable of `length` bytes. -/
def callReadMemory (offset length : Nat) : Prog CrosEc Mem := do
  let (_, buffer) ← Prog.perform (E := CrosEc) (.readMemory (UInt64.ofNat offset) ⟨fun _ => 0, length⟩
    (UInt64.ofNat length))
  return buffer.bytes

/-- A service of the host. -/
def callLocal (op : ServiceOp) (h : op.isLocal = true) : Prog (CrosEc.sum Host) op.Ans :=
  Prog.perform (E := CrosEc.sum Host) (.inr (.inl ⟨op, h⟩))

def overProtocol : Impl App (CrosEc.sum Host)
  | .inl (.sendCommand c) => (callSendCommand c).inl
  | .inl (.readMemory offset length) => (callReadMemory offset length).inl
  | .inl (.shellOpenFileByName filename) => callLocal (.shellOpenFileByName filename) rfl
  | .inl .shellGetFileInfo => callLocal .shellGetFileInfo rfl
  | .inl (.shellReadFile size) => callLocal (.shellReadFile size) rfl
  | .inl (.shellWriteFile size buffer) => callLocal (.shellWriteFile size buffer) rfl
  | .inl .shellCloseFile => callLocal .shellCloseFile rfl
  | .inl (.shellStrToUintn text) => callLocal (.shellStrToUintn text) rfl
  | .inl (.allocatePool block size) => callLocal (.allocatePool block size) rfl
  | .inl (.freePool block) => callLocal (.freePool block) rfl
  | .inl .readKeyStroke => callLocal .readKeyStroke rfl
  | .inl (.stall usec) => callLocal (.stall usec) rfl
  | .inl .indeterminate => callLocal .indeterminate rfl
  | .inr op => Prog.perform (E := CrosEc.sum Host) (.inr (.inr op))

/-! ### The calls of the protocol -/

/-- The operations of the tool that stay within what both libraries serve alike. -/
def AppCalls (cmds : List Nat) : App.Op → Prop := Sum.elim (Calls cmds) fun _ => True

theorem toNat_ofNat_of_lt {n : Nat} (h : n < 2 ^ 64) : (UInt64.ofNat n).toNat = n := by
  rw [UInt64.toNat_ofNat', Nat.mod_eq_of_lt h]

theorem plain_readMemory {offset length : Nat}
    (h : 0 < length ∧ offset + length ≤ ecMemmapSize ∧ offset % 4 = 0) :
    Plain (.readMemory (UInt64.ofNat offset) ⟨fun _ => 0, length⟩ (UInt64.ofNat length)) := by
  obtain ⟨hpos, hsum, hmod⟩ := h
  have hsum' : offset + length ≤ 255 := hsum
  simp only [Plain, Mec.pad]
  rw [toNat_ofNat_of_lt (by omega), toNat_ofNat_of_lt (by omega), hmod]
  exact ⟨hpos, hsum, Nat.le_refl _, Nat.zero_le _⟩

variable {cmds : List Nat}

/-- Every call of the protocol is within its limits. -/
def LimitedCalls : (CrosEc.sum Host).Op → Prop := Sum.elim WithinLimits fun _ => True

theorem sendCommand_limits {c : HostCommand} (hout : c.outdata.length ≤ gEcMaxRequest)
    (hin : c.insize ≤ gEcMaxResponse) :
    (UInt64.ofNat c.outdata.length).toNat ≤ gEcMaxRequest ∧ (UInt64.ofNat c.insize).toNat ≤ gEcMaxResponse := by
  have hout' : c.outdata.length ≤ 248 := hout
  have hin' : c.insize ≤ 248 := hin
  rw [toNat_ofNat_of_lt (by omega), toNat_ofNat_of_lt (by omega)]
  exact ⟨hout, hin⟩

theorem services_ans (op : ServiceOp) : Nonempty op.Ans := ⟨sampleServices (fun _ => ⟨0, []⟩) op⟩

theorem startup_ans (op : StartupOp) : Nonempty op.Ans := by
  cases op with
  | shellInitialize => exact ⟨efiSuccess⟩
  | handleProtocol => exact ⟨none⟩
  | locateProtocol => exact ⟨efiSuccess⟩
  | print text => exact ⟨()⟩

theorem app_ans (op : App.Op) : Nonempty (App.Ans op) := by
  cases op with
  | inl op => exact services_ans op
  | inr op => exact startup_ans op

theorem stack_ans (op : (CrosEc.sum Host).Op) : Nonempty ((CrosEc.sum Host).Ans op) := by
  rcases op with op | op | op
  · cases op with
    | sendCommand => exact ⟨(0, fun _ => 0)⟩
    | readMemory => exact ⟨(0, ⟨fun _ => 0, 0⟩)⟩
  · exact services_ans op.1
  · exact startup_ans op

theorem overProtocol_limited {H : Halt → Prop} (op : App.Op) (h : AppCalls cmds op) :
    Prog.Holds H (fun _ => True) (fun e => LimitedCalls e.op) (fun _ => True) (overProtocol op) := by
  -- a program of calls of the protocol
  have hlift {α : Type} {p : Prog CrosEc α}
      (hp : Prog.Holds H (fun _ => True) (fun e => WithinLimits e.op) (fun _ => True) p) :
      Prog.Holds H (fun _ => True) (fun e => LimitedCalls e.op) (fun _ => True) (p.inl : Prog (CrosEc.sum Host) α) :=
    Prog.Holds.inl (P := fun e : Event CrosEc => WithinLimits e.op) hp (fun op x hop => hop) fun _ _ _ => trivial
  cases op with
  | inr op => exact fun x => ⟨trivial, fun _ => trivial⟩
  | inl op =>
    cases op with
    | sendCommand c => exact hlift fun x => ⟨sendCommand_limits h.2.2.1 h.2.2.2, fun _ => trivial⟩
    | readMemory offset length => exact hlift fun x => ⟨plain_readMemory h, fun _ => trivial⟩
    | _ => exact fun x => ⟨trivial, fun _ => trivial⟩

theorem interpret_limited {α : Type} {p : Prog App α} {Q : α → Prop}
    (h : Prog.Holds (fun _ => True) (fun _ => True) (fun e => AppCalls cmds e.op) Q p) :
    Prog.Holds (fun _ => True) (fun _ => True) (fun e => LimitedCalls e.op) Q (p.interpret overProtocol) :=
  h.interpret fun op hop =>
    let ⟨x⟩ := app_ans op
    overProtocol_limited op (hop x)

/-! ### The commands -/

theorem AppCalls.mono {cmds cmds' : List Nat} (h : ∀ c ∈ cmds, c ∈ cmds') {op : App.Op}
    (hop : AppCalls cmds op) : AppCalls cmds' op := by
  cases op with
  | inr op => trivial
  | inl op =>
    cases op with
    | sendCommand c => exact ⟨h _ hop.1, hop.2⟩
    | readMemory offset length => exact hop
    | _ => trivial

/-- The program keeps to these commands. -/
abbrev AppKeepsTo (cmds : List Nat) {α : Type} (p : Prog App α) : Prop :=
  Prog.Holds (fun _ => True) (fun _ => True) (fun e => AppCalls cmds e.op) (fun _ => True) p

theorem KeepsTo.app {α : Type} {p : Prog Services α} (h : KeepsTo cmds p) : AppKeepsTo cmds (p.inl : Prog App α) :=
  Prog.Holds.inl (P := fun e : Event Services => Calls cmds e.op) h (fun _ _ hop => hop) fun _ _ _ => trivial

theorem sendCommand_calls {command version insize : Nat} {outdata : List UInt8} (hcommand : command ∈ cmds)
    (hversion : version < 256) (hout : outdata.length ≤ gEcMaxRequest) (hin : insize ≤ gEcMaxResponse) :
    AppKeepsTo cmds (sendCommand command version outdata insize).inl :=
  KeepsTo.app fun _ => ⟨⟨hcommand, hversion, hout, hin⟩, fun _ => trivial⟩

theorem printEcResponse_calls (rv : Int) : AppKeepsTo cmds (printEcResponse rv) := by
  unfold printEcResponse
  split
  · trivial
  refine Prog.Holds.bind (Q := fun _ => True) ?_ fun text _ => fun _ => ⟨trivial, fun _ => trivial⟩
  unfold responseText
  refine Prog.Holds.bind (Q := fun _ => True) ?_ fun rv' _ => ?_
  · unfold ownCode
    split
    · exact holds_addInt trivial fun _ => trivial
    · trivial
  refine Prog.Holds.bind (Q := fun _ => True) ?_ fun message _ => trivial
  unfold codeMessage
  split
  · unfold errorMessage
    split
    · cases mEcErrorMessages[(-rv').toNat]? <;> trivial
    · trivial
  · trivial

def rebootCommands : List Nat := [ecCmdRebootEc]

theorem cmdReboot_calls (argv : List String) : AppKeepsTo rebootCommands (cmdReboot argv) := by
  unfold cmdReboot
  refine (sendCommand_calls (by decide) (by decide) (by simp [rebootParams, gEcMaxRequest_eq]) (by decide)).bind
    fun r _ => ?_
  split
  · exact (printEcResponse_calls _).bind fun _ _ => trivial
  · trivial

def consoleCommands : List Nat := [ecCmdConsoleSnapshot, ecCmdConsoleRead]

theorem printLogBuffer_calls (whole : Bool) (length : Nat) (buf : Mem) :
    AppKeepsTo cmds ((printLogBuffer whole length).interpret (overBuffer buf)) := by
  refine Prog.Holds.interpret (P := fun _ => True) (Q := fun _ => True) (Prog.holds_true _) fun op _ => ?_
  cases op with
  | load i =>
    simp only [overBuffer, Buf.load]
    split <;> trivial
  | print text => exact fun _ => ⟨trivial, fun _ => trivial⟩

theorem cmdConsole_calls (whole : Bool) (fuel : Nat) : AppKeepsTo consoleCommands (cmdConsole whole fuel) := by
  have hout (rv : Int) : AppKeepsTo consoleCommands (consoleEcOut rv) := by
    unfold consoleEcOut
    split
    · exact (printEcResponse_calls rv).bind fun _ _ => trivial
    · trivial
  unfold cmdConsole
  refine (sendCommand_calls (by decide) (by decide) (by decide) (by decide)).bind fun r _ => ?_
  split
  · exact hout _
  refine Prog.Holds.bind (Q := fun _ => True) ?_ fun rv _ => hout rv
  refine Prog.Holds.loop (I := fun _ => True) trivial ?_ _ _ trivial
  rintro ⟨buf, subcmd⟩ _
  unfold consoleRound
  refine (sendCommand_calls (by decide) (by decide) (by simp [gEcMaxRequest_eq]) (by decide)).bind fun r _ => ?_
  simp only []
  split
  · trivial
  split
  · refine (printLogBuffer_calls whole _ _).bind fun _ _ => ?_
    split <;> trivial
  · split <;> trivial

/-- The commands of the tool. -/
def appCommands : List Nat :=
  versionCommands ++ rebootCommands ++ flashreadCommands ++ reflashCommands ++ consoleCommands

theorem AppKeepsTo.mono {cmds cmds' : List Nat} {α : Type} {p : Prog App α} (hp : AppKeepsTo cmds p)
    (h : ∀ c ∈ cmds, c ∈ cmds') : AppKeepsTo cmds' p :=
  Prog.Holds.mono hp (fun _ he => he.mono h) fun _ _ => trivial

theorem handler_calls (c : Setting) {spec : String × CommandHandler} (hspec : spec ∈ commands c)
    (argv : List String) : AppKeepsTo appCommands (spec.2 argv) := by
  simp only [commands, List.mem_cons, List.not_mem_nil, or_false] at hspec
  rcases hspec with rfl | rfl | rfl | rfl | rfl
  · exact AppKeepsTo.mono (KeepsTo.app cmdVersion_calls) (by decide)
  · exact AppKeepsTo.mono (cmdReboot_calls argv) (by decide)
  · exact AppKeepsTo.mono (KeepsTo.app (cmdFlashread_calls argv)) (by decide)
  · exact AppKeepsTo.mono (KeepsTo.app (cmdReflash_calls c.fuel c.image argv)) (by decide)
  · exact AppKeepsTo.mono (cmdConsole_calls c.whole c.fuel) (by decide)

theorem uefiMain_calls (c : Setting) : AppKeepsTo appCommands (uefiMain c) := by
  unfold uefiMain
  refine Prog.Holds.perform_bind fun status => ⟨trivial, fun _ => ?_⟩
  split
  · trivial
  unfold getArg
  rw [bind_assoc]
  refine Prog.Holds.perform_bind fun params => ⟨trivial, fun _ => ?_⟩
  simp only [pure_bind]
  split
  · trivial
  refine Prog.Holds.perform_bind fun status => ⟨trivial, fun _ => ?_⟩
  split
  · trivial
  split
  · rename_i spec hfind
    exact handler_calls c (List.mem_of_find?_eq_some hfind) _
  · trivial

/-! ### On the machine -/

section Machine

variable {σ D T : Type} {ec : Ec σ} {h : Handler Io D} {xfer : EcTransfer} {link : D → Link σ} {map : D → Mem}

/-- `ectool` as a program of port accesses and host services. -/
def ectoolOver (xfer : EcTransfer) (u r : Mem) (c : Setting) : Prog (Io.sum Host) EfiStatus :=
  ((uefiMain c).interpret overProtocol).interpret (protocolWith xfer u r).left

/-- `ectool` on the machine without ports. -/
def ectoolOn (ec : Ec σ) (host : Handler Host T) (c : Setting) (m : Machine σ) (p : T) :
    Except Halt EfiStatus × (Machine σ × T) :=
  ((uefiMain c).interpret overProtocol).exec ((machine ec).sum host) (m, p)

/-- The tool does on the ports what it does on the machine behind them. -/
theorem ectool_onMachine (hs : Serves ec h xfer link map) (u r : Mem) (c : Setting) (host : Handler Host T)
    {m : Machine σ} {d : D} (hshow : Shows link map m d) (p : T) :
    Prog.Matches (h.sum host) (fun s t => Shows link map s.1 t.1 ∧ s.2 = t.2) (ectoolOver xfer u r c) (d, p)
      (ectoolOn ec host c m p) := by
  have hreal := (hs.realizes u r).left host
  refine hreal.exec stack_ans (interpret_limited (uefiMain_calls c) |>.mono (fun e he => ?_) fun _ _ => trivial)
    ⟨hshow, rfl⟩
  obtain ⟨op | op, x⟩ := e
  · exact he.plain
  · trivial

end Machine

/-! ### Both machines -/

/-- The two machines have the same EC, packet window and memory map. -/
structure SameMachine {σ : Type} (d : Emi σ) (b : Bus σ) : Prop where
  ec : d.ec = b.ec
  window : d.window 0 = b.window ecLpcAddrHostPacket
  map : SameMap d b

/-- Both runs end with the same status, or stop for the same reason; if they end, the host is in the same
state and the machines still agree. -/
def SameOutcome {σ T : Type} (x : Except Halt EfiStatus × (Emi σ × T))
    (y : Except Halt EfiStatus × (Bus σ × T)) : Prop :=
  match x, y with
  | (.ok status, (d, p)), (.ok status', (b, q)) => status = status' ∧ p = q ∧ SameMachine d b
  | (.error e, _), (.error e', _) => e = e'
  | _, _ => False

/-- The abstract machine of a Microchip device. -/
def machineOf {σ : Type} (d : Emi σ) : Machine σ := ⟨d.ec, d.window 0, Mec.memmap d⟩

theorem shows_machineOf {σ : Type} (d : Emi σ) : Shows Mec.link Mec.memmap (machineOf d) d :=
  ⟨rfl, rfl, fun _ _ => rfl⟩

theorem shows_of_sameMachine {σ : Type} {d : Emi σ} {b : Bus σ} (h : SameMachine d b) :
    Shows Azalea.link Azalea.memmap (machineOf d) b :=
  ⟨h.ec.symm, h.window.symm, fun i hi => (h.map i hi).symm⟩

theorem sameMachine_of_shows {σ : Type} {m : Machine σ} {d : Emi σ} {b : Bus σ}
    (hd : Shows Mec.link Mec.memmap m d) (hb : Shows Azalea.link Azalea.memmap m b) : SameMachine d b where
  ec := hd.ec.trans hb.ec.symm
  window := hd.window.trans hb.window.symm
  map i hi := (hd.map i hi).trans (hb.map i hi).symm

/-- **`ectool` does the same on both kinds of machine**, whatever the EC answers and whatever the host
does. -/
theorem ectool_portable {σ T : Type} (ec : Ec σ) (host : Handler Host T) (c : Setting) (u r u' r' : Mem)
    {d : Emi σ} {b : Bus σ} (hsame : SameMachine d b) (p : T) :
    SameOutcome ((ectoolOver Mec.ecTransfer u r c).exec ((emi ec).sum host) (d, p))
      ((ectoolOver Azalea.ecTransfer u' r' c).exec ((npcx ec).sum host) (b, p)) := by
  have hmec := ectool_onMachine (Mec.serves ec) u r c host (shows_machineOf d) p
  have hnpcx := ectool_onMachine (Azalea.serves ec) u' r' c host (shows_of_sameMachine hsame) p
  generalize ectoolOn ec host c (machineOf d) p = o at hmec hnpcx
  obtain ⟨e | status, m, q⟩ := o
  · obtain ⟨s, hs⟩ := hmec
    obtain ⟨t, ht⟩ := hnpcx
    rw [hs, ht, SameOutcome]
  · obtain ⟨_, ⟨d', q'⟩, hs, rfl, hd, rfl⟩ := hmec
    obtain ⟨_, ⟨b', q''⟩, ht, rfl, hb, rfl⟩ := hnpcx
    rw [hs, ht]
    exact ⟨rfl, rfl, sameMachine_of_shows hd hb⟩

/-- A host whose shell passes these arguments. -/
def sampleHost (argv : List String) : Handler Host Unit
  | .inl op, s => .ok (sampleServices (fun _ => ⟨0, []⟩) op.1, s)
  | .inr .shellInitialize, s => .ok (efiSuccess, s)
  | .inr .handleProtocol, s => .ok (some argv, s)
  | .inr .locateProtocol, s => .ok (efiSuccess, s)
  | .inr (.print _), s => .ok ((), s)

theorem sameMachine_letter : SameMachine letterDevice letterPorts where
  ec := rfl
  window := by
    funext i
    have hi := i.isLt
    simp only [Bus.window, letterDevice, letterPorts, letterAt, ecLpcAddrHostPacket]
    rw [if_neg (by omega), if_neg (by omega)]
  map := sameMap_letter

/-- The console of an EC that has no packets to give; both runs end. -/
theorem ectool_portable_letter :
    SameOutcome ((ectoolOver Mec.ecTransfer (fun _ => 0) (fun _ => 0) ⟨1, fun _ => 0, true⟩).exec
        ((emi idleEc).sum (sampleHost ["ectool", "console"])) (letterDevice, ()))
      ((ectoolOver Azalea.ecTransfer (fun _ => 1) (fun _ => 1) ⟨1, fun _ => 0, true⟩).exec
        ((npcx idleEc).sum (sampleHost ["ectool", "console"])) (letterPorts, ())) ∧
    ((ectoolOver Mec.ecTransfer (fun _ => 0) (fun _ => 0) ⟨1, fun _ => 0, true⟩).exec
        ((emi idleEc).sum (sampleHost ["ectool", "console"])) (letterDevice, ())).1 = .ok efiDeviceError :=
  ⟨ectool_portable idleEc (sampleHost ["ectool", "console"]) ⟨1, fun _ => 0, true⟩ (fun _ => 0) (fun _ => 0)
    (fun _ => 1) (fun _ => 1) sameMachine_letter (), rfl⟩

end FrameworkHacks.ECTool
