import FrameworkHacks.ECTool.Reading
import FrameworkHacks.ECTool.Stack
import FrameworkHacks.Transport.AnyPorts
import FrameworkHacks.Transport.Firmware

/-!
# The tool on any hardware

What can be said of `ectool` without knowing anything of the machine it runs on.

* Over either library, whatever the ports answer, a run of the tool is one of the tool calling the protocol, in
  which every call returned what its callers rely on, in terms of what the ports returned during it
  (`Honoured`); and that is one of the tool calling its services, in which every reply is `Proper`. The tool stops
  without a result only where it would have done so by itself (`ectool_anyPorts`).
* The EC is not called before the shell, the arguments and the protocol are there, and then only with the
  commands of the subcommand that was asked for (`uefiMain_entitled`).
-/

namespace FrameworkHacks.ECTool

open Effects Transport

/-! ### Replies of the hardware libraries -/

/-- A call of the protocol that kept its contract during these port accesses. -/
def HonouredHere : Event (CrosEc.sum Host) → Trace (Io.sum Host) → Prop
  | ⟨.inl op, x⟩, t => ∃ s, t = s.map Event.inl ∧ Honoured ⟨op, x⟩ s
  | ⟨.inr _, _⟩, _ => True

/-- What the tool sees of the contract: a reply within it, in which a negative value is one the libraries
return, or as many bytes as were asked for. -/
def Proper : Event App → Prop
  | ⟨.inl (.sendCommand c), r⟩ => InContract ⟨.sendCommand c, r⟩ ∧ (r.rv < 0 → Refusal r.rv)
  | ⟨.inl (.readMemory _ length), m⟩ =>
    ∃ data : List UInt8, data.length = length ∧ m = Mem.overlay (fun _ => 0) data
  | _ => True

theorem Refusal.bounds {rv : Int} (h : Refusal rv) : -1255 ≤ rv ∧ rv < 0 := by
  obtain ⟨s, hs, rfl⟩ | ⟨i, hi, rfl⟩ := h
  · simp only [ownErrors, List.mem_cons, List.not_mem_nil, or_false] at hs
    rcases hs with rfl | rfl | rfl | rfl | rfl | rfl <;> decide
  · have hlt := i.toNat_lt
    simp only [eecresult]
    omega

/-- If the protocol keeps its contract, the program ends with `Q`. -/
abbrev EndsHonoured {α : Type} (Q : α → Prop) (p : Prog CrosEc α) : Prop :=
  Prog.Holds (fun _ => False) (fun e => ∃ t, Honoured e t) (fun _ => True) Q p

theorem proper_callSendCommand {c : HostCommand} (hin : c.insize ≤ gEcMaxResponse) :
    EndsHonoured (fun reply => Proper ⟨.inl (.sendCommand c), reply⟩) (callSendCommand c) := by
  have hin' : c.insize ≤ 248 := hin
  unfold callSendCommand
  refine Prog.Holds.perform_bind ?_
  rintro ⟨rv, indata⟩
  refine ⟨trivial, ?_⟩
  rintro ⟨t, ⟨hrv, -⟩ | ⟨data, -, hle, hres⟩⟩
  · simp only at hrv
    obtain ⟨hlo, hneg⟩ := Refusal.bounds hrv
    have hint : (Int32.ofInt rv).toInt = rv := Int32.toInt_ofInt_of_le (by omega) (by omega)
    have hnone : rv.toNat = 0 := Int.toNat_of_nonpos (by omega)
    refine ⟨Or.inl ⟨?_, ?_⟩, fun _ => ?_⟩
    · rwa [hint]
    · rw [hnone]
      rfl
    · rwa [hint]
  · rw [toNat_ofNat_of_lt (by omega)] at hle
    obtain ⟨rfl, rfl⟩ := Prod.mk.inj hres
    have hint : (Int32.ofInt (data.length : Int)).toInt = data.length :=
      Int32.toInt_ofInt_of_le (by omega) (by omega)
    refine ⟨Or.inr ⟨?_, ?_⟩, fun hneg => ?_⟩
    · simp only [Mem.toList_length, Int.toNat_natCast, hint]
    · simpa using hle
    · simp only [hint] at hneg
      omega

theorem proper_callReadMemory {offset length : Nat}
    (h : 0 < length ∧ offset + length ≤ ecMemmapSize ∧ offset % 4 = 0) :
    EndsHonoured (fun m => Proper ⟨.inl (.readMemory offset length), m⟩) (callReadMemory offset length) := by
  have hle : offset + length ≤ 255 := h.2.1
  unfold callReadMemory
  refine Prog.Holds.perform_bind ?_
  rintro ⟨rv, buffer⟩
  refine ⟨trivial, ?_⟩
  rintro ⟨t, hlength, hres⟩
  rw [toNat_ofNat_of_lt (by omega)] at hlength
  obtain ⟨-, rfl⟩ := Prod.mk.inj hres
  exact ⟨fetched t, hlength, rfl⟩

theorem proper_service {cmds : List Nat} (op : App.Op) (h : AppCalls cmds op) :
    Prog.Along (fun _ => False) (fun e => ∃ t, HonouredHere e t) (fun _ _ => True) (fun x _ => Proper ⟨op, x⟩)
      (overProtocol op) [] := by
  have hlift {α : Type} {Q : α → Prop} {p : Prog CrosEc α} (hp : EndsHonoured Q p) :
      Prog.Along (fun _ => False) (fun e => ∃ t, HonouredHere e t) (fun _ _ => True) (fun x _ => Q x)
        (p.inl : Prog (CrosEc.sum Host) α) [] :=
    Prog.Holds.after (P := fun _ => True)
      (Prog.Holds.inl hp (fun _ _ _ => trivial) fun _ _ ⟨_, s, _, hs⟩ => ⟨s, hs⟩) []
  cases op with
  | inr op => exact fun x => ⟨trivial, fun _ => trivial⟩
  | inl op =>
    cases op with
    | sendCommand c => exact hlift (proper_callSendCommand h.2.2.2)
    | readMemory offset length => exact hlift (proper_callReadMemory h)
    | _ => exact fun x => ⟨trivial, fun _ => trivial⟩

variable {xfer : EcTransfer}

theorem honoured_protocol (hx : Sound xfer) (u r : Mem) (op : (CrosEc.sum Host).Op) (h : LimitedCalls op) :
    Prog.Along (fun _ => False) (fun _ => True) (fun _ _ => True) (fun x t => HonouredHere ⟨op, x⟩ t)
      ((protocolWith xfer u r).left op) [] := by
  cases op with
  | inl op => exact (yields_protocol hx u r op h).inl
  | inr op => exact fun x => ⟨trivial, fun _ => trivial⟩

/-- The run on the ports is a run of the tool that calls the protocol, with its contract kept, and that is a run
of the tool that calls its services, with proper replies. -/
def RunsOnPorts (xfer : EcTransfer) (u r : Mem) (c : Setting) (t : Trace (Io.sum Host)) (o : Outcome EfiStatus) :
    Prop :=
  ∃ v w, RunsAs (protocolWith xfer u r).left HonouredHere ((uefiMain c).interpret overProtocol) v t o ∧
    RunsAs overProtocol (fun e _ => Proper e) (uefiMain c) w v o

theorem run_ectoolOver (hx : Sound xfer) (u r : Mem) (c : Setting) {t : Trace (Io.sum Host)}
    {o : Outcome EfiStatus} (h : Run (ectoolOver xfer u r c) t o) : RunsOnPorts xfer u r c t o := by
  obtain ⟨v, hports⟩ := run_of_interpret stack_ans (interpret_limited (uefiMain_calls c))
    (honoured_protocol hx u r) (fun _ _ => trivial) h
  have hhonoured := hports.forall (Q := fun e => ∃ t, HonouredHere e t) fun e t he => ⟨t, he⟩
  obtain ⟨w, htool⟩ := run_of_interpret (K := fun e _ => Proper e) app_ans (uefiMain_calls c) proper_service
    hhonoured (hports.run stack_ans)
  exact ⟨v, w, hports, htool⟩

/-- **Over either library, `ectool` on any hardware is `ectool` with an EC in the contract.** -/
theorem ectool_anyPorts (u r : Mem) (c : Setting) :
    (∀ t o, Run (ectoolOver Mec.ecTransfer u r c) t o → RunsOnPorts Mec.ecTransfer u r c t o) ∧
      ∀ t o, Run (ectoolOver Azalea.ecTransfer u r c) t o → RunsOnPorts Azalea.ecTransfer u r c t o :=
  ⟨fun _ _ h => run_ectoolOver Mec.sound u r c h, fun _ _ h => run_ectoolOver Azalea.sound u r c h⟩

/-- Firmware that answers `GET_BUILD_INFO` with two letters, and everything else with nothing. -/
def versionFirmware : Firmware Unit := fun s q =>
  if q.command = ecCmdGetBuildInfo then (Response.of 0 [118, 49] (show 2 ≤ 248 by decide), s)
  else (Response.of 0 [] (show 0 ≤ 248 by decide), s)

def versionDevice : Emi (Controller Unit) := ⟨⟨⟨(), 0, 0, none⟩, fun _ => 0, []⟩, 0⟩

/-- `ectool version`: four host commands. -/
theorem run_version : ∃ t, Run (ectoolOver Mec.ecTransfer (fun _ => 0) (fun _ => 0) ⟨0, fun _ => 0, true⟩) t
    (.done efiSuccess) :=
  Prog.exec_run (h := (emi (firmwareEc versionFirmware fun _ => 0)).sum (sampleHost ["ectool", "version"]))
    (d := (versionDevice, ())) rfl

/-- A memory map with the id of an EC, and no power. -/
def idPorts : Bus Unit := ⟨(), fun i => if i = 0xE20 then 69 else if i = 0xE21 then 67 else 0, []⟩

/-- `ectool reflash` without power: four reads of the memory map. -/
theorem run_notReady : ∃ t, Run (ectoolOver Azalea.ecTransfer (fun _ => 0) (fun _ => 0) ⟨0, fun _ => 0, true⟩) t
    (.done efiNotReady) :=
  Prog.exec_run (h := (npcx idleEc).sum (sampleHost ["ectool", "reflash", "ec.bin"])) (d := (idPorts, ())) rfl

theorem ectool_anyPorts_answered :
    (∃ t, Run (ectoolOver Mec.ecTransfer (fun _ => 0) (fun _ => 0) ⟨0, fun _ => 0, true⟩) t (.done efiSuccess) ∧
      RunsOnPorts Mec.ecTransfer (fun _ => 0) (fun _ => 0) ⟨0, fun _ => 0, true⟩ t (.done efiSuccess)) ∧
    ∃ t, Run (ectoolOver Azalea.ecTransfer (fun _ => 0) (fun _ => 0) ⟨0, fun _ => 0, true⟩) t (.done efiNotReady) ∧
      RunsOnPorts Azalea.ecTransfer (fun _ => 0) (fun _ => 0) ⟨0, fun _ => 0, true⟩ t (.done efiNotReady) := by
  obtain ⟨t, ht⟩ := run_version
  obtain ⟨t', ht'⟩ := run_notReady
  have hany := ectool_anyPorts (fun _ => 0) (fun _ => 0) ⟨0, fun _ => 0, true⟩
  exact ⟨⟨t, ht, hany.1 t _ ht⟩, t', ht', hany.2 t' _ ht'⟩

/-! ### What the tool may ask of the EC -/

/-- The host commands of each subcommand. -/
def subcommands : List (String × List Nat) :=
  [("version", versionCommands), ("reboot", rebootCommands), ("flashread", flashreadCommands),
   ("reflash", reflashCommands), ("console", consoleCommands)]

/-- `EC_CMD_REBOOT_EC` is sent with the words after `reboot`. -/
def RebootsAsAsked (argv : List String) (op : ServiceOp) : Prop :=
  ∀ c, op = .sendCommand c → c.command = ecCmdRebootEc → c = ⟨ecCmdRebootEc, 0, rebootParams (argv.drop 1), 0⟩

/-- The arguments of the shell ask for this. -/
def Permitted (argv : List String) : App.Op → Prop
  | .inl op => (∃ cmds, (argv.getD 1 "", cmds) ∈ subcommands ∧ Calls cmds op) ∧ RebootsAsAsked argv op
  | .inr _ => True

/-- For a service, the shell has started, has passed arguments that ask for it, and the protocol has been
found. -/
def Entitled (pre : Trace App) : App.Op → Prop
  | .inl op => ∃ status argv status' rest,
      pre = ⟨.inr .shellInitialize, status⟩ :: ⟨.inr .handleProtocol, some argv⟩ ::
        ⟨.inr .locateProtocol, status'⟩ :: rest ∧
      efiError status = false ∧ efiError status' = false ∧ 2 ≤ argv.length ∧ Permitted argv (.inl op)
  | .inr _ => True

theorem permitted_of_calls {cmds cmds' : List Nat} {argv : List String} {α : Type} {p : Prog App α}
    (hp : AppKeepsTo cmds p) (hmem : (argv.getD 1 "", cmds') ∈ subcommands) (hsub : ∀ c ∈ cmds, c ∈ cmds')
    (hreboot : ecCmdRebootEc ∉ cmds) :
    Prog.Holds (fun _ => True) (fun _ => True) (fun e => Permitted argv e.op) (fun _ => True) p := by
  refine Prog.Holds.mono hp (fun e he => ?_) fun _ _ => trivial
  obtain ⟨op | op, x⟩ := e
  · refine ⟨⟨cmds', hmem, AppCalls.mono hsub he⟩, fun c hc hcommand => ?_⟩
    cases hc
    rw [← hcommand] at hreboot
    exact absurd he.1 hreboot
  · trivial

theorem cmdReboot_permitted {argv : List String} (hmem : (argv.getD 1 "", rebootCommands) ∈ subcommands) :
    Prog.Holds (fun _ => True) (fun _ => True) (fun e => Permitted argv e.op) (fun _ => True)
      (cmdReboot (argv.drop 1)) := by
  unfold cmdReboot
  refine Prog.Holds.bind (Q := fun _ => True) ?_ fun r _ => ?_
  · refine fun x => ⟨⟨⟨rebootCommands, hmem, ?_⟩, ?_⟩, fun _ => trivial⟩
    · exact ⟨List.mem_singleton_self _, Nat.zero_lt_succ _, by simp [rebootParams, gEcMaxRequest_eq], Nat.zero_le _⟩
    · intro c hc _
      cases hc
      rfl
  · split
    · have hcalls : AppKeepsTo [] (printEcResponse r.rv) := printEcResponse_calls r.rv
      exact (permitted_of_calls hcalls hmem (by simp) (by simp)).bind fun _ _ => trivial
    · trivial

theorem handler_permitted (c : Setting) {argv : List String} {spec : String × CommandHandler}
    (hspec : spec ∈ commands c) (hname : argv.getD 1 "" = spec.1) :
    Prog.Holds (fun _ => True) (fun _ => True) (fun e => Permitted argv e.op) (fun _ => True)
      (spec.2 (argv.drop 1)) := by
  have hmem {name : String} {cmds : List Nat} (h : (name, cmds) ∈ subcommands) (hargv : argv.getD 1 "" = name) :
      (argv.getD 1 "", cmds) ∈ subcommands := hargv ▸ h
  simp only [commands, List.mem_cons, List.not_mem_nil, or_false] at hspec
  rcases hspec with rfl | rfl | rfl | rfl | rfl
  · exact permitted_of_calls (KeepsTo.app cmdVersion_calls)
      (hmem (by decide : ("version", versionCommands) ∈ subcommands) hname) (fun _ h => h) (by decide)
  · exact cmdReboot_permitted (hmem (by decide : ("reboot", rebootCommands) ∈ subcommands) hname)
  · exact permitted_of_calls (KeepsTo.app (cmdFlashread_calls _))
      (hmem (by decide : ("flashread", flashreadCommands) ∈ subcommands) hname) (fun _ h => h) (by decide)
  · exact permitted_of_calls (KeepsTo.app (cmdReflash_calls _ _ _))
      (hmem (by decide : ("reflash", reflashCommands) ∈ subcommands) hname) (fun _ h => h) (by decide)
  · exact permitted_of_calls (cmdConsole_calls _ _)
      (hmem (by decide : ("console", consoleCommands) ∈ subcommands) hname) (fun _ h => h) (by decide)

theorem uefiMain_entitled (c : Setting) :
    Prog.Along (fun _ => True) (fun _ => True) (fun pre e => Entitled pre e.op) (fun _ _ => True) (uefiMain c) [] := by
  unfold uefiMain
  refine Prog.Along.perform_bind fun status => ⟨trivial, fun _ => ?_⟩
  split
  · trivial
  rename_i hstatus
  unfold getArg
  rw [bind_assoc]
  refine Prog.Along.perform_bind fun params => ⟨trivial, fun _ => ?_⟩
  simp only [pure_bind]
  split
  · trivial
  rename_i hargc
  cases params with
  | none => exact absurd (by decide) hargc
  | some argv =>
    refine Prog.Along.perform_bind fun status' => ⟨trivial, fun _ => ?_⟩
    split
    · trivial
    rename_i hstatus'
    simp only [Option.getD_some] at hargc ⊢
    split
    · rename_i spec hfind
      have hname : argv.getD 1 "" = spec.1 := by simpa using List.find?_some hfind
      refine (Prog.Holds.along (handler_permitted c (List.mem_of_find?_eq_some hfind) hname) _ ?_).post
        fun _ _ _ => trivial
      rintro w ⟨op | op, x⟩ - he
      · exact ⟨status, argv, status', w, rfl, by simpa using hstatus, by simpa using hstatus', by omega, he⟩
      · trivial
    · trivial

/-- The services over the ports. -/
abbrev overPorts (xfer : EcTransfer) (u r : Mem) : Impl App (Io.sum Host) := fun op =>
  (overProtocol op).interpret (protocolWith xfer u r).left

/-- **No port is touched but for a service that the tool is entitled to**: whatever the ports and the host
answer, each access comes after a start, arguments and a protocol that were all there, and is part of a host
command or a read that the subcommand asked for has. -/
theorem ectool_entitled (u r : Mem) (c : Setting) {t₁ t₂ : Trace (Io.sum Host)}
    {io : IoOp} {x : io.Ans} {o : Outcome EfiStatus}
    (h : Run (ectoolOver xfer u r c) (t₁ ++ ⟨.inl io, x⟩ :: t₂) o) :
    ∃ pre op v w, t₁ = v ++ w ∧ Implements (overPorts xfer u r) pre v ∧ Entitled pre (.inl op) ∧
      Run (overPorts xfer u r (.inl op)) (w ++ [⟨.inl io, x⟩]) .running := by
  rw [ectoolOver, Prog.interpret_interpret] at h
  obtain ⟨pre, v, w, op, rfl, himpl, hrun, hlast⟩ := run_interpret_at h
  cases op with
  | inl op =>
    obtain ⟨y⟩ := services_ans op
    have hentitled := ((uefiMain_entitled c).run (hrun y) fun _ _ => trivial).1 pre _ [] rfl
    exact ⟨pre, op, v, w, rfl, himpl, hentitled, hlast⟩
  | inr op =>
    have hnot : Prog.Holds (fun _ => True) (fun _ => True) (fun e : Event (Io.sum Host) => e.op.isRight = true)
        (fun _ => True) (overPorts xfer u r (.inr op)) := fun x => ⟨rfl, fun _ => trivial⟩
    have hright := hnot.events hlast ⟨.inl io, x⟩ (by simp)
    cases hright

/-- `ectool version` up to its first wait. -/
def startedEvents : Trace (Io.sum Host) :=
  [⟨.inr (.inr .shellInitialize), efiSuccess⟩, ⟨.inr (.inr .handleProtocol), some ["ectool", "version"]⟩,
    ⟨.inr (.inr .locateProtocol), efiSuccess⟩, ⟨.inl (.stall 5), ()⟩]

/-- The first read of the status register. -/
theorem ectool_entitled_started :
    ∃ pre op v w, startedEvents = v ++ w ∧
      Implements (overPorts Mec.ecTransfer (fun _ => 0) (fun _ => 0)) pre v ∧ Entitled pre (.inl op) ∧
      Run (overPorts Mec.ecTransfer (fun _ => 0) (fun _ => 0) (.inl op))
        (w ++ [⟨.inl (.ioRead8 ecLpcAddrHostCmd), (0 : UInt8)⟩]) .running :=
  @ectool_entitled Mec.ecTransfer (fun _ => 0) (fun _ => 0) ⟨0, fun _ => 0, true⟩ startedEvents []
    (.ioRead8 ecLpcAddrHostCmd) (0 : UInt8) .running (.call (.call (.call (.call (.call (.running _))))))

end FrameworkHacks.ECTool
