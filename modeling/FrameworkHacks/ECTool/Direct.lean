import FrameworkHacks.ECTool.Stack
import FrameworkHacks.Transport.Firmware

/-!
# The tool and the firmware

`direct` answers the host commands of the tool with what the firmware of the EC answers, and there is nothing
between the two: no packets, no ports, no waits. Over either library, `ectool` on an EC that is prompt is the
tool on `direct` (`ectool_direct`).
-/

namespace FrameworkHacks.ECTool

open Effects Transport

variable {σ T : Type}

/-- What a caller of `SendCommand` is given for a response. -/
def replyTo (a : Response) (insize : Nat) : Reply :=
  if a.result ≠ 0 then ⟨-eecresult - a.result.toNat, []⟩
  else if insize < a.payload.length then ⟨-EcStatus.responseTooBig.code, []⟩
  else ⟨a.payload.length, a.payload⟩

/-- The host, beside the firmware. -/
def hostOf (host : Handler Host T) : Handler Host (σ × T) := fun op s =>
  (host op s.2).map fun r => (r.1, s.1, r.2)

def direct (serve : Firmware σ) (map : Mem) (host : Handler Host T) : Handler App (σ × T)
  | .inl (.sendCommand c), (s, t) =>
    let (a, s) := serve s ⟨c.command, c.version, c.outdata⟩
    .ok (replyTo a c.insize, s, t)
  | .inl (.readMemory offset length), s => .ok (Mem.copy (fun _ => 0) 0 (map.drop offset) length, s)
  | .inl (.shellOpenFileByName filename), s => hostOf host (.inl ⟨.shellOpenFileByName filename, Eq.refl true⟩) s
  | .inl .shellGetFileInfo, s => hostOf host (.inl ⟨.shellGetFileInfo, Eq.refl true⟩) s
  | .inl (.shellReadFile size), s => hostOf host (.inl ⟨.shellReadFile size, Eq.refl true⟩) s
  | .inl (.shellWriteFile size buffer), s => hostOf host (.inl ⟨.shellWriteFile size buffer, Eq.refl true⟩) s
  | .inl .shellCloseFile, s => hostOf host (.inl ⟨.shellCloseFile, Eq.refl true⟩) s
  | .inl (.shellStrToUintn text), s => hostOf host (.inl ⟨.shellStrToUintn text, Eq.refl true⟩) s
  | .inl (.allocatePool block size), s => hostOf host (.inl ⟨.allocatePool block size, Eq.refl true⟩) s
  | .inl (.freePool block), s => hostOf host (.inl ⟨.freePool block, Eq.refl true⟩) s
  | .inl .readKeyStroke, s => hostOf host (.inl ⟨.readKeyStroke, Eq.refl true⟩) s
  | .inl (.stall usec), s => hostOf host (.inl ⟨.stall usec, Eq.refl true⟩) s
  | .inl .indeterminate, s => hostOf host (.inl ⟨.indeterminate, Eq.refl true⟩) s
  | .inr op, s => hostOf host (.inr op) s

/-- An answer, as the outcome of an operation from `s`. -/
def outcome {α S : Type} (s : S) : Except Halt (α × S) → Except Halt α × S
  | .ok y => (.ok y.1, y.2)
  | .error r => (.error r, s)

theorem exec_perform_outcome {E : Signature} {S : Type} (h : Handler E S) (op : E.Op) (s : S) :
    (Prog.perform op).exec h s = outcome s (h op s) := by
  simp only [Prog.perform, Prog.exec]
  cases h op s <;> rfl

/-! ### The machine -/

theorem replyTo_delivered {a : Response} {insize : Nat} {res : Int × Mem}
    (h : Transport.Delivered a insize (fun _ => 0) res) :
    (⟨(Int32.ofInt res.1).toInt, res.2.toList res.1.toNat⟩ : Reply) = replyTo a insize := by
  have hresult := a.result.toNat_lt
  unfold Transport.Delivered at h
  unfold replyTo
  by_cases hzero : a.result = 0
  · rw [if_neg (not_not.2 hzero)] at h ⊢
    by_cases hbig : insize < a.payload.length
    · rw [if_pos hbig] at h ⊢
      rw [h]
      rfl
    · have hfits := a.fits
      rw [gEcMaxResponse_eq] at hfits
      rw [if_neg hbig] at h ⊢
      rw [h, Int32.toInt_ofInt_of_le (by omega) (by omega), Int.toNat_natCast]
      have hdata : ∀ i < a.payload.length,
          Mem.copy (fun _ => 0) 0 (Mem.ofList a.payload) a.payload.length i = Mem.ofList a.payload i := by
        intro i hi
        have hcopy := @Mem.copy_in (fun _ => 0) (Mem.ofList a.payload) 0 _ _ hi
        rwa [Nat.zero_add] at hcopy
      rw [Mem.toList_congr hdata, Mem.toList_ofList]
  · rw [if_pos hzero] at h ⊢
    simp only [eecresult] at h ⊢
    rw [h, Int32.toInt_ofInt_of_le (by omega) (by omega)]
    have hneg : (-1000 - (a.result.toNat : Int)).toNat = 0 := by omega
    rw [hneg]
    rfl

theorem appCommands_small : ∀ command ∈ appCommands, command < 65536 := by decide

section Machine

variable {serve : Firmware σ} {schedule : Nat → UInt8}

theorem ends_callSendCommand (hprompt : Prompt schedule) {c : HostCommand} (hc : Calls appCommands (.sendCommand c))
    (m : Machine (Controller σ)) :
    Prog.Ends (machine (firmwareEc serve schedule)) (callSendCommand c) m fun r m' =>
      let a := serve (settle serve m.ec.view) ⟨c.command, c.version, c.outdata⟩
      r = replyTo a.1 c.insize ∧ settle serve m'.ec.view = a.2 ∧ m'.map = m.map := by
  obtain ⟨hmem, hversion, hout, hin⟩ := hc
  have hcommand := appCommands_small _ hmem
  rw [gEcMaxRequest_eq] at hout
  rw [gEcMaxResponse_eq] at hin
  have hcommand' := toNat_ofNat_of_lt (show c.command < 2 ^ 64 by omega)
  have hversion' := toNat_ofNat_of_lt (show c.version < 2 ^ 64 by omega)
  have hout' := toNat_ofNat_of_lt (show c.outdata.length < 2 ^ 64 by omega)
  have hin' := toNat_ofNat_of_lt (show c.insize < 2 ^ 64 by omega)
  obtain ⟨res, hres, hdelivered, hsettled⟩ := exchange_prompt serve hprompt (UInt64.ofNat c.command)
    (UInt64.ofNat c.version) (Mem.ofList c.outdata) (UInt64.ofNat c.outdata.length) (fun _ => 0)
    (UInt64.ofNat c.insize) m.link (by rw [hcommand']; exact hcommand) (by rw [hversion']; exact hversion)
    (by rw [hout', gEcMaxRequest_eq]; exact hout)
  rw [hcommand', hversion', hout', Mem.toList_ofList] at hdelivered hsettled
  rw [hin'] at hdelivered
  generalize he : exchange (firmwareEc serve schedule) (UInt64.ofNat c.command) (UInt64.ofNat c.version)
    (Mem.ofList c.outdata) (UInt64.ofNat c.outdata.length) (fun _ => 0) (UInt64.ofNat c.insize) m.link = e
    at hres hsettled
  have hop : machine (firmwareEc serve schedule) (.sendCommand (UInt64.ofNat c.command) (UInt64.ofNat c.version)
      (Mem.ofList c.outdata) (UInt64.ofNat c.outdata.length) (fun _ => 0) (UInt64.ofNat c.insize)) m =
        .ok (res, { m with ec := e.2.ec, window := e.2.window }) := by
    simp only [machine, he, hres]
  exact Prog.Ends.perform_bind hop (.pure ⟨replyTo_delivered hdelivered, hsettled, rfl⟩)

theorem ends_callReadMemory {offset length : Nat} (h : Calls appCommands (.readMemory offset length))
    (m : Machine (Controller σ)) :
    Prog.Ends (machine (firmwareEc serve schedule)) (callReadMemory offset length) m fun x m' =>
      x = Mem.copy (fun _ => 0) 0 (m.map.drop offset) length ∧ m' = m := by
  have hbound : offset + length ≤ 255 := h.2.1
  have hoffset := toNat_ofNat_of_lt (show offset < 2 ^ 64 by omega)
  have hlength := toNat_ofNat_of_lt (show length < 2 ^ 64 by omega)
  have hop : machine (firmwareEc serve schedule) (.readMemory (UInt64.ofNat offset) ⟨fun _ => 0, length⟩
      (UInt64.ofNat length)) m =
        .ok (((length : Int), ⟨Mem.copy (fun _ => 0) 0 (m.map.drop offset) length, length⟩), m) := by
    simp only [machine, hoffset, hlength, Nat.le_refl, if_true]
  exact Prog.Ends.perform_bind hop (.pure ⟨rfl, rfl⟩)

/-- What is under way on the machine is done, and the machine has this firmware, memory map and host. -/
def Underlies (serve : Firmware σ) (map : Mem) (s : σ × T) (m : Machine (Controller σ) × T) : Prop :=
  s.1 = settle serve m.1.ec.view ∧ m.1.map = map ∧ s.2 = m.2

theorem direct_realized (hprompt : Prompt schedule) (map : Mem) (host : Handler Host T) :
    Realizes (direct serve map host) ((machine (firmwareEc serve schedule)).sum host) overProtocol
      (Underlies serve map) (AppCalls appCommands) := by
  rintro op ⟨s, t⟩ ⟨m, t'⟩ hP ⟨hs, hmap, ht⟩
  simp only at hs hmap ht
  subst hs hmap ht
  -- an operation of the host
  have hlocal (op : Host.Op) : Prog.Matches ((machine (firmwareEc serve schedule)).sum host) (Underlies serve m.map)
      (Prog.perform (E := CrosEc.sum Host) (.inr op)) (m, t)
      (outcome (settle serve m.ec.view, t) (hostOf host op (settle serve m.ec.view, t))) := by
    simp only [Prog.perform, hostOf]
    cases hop : host op t with
    | error e => exact ⟨(m, t), by simp only [Prog.exec, Handler.sum, hop, Except.map]⟩
    | ok y => exact ⟨y.1, (m, y.2), by simp only [Prog.exec, Handler.sum, hop, Except.map], rfl, rfl, rfl, rfl⟩
  rw [exec_perform_outcome]
  cases op with
  | inr op => exact hlocal (.inr op)
  | inl op =>
    cases op with
    | sendCommand c =>
      refine (Prog.ends_inl (ends_callSendCommand hprompt hP m)).mono ?_
      rintro r ⟨m', t'⟩ ⟨⟨rfl, hsettled, hmap⟩, rfl⟩
      exact ⟨rfl, hsettled.symm, hmap, rfl⟩
    | readMemory offset length =>
      refine (Prog.ends_inl (ends_callReadMemory hP m)).mono ?_
      rintro x ⟨m', t'⟩ ⟨⟨rfl, rfl⟩, rfl⟩
      exact ⟨rfl, rfl, rfl, rfl⟩
    | shellOpenFileByName filename => exact hlocal (.inl ⟨.shellOpenFileByName filename, rfl⟩)
    | shellGetFileInfo => exact hlocal (.inl ⟨.shellGetFileInfo, rfl⟩)
    | shellReadFile size => exact hlocal (.inl ⟨.shellReadFile size, rfl⟩)
    | shellWriteFile size buffer => exact hlocal (.inl ⟨.shellWriteFile size buffer, rfl⟩)
    | shellCloseFile => exact hlocal (.inl ⟨.shellCloseFile, rfl⟩)
    | shellStrToUintn text => exact hlocal (.inl ⟨.shellStrToUintn text, rfl⟩)
    | allocatePool block size => exact hlocal (.inl ⟨.allocatePool block size, rfl⟩)
    | freePool block => exact hlocal (.inl ⟨.freePool block, rfl⟩)
    | readKeyStroke => exact hlocal (.inl ⟨.readKeyStroke, rfl⟩)
    | stall usec => exact hlocal (.inl ⟨.stall usec, rfl⟩)
    | indeterminate => exact hlocal (.inl ⟨.indeterminate, rfl⟩)

end Machine

/-! ### The ports -/

theorem ectoolOver_direct {D : Type} {serve : Firmware σ} {schedule : Nat → UInt8} (hprompt : Prompt schedule)
    {h : Handler Io D} {xfer : EcTransfer} {link : D → Link (Controller σ)} {map : D → Mem}
    (hs : Serves (firmwareEc serve schedule) h xfer link map) (u r : Mem) (c : Setting) (host : Handler Host T) (d : D)
    (t : T) :
    Prog.Matches (h.sum host) (fun s e => s.1 = settle serve (link e.1).ec.view ∧ s.2 = e.2)
      (ectoolOver xfer u r c) (d, t)
      ((uefiMain c).exec (direct serve (map d) host) (settle serve (link d).ec.view, t)) := by
  have hshow : Shows link map ⟨(link d).ec, (link d).window, map d⟩ d := ⟨rfl, rfl, fun _ _ => rfl⟩
  have hunder : Underlies serve (map d) (settle serve (link d).ec.view, t)
      ((⟨(link d).ec, (link d).window, map d⟩ : Machine (Controller σ)), t) := ⟨rfl, rfl, rfl⟩
  have hports := ectool_onMachine hs u r c host hshow t
  have hmachine := (direct_realized hprompt (map d) host).exec app_ans (uefiMain_calls c) hunder
  refine (hports.trans hmachine).mono ?_
  rintro s e ⟨m, ⟨hfirmware, -, hhost⟩, hshow', ht⟩
  exact ⟨by rw [hfirmware, Controller.view, ← hshow'.ec]; rfl, hhost.trans ht⟩

/-- **With an EC that is prompt, `ectool` over either library is the tool on the firmware of the EC.** -/
theorem ectool_direct (serve : Firmware σ) {schedule : Nat → UInt8} (hprompt : Prompt schedule) (u r : Mem)
    (c : Setting) (host : Handler Host T) (t : T) :
    (∀ d, Prog.Matches ((emi (firmwareEc serve schedule)).sum host)
      (fun s e => s.1 = settle serve e.1.ec.view ∧ s.2 = e.2) (ectoolOver Mec.ecTransfer u r c) (d, t)
      ((uefiMain c).exec (direct serve (Mec.memmap d) host) (settle serve d.ec.view, t))) ∧
    ∀ b, Prog.Matches ((npcx (firmwareEc serve schedule)).sum host)
      (fun s e => s.1 = settle serve e.1.ec.view ∧ s.2 = e.2) (ectoolOver Azalea.ecTransfer u r c) (b, t)
      ((uefiMain c).exec (direct serve (Azalea.memmap b) host) (settle serve b.ec.view, t)) :=
  ⟨fun d => ectoolOver_direct hprompt (Mec.serves _) u r c host d t,
    fun b => ectoolOver_direct hprompt (Azalea.serves _) u r c host b t⟩

/-- `ectool console` on an EC that counts its requests and is never busy. -/
theorem ectool_direct_idle :
    let serve : Firmware Nat := fun n _ => (Response.of 0 [UInt8.ofNat n] (show 1 ≤ 248 by decide), n + 1)
    let host := sampleHost ["ectool", "console"]
    let d : Emi (Controller Nat) := ⟨⟨⟨0, 0, 0, none⟩, fun _ => 0, []⟩, 0⟩
    Prog.Matches ((emi (firmwareEc serve fun _ => 0)).sum host) (fun s e => s.1 = settle serve e.1.ec.view ∧ s.2 = e.2)
      (ectoolOver Mec.ecTransfer (fun _ => 0) (fun _ => 0) ⟨9, fun _ => 0, true⟩) (d, ())
      ((uefiMain ⟨9, fun _ => 0, true⟩).exec (direct serve (Mec.memmap d) host) (settle serve d.ec.view, ())) := by
  intro serve host d
  exact (ectool_direct serve prompt_idle (fun _ => 0) (fun _ => 0) ⟨9, fun _ => 0, true⟩ host ()).1 d

end FrameworkHacks.ECTool
