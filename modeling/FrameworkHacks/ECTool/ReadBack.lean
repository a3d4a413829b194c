import FrameworkHacks.ECTool.Reflashing

/-!
# The flash, read back

On an EC with a flash `ectool flashread` gives the file the bytes of the flash (`ends_cmdFlashread`). A dump that
follows a reflash therefore holds the image where a region was selected, and elsewhere what was there before
(`ectool_readBack`).
-/

namespace FrameworkHacks.ECTool

open Effects Transport

variable {σ T : Type}

/-! ### The host -/

/-- The number and file services of a host. The file that the tool opens is written from its start, and what it
held beyond that stays; nothing else changes it. -/
def Saving (number : String → UInt64) (file : T → List UInt8) (t t' : T) : (op : Host.Op) → Host.Ans op → Prop
  | .inl ⟨.shellStrToUintn text, _⟩, v => v = number text ∧ file t' = file t
  | .inl ⟨.shellWriteFile size buffer, _⟩, status =>
    efiError status = false ∧ file t' = buffer.toList size.toNat ++ (file t).drop size.toNat
  | .inl ⟨.shellCloseFile, _⟩, status => efiError status = false ∧ file t' = file t
  | _, _ => file t' = file t

/-- A host that refuses the tool nothing and has a file for its dump. -/
def Saves (host : Handler Host T) (argv : List String) (number : String → UInt64) (file : T → List UInt8) : Prop :=
  ∀ op t, ∃ x t', host op t = .ok (x, t') ∧ Helpful argv op x ∧ Saving number file t t' op x

section Stages

variable {serve : Firmware σ} {memmap : Mem} {host : Handler Host T} {args argv : List String}
  {number : String → UInt64} {file : T → List UInt8} {flash : σ → Mem} {unlocked : σ → Prop} {ideal : Nat}
  {version : List UInt8} {s : σ} {t : T}

theorem Saves.cooperates (hhost : Saves host args number file) : Cooperates host args := fun op t =>
  let ⟨x, t', hop, hhelpful, _⟩ := hhost op t
  ⟨x, t', hop, hhelpful⟩

theorem Saves.startup (hhost : Saves host args number file) {held : List UInt8} (op : StartupOp) (t : T)
    (x : StartupOp.Ans op) (t' : T) (hop : host (.inr op) t = .ok (x, t')) (hheld : file t = held) :
    file t' = held := by
  obtain ⟨x', t₁, hop', -, hsaving⟩ := hhost (.inr op) t
  rw [hop, Except.ok.injEq, Prod.mk.injEq] at hop'
  obtain ⟨rfl, rfl⟩ := hop'
  exact Eq.trans hsaving hheld

theorem ends_saved (hhost : Saves host args number file) {op : ServiceOp} (hlocal : op.isLocal = true) {α : Type}
    {f : op.Ans → Prog Services α} {R : α → σ × T → Prop}
    (hf : ∀ x t', Helpful args (.inl ⟨op, hlocal⟩) x → Saving number file t t' (.inl ⟨op, hlocal⟩) x →
      Prog.Ends (services serve memmap host) (f x) (s, t') R) :
    Prog.Ends (services serve memmap host) (Prog.perform (E := Services) op >>= f) (s, t) R := by
  obtain ⟨x, t', hop, hhelpful, hsaving⟩ := hhost (.inl ⟨op, hlocal⟩) t
  exact ends_host hlocal hop (hf x t' hhelpful hsaving)

theorem succeeds_saved (hhost : Saves host args number file) {op : ServiceOp} (hlocal : op.isLocal = true) {ε α : Type}
    {f : op.Ans → Attempt Services ε α} {R : α → σ × T → Prop}
    (hf : ∀ x t', Helpful args (.inl ⟨op, hlocal⟩) x → Saving number file t t' (.inl ⟨op, hlocal⟩) x →
      Attempt.Succeeds (services serve memmap host) (f x) (s, t') R) :
    Attempt.Succeeds (services serve memmap host) (liftM (Prog.perform (E := Services) op) >>= f) (s, t) R := by
  rw [Attempt.Succeeds, Attempt.run_lift_bind]
  exact ends_saved hhost hlocal hf

/-! ### The dump -/

/-- The file, once the flash from `offset` on is written to it. -/
def dumped (flash : Mem) (offset size : UInt64) (held : List UInt8) : List UInt8 :=
  (flash.drop offset.toNat).toList size.toNat ++ held.drop size.toNat

theorem toInt32_inside {v : UInt64} (h : v.toNat < 2147483648) : toInt32 v = (v.toNat : Int) := by
  rw [toInt32_eq, Nat.mod_eq_of_lt (by omega), if_pos h]

theorem succeeds_flashreadPrepare (hhost : Saves host args number file) (hargs : 4 ≤ argv.length) :
    Attempt.Succeeds (services serve memmap host) (flashreadPrepare argv) (s, t) fun plan e =>
      plan.offset = number (argv.getD 1 "") ∧ plan.size = number (argv.getD 2 "") ∧ e.1 = s ∧ file e.2 = file t := by
  unfold flashreadPrepare
  refine Attempt.Succeeds.leaveIf_bind (Nat.not_lt.2 hargs) ?_
  refine succeeds_saved hhost rfl fun offset t₁ _ hoffset => ?_
  refine succeeds_saved hhost rfl fun size t₂ _ hsize => ?_
  refine succeeds_saved hhost rfl fun block t₃ hblock hkept₃ => ?_
  obtain ⟨hoffset, hkept₁⟩ := hoffset
  obtain ⟨hsize, hkept₂⟩ := hsize
  have hkept₃ : file t₃ = file t₂ := hkept₃
  cases block with
  | none => cases hblock
  | some flashBuffer =>
    refine succeeds_saved hhost rfl fun status t₄ hstatus hkept₄ => ?_
    have hkept₄ : file t₄ = file t₃ := hkept₄
    refine Attempt.Succeeds.leaveIf_bind (Bool.eq_false_iff.1 hstatus) (Attempt.succeeds_pure ⟨hoffset, hsize, rfl, ?_⟩)
    rw [hkept₄, hkept₃, hkept₂, hkept₁]

theorem succeeds_flashreadTransfer (hhost : Saves host args number file)
    (hflash : FlashFirmware serve flash unlocked ideal) {plan : FlashreadPlan}
    (hinside : plan.offset.toNat + plan.size.toNat ≤ imageSize.toNat) :
    Attempt.Succeeds (services serve memmap host) (flashreadTransfer plan) (s, t) fun exit e =>
      (∃ status, efiError status = false ∧ exit = .ecOut { unlocked := true, flashBuffer := true } 0 status) ∧
        flash e.1 = flash s ∧ file e.2 = dumped (flash s) plan.offset plan.size (file t) := by
  have hbound : plan.offset.toNat + plan.size.toNat ≤ 524288 := hinside
  unfold flashreadTransfer
  rw [toInt32_inside (by omega), toInt32_inside (by omega)]
  have hread := @ends_flashRead σ T (services serve memmap host) flash unlocked ideal s t
    (hflash.services hhost.cooperates) plan.offset.toNat plan.size.toNat 0 ⟨plan.flashBuffer, plan.size.toNat⟩ hinside
    (Nat.le_of_eq (Nat.zero_add _))
  refine (Attempt.succeeds_lift hread).bind ?_
  rintro _ ⟨s₁, _⟩ ⟨rfl, hspared, rfl⟩
  refine Attempt.Succeeds.leaveIf_bind (by decide) ?_
  refine succeeds_saved hhost rfl fun status₂ t₂ _ hwritten => ?_
  refine Attempt.Succeeds.leaveIf_bind (Bool.eq_false_iff.1 hwritten.1) ?_
  refine succeeds_saved hhost rfl fun status₃ t₃ _ hclosed => ?_
  refine Attempt.Succeeds.leaveIf_bind (Bool.eq_false_iff.1 hclosed.1) ?_
  refine Attempt.succeeds_pure ⟨⟨status₃, hclosed.1, rfl⟩, hspared.flash, ?_⟩
  rw [hclosed.2, hwritten.2, dumped]
  congr 1
  refine Mem.toList_congr fun i hi => ?_
  have hcopy := @Mem.copy_in plan.flashBuffer ((flash s).drop plan.offset.toNat) 0 _ _ hi
  rwa [Nat.zero_add] at hcopy

theorem ends_flashreadFinish (hhost : Saves host args number file)
    (hboard : BoardFirmware serve flash unlocked ideal version) {status : EfiStatus} :
    Prog.Ends (services serve memmap host)
      (flashreadFinish (.ecOut { unlocked := true, flashBuffer := true } 0 status)) (s, t) fun r e =>
        r = status ∧ flash e.1 = flash s ∧ file e.2 = file t := by
  unfold flashreadFinish flashreadOut
  refine ends_served ((hboard.reflashServices hhost.cooperates).notified s t flashAccessSpiDone)
    fun r s₁ hrv hnotified => ?_
  refine ends_saved hhost rfl fun _ t₁ _ hkept => ?_
  exact .pure ⟨rfl, hnotified.1, hkept⟩

/-- **`cmd_flashread` puts the flash into the file.** -/
theorem ends_cmdFlashread (hhost : Saves host args number file)
    (hboard : BoardFirmware serve flash unlocked ideal version) (hargs : 4 ≤ argv.length) {offset size : UInt64}
    (hoffset : number (argv.getD 1 "") = offset) (hsize : number (argv.getD 2 "") = size)
    (hinside : offset.toNat + size.toNat ≤ imageSize.toNat) :
    Prog.Ends (services serve memmap host) (cmdFlashread argv) (s, t) fun status e =>
      efiError status = false ∧ flash e.1 = flash s ∧ file e.2 = dumped (flash s) offset size (file t) := by
  have hread : Attempt.Succeeds (services serve memmap host) (flashread argv) (s, t) fun exit e =>
      (∃ status, efiError status = false ∧ exit = .ecOut { unlocked := true, flashBuffer := true } 0 status) ∧
        flash e.1 = flash s ∧ file e.2 = dumped (flash s) offset size (file t) := by
    unfold flashread
    refine (succeeds_flashreadPrepare hhost hargs).bind ?_
    rintro plan ⟨_, t₁⟩ ⟨hplanOffset, hplanSize, rfl, hkept⟩
    rw [hoffset] at hplanOffset
    rw [hsize] at hplanSize
    subst hplanOffset hplanSize
    rw [Attempt.Succeeds, Attempt.run_lift_bind]
    refine ends_served ((hboard.reflashServices hhost.cooperates).notified _ t₁ flashAccessSpi)
      fun r s₂ hrv hnotified => ?_
    refine Attempt.Succeeds.leaveIf_bind (Int.not_lt.2 hrv) ?_
    refine (succeeds_flashreadTransfer hhost hboard.toFlashFirmware hinside).mono fun _ e h => ?_
    rwa [hnotified.1, hkept] at h
  unfold cmdFlashread
  refine Prog.Ends.bind hread ?_
  rintro _ ⟨s₁, t₁⟩ ⟨_, rfl, ⟨status, hstatus, rfl⟩, hflash, hfile⟩
  refine (ends_flashreadFinish hhost hboard).mono ?_
  rintro _ e ⟨rfl, hflash', hfile'⟩
  exact ⟨hstatus, hflash'.trans hflash, hfile'.trans hfile⟩

/-! ### The tool -/

/-- A dump of this part of the flash is asked for. -/
structure Dumping (number : String → UInt64) (argv : List String) (offset size : UInt64) : Prop where
  subcommand : argv.getD 1 "" = "flashread"
  file : 5 ≤ argv.length
  offset_eq : number (argv.getD 2 "") = offset
  size_eq : number (argv.getD 3 "") = size
  inside : offset.toNat + size.toNat ≤ imageSize.toNat

theorem ends_uefiMain_flashread {c : Setting} {offset size : UInt64} (hhost : Saves host argv number file)
    (hboard : BoardFirmware serve flash unlocked ideal version) (h : Dumping number argv offset size) :
    Prog.Ends (direct serve memmap host) (uefiMain c) (s, t) fun status e =>
      efiError status = false ∧ flash e.1 = flash s ∧ file e.2 = dumped (flash s) offset size (file t) := by
  have hfind : (commands c).find? (fun spec => argv.getD 1 "" = spec.1) =
      some ("flashread", fun argv => (cmdFlashread argv).inl) := by
    rw [h.subcommand]
    rfl
  have hword (k : Nat) : (argv.drop 1).getD k "" = argv.getD (k + 1) "" := by
    rw [List.getD_eq_getElem?_getD, List.getD_eq_getElem?_getD, List.getElem?_drop, Nat.add_comm]
  have hlength := h.file
  refine ends_started hhost.cooperates (by omega) hfind (I := fun t' => file t' = file t) rfl
    (fun op t' x t'' _ => hhost.startup op t' x t'') fun t' hkept => ?_
  rw [← hkept]
  exact ends_services (ends_cmdFlashread hhost hboard (by rw [List.length_drop]; omega)
    ((congrArg number (hword 1)).trans h.offset_eq) ((congrArg number (hword 2)).trans h.size_eq) h.inside)

end Stages

section Ports

variable {serve : Firmware σ} {schedule : Nat → UInt8} {flash : σ → Mem} {unlocked : σ → Prop} {ideal : Nat}
  {version : List UInt8} {number : String → UInt64} {file : T → List UInt8}

theorem ectoolOver_dumps {D : Type} (hprompt : Prompt schedule) {h : Handler Io D} {xfer : EcTransfer}
    {link : D → Link (Controller σ)} {memmap : D → Mem} (hs : Serves (firmwareEc serve schedule) h xfer link memmap)
    (hboard : BoardFirmware serve flash unlocked ideal version) {host : Handler Host T} {argv : List String}
    (hhost : Saves host argv number file) {offset size : UInt64} (hdump : Dumping number argv offset size) (u r : Mem)
    (c : Setting) (d : D) (t : T) :
    Prog.Ends (h.sum host) (ectoolOver xfer u r c) (d, t) fun status e => efiError status = false ∧
      file e.2 = dumped (flash (settle serve (link d).ec.view)) offset size (file t) := by
  have hdirect : Prog.Ends (direct serve (memmap d) host) (uefiMain c) (settle serve (link d).ec.view, t) _ :=
    ends_uefiMain_flashread hhost hboard hdump
  obtain ⟨status, e, hexec, hstatus, -, hfile⟩ := hdirect
  have hports := ectoolOver_direct hprompt hs u r c host d t
  rw [hexec] at hports
  refine Prog.Ends.mono hports ?_
  rintro _ e' ⟨rfl, -, hhost'⟩
  exact ⟨hstatus, by rw [← hfile, hhost']⟩

theorem ectoolOver_readBack {D : Type} (hprompt : Prompt schedule) {h : Handler Io D} {xfer : EcTransfer}
    {link : D → Link (Controller σ)} {memmap : D → Mem} (hs : Serves (firmwareEc serve schedule) h xfer link memmap)
    (hboard : BoardFirmware serve flash unlocked ideal version) {host host' : Handler Host T} {argv argv' : List String}
    (hhost : Cooperates host argv) (hsub : argv.getD 1 "" = "reflash") (hhost' : Saves host' argv' number file)
    {offset size : UInt64} (hdump : Dumping number argv' offset size) (u r u' r' : Mem) (c c' : Setting)
    {map : FlashMap} (d : D) (t : T)
    (hd : Reflashable unlocked version (memmap d) c.fuel c.image (argv.drop 1) map (settle serve (link d).ec.view)) :
    Prog.Ends (h.sum host) (ectoolOver xfer u r c) (d, t) fun _ e =>
      Prog.Ends (h.sum host') (ectoolOver xfer u' r' c') e fun status e' => efiError status = false ∧ file e'.2 =
        dumped (flashed c.image map (setBits (regionMask (reflashArgs {} (argv.drop 2)) map))
          (flash (settle serve (link d).ec.view))) offset size (file e.2) := by
  refine (ectoolOver_reflashes hprompt hs hboard hhost hsub u r c d t hd).mono ?_
  rintro _ ⟨d', t'⟩ ⟨-, hflash⟩
  rw [← hflash]
  exact ectoolOver_dumps hprompt hs hboard hhost' hdump u' r' c' d' t'

/-- **What `ectool reflash` puts into the flash, `ectool flashread` reads back**, over either library. -/
theorem ectool_readBack (hprompt : Prompt schedule) (hboard : BoardFirmware serve flash unlocked ideal version)
    {host host' : Handler Host T} {argv argv' : List String} (hhost : Cooperates host argv)
    (hsub : argv.getD 1 "" = "reflash") (hhost' : Saves host' argv' number file) {offset size : UInt64}
    (hdump : Dumping number argv' offset size) (u r u' r' : Mem) (c c' : Setting) (map : FlashMap) (t : T) :
    (∀ d, Reflashable unlocked version (Mec.memmap d) c.fuel c.image (argv.drop 1) map (settle serve d.ec.view) →
      Prog.Ends ((emi (firmwareEc serve schedule)).sum host) (ectoolOver Mec.ecTransfer u r c) (d, t) fun _ e =>
        Prog.Ends ((emi (firmwareEc serve schedule)).sum host') (ectoolOver Mec.ecTransfer u' r' c') e fun status e' =>
          efiError status = false ∧ file e'.2 =
            dumped (flashed c.image map (setBits (regionMask (reflashArgs {} (argv.drop 2)) map))
              (flash (settle serve d.ec.view))) offset size (file e.2)) ∧
    ∀ b, Reflashable unlocked version (Azalea.memmap b) c.fuel c.image (argv.drop 1) map (settle serve b.ec.view) →
      Prog.Ends ((npcx (firmwareEc serve schedule)).sum host) (ectoolOver Azalea.ecTransfer u r c) (b, t) fun _ e =>
        Prog.Ends ((npcx (firmwareEc serve schedule)).sum host') (ectoolOver Azalea.ecTransfer u' r' c') e
          fun status e' => efiError status = false ∧ file e'.2 =
            dumped (flashed c.image map (setBits (regionMask (reflashArgs {} (argv.drop 2)) map))
              (flash (settle serve b.ec.view))) offset size (file e.2) :=
  ⟨fun d hd => ectoolOver_readBack hprompt (Mec.serves _) hboard hhost hsub hhost' hdump u r u' r' c c' d t hd,
    fun b hb => ectoolOver_readBack hprompt (Azalea.serves _) hboard hhost hsub hhost' hdump u r u' r' c c' b t hb⟩

end Ports

/-! ### A sample -/

/-- The numbers of the sample. -/
def decimal (text : String) : UInt64 := if text = "262144" then 262144 else if text = "4096" then 4096 else 0

/-- A host with a file. -/
def fileHost (argv : List String) : Handler Host (List UInt8)
  | .inl ⟨.shellWriteFile size buffer, _⟩, file =>
    .ok (efiSuccess, buffer.toList size.toNat ++ file.drop size.toNat)
  | .inl ⟨.shellStrToUintn text, _⟩, file => .ok (decimal text, file)
  | .inl op, file => .ok (sampleServices (fun _ => ⟨0, []⟩) op.1, file)
  | .inr op, file => (sampleHost argv (.inr op) ()).map fun r => (r.1, file)

theorem fileHost_saves (argv : List String) : Saves (fileHost argv) argv decimal id := by
  rintro (⟨op, hlocal⟩ | op) file
  · cases op with
    | sendCommand c => cases hlocal
    | readMemory offset length => cases hlocal
    | shellOpenFileByName filename => exact ⟨_, file, rfl, show efiError efiSuccess = false by decide, rfl⟩
    | shellReadFile size => exact ⟨_, file, rfl, ⟨show efiError efiSuccess = false by decide, rfl⟩, rfl⟩
    | shellWriteFile size buffer => exact ⟨_, _, rfl, trivial, show efiError efiSuccess = false by decide, rfl⟩
    | shellCloseFile => exact ⟨_, file, rfl, trivial, show efiError efiSuccess = false by decide, rfl⟩
    | shellStrToUintn text => exact ⟨_, file, rfl, trivial, rfl, rfl⟩
    | readKeyStroke => exact ⟨_, file, rfl, show efiError efiNotReady = true by decide, rfl⟩
    | shellGetFileInfo => exact ⟨_, file, rfl, rfl, rfl⟩
    | allocatePool block size => exact ⟨_, file, rfl, rfl, rfl⟩
    | freePool block => exact ⟨_, file, rfl, trivial, rfl⟩
    | stall usec => exact ⟨_, file, rfl, trivial, rfl⟩
    | indeterminate => exact ⟨_, file, rfl, trivial, rfl⟩
  · cases op with
    | shellInitialize => exact ⟨_, file, rfl, show efiError efiSuccess = false by decide, rfl⟩
    | handleProtocol => exact ⟨_, file, rfl, rfl, rfl⟩
    | locateProtocol => exact ⟨_, file, rfl, show efiError efiSuccess = false by decide, rfl⟩
    | print text => exact ⟨_, file, rfl, trivial, rfl⟩

theorem dumping_sector :
    Dumping decimal ["ectool", "flashread", "262144", "4096", "rw.bin"] 262144 4096 :=
  ⟨rfl, by decide, by decide, by decide, by decide⟩

/-- A new image for an hx30, and the first sector of its RW region. -/
theorem ectool_readBack_hx30 :
    Prog.Ends ((emi (firmwareEc (Chip.serve (ascii "hx30_v0")) fun _ => 0)).sum
        (fileHost ["ectool", "reflash", "ec.bin"]))
      (ectoolOver Mec.ecTransfer (fun _ => 0) (fun _ => 0) ⟨0x40001, sampleImage "hx30_v1", true⟩) (mainsHx30, [])
      fun _ e => Prog.Ends ((emi (firmwareEc (Chip.serve (ascii "hx30_v0")) fun _ => 0)).sum
          (fileHost ["ectool", "flashread", "262144", "4096", "rw.bin"]))
        (ectoolOver Mec.ecTransfer (fun _ => 0) (fun _ => 0) ⟨0, fun _ => 0, true⟩) e
        fun status e' => efiError status = false ∧ e'.2 =
          dumped (flashed (sampleImage "hx30_v1") ⟨"hx30", hxFlashRegions, flashDeviceRequiresUnlock⟩
            (setBits (regionMask (reflashArgs {} (["ectool", "reflash", "ec.bin"].drop 2))
              ⟨"hx30", hxFlashRegions, flashDeviceRequiresUnlock⟩)) fun _ => 0) 262144 4096 e.2 :=
  (ectool_readBack prompt_idle (Chip.board (by decide)) (fileHost_saves ["ectool", "reflash", "ec.bin"]).cooperates rfl
    (fileHost_saves ["ectool", "flashread", "262144", "4096", "rw.bin"]) dumping_sector (fun _ => 0) (fun _ => 0)
    (fun _ => 0) (fun _ => 0) ⟨0x40001, sampleImage "hx30_v1", true⟩ ⟨0, fun _ => 0, true⟩
    ⟨"hx30", hxFlashRegions, flashDeviceRequiresUnlock⟩ []).1 mainsHx30 mainsHx30_reflashable

end FrameworkHacks.ECTool
