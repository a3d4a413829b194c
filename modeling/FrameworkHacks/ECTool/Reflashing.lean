import FrameworkHacks.ECTool.FlashFirmware
import FrameworkHacks.Null.ECNull

/-!
# A reflash from end to end

On an EC with a flash (`BoardFirmware`), an image that is for its board and a host that goes along
(`Reflashable`, `Cooperates`), `ectool reflash` succeeds over either library: the selected regions hold the image,
and the rest of the flash is as it was (`ectool_reflashes`).
-/

namespace FrameworkHacks.ECTool

open Effects Transport
open Null (flashInfoResp)

variable {σ T : Type}

/-! ### What is needed -/

/-- The firmware of an EC that can be reflashed. It reports this version, and it is unlocked by
`FLASH_FIRMWARE_START`. -/
structure BoardFirmware (serve : Firmware σ) (flash : σ → Mem) (unlocked : σ → Prop) (ideal : Nat)
    (version : List UInt8) : Prop extends FlashFirmware serve flash unlocked ideal where
  getVersion : ∀ s, Accepts serve s ⟨ecCmdGetVersion, 0, []⟩ fun payload s' =>
    payload = version ∧ Spared flash unlocked s s'
  notified : ∀ s flags, Accepts serve s ⟨ecCmdFlashNotified, 0, [flags]⟩ fun payload s' =>
    payload = [] ∧ flash s' = flash s ∧ (flags = flashFirmwareStart → unlocked s')
  version_fits : version.length ≤ sizeofGetVersion

/-- What the machine and the arguments have to be like before the run. -/
structure Reflashable (unlocked : σ → Prop) (version : List UInt8) (memmap : Mem) (fuel : Nat) (image : Mem)
    (argv : List String) (map : FlashMap) (s : σ) : Prop where
  file : (reflashArgs {} (argv.drop 1)).filename.isSome = true
  board : ForBoard image version (reflashArgs {} (argv.drop 1)).force map
  ready : (reflashArgs {} (argv.drop 1)).force = 0 → Ready memmap
  open' : map.requiresUnlock = false → unlocked s
  fuel : 0x40000 < fuel

section Firmware

variable {serve : Firmware σ} {memmap : Mem} {host : Handler Host T} {argv : List String} {flash : σ → Mem}
  {unlocked : σ → Prop} {ideal : Nat} {version : List UInt8} {s : σ} {t : T}

theorem BoardFirmware.reports (hboard : BoardFirmware serve flash unlocked ideal version) (s : σ) (t : T) :
    ReportsVersion (services serve memmap host) version s t (Spared flash unlocked s) :=
  served_of_accepts (hboard.getVersion s) fun payload s' hQ => by rw [hQ.1]; exact hboard.version_fits

theorem BoardFirmware.reflashServices (hboard : BoardFirmware serve flash unlocked ideal version)
    (hhost : Cooperates host argv) : ReflashServices (services serve memmap host) argv flash unlocked ideal memmap where
  toFlashServices := hboard.toFlashFirmware.services hhost
  host := hostServes_services hhost
  maps := maps_services
  notified s t flags := (served_of_accepts (hboard.notified s flags) fun payload s' hQ => by simp [hQ.1]).mono
    fun _ s' hQ => hQ.2

theorem ends_cmdReflash {host : Handler Host T} {args : List String} (hhost : Cooperates host args)
    (hboard : BoardFirmware serve flash unlocked ideal version) {fuel : Nat} {image : Mem} {map : FlashMap}
    (h : Reflashable unlocked version memmap fuel image argv map s) :
    Prog.Ends (services serve memmap host) (cmdReflash fuel image argv) (s, t) fun status e =>
      status = efiSuccess ∧
        flash e.1 = flashed image map (setBits (regionMask (reflashArgs {} (argv.drop 1)) map)) (flash s) :=
  ends_reflash (hboard.reflashServices hhost) (hboard.reports s) h.file h.board h.ready h.open' h.fuel

/-! ### The tool -/

theorem ends_uefiMain {c : Setting} (hhost : Cooperates host argv) (hsub : argv.getD 1 "" = "reflash")
    (hboard : BoardFirmware serve flash unlocked ideal version) {map : FlashMap}
    (h : Reflashable unlocked version memmap c.fuel c.image (argv.drop 1) map s) :
    Prog.Ends (direct serve memmap host) (uefiMain c) (s, t) fun status e => status = efiSuccess ∧
      flash e.1 = flashed c.image map (setBits (regionMask (reflashArgs {} (argv.drop 2)) map)) (flash s) := by
  have hfind : (commands c).find? (fun spec => argv.getD 1 "" = spec.1) =
      some ("reflash", fun argv => (cmdReflash c.fuel c.image argv).inl) := by
    rw [hsub]
    rfl
  refine ends_started hhost (two_le_length hsub (by decide)) hfind (I := fun _ => True) trivial
    (fun _ _ _ _ _ _ => id) fun t' _ => ends_services ?_
  have hends := ends_cmdReflash (t := t') hhost hboard h
  rwa [List.drop_drop] at hends

end Firmware

section Ports

variable {serve : Firmware σ} {schedule : Nat → UInt8} {flash : σ → Mem} {unlocked : σ → Prop} {ideal : Nat}
  {version : List UInt8} {host : Handler Host T} {argv : List String}

theorem ectoolOver_reflashes {D : Type} (hprompt : Prompt schedule) {h : Handler Io D} {xfer : EcTransfer}
    {link : D → Link (Controller σ)} {memmap : D → Mem} (hs : Serves (firmwareEc serve schedule) h xfer link memmap)
    (hboard : BoardFirmware serve flash unlocked ideal version) (hhost : Cooperates host argv)
    (hsub : argv.getD 1 "" = "reflash") (u r : Mem) (c : Setting) {map : FlashMap} (d : D) (t : T)
    (hd : Reflashable unlocked version (memmap d) c.fuel c.image (argv.drop 1) map (settle serve (link d).ec.view)) :
    Prog.Ends (h.sum host) (ectoolOver xfer u r c) (d, t) fun status e => status = efiSuccess ∧
      flash (settle serve (link e.1).ec.view) =
        flashed c.image map (setBits (regionMask (reflashArgs {} (argv.drop 2)) map))
          (flash (settle serve (link d).ec.view)) := by
  obtain ⟨status, e, hexec, hstatus, hflash⟩ := ends_uefiMain (t := t) hhost hsub hboard hd
  have hports := ectoolOver_direct hprompt hs u r c host d t
  rw [hexec] at hports
  refine Prog.Ends.mono hports ?_
  rintro _ e' ⟨rfl, hfirmware, -⟩
  exact ⟨hstatus, by rw [← hflash, hfirmware]⟩

/-- **`ectool reflash` works, from the command line to the flash**, over either library. -/
theorem ectool_reflashes (hprompt : Prompt schedule) (hboard : BoardFirmware serve flash unlocked ideal version)
    (hhost : Cooperates host argv) (hsub : argv.getD 1 "" = "reflash") (u r : Mem) (c : Setting) (map : FlashMap)
    (t : T) :
    (∀ d, Reflashable unlocked version (Mec.memmap d) c.fuel c.image (argv.drop 1) map (settle serve d.ec.view) →
      Prog.Ends ((emi (firmwareEc serve schedule)).sum host) (ectoolOver Mec.ecTransfer u r c) (d, t) fun status e =>
        status = efiSuccess ∧ flash (settle serve e.1.ec.view) =
          flashed c.image map (setBits (regionMask (reflashArgs {} (argv.drop 2)) map))
            (flash (settle serve d.ec.view))) ∧
    ∀ b, Reflashable unlocked version (Azalea.memmap b) c.fuel c.image (argv.drop 1) map (settle serve b.ec.view) →
      Prog.Ends ((npcx (firmwareEc serve schedule)).sum host) (ectoolOver Azalea.ecTransfer u r c) (b, t)
        fun status e => status = efiSuccess ∧ flash (settle serve e.1.ec.view) =
          flashed c.image map (setBits (regionMask (reflashArgs {} (argv.drop 2)) map))
            (flash (settle serve b.ec.view)) :=
  ⟨fun d hd => ectoolOver_reflashes hprompt (Mec.serves _) hboard hhost hsub u r c d t hd,
    fun b hb => ectoolOver_reflashes hprompt (Azalea.serves _) hboard hhost hsub u r c b t hb⟩

end Ports

/-! ### A sample -/

/-- A flash, whether it is unlocked, and the erase that is under way: how many requests for the result it will
refuse, and what it leaves. -/
structure Chip where
  flash : Mem
  unlocked : Bool
  erasing : Option (Nat × Mem)

def respond (result : UInt8) (payload : List UInt8) : Response :=
  if h : payload.length ≤ gEcMaxResponse then .of result payload h else .of 4 [] (Nat.zero_le _)

theorem respond_of {result : UInt8} {payload : List UInt8} (h : payload.length ≤ gEcMaxResponse) :
    (respond result payload).result = result ∧ (respond result payload).payload = payload := by
  rw [respond, dif_pos h]
  exact ⟨rfl, rfl⟩

/-- What the chip answers: the result, the payload, and its next state. -/
def Chip.answer (version : List UInt8) (chip : Chip) (q : Request) : UInt8 × List UInt8 × Chip :=
  let p := Mem.ofList q.payload
  if q.command = ecCmdGetVersion then (0, version, chip)
  else if q.command = ecCmdGetCmdVersions then (0, Mem.le32Bytes 3, chip)
  else if q.command = ecCmdFlashInfo then (0, flashInfoResp, chip)
  else if q.command = ecCmdFlashRead then (0, (chip.flash.drop (p.le32 0)).toList (p.le32 4), chip)
  else if q.command = ecCmdFlashNotified then (0, [], { chip with unlocked := p 0 = flashFirmwareStart })
  else if chip.unlocked = false then (4, [], chip)
  else if q.command = ecCmdFlashWrite then
    (0, [], { chip with flash := chip.flash.program (p.le32 0) (p.drop 8) (p.le32 4) })
  else if p 0 = flashEraseSectorAsync then
    (0, [], { chip with erasing := some (2, chip.flash.erase (p.le32 4) (p.le32 8)) })
  else
    match chip.erasing with
    | some (polls + 1, m) => (16, [], { chip with erasing := some (polls, m) })
    | some (0, m) => (0, [], { chip with flash := m, erasing := none })
    | none => (4, [], chip)

def Chip.serve (version : List UInt8) : Firmware Chip := fun chip q =>
  (respond (chip.answer version q).1 (chip.answer version q).2.1, (chip.answer version q).2.2)

theorem Chip.accepts {version : List UInt8} {chip : Chip} {q : Request} (payload : List UInt8) (chip' : Chip)
    {Q : List UInt8 → Chip → Prop} (h : chip.answer version q = (0, payload, chip'))
    (hfits : payload.length ≤ gEcMaxResponse) (hQ : Q payload chip') : Accepts (Chip.serve version) chip q Q := by
  obtain ⟨hresult, hpayload⟩ := @respond_of 0 _ hfits
  rw [Accepts, Chip.serve, h]
  exact ⟨hresult, by rw [hpayload]; exact hQ⟩

/-- The erase is under way. -/
def Chip.Erasing (chip : Chip) (polls : Nat) (m : Mem) : Prop := chip.erasing = some (polls, m) ∧ chip.unlocked = true

theorem eraseParams_offsetSize (cmd : UInt8) {offset size : Nat} (h : Sectors offset size) :
    (Mem.ofList (eraseParams cmd offset size)).le32 4 = offset ∧
      (Mem.ofList (eraseParams cmd offset size)).le32 8 = size := by
  have hbound : offset + size ≤ 524288 := h.2.2
  have hparams := @le32_offsetSize offset size [cmd, 0, 0, 0] [] (by omega) (by omega)
  rwa [List.append_nil] at hparams

theorem Chip.erases (version : List UInt8) :
    ErasesInBackground (Chip.serve version) Chip.flash (fun chip => chip.unlocked = true) Chip.Erasing where
  versions chip rgv := by
    have hanswer : chip.answer version ⟨ecCmdGetCmdVersions, 0, [UInt8.ofNat ecCmdFlashErase]⟩ =
        (0, Mem.le32Bytes 3, chip) := rfl
    have hreply : eraseVersions (Chip.serve version) chip = ⟨4, Mem.le32Bytes 3⟩ := by
      obtain ⟨hresult, hpayload⟩ := @respond_of 0 (Mem.le32Bytes 3) (by decide)
      rw [eraseVersions, Chip.serve, hanswer, replyTo, if_neg (not_not.2 hresult), hpayload]
      rfl
    have hmask : eraseVersionMask ⟨4, Mem.le32Bytes 3⟩ rgv = 3 := rfl
    constructor
    · rw [hreply, hmask]
      decide
    · rw [afterVersions, Chip.serve, hanswer]
      exact ⟨rfl, id⟩
  start chip offset size hunlocked hsectors := by
    obtain ⟨hoffset, hsize⟩ := eraseParams_offsetSize flashEraseSectorAsync hsectors
    refine Chip.accepts [] { chip with erasing := some (2, chip.flash.erase offset size) }
      ?_ (Nat.zero_le _) ⟨rfl, 2, by decide, rfl, hunlocked⟩
    have hanswer : chip.answer version ⟨ecCmdFlashErase, 1, eraseParams flashEraseSectorAsync offset size⟩ =
        (0, [], { chip with erasing := some (2, chip.flash.erase
          ((Mem.ofList (eraseParams flashEraseSectorAsync offset size)).le32 4)
          ((Mem.ofList (eraseParams flashEraseSectorAsync offset size)).le32 8)) }) := by
      simp only [Chip.answer, hunlocked]
      rfl
    rw [hanswer, hoffset, hsize]
  busy chip polls m offset size herasing hsectors := by
    obtain ⟨herasing, hunlocked⟩ := herasing
    have hanswer : chip.answer version ⟨ecCmdFlashErase, 1, eraseParams flashEraseGetResult offset size⟩ =
        (16, [], { chip with erasing := some (polls, m) }) := by
      simp only [Chip.answer, hunlocked, herasing]
      rfl
    simp only [Chip.serve, hanswer]
    exact ⟨by decide, rfl, hunlocked⟩
  done chip m offset size herasing hsectors := by
    obtain ⟨herasing, hunlocked⟩ := herasing
    refine Chip.accepts [] { chip with flash := m, erasing := none } ?_ (Nat.zero_le _)
      ⟨rfl, rfl, hunlocked⟩
    simp only [Chip.answer, hunlocked, herasing]
    rfl

theorem Chip.board {version : List UInt8} (hversion : version.length ≤ sizeofGetVersion) :
    BoardFirmware (Chip.serve version) Chip.flash (fun chip => chip.unlocked = true) 240 version where
  info chip := Chip.accepts flashInfoResp chip rfl (by decide) ⟨rfl, rfl, rfl, id⟩
  read chip offset n hinside hn := by
    have hbound : offset + n ≤ 524288 := hinside
    have hparams := @le32_offsetSize offset n [] [] (by omega) (by omega)
    rw [List.append_nil] at hparams
    refine Chip.accepts ((chip.flash.drop offset).toList n) chip ?_ (by simpa using hn)
      ⟨rfl, rfl, id⟩
    have hanswer : chip.answer version ⟨ecCmdFlashRead, 0, offsetSize offset n⟩ =
      (0, (chip.flash.drop ((Mem.ofList (offsetSize offset n)).le32 0)).toList
        ((Mem.ofList (offsetSize offset n)).le32 4), chip) := rfl
    rw [hanswer]
    simp only [List.nil_append, List.length_nil, Nat.zero_add] at hparams
    rw [hparams.1, hparams.2]
  write chip offset data hunlocked hinside hdata := by
    have hbound : offset + data.length ≤ 524288 := hinside
    have hparams := @le32_offsetSize offset data.length [] data (by omega) (by omega)
    simp only [List.nil_append, List.length_nil, Nat.zero_add] at hparams
    refine Chip.accepts [] { chip with flash := chip.flash.program offset (Mem.ofList data) data.length } ?_
      (Nat.zero_le _)
      ⟨rfl, rfl, hunlocked⟩
    simp only [Chip.answer, hunlocked]
    rw [hparams.1, hparams.2, drop_writeParams]
    rfl
  erases := .inr ⟨Chip.Erasing, Chip.erases version⟩
  ideal_pos := by decide
  ideal_fits := by decide
  getVersion chip := Chip.accepts version chip rfl
    (Nat.le_trans hversion (by decide)) ⟨rfl, rfl, id⟩
  notified chip flags := Chip.accepts [] { chip with unlocked := flags = flashFirmwareStart } rfl (Nat.zero_le _)
    ⟨rfl, rfl, fun h => decide_eq_true h⟩
  version_fits := hversion

/-- An hx30 on mains power. -/
def mainsHx30 : Emi (Controller Chip) :=
  ⟨⟨⟨⟨fun _ => 0, false, none⟩, 0, 0, none⟩,
    Mem.ofList (List.replicate 0x120 0 ++ ascii "EC" ++ List.replicate 0x2a 0 ++ [ecBattFlagAcPresent]), []⟩, 0⟩

theorem mainsHx30_reflashable : Reflashable (fun chip : Chip => chip.unlocked = true) (ascii "hx30_v0")
    (Mec.memmap mainsHx30) 0x40001 (sampleImage "hx30_v1") ["reflash", "ec.bin"]
    ⟨"hx30", hxFlashRegions, flashDeviceRequiresUnlock⟩ ⟨fun _ => 0, false, none⟩ where
  file := by decide
  board := forBoard_hx30 _
  ready _ := ⟨by decide, by decide, .inl (by decide)⟩
  open' h := absurd h (by decide)
  fuel := Nat.lt_succ_self _

/-- A new image for an hx30. -/
theorem ectool_reflashes_hx30 :
    Prog.Ends ((emi (firmwareEc (Chip.serve (ascii "hx30_v0")) fun _ => 0)).sum
        (sampleHost ["ectool", "reflash", "ec.bin"]))
      (ectoolOver Mec.ecTransfer (fun _ => 0) (fun _ => 0) ⟨0x40001, sampleImage "hx30_v1", true⟩) (mainsHx30, ())
      fun status e => status = efiSuccess ∧ (settle (Chip.serve (ascii "hx30_v0")) e.1.ec.view).flash =
        flashed (sampleImage "hx30_v1") ⟨"hx30", hxFlashRegions, flashDeviceRequiresUnlock⟩
          (setBits (regionMask (reflashArgs {} (["ectool", "reflash", "ec.bin"].drop 2))
            ⟨"hx30", hxFlashRegions, flashDeviceRequiresUnlock⟩)) fun _ => 0 :=
  (ectool_reflashes prompt_idle (Chip.board (by decide))
    (sampleHost_cooperates ["ectool", "reflash", "ec.bin"]) rfl (fun _ => 0) (fun _ => 0)
    ⟨0x40001, sampleImage "hx30_v1", true⟩ ⟨"hx30", hxFlashRegions, flashDeviceRequiresUnlock⟩ ()).1 mainsHx30
      mainsHx30_reflashable

end FrameworkHacks.ECTool
