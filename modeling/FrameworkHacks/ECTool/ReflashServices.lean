import FrameworkHacks.ECTool.FlashServices
import FrameworkHacks.ECTool.Readiness
import FrameworkHacks.ECTool.Stack

/-!
# A reflash on services with a flash

`ReflashServices` adds to a flash what the rest of `cmd_reflash` is about: a host that refuses nothing, a memory map,
and notifications that unlock the flash. On such services `cmd_reflash` gets through every stage if the image is for
the board (`ends_reflash`).
-/

namespace FrameworkHacks.ECTool

open Effects

variable {σ T S α : Type}

/-! ### The host -/

/-- The answers of a host that lets a tool with these arguments go on. -/
def Helpful (argv : List String) : (op : Host.Op) → Host.Ans op → Prop
  | .inl ⟨.shellOpenFileByName _, _⟩, status => efiError status = false
  | .inl ⟨.shellGetFileInfo, _⟩, fileSize => fileSize = some imageSize
  | .inl ⟨.shellReadFile size, _⟩, (status, readSize) => efiError status = false ∧ readSize = size
  | .inl ⟨.allocatePool .., _⟩, block => block.isSome = true
  | .inl ⟨.readKeyStroke, _⟩, status => efiError status = true
  | .inr .shellInitialize, status => efiError status = false
  | .inr .handleProtocol, params => params = some argv
  | .inr .locateProtocol, status => efiError status = false
  | _, _ => True

def Cooperates (host : Handler Host T) (argv : List String) : Prop :=
  ∀ op t, ∃ x t', host op t = .ok (x, t') ∧ Helpful argv op x

theorem sampleHost_cooperates (argv : List String) : Cooperates (sampleHost argv) argv := by
  rintro (⟨op, hlocal⟩ | op) t
  · refine ⟨_, t, rfl, ?_⟩
    cases op with
    | sendCommand c => cases hlocal
    | readMemory offset length => cases hlocal
    | shellReadFile size => exact ⟨by decide, rfl⟩
    | shellOpenFileByName filename => exact show efiError efiSuccess = false by decide
    | shellGetFileInfo => rfl
    | allocatePool block size => rfl
    | readKeyStroke => exact show efiError efiNotReady = true by decide
    | _ => trivial
  · cases op with
    | shellInitialize => exact ⟨_, t, rfl, show efiError efiSuccess = false by decide⟩
    | handleProtocol => exact ⟨_, t, rfl, rfl⟩
    | locateProtocol => exact ⟨_, t, rfl, show efiError efiSuccess = false by decide⟩
    | print text => exact ⟨_, t, rfl, trivial⟩

/-- The services of the host are not about the EC. -/
def HostServes (h : Handler Services (σ × T)) (argv : List String) : Prop :=
  ∀ (op : ServiceOp) (hlocal : op.isLocal = true) s t, ∃ x t', h op (s, t) = .ok (x, s, t') ∧
    Helpful argv (.inl ⟨op, hlocal⟩) x

theorem ends_services {h : Handler App S} {p : Prog Services α} {d : S} {R : α → S → Prop}
    (hp : Prog.Ends (fun op => h (.inl op)) p d R) : Prog.Ends h p.inl d R := by
  obtain ⟨a, e, hexec, hR⟩ := hp
  exact ⟨a, e, by rw [← hexec]; exact Prog.exec_left _ _ _, hR⟩

/-- The tool up to the command that is asked for; the startup keeps `I`. -/
theorem ends_startup {h : Handler App S} {argv : List String} {c : Setting} (hlength : 2 ≤ argv.length)
    {spec : String × CommandHandler} (hfind : (commands c).find? (fun spec => argv.getD 1 "" = spec.1) = some spec)
    {I : S → Prop} (hstartup : ∀ op d, (∀ line, op ≠ .print line) → I d → ∃ x d', h (.inr op) d = .ok (x, d') ∧ I d' ∧
      Helpful argv (.inr op) x) {d : S} (hd : I d) {Q : EfiStatus → S → Prop}
    (hspec : ∀ d', I d' → Prog.Ends h (spec.2 (argv.drop 1)) d' Q) : Prog.Ends h (uefiMain c) d Q := by
  obtain ⟨status, d₁, hinit, hd₁, hstatus⟩ := hstartup .shellInitialize d (by simp) hd
  obtain ⟨params, d₂, hparams, hd₂, hargv⟩ := hstartup .handleProtocol d₁ (by simp) hd₁
  obtain ⟨status', d₃, hlocate, hd₃, hstatus'⟩ := hstartup .locateProtocol d₂ (by simp) hd₂
  obtain rfl : params = some argv := hargv
  unfold uefiMain
  refine Prog.Ends.perform_bind hinit ?_
  rw [if_neg (Bool.eq_false_iff.1 hstatus), getArg, bind_assoc]
  refine Prog.Ends.perform_bind hparams ?_
  simp only [pure_bind, Option.getD_some, if_neg (Nat.not_lt.2 hlength)]
  refine Prog.Ends.perform_bind hlocate ?_
  rw [if_neg (Bool.eq_false_iff.1 hstatus'), hfind]
  exact hspec d₃ hd₃

theorem two_le_length {argv : List String} {name : String} (hname : argv.getD 1 "" = name) (hne : name ≠ "") :
    2 ≤ argv.length := by
  by_contra hshort
  rw [List.getD_eq_default _ _ (by omega)] at hname
  exact hne hname.symm

/-! ### The EC -/

/-- The memory map, as far as the tool reads it. -/
def Maps (h : Handler Services (σ × T)) (memmap : Mem) : Prop :=
  ∀ offset length s t, 0 < length → offset + length ≤ 0x5c →
    ∃ x : Mem, h (.readMemory offset length) (s, t) = .ok (x, s, t) ∧ ∀ i < length, x i = memmap (offset + i)

/-- A flash that is unlocked by `FLASH_FIRMWARE_START`. -/
structure ReflashServices (h : Handler Services (σ × T)) (argv : List String) (flash : σ → Mem) (unlocked : σ → Prop)
    (ideal : Nat) (memmap : Mem) : Prop extends FlashServices h flash unlocked ideal where
  host : HostServes h argv
  maps : Maps h memmap
  notified : ∀ s t flags, Served h ⟨ecCmdFlashNotified, 0, [flags], 0⟩ s t fun _ s' =>
    flash s' = flash s ∧ (flags = flashFirmwareStart → unlocked s')

/-- The board that an EC with this version reports. -/
def reportedBoard (version : List UInt8) : Mem :=
  currentBoardId (Reply.into ⟨version.length, version⟩ (fun _ => 0) sizeofGetVersion)

/-- The image has this flash map; unless it is forced on the board, it is for it. -/
structure ForBoard (image : Mem) (version : List UInt8) (force : Nat) (map : FlashMap) : Prop where
  final : finalFlashMap image = some map
  same : force < 2 → ∀ area, roFrid image = some area →
    strnCmp (reportedBoard version) (firmwareBoardId image area) (firmwareBoardIdLength image area) = 0 ∧
      (findFlashMap (firmwareBoardId image area) (firmwareBoardIdLength image area)).isSome = true

section

variable {h : Handler Services (σ × T)} {argv : List String} {flash : σ → Mem} {unlocked : σ → Prop} {ideal : Nat}
  {memmap : Mem} {version : List UInt8} {s : σ} {t : T} {R : α → σ × T → Prop}

theorem ends_hosted (hhost : HostServes h argv) {op : ServiceOp} (hlocal : op.isLocal = true)
    {f : op.Ans → Prog Services α}
    (hf : ∀ x t', Helpful argv (.inl ⟨op, hlocal⟩) x → Prog.Ends h (f x) (s, t') R) :
    Prog.Ends h (Prog.perform (E := Services) op >>= f) (s, t) R := by
  obtain ⟨x, t', hop, hhelpful⟩ := hhost op hlocal s t
  exact Prog.Ends.perform_bind hop (hf x t' hhelpful)

theorem succeeds_hosted (hhost : HostServes h argv) {op : ServiceOp} (hlocal : op.isLocal = true)
    {f : op.Ans → Step α}
    (hf : ∀ x t', Helpful argv (.inl ⟨op, hlocal⟩) x → Attempt.Succeeds h (f x) (s, t') R) :
    Attempt.Succeeds h (liftM (Prog.perform (E := Services) op) >>= f) (s, t) R := by
  rw [Attempt.Succeeds, Attempt.run_lift_bind]
  exact ends_hosted hhost hlocal hf

/-! ### Readiness and the file -/

theorem ends_mapped (hmaps : Maps h memmap) {offset length : Nat} (hpos : 0 < length) (hin : offset + length ≤ 0x5c)
    {f : Mem → Prog Services α}
    (hf : ∀ x : Mem, (∀ i < length, x i = memmap (offset + i)) → Prog.Ends h (f x) (s, t) R) :
    Prog.Ends h (readMemory offset length >>= f) (s, t) R := by
  obtain ⟨x, hop, hx⟩ := hmaps offset length s t hpos hin
  exact Prog.Ends.perform_bind hop (hf x hx)

theorem ends_checkReady (hmaps : Maps h memmap) (hready : Ready memmap) :
    Prog.Ends h checkReadyForECFlash (s, t) fun status e => status = efiSuccess ∧ e = (s, t) := by
  unfold checkReadyForECFlash
  refine ends_mapped hmaps (by decide) (by decide) fun ecid hid => ?_
  have hec : ¬(ecid 0 ≠ 'E'.toNat.toUInt8 ∨ ecid 1 ≠ 'C'.toNat.toUInt8) := by
    rw [hid 0 (by decide), hid 1 (by decide), not_or, not_not, not_not]
    exact hready.ec
  rw [if_neg hec]
  refine ends_mapped hmaps (by decide) (by decide) fun flag hflag => ?_
  refine ends_mapped hmaps (by decide) (by decide) fun lfcc hlfcc => ?_
  refine ends_mapped hmaps (by decide) (by decide) fun cap hcap => ?_
  have hflag : flag 0 = batteryFlag memmap := hflag 0 (by decide)
  have hlfcc : lfcc.le32 0 = batteryLfcc memmap := Mem.le32_congr fun k hk => by rw [Nat.zero_add]; exact hlfcc k hk
  have hcap : cap.le32 0 = batteryCap memmap := Mem.le32_congr fun k hk => by rw [Nat.zero_add]; exact hcap k hk
  simp only [hflag, hlfcc, hcap]
  rw [if_neg hready.ac]
  by_cases hbatt : batteryFlag memmap &&& ecBattFlagBattPresent ≠ 0
  · rw [if_pos hbatt]
    obtain ⟨hpos, hcharged⟩ := hready.charged.resolve_left (not_not.2 hbatt)
    have hlow : decide (100 * batteryCap memmap / batteryLfcc memmap < 20) = false :=
      decide_eq_false fun hless => (quotient_lt_iff hpos).1 hless hcharged
    rw [chargedBelow, if_neg (by omega), hlow]
    exact .pure ⟨rfl, rfl⟩
  · rw [if_neg hbatt]
    exact .pure ⟨rfl, rfl⟩

theorem ends_readyOrForced (hmaps : Maps h memmap) {force : Nat} (hready : force = 0 → Ready memmap) :
    Prog.Ends h (readyOrForced force) (s, t) fun status e => status = efiSuccess ∧ e = (s, t) := by
  unfold readyOrForced
  split
  · exact .pure ⟨rfl, rfl⟩
  · exact ends_checkReady hmaps (hready (by omega))

/-- The stage leaves the EC alone. -/
abbrev Keeps (h : Handler Services (σ × T)) {α : Type} (x : Step α) (s : σ) (t : T) : Prop :=
  Attempt.Succeeds h x (s, t) fun _ e => e.1 = s

theorem keeps_loadFirmware (hhost : HostServes h argv) (filename : String) : Keeps h (loadFirmware filename) s t := by
  unfold loadFirmware
  refine succeeds_hosted hhost rfl fun status t₁ hstatus => ?_
  refine Attempt.Succeeds.leaveIf_bind (Bool.eq_false_iff.1 hstatus) ?_
  refine succeeds_hosted hhost rfl fun info t₂ hinfo => ?_
  obtain rfl : info = some imageSize := hinfo
  refine Attempt.Succeeds.leaveIf_bind (not_not.2 rfl) ?_
  refine succeeds_hosted hhost rfl fun firmware t₃ hfirmware => ?_
  refine succeeds_hosted hhost rfl fun verify t₄ hverify => ?_
  have hsome : ¬(firmware.isNone = true ∨ verify.isNone = true) := by
    rw [Option.isNone_iff_eq_none, Option.isNone_iff_eq_none]
    rintro (rfl | rfl)
    · cases hfirmware
    · cases hverify
  refine Attempt.Succeeds.leaveIf_bind hsome ?_
  refine succeeds_hosted hhost rfl fun read t₅ hread => ?_
  refine Attempt.Succeeds.leaveIf_bind (Bool.eq_false_iff.1 hread.1) ?_
  exact Attempt.Succeeds.leaveIf_bind (not_not.2 hread.2) (Attempt.succeeds_pure rfl)

theorem keeps_countdown (hhost : HostServes h argv) (i : Nat) : Keeps h (countdown i) s t := by
  induction i generalizing t with
  | zero => exact Attempt.succeeds_pure rfl
  | succ i ih =>
    unfold countdown
    refine succeeds_hosted hhost rfl fun _ t₁ _ => ?_
    refine succeeds_hosted hhost rfl fun key t₂ hkey => ?_
    have hkey : efiError key = true := hkey
    exact Attempt.Succeeds.leaveIf_bind (by rw [hkey]; decide) ih

/-! ### The board -/

/-- The EC reports this version. -/
def ReportsVersion (h : Handler Services (σ × T)) (version : List UInt8) (s : σ) (t : T) (P : σ → Prop) : Prop :=
  Served h ⟨ecCmdGetVersion, 0, [], sizeofGetVersion⟩ s t fun data s' => data = version ∧ P s'

theorem reportedBoard_into {version : List UInt8} {r : Reply} (hr : r.data.take sizeofGetVersion = version) :
    currentBoardId (r.into (fun _ => 0) sizeofGetVersion) = reportedBoard version := by
  subst hr
  simp only [reportedBoard, Reply.into, List.take_take, Nat.min_self]

theorem succeeds_checkBoard {P : σ → Prop} (hreports : ReportsVersion h version s t P) {image : Mem} {force : Nat}
    {map : FlashMap} (hfor : ForBoard image version force map) :
    Attempt.Succeeds h (checkBoard image force) (s, t) fun map' e => map' = map ∧ P e.1 := by
  unfold checkBoard
  rw [Attempt.Succeeds, Attempt.run_lift_bind]
  refine ends_served hreports fun r s' hrv hQ => ?_
  obtain ⟨hversion, hP⟩ := hQ
  rw [Attempt.run_leaveIf_bind, if_neg (Int.not_lt.2 hrv), reportedBoard_into hversion]
  have hfinal := hfor.final
  have hsame := hfor.same
  unfold finalFlashMap at hfinal
  cases harea : roFrid image with
  | none =>
    rw [harea] at hfinal
    cases hfinal
  | some area =>
    rw [harea, Option.map_some, Option.some.injEq] at hfinal
    have hforced : ¬(force < 2 ∧ strnCmp (reportedBoard version) (firmwareBoardId image area)
        (firmwareBoardIdLength image area) ≠ 0) := fun hboth => hboth.2 (hsame hboth.1 area harea).1
    simp only []
    rw [if_neg hforced]
    cases hfind : findFlashMap (firmwareBoardId image area) (firmwareBoardIdLength image area) with
    | some map' =>
      rw [hfind] at hfinal
      exact Attempt.succeeds_pure ⟨hfinal, hP⟩
    | none =>
      rw [hfind] at hfinal
      have hunforced : ¬force < 2 := fun hlt => by
        have hknown := (hsame hlt area harea).2
        rw [hfind] at hknown
        cases hknown
      exact Attempt.Succeeds.leaveIf_bind hunforced (Attempt.succeeds_pure ⟨hfinal, hP⟩)

/-- The image is for another board than the one that is reported; its board name ends inside it. -/
structure ForOther (image : Mem) (version : List UInt8) (force area : Nat) : Prop where
  area_eq : roFrid image = some area
  force_lt : force < 2
  differs : strnCmp (reportedBoard version) (firmwareBoardId image area) (firmwareBoardIdLength image area) ≠ 0
  inside : image.le32 area + firmwareBoardIdLength image area < imageSize.toNat

theorem leaves_checkBoard {P : σ → Prop} (hreports : ReportsVersion h version s t P) {image : Mem} {force area : Nat}
    (hfor : ForOther image version force area) :
    Attempt.Leaves h (checkBoard image force) (s, t) fun e d => e = .out .all efiAborted ∧ P d.1 := by
  unfold checkBoard
  rw [Attempt.Leaves, Attempt.run_lift_bind]
  refine ends_served hreports fun r s' hrv hQ => ?_
  obtain ⟨hversion, hP⟩ := hQ
  rw [Attempt.run_leaveIf_bind, if_neg (Int.not_lt.2 hrv), reportedBoard_into hversion, hfor.area_eq]
  simp only []
  rw [if_pos ⟨hfor.force_lt, hfor.differs⟩, Buf.store_of_lt _ hfor.inside]
  exact .pure ⟨_, rfl, rfl, hP⟩

theorem succeeds_prepare (hs : ReflashServices h argv flash unlocked ideal memmap) {P : σ → Prop}
    (hreports : ∀ t, ReportsVersion h version s t P) {image : Mem} {a : ReflashArgs} {map : FlashMap}
    (hfor : ForBoard image version a.force map) (hready : a.force = 0 → Ready memmap) (filename : String) :
    Attempt.Succeeds h (prepare image a filename) (s, t) fun plan e =>
      plan.map = map ∧ plan.mask = regionMask a map ∧ P e.1 := by
  unfold prepare
  refine (Attempt.succeeds_lift (ends_readyOrForced hs.maps hready)).bind ?_
  rintro _ _ ⟨rfl, rfl⟩
  refine Attempt.Succeeds.leaveIf_bind (by decide) ?_
  refine (keeps_loadFirmware hs.host filename).bind ?_
  rintro verifyBuffer ⟨_, t₁⟩ rfl
  refine (succeeds_checkBoard (hreports t₁) hfor).bind ?_
  rintro _ ⟨s₂, t₂⟩ ⟨rfl, hP⟩
  refine (keeps_countdown hs.host 7).bind ?_
  rintro _ ⟨_, t₃⟩ rfl
  refine (Attempt.succeeds_lift (ends_readyOrForced hs.maps hready)).bind ?_
  rintro _ _ ⟨rfl, rfl⟩
  exact Attempt.Succeeds.leaveIf_bind (by decide) (Attempt.succeeds_pure ⟨rfl, rfl, hP⟩)

theorem leaves_prepare (hs : ReflashServices h argv flash unlocked ideal memmap) {P : σ → Prop}
    (hreports : ∀ t, ReportsVersion h version s t P) {image : Mem} {a : ReflashArgs} {area : Nat}
    (hfor : ForOther image version a.force area) (hready : a.force = 0 → Ready memmap) (filename : String) :
    Attempt.Leaves h (prepare image a filename) (s, t) fun e d => e = .out .all efiAborted ∧ P d.1 := by
  unfold prepare
  refine (Attempt.succeeds_lift (ends_readyOrForced hs.maps hready)).bind_leaves ?_
  rintro _ _ ⟨rfl, rfl⟩
  refine Attempt.Leaves.leaveIf_bind (by decide) ?_
  refine (keeps_loadFirmware hs.host filename).bind_leaves ?_
  rintro verifyBuffer ⟨_, t₁⟩ rfl
  exact (leaves_checkBoard (hreports t₁) hfor).bind

/-! ### Notifications -/

theorem succeeds_notifications (hs : ReflashServices h argv flash unlocked ideal memmap) (first second : UInt8) :
    Attempt.Succeeds h (do
      let r ← flashNotified first
      Attempt.leaveIf (r.rv < 0) (.ecOut .all r.rv efiSuccess)
      let r ← flashNotified second
      Attempt.leaveIf (r.rv < 0) (.ecOut .all r.rv efiSuccess) : Step Unit) (s, t) fun _ e =>
        flash e.1 = flash s ∧ (second = flashFirmwareStart → unlocked e.1) := by
  rw [Attempt.Succeeds, Attempt.run_lift_bind]
  refine ends_served (hs.notified s t first) fun r s₁ hr hfirst => ?_
  refine Attempt.Succeeds.leaveIf_bind (Int.not_lt.2 hr) ?_
  rw [Attempt.Succeeds, Attempt.run_lift_bind]
  refine ends_served (hs.notified s₁ t second) fun r s₂ hr hsecond => ?_
  exact Attempt.succeeds_leaveIf (Int.not_lt.2 hr) ⟨hsecond.1.trans hfirst.1, hsecond.2⟩

theorem succeeds_unlock (hs : ReflashServices h argv flash unlocked ideal memmap) {map : FlashMap}
    (hopen : map.requiresUnlock = false → unlocked s) :
    Attempt.Succeeds h (unlock map) (s, t) fun _ e => flash e.1 = flash s ∧ unlocked e.1 := by
  unfold unlock
  by_cases hrequires : map.requiresUnlock = true
  · rw [if_pos hrequires]
    exact (succeeds_notifications hs flashAccessSpi flashFirmwareStart).mono fun _ _ h => ⟨h.1, h.2 rfl⟩
  · rw [if_neg hrequires]
    exact Attempt.succeeds_pure ⟨rfl, hopen (Bool.eq_false_iff.2 hrequires)⟩

theorem succeeds_lock (hs : ReflashServices h argv flash unlocked ideal memmap) (map : FlashMap) :
    Attempt.Succeeds h (lock map) (s, t) fun _ e => flash e.1 = flash s := by
  unfold lock
  by_cases hrequires : map.requiresUnlock = true
  · rw [if_pos hrequires]
    exact (succeeds_notifications hs flashAccessSpiDone flashFirmwareDone).mono fun _ _ h => h.1
  · rw [if_neg hrequires]
    exact Attempt.succeeds_pure rfl

/-! ### The command -/

theorem ends_out (hhost : HostServes h argv) (status : EfiStatus) :
    Prog.Ends h (out .all status) (s, t) fun r e => r = status ∧ e.1 = s := by
  unfold out
  refine ends_hosted hhost rfl fun _ t₁ _ => ?_
  refine ends_hosted hhost rfl fun _ t₂ _ => ?_
  refine ends_hosted hhost rfl fun _ t₃ _ => ?_
  refine ends_hosted hhost rfl fun _ t₄ _ => ?_
  exact .pure ⟨rfl, rfl⟩

/-- **`cmd_reflash` succeeds, puts the image into the selected regions, and leaves the rest alone.** -/
theorem ends_reflash {args : List String} (hs : ReflashServices h args flash unlocked ideal memmap)
    (hreports : ∀ t, ReportsVersion h version s t (Spared flash unlocked s)) {fuel : Nat} {image : Mem} {map : FlashMap}
    (hfile : (reflashArgs {} (argv.drop 1)).filename.isSome = true)
    (hfor : ForBoard image version (reflashArgs {} (argv.drop 1)).force map)
    (hready : (reflashArgs {} (argv.drop 1)).force = 0 → Ready memmap)
    (hopen : map.requiresUnlock = false → unlocked s) (hfuel : 0x40000 < fuel) :
    Prog.Ends h (cmdReflash fuel image argv) (s, t) fun status e => status = efiSuccess ∧
      flash e.1 = flashed image map (setBits (regionMask (reflashArgs {} (argv.drop 1)) map)) (flash s) := by
  obtain ⟨filename, hfile⟩ := Option.isSome_iff_exists.1 hfile
  have hshipped : map ∈ shippedMaps := finalFlashMap_shipped hfor.final
  have hreflash : Attempt.Succeeds h (reflash fuel image (reflashArgs {} (argv.drop 1)) filename) (s, t) fun _ e =>
      flash e.1 = flashed image map (setBits (regionMask (reflashArgs {} (argv.drop 1)) map)) (flash s) := by
    unfold reflash
    refine (succeeds_prepare hs hreports hfor hready filename).bind ?_
    rintro ⟨map', mask, verifyBuffer⟩ ⟨s₁, t₁⟩ ⟨hmap, hmask, hspared⟩
    simp only at hmap hmask
    subst hmap hmask
    refine (succeeds_unlock hs fun hfree => hspared.unlocked (hopen hfree)).bind ?_
    rintro _ ⟨s₂, t₂⟩ ⟨hflash₂, hunlocked₂⟩
    refine (succeeds_flashRegions hs.toFlashServices hshipped argv rfl hfuel hunlocked₂).bind ?_
    rintro _ ⟨s₃, t₃⟩ hflash₃
    refine (succeeds_lock hs map').mono fun _ e hflash₄ => ?_
    rw [hflash₄, hflash₃, hflash₂, hspared.flash]
  unfold cmdReflash
  simp only [hfile]
  refine Prog.Ends.bind hreflash ?_
  rintro _ ⟨s₁, t₁⟩ ⟨_, rfl, hflash₁⟩
  refine (ends_out hs.host efiSuccess).mono ?_
  rintro _ ⟨s₂, t₂⟩ ⟨rfl, rfl⟩
  exact ⟨rfl, hflash₁⟩

theorem ends_reflash_refused {args : List String} (hs : ReflashServices h args flash unlocked ideal memmap)
    {P : σ → Prop} (hreports : ∀ t, ReportsVersion h version s t P) {fuel area : Nat} {image : Mem}
    (hfile : (reflashArgs {} (argv.drop 1)).filename.isSome = true)
    (hfor : ForOther image version (reflashArgs {} (argv.drop 1)).force area)
    (hready : (reflashArgs {} (argv.drop 1)).force = 0 → Ready memmap) :
    Prog.Ends h (cmdReflash fuel image argv) (s, t) fun status e => status = efiAborted ∧ P e.1 := by
  obtain ⟨filename, hfile⟩ := Option.isSome_iff_exists.1 hfile
  have hleaves : Attempt.Leaves h (reflash fuel image (reflashArgs {} (argv.drop 1)) filename) (s, t) fun e d =>
      e = .out .all efiAborted ∧ P d.1 := (leaves_prepare hs hreports hfor hready filename).bind
  unfold cmdReflash
  simp only [hfile]
  refine Prog.Ends.bind hleaves ?_
  rintro _ ⟨s₁, t₁⟩ ⟨_, rfl, rfl, hP⟩
  refine (ends_out hs.host efiAborted).mono ?_
  rintro _ ⟨s₂, t₂⟩ ⟨rfl, rfl⟩
  exact ⟨rfl, hP⟩

end

/-! ### A sample -/

/-- The memory map of a board on mains power. -/
def mainsMap : Mem :=
  Mem.ofList (List.replicate 0x20 0 ++ ascii "EC" ++ List.replicate 0x2a 0 ++ [ecBattFlagAcPresent])

theorem mainsMap_ready : Ready mainsMap := ⟨by decide, by decide, .inl (by decide)⟩

/-- The flash after a command, with an EC that erases and programs before it answers. -/
def afterCommand (m : Mem) (c : HostCommand) : Mem :=
  match flashRange c with
  | none => m
  | some (offset, size) =>
    if c.command = ecCmdFlashErase then m.erase offset size
    else m.program offset ((Mem.ofList c.outdata).drop sizeofFlashWrite) size

/-- What such an EC answers. -/
def norReply (version : List UInt8) (m : Mem) (c : HostCommand) : Reply :=
  if c.command = ecCmdGetVersion then ⟨version.length, version⟩
  else if c.command = ecCmdGetCmdVersions then ⟨-1, []⟩
  else if c.command = ecCmdFlashInfo then
    ⟨sizeofFlashInfo1, List.replicate 16 0 ++ Mem.le32Bytes 240 ++ List.replicate 4 0⟩
  else if c.command = ecCmdFlashRead then
    ⟨c.insize, (m.drop ((Mem.ofList c.outdata).le32 0)).toList c.insize⟩
  else ⟨0, []⟩

/-- The services of a tool whose EC is this one. -/
def norServices (version : List UInt8) : Handler Services (Mem × Unit)
  | .sendCommand c, (m, t) => .ok (norReply version m c, afterCommand m c, t)
  | .readMemory offset _, d => .ok (mainsMap.drop offset, d)
  | op, d => .ok (sampleServices (fun _ => ⟨0, []⟩) op, d)

theorem hostServes_nor (version : List UInt8) (argv : List String) : HostServes (norServices version) argv := by
  intro op hlocal m t
  obtain ⟨x, t', hop, hhelpful⟩ := sampleHost_cooperates argv (.inl ⟨op, hlocal⟩) t
  cases hop
  refine ⟨_, t, ?_, hhelpful⟩
  cases op <;> first | rfl | cases hlocal

theorem ends_norErase (version : List UInt8) {m : Mem} {t : Unit} {offset size : Nat} (h : Sectors offset size) :
    Prog.Ends (norServices version) (flashErase offset size) (m, t) fun rv e =>
      0 ≤ rv ∧ e.1 = m.erase offset size ∧ True := by
  have hbound : offset + size ≤ 524288 := h.2.2
  obtain ⟨hou, hsu⟩ := h.toUint32
  have hparams := @le32_offsetSize offset size [] [] (by omega) (by omega)
  simp only [List.nil_append, List.append_nil, List.length_nil, Nat.zero_add] at hparams
  have hlocal : norServices version .indeterminate (m, t) = .ok ((fun _ => 0 : Mem), m, t) := rfl
  have hversions : norServices version (.sendCommand ⟨ecCmdGetCmdVersions, 0, [UInt8.ofNat ecCmdFlashErase], 4⟩)
      (m, t) = .ok ((⟨-1, []⟩ : Reply), m, t) := rfl
  unfold flashErase
  refine Prog.Ends.perform_bind hlocal (Prog.Ends.perform_bind hversions ?_)
  have hmask : eraseVersionMask ⟨-1, []⟩ (fun _ => 0) = 0 := rfl
  simp only [hmask, Nat.zero_testBit, hou, hsu, Bool.false_eq_true, if_false]
  have hrange : flashRange ⟨ecCmdFlashErase, 0, offsetSize offset size, 0⟩ = some (offset, size) := by
    rw [flashRange, if_pos rfl, if_pos rfl, hparams.1, hparams.2]
  have hop : norServices version (.sendCommand ⟨ecCmdFlashErase, 0, offsetSize offset size, 0⟩) (m, t) =
      .ok ((⟨0, []⟩ : Reply), m.erase offset size, t) := by
    rw [norServices, afterCommand, hrange]
    rfl
  refine Prog.Ends.perform_bind hop ?_
  exact ⟨0, _, rfl, Int.le_refl 0, rfl, trivial⟩

theorem norServices_reflash (version : List UInt8) (argv : List String) :
    ReflashServices (norServices version) argv id (fun _ => True) 240 mainsMap where
  host := hostServes_nor version argv
  locals m t := ⟨_, _, rfl⟩
  info m t := ⟨_, _, rfl, Int.natCast_nonneg sizeofFlashInfo1, fun m => rfl, rfl, id⟩
  read m t offset n hinside hn := by
    have hbound : offset + n ≤ 524288 := hinside
    have hroom : n ≤ 248 := hn
    have hparams := @le32_offsetSize offset n [] [] (by omega) (by omega)
    simp only [List.nil_append, List.append_nil, List.length_nil, Nat.zero_add] at hparams
    refine ⟨_, _, rfl, Int.natCast_nonneg n, ?_, rfl, id⟩
    have hdata : (norReply version m ⟨ecCmdFlashRead, 0, offsetSize offset n, n⟩).data =
        (m.drop ((Mem.ofList (offsetSize offset n)).le32 0)).toList n := rfl
    rw [hdata, hparams.1, List.take_of_length_le (by simp)]
    rfl
  write m t offset data _ hinside hdata := by
    have hbound : offset + data.length ≤ 524288 := hinside
    have hparams := @le32_offsetSize offset data.length [] data (by omega) (by omega)
    simp only [List.nil_append, List.length_nil, Nat.zero_add] at hparams
    refine ⟨_, _, rfl, Int.le_refl 0, ?_, trivial⟩
    have hrange : flashRange ⟨ecCmdFlashWrite, 1, offsetSize offset data.length ++ data, 0⟩ =
        some (offset, data.length) := by
      rw [flashRange, if_neg (show ecCmdFlashWrite ≠ ecCmdFlashErase by decide), if_pos rfl, hparams.1, hparams.2]
    rw [id, afterCommand, hrange]
    simp only [sizeofFlashWrite, drop_writeParams]
    rfl
  erase m t offset size _ hsectors := ends_norErase version hsectors
  ideal_pos := by decide
  ideal_fits := by decide
  maps offset length m t _ _ := ⟨_, rfl, fun i _ => rfl⟩
  notified m t flags := ⟨_, _, rfl, Int.le_refl 0, rfl, fun _ => trivial⟩

theorem forBoard_hx30 (force : Nat) : ForBoard (sampleImage "hx30_v1") (ascii "hx30_v0") force
    ⟨"hx30", hxFlashRegions, flashDeviceRequiresUnlock⟩ := by
  have harea : roFrid (sampleImage "hx30_v1") = some 56 := by decide
  refine ⟨by decide, fun _ area h => ?_⟩
  rw [harea, Option.some.injEq] at h
  subst h
  decide

theorem norServices_runs (m : Mem) :
    ∃ t d', Run (cmdReflash 0x40001 (sampleImage "hx30_v1") ["reflash", "ec.bin"]) t (.done efiSuccess) ∧
      Prog.Follows (norServices (ascii "hx30_v0")) (m, ()) t d' := by
  have hs := norServices_reflash (ascii "hx30_v0") []
  have hfile : (reflashArgs {} (["reflash", "ec.bin"].drop 1)).filename.isSome = true := by decide
  obtain ⟨status, d', hexec, rfl, -⟩ := ends_reflash (s := m) (t := ()) hs
    (fun t => ⟨_, _, rfl, Int.natCast_nonneg _, rfl, rfl, id⟩) hfile (forBoard_hx30 _)
    (fun _ => mainsMap_ready) (fun _ => trivial) (Nat.lt_succ_self 0x40000)
  obtain ⟨t, hrun, hfollows⟩ := Prog.exec_follows hexec
  exact ⟨t, d', hrun, hfollows⟩

end FrameworkHacks.ECTool
