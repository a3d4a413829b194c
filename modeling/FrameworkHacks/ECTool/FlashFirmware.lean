import FrameworkHacks.ECTool.Direct
import FrameworkHacks.ECTool.ReflashServices

/-!
# An EC with a flash

`FlashFirmware` is a firmware that answers the commands of `Flash.c`: it reads, programs and erases a NOR flash,
the last two while it is unlocked, and erases either before it answers (`ErasesAtOnce`) or in the background
(`ErasesInBackground`). The tool on it has services with a flash behind them (`FlashFirmware.services`).
-/

namespace FrameworkHacks.ECTool

open Effects Transport

variable {σ T : Type}

/-! ### The services -/

/-- The services of the tool. -/
def services (serve : Firmware σ) (map : Mem) (host : Handler Host T) : Handler Services (σ × T) :=
  fun op s => direct serve map host (.inl op) s

section Services

variable {serve : Firmware σ} {map : Mem} {host : Handler Host T} {argv : List String} {α : Type} {s : σ} {t : T}
  {R : α → σ × T → Prop}

theorem services_local (op : ServiceOp) (hlocal : op.isLocal = true) (s : σ × T) :
    services serve map host op s = hostOf host (.inl ⟨op, hlocal⟩) s := by
  cases op <;> first | rfl | cases hlocal

theorem ends_host {op : ServiceOp} (hlocal : op.isLocal = true) {x : op.Ans} {t' : T}
    (hop : host (.inl ⟨op, hlocal⟩) t = .ok (x, t')) {f : op.Ans → Prog Services α}
    (hf : Prog.Ends (services serve map host) (f x) (s, t') R) :
    Prog.Ends (services serve map host) (Prog.perform (E := Services) op >>= f) (s, t) R := by
  have hservice : services serve map host op (s, t) = .ok (x, s, t') := by
    rw [services_local op hlocal, hostOf, hop]
    rfl
  exact Prog.Ends.perform_bind hservice hf

theorem hostServes_services (hhost : Cooperates host argv) : HostServes (services serve map host) argv := by
  intro op hlocal s t
  obtain ⟨x, t', hop, hhelpful⟩ := hhost (.inl ⟨op, hlocal⟩) t
  exact ⟨x, t', by rw [services_local op hlocal, hostOf, hop]; rfl, hhelpful⟩

theorem maps_services : Maps (services serve map host) map := by
  intro offset length s t _ _
  refine ⟨_, rfl, fun i hi => ?_⟩
  have hcopy := @Mem.copy_in (fun _ => 0) (map.drop offset) 0 _ _ hi
  rwa [Nat.zero_add] at hcopy

/-- The firmware answers `q` with success. -/
def Accepts (serve : Firmware σ) (s : σ) (q : Request) (Q : List UInt8 → σ → Prop) : Prop :=
  (serve s q).1.result = 0 ∧ Q (serve s q).1.payload (serve s q).2

theorem served_of_accepts {command version insize : Nat} {outdata : List UInt8} {Q : List UInt8 → σ → Prop}
    (ha : Accepts serve s ⟨command, version, outdata⟩ Q)
    (hroom : ∀ payload s', Q payload s' → payload.length ≤ insize) :
    Served (services serve map host) ⟨command, version, outdata, insize⟩ s t Q := by
  obtain ⟨hzero, hQ⟩ := ha
  have hlength := hroom _ _ hQ
  have hservice : services serve map host (.sendCommand ⟨command, version, outdata, insize⟩) (s, t) =
      .ok (replyTo (serve s ⟨command, version, outdata⟩).1 insize, (serve s ⟨command, version, outdata⟩).2, t) := rfl
  rw [replyTo, if_neg (not_not.2 hzero), if_neg (Nat.not_lt.2 hlength)] at hservice
  exact ⟨_, _, hservice, Int.natCast_nonneg _, by rwa [List.take_of_length_le hlength]⟩

theorem ends_answered {command version insize : Nat} {outdata : List UInt8} {f : Reply → Prog Services α}
    (hf : Prog.Ends (services serve map host) (f (replyTo (serve s ⟨command, version, outdata⟩).1 insize))
      ((serve s ⟨command, version, outdata⟩).2, t) R) :
    Prog.Ends (services serve map host) (sendCommand command version outdata insize >>= f) (s, t) R :=
  .perform_bind rfl hf

theorem ends_started {c : Setting} (hhost : Cooperates host argv) (hlength : 2 ≤ argv.length)
    {spec : String × CommandHandler} (hfind : (commands c).find? (fun spec => argv.getD 1 "" = spec.1) = some spec)
    {I : T → Prop} (hI : I t)
    (hkeep : ∀ op t x t', (∀ line, op ≠ .print line) → host (.inr op) t = .ok (x, t') → I t → I t')
    {Q : EfiStatus → σ × T → Prop}
    (hspec : ∀ t', I t' → Prog.Ends (direct serve map host) (spec.2 (argv.drop 1)) (s, t') Q) :
    Prog.Ends (direct serve map host) (uefiMain c) (s, t) Q := by
  refine ends_startup hlength hfind (I := fun d => d.1 = s ∧ I d.2) (fun op d hsilent hd => ?_) ⟨rfl, hI⟩ ?_
  · obtain ⟨x, t', hop, hhelpful⟩ := hhost (.inr op) d.2
    refine ⟨x, (d.1, t'), ?_, ⟨hd.1, hkeep op d.2 x t' hsilent hop hd.2⟩, hhelpful⟩
    rw [direct, hostOf, hop]
    rfl
  · rintro ⟨_, t'⟩ ⟨rfl, hI'⟩
    exact hspec t' hI'

end Services

/-! ### The flash -/

/-- The reply to `GET_CMD_VERSIONS` about `FLASH_ERASE`. -/
def eraseVersions (serve : Firmware σ) (s : σ) : Reply :=
  replyTo (serve s ⟨ecCmdGetCmdVersions, 0, [UInt8.ofNat ecCmdFlashErase]⟩).1 4

def afterVersions (serve : Firmware σ) (s : σ) : σ :=
  (serve s ⟨ecCmdGetCmdVersions, 0, [UInt8.ofNat ecCmdFlashErase]⟩).2

/-- `FLASH_ERASE` is answered when the sectors are erased. -/
structure ErasesAtOnce (serve : Firmware σ) (flash : σ → Mem) (unlocked : σ → Prop) : Prop where
  versions : ∀ s rgv, (eraseVersionMask (eraseVersions serve s) rgv).testBit 1 = false ∧
    Spared flash unlocked s (afterVersions serve s)
  erase : ∀ s offset size, unlocked s → Sectors offset size →
    Accepts serve s ⟨ecCmdFlashErase, 0, offsetSize offset size⟩ fun payload s' =>
      payload = [] ∧ flash s' = (flash s).erase offset size ∧ unlocked s'

/-- `FLASH_ERASE` is answered at once, and the sectors are erased after at most three more requests for the
result; `erasing s polls m` says that it takes `polls` of them until the flash is `m`. -/
structure ErasesInBackground (serve : Firmware σ) (flash : σ → Mem) (unlocked : σ → Prop)
    (erasing : σ → Nat → Mem → Prop) : Prop where
  versions : ∀ s rgv, (eraseVersionMask (eraseVersions serve s) rgv).testBit 1 = true ∧
    Spared flash unlocked s (afterVersions serve s)
  start : ∀ s offset size, unlocked s → Sectors offset size →
    Accepts serve s ⟨ecCmdFlashErase, 1, eraseParams flashEraseSectorAsync offset size⟩ fun payload s' =>
      payload = [] ∧ ∃ polls ≤ 3, erasing s' polls ((flash s).erase offset size)
  busy : ∀ s polls m offset size, erasing s (polls + 1) m → Sectors offset size →
    let q : Request := ⟨ecCmdFlashErase, 1, eraseParams flashEraseGetResult offset size⟩
    (serve s q).1.result ≠ 0 ∧ erasing (serve s q).2 polls m
  done : ∀ s m offset size, erasing s 0 m → Sectors offset size →
    Accepts serve s ⟨ecCmdFlashErase, 1, eraseParams flashEraseGetResult offset size⟩ fun payload s' =>
      payload = [] ∧ flash s' = m ∧ unlocked s'

/-- The firmware of an EC with this flash, programmed in chunks of a multiple of `ideal` bytes. -/
structure FlashFirmware (serve : Firmware σ) (flash : σ → Mem) (unlocked : σ → Prop) (ideal : Nat) : Prop where
  info : ∀ s, Accepts serve s ⟨ecCmdFlashInfo, 1, []⟩ fun payload s' =>
    payload.length = sizeofFlashInfo1 ∧ (Mem.ofList payload).le32 16 = ideal ∧ Spared flash unlocked s s'
  read : ∀ s offset n, offset + n ≤ imageSize.toNat → n ≤ gEcMaxResponse →
    Accepts serve s ⟨ecCmdFlashRead, 0, offsetSize offset n⟩ fun payload s' =>
      payload = ((flash s).drop offset).toList n ∧ Spared flash unlocked s s'
  write : ∀ s offset data, unlocked s → offset + data.length ≤ imageSize.toNat → data.length ≤ writeStep ideal →
    Accepts serve s ⟨ecCmdFlashWrite, 1, offsetSize offset data.length ++ data⟩ fun payload s' =>
      payload = [] ∧ flash s' = (flash s).program offset (Mem.ofList data) data.length ∧ unlocked s'
  erases : ErasesAtOnce serve flash unlocked ∨ ∃ erasing, ErasesInBackground serve flash unlocked erasing
  ideal_pos : 0 < writeStep ideal
  ideal_fits : sizeofFlashWrite + writeStep ideal ≤ gEcMaxRequest

section Flash

variable {serve : Firmware σ} {map : Mem} {host : Handler Host T} {argv : List String} {flash : σ → Mem}
  {unlocked : σ → Prop} {ideal : Nat} {s : σ} {t : T}

/-! ### Erasing -/

theorem ends_erased (hhost : Cooperates host argv) {erasing : σ → Nat → Mem → Prop}
    (herases : ErasesInBackground serve flash unlocked erasing) {offset size : Nat} (hsectors : Sectors offset size)
    {m : Mem} (tries polls : Nat) (htries : polls < tries) (herasing : erasing s polls m) (fuel : Nat)
    (hfuel : tries ≤ fuel) :
    Prog.Ends (services serve map host) (Prog.loop (getResultRound offset size) fuel tries) (s, t) fun rv e =>
      0 ≤ rv ∧ flash e.1 = m ∧ unlocked e.1 := by
  obtain ⟨hou, hsu⟩ := hsectors.toUint32
  induction polls generalizing s t tries fuel with
  | zero =>
    obtain ⟨fuel, rfl⟩ : ∃ n, fuel = n + 1 := ⟨fuel - 1, by omega⟩
    rw [Prog.loop_succ, getResultRound, bind_assoc]
    refine ends_hosted (hostServes_services hhost) rfl fun _ t' _ => ?_
    rw [sendErase, hou, hsu, bind_assoc]
    have hdone := herases.done s m offset size herasing hsectors
    refine ends_served (served_of_accepts hdone fun payload s' hQ => by simp [hQ.1]) fun r s' hrv hQ => ?_
    rw [if_neg fun hand => Int.not_lt.2 hrv hand.1]
    exact .pure ⟨hrv, hQ.2⟩
  | succ polls ih =>
    obtain ⟨fuel, rfl⟩ : ∃ n, fuel = n + 1 := ⟨fuel - 1, by omega⟩
    obtain ⟨hrefused, hnext⟩ := herases.busy s polls m offset size herasing hsectors
    rw [Prog.loop_succ, getResultRound, bind_assoc]
    refine ends_hosted (hostServes_services hhost) rfl fun _ t' _ => ?_
    rw [sendErase, hou, hsu, bind_assoc]
    refine ends_answered ?_
    have hneg : (replyTo (serve s ⟨ecCmdFlashErase, 1, eraseParams flashEraseGetResult offset size⟩).1 0).rv < 0 := by
      rw [replyTo, if_pos hrefused]
      simp only [eecresult]
      omega
    rw [if_pos ⟨hneg, by omega⟩]
    exact ih (tries - 1) (by omega) hnext fuel (by omega)

theorem ends_flashEraseAsync (hhost : Cooperates host argv) {erasing : σ → Nat → Mem → Prop}
    (herases : ErasesInBackground serve flash unlocked erasing) {offset size : Nat} (hsectors : Sectors offset size)
    (hunlocked : unlocked s) :
    Prog.Ends (services serve map host) (flashEraseAsync offset size) (s, t) fun rv e =>
      0 ≤ rv ∧ flash e.1 = (flash s).erase offset size ∧ unlocked e.1 := by
  obtain ⟨hou, hsu⟩ := hsectors.toUint32
  unfold flashEraseAsync
  rw [sendErase, hou, hsu]
  have hstart := herases.start s offset size hunlocked hsectors
  refine ends_served (served_of_accepts hstart fun payload s' hQ => by simp [hQ.1]) fun r s' hrv hQ => ?_
  obtain ⟨-, polls, hpolls, herasing⟩ := hQ
  rw [if_neg (Int.not_lt.2 hrv)]
  exact ends_erased hhost herases hsectors 4 polls (by omega) herasing 4 (Nat.le_refl 4)

theorem ends_flashErase_sectors (hhost : Cooperates host argv) (hflash : FlashFirmware serve flash unlocked ideal)
    {offset size : Nat} (hsectors : Sectors offset size) (hunlocked : unlocked s) :
    Prog.Ends (services serve map host) (flashErase offset size) (s, t) fun rv e =>
      0 ≤ rv ∧ flash e.1 = (flash s).erase offset size ∧ unlocked e.1 := by
  unfold flashErase
  refine ends_hosted (hostServes_services hhost) rfl fun rgv t' _ => ends_answered ?_
  rcases hflash.erases with herases | ⟨erasing, herases⟩
  · obtain ⟨hmask, hspared⟩ := herases.versions s rgv
    obtain ⟨hou, hsu⟩ := hsectors.toUint32
    rw [eraseVersions] at hmask
    rw [hmask, hou, hsu]
    simp only [Bool.false_eq_true, if_false]
    have herase := herases.erase _ offset size (hspared.unlocked hunlocked) hsectors
    refine ends_served (served_of_accepts herase fun payload s' hQ => by simp [hQ.1]) fun r s' hrv hQ => ?_
    -- a success needs no HELLO
    rw [Prog.loop_succ, helloRound]
    simp only [Int.not_lt.2 hrv, false_and, if_false, pure_bind]
    rw [← hspared.flash]
    exact .pure ⟨hrv, hQ.2⟩
  · obtain ⟨hmask, hspared⟩ := herases.versions s rgv
    rw [eraseVersions] at hmask
    rw [hmask, if_pos rfl, ← hspared.flash]
    exact ends_flashEraseAsync hhost herases hsectors (hspared.unlocked hunlocked)

theorem FlashFirmware.services (hflash : FlashFirmware serve flash unlocked ideal) (hhost : Cooperates host argv) :
    FlashServices (services serve map host) flash unlocked ideal where
  locals s t :=
    let ⟨m, t', hop, _⟩ := hostServes_services hhost .indeterminate rfl s t
    ⟨m, t', hop⟩
  info s t := by
    have hinfo := hflash.info s
    refine (served_of_accepts hinfo fun payload s' hQ => Nat.le_of_eq hQ.1).mono fun data s' hQ => ?_
    obtain ⟨hlength, hideal, hspared⟩ := hQ
    refine ⟨fun m => ?_, hspared⟩
    rw [← hideal]
    refine Mem.le32_congr fun k hk => Mem.overlay_lt _ ?_
    rw [hlength, sizeofFlashInfo1]
    omega
  read s t offset n hinside hn :=
    served_of_accepts (hflash.read s offset n hinside hn) fun payload s' hQ => by rw [hQ.1, Mem.toList_length]
  write s t offset data hunlocked hinside hdata := by
    have hwrite := hflash.write s offset data hunlocked hinside hdata
    exact (served_of_accepts hwrite fun payload s' hQ => by simp [hQ.1]).mono fun _ s' hQ => hQ.2
  erase s t offset size hunlocked hsectors := ends_flashErase_sectors hhost hflash hsectors hunlocked
  ideal_pos := hflash.ideal_pos
  ideal_fits := hflash.ideal_fits

end Flash

end FrameworkHacks.ECTool
