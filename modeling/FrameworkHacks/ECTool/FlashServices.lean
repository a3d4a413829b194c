import Mathlib.Data.List.GetD
import FrameworkHacks.Library.Nor
import FrameworkHacks.ECTool.Confined
import FrameworkHacks.ECTool.Writing

/-!
# Services with a flash behind them

`FlashServices` says of the services of the tool that an EC with a NOR flash is behind `SendCommand`: it reads,
programs and erases, the last two while it is unlocked. On such services `flash_write` and `flash_read` do what
they are for, and the region loop of `cmd_reflash` puts the image into the regions of its mask and nothing anywhere
else (`succeeds_flashRegions`). Whose services they are is left open: those of a library over its ports, or of the
simulated EC.
-/

namespace FrameworkHacks.ECTool

open Effects

variable {σ T α : Type}

/-! ### The EC -/

/-- Whole sectors of the flash. -/
def Sectors (offset size : Nat) : Prop := offset % 4096 = 0 ∧ size % 4096 = 0 ∧ offset + size ≤ imageSize.toNat

instance (offset size : Nat) : Decidable (Sectors offset size) := inferInstanceAs (Decidable (_ ∧ _ ∧ _))

theorem Sectors.toUint32 {offset size : Nat} (h : Sectors offset size) :
    toUint32 (offset : Int) = offset ∧ toUint32 (size : Int) = size := by
  have hbound : offset + size ≤ 524288 := h.2.2
  exact ⟨toUint32_of_lt (by omega) (by omega), toUint32_of_lt (by omega) (by omega)⟩

/-- Nothing is changed that matters to the flash. -/
structure Spared (flash : σ → Mem) (unlocked : σ → Prop) (s s' : σ) : Prop where
  flash : flash s' = flash s
  unlocked : unlocked s → unlocked s'

theorem Spared.trans {flash : σ → Mem} {unlocked : σ → Prop} {s₁ s₂ s₃ : σ} (h₁ : Spared flash unlocked s₁ s₂)
    (h₂ : Spared flash unlocked s₂ s₃) : Spared flash unlocked s₁ s₃ :=
  ⟨h₂.flash.trans h₁.flash, fun h => h₂.unlocked (h₁.unlocked h)⟩

/-- The EC accepts `c`; `Q` is about what the caller has room for of its response. -/
def Served (h : Handler Services (σ × T)) (c : HostCommand) (s : σ) (t : T) (Q : List UInt8 → σ → Prop) : Prop :=
  ∃ r s', h (.sendCommand c) (s, t) = .ok (r, s', t) ∧ 0 ≤ r.rv ∧ Q (r.data.take c.insize) s'

theorem Served.mono {h : Handler Services (σ × T)} {c : HostCommand} {s : σ} {t : T} {Q Q' : List UInt8 → σ → Prop}
    (hc : Served h c s t Q) (hQ : ∀ data s', Q data s' → Q' data s') : Served h c s t Q' :=
  let ⟨r, s', hop, hrv, hdata⟩ := hc
  ⟨r, s', hop, hrv, hQ _ s' hdata⟩

theorem drop_writeParams (offset n : Nat) (data : List UInt8) :
    (Mem.ofList (offsetSize offset n ++ data)).drop 8 = Mem.ofList data := by
  funext i
  rw [Mem.drop_apply, Mem.ofList, Mem.ofList, List.getD_append_right _ _ _ _ (Nat.le_add_right 8 i)]
  exact congrArg (fun k => data.getD k 0) (Nat.add_sub_cancel_left 8 i)

/-- A flash that is programmed in chunks of a multiple of `ideal` bytes. -/
structure FlashServices (h : Handler Services (σ × T)) (flash : σ → Mem) (unlocked : σ → Prop) (ideal : Nat) :
    Prop where
  locals : ∀ s t, ∃ m t', h .indeterminate (s, t) = .ok (m, s, t')
  info : ∀ s t, Served h ⟨ecCmdFlashInfo, 1, [], sizeofFlashInfo1⟩ s t fun data s' =>
    (∀ m : Mem, (m.overlay data).le32 16 = ideal) ∧ Spared flash unlocked s s'
  read : ∀ s t offset n, offset + n ≤ imageSize.toNat → n ≤ gEcMaxResponse →
    Served h ⟨ecCmdFlashRead, 0, offsetSize offset n, n⟩ s t fun data s' =>
      data = ((flash s).drop offset).toList n ∧ Spared flash unlocked s s'
  write : ∀ s t offset data, unlocked s → offset + data.length ≤ imageSize.toNat → data.length ≤ writeStep ideal →
    Served h ⟨ecCmdFlashWrite, 1, offsetSize offset data.length ++ data, 0⟩ s t fun _ s' =>
      flash s' = (flash s).program offset (Mem.ofList data) data.length ∧ unlocked s'
  erase : ∀ s t (offset size : Nat), unlocked s → Sectors offset size →
    Prog.Ends h (flashErase offset size) (s, t) fun rv e =>
      0 ≤ rv ∧ flash e.1 = (flash s).erase offset size ∧ unlocked e.1
  ideal_pos : 0 < writeStep ideal
  ideal_fits : sizeofFlashWrite + writeStep ideal ≤ gEcMaxRequest

section

variable {h : Handler Services (σ × T)} {flash : σ → Mem} {unlocked : σ → Prop} {ideal : Nat} {s : σ} {t : T}
  {R : α → σ × T → Prop}

theorem ends_served {command version insize : Nat} {outdata : List UInt8} {Q : List UInt8 → σ → Prop}
    {f : Reply → Prog Services α} (hc : Served h ⟨command, version, outdata, insize⟩ s t Q)
    (hf : ∀ r s', 0 ≤ r.rv → Q (r.data.take insize) s' → Prog.Ends h (f r) (s', t) R) :
    Prog.Ends h (sendCommand command version outdata insize >>= f) (s, t) R := by
  obtain ⟨r, s', hop, hrv, hQ⟩ := hc
  exact Prog.Ends.perform_bind hop (hf r s' hrv hQ)

/-! ### Writing -/

theorem ends_writeRound (hflash : FlashServices h flash unlocked ideal) {m : Mem} {offset size start i : Nat}
    {buffer commandBuffer : Buf} (hinside : offset + size ≤ imageSize.toNat) (hbuffer : start + size ≤ buffer.size)
    (hcommand : commandBuffer.size = gEcMaxRequest) (hi : i < size)
    (hs : flash s = m.program offset (buffer.bytes.drop start) i) (hunlocked : unlocked s) :
    Prog.Ends h (flashWriteRound offset size (writeStep ideal) buffer start (i, commandBuffer))
      (s, t) fun r e => ∃ next : Buf, r = .inr (((i + writeStep ideal : Nat) : Int), next) ∧
        next.size = gEcMaxRequest ∧ unlocked e.1 ∧
        flash e.1 = m.program offset (buffer.bytes.drop start) (min (i + writeStep ideal) size) := by
  have hbound : offset + size ≤ 524288 := hinside
  have hfits := hflash.ideal_fits
  have hroom : sizeofFlashWrite + writeStep ideal ≤ 248 := hfits
  have hchunk := @writeChunk_eq size i (writeStep ideal) (by omega) (by omega)
  have haddress : toUint32 ((offset : Int) + i) = offset + i := by
    rw [← Int.natCast_add, toUint32_of_lt (by omega) (by omega), Int.toNat_natCast]
  obtain ⟨next, hnext, hround⟩ := @writeRound_eq offset size (writeStep ideal) start i buffer commandBuffer (by omega)
    (by omega) (by omega) hcommand (by omega) ⟨by omega, by omega⟩
  rw [hround, writeCommand, haddress]
  generalize writeChunk size (writeStep ideal) i = n at hchunk
  have hn : n = min (size - i) (writeStep ideal) := by omega
  have hdata : (((buffer.bytes.drop start).drop i).toList n).length = n := Mem.toList_length _ _
  have haccepts := hflash.write s t (offset + i) (((buffer.bytes.drop start).drop i).toList n) hunlocked
    (by rw [hdata]; omega) (by rw [hdata]; omega)
  rw [hdata] at haccepts
  refine ends_served haccepts fun r s' hrv hQ => ?_
  obtain ⟨hprogrammed, hunlocked'⟩ := hQ
  rw [if_neg (Int.not_lt.2 hrv), addInt_countable (by unfold Countable; omega), pure_bind]
  refine .pure ⟨next, rfl, hnext, hunlocked', ?_⟩
  rw [hprogrammed, hs, Mem.program_congr _ _ fun k hk => Mem.ofList_toList _ hk, Mem.program_program,
    show i + n = min (i + writeStep ideal) size by omega]

theorem ends_flashWrite (hflash : FlashServices h flash unlocked ideal)
    {fuel offset size start : Nat} {buffer : Buf} (hinside : offset + size ≤ imageSize.toNat)
    (hbuffer : start + size ≤ buffer.size) (hfuel : size < fuel) (hunlocked : unlocked s) :
    Prog.Ends h (flashWrite fuel offset size buffer start) (s, t) fun rv e =>
      rv = 0 ∧ flash e.1 = (flash s).program offset (buffer.bytes.drop start) size ∧ unlocked e.1 := by
  unfold flashWrite
  obtain ⟨flashInfo, t₁, hlocal⟩ := hflash.locals s t
  refine Prog.Ends.perform_bind hlocal ?_
  refine ends_served (hflash.info s t₁) fun r s₁ hrv hQ => ?_
  obtain ⟨hideal, hspared⟩ := hQ
  have hpos := hflash.ideal_pos
  have hinto : (r.into flashInfo sizeofFlashInfo1).le32 16 = ideal := hideal flashInfo
  have hnonzero : ideal ≠ 0 := fun hzero => by
    rw [hzero, writeStep, Nat.div_zero] at hpos
    omega
  simp only [if_neg (Int.not_lt.2 hrv), hinto, if_neg hnonzero]
  -- `i` counts the bytes asked for so far; the last round may ask for fewer than it counts
  refine Prog.Ends.loop (I := fun (x : Int × Buf) e => ∃ i : Nat, x.1 = i ∧ x.2.size = gEcMaxRequest ∧ unlocked e.1 ∧
    flash e.1 = (flash s).program offset (buffer.bytes.drop start) (min i size)) (μ := fun x => size - x.1.toNat) ?_
    fuel _ _ ⟨0, rfl, rfl, hspared.unlocked hunlocked, by simpa using hspared.flash⟩ (by simpa using hfuel)
  rintro ⟨_, commandBuffer⟩ ⟨s₂, t₂⟩ ⟨i, rfl, hcommand, hunlocked₂, hflash₂⟩
  by_cases hi : i < size
  · rw [Nat.min_eq_left (Nat.le_of_lt hi)] at hflash₂
    refine (ends_writeRound hflash hinside hbuffer hcommand hi hflash₂ hunlocked₂).mono ?_
    rintro _ e ⟨next, rfl, hnext, hunlocked₃, hflash₃⟩
    refine ⟨⟨i + writeStep ideal, rfl, hnext, hunlocked₃, hflash₃⟩, ?_⟩
    simp only [Int.toNat_natCast]
    omega
  · rw [flashWriteRound]
    simp only [show ¬((i : Int) < size) by omega, if_false]
    refine .pure ⟨rfl, ?_, hunlocked₂⟩
    rw [hflash₂, Nat.min_eq_right (by omega)]

/-! ### Reading -/

theorem ends_readRound (hflash : FlashServices h flash unlocked ideal) {offset size start i len : Nat}
    {buf verify : Mem} (hinside : offset + size ≤ imageSize.toNat) (hbuffer : start + size ≤ len) (hi : i < size) :
    Prog.Ends h
      (flashReadRound offset size start (i, buf, ⟨verify.copy start ((flash s).drop offset) i, len⟩)) (s, t) fun r e =>
        Spared flash unlocked s e.1 ∧ e.2 = t ∧ ∃ next : Mem, r = .inr (((i + 248 : Nat) : Int), next,
          ⟨verify.copy start ((flash s).drop offset) (min (i + 248) size), len⟩) := by
  have hbound : offset + size ≤ 524288 := hinside
  obtain ⟨n, hn⟩ : ∃ n, n = min (size - i) 248 := ⟨_, rfl⟩
  have hchunk : ((gEcMaxResponse : Nat) : Int) = 248 := by decide
  have hmin : min ((size : Int) - i) 248 = n := by omega
  unfold flashReadRound
  simp only [show (i : Int) < size by omega, if_true, hchunk, hmin, Int.toNat_natCast]
  rw [addInt_of_le (by omega) (by omega), pure_bind, toUint32_of_lt (by omega) (by omega),
    toUint32_of_lt (by omega) (by omega), Int.toNat_natCast, ← Int.natCast_add, Int.toNat_natCast]
  have hread := hflash.read s t (offset + i) n (by omega) (by rw [gEcMaxResponse_eq]; omega)
  refine ends_served hread fun r s' hrv hQ => ?_
  obtain ⟨hdata, hspared⟩ := hQ
  rw [if_neg (Int.not_lt.2 hrv)]
  set chunk := r.into buf n with hinto
  rw [Buf.copyIn_of_le _ (by simp only; omega), pure_bind, addInt_of_le (by omega) (by omega), pure_bind]
  -- the chunk that was read continues what is in the buffer
  have hreply : ∀ j < n, chunk j = (((flash s).drop offset).drop i) j := by
    intro j hj
    rw [hinto, Reply.into, hdata, Mem.overlay_lt _ (by simpa using hj),
      Mem.ofList_toList _ hj, Mem.drop_apply, Mem.drop_apply, Mem.drop_apply, Nat.add_assoc]
  refine .pure ⟨hspared, rfl, chunk, ?_⟩
  rw [Mem.copy_congr hreply, Mem.copy_copy, show i + n = min (i + 248) size by omega,
    show (i : Int) + 248 = ((i + 248 : Nat) : Int) by omega]

theorem ends_flashRead (hflash : FlashServices h flash unlocked ideal) {offset size start : Nat} {verify : Buf}
    (hinside : offset + size ≤ imageSize.toNat) (hbuffer : start + size ≤ verify.size) :
    Prog.Ends h (flashRead offset size verify start) (s, t) fun r e =>
      r = (0, ⟨verify.bytes.copy start ((flash s).drop offset) size, verify.size⟩) ∧
        Spared flash unlocked s e.1 ∧ e.2 = t := by
  unfold flashRead
  refine Prog.Ends.loop (I := fun (x : Int × Mem × Buf) e => Spared flash unlocked s e.1 ∧ e.2 = t ∧ ∃ i : Nat,
    x.1 = i ∧ x.2.2 = ⟨verify.bytes.copy start ((flash s).drop offset) (min i size), verify.size⟩)
    (μ := fun x => size - x.1.toNat) ?_ _ _ _ ⟨⟨rfl, id⟩, rfl, 0, rfl, by simp⟩ (by simp)
  rintro ⟨_, buf, _⟩ ⟨s₁, _⟩ ⟨hspared, rfl, i, rfl, rfl⟩
  simp only at hspared
  rw [← hspared.flash]
  by_cases hi : i < size
  · rw [Nat.min_eq_left (Nat.le_of_lt hi)]
    refine (ends_readRound hflash hinside hbuffer hi).mono ?_
    rintro _ e ⟨hspared', hhost, next, rfl⟩
    refine ⟨⟨hspared.trans hspared', hhost, i + 248, rfl, rfl⟩, ?_⟩
    simp only [Int.toNat_natCast]
    omega
  · unfold flashReadRound
    simp only [show ¬((i : Int) < size) by omega, if_false]
    refine .pure ⟨?_, hspared, rfl⟩
    rw [Nat.min_eq_right (by omega)]

/-! ### The regions -/

/-- Some of the regions with these indices has address `a`. -/
def Covered (map : FlashMap) (ks : List Nat) (a : Nat) : Prop :=
  ∃ k ∈ ks, ∃ r ∈ map.regions[k]?, r.base ≤ a ∧ a < r.base + r.size

instance (map : FlashMap) (ks : List Nat) (a : Nat) : Decidable (Covered map ks a) :=
  inferInstanceAs (Decidable (∃ k ∈ ks, ∃ r ∈ map.regions[k]?, r.base ≤ a ∧ a < r.base + r.size))

/-- A flash with the image in some regions. -/
def flashed (image : Mem) (map : FlashMap) (ks : List Nat) (m : Mem) : Mem :=
  fun a => if Covered map ks a then image a else m a

theorem covered_cons {map : FlashMap} {k a : Nat} {ks : List Nat} {r : FlashRegion}
    (hr : map.regions[k]? = some r) :
    Covered map (k :: ks) a ↔ (r.base ≤ a ∧ a < r.base + r.size) ∨ Covered map ks a := by
  rw [Covered, List.exists_mem_cons_iff, hr]
  simp only [Option.mem_some_iff, exists_eq_left', Covered]

theorem flashed_cons {image m : Mem} {map : FlashMap} {k : Nat} {ks : List Nat} {r : FlashRegion}
    (hr : map.regions[k]? = some r) :
    flashed image map ks (m.copy r.base (image.drop r.base) r.size) = flashed image map (k :: ks) m := by
  funext a
  unfold flashed
  by_cases hrest : Covered map ks a
  · rw [if_pos hrest, if_pos ((covered_cons hr).2 (.inr hrest))]
  · rw [if_neg hrest]
    by_cases hin : r.base ≤ a ∧ a < r.base + r.size
    · rw [if_pos ((covered_cons hr).2 (.inl hin))]
      obtain ⟨i, rfl⟩ := Nat.exists_eq_add_of_le hin.1
      rw [Mem.copy_in _ _ (by omega), Mem.drop_apply]
    · rw [if_neg (fun h => ((covered_cons hr).1 h).elim hin hrest), Mem.copy_out _ _ (by omega)]

theorem sameMem_eq_true {a b : Mem} {n : Nat} (h : ∀ i < n, a i = b i) : sameMem a b n = true :=
  List.all_eq_true.2 fun i hi => beq_iff_eq.2 (h i (List.mem_range.1 hi))

theorem succeeds_flashRegion (hflash : FlashServices h flash unlocked ideal) {fuel : Nat} {image : Mem}
    {region : FlashRegion} {verify : Buf} (hsectors : Sectors region.base region.size)
    (hverify : verify.size = imageSize.toNat) (hfuel : region.size < fuel) (hunlocked : unlocked s) :
    Attempt.Succeeds h (flashRegion fuel image region verify) (s, t) fun verify' e =>
      verify'.size = imageSize.toNat ∧
        flash e.1 = (flash s).copy region.base (image.drop region.base) region.size ∧ unlocked e.1 := by
  have hinside := hsectors.2.2
  unfold flashRegion
  refine (Attempt.succeeds_lift (hflash.erase s t region.base region.size hunlocked hsectors)).bind ?_
  rintro rv ⟨s₁, t₁⟩ ⟨hrv, hflash₁, hunlocked₁⟩
  refine Attempt.Succeeds.leaveIf_bind (Int.not_lt.2 hrv) ?_
  refine (Attempt.succeeds_lift (ends_flashWrite hflash hinside hinside hfuel hunlocked₁)).bind ?_
  rintro _ ⟨s₂, t₂⟩ ⟨rfl, hflash₂, hunlocked₂⟩
  refine Attempt.Succeeds.leaveIf_bind (by decide) ?_
  refine (Attempt.succeeds_lift (ends_flashRead hflash hinside (hverify ▸ hinside))).bind ?_
  rintro _ ⟨s₃, t₃⟩ ⟨rfl, hspared, -⟩
  -- what was programmed after the erase is what was meant, so the comparison finds no difference
  rw [hflash₁, Mem.program_erase] at hflash₂
  have hsame : sameMem ((verify.bytes.copy region.base ((flash s₂).drop region.base) region.size).drop region.base)
      (image.drop region.base) region.size = true := by
    refine sameMem_eq_true fun i hi => ?_
    rw [Mem.drop_apply, Mem.copy_in _ _ hi, hflash₂, Mem.drop_apply, Mem.copy_in _ _ hi]
  refine Attempt.Succeeds.leaveIf_bind (by decide) ?_
  refine Attempt.Succeeds.leaveIf_bind (by rw [hsame]; decide) ?_
  exact Attempt.succeeds_pure ⟨hverify, hspared.flash.trans hflash₂, hspared.unlocked hunlocked₂⟩

theorem succeeds_flashAll (hflash : FlashServices h flash unlocked ideal) {fuel : Nat} {image : Mem}
    {map : FlashMap} {ks : List Nat} {verify : Buf} (hks : ∀ k ∈ ks, k < map.regions.length)
    (hregions : ∀ r ∈ map.regions, Sectors r.base r.size ∧ r.size < fuel) (hverify : verify.size = imageSize.toNat)
    (hunlocked : unlocked s) :
    Attempt.Succeeds h (flashAll fuel image map ks verify) (s, t) fun _ e =>
      flash e.1 = flashed image map ks (flash s) := by
  induction ks generalizing verify s t with
  | nil =>
    refine Attempt.succeeds_pure (funext fun a => ?_)
    rw [flashed, if_neg (by simp [Covered])]
  | cons k ks ih =>
    rw [List.forall_mem_cons] at hks
    obtain ⟨r, hr⟩ : ∃ r, map.regions[k]? = some r := ⟨_, List.getElem?_eq_getElem hks.1⟩
    obtain ⟨hsectors, hsize⟩ := hregions r (List.mem_of_getElem? hr)
    rw [flashAll, hr]
    refine (succeeds_flashRegion hflash hsectors hverify hsize hunlocked).bind ?_
    rintro verify' ⟨s₁, t₁⟩ ⟨hverify', hflash₁, hunlocked₁⟩
    refine (ih hks.2 hverify' hunlocked₁).mono fun _ e he => ?_
    rw [he, hflash₁, flashed_cons hr]

theorem shippedMaps_sizes : ∀ map ∈ shippedMaps, ∀ r ∈ map.regions, r.size ≤ 0x40000 := by decide

theorem shippedMaps_sectors : ∀ map ∈ shippedMaps, ∀ r ∈ map.regions, Sectors r.base r.size := by decide

theorem succeeds_flashRegions (hflash : FlashServices h flash unlocked ideal) {fuel : Nat} {image : Mem}
    {map : FlashMap} (hmap : map ∈ shippedMaps) (a : List String) {verify : Buf}
    (hverify : verify.size = imageSize.toNat) (hfuel : 0x40000 < fuel) (hunlocked : unlocked s) :
    Attempt.Succeeds h (flashRegions fuel image map (regionMask (reflashArgs {} (a.drop 1)) map) verify) (s, t)
      fun _ e => flash e.1 = flashed image map (setBits (regionMask (reflashArgs {} (a.drop 1)) map)) (flash s) := by
  rw [flashRegions_eq]
  refine succeeds_flashAll hflash (fun k hk => ?_) (fun r hr => ?_) hverify hunlocked
  · obtain ⟨r, hr, -⟩ := (getLsbD_regionMask (shippedMaps_length map hmap) a k).1 (mem_setBits.1 hk)
    exact (List.getElem?_eq_some_iff.1 hr).1
  · have hsize := shippedMaps_sizes map hmap r hr
    exact ⟨shippedMaps_sectors map hmap r hr, by omega⟩

end

end FrameworkHacks.ECTool
