import FrameworkHacks.Null.Commands
import FrameworkHacks.ECTool.FlashServices

/-!
# Reflashing the simulated EC

Services with the simulator behind `SendCommand` (`Simulates`) are services with a flash behind them, one that is
never locked (`Simulates.flashServices`). So the region loop ends without an error and puts the image into the
selected regions and nothing anywhere else (`flashRegions_null`). Every other service of the tool may answer as
it likes.
-/

namespace FrameworkHacks.Null

open Effects ECTool

/-! ### The simulator behind the services -/

/-- The sizes fit an `UINTN`. -/
def Small (c : HostCommand) : Prop := c.command < 2 ^ 64 ∧ c.outdata.length < 2 ^ 64 ∧ c.insize < 2 ^ 64

theorem small {command version insize : Nat} {outdata : List UInt8} (hcommand : command < 2 ^ 64)
    (houtdata : outdata.length < 2 ^ 64) (hinsize : insize < 2 ^ 64) : Small ⟨command, version, outdata, insize⟩ :=
  ⟨hcommand, houtdata, hinsize⟩

/-- What the simulator answers is what a command returns, the response as far as there is room for it. -/
structure Simulates {T : Type} (h : Handler Services (NullEc × T)) : Prop where
  locals : ∀ ec t, ∃ m t', h .indeterminate (ec, t) = .ok (m, ec, t')
  command : ∀ {c : HostCommand}, Small c → ∀ {ec ec' : NullEc} (t : T) {rv : Int} {response : List UInt8},
    answer ec c.command c.outdata c.insize = .ok ⟨rv, response, ec'⟩ → -2147483648 ≤ rv ∧ rv < 2147483648 →
    ∃ data, h (.sendCommand c) (ec, t) = .ok (⟨rv, data⟩, ec', t) ∧
      (min c.insize rv.toNat = response.length → data.take c.insize = response)

theorem offsetSize_length (offset size : Nat) : 8 ≤ (offsetSize offset size).length := Nat.le_refl 8

theorem offsetSize_small (offset size : Nat) : (offsetSize offset size).length < 2 ^ 64 :=
  show 8 < 2 ^ 64 by decide

theorem params_offsetSize (offset size : Nat) (ho : offset < 4294967296) (hs : size < 4294967296) :
    (Mem.ofList (offsetSize offset size)).le32 0 = offset ∧
      (Mem.ofList (offsetSize offset size)).le32 4 = size := by
  have h := le32_offsetSize [] [] ho hs
  rwa [List.append_nil] at h

namespace Simulates

variable {T : Type} {h : Handler Services (NullEc × T)} {ec ec' : NullEc} {t : T}

theorem served (hsim : Simulates h) {c : HostCommand} (hc : Small c) {rv : Int} {response : List UInt8}
    {Q : List UInt8 → NullEc → Prop} (hanswer : answer ec c.command c.outdata c.insize = .ok ⟨rv, response, ec'⟩)
    (hrv : 0 ≤ rv ∧ rv < 2147483648) (hlength : min c.insize rv.toNat = response.length) (hQ : Q response ec') :
    Served h c ec t Q := by
  obtain ⟨data, hop, hdata⟩ := hsim.command hc t hanswer ⟨by omega, hrv.2⟩
  exact ⟨_, ec', hop, hrv.1, by rwa [hdata hlength]⟩

/-- The simulator doesn't know `GET_CMD_VERSIONS`, so the erase is a synchronous one. -/
theorem ends_flashErase (hsim : Simulates h) {offset size : Nat} (hsectors : Sectors offset size) :
    Prog.Ends h (flashErase offset size) (ec, t) fun rv e =>
      0 ≤ rv ∧ e.1.gMutableFlash = ec.gMutableFlash.erase offset size ∧ True := by
  have hbound : offset + size ≤ 524288 := hsectors.2.2
  obtain ⟨hou, hsu⟩ := hsectors.toUint32
  obtain ⟨hoffset, hsize⟩ := params_offsetSize offset size (by omega) (by omega)
  unfold flashErase
  obtain ⟨rgv, t', hlocal⟩ := hsim.locals ec t
  refine Prog.Ends.perform_bind hlocal ?_
  obtain ⟨data, hop, -⟩ := hsim.command (c := ⟨ecCmdGetCmdVersions, 0, [UInt8.ofNat ecCmdFlashErase], 4⟩)
    (small (by decide) (by decide) (by decide)) t' answer_getCmdVersions (by decide)
  refine Prog.Ends.perform_bind hop ?_
  have hmask : eraseVersionMask ⟨-1, data⟩ rgv = 0 := rfl
  simp only [hmask, Nat.zero_testBit, hou, hsu, Bool.false_eq_true, if_false]
  have herase := @answer_flashErase ec (offsetSize offset size) 0 offset size (offsetSize_length offset size) hoffset
    hsize (by simp only [gFlashLen]; omega)
  obtain ⟨data, hop, -⟩ := hsim.command (small (by decide) (offsetSize_small offset size) (by decide)) t' herase
    (by decide)
  refine Prog.Ends.perform_bind hop ?_
  exact ⟨0, _, rfl, Int.le_refl 0, rfl, trivial⟩

/-- **The simulator is a flash** that is never locked. -/
theorem flashServices (hsim : Simulates h) : FlashServices h NullEc.gMutableFlash (fun _ => True) 240 where
  locals := hsim.locals
  info ec t := by
    refine hsim.served (small (by decide) (by decide) (by decide)) (answer_flashInfo (Nat.le_refl 24))
      (by decide) (by decide) ⟨fun m => ?_, rfl, id⟩
    rfl
  read ec t offset n hinside hn := by
    have hbound : offset + n ≤ 524288 := hinside
    have hroom : n ≤ 248 := hn
    obtain ⟨hoffset, hsize⟩ := params_offsetSize offset n (by omega) (by omega)
    have hread := @answer_flashRead ec (offsetSize offset n) n offset n (offsetSize_length offset n) hoffset hsize
      (by simp only [gFlashLen]; omega) (by omega)
    rw [Nat.min_self] at hread
    exact hsim.served (small (by decide) (offsetSize_small offset n) (by omega)) hread ⟨by omega, by omega⟩
      (by simp) ⟨rfl, rfl, id⟩
  write ec t offset data _ hinside hdata := by
    have hbound : offset + data.length ≤ 524288 := hinside
    have hroom : data.length ≤ 240 := hdata
    have hparams := @le32_offsetSize offset data.length [] data (by omega) (by omega)
    simp only [List.nil_append, List.length_nil, Nat.zero_add] at hparams
    have hlength : (offsetSize offset data.length ++ data).length = 8 + data.length := by
      rw [List.length_append]
      rfl
    have hwrite := @answer_flashWrite ec (offsetSize offset data.length ++ data) 0 offset data.length
      (Nat.le_of_eq hlength.symm) hparams.1 hparams.2 (by simp only [gFlashLen]; omega)
    rw [drop_writeParams] at hwrite
    exact hsim.served (small (by decide) (by rw [hlength]; omega) (by decide)) hwrite ⟨by omega, by omega⟩
      (Nat.zero_min _) ⟨rfl, trivial⟩
  erase ec t offset size _ hsectors := hsim.ends_flashErase hsectors
  ideal_pos := by decide
  ideal_fits := by decide

end Simulates

/-! ### The region loop -/

/-- What the services other than `SendCommand` answer, out of a state of their own. -/
abbrev Platform (T : Type) := (op : ServiceOp) → T → op.Ans × T

/-- The tool's services with the simulator for an EC. -/
def nullHandler {T : Type} (platform : Platform T) : Handler Services (NullEc × T)
  | .sendCommand c, d =>
    match answer d.1 c.command c.outdata c.insize with
    | .ok a => .ok (⟨(Int32.ofInt a.rv).toInt, a.response⟩, a.ec, d.2)
    | .error h => .error h
  | op, d => .ok ((platform op d.2).1, d.1, (platform op d.2).2)

theorem simulates_nullHandler {T : Type} (platform : Platform T) : Simulates (nullHandler platform) where
  locals ec t := ⟨_, _, rfl⟩
  command {c} _ {ec ec'} t {rv response} hanswer hrv := by
    refine ⟨response, ?_, fun hlength => List.take_of_length_le (by omega)⟩
    simp only [nullHandler, hanswer, Int32.toInt_ofInt_of_le hrv.1 hrv.2]

/-- **The region loop of `cmd_reflash` against the simulator takes no error exit and puts the image
into the regions of the mask, and nothing anywhere else.** -/
theorem flashRegions_null {T : Type} (platform : Platform T) {map : FlashMap} (hmap : map ∈ shippedMaps)
    (argv : List String) (image verify : Mem) (ec : NullEc) (t : T) {fuel : Nat} (hfuel : 0x40000 < fuel) :
    let mask := regionMask (reflashArgs {} (argv.drop 1)) map
    let selected := fun a => ∃ k r, mask.getLsbD k = true ∧ map.regions[k]? = some r ∧
      r.base ≤ a ∧ a < r.base + r.size
    ∃ ec' t', (flashRegions fuel image map mask ⟨verify, imageSize.toNat⟩).run.exec
        (nullHandler platform) (ec, t) = (.ok (.ok ()), ec', t') ∧
      ∀ a, (selected a → ec'.gMutableFlash a = image a) ∧
        (¬selected a → ec'.gMutableFlash a = ec.gMutableFlash a) := by
  intro mask selected
  have hcovered (a : Nat) : Covered map (setBits mask) a ↔ selected a := by
    simp only [Covered, selected, mem_setBits, Option.mem_def]
    exact exists_congr fun k => exists_and_left.symm
  have hends : Attempt.Succeeds (nullHandler platform) (flashRegions fuel image map mask ⟨verify, imageSize.toNat⟩)
      (ec, t) fun _ e => e.1.gMutableFlash = flashed image map (setBits mask) ec.gMutableFlash :=
    succeeds_flashRegions (simulates_nullHandler platform).flashServices hmap argv rfl hfuel trivial
  obtain ⟨_, ⟨ec', t'⟩, hexec, ⟨⟩, rfl, hflash⟩ := hends
  refine ⟨ec', t', hexec, fun a => ⟨fun ha => ?_, fun ha => ?_⟩⟩
  · rw [hflash, flashed, if_pos ((hcovered a).2 ha)]
  · rw [hflash, flashed, if_neg (mt (hcovered a).1 ha)]

/-- The RW region of a new simulator is flashed with an hx30 image; RO stays erased. -/
theorem flashRegions_null_hx30 :
    ∃ ec' t', (flashRegions 0x40001 (sampleImage "hx30_v1") ⟨"hx30", hxFlashRegions, 1⟩ 0b100#16
        ⟨fun _ => 0, imageSize.toNat⟩).run.exec
        (nullHandler fun op t => (sampleServices (fun _ => ⟨0, []⟩) op, t)) (.initial, ()) =
          (.ok (.ok ()), ec', t') ∧
      ec'.gMutableFlash 0x40001 = sampleImage "hx30_v1" 0x40001 ∧ ec'.gMutableFlash 0x20 = 0xFF := by
  obtain ⟨ec', t', hexec, hflash⟩ := flashRegions_null
    (fun op (t : Unit) => (sampleServices (fun _ => ⟨0, []⟩) op, t))
    (show ⟨"hx30", hxFlashRegions, 1⟩ ∈ shippedMaps by decide) ["reflash", "--rw", "ec.bin"]
    (sampleImage "hx30_v1") (fun _ => 0) .initial () (show 0x40000 < 0x40001 by decide)
  refine ⟨ec', t', hexec, (hflash 0x40001).1 ⟨2, ⟨"RW", 0x40000, 0x39000, 0⟩, by decide⟩,
    (hflash 0x20).2 ?_⟩
  rintro ⟨k, r, hk, hr, hin⟩
  have hbits : setBits (regionMask (reflashArgs {} (["reflash", "--rw", "ec.bin"].drop 1))
      ⟨"hx30", hxFlashRegions, 1⟩) = [2] := by decide
  have hk' := mem_setBits.2 hk
  rw [hbits] at hk'
  obtain rfl := List.mem_singleton.1 hk'
  cases hr
  exact absurd hin (by decide)

end FrameworkHacks.Null
