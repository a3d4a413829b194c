import FrameworkHacks.Null.Calls

/-!
# The simulator and its callers' buffers

For every command, state and caller, when a call keeps the contract of the protocol. `GET_VERSION`
follows a flash map in the flash, which may lead out of it. `ReadMemory` checks against
`EC_MEMMAP_SIZE` but reads an array that is one byte shorter.
-/

namespace FrameworkHacks.Null

open Effects

section

variable {ec : NullEc} {r : Request}

/-! ### The version -/

/-- The search for an area and what its header names stay inside the flash, for the flash map at
`map`. -/
structure AreaReadable (flash : Mem) (map : Nat) (name : List UInt8) : Prop where
  header : map + sizeofFmapHeader ≤ gFlashLen
  names : ∀ i, Searched flash name (map + sizeofFmapHeader) (flash.le16 (map + 54)) i →
    NameFits flash gFlashLen name (areaHeader (map + sizeofFmapHeader) i)
  string : ∀ area, getImageFlashArea (m := Id) flash map name = some area →
    flash.le32 area + versionStringLen ≤ gFlashLen

/-- If the flash holds a flash map, both version strings can be read. -/
def VersionReadable (flash : Mem) : Prop :=
  ∀ map, getImageFlashMap (m := Id) flash gFlashLen = some map →
    AreaReadable flash map (ascii "RO_FRID") ∧ AreaReadable flash map (ascii "RW_FWID")

/-- The name of an area the version is read from. -/
def IsVersionArea (name : String) : Prop := name = "RO_FRID" ∨ name = "RW_FWID"

theorem versionArea_nonzero {name : String} (h : IsVersionArea name) : ∀ c ∈ ascii name, c ≠ 0 := by
  have hnul : 0 ∉ ascii name := by rcases h with rfl | rfl <;> decide
  intro c hc h0
  rw [h0] at hc
  exact hnul hc

theorem versionArea_length {name : String} (h : IsVersionArea name) : (ascii name).length ≤ 31 := by
  rcases h with rfl | rfl <;> decide

theorem load_area {flash : Mem} {map area : Nat} {name : String} (hname : IsVersionArea name)
    (hnames : ∀ i, Searched flash (ascii name) (map + sizeofFmapHeader) (flash.le16 (map + 54)) i →
      NameFits flash gFlashLen (ascii name) (areaHeader (map + sizeofFmapHeader) i))
    (harea : getImageFlashArea (m := Id) flash map (ascii name) = some area) :
    loadLe32 (m := Prog Boot) (Buf.load ⟨flash, gFlashLen⟩) area = pure (flash.le32 area) := by
  obtain ⟨i, hi, -, rfl⟩ :=
    (findArea_eq_some (versionArea_nonzero hname) (versionArea_length hname)).1 harea
  have hfits := hnames i hi
  unfold NameFits at hfits
  exact loadLe32_of_le (by simp only []; omega)

theorem copyVersionString_of_readable {flash : Mem} {map : Nat} {name : String} (resp : Mem) (field : Nat)
    (hname : IsVersionArea name) (h : AreaReadable flash map (ascii name)) :
    ∃ resp', copyVersionString ⟨flash, gFlashLen⟩ map name resp field = pure resp' := by
  have hheader : map + 54 + 2 ≤ gFlashLen := h.header
  have hfind := findArea_of_fits (E := Boot) (versionArea_nonzero hname) (versionArea_length hname)
    ⟨flash, gFlashLen⟩ h.names
  unfold copyVersionString getImageFlashArea
  rw [loadLe16_eq, if_pos hheader, pure_bind, hfind, pure_bind]
  cases harea : findArea (m := Id) flash (ascii name) (map + sizeofFmapHeader) (flash.le16 (map + 54)) with
  | none => exact ⟨resp, rfl⟩
  | some area =>
    have hstring : flash.le32 area + versionStringLen ≤ gFlashLen := h.string area harea
    simp only []
    rw [load_area hname h.names harea, pure_bind, Buf.copyOut_of_le hstring, pure_bind]
    exact ⟨_, rfl⟩

theorem copyVersionString_fault {flash resp : Mem} {map field : Nat} {name : String}
    (hname : IsVersionArea name) (h : ¬AreaReadable flash map (ascii name)) :
    copyVersionString ⟨flash, gFlashLen⟩ map name resp field = .fault := by
  unfold copyVersionString getImageFlashArea
  rw [loadLe16_eq]
  by_cases hheader : map + 54 + 2 ≤ gFlashLen
  swap
  · rw [if_neg hheader]
    rfl
  rw [if_pos hheader, pure_bind]
  by_cases hnames : ∀ i, Searched flash (ascii name) (map + sizeofFmapHeader) (flash.le16 (map + 54)) i →
      NameFits flash gFlashLen (ascii name) (areaHeader (map + sizeofFmapHeader) i)
  swap
  · simp only [not_forall] at hnames
    obtain ⟨i, hi, hout⟩ := hnames
    rw [findArea_of_not_fits (versionArea_nonzero hname) (versionArea_length hname) ⟨flash, gFlashLen⟩ hi hout]
    rfl
  rw [findArea_of_fits (versionArea_nonzero hname) (versionArea_length hname) ⟨flash, gFlashLen⟩ hnames,
    pure_bind]
  cases harea : findArea (m := Id) flash (ascii name) (map + sizeofFmapHeader) (flash.le16 (map + 54)) with
  | none =>
    refine absurd ⟨hheader, hnames, fun area hfound => ?_⟩ h
    have hnone : findArea (m := Id) flash (ascii name) (map + sizeofFmapHeader)
      (flash.le16 (map + 54)) = some area := hfound
    rw [harea] at hnone
    cases hnone
  | some area =>
    simp only []
    rw [load_area hname hnames harea, pure_bind, Buf.copyOut]
    by_cases hstring : flash.le32 area + versionStringLen ≤ gFlashLen
    · refine absurd ⟨hheader, hnames, fun found hfound => ?_⟩ h
      have hsame : findArea (m := Id) flash (ascii name) (map + sizeofFmapHeader)
        (flash.le16 (map + 54)) = some found := hfound
      rw [harea] at hsame
      cases hsame
      exact hstring
    · rw [if_neg hstring]
      rfl

/-- Reading both strings. -/
def versionStrings (flash : Mem) (map : Nat) (resp : Mem) : Prog Boot Mem := do
  let resp ← copyVersionString ⟨flash, gFlashLen⟩ map "RO_FRID" resp 0
  copyVersionString ⟨flash, gFlashLen⟩ map "RW_FWID" resp versionStringLen

theorem versionStrings_of_readable {flash : Mem} {map : Nat} (resp : Mem)
    (h : AreaReadable flash map (ascii "RO_FRID") ∧ AreaReadable flash map (ascii "RW_FWID")) :
    ∃ resp', versionStrings flash map resp = pure resp' := by
  obtain ⟨first, hfirst⟩ := copyVersionString_of_readable resp 0 (.inl rfl) h.1
  obtain ⟨second, hsecond⟩ := copyVersionString_of_readable first versionStringLen (.inr rfl) h.2
  exact ⟨second, by rw [versionStrings, hfirst, pure_bind, hsecond]⟩

theorem versionStrings_fault {flash resp : Mem} {map : Nat}
    (h : ¬(AreaReadable flash map (ascii "RO_FRID") ∧ AreaReadable flash map (ascii "RW_FWID"))) :
    versionStrings flash map resp = .fault := by
  rw [versionStrings]
  by_cases hro : AreaReadable flash map (ascii "RO_FRID")
  · obtain ⟨first, hfirst⟩ := copyVersionString_of_readable resp 0 (.inl rfl) hro
    rw [hfirst, pure_bind, copyVersionString_fault (.inr rfl) fun hrw => h ⟨hro, hrw⟩]
  · rw [copyVersionString_fault (.inl rfl) hro]
    rfl

theorem call_getVersion (ec : NullEc) (h : r.command = ecCmdGetVersion) :
    ecSendCommandNullLpc ec r.command r.outdata r.insize.toNat =
      (match getImageFlashMap (m := Id) ec.gMutableFlash gFlashLen with
        | none => pure ec.versionResp
        | some map => versionStrings ec.gMutableFlash map ec.versionResp) >>= fun resp =>
      copyToResponse r.insize.toNat ⟨resp, sizeofGetVersion⟩ 0 sizeofGetVersion >>= fun response =>
      pure ⟨sizeofGetVersion, response, { ec with versionResp := resp }⟩ := by
  have hcall : ecSendCommandNullLpc ec r.command r.outdata r.insize.toNat =
      implGetVersion ec r.params r.insize.toNat := by
    rw [h]
    rfl
  have hmap : getImageFlashMap (m := Prog Boot) ec.flash.load gFlashLen =
      pure (getImageFlashMap (m := Id) ec.gMutableFlash gFlashLen) :=
    getImageFlashMap_of_le (b := ec.flash) (Nat.le_refl gFlashLen)
  rw [hcall, implGetVersion, hmap, pure_bind]
  cases getImageFlashMap (m := Id) ec.gMutableFlash gFlashLen with
  | none => rfl
  | some map =>
    simp only [versionStrings, bind_assoc]
    rfl

theorem copyVersion_eq {resp : Mem} {insize : Nat} :
    copyToResponse insize ⟨resp, sizeofGetVersion⟩ 0 sizeofGetVersion =
      if sizeofGetVersion ≤ insize then pure (resp.toList sizeofGetVersion) else .fault := by
  by_cases hfits : sizeofGetVersion ≤ insize
  · rw [if_pos hfits, copyToResponse_of_le (by decide) hfits (Nat.le_refl _), Mem.drop_zero]
  · rw [if_neg hfits, copyToResponse_of_not fun hcopy => hfits hcopy.1]

theorem contract_getVersion (h : r.command = ecCmdGetVersion) :
    r.KeepsContract ec ↔ VersionReadable ec.gMutableFlash ∧ sizeofGetVersion ≤ r.insize.toNat := by
  have hcall := call_getVersion ec h
  have hrest : ∀ resp, ecSendCommandNullLpc ec r.command r.outdata r.insize.toNat =
      copyToResponse r.insize.toNat ⟨resp, sizeofGetVersion⟩ 0 sizeofGetVersion >>= (fun response =>
        pure ⟨sizeofGetVersion, response, { ec with versionResp := resp }⟩) →
      (r.KeepsContract ec ↔ sizeofGetVersion ≤ r.insize.toNat) := by
    intro resp hresp
    rw [copyVersion_eq] at hresp
    by_cases hfits : sizeofGetVersion ≤ r.insize.toNat
    · rw [if_pos hfits, pure_bind] at hresp
      refine iff_of_true ⟨_, reply_of_pure hresp, ?_, .inr (Int.ofNat_le.2 hfits)⟩ hfits
      rwa [Mem.toList_length]
    · rw [if_neg hfits] at hresp
      exact iff_of_false (not_keepsContract (reply_of_fault hresp)) hfits
  cases hmap : getImageFlashMap (m := Id) ec.gMutableFlash gFlashLen with
  | none =>
    simp only [hmap, pure_bind] at hcall
    rw [hrest _ hcall]
    exact (and_iff_right fun map hsome => by rw [hmap] at hsome; cases hsome).symm
  | some map =>
    simp only [hmap] at hcall
    have hreadable : VersionReadable ec.gMutableFlash ↔
        AreaReadable ec.gMutableFlash map (ascii "RO_FRID") ∧
          AreaReadable ec.gMutableFlash map (ascii "RW_FWID") := by
      refine ⟨fun hall => hall map hmap, fun hboth map' hmap' => ?_⟩
      rw [hmap] at hmap'
      cases hmap'
      exact hboth
    rw [hreadable]
    by_cases hboth : AreaReadable ec.gMutableFlash map (ascii "RO_FRID") ∧
        AreaReadable ec.gMutableFlash map (ascii "RW_FWID")
    · obtain ⟨resp, hresp⟩ := versionStrings_of_readable ec.versionResp hboth
      rw [hresp, pure_bind] at hcall
      rw [hrest _ hcall]
      exact (and_iff_right hboth).symm
    · rw [versionStrings_fault hboth] at hcall
      exact iff_of_false (not_keepsContract (reply_of_fault hcall)) fun hand => hboth hand.1

/-! ### Every command -/

/-- When a call keeps the contract. -/
structure Request.Honoured (ec : NullEc) (r : Request) : Prop where
  buildInfo : r.command = ecCmdGetBuildInfo →
    20 ≤ r.insize.toNat ∧ r.insize.toNat < 0x8000000000000000
  version : r.command = ecCmdGetVersion →
    VersionReadable ec.gMutableFlash ∧ sizeofGetVersion ≤ r.insize.toNat
  flashInfo : r.command = ecCmdFlashInfo → 24 ≤ r.insize.toNat
  flashRead : r.command = ecCmdFlashRead → r.ReadFits
  flashWrite : r.command = ecCmdFlashWrite → r.WriteFits ∧ r.size ≤ r.insize.toNat
  flashErase : r.command = ecCmdFlashErase → r.EraseFits
  consoleRead : r.command = ecCmdConsoleRead →
    staticConsoleLogs[ec.gConsoleCount]? = none ∨ 0 < r.outdata.length
  flashLock : r.command = 0x3E01 → 0 < r.outdata.length

theorem keepsContract_iff_honoured : r.KeepsContract ec ↔ r.Honoured ec := by
  constructor
  · intro h
    exact ⟨fun hc => (contract_buildInfo hc).1 h, fun hc => (contract_getVersion hc).1 h,
      fun hc => (contract_flashInfo hc).1 h, fun hc => (contract_flashRead hc).1 h,
      fun hc => (contract_flashWrite hc).1 h, fun hc => (contract_flashErase hc).1 h,
      fun hc => (contract_consoleRead hc).1 h, fun hc => (contract_flashLock hc).1 h⟩
  · intro h
    by_cases hbuild : r.command = ecCmdGetBuildInfo
    · exact (contract_buildInfo hbuild).2 (h.buildInfo hbuild)
    by_cases hversion : r.command = ecCmdGetVersion
    · exact (contract_getVersion hversion).2 (h.version hversion)
    by_cases hinfo : r.command = ecCmdFlashInfo
    · exact (contract_flashInfo hinfo).2 (h.flashInfo hinfo)
    by_cases hread : r.command = ecCmdFlashRead
    · exact (contract_flashRead hread).2 (h.flashRead hread)
    by_cases hwrite : r.command = ecCmdFlashWrite
    · exact (contract_flashWrite hwrite).2 (h.flashWrite hwrite)
    by_cases herase : r.command = ecCmdFlashErase
    · exact (contract_flashErase herase).2 (h.flashErase herase)
    by_cases hsnapshot : r.command = ecCmdConsoleSnapshot
    · exact contract_consoleSnapshot hsnapshot
    by_cases hconsole : r.command = ecCmdConsoleRead
    · exact (contract_consoleRead hconsole).2 (h.consoleRead hconsole)
    by_cases hlock : r.command = 0x3E01
    · exact (contract_flashLock hlock).2 (h.flashLock hlock)
    by_cases hstat : r.command = 0x3EFF
    · exact contract_value (Int.le_refl 0) (by rw [hstat]; rfl)
    · refine @contract_value _ _ (-EcStatus.invalidCommand.code) ec (by decide) ?_
      rw [ecSendCommandNullLpc, if_neg hbuild, if_neg hversion, if_neg hinfo, if_neg hread,
        if_neg hwrite, if_neg herase, if_neg hsnapshot, if_neg hconsole, if_neg hlock, if_neg hstat]

end

/-! ### Mapped memory -/

/-- The call reads only bytes of `ECMEM_BIN`. -/
def ReadsExisting (offset length : UInt64) : Prop := ∃ r, ecReadMemoryNullLpc offset length = pure r

set_option maxRecDepth 2000 in
theorem ecmemBin_length : ecmemBin.length = 254 := rfl

set_option maxRecDepth 2000 in
theorem ecmemBin_last : Mem.ofList ecmemBin 253 = 0 := rfl

theorem loadEcmem_of_lt {off : Nat} (h : off < 254) :
    loadEcmem off = pure (Mem.ofList ecmemBin off) := by
  rw [loadEcmem, if_pos (Int.natCast_nonneg off), Int.toNat_natCast]
  exact Buf.load_of_lt (b := ecmemBinBuf) (by rw [ecmemBinBuf, ecmemBin_length]; exact h)

/-- The memory dump ends in a NUL, so a string that begins in it ends in it. -/
theorem readString_of_lt {off fuel : Nat} {stored : List UInt8} (hoff : off < 254)
    (hfuel : 254 < fuel + off) :
    ∃ r, Prog.loop readStringRound fuel ((off : Int), stored) = pure r := by
  induction fuel generalizing off stored with
  | zero => omega
  | succ fuel ih =>
    have hsize : (off : Int) < (ecMemmapSize : Nat) := by
      simp only [ecMemmapSize]
      omega
    rw [Prog.loop_succ, readStringRound, if_pos hsize, loadEcmem_of_lt hoff, pure_bind]
    by_cases hnul : Mem.ofList ecmemBin off = 0
    · simp only [if_pos hnul, pure_bind]
      exact ⟨_, rfl⟩
    · simp only [if_neg hnul, pure_bind]
      have hlast : off ≠ 253 := by
        rintro rfl
        exact hnul ecmemBin_last
      rw [show (off : Int) + 1 = ((off + 1 : Nat) : Int) from rfl]
      exact ih (by omega) (by omega)

/-- A string is read from inside the array, or its reading ends where it begins. -/
theorem readString_iff {off : Nat} (hoff : off ≤ 255) :
    (∃ r, Prog.loop readStringRound 256 ((off : Int), []) = pure r) ↔ off ≠ 254 := by
  by_cases hend : off = 255
  · rw [hend]
    exact iff_of_true ⟨_, rfl⟩ (by decide)
  by_cases hlast : off = 254
  · have hload : loadEcmem (254 : Nat) = .fault := by
      rw [loadEcmem, if_pos (by decide), Buf.load, if_neg]
      rw [ecmemBinBuf, ecmemBin_length]
      decide
    rw [hlast, Prog.loop_succ, readStringRound]
    simp only []
    rw [if_pos (by decide), hload]
    refine iff_of_false (fun h => ?_) fun h => h rfl
    obtain ⟨r, hr⟩ := h
    cases hr
  · exact iff_of_true (readString_of_lt (by omega) (by omega)) hlast

/-- The bytes that are copied are all in the array, if the sum that was checked did not wrap. -/
theorem copyOut_ecmem_iff {off n : Nat} :
    (∃ r, (ecmemBinBuf.copyOut off n : Prog Boot Mem) >>= (fun m => pure (toInt n, m.toList n)) = pure r) ↔
      off + n ≤ 254 := by
  rw [Buf.copyOut]
  have hsize : ecmemBinBuf.size = 254 := ecmemBin_length
  by_cases hfits : off + n ≤ ecmemBinBuf.size
  · rw [if_pos hfits]
    exact iff_of_true ⟨_, rfl⟩ (by omega)
  · rw [if_neg hfits]
    refine iff_of_false (fun h => ?_) (by omega)
    obtain ⟨r, hr⟩ := h
    cases hr

/-- What the call reads is in the array. -/
def ReadInArray (offset length : UInt64) : Prop :=
  ecMemmapSize < (offset + length).toNat ∨ (length = 0 ∧ offset ≠ 254) ∨
    (length ≠ 0 ∧ offset.toNat + length.toNat ≤ 254)

theorem readsExisting_iff (offset length : UInt64) :
    ReadsExisting offset length ↔ ReadInArray offset length := by
  have hoffset := offset.toNat_lt
  have hlength := length.toNat_lt
  have hsum : (offset + length).toNat = (offset.toNat + length.toNat) % 2 ^ 64 := UInt64.toNat_add _ _
  unfold ReadsExisting ReadInArray ecReadMemoryNullLpc
  by_cases hguard : (offset + length).toNat > ecMemmapSize
  · rw [if_pos hguard]
    exact iff_of_true ⟨_, rfl⟩ (.inl hguard)
  rw [if_neg hguard, or_iff_right hguard]
  simp only [ecMemmapSize] at hguard
  by_cases hzero : length = 0
  · subst hzero
    rw [UInt64.toNat_zero] at hsum
    rw [if_neg (by decide), show toInt offset.toNat = offset.toNat from toInt_of_lt (by omega),
      readString_iff (by omega)]
    simp [← UInt64.toNat_inj]
  · have hpos : 0 < length.toNat := by
      by_contra hnot
      exact hzero (UInt64.toNat_inj.1 (show length.toNat = 0 by omega))
    rw [if_pos hpos, or_iff_right fun h => hzero h.1, and_iff_right hzero]
    by_cases hneg : toInt offset.toNat < 0
    · -- the sum wrapped, and what is read begins before the array
      rw [if_pos hneg]
      refine iff_of_false (fun h => ?_) fun hfits => ?_
      · obtain ⟨r, hr⟩ := h
        cases hr
      · rw [show toInt offset.toNat = offset.toNat from toInt_of_lt (by omega)] at hneg
        omega
    · rw [if_neg hneg]
      refine copyOut_ecmem_iff.trans ?_
      simp only [toInt] at hneg ⊢
      split at hneg <;> split <;> omega

/-! ### The whole -/

/-- **When the simulator keeps the protocol's contract**: for every command in every state, and for
every read of mapped memory. -/
theorem nullLpc_contract_iff (ec : NullEc) (r : Request) (offset length : UInt64) :
    (r.KeepsContract ec ↔ r.Honoured ec) ∧
      (ReadsExisting offset length ↔ ReadInArray offset length) :=
  ⟨keepsContract_iff_honoured, readsExisting_iff offset length⟩

/-- A request for the build info with room for 8 bytes, and a read of the last 5 bytes of the mapped
memory. -/
theorem nullLpc_breaks_contract :
    (¬∀ (ec : NullEc) (r : Request), r.KeepsContract ec) ∧
      ¬∀ offset length, ReadsExisting offset length := by
  constructor
  · intro h
    have hkept := (contract_buildInfo rfl).1 (h NullEc.initial ⟨ecCmdGetBuildInfo, [], 8⟩)
    exact absurd hkept.1 (by decide)
  · intro h
    have hin := (readsExisting_iff 250 5).1 (h 250 5)
    unfold ReadInArray at hin
    exact absurd hin (by decide)

end FrameworkHacks.Null
