import FrameworkHacks.ECTool.Parsing
import FrameworkHacks.Null.Tool

/-!
# The version of the simulated EC

`GET_VERSION` copies the version strings out of the flash map that the flash holds, over those it gave before
(`newVersion`). A flash that agrees with an image wherever the image's flash map and the string of its RO_FRID area
are (`BoardImage.Locates`) therefore reports the board of the image, whatever else it holds (`reportsBoard`).
-/

namespace FrameworkHacks.Null

open Effects ECTool

/-! ### The response -/

/-- The response, with the version string that an area names in the field at `field`. -/
def newString (flash : Mem) (map : Nat) (name : String) (resp : Mem) (field : Nat) : Mem :=
  match getImageFlashArea (m := Id) flash map (ascii name) with
  | none => resp
  | some area => resp.copy field (flash.drop (flash.le32 area)) versionStringLen

/-- The response, with both version strings if there is a flash map. -/
def newStrings (flash resp : Mem) : Option Nat → Mem
  | none => resp
  | some map => newString flash map "RW_FWID" (newString flash map "RO_FRID" resp 0) versionStringLen

/-- The response structure after `GET_VERSION`. -/
def newVersion (ec : NullEc) : Mem :=
  newStrings ec.gMutableFlash ec.versionResp (getImageFlashMap (m := Id) ec.gMutableFlash gFlashLen)

theorem copyVersionString_eq {flash : Mem} {map : Nat} {name : String} (resp : Mem) (field : Nat)
    (hname : IsVersionArea name) (h : AreaReadable flash map (ascii name)) :
    copyVersionString ⟨flash, gFlashLen⟩ map name resp field = pure (newString flash map name resp field) := by
  have hheader : map + 54 + 2 ≤ gFlashLen := h.header
  have hfind := findArea_of_fits (E := Boot) (versionArea_nonzero hname) (versionArea_length hname)
    ⟨flash, gFlashLen⟩ h.names
  have harea : getImageFlashArea (m := Prog Boot) (Buf.load ⟨flash, gFlashLen⟩) map (ascii name) =
      pure (getImageFlashArea (m := Id) flash map (ascii name)) := by
    rw [getImageFlashArea, loadLe16_eq, if_pos hheader, pure_bind, hfind]
    rfl
  rw [copyVersionString, harea, pure_bind, newString]
  cases hsome : getImageFlashArea (m := Id) flash map (ascii name) with
  | none => rfl
  | some area =>
    have hstring : flash.le32 area + versionStringLen ≤ gFlashLen := h.string area hsome
    simp only []
    rw [load_area hname h.names hsome, pure_bind, Buf.copyOut_of_le hstring, pure_bind]

theorem versionStrings_eq {flash : Mem} {map : Nat} (resp : Mem)
    (h : AreaReadable flash map (ascii "RO_FRID") ∧ AreaReadable flash map (ascii "RW_FWID")) :
    versionStrings flash map resp = pure (newStrings flash resp (some map)) := by
  rw [versionStrings, copyVersionString_eq _ _ (.inl rfl) h.1, pure_bind, copyVersionString_eq _ _ (.inr rfl) h.2]
  rfl

theorem answer_getVersion {ec : NullEc} (h : VersionReadable ec.gMutableFlash) (outdata : List UInt8) :
    answer ec ecCmdGetVersion outdata sizeofGetVersion =
      .ok ⟨sizeofGetVersion, (newVersion ec).toList sizeofGetVersion, { ec with versionResp := newVersion ec }⟩ := by
  obtain ⟨r, hr⟩ : ∃ r : Request, r = ⟨ecCmdGetVersion, outdata, 100⟩ := ⟨_, rfl⟩
  have hcommand : r.command = ecCmdGetVersion := by rw [hr]
  have houtdata : r.outdata = outdata := by rw [hr]
  have hinsize : r.insize.toNat = sizeofGetVersion := by
    rw [hr]
    rfl
  have hcall := call_getVersion ec hcommand
  have hanswered : ∀ resp, ecSendCommandNullLpc ec r.command r.outdata r.insize.toNat =
      copyToResponse r.insize.toNat ⟨resp, sizeofGetVersion⟩ 0 sizeofGetVersion >>= (fun response =>
        pure ⟨sizeofGetVersion, response, { ec with versionResp := resp }⟩) →
      answer ec ecCmdGetVersion outdata sizeofGetVersion =
        .ok ⟨sizeofGetVersion, resp.toList sizeofGetVersion, { ec with versionResp := resp }⟩ := by
    intro resp hresp
    rw [copyVersion_eq, if_pos (Nat.le_of_eq hinsize.symm), pure_bind] at hresp
    have hreply := reply_of_pure hresp
    rwa [Request.reply, hcommand, houtdata, hinsize] at hreply
  rw [newVersion]
  cases hmap : getImageFlashMap (m := Id) ec.gMutableFlash gFlashLen with
  | none =>
    simp only [hmap, pure_bind] at hcall
    exact hanswered _ hcall
  | some map =>
    simp only [hmap, versionStrings_eq _ (h map hmap), pure_bind] at hcall
    exact hanswered _ hcall

theorem newStrings_again (flash resp : Mem) (map : Option Nat) :
    newStrings flash (newStrings flash resp map) map = newStrings flash resp map := by
  cases map with
  | none => rfl
  | some map =>
    funext i
    simp only [newStrings, newString]
    -- the fields do not overlap, and each is written with the same bytes again
    cases getImageFlashArea (m := Id) flash map (ascii "RO_FRID") <;>
      cases getImageFlashArea (m := Id) flash map (ascii "RW_FWID") <;> grind [Mem.copy]

theorem newVersion_again (ec : NullEc) : newVersion { ec with versionResp := newVersion ec } = newVersion ec :=
  newStrings_again ec.gMutableFlash ec.versionResp _

/-! ### An image that names its board -/

/-- An EC image for a board. Its flash map, with all its area headers, and the version strings are inside it. -/
structure BoardImage where
  bytes : Mem
  map : FlashMap
  header : Nat
  area : Nat
  known : map ∈ flashMaps
  header_eq : imageFlashMap bytes = some header
  area_eq : imageFlashArea bytes header "RO_FRID" = some area
  table_fits : areaHeader (header + sizeofFmapHeader) (bytes.le16 (header + 54)) ≤ imageSize.toNat
  strings_fit : ∀ name, IsVersionArea name → ∀ area, imageFlashArea bytes header name = some area →
    bytes.le32 area + versionStringLen < imageSize.toNat
  board_eq : boardText (bytes.drop (bytes.le32 area)) = ascii map.board

namespace BoardImage

variable (image : BoardImage)

/-- The board's name. -/
def board : List UInt8 := ascii image.map.board

/-- The end of the flash map. -/
def tableEnd : Nat := areaHeader (image.header + sizeofFmapHeader) (image.bytes.le16 (image.header + 54))

/-- The addresses that say where the board's name is, and those of the string it is in. -/
def Locates (a : Nat) : Prop :=
  a < image.tableEnd ∨ image.bytes.le32 image.area ≤ a ∧ a < image.bytes.le32 image.area + versionStringLen

theorem header_le : image.header + sizeofFmapHeader ≤ image.tableEnd := Nat.le_add_right _ _

theorem isFlashMap : IsFlashMap image.bytes image.header := imageFlashMap_eq_some.1 image.header_eq

theorem areaHeader_le {i : Nat} (hi : i < image.bytes.le16 (image.header + 54)) :
    areaHeader (image.header + sizeofFmapHeader) i + sizeofFmapAreaHeader ≤ image.tableEnd := by
  unfold tableEnd areaHeader sizeofFmapAreaHeader
  omega

end BoardImage

/-! ### A flash that holds it -/

/-- The flash is the image where the board's name is found. -/
def Carries (flash : Mem) (image : BoardImage) : Prop := ∀ a, image.Locates a → flash a = image.bytes a

namespace Carries

variable {flash : Mem} {image : BoardImage} (h : Carries flash image)
include h

theorem table {a : Nat} (ha : a < image.tableEnd) : flash a = image.bytes a := h a (.inl ha)

theorem getImageFlashMap_eq : getImageFlashMap (m := Id) flash gFlashLen = some image.header := by
  obtain ⟨k, hk, hheader, hsignature, hfirst⟩ := image.isFlashMap
  have htable : image.header + 56 ≤ image.tableEnd := image.header_le
  have hsame : ∀ j ≤ k, quadword flash (8 * j) = quadword image.bytes (8 * j) := fun j hj =>
    quadword_congr fun i hi => h.table (by omega)
  have hscan : getImageFlashMap (m := Id) flash gFlashLen =
      searchFrom (quadword flash · = fmapSignature) 8 0 131072 := scanMem64_eq flash fmapSignature 0 131072
  rw [hscan, searchFrom_eq_some]
  refine ⟨k, by omega, by rw [hheader, Nat.zero_add], ?_, fun j hj => ?_⟩
  · rw [hheader, hsame k (Nat.le_refl k), ← hheader]
    exact hsignature
  · rw [Nat.zero_add, hsame j (Nat.le_of_lt hj)]
    exact hfirst j hj

theorem areas_eq : flash.le16 (image.header + 54) = image.bytes.le16 (image.header + 54) := by
  have htable : image.header + 56 ≤ image.tableEnd := image.header_le
  exact Mem.le16_congr (h.table (by omega)) (h.table (by omega))

theorem areaName_eq {i : Nat} (hi : i < image.bytes.le16 (image.header + 54)) :
    areaName flash (areaHeader (image.header + sizeofFmapHeader) i) =
      areaName image.bytes (areaHeader (image.header + sizeofFmapHeader) i) := by
  have hin : areaHeader (image.header + sizeofFmapHeader) i + 42 ≤ image.tableEnd := image.areaHeader_le hi
  unfold areaName Mem.text
  rw [Mem.toList_congr fun k hk => ?_]
  have hk : k < 32 := hk
  exact h.table (by omega)

theorem getImageFlashArea_eq {name : String} (hname : IsVersionArea name) :
    getImageFlashArea (m := Id) flash image.header (ascii name) = imageFlashArea image.bytes image.header name := by
  have hflash : getImageFlashArea (m := Id) flash image.header (ascii name) = findArea (m := Id) flash (ascii name)
      (image.header + sizeofFmapHeader) (flash.le16 (image.header + 54)) := rfl
  have himage : imageFlashArea image.bytes image.header name = findArea (m := Id) image.bytes (ascii name)
      (image.header + sizeofFmapHeader) (image.bytes.le16 (image.header + 54)) := rfl
  rw [hflash, himage, h.areas_eq]
  refine Option.ext fun found => ?_
  rw [findArea_eq_some (versionArea_nonzero hname) (versionArea_length hname),
    findArea_eq_some (versionArea_nonzero hname) (versionArea_length hname)]
  refine exists_congr fun i => ?_
  constructor
  · rintro ⟨⟨hi, hfirst⟩, hmatch, rfl⟩
    refine ⟨⟨hi, fun j hj => ?_⟩, ?_, rfl⟩
    · rw [← h.areaName_eq (Nat.lt_trans hj hi)]
      exact hfirst j hj
    · rw [← h.areaName_eq hi]
      exact hmatch
  · rintro ⟨⟨hi, hfirst⟩, hmatch, rfl⟩
    refine ⟨⟨hi, fun j hj => ?_⟩, ?_, rfl⟩
    · rw [h.areaName_eq (Nat.lt_trans hj hi)]
      exact hfirst j hj
    · rw [h.areaName_eq hi]
      exact hmatch

theorem offset_eq {name : String} (hname : IsVersionArea name) {area : Nat}
    (harea : imageFlashArea image.bytes image.header name = some area) :
    flash.le32 area = image.bytes.le32 area := by
  obtain ⟨i, hi, -, rfl⟩ := (findArea_eq_some (versionArea_nonzero hname) (versionArea_length hname)).1 harea
  have hin : areaHeader (image.header + sizeofFmapHeader) i + 42 ≤ image.tableEnd := image.areaHeader_le hi.1
  exact Mem.le32_congr fun k hk => h.table (by omega)

theorem areaReadable {name : String} (hname : IsVersionArea name) :
    AreaReadable flash image.header (ascii name) where
  header := by
    have htable : image.header + 56 ≤ image.tableEnd := image.header_le
    have hfits : image.tableEnd ≤ 524288 := image.table_fits
    simp only [sizeofFmapHeader, gFlashLen]
    omega
  names i hi := by
    have hfits : image.tableEnd ≤ 524288 := image.table_fits
    have hcount := hi.1
    rw [h.areas_eq] at hcount
    have hin : areaHeader (image.header + sizeofFmapHeader) i + 42 ≤ image.tableEnd := image.areaHeader_le hcount
    have hprefix := sharedPrefix_le (flash.drop (areaHeader (image.header + sizeofFmapHeader) i + 8)) (ascii name)
    have hlength := versionArea_length hname
    unfold NameFits
    simp only [gFlashLen]
    omega
  string area harea := by
    rw [h.getImageFlashArea_eq hname] at harea
    have hfits : image.bytes.le32 area + 32 < 524288 := image.strings_fit name hname area harea
    rw [h.offset_eq hname harea]
    simp only [versionStringLen, gFlashLen]
    omega

theorem versionReadable : VersionReadable flash := by
  intro map hmap
  rw [h.getImageFlashMap_eq, Option.some.injEq] at hmap
  subst hmap
  exact ⟨h.areaReadable (.inl rfl), h.areaReadable (.inr rfl)⟩

end Carries

/-! ### The board it reports -/

/-- The board's name in the version that the simulator reports. -/
def reportedName (ec : NullEc) : List UInt8 := boardText (versionString (newVersion ec))

theorem board_ne_nil (image : BoardImage) : image.board ≠ [] := by
  have hall : ∀ map ∈ flashMaps, ascii map.board ≠ [] := by decide
  exact hall image.map image.known

theorem newVersion_front {ec : NullEc} {image : BoardImage} (h : Carries ec.gMutableFlash image) {i : Nat}
    (hi : i < 32) :
    newVersion ec i = image.bytes.drop (image.bytes.le32 image.area) i := by
  have hro : newString ec.gMutableFlash image.header "RO_FRID" ec.versionResp 0 = ec.versionResp.copy 0
      (ec.gMutableFlash.drop (image.bytes.le32 image.area)) versionStringLen := by
    rw [newString, h.getImageFlashArea_eq (.inl rfl), image.area_eq, ← h.offset_eq (.inl rfl) image.area_eq]
  have hfront : ∀ m : Mem, newString ec.gMutableFlash image.header "RW_FWID" m versionStringLen i = m i := by
    intro m
    rw [newString]
    cases getImageFlashArea (m := Id) ec.gMutableFlash image.header (ascii "RW_FWID") with
    | none => rfl
    | some area => exact Mem.copy_out _ _ (.inl hi)
  have hcopy := Mem.copy_front ec.versionResp (ec.gMutableFlash.drop (image.bytes.le32 image.area)) hi
  rw [newVersion, h.getImageFlashMap_eq, newStrings, hfront, hro, versionStringLen, hcopy, Mem.drop_apply,
    Mem.drop_apply]
  exact h _ (.inr ⟨Nat.le_add_right _ _, Nat.add_lt_add_left hi _⟩)

theorem reportsBoard {ec : NullEc} {image : BoardImage} (h : Carries ec.gMutableFlash image) :
    reportedName ec = image.board := by
  have hfront := fun i (hi : i < 32) => newVersion_front h hi
  have hname : boardText (newVersion ec) = image.board := (boardText_congr hfront).trans image.board_eq
  have hzero : newVersion ec 0 ≠ 0 := fun hzero => board_ne_nil image (by rw [← hname, boardText_of_zero hzero])
  rw [reportedName, versionString, if_neg hzero, hname]

end FrameworkHacks.Null
