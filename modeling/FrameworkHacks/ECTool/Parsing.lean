import FrameworkHacks.ECTool.Board

/-!
# Parsing the firmware image

What `cmd_reflash` reads of the image, and the one byte it writes, on the buffer itself, so that an
access outside it shows. Nothing in the image is checked against the buffer's size before it is
followed: the accesses stay inside exactly for images with a flash map that fits (`parseImage_inside_iff`).
-/

namespace FrameworkHacks.ECTool

open Effects

variable {E : Signature}

/-! ### The code -/

/-- `FirmwareBoardId` and `FirmwareBoardIdLength`, if the image has a flash map with an RO_FRID area. -/
def locateBoardId (firmware : Buf) : Prog E (Option (Nat × Nat)) := do
  match ← getImageFlashMap firmware.load firmware.size with
  | none => return none
  | some map =>
    match ← getImageFlashArea firmware.load map (ascii "RO_FRID") with
    | none => return none
    | some area =>
      let id ← loadLe32 firmware.load area
      let length ← boardIdLength (fun k => firmware.load (id + k)) 0 32
      return some (id, length)

/-- Compares the boards. On a mismatch the name in the buffer is terminated, and the result is none. -/
def compareBoards (firmware : Buf) (current : Mem) (force id length : Nat) :
    Prog E (Option Unit × Buf) := do
  if force < 2 then
    let cmp ← asciiStrnCmp (fun k => pure (current k)) (fun k => firmware.load (id + k)) length
    if cmp ≠ 0 then
      return (none, ← firmware.store (id + length) 0)
  return (some (), firmware)

/-- From locating the flash map to the comparison of the boards; the result is none if the command is
aborted. -/
def parseImage (firmware : Buf) (current : Mem) (force : Nat) : Prog E (Option Unit × Buf) := do
  match ← locateBoardId firmware with
  | none => return (none, firmware)
  | some (id, length) => compareBoards firmware current force id length

/-- All accesses are inside the object they are made in. -/
def StaysInside {α : Type} (p : Prog E α) : Prop := ∃ a, p = pure a

/-! ### What fits -/

/-- The first quadword of an image that is the signature of a flash map is at `map`. -/
def IsFlashMap (image : Mem) (map : Nat) : Prop :=
  ∃ k < 65536, map = 8 * k ∧ quadword image map = fmapSignature ∧
    ∀ j < k, quadword image (8 * j) ≠ fmapSignature

/-- How many characters of a board ID come before its delimiter, at most 32. -/
def boardIdChars (id : Mem) : Nat := ((id.toList 32).takeWhile fun c => !isDelimiter c).length

/-- The area header at `area` fits as far as its name is compared with RO_FRID, and if it is that of
RO_FRID then so does the board ID with its delimiter. -/
def AreaFits (image : Mem) (area : Nat) : Prop :=
  NameFits image imageSize.toNat (ascii "RO_FRID") area ∧
    (areaName image area = ascii "RO_FRID" →
      image.le32 area + boardIdChars (image.drop (image.le32 area)) < imageSize.toNat)

/-- If an image has a flash map, then the header of the map fits into the image, and so do the areas up
to the first that is RO_FRID. -/
def ImageFits (image : Mem) : Prop :=
  ∀ map, IsFlashMap image map → map + sizeofFmapHeader ≤ imageSize.toNat ∧
    ∀ i, Searched image (ascii "RO_FRID") (map + sizeofFmapHeader) (image.le16 (map + 54)) i →
      AreaFits image (areaHeader (map + sizeofFmapHeader) i)

/-! ### The parts -/

theorem imageFlashMap_eq_some {image : Mem} {map : Nat} :
    imageFlashMap image = some map ↔ IsFlashMap image map := by
  have hscan : imageFlashMap image = searchFrom (quadword image · = fmapSignature) 8 0 65536 :=
    scanMem64_eq image fmapSignature 0 65536
  rw [hscan, searchFrom_eq_some]
  simp only [Nat.zero_add]
  rfl

theorem getImageFlashMap_image (image : Mem) :
    getImageFlashMap (m := Prog E) (Buf.load ⟨image, imageSize.toNat⟩) imageSize.toNat =
      pure (imageFlashMap image) :=
  getImageFlashMap_of_le (Nat.le_refl imageSize.toNat)

theorem roFridName_nonzero : ∀ c ∈ ascii "RO_FRID", c ≠ 0 := by
  have hnul : 0 ∉ ascii "RO_FRID" := by decide
  intro c hc h0
  rw [h0] at hc
  exact hnul hc

theorem roFridName_length : (ascii "RO_FRID").length ≤ 31 := by decide

theorem firmwareBoardIdLength_eq_chars (image : Mem) (area : Nat) :
    firmwareBoardIdLength image area = boardIdChars (image.drop (image.le32 area)) :=
  firmwareBoardIdLength_eq image area

theorem boardIdLength_buffer (b : Buf) (id k n : Nat) :
    boardIdLength (m := Prog E) (fun j => b.load (id + j)) k n =
      let chars := ((((b.bytes.drop id).drop k).toList n).takeWhile fun c => !isDelimiter c).length
      if id + (k + chars) < b.size then pure (k + chars) else .fault := by
  have hout : ∀ j, ¬ j < b.size → (b.load j : Prog E UInt8) = .fault := fun _ h => if_neg h
  induction n generalizing k with
  | zero =>
    rw [boardIdLength]
    by_cases hin : id + k < b.size
    · rw [Buf.load_of_lt hin, pure_bind]
      exact (if_pos hin).symm
    · rw [hout _ hin]
      exact (if_neg hin).symm
  | succ n ih =>
    simp only at ih ⊢
    rw [boardIdLength, Mem.toList_drop_succ, List.takeWhile_cons, Mem.drop_apply]
    by_cases hin : id + k < b.size
    · rw [Buf.load_of_lt hin, pure_bind]
      cases hdelim : isDelimiter (b.bytes (id + k)) with
      | true => simp [hin]
      | false =>
        simp only [Bool.false_eq_true, if_false, Bool.not_false, if_true, List.length_cons]
        rw [ih]
        simp only [Nat.add_assoc, Nat.add_comm 1]
    · rw [hout _ hin, if_neg (by omega)]
      rfl

theorem boardIdLength_buffer_zero (b : Buf) (id : Nat) :
    boardIdLength (m := Prog E) (fun j => b.load (id + j)) 0 32 =
      if id + boardIdChars (b.bytes.drop id) < b.size then pure (boardIdChars (b.bytes.drop id))
      else .fault := by
  have h := boardIdLength_buffer (E := E) b id 0 32
  simp only [Nat.zero_add, Mem.drop_zero] at h
  exact h

/-- The comparison stays within the board ID, and the NUL goes behind it. -/
theorem compareBoards_eq (firmware : Buf) (current : Mem) (force : Nat) {id length : Nat}
    (h : id + length < firmware.size) :
    compareBoards (E := E) firmware current force id length =
      pure (if force < 2 ∧ strnCmp current (firmware.bytes.drop id) length ≠ 0 then
        (none, { firmware with bytes := firmware.bytes.set (id + length) 0 })
      else (some (), firmware)) := by
  have hcmp : asciiStrnCmp (m := Prog E) (fun k => pure (current k)) (fun k => firmware.load (id + k))
      length = pure (strnCmp current (firmware.bytes.drop id) length) := by
    cases length with
    | zero => rfl
    | succ n => exact asciiStrnCmpFrom_of_le current firmware id (by omega)
  unfold compareBoards
  by_cases hforce : force < 2
  · rw [if_pos hforce, hcmp, pure_bind]
    by_cases hdiffer : strnCmp current (firmware.bytes.drop id) length ≠ 0
    · rw [if_pos hdiffer, Buf.store_of_lt 0 h, pure_bind, if_pos ⟨hforce, hdiffer⟩]
    · rw [if_neg hdiffer, if_neg fun h => hdiffer h.2]
  · rw [if_neg hforce, if_neg fun h => hforce h.1]

/-! ### The whole -/

section

variable {image : Mem}

theorem locateBoardId_map {map : Nat} (hmap : IsFlashMap image map) :
    locateBoardId (E := E) ⟨image, imageSize.toNat⟩ =
      getImageFlashArea (Buf.load ⟨image, imageSize.toNat⟩) map (ascii "RO_FRID") >>= fun
        | none => return none
        | some area => do
          let id ← loadLe32 (Buf.load ⟨image, imageSize.toNat⟩) area
          let length ← boardIdLength (fun k => Buf.load ⟨image, imageSize.toNat⟩ (id + k)) 0 32
          return some (id, length) := by
  unfold locateBoardId
  rw [getImageFlashMap_image, pure_bind, imageFlashMap_eq_some.2 hmap]

theorem roFrid_map {map : Nat} (hmap : IsFlashMap image map) :
    roFrid image = findArea (m := Id) image (ascii "RO_FRID") (map + sizeofFmapHeader)
      (image.le16 (map + 54)) := by
  rw [roFrid, imageFlashMap_eq_some.2 hmap]
  rfl

theorem getImageFlashArea_eq (map : Nat) :
    getImageFlashArea (m := Prog E) (Buf.load ⟨image, imageSize.toNat⟩) map (ascii "RO_FRID") =
      if map + sizeofFmapHeader ≤ imageSize.toNat then
        findArea (Buf.load ⟨image, imageSize.toNat⟩) (ascii "RO_FRID") (map + sizeofFmapHeader)
          (image.le16 (map + 54))
      else .fault := by
  have hload := loadLe16_eq (E := E) ⟨image, imageSize.toNat⟩ (map + 54)
  rw [getImageFlashArea, hload]
  by_cases hheader : map + 54 + 2 ≤ imageSize.toNat
  · rw [if_pos hheader, pure_bind]
    exact (if_pos hheader).symm
  · rw [if_neg hheader]
    exact (if_neg hheader).symm

theorem load_areaOffset {area : Nat} (h : NameFits image imageSize.toNat (ascii "RO_FRID") area) :
    loadLe32 (m := Prog E) (Buf.load ⟨image, imageSize.toNat⟩) area = pure (image.le32 area) := by
  apply loadLe32_of_le
  unfold NameFits at h
  simp only
  omega

theorem ImageFits.boardId (h : ImageFits image) {area : Nat} (harea : roFrid image = some area) :
    AreaFits image area ∧ image.le32 area + firmwareBoardIdLength image area < imageSize.toNat := by
  cases hmap : imageFlashMap image with
  | none =>
    rw [roFrid, hmap] at harea
    cases harea
  | some map =>
    have hflash := imageFlashMap_eq_some.1 hmap
    rw [roFrid_map hflash] at harea
    obtain ⟨i, hi, hname, rfl⟩ := (findArea_eq_some roFridName_nonzero roFridName_length).1 harea
    have hfits := (h map hflash).2 i hi
    rw [firmwareBoardIdLength_eq_chars]
    exact ⟨hfits, hfits.2 hname⟩

/-- An image that fits is parsed as in plain memory. -/
theorem locateBoardId_of_fits (h : ImageFits image) :
    locateBoardId (E := E) ⟨image, imageSize.toNat⟩ = pure ((roFrid image).map fun area =>
      (image.le32 area, firmwareBoardIdLength image area)) := by
  cases hmap : imageFlashMap image with
  | none =>
    unfold locateBoardId
    rw [getImageFlashMap_image, pure_bind, roFrid, hmap]
    rfl
  | some map =>
    have hflash := imageFlashMap_eq_some.1 hmap
    obtain ⟨hheader, hareas⟩ := h map hflash
    have hfind := findArea_of_fits (E := E) roFridName_nonzero roFridName_length
      ⟨image, imageSize.toNat⟩ fun i hi => (hareas i hi).1
    rw [locateBoardId_map hflash, getImageFlashArea_eq, if_pos hheader, hfind, pure_bind,
      ← roFrid_map hflash]
    cases harea : roFrid image with
    | none => rfl
    | some area =>
      obtain ⟨hfits, hid⟩ := h.boardId harea
      rw [firmwareBoardIdLength_eq_chars] at hid
      simp only
      rw [load_areaOffset hfits.1, pure_bind, boardIdLength_buffer_zero, if_pos hid, pure_bind,
        Option.map_some, firmwareBoardIdLength_eq_chars]

theorem imageFits_of_locate
    (h : locateBoardId ⟨image, imageSize.toNat⟩ ≠ (.fault : Prog E (Option (Nat × Nat)))) :
    ImageFits image := by
  intro map hflash
  rw [locateBoardId_map hflash, getImageFlashArea_eq] at h
  have hheader : map + sizeofFmapHeader ≤ imageSize.toNat := by
    by_contra hout
    rw [if_neg hout] at h
    exact h rfl
  rw [if_pos hheader] at h
  have hnames : ∀ i, Searched image (ascii "RO_FRID") (map + sizeofFmapHeader) (image.le16 (map + 54)) i →
      NameFits image imageSize.toNat (ascii "RO_FRID") (areaHeader (map + sizeofFmapHeader) i) := by
    intro i hi
    by_contra hout
    have hfault := findArea_of_not_fits (E := E) roFridName_nonzero roFridName_length
      ⟨image, imageSize.toNat⟩ hi hout
    rw [hfault] at h
    exact h rfl
  refine ⟨hheader, fun i hi => ⟨hnames i hi, fun hname => ?_⟩⟩
  by_contra hout
  have hfind := findArea_of_fits (E := E) roFridName_nonzero roFridName_length
    ⟨image, imageSize.toNat⟩ hnames
  have harea := (findArea_eq_some roFridName_nonzero roFridName_length).2 ⟨i, hi, hname, rfl⟩
  rw [hfind, pure_bind, harea] at h
  simp only at h
  rw [load_areaOffset (hnames i hi), pure_bind, boardIdLength_buffer_zero, if_neg hout] at h
  exact h rfl

end

theorem parseImage_of_fits {image : Mem} (h : ImageFits image) (current : Mem) (force : Nat) :
    parseImage (E := E) ⟨image, imageSize.toNat⟩ current force = pure (
      match roFrid image with
      | none => (none, ⟨image, imageSize.toNat⟩)
      | some area =>
        let length := firmwareBoardIdLength image area
        if force < 2 ∧ strnCmp current (firmwareBoardId image area) length ≠ 0 then
          (none, ⟨image.set (image.le32 area + length) 0, imageSize.toNat⟩)
        else (some (), ⟨image, imageSize.toNat⟩)) := by
  unfold parseImage
  rw [locateBoardId_of_fits h, pure_bind]
  cases harea : roFrid image with
  | none => rfl
  | some area => exact compareBoards_eq _ current force (h.boardId harea).2

theorem imageFits_of_inside {image current : Mem} {force : Nat}
    (h : StaysInside (parseImage ⟨image, imageSize.toNat⟩ current force : Prog E (Option Unit × Buf))) :
    ImageFits image := by
  obtain ⟨a, ha⟩ := h
  apply imageFits_of_locate (E := E)
  intro hfault
  rw [parseImage, hfault] at ha
  cases ha

/-- **Parsing stays inside the image exactly if the image's flash map fits into it.** -/
theorem parseImage_inside_iff (image current : Mem) (force : Nat) :
    StaysInside (parseImage ⟨image, imageSize.toNat⟩ current force : Prog E (Option Unit × Buf)) ↔
      ImageFits image :=
  ⟨imageFits_of_inside, fun h => ⟨_, parseImage_of_fits h current force⟩⟩

/-- An image whose RO_FRID area is said to be at the end of the address space. -/
def strayImage : Mem :=
  Mem.ofList (ascii "__FMAP__" ++ List.replicate 46 0 ++ [1, 0] ++ Mem.le32Bytes 0xFFFFFFFF ++
    Mem.le32Bytes 32 ++ ascii "RO_FRID")

/-- The scan of its board ID leaves the buffer. -/
theorem parseImage_strays : ¬ StaysInside (parseImage ⟨strayImage, imageSize.toNat⟩ (fun _ => 0) 0 :
    Prog Services (Option Unit × Buf)) := by
  intro h
  have harea : roFrid strayImage = some 56 := by decide
  have hid := ((imageFits_of_inside h).boardId harea).2
  exact absurd hid (by decide)

end FrameworkHacks.ECTool
