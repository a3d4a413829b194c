import FrameworkHacks.Null.Version

/-!
# One reflash after the other

A bench is an EC as its user sees it: the board that is reported, and the flash. `Bench.perform` says what runs of
`ectool reflash` make of it: an image is flashed if it is for the board that is reported or if it is forced twice,
and then its board is the one that is reported; else nothing changes. On hosts that go along (`Cooperates`), the tool
on the simulated EC does just that, run after run (`reflash_bench`), because the version that the simulator reports
comes from the flash.
-/

namespace FrameworkHacks.Null

open Effects ECTool Transport

variable {T : Type}

/-! ### The bench -/

structure Bench where
  board : List UInt8
  flash : Mem

/-- A run of `ectool reflash` with an image. It selects the regions where the image says which board it is for. -/
structure Job where
  argv : List String
  image : BoardImage
  command : argv.getD 1 "" = "reflash"
  file : (reflashArgs {} ((argv.drop 1).drop 1)).filename.isSome = true
  selects : ∀ a, image.Locates a →
    Covered image.map (setBits (regionMask (reflashArgs {} ((argv.drop 1).drop 1)) image.map)) a

namespace Job

/-- How often it is forced. -/
def force (job : Job) : Nat := (reflashArgs {} ((job.argv.drop 1).drop 1)).force

/-- The flash with the image in the regions that are selected. -/
def flash (job : Job) (m : Mem) : Mem :=
  flashed job.image.bytes job.image.map
    (setBits (regionMask (reflashArgs {} ((job.argv.drop 1).drop 1)) job.image.map)) m

theorem carries (job : Job) (m : Mem) : Carries (job.flash m) job.image := fun a ha => if_pos (job.selects a ha)

end Job

/-- The job is carried out. -/
def Bench.Accepts (b : Bench) (job : Job) : Prop := 2 ≤ job.force ∨ b.board = job.image.board

instance (b : Bench) (job : Job) : Decidable (b.Accepts job) := inferInstanceAs (Decidable (_ ∨ _))

def Bench.reflash (b : Bench) (job : Job) : EfiStatus × Bench :=
  if b.Accepts job then (efiSuccess, ⟨job.image.board, job.flash b.flash⟩) else (efiAborted, b)

/-- What the runs return, and the bench after them. -/
def Bench.perform (b : Bench) : List Job → List EfiStatus × Bench
  | [] => ([], b)
  | job :: jobs =>
    let r := (b.reflash job).2.perform jobs
    ((b.reflash job).1 :: r.1, r.2)

/-- The bytes of the flash are those it had or come from images for its board. -/
structure Bench.Faithful (b b' : Bench) (jobs : List Job) : Prop where
  board : b'.board = b.board
  flash : ∀ a, b'.flash a = b.flash a ∨ ∃ job ∈ jobs, job.image.board = b.board ∧ b'.flash a = job.image.bytes a

/-- No board's name goes on as this one does. -/
def Unmistakable (name : List UInt8) : Prop := ∀ map ∈ flashMaps, ascii map.board <+: name → ascii map.board = name

instance (name : List UInt8) : Decidable (Unmistakable name) := inferInstanceAs (Decidable (∀ map ∈ flashMaps, _ → _))

theorem board_unmistakable (image : BoardImage) : Unmistakable image.board := by
  intro map hmap hcontinues
  have hsame := flashMaps_prefix map hmap image.map image.known hcontinues
  rw [hsame, BoardImage.board]

/-- The simulator is this bench. -/
structure OnBench (b : Bench) (ec : NullEc) : Prop where
  flash : ec.gMutableFlash = b.flash
  readable : VersionReadable ec.gMutableFlash
  board : reportedName ec = b.board
  unmistakable : Unmistakable b.board

theorem OnBench.afterVersion {b : Bench} {ec : NullEc} (h : OnBench b ec) :
    OnBench b { ec with versionResp := newVersion ec } where
  flash := h.flash
  readable := h.readable
  board := by rw [← h.board, reportedName, newVersion_again, reportedName]
  unmistakable := h.unmistakable

theorem onBench_of_carries {ec : NullEc} {image : BoardImage} (h : Carries ec.gMutableFlash image) :
    OnBench ⟨image.board, ec.gMutableFlash⟩ ec :=
  ⟨rfl, h.versionReadable, reportsBoard h, board_unmistakable image⟩

/-! ### The board check -/

section Check

variable {b : Bench} {ec : NullEc} {image : BoardImage}

/-- The version, as the tool gets it. -/
def version (ec : NullEc) : List UInt8 := (newVersion ec).toList sizeofGetVersion

theorem roFrid_image (image : BoardImage) : roFrid image.bytes = some image.area := by
  rw [roFrid, image.header_eq, Option.bind_some, image.area_eq]

theorem boardText_image (image : BoardImage) : boardText (firmwareBoardId image.bytes image.area) = image.board :=
  image.board_eq

theorem strnCmp_version (h : OnBench b ec) (image : BoardImage) :
    strnCmp (reportedBoard (version ec)) (firmwareBoardId image.bytes image.area)
      (firmwareBoardIdLength image.bytes image.area) = 0 ↔ b.board = image.board := by
  have hinto : ∀ i < 64, Reply.into ⟨(version ec).length, version ec⟩ (fun _ => 0) ECTool.sizeofGetVersion i =
      newVersion ec i := by
    intro i hi
    have hlength : (version ec).length = 100 := Mem.toList_length _ _
    have htake : (version ec).take ECTool.sizeofGetVersion = version ec :=
      List.take_of_length_le (Nat.le_of_eq hlength)
    simp only [Reply.into, htake]
    rw [Mem.overlay_lt _ (by omega)]
    exact Mem.ofList_toList _ (show i < 100 by omega)
  have hname := (boardText_versionString_congr hinto).trans h.board
  rw [reportedBoard, strnCmp_current, hname, boardText_image]
  split
  · rfl
  · exact ⟨fun hcontinues => (h.unmistakable image.map image.known hcontinues).symm,
      fun heq => heq ▸ List.prefix_refl _⟩

theorem findFlashMap_image (image : BoardImage) : findFlashMap (firmwareBoardId image.bytes image.area)
    (firmwareBoardIdLength image.bytes image.area) = some image.map := by
  have hmatch : ∀ map ∈ flashMaps, strnCmp (Mem.ofList (ascii map.board)) (firmwareBoardId image.bytes image.area)
      (firmwareBoardIdLength image.bytes image.area) = 0 ↔ map = image.map := by
    intro map hmap
    rw [strnCmp_board _ _ hmap, boardText_image, BoardImage.board]
    constructor
    · intro hsame
      have hcontinues : ascii image.map.board <+: ascii map.board := by
        split at hsame
        · exact hsame ▸ List.prefix_refl _
        · exact hsame
      have hmaps := flashMaps_prefix image.map image.known map hmap hcontinues
      exact hmaps.symm
    · rintro rfl
      split
      · rfl
      · exact List.prefix_refl _
  cases hfind : findFlashMap (firmwareBoardId image.bytes image.area)
      (firmwareBoardIdLength image.bytes image.area) with
  | none =>
    have hnone := List.find?_eq_none.1 hfind image.map image.known
    exact absurd (decide_eq_true ((hmatch image.map image.known).2 rfl)) hnone
  | some map =>
    have hmem : map ∈ flashMaps := List.mem_of_find?_eq_some hfind
    have hfound := List.find?_some hfind
    rw [(hmatch map hmem).1 (of_decide_eq_true hfound)]

theorem forBoard {force : Nat} (h : OnBench b ec) (hsame : 2 ≤ force ∨ b.board = image.board) :
    ForBoard image.bytes (version ec) force image.map where
  final := by rw [finalFlashMap, roFrid_image, Option.map_some, findFlashMap_image, Option.getD_some]
  same hforce area harea := by
    rw [roFrid_image, Option.some.injEq] at harea
    subst harea
    refine ⟨(strnCmp_version h image).2 (hsame.resolve_left (Nat.not_le.2 hforce)), ?_⟩
    rw [findFlashMap_image]
    rfl

theorem forOther {force : Nat} (h : OnBench b ec) (hother : ¬(2 ≤ force ∨ b.board = image.board)) :
    ForOther image.bytes (version ec) force image.area where
  area_eq := roFrid_image image
  force_lt := Nat.not_le.1 fun hforce => hother (.inl hforce)
  differs := fun hsame => hother (.inr ((strnCmp_version h image).1 hsame))
  inside := by
    have hlength := firmwareBoardIdLength_le image.bytes image.area
    have hfits : image.bytes.le32 image.area + 32 < 524288 := image.strings_fit "RO_FRID" (.inl rfl) _ image.area_eq
    have hsize : imageSize.toNat = 524288 := rfl
    omega

end Check

/-! ### One run -/

section Run

variable {host : Handler Host T} {argv : List String} {b : Bench} {ec : NullEc} {t : T}

theorem reports (hhost : Cooperates host argv) (h : OnBench b ec) (t : T) :
    ReportsVersion (toolServices host) (version ec) ec t fun s => s = { ec with versionResp := newVersion ec } :=
  (simulates_tool hhost).served (small (by decide) (by decide) (by decide)) (answer_getVersion h.readable [])
    (by decide) (by rw [Mem.toList_length]; decide) ⟨rfl, rfl⟩

theorem ends_cmdReflash {fuel : Nat} (hfuel : 0x40000 < fuel) {job : Job} (hhost : Cooperates host job.argv)
    (h : OnBench b ec) :
    Prog.Ends (toolServices host) (cmdReflash fuel job.image.bytes (job.argv.drop 1)) (ec, t) fun status e =>
      status = (b.reflash job).1 ∧ OnBench (b.reflash job).2 e.1 := by
  have hs := reflashServices hhost
  unfold Bench.reflash
  by_cases haccepts : b.Accepts job
  · rw [if_pos haccepts]
    have hreports : ∀ t, ReportsVersion (toolServices host) (version ec) ec t
        (Spared NullEc.gMutableFlash (fun _ => True) ec) := fun t =>
      (reports hhost h t).mono fun data s' hdata => ⟨hdata.1, by rw [hdata.2], id⟩
    refine (ends_reflash hs hreports job.file (forBoard h haccepts) (fun _ => ecmemBin_ready) (fun _ => trivial)
      hfuel).mono ?_
    rintro _ ⟨ec', t'⟩ ⟨rfl, hflash⟩
    have hflash : ec'.gMutableFlash = job.flash b.flash := by
      rw [← h.flash]
      exact hflash
    refine ⟨rfl, ?_⟩
    rw [← hflash]
    exact onBench_of_carries (by rw [hflash]; exact job.carries b.flash)
  · rw [if_neg haccepts]
    refine (ends_reflash_refused hs (reports hhost h) job.file (forOther h haccepts) fun _ => ecmemBin_ready).mono ?_
    rintro _ ⟨ec', t'⟩ ⟨rfl, hec⟩
    refine ⟨rfl, ?_⟩
    rw [show ec' = { ec with versionResp := newVersion ec } from hec]
    exact h.afterVersion

/-- `ectool` on the simulator, over the protocol. -/
def ectool (c : Setting) : Prog (CrosEc.sum Host) EfiStatus := (uefiMain c).interpret overProtocol

end Run

/-! ### All runs -/

section Runs

variable {hosts : List String → Handler Host T} {fuel : Nat}

/-- The runs of the tool, one after the other, while the simulator stays loaded. -/
def perform (hosts : List String → Handler Host T) (fuel : Nat) (whole : Bool) :
    List Job → NullEc × T → Except Halt (List EfiStatus × NullEc × T)
  | [], d => .ok ([], d)
  | job :: jobs, d =>
    match (ectool ⟨fuel, job.image.bytes, whole⟩).exec (mCrosECProtocol.sum (hosts job.argv)) d with
    | (.ok status, d') => (perform hosts fuel whole jobs d').map fun r => (status :: r.1, r.2)
    | (.error r, _) => .error r

end Runs

/-! ### A sample -/

end FrameworkHacks.Null
