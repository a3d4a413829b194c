import FrameworkHacks.ECTool.Stages

/-!
# Reflash touches only what was asked for

Every erase and write command of every run of `cmd_reflash`, also of one that fails midway, stays
inside a region the options select, and what is written is the image (`cmdReflash_confined`). The mask of
regions is the set the options select, bit by bit. On the maps the tool ships this spares the regions that
are to be skipped.
-/

namespace FrameworkHacks.ECTool

open Effects

/-! ### The maps -/

/-- Every map a run may end up with. -/
def shippedMaps : List FlashMap := unknownBoardFlashMap :: flashMaps

theorem finalFlashMap_shipped {image : Mem} {map : FlashMap} (h : finalFlashMap image = some map) :
    map ∈ shippedMaps := by
  rw [finalFlashMap, Option.map_eq_some_iff] at h
  obtain ⟨area, -, rfl⟩ := h
  cases hfind : findFlashMap (firmwareBoardId image area) (firmwareBoardIdLength image area) with
  | none => exact List.mem_cons_self
  | some map => exact List.mem_cons_of_mem _ (List.mem_of_find?_eq_some hfind)

theorem shippedMaps_length : ∀ map ∈ shippedMaps, map.regions.length ≤ 16 := by decide

theorem shippedMaps_inside :
    ∀ map ∈ shippedMaps, ∀ r ∈ map.regions, r.base + r.size ≤ 524288 := by decide

theorem shippedMaps_disjoint : ∀ map ∈ shippedMaps, ∀ r ∈ map.regions, ∀ s ∈ map.regions,
    r = s ∨ r.base + r.size ≤ s.base ∨ s.base + s.size ≤ r.base := by decide

/-- What has a name that can be asked for is not to be skipped. -/
theorem shippedMaps_named : ∀ map ∈ shippedMaps, ∀ r ∈ map.regions,
    r.name = "RO" ∨ r.name = "RW" → r.skip = false := by decide

theorem selected_not_skip {map : FlashMap} (hmap : map ∈ shippedMaps) {r : FlashRegion}
    (hr : r ∈ map.regions) {opts : List String} (hall : "--all" ∉ opts) (h : Selected opts r) :
    r.skip = false := by
  rw [Selected, if_neg hall] at h
  split at h
  · apply shippedMaps_named map hmap r hr
    rcases h with ⟨hname, -⟩ | ⟨hname, -⟩
    · exact .inl hname
    · exact .inr hname
  · exact Bool.eq_false_iff.2 h

/-! ### Commands for a region -/

/-- What a command that names the range `size` bytes from `offset` on may be. -/
structure Confined (image : Mem) (argv : List String) (c : HostCommand) (offset size : Nat) : Prop where
  /-- The range lies in one selected region of the chosen map. -/
  selected : ∃ map r, finalFlashMap image = some map ∧ r ∈ map.regions ∧
    Selected (options argv) r ∧ r.base ≤ offset ∧ offset + size ≤ r.base + r.size
  inImage : offset + size ≤ imageSize.toNat
  /-- What is written at an address is the byte of the image with that index. -/
  payload : c.command = ecCmdFlashWrite → c.outdata.length = sizeofFlashWrite + size ∧
    ∀ i < size, Mem.ofList c.outdata (sizeofFlashWrite + i) = image (offset + i)
  /-- Without `--all` the range has no byte of a region that is to be skipped. -/
  spared : "--all" ∉ options argv → ∀ map s, finalFlashMap image = some map → s ∈ map.regions →
    s.skip = true → offset + size ≤ s.base ∨ s.base + s.size ≤ offset

/-- The erase and write commands among these are confined. -/
def StaysConfined (image : Mem) (argv : List String) (c : HostCommand) : Prop :=
  ∀ offset size, flashRange c = some (offset, size) → Confined image argv c offset size

theorem flashRange_harmless {c : HostCommand} (h : Harmless c) : flashRange c = none := by
  rw [flashRange, if_neg h.1, if_neg h.2.1]

theorem staysConfined_harmless {image : Mem} {argv : List String} {c : HostCommand} (h : Harmless c) :
    StaysConfined image argv c := fun offset size hr => by
  rw [flashRange_harmless h] at hr
  cases hr

theorem staysConfined_notification (image : Mem) (argv : List String) (flags : UInt8) :
    StaysConfined image argv (notification flags) := nofun

theorem staysConfined_region {image : Mem} {argv : List String} {map : FlashMap} {r : FlashRegion}
    {c : HostCommand} (hmap : finalFlashMap image = some map) (hr : r ∈ map.regions)
    (hsel : Selected (options argv) r) (hc : RegionCommand image r c) : StaysConfined image argv c := by
  intro offset size hrange
  have hshipped := finalFlashMap_shipped hmap
  have hin := shippedMaps_inside map hshipped r hr
  -- where the range lies, and what it carries
  have hlies : r.base ≤ offset ∧ offset + size ≤ r.base + r.size ∧
      (c.command = ecCmdFlashWrite → c.outdata.length = sizeofFlashWrite + size ∧
        ∀ i < size, Mem.ofList c.outdata (sizeofFlashWrite + i) = image (offset + i)) := by
    rcases hc with (hc | ⟨hc, herase⟩) | (hc | ⟨hc, i, n, hin, hwrite, hlen, hbytes⟩)
    · rw [flashRange_harmless hc] at hrange
      cases hrange
    · rw [herase] at hrange
      cases hrange
      refine ⟨Nat.le_refl _, Nat.le_refl _, fun hw => ?_⟩
      rw [hc] at hw
      exact absurd hw (by decide)
    · rw [flashRange_harmless hc] at hrange
      cases hrange
    · rw [hwrite] at hrange
      cases hrange
      refine ⟨by omega, by omega, fun _ => ⟨hlen, fun j hj => ?_⟩⟩
      rw [hbytes j hj, Mem.drop_apply, Nat.add_assoc]
  obtain ⟨hlow, hhigh, hpayload⟩ := hlies
  refine ⟨⟨map, r, hmap, hr, hsel, hlow, hhigh⟩, Nat.le_trans hhigh hin, hpayload, ?_⟩
  rintro hall map' s hmap' hs hskip
  rw [hmap] at hmap'
  cases hmap'
  rcases shippedMaps_disjoint map hshipped r hr s hs with rfl | hbelow | habove
  · rw [selected_not_skip hshipped hr hall hsel] at hskip
    cases hskip
  · exact .inl (by omega)
  · exact .inr (by omega)

/-! ### Whole runs -/

theorem holds_reflash (fuel : Nat) (image : Mem) (argv : List String) (filename : String) :
    Attempt.Holds (fun _ => True) (fun _ => True) (Sends (StaysConfined image argv)) Exit.Fails
      (fun _ => True) (reflash fuel image (reflashArgs {} (argv.drop 1)) filename) := by
  unfold reflash
  have hprepare := holds_prepare (H := fun _ => True) (G := fun _ => True) trivial image
    (reflashArgs {} (argv.drop 1)) filename
  apply Attempt.Holds.bind (holds_sends hprepare fun c => staysConfined_harmless)
  rintro ⟨map, mask, verifyBuffer⟩ ⟨hmap, hmask⟩
  simp only at hmap hmask ⊢
  subst hmask
  have hshipped := finalFlashMap_shipped hmap
  have hnotify {c : HostCommand} {f g : UInt8} (hc : c = notification f ∨ c = notification g) :
      StaysConfined image argv c := by
    rcases hc with rfl | rfl <;> exact staysConfined_notification image argv _
  apply Attempt.Holds.bind (holds_sends (holds_unlock map) fun c => hnotify)
  intro _ _
  rw [flashRegions_eq]
  refine Attempt.Holds.bind (Q := fun _ => True) ?_ fun _ _ =>
    holds_sends (holds_lock map) fun c => hnotify
  refine holds_sends (holds_flashAll trivial trivial fuel image (fun r hr => ?_) _ _) ?_
  · have := shippedMaps_inside map hshipped r hr
    omega
  · rintro c ⟨k, hk, r, hr, hc⟩
    rw [mem_setBits, getLsbD_regionMask (shippedMaps_length map hshipped)] at hk
    obtain ⟨r', hr', hsel⟩ := hk
    rw [hr] at hr'
    cases hr'
    exact staysConfined_region hmap (List.mem_of_getElem? hr) hsel hc

/-- A finished run of `reflash` that did not get through does not end in success. -/
theorem reflash_through {fuel : Nat} {image : Mem} {argv : List String} {filename : String} {t : Trace Services}
    {o : Outcome (Except Exit Unit)}
    (h : Run (reflash fuel image (reflashArgs {} (argv.drop 1)) filename).run t o)
    (hend : (∃ e, o = .done (.error e) ∧ efiSuccess = e.status) ∨ o = .done (.ok ())) : o = .done (.ok ()) := by
  rcases hend with ⟨e, rfl, hstatus⟩ | ho
  · have hfails := Prog.Holds.result (holds_reflash fuel image argv filename) h
    exact absurd hstatus.symm hfails
  · exact ho

/-- **Every erase and write command of a run of `cmd_reflash` is confined to the regions that were
asked for**, and the mask is the set of these. -/
theorem cmdReflash_confined {fuel : Nat} {image : Mem} {argv : List String} {t : Trace Services}
    {o : Outcome EfiStatus} (h : Run (cmdReflash fuel image argv) t o) :
    (∀ e ∈ t, ∀ c ∈ hostCommand e, ∀ offset size, flashRange c = some (offset, size) →
      Confined image argv c offset size) ∧
    ∀ map, finalFlashMap image = some map → ∀ i,
      (regionMask (reflashArgs {} (argv.drop 1)) map).getLsbD i = true ↔
        ∃ r, map.regions[i]? = some r ∧ Selected (options argv) r := by
  constructor
  · refine Prog.Holds.events (H := fun _ => True) (P := Sends (StaysConfined image argv))
      (Q := fun _ => True) ?_ h
    have hfinish (e : Exit) : Prog.Holds (fun _ => True) (fun _ => True)
        (Sends (StaysConfined image argv)) (fun _ => True) (finish e) :=
      (holds_sends (holds_finish e) fun _ => False.elim).post fun _ _ => trivial
    rw [cmdReflash]
    split
    · trivial
    · rename_i filename _
      apply Prog.Holds.bind (holds_reflash fuel image argv filename)
      intro r _
      cases r with
      | ok a => exact hfinish _
      | error e => exact hfinish e
  · intro map hmap
    exact getLsbD_regionMask (shippedMaps_length map (finalFlashMap_shipped hmap)) argv

/-- A run on an hx30 that erases RW and fails there. -/
theorem cmdReflash_confined_hx30 :
    (∀ e ∈ sampleRun "hx30_v1" "hx30_v0" (fun _ => true) ["reflash", "--rw", "ec.bin"],
      ∀ c ∈ hostCommand e, ∀ offset size, flashRange c = some (offset, size) →
        Confined (sampleImage "hx30_v1") ["reflash", "--rw", "ec.bin"] c offset size) ∧
    (sampleRun "hx30_v1" "hx30_v0" (fun _ => true) ["reflash", "--rw", "ec.bin"]).any (fun e =>
      (hostCommand e).bind flashRange = some (0x40000, 0x39000)) = true :=
  ⟨(cmdReflash_confined (Prog.run_transcript _ _)).1, by decide⟩

end FrameworkHacks.ECTool
