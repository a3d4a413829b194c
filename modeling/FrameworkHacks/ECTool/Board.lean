import FrameworkHacks.ECTool.Gates
import FrameworkHacks.FmapBounds

/-!
# The board checks

The comparison of line 232 and the map lookup stop at the length of the image's board name, so that a
name that ends at a delimiter is compared as a prefix. `boardSafe_iff` says for which images and EC
versions this is the comparison that was meant.
-/

namespace FrameworkHacks.ECTool

open Effects

/-! ### Comparing strings -/

theorem strnCmp_eq_zero (a b : Mem) (n : Nat) : strnCmp a b n = 0 ↔ a.text n = b.text n := by
  cases n with
  | zero => exact ⟨fun _ => rfl, fun _ => rfl⟩
  | succ n =>
    have h := asciiStrnCmpFrom_eq_zero a b 0 n
    rw [Mem.drop_zero, Mem.drop_zero] at h
    exact h

/-! ### The text before the delimiter -/

/-- The string before the first delimiter in a field of 32 bytes. -/
def boardText (field : Mem) : List UInt8 :=
  ((field.toList 32).takeWhile fun c => !isDelimiter c).takeWhile (· ≠ 0)

theorem boardIdLength_eq (id : Mem) (k n : Nat) : boardIdLength (m := Id) id k n =
    (k + (((id.drop k).toList n).takeWhile fun c => !isDelimiter c).length : Nat) := by
  induction n generalizing k with
  | zero => rfl
  | succ n ih =>
    have hstep : boardIdLength (m := Id) id k (n + 1) =
        if isDelimiter (id k) = true then k else boardIdLength (m := Id) id (k + 1) n := rfl
    rw [hstep, Mem.toList_drop_succ, List.takeWhile_cons]
    cases h : isDelimiter (id k) with
    | true => simp
    | false =>
      simp only [Bool.false_eq_true, if_false, Bool.not_false, if_true, List.length_cons]
      rw [ih]
      exact Nat.add_right_comm k 1 _

theorem truncateBoard_below (id : Mem) {i k : Nat} (n : Nat) (h : i < k) :
    truncateBoard id k n i = id i := by
  induction n generalizing k with
  | zero => rfl
  | succ n ih =>
    unfold truncateBoard
    split
    · exact Mem.set_ne id 0 (by omega)
    · exact ih (by omega)

theorem text_truncateBoard (id : Mem) (k : Nat) {j n : Nat} (h : j ≤ n) :
    ((truncateBoard id k n).drop k).text j =
      (((id.drop k).toList j).takeWhile fun c => !isDelimiter c).takeWhile (· ≠ 0) := by
  induction n generalizing j k with
  | zero =>
    obtain rfl : j = 0 := by omega
    rfl
  | succ n ih =>
    cases j with
    | zero => rfl
    | succ j =>
      rw [truncateBoard, Mem.text_drop_succ, Mem.toList_drop_succ, List.takeWhile_cons]
      cases hd : isDelimiter (id k) with
      | true => simp
      | false =>
        simp only [Bool.false_eq_true, if_false, Bool.not_false, if_true]
        rw [truncateBoard_below id n (by omega), ih (k + 1) (by omega), List.takeWhile_cons]
        by_cases h0 : id k = 0 <;> simp [h0]

/-- The string the EC's board name is in: the RO version, or the RW version if that is empty. -/
def versionString (versionResponse : Mem) : Mem :=
  if versionResponse 0 = 0 then versionResponse.drop 32 else versionResponse

theorem text_currentBoardId (versionResponse : Mem) {n : Nat} (h : n ≤ 32) :
    (currentBoardId versionResponse).text n = (boardText (versionString versionResponse)).take n := by
  have htrunc := text_truncateBoard (versionString versionResponse) 0 h
  rw [Mem.drop_zero, Mem.drop_zero] at htrunc
  rw [boardText, List.take_takeWhile, List.take_takeWhile, Mem.toList_take _ h]
  exact htrunc

theorem boardText_congr {field field' : Mem} (h : ∀ i < 32, field i = field' i) :
    boardText field = boardText field' := by
  rw [boardText, Mem.toList_congr h, boardText]

theorem boardText_versionString_congr {v v' : Mem} (h : ∀ i < 64, v i = v' i) :
    boardText (versionString v) = boardText (versionString v') := by
  refine boardText_congr fun i hi => ?_
  rw [versionString, versionString, h 0 (by omega)]
  split
  · exact h (32 + i) (by omega)
  · exact h i (by omega)

theorem boardText_of_zero {field : Mem} (h : field 0 = 0) : boardText field = [] := by
  rw [boardText, Mem.toList_succ, List.takeWhile_cons, h]
  rfl

/-- A NUL comes before the first delimiter. -/
def EndsInNul (field : Mem) : Prop := 0 ∈ (field.toList 32).takeWhile fun c => !isDelimiter c

instance (field : Mem) : Decidable (EndsInNul field) :=
  inferInstanceAs (Decidable (0 ∈ (field.toList 32).takeWhile fun c => !isDelimiter c))

section

variable (image : Mem) (area : Nat)

theorem firmwareBoardIdLength_eq : firmwareBoardIdLength image area =
    (((firmwareBoardId image area).toList 32).takeWhile fun c => !isDelimiter c).length := by
  have h := boardIdLength_eq (firmwareBoardId image area) 0 32
  rw [Mem.drop_zero, Nat.zero_add] at h
  exact h

theorem firmwareBoardIdLength_le : firmwareBoardIdLength image area ≤ 32 := by
  rw [firmwareBoardIdLength_eq]
  exact (List.takeWhile_prefix _).length_le.trans (by simp)

theorem text_firmwareBoardId : (firmwareBoardId image area).text (firmwareBoardIdLength image area) =
    boardText (firmwareBoardId image area) := by
  have hpre := List.prefix_iff_eq_take.1 (List.takeWhile_prefix
    (l := (firmwareBoardId image area).toList 32) fun c => !isDelimiter c)
  rw [← firmwareBoardIdLength_eq, Mem.toList_take _ (firmwareBoardIdLength_le image area)] at hpre
  rw [boardText, Mem.text, hpre]

/-- What a comparison up to the length says: equality for a name that ends in NUL, else a prefix. -/
theorem take_eq_boardText (l : List UInt8) :
    l.take (firmwareBoardIdLength image area) = boardText (firmwareBoardId image area) ↔
      if EndsInNul (firmwareBoardId image area) then l = boardText (firmwareBoardId image area)
      else boardText (firmwareBoardId image area) <+: l := by
  rw [firmwareBoardIdLength_eq, boardText]
  set name := ((firmwareBoardId image area).toList 32).takeWhile fun c => !isDelimiter c
  split
  · rename_i hnul
    change 0 ∈ name at hnul
    have hshort : (name.takeWhile (· ≠ 0)).length < name.length := by
      refine Nat.lt_of_le_of_ne (List.takeWhile_prefix _).length_le ?_
      intro heq
      have hself := (List.takeWhile_prefix (l := name) (· ≠ 0)).eq_of_length heq
      have := List.takeWhile_eq_self_iff.1 hself 0 hnul
      simp at this
    constructor
    · intro h
      have hlen := congrArg List.length h
      rw [List.length_take] at hlen
      rwa [List.take_of_length_le (by omega)] at h
    · rintro rfl
      exact List.take_of_length_le hshort.le
  · rename_i hnul
    change 0 ∉ name at hnul
    have hself : name.takeWhile (· ≠ 0) = name := by
      apply List.takeWhile_eq_self_iff.2
      intro c hc
      exact decide_eq_true fun h0 => hnul (h0 ▸ hc)
    rw [hself, List.prefix_iff_eq_take, eq_comm]

end

/-! ### The checks -/

theorem flashMaps_nonzero : ∀ map ∈ flashMaps, 0 ∉ ascii map.board := by decide

/-- No board name continues another one. -/
theorem flashMaps_prefix : ∀ map ∈ flashMaps, ∀ map' ∈ flashMaps, ascii map.board <+: ascii map'.board →
    map = map' := by decide

section

variable (image : Mem) (area : Nat)

theorem strnCmp_current (versionResponse : Mem) :
    strnCmp (currentBoardId versionResponse) (firmwareBoardId image area)
        (firmwareBoardIdLength image area) = 0 ↔
      if EndsInNul (firmwareBoardId image area) then
        boardText (versionString versionResponse) = boardText (firmwareBoardId image area)
      else boardText (firmwareBoardId image area) <+: boardText (versionString versionResponse) := by
  rw [strnCmp_eq_zero, text_firmwareBoardId, text_currentBoardId _ (firmwareBoardIdLength_le image area),
    take_eq_boardText]

theorem strnCmp_board {map : FlashMap} (hmap : map ∈ flashMaps) :
    strnCmp (Mem.ofList (ascii map.board)) (firmwareBoardId image area)
        (firmwareBoardIdLength image area) = 0 ↔
      if EndsInNul (firmwareBoardId image area) then
        ascii map.board = boardText (firmwareBoardId image area)
      else boardText (firmwareBoardId image area) <+: ascii map.board := by
  have hchars : ∀ c ∈ ascii map.board, c ≠ 0 := fun c hc h0 => flashMaps_nonzero map hmap (h0 ▸ hc)
  rw [strnCmp_eq_zero, text_firmwareBoardId, Mem.text_ofList hchars, take_eq_boardText]

end

/-! ### Proceeding -/

/-- The part of `cmd_reflash` up to the end of the board checks. -/
def throughBoardChecks (image : Mem) (a : ReflashArgs) (filename : String) : Step (Mem × FlashMap) := do
  let status ← readyOrForced a.force
  Attempt.leaveIf (efiError status = true) (.out {} status)
  let verifyBuffer ← loadFirmware filename
  let map ← checkBoard image a.force
  return (verifyBuffer, map)

/-- The part of `prepare` after them. -/
def afterBoardChecks (a : ReflashArgs) (s : Mem × FlashMap) : Step Plan := do
  let mask := regionMask a s.2
  countdown 7
  let status ← readyOrForced a.force
  Attempt.leaveIf (efiError status = true) (.out .all status)
  return ⟨s.2, mask, s.1⟩

theorem prepare_eq (image : Mem) (a : ReflashArgs) (filename : String) :
    prepare image a filename = throughBoardChecks image a filename >>= afterBoardChecks a := by
  simp only [prepare, throughBoardChecks, afterBoardChecks, bind_assoc, pure_bind]

/-- The run gets past the board checks, with the reply `r` to `GET_VERSION`, and goes on with `map`. -/
def Proceeds (image : Mem) (argv : List String) (t : Trace Services) (r : Reply) (map : FlashMap) :
    Prop :=
  ∃ filename u v verifyBuffer, (reflashArgs {} (argv.drop 1)).filename = some filename ∧ t = u ++ v ∧
    Attempt.Reaches (throughBoardChecks image (reflashArgs {} (argv.drop 1)) filename) u
      (verifyBuffer, map) ∧
    ⟨.sendCommand ⟨ecCmdGetVersion, 0, [], sizeofGetVersion⟩, r⟩ ∈ u

/-- The board name of the image, and the one the EC reports. -/
def imageBoard (image : Mem) (area : Nat) : List UInt8 := boardText (firmwareBoardId image area)

def ecBoard (r : Reply) : List UInt8 := boardText (versionString (r.into (fun _ => 0) sizeofGetVersion))

/-- With fewer than two `-f` no run proceeds unless the two names are the same, and the map is the one
for that name. -/
def BoardSafe (image : Mem) (area : Nat) (r : Reply) : Prop :=
  ∀ fuel argv t o map, Run (cmdReflash fuel image argv) t o → forceLevel argv < 2 →
    Proceeds image argv t r map →
      imageBoard image area = ecBoard r ∧ map ∈ flashMaps ∧ ascii map.board = imageBoard image area

/-- What has to hold of a name that ends at a delimiter: it is no prefix of the EC's name, or of no
board's name, or it is the EC's name and a board's name. -/
def BoardUnambiguous (image : Mem) (area : Nat) (r : Reply) : Prop :=
  EndsInNul (firmwareBoardId image area) ∨ ¬imageBoard image area <+: ecBoard r ∨
    (∀ map ∈ flashMaps, ¬imageBoard image area <+: ascii map.board) ∨
    imageBoard image area = ecBoard r ∧ ∃ map ∈ flashMaps, ascii map.board = imageBoard image area

section

variable {image : Mem} {area : Nat}

theorem reaches_throughBoardChecks {a : ReflashArgs} {filename : String} {t : Trace Services} {r : Reply}
    {verifyBuffer : Mem} {map : FlashMap} (harea : roFrid image = some area) (hforce : a.force < 2)
    (h : Attempt.Reaches (throughBoardChecks image a filename) t (verifyBuffer, map))
    (hr : ⟨.sendCommand ⟨ecCmdGetVersion, 0, [], sizeofGetVersion⟩, r⟩ ∈ t) :
    strnCmp (currentBoardId (r.into (fun _ => 0) sizeofGetVersion)) (firmwareBoardId image area)
        (firmwareBoardIdLength image area) = 0 ∧
      findFlashMap (firmwareBoardId image area) (firmwareBoardIdLength image area) = some map := by
  unfold throughBoardChecks at h
  obtain ⟨first, t, status, rfl, hfirst, h₁⟩ := Attempt.reaches_bind h
  obtain ⟨hstatus, h₂⟩ := Attempt.reaches_leaveIf_bind h₁
  obtain ⟨load, t, verify, rfl, hload, h₃⟩ := Attempt.reaches_bind h₂
  obtain ⟨board, t, map', rfl, hboard, h₄⟩ := Attempt.reaches_bind h₃
  obtain ⟨rfl, hmap⟩ := Attempt.reaches_pure h₄
  cases hmap
  have hmap := (holds_checkBoard (H := fun _ => True) trivial image a.force).value hboard
  obtain ⟨r', area', rfl, -, harea', hpasses⟩ := reaches_checkBoard hboard
  rw [harea] at harea'
  cases harea'
  obtain ⟨opened, firmware, verify', read, -, -, rfl⟩ := reaches_loadFirmware hload
  -- the only `GET_VERSION` is the one of the board check
  have hfirst' : ∀ c, ∀ x, (⟨.sendCommand c, x⟩ : Event Services) ∉ first := by
    intro c x hmem
    have hready := Attempt.reaches_lift hfirst
    unfold readyOrForced at hready
    split at hready
    · rw [hready.pure_done.1] at hmem
      cases hmem
    · have hnone := (holds_checkReadyForECFlash (H := fun _ => True) (G := fun _ => True)
        (P := fun e => hostCommand e = none) trivial fun _ _ _ => rfl).events hready _ hmem
      cases hnone
  obtain rfl : r = r' := by
    simpa [hfirst'] using hr
  rw [finalFlashMap, harea, Option.map_some, Option.some.injEq] at hmap
  rcases hpasses with ⟨hcmp | hcmp, hfind | hfind⟩
  · omega
  · omega
  · omega
  obtain ⟨found, hfound⟩ := Option.ne_none_iff_exists'.1 hfind
  rw [hfound, Option.getD_some] at hmap
  exact ⟨hcmp, by rw [hfound, hmap]⟩

theorem checkBoard_reaches {force : Nat} {r : Reply} {map : FlashMap} (hrv : 0 ≤ r.rv)
    (harea : roFrid image = some area)
    (hcmp : strnCmp (currentBoardId (r.into (fun _ => 0) sizeofGetVersion)) (firmwareBoardId image area)
      (firmwareBoardIdLength image area) = 0)
    (hfind : findFlashMap (firmwareBoardId image area) (firmwareBoardIdLength image area) = some map) :
    Attempt.Reaches (checkBoard image force)
      [⟨.sendCommand ⟨ecCmdGetVersion, 0, [], sizeofGetVersion⟩, r⟩] map := by
  rw [Attempt.Reaches, checkBoard, Attempt.run_lift_bind]
  refine Run.bind (u := []) (Run.perform (E := Services)
    (.sendCommand ⟨ecCmdGetVersion, 0, [], sizeofGetVersion⟩) r) ?_
  have hneg : ¬r.rv < 0 := by omega
  have hsame : ¬(force < 2 ∧ strnCmp (currentBoardId (r.into (fun _ => 0) sizeofGetVersion))
      (firmwareBoardId image area) (firmwareBoardIdLength image area) ≠ 0) := fun h => h.2 hcmp
  change Run (Attempt.leaveIf (r.rv < 0) _ >>= _ : Step FlashMap).run [] _
  rw [Attempt.run_leaveIf_bind, if_neg hneg]
  simp only [harea, if_neg hsame, hfind]
  exact Run.ret (Except.ok map)

/-- What passes the comparisons is flashed: with one `-f` even without looking at the battery. -/
theorem exists_proceeds {r : Reply} {map : FlashMap} (hrv : 0 ≤ r.rv) (harea : roFrid image = some area)
    (hcmp : strnCmp (currentBoardId (r.into (fun _ => 0) sizeofGetVersion)) (firmwareBoardId image area)
      (firmwareBoardIdLength image area) = 0)
    (hfind : findFlashMap (firmwareBoardId image area) (firmwareBoardIdLength image area) = some map) :
    ∃ t, Run (cmdReflash 0 image ["reflash", "-f", "ec.bin"]) t .running ∧
      Proceeds image ["reflash", "-f", "ec.bin"] t r map := by
  have hfile : (reflashArgs {} (["reflash", "-f", "ec.bin"].drop 1)).filename = some "ec.bin" := by decide
  have hforce : (reflashArgs {} (["reflash", "-f", "ec.bin"].drop 1)).force = 1 := by decide
  have hload : Attempt.Reaches (loadFirmware "ec.bin")
      ((loadFirmware "ec.bin").run.transcript (sampleServices fun _ => ⟨0, []⟩)) (fun _ => 0) :=
    Prog.run_transcript _ _
  have hthrough : ∃ u verifyBuffer, Attempt.Reaches (throughBoardChecks image
      (reflashArgs {} (["reflash", "-f", "ec.bin"].drop 1)) "ec.bin") u (verifyBuffer, map) ∧
      ⟨.sendCommand ⟨ecCmdGetVersion, 0, [], sizeofGetVersion⟩, r⟩ ∈ u := by
    rw [throughBoardChecks, hforce]
    refine ⟨_, _, Attempt.Reaches.bind (Run.ret (Except.ok efiSuccess)) (Attempt.Reaches.leaveIf_bind
      (by decide) (Attempt.Reaches.bind hload (Attempt.Reaches.bind
        (checkBoard_reaches hrv harea hcmp hfind) (Run.ret (Except.ok _))))), by simp⟩
  obtain ⟨u, verifyBuffer, hreaches, hmem⟩ := hthrough
  refine ⟨u, ?_, "ec.bin", u, [], verifyBuffer, hfile, by simp, hreaches, hmem⟩
  unfold cmdReflash
  simp only [hfile]
  apply Run.bind_running
  rw [reflash, Attempt.run_bind]
  apply Run.bind_running
  rw [prepare_eq, Attempt.run_bind]
  exact Run.bind_running (Attempt.run_running hreaches)

/-- **The board checks are safe exactly for names the comparison cannot confuse.** -/
theorem boardSafe_iff {r : Reply} (hrv : 0 ≤ r.rv) (harea : roFrid image = some area) :
    BoardSafe image area r ↔ BoardUnambiguous image area r := by
  have hcompare := strnCmp_current image area (r.into (fun _ => 0) sizeofGetVersion)
  constructor
  · -- a name that can be confused gets through
    intro hsafe
    by_contra hbad
    simp only [BoardUnambiguous, not_or, not_and, not_not, not_forall] at hbad
    obtain ⟨hnul, hcurrent, ⟨map, hmap, hpre⟩, hnot⟩ := hbad
    rw [if_neg hnul] at hcompare
    have hsome : findFlashMap (firmwareBoardId image area) (firmwareBoardIdLength image area) ≠ none := by
      intro hnone
      refine absurd (List.find?_eq_none.1 hnone map hmap) (not_not.2 (decide_eq_true ?_))
      rw [strnCmp_board image area hmap, if_neg hnul]
      exact hpre
    obtain ⟨found, hfound⟩ := Option.ne_none_iff_exists'.1 hsome
    obtain ⟨t, hrun, hproceeds⟩ := exists_proceeds hrv harea (hcompare.2 hcurrent) hfound
    obtain ⟨hsame, hknown, hname⟩ := hsafe _ _ _ _ _ hrun (by decide) hproceeds
    exact hnot hsame ⟨found, hknown, hname⟩
  · rintro hgood fuel argv t o map - hforce ⟨filename, u, v, verifyBuffer, -, -, hreaches, hmem⟩
    have hlevel : (reflashArgs {} (argv.drop 1)).force < 2 := by
      simpa [reflashArgs_eq, forceLevel, options] using hforce
    obtain ⟨hcmp, hfind⟩ := reaches_throughBoardChecks harea hlevel hreaches hmem
    have hknown : map ∈ flashMaps := List.mem_of_find?_eq_some hfind
    unfold findFlashMap at hfind
    have hmatch := List.find?_some hfind
    have hboard := (strnCmp_board image area hknown).1 (of_decide_eq_true hmatch)
    have hcmp := hcompare.1 hcmp
    by_cases hnul : EndsInNul (firmwareBoardId image area)
    · rw [if_pos hnul] at hcmp hboard
      exact ⟨hcmp.symm, hknown, hboard⟩
    · rw [if_neg hnul] at hcmp hboard
      rcases hgood with hnul' | hcurrent | hnone | ⟨hsame, map', hmap', hname⟩
      · exact absurd hnul' hnul
      · exact absurd hcmp hcurrent
      · exact absurd hboard (hnone map hknown)
      · -- the map that was found is the one with that name
        have hpre : ascii map'.board <+: ascii map.board := by
          rw [hname]
          exact hboard
        obtain rfl := flashMaps_prefix map' hmap' map hknown hpre
        exact ⟨hsame, hknown, hname⟩

end

/-- The image and the EC of an hx30 are told from any others. -/
theorem boardSafe_hx30 : BoardSafe (sampleImage "hx30_v1") 56 ⟨sizeofGetVersion, ascii "hx30_v0"⟩ :=
  (boardSafe_iff (by decide) (by decide)).2 (.inr (.inr (.inr (by decide))))

/-- An image without a board name is taken for an hx20 image, and flashed to a marigold. -/
theorem boardSafe_fails :
    ¬(∀ image area r, roFrid image = some area → 0 ≤ r.rv → BoardSafe image area r) := by
  intro h
  obtain ⟨t, hrun, hproceeds⟩ := @exists_proceeds (sampleImage "_v1") 56
    ⟨sizeofGetVersion, ascii "marigold_v3"⟩ ⟨"hx20", hxFlashRegions, flashDeviceRequiresUnlock⟩ (by decide)
    (by decide) (by decide) (by decide)
  have hsafe := h (sampleImage "_v1") 56 ⟨sizeofGetVersion, ascii "marigold_v3"⟩ (by decide) (by decide)
  exact absurd (hsafe _ _ _ _ _ hrun (by decide) hproceeds).1 (by decide)

end FrameworkHacks.ECTool
