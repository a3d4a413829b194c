import FrameworkHacks.ECTool.Order

/-!
# The gates before the flash

A run of `cmd_reflash` either ends before the unlock, with the flash untouched and without reporting
success, or begins with a part in which it passed every gate (`prepare_gates`). Success is reported
only after every selected region was done and the flash was locked again (`cmdReflash_gated`).
-/

namespace FrameworkHacks.ECTool

open Effects

/-! ### What each stage saw -/

/-- What a look at the keyboard returned. -/
def keyStatus : Event Services → Option EfiStatus
  | ⟨.readKeyStroke, status⟩ => some status
  | _ => none

theorem reaches_loadFirmware {filename : String} {t : Trace Services} {m : Mem}
    (h : Attempt.Reaches (loadFirmware filename) t m) :
    ∃ opened firmware verify status, efiError opened = false ∧ efiError status = false ∧
      t = [⟨.shellOpenFileByName filename, opened⟩, ⟨.shellGetFileInfo, some imageSize⟩,
        ⟨.allocatePool .firmwareBuffer imageSize, firmware⟩,
        ⟨.allocatePool .verifyBuffer imageSize, verify⟩,
        ⟨.shellReadFile imageSize, (status, imageSize)⟩] := by
  unfold loadFirmware at h
  obtain ⟨opened, u, rfl, h₁⟩ := Attempt.reaches_perform h
  obtain ⟨hopened, h₂⟩ := Attempt.reaches_leaveIf_bind h₁
  obtain ⟨info, u, rfl, h₃⟩ := Attempt.reaches_perform h₂
  cases info with
  | none => exact (Run.halt_not_done (Attempt.reaches_lift h₃)).elim
  | some fileSize =>
    obtain ⟨hsize, h₄⟩ := Attempt.reaches_leaveIf_bind h₃
    obtain rfl : fileSize = imageSize := not_not.1 hsize
    obtain ⟨firmware, u, rfl, h₅⟩ := Attempt.reaches_perform h₄
    obtain ⟨verify, u, rfl, h₆⟩ := Attempt.reaches_perform h₅
    obtain ⟨-, h₇⟩ := Attempt.reaches_leaveIf_bind h₆
    obtain ⟨⟨status, readSize⟩, u, rfl, h₈⟩ := Attempt.reaches_perform h₇
    obtain ⟨hstatus, h₉⟩ := Attempt.reaches_leaveIf_bind h₈
    obtain ⟨hread, h₁₀⟩ := Attempt.reaches_leaveIf_bind h₉
    obtain rfl : readSize = imageSize := not_not.1 hread
    obtain ⟨rfl, -⟩ := Attempt.reaches_pure h₁₀
    exact ⟨opened, firmware, verify, status, by simpa using hopened, by simpa using hstatus, rfl⟩

/-- The board checks, for a level of force and a reply to `GET_VERSION`. -/
def BoardPasses (image : Mem) (force : Nat) (r : Reply) (area : Nat) : Prop :=
  (2 ≤ force ∨ strnCmp (currentBoardId (r.into (fun _ => 0) sizeofGetVersion))
    (firmwareBoardId image area) (firmwareBoardIdLength image area) = 0) ∧
  (2 ≤ force ∨ findFlashMap (firmwareBoardId image area) (firmwareBoardIdLength image area) ≠ none)

theorem reaches_checkBoard {image : Mem} {force : Nat} {t : Trace Services} {map : FlashMap}
    (h : Attempt.Reaches (checkBoard image force) t map) :
    ∃ r area, t = [⟨.sendCommand ⟨ecCmdGetVersion, 0, [], sizeofGetVersion⟩, r⟩] ∧ 0 ≤ r.rv ∧
      roFrid image = some area ∧ BoardPasses image force r area := by
  unfold checkBoard at h
  obtain ⟨r, u, rfl, h₁⟩ := Attempt.reaches_perform h
  obtain ⟨hrv, h₂⟩ := Attempt.reaches_leaveIf_bind h₁
  cases harea : roFrid image with
  | none =>
    simp only [harea] at h₂
    exact (Attempt.not_reaches_throw h₂).elim
  | some area =>
    simp only [harea] at h₂
    split at h₂
    · obtain ⟨_, _, _, _, _, hthrow⟩ := Attempt.reaches_bind h₂
      exact (Attempt.not_reaches_throw hthrow).elim
    rename_i hboard
    have hboard : 2 ≤ force ∨ strnCmp (currentBoardId (r.into (fun _ => 0) sizeofGetVersion))
        (firmwareBoardId image area) (firmwareBoardIdLength image area) = 0 := by
      by_cases hforce : 2 ≤ force
      · exact .inl hforce
      · exact .inr (by_contra fun hne => hboard ⟨by omega, hne⟩)
    cases hfind : findFlashMap (firmwareBoardId image area) (firmwareBoardIdLength image area) with
    | some found =>
      simp only [hfind] at h₂
      obtain ⟨rfl, -⟩ := Attempt.reaches_pure h₂
      exact ⟨r, area, rfl, by omega, rfl, hboard, .inr (by simp [hfind])⟩
    | none =>
      simp only [hfind] at h₂
      obtain ⟨hforce, h₃⟩ := Attempt.reaches_leaveIf_bind h₂
      obtain ⟨rfl, -⟩ := Attempt.reaches_pure h₃
      exact ⟨r, area, rfl, by omega, rfl, hboard, .inl (by omega)⟩

theorem reaches_countdown {i : Nat} {t : Trace Services} (h : Attempt.Reaches (countdown i) t ()) :
    (t.filterMap keyStatus).length = i ∧ ∀ s ∈ t.filterMap keyStatus, efiError s = true := by
  induction i generalizing t with
  | zero =>
    obtain ⟨rfl, -⟩ := Attempt.reaches_pure h
    simp
  | succ i ih =>
    unfold countdown at h
    obtain ⟨_, u, rfl, h₁⟩ := Attempt.reaches_perform h
    obtain ⟨key, u, rfl, h₂⟩ := Attempt.reaches_perform h₁
    obtain ⟨hkey, h₃⟩ := Attempt.reaches_leaveIf_bind h₂
    obtain ⟨hlength, hall⟩ := ih h₃
    have hkeys : List.filterMap keyStatus (⟨.stall 1000000, ()⟩ :: ⟨.readKeyStroke, key⟩ :: u) =
        key :: List.filterMap keyStatus u := rfl
    rw [hkeys, List.length_cons, hlength]
    refine ⟨rfl, fun s hs => ?_⟩
    rcases List.mem_cons.1 hs with rfl | hs
    · simpa using hkey
    · exact hall s hs

theorem done_readyOrForced {force : Nat} {t : Trace Services} {status : EfiStatus}
    (h : Run (readyOrForced force) t (.done status)) (hstatus : efiError status = false) :
    t.filterMap keyStatus = [] ∧ (0 < force ∨ Run checkReadyForECFlash t (.done efiSuccess)) := by
  unfold readyOrForced at h
  split at h
  · obtain ⟨rfl, -⟩ := h.pure_done
    exact ⟨rfl, .inl ‹_›⟩
  · have hready := holds_checkReadyForECFlash (H := fun _ => True) (G := fun _ => True)
      (P := fun e => keyStatus e = none) trivial fun _ _ _ => rfl
    have hsuccess := hready.result h hstatus
    refine ⟨List.filterMap_eq_nil_iff.2 (hready.events h), .inr ?_⟩
    rwa [hsuccess] at h

/-! ### The gates -/

/-- How often `-f` was given. -/
def forceLevel (argv : List String) : Nat := (options argv).count "-f"

/-- The events of a run that passed every gate. -/
structure Gates (image : Mem) (argv : List String) (t : Trace Services) : Prop where
  opened : ∃ filename status, ((argv.drop 1).dropWhile isOption).head? = some filename ∧
    ⟨.shellOpenFileByName filename, status⟩ ∈ t ∧ efiError status = false
  size : ⟨.shellGetFileInfo, some 524288⟩ ∈ t
  read : ∃ status, ⟨.shellReadFile 524288, (status, 524288)⟩ ∈ t ∧ efiError status = false
  board : ∃ r fmap area, ⟨.sendCommand ⟨ecCmdGetVersion, 0, [], sizeofGetVersion⟩, r⟩ ∈ t ∧ 0 ≤ r.rv ∧
    imageFlashMap image = some fmap ∧ imageFlashArea image fmap "RO_FRID" = some area ∧
    BoardPasses image (forceLevel argv) r area
  /-- Seven looks at the keyboard, and none found a key. -/
  keys : (t.filterMap keyStatus).length = 7 ∧ ∀ s ∈ t.filterMap keyStatus, efiError s = true
  /-- The readiness check succeeded at the begin and at the end. -/
  ready : 0 < forceLevel argv ∨ ∃ first rest last, t = first ++ (rest ++ last) ∧
    Run checkReadyForECFlash first (.done efiSuccess) ∧ Run checkReadyForECFlash last (.done efiSuccess)

/-- **What gets through the preparation has passed every gate.** -/
theorem prepare_gates {image : Mem} {argv : List String} {filename : String} {t : Trace Services}
    {plan : Plan} (hfile : (reflashArgs {} (argv.drop 1)).filename = some filename)
    (h : Attempt.Reaches (prepare image (reflashArgs {} (argv.drop 1)) filename) t plan) :
    Gates image argv t := by
  have hforce : (reflashArgs {} (argv.drop 1)).force = forceLevel argv := by
    simp [reflashArgs_eq, forceLevel, options]
  have hname : ((argv.drop 1).dropWhile isOption).head? = some filename := by
    rw [reflashArgs_eq _ rfl] at hfile
    exact hfile
  rw [prepare, hforce] at h
  obtain ⟨first, t, status, rfl, hfirst, h⟩ := Attempt.reaches_bind h
  obtain ⟨hstatus, h⟩ := Attempt.reaches_leaveIf_bind h
  obtain ⟨load, t, verify, rfl, hload, h⟩ := Attempt.reaches_bind h
  obtain ⟨board, t, map, rfl, hboard, h⟩ := Attempt.reaches_bind h
  obtain ⟨keys, t, ⟨⟩, rfl, hkeys, h⟩ := Attempt.reaches_bind h
  obtain ⟨last, t, status', rfl, hlast, h⟩ := Attempt.reaches_bind h
  obtain ⟨hstatus', h⟩ := Attempt.reaches_leaveIf_bind h
  obtain ⟨rfl, -⟩ := Attempt.reaches_pure h
  obtain ⟨hfirstKeys, hfirst⟩ := done_readyOrForced (Attempt.reaches_lift hfirst) (by simpa using hstatus)
  obtain ⟨hlastKeys, hlast⟩ := done_readyOrForced (Attempt.reaches_lift hlast) (by simpa using hstatus')
  obtain ⟨opened, firmware, verify', read, hopened, hread, hloaded⟩ := reaches_loadFirmware hload
  obtain ⟨r, area, hchecked, hrv, harea, hpasses⟩ := reaches_checkBoard hboard
  rw [roFrid, Option.bind_eq_some_iff] at harea
  obtain ⟨fmap, hfmap, harea⟩ := harea
  have hsize : (524288 : UInt64) = imageSize := rfl
  refine ⟨⟨filename, opened, hname, by simp [hloaded], hopened⟩, by simp [hloaded, hsize],
    ⟨read, by simp [hloaded, hsize], hread⟩,
    ⟨r, fmap, area, by simp [hchecked], hrv, hfmap, harea, hpasses⟩, ?_, ?_⟩
  · have hloadKeys : load.filterMap keyStatus = [] := by rw [hloaded]; rfl
    have hboardKeys : board.filterMap keyStatus = [] := by rw [hchecked]; rfl
    simp only [List.filterMap_append, hfirstKeys, hloadKeys, hboardKeys, hlastKeys, List.nil_append,
      List.append_nil]
    exact reaches_countdown hkeys
  · rcases hfirst with hforce | hfirst
    · exact .inl hforce
    rcases hlast with hforce | hlast
    · exact .inl hforce
    · exact .inr ⟨first, load ++ (board ++ keys), last, by simp, hfirst, hlast⟩

/-! ### Success -/

/-- A notification and its reply. -/
def notified (flags : UInt8) (r : Reply) : Event Services := ⟨.sendCommand (notification flags), r⟩

theorem reaches_notify_iff {f g : UInt8} {t : Trace Services} :
    Attempt.Reaches (do
      let r ← flashNotified f
      Attempt.leaveIf (r.rv < 0) (.ecOut .all r.rv efiSuccess)
      let r ← flashNotified g
      Attempt.leaveIf (r.rv < 0) (.ecOut .all r.rv efiSuccess) : Step Unit) t () ↔
    ∃ r r', t = [notified f r, notified g r'] ∧ 0 ≤ r.rv ∧ 0 ≤ r'.rv := by
  constructor
  · intro h
    obtain ⟨r, u, rfl, h₁⟩ := Attempt.reaches_perform h
    obtain ⟨hr, h₂⟩ := Attempt.reaches_leaveIf_bind h₁
    obtain ⟨r', u, rfl, h₃⟩ := Attempt.reaches_perform h₂
    obtain ⟨hr', rfl⟩ := Attempt.reaches_leaveIf h₃
    exact ⟨r, r', rfl, by omega, by omega⟩
  · rintro ⟨r, r', rfl, hr, hr'⟩
    refine Attempt.Reaches.perform_bind (E := Services) ?_
    refine Attempt.Reaches.leaveIf_bind (Int.not_lt.2 hr) ?_
    refine Attempt.Reaches.perform_bind (E := Services) ?_
    rw [Attempt.leaveIf, if_neg (Int.not_lt.2 hr')]
    exact .ret _

theorem reaches_lock {map : FlashMap} {t : Trace Services} (h : Attempt.Reaches (lock map) t ())
    (hunlock : map.requiresUnlock = true) :
    ∃ r r', t = [notified flashAccessSpiDone r, notified flashFirmwareDone r'] ∧ 0 ≤ r.rv ∧ 0 ≤ r'.rv := by
  rw [lock, if_pos hunlock] at h
  exact reaches_notify_iff.1 h

/-- A run that did all that was asked for: every selected region went through every stage, and a map
that requires unlocking was locked again. -/
def Completed (fuel : Nat) (image : Mem) (argv : List String) (t : Trace Services) : Prop :=
  ∃ (map : FlashMap) (pre : Trace Services) (calls : List Call) (post : Trace Services),
    finalFlashMap image = some map ∧
    t = pre ++ (calls.flatMap Call.events ++ post) ∧ (∀ c ∈ calls, c.Of fuel image map) ∧
    (∀ k, SelectedIndex argv map k → ∀ s, ∃ c ∈ calls, c.region = k ∧ c.stage = s ∧ c.passed = true) ∧
    (map.requiresUnlock = true → ∃ r r', notified flashAccessSpiDone r ∈ post ∧
      notified flashFirmwareDone r' ∈ post ∧ 0 ≤ r.rv ∧ 0 ≤ r'.rv)

theorem reflash_completed {fuel : Nat} {image : Mem} {argv : List String} {filename : String}
    {t : Trace Services}
    (h : Attempt.Reaches (reflash fuel image (reflashArgs {} (argv.drop 1)) filename) t ()) :
    Completed fuel image argv t := by
  unfold reflash at h
  obtain ⟨pre, t, ⟨map, mask, verify⟩, rfl, hpre, h⟩ := Attempt.reaches_bind h
  obtain ⟨hmap, hmask⟩ := (holds_prepare (H := fun _ => True) (G := fun _ => True) trivial image
    (reflashArgs {} (argv.drop 1)) filename).value hpre
  simp only at hmap hmask h
  subst hmask
  obtain ⟨start, t, ⟨⟩, rfl, hstart, h⟩ := Attempt.reaches_bind h
  obtain ⟨body, post, ⟨⟩, rfl, hbody, hpost⟩ := Attempt.reaches_bind h
  rw [flashRegions_eq] at hbody
  obtain ⟨calls, rfl, hlog, hthrough⟩ := flashAll_logged hbody
  obtain ⟨hkeys, hpassed⟩ := hthrough rfl
  refine ⟨map, pre ++ start, calls, post, hmap, by simp, hlog.genuine, fun k hk s => ?_, fun hunlock => ?_⟩
  · have hplanned := (mem_plannedCalls (shippedMaps_length map (finalFlashMap_shipped hmap)) (s := s)).2 hk
    rw [plannedCalls, ← hkeys] at hplanned
    obtain ⟨c, hc, hkey⟩ := List.mem_map.1 hplanned
    exact ⟨c, hc, congrArg Prod.fst hkey, congrArg Prod.snd hkey, hpassed c hc⟩
  · obtain ⟨r, r', rfl, hr, hr'⟩ := reaches_lock hpost hunlock
    exact ⟨r, r', by simp, by simp, hr, hr'⟩

/-! ### Whole runs -/

theorem reflash_gates {fuel : Nat} {image : Mem} {argv : List String} {filename : String}
    {t : Trace Services} {o : Outcome (Except Exit Unit)}
    (hfile : (reflashArgs {} (argv.drop 1)).filename = some filename)
    (h : Run (reflash fuel image (reflashArgs {} (argv.drop 1)) filename).run t o) :
    (∃ gates rest, t = gates ++ rest ∧ Gates image argv gates ∧ ∀ e ∈ gates, Quiet e) ∨
      (∀ e ∈ t, Quiet e) ∧ o ≠ .done (.ok ()) := by
  have hprepare := holds_prepare (H := fun _ => True) (G := fun _ => True) trivial image
    (reflashArgs {} (argv.drop 1)) filename
  unfold reflash at h
  rcases Attempt.bind_inv h with ⟨gates, rest, plan, rfl, hgates, -⟩ | hleft
  · exact .inl ⟨gates, rest, rfl, prepare_gates hfile hgates, Prog.Holds.events hprepare hgates⟩
  · refine .inr ⟨Prog.Holds.events hprepare hleft.running', ?_⟩
    rintro rfl
    cases hleft

/-- **No flash command before every gate is passed, no success without all the work done.** -/
theorem cmdReflash_gated {fuel : Nat} {image : Mem} {argv : List String} {t : Trace Services}
    {o : Outcome EfiStatus} (h : Run (cmdReflash fuel image argv) t o) :
    (∀ before e after, t = before ++ e :: after → ¬Quiet e →
      ∃ gates rest, before = gates ++ rest ∧ Gates image argv gates) ∧
    ((∃ gates rest, t = gates ++ rest ∧ Gates image argv gates) ∨
      (∀ e ∈ t, Quiet e) ∧ ∀ status, o = .done status → status ≠ efiSuccess) ∧
    (o = .done efiSuccess → Completed fuel image argv t) := by
  rcases cmdReflash_inv h with ⟨rfl, hstatus⟩ | ⟨filename, u, v, o', hfile, rfl, hu, hv, hend⟩
  · refine ⟨by simp, .inr ⟨by simp, fun status ho => ?_⟩, fun ho => ?_⟩
    · rw [hstatus status ho]
      decide
    · exact absurd (hstatus _ ho) (by decide)
  have hv' : ∀ e ∈ v, Quiet e := fun e he c hc => (hv e he c hc).elim
  have hsuccess : o = .done efiSuccess → o' = .done (.ok ()) := fun ho =>
    reflash_through hu ((hend _ ho).imp_right And.left)
  have hgated := reflash_gates hfile hu
  refine ⟨fun before e after hsplit he => ?_, ?_, fun ho => ?_⟩
  · rcases hgated with ⟨gates, rest, rfl, hgates, hquiet⟩ | ⟨hquiet, -⟩
    · -- the command is not among the gates, so these stand before it
      rw [List.append_assoc] at hsplit
      rcases List.append_eq_append_iff.1 hsplit with ⟨between, rfl, -⟩ | ⟨between, rfl, hrest⟩
      · exact ⟨gates, between, rfl, hgates⟩
      · cases between with
        | nil => exact ⟨before, [], by simp, by simpa using hgates⟩
        | cons e' between =>
          rw [List.cons_append, List.cons.injEq] at hrest
          obtain ⟨rfl, -⟩ := hrest
          exact absurd (hquiet e (by simp)) he
    · refine absurd ?_ he
      have hmem : e ∈ u ++ v := by rw [hsplit]; simp
      exact (List.mem_append.1 hmem).elim (hquiet e) (hv' e)
  · rcases hgated with ⟨gates, rest, rfl, hgates, -⟩ | ⟨hquiet, hunfinished⟩
    · exact .inl ⟨gates, rest ++ v, by simp, hgates⟩
    · refine .inr ⟨fun e he => (List.mem_append.1 he).elim (hquiet e) (hv' e), ?_⟩
      rintro status ho rfl
      exact hunfinished (hsuccess ho)
  · rw [hsuccess ho] at hu
    obtain ⟨map, pre, calls, post, hmap, rfl, hgenuine, hdone, hlocked⟩ := reflash_completed hu
    refine ⟨map, pre, calls, post ++ v, hmap, by simp, hgenuine, hdone, fun hunlock => ?_⟩
    obtain ⟨r, r', hr, hr', hpos⟩ := hlocked hunlock
    exact ⟨r, r', by simp [hr], by simp [hr'], hpos⟩

/-- A run on an hx30 that passes the gates and notifies. -/
theorem cmdReflash_gated_hx30 : ∃ gates rest,
    sampleRun "hx30_v1" "hx30_v0" (fun _ => false) ["reflash", "ec.bin"] = gates ++ rest ∧
      Gates (sampleImage "hx30_v1") ["reflash", "ec.bin"] gates := by
  have hnotified : (sampleRun "hx30_v1" "hx30_v0" (fun _ => false) ["reflash", "ec.bin"]).any
      (fun e => (hostCommand e).any fun c => c.command == ecCmdFlashNotified) = true := by decide
  rcases (cmdReflash_gated (Prog.run_transcript _ _)).2.1 with hgates | ⟨hquiet, -⟩
  · exact hgates
  · obtain ⟨e, he, hcommand⟩ := List.any_eq_true.1 hnotified
    obtain ⟨c, hc, hcommand⟩ := (Option.any_eq_true _ _).1 hcommand
    exact absurd (beq_iff_eq.1 hcommand) (hquiet e he c hc).2.2

end FrameworkHacks.ECTool
