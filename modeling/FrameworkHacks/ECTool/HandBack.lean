import FrameworkHacks.ECTool.ECTool
import FrameworkHacks.ECTool.Gates
import FrameworkHacks.ECTool.ReflashServices

/-!
# Handing the SPI flash back

`version` and `flashread` remember whether the EC gave them the SPI flash, and hand it back on every
way out. `reflash` hands it back only at its end: every failure after the unlock leaves the EC without
its flash (`handedBack_iff`).
-/

namespace FrameworkHacks.ECTool

open Effects

/-- Access to the SPI flash was granted. -/
def Granted (t : Trace Services) : Prop := ∃ r, notified flashAccessSpi r ∈ t ∧ 0 ≤ r.rv

def isGrant : Event Services → Bool
  | ⟨.sendCommand c, r⟩ => decide (c = notification flashAccessSpi ∧ 0 ≤ r.rv)
  | _ => false

theorem granted_iff {t : Trace Services} : Granted t ↔ t.any isGrant = true := by
  rw [List.any_eq_true]
  constructor
  · rintro ⟨r, hmem, hpos⟩
    exact ⟨_, hmem, decide_eq_true ⟨rfl, hpos⟩⟩
  · rintro ⟨⟨op, ans⟩, hmem, hgrant⟩
    cases op with
    | sendCommand c =>
      obtain ⟨rfl, hpos⟩ := of_decide_eq_true hgrant
      exact ⟨ans, hmem, hpos⟩
    | _ => cases hgrant

instance (t : Trace Services) : Decidable (Granted t) := decidable_of_iff' _ granted_iff

/-- Once granted, access is handed back later, and nothing is handed back that was not granted. -/
structure HandedBack (t : Trace Services) : Prop where
  back : ∀ before r after, t = before ++ notified flashAccessSpi r :: after → 0 ≤ r.rv →
    ∃ r', notified flashAccessSpiDone r' ∈ after
  only : ∀ r', notified flashAccessSpiDone r' ∈ t → Granted t

/-! ### Traces -/

theorem not_notified_of_quiet {t : Trace Services} (h : ∀ e ∈ t, Quiet e) (flags : UInt8) (r : Reply) :
    notified flags r ∉ t := fun hmem => (h _ hmem _ rfl).2.2 rfl

theorem notified_inj {f g : UInt8} {r r' : Reply} (h : notified f r = notified g r') :
    f = g ∧ r = r' := by
  simp only [notified, notification, Event.mk.injEq, ServiceOp.sendCommand.injEq, HostCommand.mk.injEq,
    List.cons.injEq, and_true, true_and] at h
  exact ⟨h.1, eq_of_heq h.2⟩

theorem handedBack_of_none {t : Trace Services} (hgranted : ¬Granted t)
    (hdone : ∀ r, notified flashAccessSpiDone r ∉ t) : HandedBack t := by
  refine ⟨fun before r after ht hr => ?_, fun r' hr' => absurd hr' (hdone r')⟩
  exact absurd ⟨r, by rw [ht]; simp, hr⟩ hgranted

theorem handedBack_of_split {u v : Trace Services} (hgranted : Granted u)
    (hu : ∀ r, notified flashAccessSpi r ∉ v) {s : Reply} (hv : notified flashAccessSpiDone s ∈ v) :
    HandedBack (u ++ v) := by
  obtain ⟨r₀, hr₀, hpos⟩ := hgranted
  refine ⟨fun before r after ht hr => ?_, fun _ _ => ⟨r₀, by simp [hr₀], hpos⟩⟩
  rcases List.append_eq_append_iff.1 ht with ⟨between, rfl, hbetween⟩ | ⟨between, rfl, hbetween⟩
  · exact absurd (by rw [hbetween]; simp) (hu r)
  · cases between with
    | nil =>
      rw [List.nil_append] at hbetween
      exact absurd (by rw [← hbetween]; simp) (hu r)
    | cons e rest =>
      rw [List.cons_append, List.cons.injEq] at hbetween
      exact ⟨s, by rw [hbetween.2]; simp [hv]⟩

/-! ### `version` and `flashread` -/

theorem cmdVersion_handedBack {t : Trace Services} {status : EfiStatus}
    (h : Run cmdVersion t (.done status)) : HandedBack t := by
  unfold cmdVersion at h
  obtain ⟨r₀, u, rfl, h₁⟩ := h.perform_bind_done
  split at h₁
  · -- the build information was refused
    obtain ⟨rfl, -⟩ := h₁.pure_done
    refine handedBack_of_none ?_ ?_ <;> simp [Granted, notified, notification]
  obtain ⟨r₁, u, rfl, h₂⟩ := h₁.perform_bind_done
  split at h₂
  · -- access was refused
    rename_i hneg
    obtain ⟨rfl, -⟩ := h₂.pure_done
    refine handedBack_of_none ?_ ?_
    · simpa [Granted, notified, notification] using hneg
    · simp [notified, notification, flashAccessSpi, flashAccessSpiDone]
  rename_i hpos
  obtain ⟨r₂, u, rfl, h₃⟩ := h₂.perform_bind_done
  obtain ⟨r₃, u, rfl, h₄⟩ := h₃.perform_bind_done
  obtain ⟨rfl, -⟩ := h₄.pure_done
  refine handedBack_of_split (u := [_, notified flashAccessSpi r₁])
    (v := [_, notified flashAccessSpiDone r₃]) (s := r₃) ⟨r₁, by simp, by omega⟩ ?_ (by simp)
  simp [notified, notification, flashAccessSpi, flashAccessSpiDone]

theorem holds_flashreadPrepare (argv : List String) :
    Attempt.Holds (fun _ => True) (fun _ => True) Quiet (fun e => e.held.unlocked = false)
      (fun _ => True) (flashreadPrepare argv) := by
  unfold flashreadPrepare
  refine Attempt.Holds.leaveIf_bind (fun _ => rfl) ?_
  intro _
  refine Attempt.Holds.perform_bind fun offset => ⟨nofun, fun _ => ?_⟩
  refine Attempt.Holds.perform_bind fun size => ⟨nofun, fun _ => ?_⟩
  refine Attempt.Holds.perform_bind fun buffer => ⟨nofun, fun _ => ?_⟩
  cases buffer with
  | none => exact Attempt.holds_throw rfl
  | some flashBuffer =>
    refine Attempt.Holds.perform_bind fun status => ⟨nofun, fun _ => ?_⟩
    exact Attempt.Holds.leaveIf_bind (fun _ => rfl) fun _ => Attempt.holds_pure trivial

theorem holds_flashreadTransfer (plan : FlashreadPlan) :
    Attempt.Holds (fun _ => True) (fun _ => True) Quiet (fun e => e.held.unlocked = true)
      (fun e => e.held.unlocked = true) (flashreadTransfer plan) := by
  unfold flashreadTransfer
  generalize toInt32 plan.offset = offset, toInt32 plan.size = size
  have hread (buffer : Buf) : Prog.Holds (fun _ => True) (fun _ => True) Quiet (fun _ => True)
      (flashRead offset size buffer 0) := flashRead_sends trivial trivial _ _ _ _
  refine (Attempt.holds_lift (hread _)).bind ?_
  intro read _
  refine Attempt.Holds.leaveIf_bind (fun _ => rfl) ?_
  intro _
  refine Attempt.Holds.perform_bind fun status => ⟨nofun, fun _ => ?_⟩
  refine Attempt.Holds.leaveIf_bind (fun _ => rfl) ?_
  intro _
  refine Attempt.Holds.perform_bind fun status => ⟨nofun, fun _ => ?_⟩
  exact Attempt.Holds.leaveIf_bind (fun _ => rfl) fun _ => Attempt.holds_pure rfl

theorem flashreadFinish_done {e : FlashreadExit} {t : Trace Services} {status : EfiStatus}
    (h : Run (flashreadFinish e) t (.done status)) :
    (∀ r, notified flashAccessSpi r ∉ t) ∧
      (e.held.unlocked = true → ∃ r, notified flashAccessSpiDone r ∈ t) ∧
      (e.held.unlocked = false → ∀ r, notified flashAccessSpiDone r ∉ t) := by
  obtain ⟨status', hout⟩ : ∃ status', Run (flashreadOut e.held status') t (.done status) := by
    cases e with
    | ecOut held rv status' => exact ⟨_, h⟩
    | out held status' => exact ⟨_, h⟩
  generalize e.held = held at hout
  obtain ⟨unlocked, file, buffer⟩ := held
  have hrest {t : Trace Services} (h : Run (flashreadOut ⟨false, file, buffer⟩ status') t (.done status)) :
      ∀ e ∈ t, Quiet e := by
    refine Prog.Holds.events (H := fun _ => True) (Q := fun _ => True) ?_ h
    cases file <;> cases buffer <;>
      simp [flashreadOut, shellCloseFile, freePool, Prog.Holds, Prog.bind_def, Prog.bind, Prog.perform,
        Sends, hostCommand, Prog.pure_def]
  cases unlocked with
  | false =>
    exact ⟨not_notified_of_quiet (hrest hout) _, fun h => absurd h Bool.false_ne_true,
      fun _ => not_notified_of_quiet (hrest hout) _⟩
  | true =>
    obtain ⟨r, u, rfl, hu⟩ := Run.perform_bind_done (E := Services) hout
    have hquiet := not_notified_of_quiet (hrest hu)
    refine ⟨fun r' hmem => ?_, fun _ => ⟨r, List.mem_cons_self⟩, fun h => absurd h.symm Bool.false_ne_true⟩
    rcases List.mem_cons.1 hmem with heq | hmem
    · exact absurd (notified_inj (g := flashAccessSpiDone) heq).1 (by decide)
    · exact hquiet _ _ hmem

/-- What is left to be undone after the body. -/
def leftover : Except FlashreadExit FlashreadExit → FlashreadHeld
  | .error e => e.held
  | .ok e => e.held

theorem flashread_done {argv : List String} {t : Trace Services}
    {r : Except FlashreadExit FlashreadExit} (h : Run (flashread argv).run t (.done r)) :
    (∀ r, notified flashAccessSpiDone r ∉ t) ∧
      ((leftover r).unlocked = true ∧ Granted t ∨ (leftover r).unlocked = false ∧ ¬Granted t) := by
  have hprepare := holds_flashreadPrepare argv
  have hrefused {t : Trace Services} (h : ∀ e ∈ t, Quiet e) : ¬Granted t := fun ⟨r, hr, _⟩ =>
    not_notified_of_quiet h _ r hr
  unfold flashread at h
  rcases Attempt.bind_inv h with ⟨u, v, plan, rfl, hu, hv⟩ | hleft
  swap
  · have hquiet := Prog.Holds.events hprepare hleft.running'
    cases hleft with
    | exit hexit =>
      have hlocked := Prog.Holds.result hprepare hexit
      exact ⟨not_notified_of_quiet hquiet _, .inr ⟨hlocked, hrefused hquiet⟩⟩
  have hquiet := Prog.Holds.events hprepare hu
  rw [Attempt.run_lift_bind] at hv
  obtain ⟨r₁, v, rfl, hv₁⟩ := Run.perform_bind_done (E := Services) hv
  have hdone {w : Trace Services} (hw : ∀ e ∈ w, Quiet e) (r : Reply) :
      notified flashAccessSpiDone r ∉ u ++ notified flashAccessSpi r₁ :: w := fun hmem => by
    rcases List.mem_append.1 hmem with hmem | hmem
    · exact not_notified_of_quiet hquiet _ r hmem
    rcases List.mem_cons.1 hmem with heq | hmem
    · exact absurd (notified_inj heq).1 (by decide)
    · exact not_notified_of_quiet hw _ r hmem
  rw [Attempt.run_leaveIf_bind] at hv₁
  split at hv₁
  · rename_i hneg
    obtain ⟨rfl, rfl⟩ := hv₁.pure_done
    refine ⟨hdone (by simp), .inr ⟨rfl, ?_⟩⟩
    rintro ⟨r, hmem, hpos⟩
    rcases List.mem_append.1 hmem with hmem | hmem
    · exact not_notified_of_quiet hquiet _ r hmem
    · have := (notified_inj (List.mem_singleton.1 hmem)).2
      subst this
      omega
  · rename_i hpos
    have htransfer := holds_flashreadTransfer plan
    refine ⟨hdone (Prog.Holds.events htransfer hv₁), .inl ⟨?_, r₁, by simp [notified, notification], by omega⟩⟩
    have hunlocked := Prog.Holds.result htransfer hv₁
    cases r with
    | ok e => exact hunlocked
    | error e => exact hunlocked

theorem cmdFlashread_handedBack {argv : List String} {t : Trace Services} {status : EfiStatus}
    (h : Run (cmdFlashread argv) t (.done status)) : HandedBack t := by
  unfold cmdFlashread at h
  obtain ⟨u, v, r, rfl, hu, hv⟩ := h.bind_done
  obtain ⟨e, he, hv⟩ : ∃ e : FlashreadExit, leftover r = e.held ∧ Run (flashreadFinish e) v (.done status) := by
    cases r with
    | ok e => exact ⟨e, rfl, hv⟩
    | error e => exact ⟨e, rfl, hv⟩
  obtain ⟨haccess, hback, hnone⟩ := flashreadFinish_done hv
  obtain ⟨hdone, ⟨hunlocked, hgranted⟩ | ⟨hlocked, hgranted⟩⟩ := flashread_done hu
  · obtain ⟨r', hr'⟩ := hback (he ▸ hunlocked)
    exact handedBack_of_split hgranted haccess hr'
  · refine handedBack_of_none ?_ fun r hmem => ?_
    · rintro ⟨r, hmem, hpos⟩
      exact (List.mem_append.1 hmem).elim (fun hu => hgranted ⟨r, hu, hpos⟩) (haccess r)
    · exact (List.mem_append.1 hmem).elim (hdone r) (hnone (he ▸ hlocked) r)

/-! ### `reflash` -/

/-- The part of `reflash` up to the end of the region loop. -/
def beforeLock (fuel : Nat) (image : Mem) (a : ReflashArgs) (filename : String) : Step FlashMap := do
  let plan ← prepare image a filename
  unlock plan.map
  flashRegions fuel image plan.map plan.mask ⟨plan.verifyBuffer, imageSize.toNat⟩
  return plan.map

theorem reflash_eq (fuel : Nat) (image : Mem) (a : ReflashArgs) (filename : String) :
    reflash fuel image a filename = beforeLock fuel image a filename >>= lock := by
  simp only [reflash, beforeLock, bind_assoc, pure_bind]

/-- The EC accepted both notifications, if the map asks for them. -/
def Unlocked (map : FlashMap) (t : Trace Services) : Prop :=
  if map.requiresUnlock then
    ∃ r r', t = [notified flashAccessSpi r, notified flashFirmwareStart r'] ∧ 0 ≤ r.rv ∧ 0 ≤ r'.rv
  else t = []

/-- The calls for one region: none of them returned a negative value, and what was read, into `verify`, is the
image. -/
def RegionPassed (fuel : Nat) (image : Mem) (r : FlashRegion) (verify : Buf) (t : Trace Services) (verify' : Buf) :
    Prop :=
  ∃ erase write read erased written rv, t = erase ++ (write ++ read) ∧
    (Run (flashErase r.base r.size) erase (.done erased) ∧ 0 ≤ erased) ∧
    (Run (flashWrite fuel r.base r.size ⟨image, imageSize.toNat⟩ r.base) write (.done written) ∧ 0 ≤ written) ∧
    (Run (flashRead r.base r.size verify r.base) read (.done (rv, verify')) ∧ 0 ≤ rv) ∧
    ∀ i < r.size, verify'.bytes (r.base + i) = image (r.base + i)

/-- The calls for the regions with these indices, one region after the other. -/
def CallsPassed (fuel : Nat) (image : Mem) (map : FlashMap) : List Nat → Buf → Trace Services → Prop
  | [], _, t => t = []
  | k :: ks, verify, t => ∃ r u v verify', map.regions[k]? = some r ∧ t = u ++ v ∧
      RegionPassed fuel image r verify u verify' ∧ CallsPassed fuel image map ks verify' v

/-- After the preparation the EC accepted the notifications of the unlock, no erase, write or read failed, and
every region compared equal. -/
def LoopFinished (fuel : Nat) (image : Mem) (argv : List String) (t : Trace Services) : Prop :=
  ∃ filename plan pre start body post, (reflashArgs {} (argv.drop 1)).filename = some filename ∧
    t = pre ++ (start ++ (body ++ post)) ∧
    Attempt.Reaches (prepare image (reflashArgs {} (argv.drop 1)) filename) pre plan ∧
    Unlocked plan.map start ∧
    CallsPassed fuel image plan.map (setBits plan.mask) ⟨plan.verifyBuffer, imageSize.toNat⟩ body

theorem reaches_unlock_iff {map : FlashMap} {t : Trace Services} :
    Attempt.Reaches (unlock map) t () ↔ Unlocked map t := by
  unfold unlock Unlocked
  by_cases hunlock : map.requiresUnlock = true
  · rw [if_pos hunlock, if_pos hunlock]
    exact reaches_notify_iff
  · rw [if_neg hunlock, if_neg hunlock]
    refine ⟨fun h => (Attempt.reaches_pure h).1, ?_⟩
    rintro rfl
    exact .ret _

theorem reaches_flashRegion_iff {fuel : Nat} {image : Mem} {r : FlashRegion} {verify verify' : Buf}
    {t : Trace Services} :
    Attempt.Reaches (flashRegion fuel image r verify) t verify' ↔ RegionPassed fuel image r verify t verify' := by
  unfold flashRegion
  constructor
  · intro h
    obtain ⟨erase, t, erased, rfl, herase, h⟩ := Attempt.reaches_lift_bind_iff.1 h
    obtain ⟨herased, h⟩ := Attempt.reaches_leaveIf_bind h
    obtain ⟨write, t, written, rfl, hwrite, h⟩ := Attempt.reaches_lift_bind_iff.1 h
    obtain ⟨hwritten, h⟩ := Attempt.reaches_leaveIf_bind h
    obtain ⟨read, t, ⟨rv, after⟩, rfl, hread, h⟩ := Attempt.reaches_lift_bind_iff.1 h
    obtain ⟨hrv, h⟩ := Attempt.reaches_leaveIf_bind h
    obtain ⟨hequal, h⟩ := Attempt.reaches_leaveIf_bind h
    obtain ⟨rfl, rfl⟩ := Attempt.reaches_pure h
    rw [Bool.not_eq_false, sameMem_iff] at hequal
    exact ⟨erase, write, read, erased, written, rv, by simp, ⟨herase, by omega⟩, ⟨hwrite, by omega⟩,
      ⟨hread, by omega⟩, hequal⟩
  · rintro ⟨erase, write, read, erased, written, rv, rfl, ⟨herase, herased⟩, ⟨hwrite, hwritten⟩, ⟨hread, hrv⟩, hequal⟩
    refine Attempt.reaches_lift_bind_iff.2 ⟨erase, _, erased, rfl, herase, .leaveIf_bind (by omega) ?_⟩
    refine Attempt.reaches_lift_bind_iff.2 ⟨write, _, written, rfl, hwrite, .leaveIf_bind (by omega) ?_⟩
    refine Attempt.reaches_lift_bind_iff.2 ⟨read, [], _, by simp, hread, .leaveIf_bind (by omega) ?_⟩
    refine .leaveIf_bind ?_ (.ret _)
    rw [Bool.not_eq_false, sameMem_iff]
    exact hequal

/-- The region loop comes to its end exactly when every call passes. -/
theorem reaches_flashAll_iff {fuel : Nat} {image : Mem} {map : FlashMap} {ks : List Nat} {verify : Buf}
    {t : Trace Services} :
    Attempt.Reaches (flashAll fuel image map ks verify) t () ↔ CallsPassed fuel image map ks verify t := by
  induction ks generalizing verify t with
  | nil =>
    refine ⟨fun h => (Attempt.reaches_pure h).1, ?_⟩
    rintro rfl
    exact .ret _
  | cons k ks ih =>
    rw [flashAll, CallsPassed]
    cases hr : map.regions[k]? with
    | none =>
      refine ⟨fun h => (Run.halt_not_done (Attempt.reaches_lift h)).elim, ?_⟩
      rintro ⟨r, -, -, -, hnone, -⟩
      cases hnone
    | some r =>
      constructor
      · intro h
        obtain ⟨u, v, verify', rfl, hu, hv⟩ := Attempt.reaches_bind h
        exact ⟨r, u, v, verify', rfl, rfl, reaches_flashRegion_iff.1 hu, ih.1 hv⟩
      · rintro ⟨r', u, v, verify', hr', rfl, hu, hv⟩
        cases hr'
        exact (reaches_flashRegion_iff.2 hu).bind (ih.2 hv)

theorem regionCommand_not_notified {image : Mem} {r : FlashRegion} {c : HostCommand}
    (h : RegionCommand image r c) : c.command ≠ ecCmdFlashNotified := by
  rcases h with (h | ⟨h, -⟩) | (h | ⟨h, -⟩)
  · exact h.2.2
  · rw [h]
    decide
  · exact h.2.2
  · rw [h]
    decide

theorem not_notified_of_flashAll {fuel : Nat} {image : Mem} {map : FlashMap} (hmap : map ∈ shippedMaps)
    {ks : List Nat} {verify : Buf} {t : Trace Services} {o : Outcome (Except Exit Unit)}
    (h : Run (flashAll fuel image map ks verify).run t o) (flags : UInt8) (r : Reply) :
    notified flags r ∉ t := fun hmem => by
  have hsmall : ∀ r ∈ map.regions, r.base + r.size < 4294967296 := fun r hr => by
    have := shippedMaps_inside map hmap r hr
    omega
  have hsends := Prog.Holds.events (holds_flashAll (H := fun _ => True) trivial trivial fuel image hsmall
    ks verify) h _ hmem
  obtain ⟨k, -, region, -, hc⟩ := hsends _ rfl
  exact regionCommand_not_notified hc rfl

theorem not_done_of_beforeLock {fuel : Nat} {image : Mem} {a : ReflashArgs} {filename : String}
    {t : Trace Services} {o : Outcome (Except Exit FlashMap)}
    (h : Run (beforeLock fuel image a filename).run t o) (r : Reply) :
    notified flashAccessSpiDone r ∉ t := by
  have hprepare := holds_prepare (H := fun _ => True) (G := fun _ => True) trivial image a filename
  unfold beforeLock at h
  intro hmem
  rcases Attempt.bind_inv h with ⟨pre, t, plan, rfl, hpre, h₁⟩ | hleft
  swap
  · exact not_notified_of_quiet (Prog.Holds.events hprepare hleft.running') _ r hmem
  have hmap := (hprepare.value hpre).1
  have hunlock := holds_unlock (H := fun _ => True) (G := fun _ => True) plan.map
  have hstart {t : Trace Services} (h : ∀ e ∈ t, Sends (fun c => c = notification flashAccessSpi ∨
      c = notification flashFirmwareStart) e) : notified flashAccessSpiDone r ∉ t := fun hmem => by
    rcases h _ hmem _ rfl with h | h
    · exact absurd (congrArg HostCommand.outdata h) (by decide)
    · exact absurd (congrArg HostCommand.outdata h) (by decide)
  rcases List.mem_append.1 hmem with hmem | hmem
  · exact not_notified_of_quiet (Prog.Holds.events hprepare hpre) _ r hmem
  rcases Attempt.bind_inv h₁ with ⟨start, t, ⟨⟩, rfl, hstart', h₂⟩ | hleft
  swap
  · exact hstart (Prog.Holds.events hunlock hleft.running') hmem
  rcases List.mem_append.1 hmem with hmem | hmem
  · exact hstart (Prog.Holds.events hunlock hstart') hmem
  rw [flashRegions_eq] at h₂
  have hbody {t : Trace Services} {o : Outcome (Except Exit Unit)} (h : Run (flashAll fuel image plan.map
      (setBits plan.mask) ⟨plan.verifyBuffer, imageSize.toNat⟩).run t o) :=
    not_notified_of_flashAll (finalFlashMap_shipped hmap) h
  rcases Attempt.bind_inv h₂ with ⟨body, t, ⟨⟩, rfl, hbody', h₃⟩ | hleft
  swap
  · exact hbody hleft.running' _ r hmem
  obtain rfl := Run.pure_nil (a := Except.ok plan.map) h₃
  rw [List.append_nil] at hmem
  exact hbody hbody' _ r hmem

theorem loopFinished_of_reaches {fuel : Nat} {image : Mem} {argv : List String} {filename : String}
    {t post : Trace Services} {map : FlashMap}
    (hfile : (reflashArgs {} (argv.drop 1)).filename = some filename)
    (h : Attempt.Reaches (beforeLock fuel image (reflashArgs {} (argv.drop 1)) filename) t map) :
    LoopFinished fuel image argv (t ++ post) := by
  unfold beforeLock at h
  obtain ⟨pre, t, plan, rfl, hpre, h₁⟩ := Attempt.reaches_bind h
  obtain ⟨start, t, ⟨⟩, rfl, hstart, h₂⟩ := Attempt.reaches_bind h₁
  obtain ⟨body, t, ⟨⟩, rfl, hbody, h₃⟩ := Attempt.reaches_bind h₂
  obtain ⟨rfl, -⟩ := Attempt.reaches_pure h₃
  rw [flashRegions_eq] at hbody
  exact ⟨filename, plan, pre, start, body, post, hfile, by simp, hpre, reaches_unlock_iff.1 hstart,
    reaches_flashAll_iff.1 hbody⟩

theorem loopFinished_of_success {fuel : Nat} {image : Mem} {argv : List String} {t : Trace Services}
    (h : Run (cmdReflash fuel image argv) t (.done efiSuccess)) : LoopFinished fuel image argv t := by
  rcases cmdReflash_inv h with ⟨-, hstatus⟩ | ⟨filename, u, v, o, hfile, rfl, hu, -, hend⟩
  · exact absurd (hstatus efiSuccess rfl) (by decide)
  obtain rfl := reflash_through hu ((hend efiSuccess rfl).imp_right And.left)
  rw [reflash_eq] at hu
  obtain ⟨w, post, map, rfl, hw, -⟩ := Attempt.reaches_bind hu
  rw [List.append_assoc]
  exact loopFinished_of_reaches hfile hw

theorem LoopFinished.granted {fuel : Nat} {image : Mem} {argv : List String} {t : Trace Services} {map : FlashMap}
    (h : LoopFinished fuel image argv t) (hmap : finalFlashMap image = some map)
    (hunlock : map.requiresUnlock = true) : Granted t := by
  obtain ⟨filename, plan, pre, start, body, post, -, rfl, hpre, hstart, -⟩ := h
  have hprepare := holds_prepare (H := fun _ => True) (G := fun _ => True) trivial image
    (reflashArgs {} (argv.drop 1)) filename
  obtain rfl : map = plan.map := Option.some.inj (hmap.symm.trans (hprepare.value hpre).1)
  rw [Unlocked, if_pos hunlock] at hstart
  obtain ⟨r, r', rfl, hr, -⟩ := hstart
  exact ⟨r, by simp, hr⟩

theorem LoopFinished.reaches {fuel : Nat} {image : Mem} {argv : List String} {filename : String}
    {t : Trace Services} (hfile : (reflashArgs {} (argv.drop 1)).filename = some filename)
    (h : LoopFinished fuel image argv t) : ∃ u map, u <+: t ∧
      Attempt.Reaches (beforeLock fuel image (reflashArgs {} (argv.drop 1)) filename) u map := by
  obtain ⟨filename', plan, pre, start, body, post, hfile', rfl, hpre, hstart, hbody⟩ := h
  rw [hfile] at hfile'
  cases hfile'
  rw [← reaches_unlock_iff] at hstart
  rw [← reaches_flashAll_iff, ← flashRegions_eq] at hbody
  refine ⟨pre ++ (start ++ (body ++ [])), plan.map, ⟨post, by simp⟩, ?_⟩
  exact hpre.bind (hstart.bind (hbody.bind (Run.ret (Except.ok plan.map))))

/-- A run that comes to the lock hands back what it was granted. -/
theorem handedBack_of_lock {fuel : Nat} {image : Mem} {a : ReflashArgs} {filename : String}
    {w post v : Trace Services} {map : FlashMap} {r : Except Exit Unit}
    (hw : Attempt.Reaches (beforeLock fuel image a filename) w map)
    (hpost : Run (lock map).run post (.done r)) (hv : ∀ flags r, notified flags r ∉ v) :
    HandedBack (w ++ post ++ v) := by
  have hprepare := holds_prepare (H := fun _ => True) (G := fun _ => True) trivial image a filename
  unfold beforeLock at hw
  obtain ⟨pre, w, plan, rfl, hpre, h₁⟩ := Attempt.reaches_bind hw
  obtain ⟨start, w, ⟨⟩, rfl, hstart, h₂⟩ := Attempt.reaches_bind h₁
  obtain ⟨body, w, ⟨⟩, rfl, hbody, h₃⟩ := Attempt.reaches_bind h₂
  obtain ⟨rfl, rfl⟩ := Attempt.reaches_pure h₃
  have hmap := (hprepare.value hpre).1
  rw [flashRegions_eq] at hbody
  have hbodyNone := not_notified_of_flashAll (finalFlashMap_shipped hmap) hbody
  by_cases hunlock : plan.map.requiresUnlock = true
  · rw [reaches_unlock_iff, Unlocked, if_pos hunlock] at hstart
    obtain ⟨r₀, r₁, rfl, hpos, -⟩ := hstart
    have haccess (r : Reply) : notified flashAccessSpi r ∉ post := fun hmem => by
      rcases Prog.Holds.events (holds_lock (H := fun _ => True) (G := fun _ => True) plan.map) hpost _ hmem
        _ rfl with h | h
      · exact absurd (congrArg HostCommand.outdata h) (by decide)
      · exact absurd (congrArg HostCommand.outdata h) (by decide)
    rw [lock, if_pos hunlock, Attempt.run_lift_bind] at hpost
    obtain ⟨r₂, u, rfl, -⟩ := Run.perform_bind_done (E := Services) hpost
    have := handedBack_of_split (u := pre ++ [notified flashAccessSpi r₀, notified flashFirmwareStart r₁])
      (v := body ++ (notified flashAccessSpiDone r₂ :: u ++ v)) ⟨r₀, by simp, hpos⟩ (fun r hmem => ?_)
      (s := r₂) (by simp)
    · simpa [notified, notification] using this
    rcases List.mem_append.1 hmem with hmem | hmem
    · exact hbodyNone _ r hmem
    · exact (List.mem_append.1 hmem).elim (haccess r) (hv _ r)
  · rw [reaches_unlock_iff, Unlocked, if_neg hunlock] at hstart
    subst hstart
    rw [lock, if_neg hunlock] at hpost
    obtain rfl := Run.pure_nil (a := Except.ok ()) hpost
    have hnone (flags : UInt8) (r : Reply) : notified flags r ∉ pre ++ ([] ++ (body ++ [])) ++ [] ++ v :=
      fun hmem => by
        simp only [List.nil_append, List.append_nil, List.mem_append] at hmem
        rcases hmem with (hmem | hmem) | hmem
        · exact not_notified_of_quiet (Prog.Holds.events hprepare hpre) _ r hmem
        · exact hbodyNone _ r hmem
        · exact hv _ r hmem
    exact handedBack_of_none (fun hgranted => hgranted.elim fun r hr => hnone _ r hr.1) (hnone _)

/-- **`reflash` hands the flash back exactly when its region loop comes to its end.** -/
theorem cmdReflash_handedBack {fuel : Nat} {image : Mem} {argv : List String} {t : Trace Services}
    {status : EfiStatus} (h : Run (cmdReflash fuel image argv) t (.done status)) :
    HandedBack t ↔ (Granted t → LoopFinished fuel image argv t) := by
  rcases cmdReflash_inv h with ⟨rfl, -⟩ | ⟨filename, u, v, o', hfile, rfl, hu, hv, hend⟩
  · have hnone : ¬Granted [] := fun ⟨r, hr, _⟩ => by cases hr
    exact ⟨fun _ hgranted => absurd hgranted hnone, fun _ => handedBack_of_none hnone (by simp)⟩
  have hvnone (flags : UInt8) (r : Reply) : notified flags r ∉ v := fun hmem => hv _ hmem _ rfl
  rw [reflash_eq] at hu
  rcases Attempt.bind_inv hu with ⟨w, post, map, rfl, hw, hpost⟩ | hleft
  · -- the loop came to its end
    have hfinished : LoopFinished fuel image argv (w ++ post ++ v) := by
      rw [List.append_assoc]
      exact loopFinished_of_reaches hfile hw
    obtain ⟨r, rfl⟩ : ∃ r, o' = .done r := by
      rcases hend status rfl with ⟨e, rfl, -⟩ | ⟨rfl, -⟩
      · exact ⟨_, rfl⟩
      · exact ⟨_, rfl⟩
    exact ⟨fun _ _ => hfinished, fun _ => handedBack_of_lock hw hpost hvnone⟩
  · -- the run left before the lock
    have hdone (r : Reply) : notified flashAccessSpiDone r ∉ u ++ v := fun hmem =>
      (List.mem_append.1 hmem).elim (not_done_of_beforeLock hleft.running' r) (hvnone _ r)
    have hunfinished : ¬LoopFinished fuel image argv (u ++ v) := fun hfinished => by
      obtain ⟨w, map, hw, hreaches⟩ := hfinished.reaches hfile
      obtain ⟨e, rfl⟩ : ∃ e, o' = .done (.error e) := by
        rcases hend status rfl with ⟨e, rfl, -⟩ | ⟨rfl, -⟩
        · exact ⟨e, rfl⟩
        · cases hleft
      cases hleft with
      | exit hexit =>
        cases (hreaches.done_unique hexit hw (List.prefix_append u v)).2
    refine ⟨fun hback hgranted => ?_, fun hloop => handedBack_of_none (fun hg => hunfinished (hloop hg)) hdone⟩
    obtain ⟨r, hmem, hpos⟩ := hgranted
    obtain ⟨before, after, hsplit⟩ := List.append_of_mem hmem
    obtain ⟨r', hr'⟩ := hback.back before r after hsplit hpos
    exact absurd (by rw [hsplit]; simp [hr']) (hdone r')

/-! ### The three commands -/

/-- The commands that ask for access to the SPI flash, with their arguments. -/
inductive SpiCommand
  | version
  | flashread (argv : List String)
  | reflash (fuel : Nat) (image : Mem) (argv : List String)

namespace SpiCommand

def prog : SpiCommand → Prog Services EfiStatus
  | version => cmdVersion
  | flashread argv => cmdFlashread argv
  | reflash fuel image argv => cmdReflash fuel image argv

/-- The runs in which nothing goes wrong in `reflash` once it has access. -/
def Undisturbed (t : Trace Services) : SpiCommand → Prop
  | reflash fuel image argv => Granted t → LoopFinished fuel image argv t
  | _ => True

end SpiCommand

/-- **`version` and `flashread` always hand the SPI flash back; `reflash` does unless, after access was
granted, the second notification is refused or an erase, write, read or comparison fails.** -/
theorem handedBack_iff (c : SpiCommand) {t : Trace Services} {status : EfiStatus}
    (h : Run c.prog t (.done status)) : HandedBack t ↔ c.Undisturbed t := by
  cases c with
  | version => exact iff_of_true (cmdVersion_handedBack h) trivial
  | flashread argv => exact iff_of_true (cmdFlashread_handedBack h) trivial
  | reflash fuel image argv => exact cmdReflash_handedBack h

/-- `version` with an EC that accepts every command, and a reflash of an hx30 that gets through. -/
theorem handedBack_granted :
    (HandedBack (cmdVersion.transcript (sampleServices fun _ => ⟨0, []⟩)) ∧
      Granted (cmdVersion.transcript (sampleServices fun _ => ⟨0, []⟩))) ∧
    ∃ t, Run (cmdReflash 0x40001 (sampleImage "hx30_v1") ["reflash", "ec.bin"]) t (.done efiSuccess) ∧
      HandedBack t ∧ Granted t := by
  constructor
  · exact ⟨(handedBack_iff .version (Prog.run_transcript _ _)).2 trivial, by decide⟩
  · obtain ⟨t, -, hrun, -⟩ := norServices_runs fun _ => 0
    have hfinished := loopFinished_of_success hrun
    have hback := (handedBack_iff (.reflash 0x40001 (sampleImage "hx30_v1") ["reflash", "ec.bin"]) hrun).2 fun _ =>
      hfinished
    exact ⟨t, hrun, hback, hfinished.granted (forBoard_hx30 0).final (by decide)⟩

/-- An hx30 that grants access and then refuses `FLASH_FIRMWARE_START`. -/
theorem handedBack_fails :
    ¬(∀ fuel image argv t status, Run (cmdReflash fuel image argv) t (.done status) → HandedBack t) := by
  intro h
  have hback := h 1 (sampleImage "hx30_v1") ["reflash", "ec.bin"] _ efiDeviceError
    (Prog.run_transcript (sampleServices (sampleEc "hx30_v0" (· == flashAccessSpi)))
      (cmdReflash 1 (sampleImage "hx30_v1") ["reflash", "ec.bin"]))
  have hgranted : (sampleRun "hx30_v1" "hx30_v0" (· == flashAccessSpi) ["reflash", "ec.bin"]).any
      isGrant = true := by decide
  have hdone : (sampleRun "hx30_v1" "hx30_v0" (· == flashAccessSpi) ["reflash", "ec.bin"]).all
      (fun e => hostCommand e ≠ some (notification flashAccessSpiDone)) = true := by decide
  obtain ⟨r, hmem, hpos⟩ := granted_iff.2 hgranted
  obtain ⟨before, after, hsplit⟩ := List.append_of_mem hmem
  obtain ⟨r', hr'⟩ := hback.back before r after hsplit hpos
  have hnot := List.all_eq_true.1 hdone (notified flashAccessSpiDone r') (by rw [hsplit]; simp [hr'])
  exact absurd rfl (of_decide_eq_true hnot)

end FrameworkHacks.ECTool
