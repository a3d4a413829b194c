import FrameworkHacks.ECTool.Confined

/-!
# RO last, and one region at a time

A run of the region loop is a list of calls of `flash_erase`, `flash_write` and `flash_read`
(`flashAll_logged`). The calls are a prefix of the planned ones (three for each selected region, from
the highest region down), and only the last of them may have failed. From this follows in which order
any run of `cmd_reflash` works on the flash (`cmdReflash_orderly`).
-/

namespace FrameworkHacks.ECTool

open Effects

/-! ### Calls -/

/-- The calls for one region. The comparison with the image belongs to the read. -/
inductive Stage
  | erase
  | write
  | read
  deriving DecidableEq, Repr

/-- The place of a stage among the three. -/
def Stage.rank : Stage → Nat
  | .erase => 0
  | .write => 1
  | .read => 2

structure Call where
  region : Nat
  stage : Stage
  events : Trace Services
  passed : Bool

def Call.key (c : Call) : Nat × Stage := (c.region, c.stage)

section

variable (fuel : Nat) (image : Mem) (map : FlashMap)

/-- The events are a run of the stage's function on the whole region. It passed if it returned a
non-negative value and, for the read, the region was found equal to the image. -/
def Call.Of (c : Call) : Prop :=
  ∃ r, map.regions[c.region]? = some r ∧
    match c.stage with
    | .erase => ∃ o, Run (flashErase r.base r.size) c.events o ∧
        (c.passed = true ↔ ∃ rv, o = .done rv ∧ 0 ≤ rv)
    | .write => ∃ o, Run (flashWrite fuel r.base r.size ⟨image, imageSize.toNat⟩ r.base) c.events o ∧
        (c.passed = true ↔ ∃ rv, o = .done rv ∧ 0 ≤ rv)
    | .read => ∃ verify o, Run (flashRead r.base r.size verify r.base) c.events o ∧
        (c.passed = true ↔ ∃ rv after, o = .done (rv, after) ∧ 0 ≤ rv ∧
          ∀ i < r.size, after.bytes (r.base + i) = image (r.base + i))

/-- Calls made according to a plan: each is followed by another only if it passed. -/
structure Log (plan : List (Nat × Stage)) (calls : List Call) : Prop where
  genuine : ∀ c ∈ calls, c.Of fuel image map
  planned : calls.map Call.key <+: plan
  passed : calls.Pairwise fun c _ => c.passed = true

/-- The events are those of calls made according to the plan; if `through` holds, the plan was carried
out and all calls passed. -/
def Logged (plan : List (Nat × Stage)) (t : Trace Services) (through : Prop) : Prop :=
  ∃ calls, t = calls.flatMap Call.events ∧ Log fuel image map plan calls ∧
    (through → calls.map Call.key = plan ∧ ∀ c ∈ calls, c.passed = true)

end

section

variable {fuel : Nat} {image : Mem} {map : FlashMap} {plan more : List (Nat × Stage)}
  {t u : Trace Services} {P Q : Prop}

theorem logged_nil : Logged fuel image map [] [] P :=
  ⟨[], rfl, ⟨by simp, by simp, List.Pairwise.nil⟩, fun _ => ⟨rfl, by simp⟩⟩

theorem logged_none (hP : ¬P) : Logged fuel image map plan [] P :=
  ⟨[], rfl, ⟨by simp, List.nil_prefix, List.Pairwise.nil⟩, fun h => (hP h).elim⟩

theorem logged_last {c : Call} (hc : c.Of fuel image map) (hP : ¬P) :
    Logged fuel image map (c.key :: plan) c.events P :=
  ⟨[c], by simp, ⟨by simpa using hc, by simp, by simp⟩, fun h => (hP h).elim⟩

theorem Logged.cons {c : Call} (h : Logged fuel image map plan t P) (hc : c.Of fuel image map)
    (hpassed : c.passed = true) : Logged fuel image map (c.key :: plan) (c.events ++ t) P := by
  obtain ⟨calls, rfl, ⟨hgenuine, hplanned, hpairs⟩, hthrough⟩ := h
  refine ⟨c :: calls, by simp, ⟨?_, ?_, ?_⟩, fun hP => ?_⟩
  · simpa using ⟨hc, hgenuine⟩
  · simpa using hplanned
  · exact List.pairwise_cons.2 ⟨fun _ _ => hpassed, hpairs⟩
  · obtain ⟨hkeys, hall⟩ := hthrough hP
    exact ⟨by rw [List.map_cons, hkeys], by simpa using ⟨hpassed, hall⟩⟩

theorem Logged.append (h : Logged fuel image map plan t True) (h' : Logged fuel image map more u P) :
    Logged fuel image map (plan ++ more) (t ++ u) P := by
  obtain ⟨calls, rfl, ⟨hgenuine, hplanned, hpairs⟩, hthrough⟩ := h
  obtain ⟨calls', rfl, ⟨hgenuine', hplanned', hpairs'⟩, hthrough'⟩ := h'
  obtain ⟨hkeys, hall⟩ := hthrough trivial
  refine ⟨calls ++ calls', by simp, ⟨?_, ?_, ?_⟩, fun hP => ?_⟩
  · intro c hc
    exact (List.mem_append.1 hc).elim (hgenuine c) (hgenuine' c)
  · rw [List.map_append, hkeys]
    exact (List.prefix_append_right_inj plan).2 hplanned'
  · exact List.pairwise_append.2 ⟨hpairs, hpairs', fun c hc _ _ => hall c hc⟩
  · obtain ⟨hkeys', hall'⟩ := hthrough' hP
    refine ⟨by rw [List.map_append, hkeys, hkeys'], fun c hc => ?_⟩
    exact (List.mem_append.1 hc).elim (hall c) (hall' c)

theorem Logged.weaken (h : Logged fuel image map plan t P) (hQ : ¬Q) :
    Logged fuel image map (plan ++ more) t Q := by
  obtain ⟨calls, rfl, ⟨hgenuine, hplanned, hpairs⟩, -⟩ := h
  exact ⟨calls, rfl, ⟨hgenuine, hplanned.trans (List.prefix_append _ _), hpairs⟩, fun h => (hQ h).elim⟩

theorem Logged.imp (h : Logged fuel image map plan t P) (hQ : Q → P) :
    Logged fuel image map plan t Q := by
  obtain ⟨calls, rfl, hlog, hthrough⟩ := h
  exact ⟨calls, rfl, hlog, fun h => hthrough (hQ h)⟩

/-! ### The loop -/

/-- The calls for one region. -/
def stagesOf (k : Nat) : List (Nat × Stage) := [(k, .erase), (k, .write), (k, .read)]

/-- The calls for a list of regions. -/
def planOf (ks : List Nat) : List (Nat × Stage) := ks.flatMap stagesOf

theorem sameMem_iff {a b : Mem} {n : Nat} : sameMem a b n = true ↔ ∀ i < n, a i = b i := by
  simp [sameMem]

/-- The region was done completely. -/
def Through (o : Outcome (Except Exit Buf)) : Prop := ∃ verify, o = .done (.ok verify)

/-- A call whose negative results are left with: it passed, or it is the last one. -/
theorem passed_or_last {α : Type} {p : Prog Services Int} {e : Int → Exit} {x : Step α}
    {o : Outcome (Except Exit α)}
    (h : Run (liftM p >>= fun rv => Attempt.leaveIf (rv < 0) (e rv) >>= fun _ => x).run t o) :
    (∃ u v rv, t = u ++ v ∧ Run p u (.done rv) ∧ 0 ≤ rv ∧ Run x.run v o) ∨
      ∃ o', Run p t o' ∧ (∀ rv, o' = .done rv → rv < 0) ∧ ∀ a, o ≠ .done (.ok a) := by
  rw [Attempt.run_lift_bind] at h
  rcases h.bind_cases with ⟨u, v, rv, rfl, hp, h⟩ | ⟨o', hp, hunfinished, ho⟩
  · rw [Attempt.run_leaveIf_bind] at h
    split at h
    · rename_i hneg
      obtain rfl := h.pure_nil
      rw [List.append_nil]
      refine .inr ⟨_, hp, fun rv' hrv => by cases hrv; exact hneg, ?_⟩
      rintro a rfl
      cases h.pure_done.2
    · exact .inl ⟨u, v, rv, rfl, hp, by omega, h⟩
  · exact .inr ⟨o', hp, fun rv hrv => (hunfinished rv hrv).elim, fun a => ho _⟩

theorem flashRegion_logged {k : Nat} {r : FlashRegion} (hr : map.regions[k]? = some r) {verify : Buf}
    {o : Outcome (Except Exit Buf)} (h : Run (flashRegion fuel image r verify).run t o) :
    Logged fuel image map (stagesOf k) t (Through o) := by
  unfold flashRegion at h
  rcases passed_or_last h with ⟨erase, rest, rv, rfl, herase, hrv, h⟩ | ⟨o', herase, hneg, ho⟩
  swap
  · exact logged_last (c := ⟨k, .erase, t, false⟩) ⟨r, hr, o', herase, by simpa using hneg⟩
      fun hthrough => hthrough.elim ho
  refine Logged.cons (c := ⟨k, .erase, erase, true⟩) ?_ ⟨r, hr, _, herase, by simpa using hrv⟩ rfl
  rcases passed_or_last h with ⟨write, rest, rv, rfl, hwrite, hrv, h⟩ | ⟨o', hwrite, hneg, ho⟩
  swap
  · exact logged_last (c := ⟨k, .write, _, false⟩) ⟨r, hr, o', hwrite, by simpa using hneg⟩
      fun hthrough => hthrough.elim ho
  refine Logged.cons (c := ⟨k, .write, write, true⟩) ?_ ⟨r, hr, _, hwrite, by simpa using hrv⟩ rfl
  -- the read, and the comparison with it
  rw [Attempt.run_lift_bind] at h
  rcases h.bind_cases with ⟨read, rest, ⟨rv, after⟩, rfl, hread, h⟩ | ⟨o', hread, hunfinished, ho⟩
  swap
  · refine logged_last (c := ⟨k, .read, _, false⟩) ⟨r, hr, verify, o', hread, ?_⟩
      fun hthrough => hthrough.elim fun v hv => ho _ hv
    simpa using fun rv after hrv _ => (hunfinished _ hrv).elim
  set equal := sameMem (after.bytes.drop r.base) (image.drop r.base) r.size with hequal
  have hrest : rest = [] ∧ (0 ≤ rv ∧ equal = true ∨ ¬Through o ∧ ¬(0 ≤ rv ∧ equal = true)) := by
    rw [Attempt.run_leaveIf_bind] at h
    split at h
    · refine ⟨h.pure_nil, .inr ⟨?_, by omega⟩⟩
      rintro ⟨v, rfl⟩
      cases h.pure_done.2
    rw [Attempt.run_leaveIf_bind] at h
    split at h
    · rename_i hdiffers
      refine ⟨h.pure_nil, .inr ⟨?_, fun hboth => by rw [hequal, hdiffers] at hboth; cases hboth.2⟩⟩
      rintro ⟨v, rfl⟩
      cases h.pure_done.2
    · rename_i hrv hsame
      exact ⟨Run.pure_nil (a := Except.ok after) h, .inl ⟨by omega, by simpa using hsame⟩⟩
  obtain ⟨rfl, hpassed | ⟨hthrough, hfailed⟩⟩ := hrest
  · refine Logged.cons (c := ⟨k, .read, read, true⟩) logged_nil ⟨r, hr, verify, _, hread, ?_⟩ rfl
    simpa [hequal, sameMem_iff] using hpassed
  · rw [List.append_nil]
    refine logged_last (c := ⟨k, .read, read, false⟩) ⟨r, hr, verify, _, hread, ?_⟩ hthrough
    simpa [hequal, sameMem_iff] using hfailed

/-- A run of the loop is logged, and it gets through only if the whole plan was carried out. -/
theorem flashAll_logged {ks : List Nat} {verify : Buf} {o : Outcome (Except Exit Unit)}
    (h : Run (flashAll fuel image map ks verify).run t o) :
    Logged fuel image map (planOf ks) t (o = .done (.ok ())) := by
  induction ks generalizing t verify with
  | nil =>
    obtain rfl := Run.pure_nil (a := Except.ok ()) h
    exact logged_nil
  | cons k rest ih =>
    unfold flashAll at h
    cases hr : map.regions[k]? with
    | none =>
      rw [hr] at h
      have hhalt : Run (Prog.halt .fault : Prog Services (Except Exit Unit)) t o := h
      obtain rfl := hhalt.halt_nil
      apply logged_none
      rintro rfl
      exact Run.halt_not_done hhalt
    | some r =>
      rw [hr] at h
      rw [planOf, List.flatMap_cons, ← planOf]
      rcases Attempt.bind_inv h with ⟨u, v, after, rfl, hregion, hrest⟩ | hleft
      · exact Logged.append ((flashRegion_logged hr hregion).imp fun _ => ⟨after, rfl⟩) (ih hrest)
      · apply (flashRegion_logged hr hleft.running').weaken
        rintro rfl
        cases hleft

end

/-! ### The order of the plan -/

/-- The region with index `k` was asked for. -/
def SelectedIndex (argv : List String) (map : FlashMap) (k : Nat) : Prop :=
  ∃ r, map.regions[k]? = some r ∧ Selected (options argv) r

/-- Higher regions first, and within a region the stages in their order. -/
def Precedes (a b : Nat × Stage) : Prop := b.1 < a.1 ∨ a.1 = b.1 ∧ a.2.rank < b.2.rank

/-- The calls `cmd_reflash` plans for the given options. -/
def plannedCalls (argv : List String) (map : FlashMap) : List (Nat × Stage) :=
  planOf (setBits (regionMask (reflashArgs {} (argv.drop 1)) map))

theorem mem_planOf {ks : List Nat} {k : Nat} {s : Stage} : (k, s) ∈ planOf ks ↔ k ∈ ks := by
  simp only [planOf, stagesOf, List.mem_flatMap, List.mem_cons, List.not_mem_nil, Prod.mk.injEq]
  constructor
  · rintro ⟨j, hj, h⟩
    rcases h with ⟨rfl, -⟩ | ⟨rfl, -⟩ | ⟨rfl, -⟩ | h
    · exact hj
    · exact hj
    · exact hj
    · exact h.elim
  · intro hk
    exact ⟨k, hk, by cases s <;> simp⟩

theorem planOf_pairwise {ks : List Nat} (h : ks.Pairwise (· > ·)) :
    (planOf ks).Pairwise Precedes := by
  induction ks with
  | nil => exact List.Pairwise.nil
  | cons k rest ih =>
    obtain ⟨hk, hrest⟩ := List.pairwise_cons.1 h
    rw [planOf, List.flatMap_cons, ← planOf]
    refine List.pairwise_append.2 ⟨?_, ih hrest, ?_⟩
    · simp [stagesOf, Precedes, Stage.rank]
    · rintro ⟨a, s⟩ ha ⟨b, s'⟩ hb
      have hab : a = k := by
        simp only [stagesOf, List.mem_cons, List.not_mem_nil, Prod.mk.injEq, or_false] at ha
        omega
      exact .inl (by rw [hab]; exact hk b (mem_planOf.1 hb))

theorem mem_plannedCalls {map : FlashMap} (hmap : map.regions.length ≤ 16) {argv : List String}
    {k : Nat} {s : Stage} : (k, s) ∈ plannedCalls argv map ↔ SelectedIndex argv map k := by
  rw [plannedCalls, mem_planOf, mem_setBits, getLsbD_regionMask hmap, SelectedIndex]

theorem mem_of_precedes {before after plan : List (Nat × Stage)} {a b : Nat × Stage}
    (hplan : plan.Pairwise Precedes) (hpre : before ++ b :: after <+: plan) (ha : a ∈ plan)
    (hab : Precedes a b) : a ∈ before := by
  obtain ⟨rest, rfl⟩ := hpre
  rw [List.append_assoc, List.mem_append] at ha
  rcases ha with ha | ha
  · exact ha
  exfalso
  have htail := (List.pairwise_append.1 hplan).1
  rw [List.append_assoc] at hplan
  have hlater := (List.pairwise_append.1 hplan).2.1
  rw [List.cons_append, List.pairwise_cons] at hlater
  rw [List.cons_append, List.mem_cons] at ha
  rcases ha with rfl | ha
  · rcases hab with h | ⟨-, h⟩ <;> omega
  · rcases hab with h | ⟨h, h'⟩ <;> rcases hlater.1 a ha with h₁ | ⟨h₁, h₂⟩ <;> omega

/-! ### Whole runs -/

/-- How a run works on the flash: events before the region loop, the calls of the loop, events after
it. -/
structure Orderly (fuel : Nat) (image : Mem) (argv : List String) (map : FlashMap)
    (t pre : Trace Services) (calls : List Call) (post : Trace Services) : Prop where
  split : t = pre ++ (calls.flatMap Call.events ++ post)
  /-- Nothing is erased or written outside the calls. -/
  outside : ∀ e ∈ pre ++ post, ∀ c ∈ hostCommand e, flashRange c = none
  genuine : ∀ c ∈ calls, c.Of fuel image map
  /-- An erase or write command of a call is for its region, and of its kind. -/
  inside : ∀ c ∈ calls, ∀ e ∈ c.events, ∀ d ∈ hostCommand e, ∀ offset size,
    flashRange d = some (offset, size) →
      (∃ r, map.regions[c.region]? = some r ∧ r.base ≤ offset ∧ offset + size ≤ r.base + r.size) ∧
      (d.command = ecCmdFlashErase → c.stage = .erase) ∧ (d.command = ecCmdFlashWrite → c.stage = .write)
  selected : ∀ c ∈ calls, SelectedIndex argv map c.region
  /-- The regions come in strictly descending order, each once, and each is erased, written and read
  in this order. -/
  descending : calls.Pairwise fun c d => Precedes c.key d.key
  /-- A call for a region is made only after all stages of every higher selected region passed. -/
  finished : ∀ before c after, calls = before ++ c :: after → ∀ k, SelectedIndex argv map k →
    c.region < k → ∀ s, ∃ d ∈ before, d.region = k ∧ d.stage = s ∧ d.passed = true
  /-- A region is written only after it was erased. -/
  erased : ∀ before c after, calls = before ++ c :: after → c.stage = .write →
    ∃ d ∈ before, d.region = c.region ∧ d.stage = .erase ∧ d.passed = true
  /-- A call that does not pass is the last one. -/
  stops : ∀ before c after, calls = before ++ c :: after → c.passed = false → after = []

theorem call_inside {fuel : Nat} {image : Mem} {map : FlashMap} (hmap : map ∈ shippedMaps) {c : Call}
    (hc : c.Of fuel image map) : ∀ e ∈ c.events, ∀ d ∈ hostCommand e, ∀ offset size,
      flashRange d = some (offset, size) →
        (∃ r, map.regions[c.region]? = some r ∧ r.base ≤ offset ∧ offset + size ≤ r.base + r.size) ∧
        (d.command = ecCmdFlashErase → c.stage = .erase) ∧
        (d.command = ecCmdFlashWrite → c.stage = .write) := by
  obtain ⟨r, hr, hc⟩ := hc
  have hsmall := shippedMaps_inside map hmap r (List.mem_of_getElem? hr)
  obtain ⟨k, stage, events, passed⟩ := c
  intro e he d hd offset size hrange
  cases stage with
  | erase =>
    obtain ⟨o, hrun, -⟩ := hc
    have hsends := (flashErase_sends (H := fun _ => True) trivial (by omega) (by omega)).events hrun e
      he d hd
    rcases hsends with hharmless | ⟨hcmd, herase⟩
    · rw [flashRange_harmless hharmless] at hrange
      cases hrange
    · rw [herase] at hrange
      cases hrange
      refine ⟨⟨r, hr, Nat.le_refl _, Nat.le_refl _⟩, fun _ => rfl, fun hw => ?_⟩
      rw [hcmd] at hw
      exact absurd hw (by decide)
  | write =>
    obtain ⟨o, hrun, -⟩ := hc
    have hsends := (flashWrite_sends (H := fun _ => True) trivial trivial fuel r.base r.size _ r.base).events
      hrun e he d hd
    rcases hsends with hharmless | ⟨hcmd, i, n, hin, hwrite, -⟩
    · rw [flashRange_harmless hharmless] at hrange
      cases hrange
    · rw [hwrite] at hrange
      cases hrange
      refine ⟨⟨r, hr, by omega, by omega⟩, fun he => ?_, fun _ => rfl⟩
      rw [hcmd] at he
      exact absurd he (by decide)
  | read =>
    obtain ⟨verify, o, hrun, -⟩ := hc
    have hsends := (flashRead_sends (H := fun _ => True) trivial trivial r.base r.size verify r.base).events
      hrun e he d hd
    rw [flashRange_harmless hsends] at hrange
    cases hrange

theorem orderly_of_log {fuel : Nat} {image : Mem} {argv : List String} {map : FlashMap}
    {pre post : Trace Services} {calls : List Call} (hmap : map ∈ shippedMaps)
    (hlog : Log fuel image map (plannedCalls argv map) calls)
    (houtside : ∀ e ∈ pre ++ post, ∀ c ∈ hostCommand e, flashRange c = none) :
    Orderly fuel image argv map (pre ++ (calls.flatMap Call.events ++ post)) pre calls post := by
  have hlen := shippedMaps_length map hmap
  have hordered : (plannedCalls argv map).Pairwise Precedes := planOf_pairwise (setBits_descending _)
  -- the calls before a given one are the planned calls that precede it, and all passed
  have hearlier {before : List Call} {c : Call} {after : List Call} (hcalls : calls = before ++ c :: after)
      {k : Nat} {s : Stage} (hk : (k, s) ∈ plannedCalls argv map) (hks : Precedes (k, s) c.key) :
      ∃ d ∈ before, d.region = k ∧ d.stage = s ∧ d.passed = true := by
    have hpre := hlog.planned
    have hpairs := hlog.passed
    rw [hcalls, List.map_append, List.map_cons] at hpre
    obtain ⟨d, hd, hkey⟩ := List.mem_map.1 (mem_of_precedes hordered hpre hk hks)
    rw [hcalls] at hpairs
    refine ⟨d, hd, congrArg Prod.fst hkey, congrArg Prod.snd hkey, ?_⟩
    exact (List.pairwise_append.1 hpairs).2.2 d hd c List.mem_cons_self
  have hselected : ∀ c ∈ calls, SelectedIndex argv map c.region := fun c hc =>
    (mem_plannedCalls hlen (s := c.stage)).1 (hlog.planned.subset (List.mem_map_of_mem hc))
  refine ⟨rfl, houtside, hlog.genuine, fun c hc => call_inside hmap (hlog.genuine c hc), hselected, ?_,
    ?_, ?_, ?_⟩
  · exact List.pairwise_map.1 (hordered.sublist hlog.planned.sublist)
  · intro before c after hcalls k hk hlt s
    exact hearlier hcalls ((mem_plannedCalls hlen).2 hk) (.inl hlt)
  · intro before c after hcalls hwrite
    have hc : SelectedIndex argv map c.region := hselected c (by rw [hcalls]; simp)
    exact hearlier hcalls ((mem_plannedCalls hlen).2 hc) (.inr ⟨rfl, by
      rw [Call.key, hwrite]
      exact Nat.zero_lt_one⟩)
  · intro before c after hcalls hfailed
    have hpairs := hlog.passed
    rw [hcalls] at hpairs
    have hlater := (List.pairwise_cons.1 (List.pairwise_append.1 hpairs).2.1).1
    cases after with
    | nil => rfl
    | cons d rest =>
      have hpassed := hlater d List.mem_cons_self
      rw [hfailed] at hpassed
      cases hpassed

theorem no_range_of_quiet {t : Trace Services} (h : ∀ e ∈ t, Quiet e) :
    ∀ e ∈ t, ∀ c ∈ hostCommand e, flashRange c = none := fun e he c hc =>
  flashRange_harmless (h e he c hc)

theorem no_range_of_notified {t : Trace Services} {f g : UInt8}
    (h : ∀ e ∈ t, Sends (fun c => c = notification f ∨ c = notification g) e) :
    ∀ e ∈ t, ∀ c ∈ hostCommand e, flashRange c = none := fun e he c hc => by
  rcases h e he c hc with rfl | rfl <;> rfl

theorem reflash_logged {fuel : Nat} {image : Mem} {argv : List String} {filename : String}
    {t : Trace Services} {o : Outcome (Except Exit Unit)}
    (h : Run (reflash fuel image (reflashArgs {} (argv.drop 1)) filename).run t o) :
    (∀ e ∈ t, ∀ c ∈ hostCommand e, flashRange c = none) ∨
      ∃ map pre calls post, finalFlashMap image = some map ∧
        t = pre ++ (calls.flatMap Call.events ++ post) ∧
        Log fuel image map (plannedCalls argv map) calls ∧
        ∀ e ∈ pre ++ post, ∀ c ∈ hostCommand e, flashRange c = none := by
  have hprepare := holds_prepare (H := fun _ => True) (G := fun _ => True) trivial image
    (reflashArgs {} (argv.drop 1)) filename
  unfold reflash at h
  rcases Attempt.bind_inv h with ⟨pre, t, ⟨map, mask, verify⟩, rfl, hpre, h⟩ | hleft
  swap
  · exact .inl (no_range_of_quiet (Prog.Holds.events hprepare hleft.running'))
  have hpreQuiet := no_range_of_quiet (Prog.Holds.events hprepare hpre)
  obtain ⟨hmap, hmask⟩ := hprepare.value hpre
  simp only at hmap hmask h
  subst hmask
  have hunlock := holds_unlock (H := fun _ => True) (G := fun _ => True) map
  rcases Attempt.bind_inv h with ⟨start, t, ⟨⟩, rfl, hstart, h⟩ | hleft
  swap
  · have hstart := no_range_of_notified (Prog.Holds.events hunlock hleft.running')
    exact .inl fun e he => (List.mem_append.1 he).elim (hpreQuiet e) (hstart e)
  have hstartQuiet := no_range_of_notified (Prog.Holds.events hunlock hstart)
  have hbefore : ∀ e ∈ pre ++ start, ∀ c ∈ hostCommand e, flashRange c = none := fun e he =>
    (List.mem_append.1 he).elim (hpreQuiet e) (hstartQuiet e)
  rw [flashRegions_eq] at h
  refine .inr ?_
  rcases Attempt.bind_inv h with ⟨body, post, ⟨⟩, rfl, hbody, hpost⟩ | hleft
  · obtain ⟨calls, rfl, hlog, -⟩ := flashAll_logged hbody
    refine ⟨map, pre ++ start, calls, post, hmap, by simp, hlog, fun e he => ?_⟩
    have hlock := no_range_of_notified (Prog.Holds.events (holds_lock (H := fun _ => True)
      (G := fun _ => True) map) hpost)
    exact (List.mem_append.1 he).elim (hbefore e) (hlock e)
  · obtain ⟨calls, rfl, hlog, -⟩ := flashAll_logged hleft.running'
    exact ⟨map, pre ++ start, calls, [], hmap, by simp, hlog, by simpa using hbefore⟩

/-- **The regions are worked on from the highest down, each is finished before the next begins, and
nothing follows a failure.** -/
theorem cmdReflash_orderly {fuel : Nat} {image : Mem} {argv : List String} {t : Trace Services}
    {o : Outcome EfiStatus} (h : Run (cmdReflash fuel image argv) t o) :
    (∀ e ∈ t, ∀ c ∈ hostCommand e, flashRange c = none) ∨
      ∃ map pre calls post, finalFlashMap image = some map ∧
        Orderly fuel image argv map t pre calls post := by
  rcases cmdReflash_inv h with ⟨rfl, -⟩ | ⟨filename, u, v, o', -, rfl, hu, hv, -⟩
  · exact .inl (by simp)
  have hquiet : ∀ e ∈ v, ∀ c ∈ hostCommand e, flashRange c = none := fun e he c hc =>
    (hv e he c hc).elim
  rcases reflash_logged hu with hnone | ⟨map, pre, calls, post, hmap, rfl, hlog, hrange⟩
  · exact .inl fun e he => (List.mem_append.1 he).elim (hnone e) (hquiet e)
  · refine .inr ⟨map, pre, calls, post ++ v, hmap, ?_⟩
    have houtside : ∀ e ∈ pre ++ (post ++ v), ∀ c ∈ hostCommand e, flashRange c = none := fun e he => by
      rw [← List.append_assoc] at he
      exact (List.mem_append.1 he).elim (hrange e) (hquiet e)
    simpa using orderly_of_log (finalFlashMap_shipped hmap) hlog houtside

/-- A run on an hx30 that erases RW and fails there, before RO is touched. -/
theorem cmdReflash_orderly_hx30 : ∃ map pre calls post,
    finalFlashMap (sampleImage "hx30_v1") = some map ∧
      Orderly 1 (sampleImage "hx30_v1") ["reflash", "ec.bin"] map
        (sampleRun "hx30_v1" "hx30_v0" (fun _ => true) ["reflash", "ec.bin"]) pre calls post := by
  have herase : (sampleRun "hx30_v1" "hx30_v0" (fun _ => true) ["reflash", "ec.bin"]).any
      (fun e => (hostCommand e).any fun c => flashRange c ≠ none) = true := by decide
  rcases cmdReflash_orderly (Prog.run_transcript _ _) with hnone | horderly
  · obtain ⟨e, he, hrange⟩ := List.any_eq_true.1 herase
    obtain ⟨c, hc, hrange⟩ := (Option.any_eq_true _ _).1 hrange
    exact absurd (hnone e he c hc) (by simpa using hrange)
  · exact horderly

end FrameworkHacks.ECTool
