import FrameworkHacks.ECTool.Order
import FrameworkHacks.ECTool.Reading
import FrameworkHacks.ECTool.ReflashServices

/-!
# What the flash holds while it is being reflashed

The EC's flash is any contents that change with the commands sent so far, as long as a byte changes only at
an erase or write command that names its address (`Tracks`). How much of an erase or a write an EC carries out
is left open, but not that it goes on with it at another command.

At every moment of a run, also one cut short, at most one region is in flux: every selected region above it
holds the image, and everything else is as it was (`InProgress`). A run that reports success has the image in
every selected region (`cmdReflash_flashed`). For both, all that is asked of the EC is that what it returns to a
read is what the flash holds.
-/

namespace FrameworkHacks.ECTool

open Effects

/-! ### The flash -/

/-- No erase or write command of the event names the address. -/
def Spares (a : Nat) (e : Event Services) : Prop :=
  ∀ c ∈ hostCommand e, ∀ offset size, flashRange c = some (offset, size) → a < offset ∨ offset + size ≤ a

/-- `content t` is what the flash holds after the events `t`. -/
def Tracks (content : Trace Services → Mem) : Prop :=
  ∀ t e a, Spares a e → content (t ++ [e]) a = content t a

/-- A read that is not refused returns what the flash holds. -/
def ReadsBack (content : Trace Services → Mem) (t : Trace Services) : Prop :=
  ∀ pre c r post, t = pre ++ replied c r :: post → c.command = ecCmdFlashRead → 0 ≤ r.rv →
    r.rv = c.insize ∧ r.data = ((content pre).drop ((Mem.ofList c.outdata).le32 0)).toList c.insize

section Content

variable {content : Trace Services → Mem}

theorem Tracks.append (hc : Tracks content) {a : Nat} {u : Trace Services} (hu : ∀ e ∈ u, Spares a e)
    (t : Trace Services) : content (t ++ u) a = content t a := by
  induction u generalizing t with
  | nil => rw [List.append_nil]
  | cons e u ih =>
    rw [← List.singleton_append, ← List.append_assoc, ih (fun e he => hu e (by simp [he])),
      hc t e a (hu e (by simp))]

theorem spares_of_none {e : Event Services} (h : ∀ c ∈ hostCommand e, flashRange c = none) (a : Nat) :
    Spares a e := fun c hc offset size hrange => by
  rw [h c hc] at hrange
  cases hrange

theorem ReadsBack.part {t u v : Trace Services} (h : ReadsBack content (t ++ (u ++ v))) {pre post : Trace Services}
    {c : HostCommand} {r : Reply} (hu : u = pre ++ replied c r :: post) (hread : c.command = ecCmdFlashRead)
    (hrv : 0 ≤ r.rv) :
    r.rv = c.insize ∧ r.data = ((content (t ++ pre)).drop ((Mem.ofList c.outdata).le32 0)).toList c.insize :=
  h (t ++ pre) c r (post ++ v) (by rw [hu]; simp) hread hrv

/-! ### A read -/

theorem ReadChunks.spares {offset size : Int} {start i : Nat} {buf : Mem} {buffer buffer' : Buf}
    {t : Trace Services} (h : ReadChunks offset size start i buf buffer t buffer') :
    ∀ e ∈ t, ∀ c ∈ hostCommand e, flashRange c = none := by
  induction h with
  | done h => simp
  | chunk _ _ _ ih =>
    rw [List.forall_mem_cons]
    refine ⟨fun c hc => ?_, ih⟩
    cases hc
    rfl

theorem ReadChunks.holds_flash (hc : Tracks content) {offset size start : Nat} {buf : Mem} {buffer buffer' : Buf}
    {t u v : Trace Services} (hin : offset + size < 2147483648)
    (h : ReadChunks offset size start 0 buf buffer u buffer') (hreads : ReadsBack content (t ++ (u ++ v))) :
    ∀ m < size, buffer'.bytes (start + m) = content t (offset + m) := by
  have hanswer {c : HostCommand} {r : Reply} (hr : replied c r ∈ u) :
      ∃ k : Nat, c = readRequest offset size k ∧ k < size ∧ 0 ≤ r.rv ∧ r.rv = c.insize ∧
        r.data = ((content t).drop (offset + k)).toList c.insize := by
    obtain ⟨k, rfl, -, hk, hpos⟩ := h.request hr
    obtain ⟨pre, post, hu⟩ := List.append_of_mem hr
    obtain ⟨hrv, hdata⟩ := hreads.part hu rfl hpos
    have haddress : (Mem.ofList (readRequest (offset : Int) size k).outdata).le32 0 = offset + k := by
      rw [readRequest_address, toUint32_of_lt (by omega) (by omega)]
      omega
    rw [haddress] at hdata
    refine ⟨k, rfl, by omega, hpos, hrv, hdata.trans (Mem.toList_congr fun i _ => ?_)⟩
    rw [Mem.drop_apply, Mem.drop_apply]
    refine hc.append (fun e he => spares_of_none (h.spares e ?_) _) t
    rw [hu]
    simp [he]
  have hcontract : ∀ e ∈ u, InContract e := by
    rintro ⟨op, x⟩ he
    cases op with
    | sendCommand c =>
      obtain ⟨k, rfl, -, -, hrv, hdata⟩ := hanswer he
      have hlen : x.data.length = (readRequest offset size k).insize := by rw [hdata, Mem.toList_length]
      exact .inr ⟨by rw [hrv, hlen], Nat.le_of_eq hlen⟩
    | _ => trivial
  have hcomplete : Complete u := fun c r hr => by
    obtain ⟨k, -, -, -, hrv, -⟩ := hanswer hr
    exact hrv
  intro m hm
  obtain ⟨c, r, j, hr, -, haddress, hj⟩ := (h.delivered hcontract hcomplete).2 m (Nat.zero_le m) (by omega)
  obtain ⟨k, rfl, hk, hpos, -, hdata⟩ := hanswer hr
  obtain ⟨rfl, -⟩ := position_eq (by omega) (by omega) (by omega) hpos (hcontract _ hr) haddress hj
  have hlt : j < (readRequest offset size k).insize := by
    have := (List.getElem?_eq_some_iff.1 hj).1
    rwa [hdata, Mem.toList_length] at this
  rw [hdata, Mem.toList, List.getElem?_map, List.getElem?_range hlt, Option.map_some, Option.some.injEq] at hj
  rw [← hj, Mem.drop_apply, Nat.add_assoc]

/-! ### Calls -/

variable {fuel : Nat} {image : Mem} {map : FlashMap}

/-- The address is in the region with this index. -/
def InRegion (map : FlashMap) (k a : Nat) : Prop :=
  ∃ r, map.regions[k]? = some r ∧ r.base ≤ a ∧ a < r.base + r.size

theorem shippedMaps_nodup : ∀ map ∈ shippedMaps, map.regions.Nodup := by decide

theorem InRegion.unique (hmap : map ∈ shippedMaps) {j k a : Nat} (hj : InRegion map j a) (hk : InRegion map k a) :
    j = k := by
  obtain ⟨r, hr, hra, hra'⟩ := hj
  obtain ⟨s, hs, hsa, hsa'⟩ := hk
  rcases shippedMaps_disjoint map hmap r (List.mem_of_getElem? hr) s (List.mem_of_getElem? hs) with rfl | h | h
  · exact (List.getElem?_inj (List.getElem?_eq_some_iff.1 hr).1 (shippedMaps_nodup map hmap)).1 (hr.trans hs.symm)
  · omega
  · omega

theorem call_spares (hmap : map ∈ shippedMaps) {c : Call} (hc : c.Of fuel image map) {a : Nat}
    (ha : ¬InRegion map c.region a) : ∀ e ∈ c.events, Spares a e := by
  intro e he d hd offset size hrange
  obtain ⟨⟨r, hr, hlow, hhigh⟩, -⟩ := call_inside hmap hc e he d hd offset size hrange
  by_contra hin
  exact ha ⟨r, hr, by omega, by omega⟩

theorem calls_spare (hmap : map ∈ shippedMaps) {calls : List Call} (hcalls : ∀ c ∈ calls, c.Of fuel image map)
    {a : Nat} (ha : ∀ c ∈ calls, ¬InRegion map c.region a) : ∀ e ∈ calls.flatMap Call.events, Spares a e := by
  intro e he
  obtain ⟨c, hc, he⟩ := List.mem_flatMap.1 he
  exact call_spares hmap (hcalls c hc) (ha c hc) e he

theorem flashRead_nonpos (offset size : Int) (buffer : Buf) (start : Nat) :
    Prog.Holds (fun _ => True) (fun _ => True) (fun _ => True) (fun r => r.1 ≤ 0)
      (flashRead offset size buffer start) := by
  refine Prog.Holds.loop (I := fun _ => True) trivial ?_ _ _ trivial
  rintro ⟨i, buf, buffer⟩ -
  rw [flashReadRound]
  simp only []
  split
  · refine (holds_addInt (Q := fun _ => True) trivial fun _ => trivial).bind fun a _ => ?_
    refine Prog.Holds.perform_bind fun r => ⟨trivial, fun _ => ?_⟩
    split
    · rename_i hneg
      exact Int.le_of_lt hneg
    refine (Buf.holds_copyIn (Q := fun _ => True) trivial fun _ => trivial).bind fun b _ => ?_
    exact (holds_addInt (Q := fun _ => True) trivial fun _ => trivial).bind fun i _ => trivial
  · exact Int.le_refl 0

/-- A read that passed found the region equal to the image, and it was. -/
theorem passed_read (hc : Tracks content) (hmap : map ∈ shippedMaps) {c : Call} (hof : c.Of fuel image map)
    (hstage : c.stage = .read) (hpassed : c.passed = true) {t v : Trace Services}
    (hreads : ReadsBack content (t ++ (c.events ++ v))) {a : Nat} (ha : InRegion map c.region a) :
    content (t ++ c.events) a = image a := by
  obtain ⟨k, stage, events, passed⟩ := c
  obtain rfl : stage = .read := hstage
  obtain rfl : passed = true := hpassed
  obtain ⟨r, hr, hlow, hhigh⟩ := ha
  obtain ⟨r', hr', verify, o, hrun, hpass⟩ := hof
  obtain rfl : r = r' := Option.some.inj (hr.symm.trans hr')
  obtain ⟨rv, after, rfl, hrv, hequal⟩ := hpass.1 rfl
  have hsmall := shippedMaps_inside map hmap r (List.mem_of_getElem? hr)
  have hnonpos := (flashRead_nonpos r.base r.size verify r.base).result hrun
  obtain rfl : rv = 0 := by simp only at hnonpos; omega
  have hchunks : ReadChunks r.base r.size r.base 0 (fun _ => 0) verify events after := flashRead_chunks hrun
  obtain ⟨m, rfl⟩ : ∃ m, a = r.base + m := ⟨a - r.base, by omega⟩
  rw [hc.append (fun e he => spares_of_none (hchunks.spares e he) _) t,
    ← hchunks.holds_flash hc (by omega) hreads m (by omega), hequal m (by omega)]

/-! ### Progress -/

/-- Every selected region above `k` holds the image, and what is in no selected region from `k` up is as it
was. -/
structure InProgress (image : Mem) (argv : List String) (map : FlashMap) (k : Nat) (before after : Mem) :
    Prop where
  done : ∀ j a, SelectedIndex argv map j → k < j → InRegion map j a → after a = image a
  kept : ∀ a, (∀ j, SelectedIndex argv map j → k ≤ j → ¬InRegion map j a) → after a = before a

variable {argv : List String} {t pre post : Trace Services} {calls : List Call}

theorem Orderly.done (ho : Orderly fuel image argv map t pre calls post) (hmap : map ∈ shippedMaps)
    (hc : Tracks content) (hreads : ReadsBack content t) {c : Call} (hmem : c ∈ calls) (hstage : c.stage = .read)
    (hpassed : c.passed = true) {a : Nat} (ha : InRegion map c.region a) : content t a = image a := by
  obtain ⟨before, later, hcalls⟩ := List.append_of_mem hmem
  -- the calls after it are for other regions
  have hothers : ∀ d ∈ later, ¬InRegion map d.region a := by
    intro d hd hin
    have hpairs := ho.descending
    rw [hcalls] at hpairs
    have hprec := (List.pairwise_cons.1 (List.pairwise_append.1 hpairs).2.1).1 d hd
    have hsame := hin.unique hmap ha
    rcases hprec with hlt | ⟨-, hrank⟩
    · simp only [Call.key] at hlt
      omega
    · simp only [Call.key, hstage, Stage.rank] at hrank
      cases hd : d.stage <;> simp [hd] at hrank
  have hlater : ∀ e ∈ later.flatMap Call.events ++ post, Spares a e := by
    intro e he
    rcases List.mem_append.1 he with he | he
    · exact calls_spare hmap (fun d hd => ho.genuine d (by rw [hcalls]; simp [hd])) hothers e he
    · exact spares_of_none (ho.outside e (by simp [he])) a
  have hsplit : t = (pre ++ before.flatMap Call.events) ++ (c.events ++ (later.flatMap Call.events ++ post)) := by
    rw [ho.split, hcalls]
    simp
  rw [hsplit] at hreads ⊢
  rw [← List.append_assoc, hc.append hlater]
  exact passed_read hc hmap (ho.genuine c hmem) hstage hpassed hreads ha

theorem Orderly.inProgress (ho : Orderly fuel image argv map t pre calls post) (hmap : map ∈ shippedMaps)
    (hc : Tracks content) (hreads : ReadsBack content t) :
    ∃ k, InProgress image argv map k (content []) (content t) := by
  have hkept {a : Nat} (hspared : ∀ c ∈ calls, ¬InRegion map c.region a) : content t a = content [] a := by
    rw [← List.nil_append t, ho.split]
    refine hc.append (fun e he => ?_) []
    rw [List.mem_append, List.mem_append] at he
    rcases he with he | he | he
    · exact spares_of_none (ho.outside e (by simp [he])) a
    · exact calls_spare hmap ho.genuine hspared e he
    · exact spares_of_none (ho.outside e (by simp [he])) a
  rcases List.eq_nil_or_concat calls with hnil | ⟨before, last, hcalls⟩
  · -- nothing has begun
    refine ⟨map.regions.length, fun j a hj hlt => ?_, fun a _ => hkept (by simp [hnil])⟩
    obtain ⟨r, hr, -⟩ := hj
    have := (List.getElem?_eq_some_iff.1 hr).1
    omega
  rw [List.concat_eq_append] at hcalls
  refine ⟨last.region, fun j a hj hlt ha => ?_, fun a ha => hkept fun c hmem hin => ?_⟩
  · obtain ⟨c, hcmem, hregion, hstage, hpassed⟩ := ho.finished before last [] hcalls j hj hlt .read
    exact ho.done hmap hc hreads (by rw [hcalls]; simp [hcmem]) hstage hpassed (by rwa [hregion])
  · refine ha c.region (ho.selected c hmem) ?_ hin
    have hpairs := ho.descending
    rw [hcalls] at hmem hpairs
    rcases List.mem_append.1 hmem with hmem | hmem
    · have hprec := (List.pairwise_append.1 hpairs).2.2 c hmem last (by simp)
      simp only [Precedes, Call.key] at hprec
      omega
    · rw [List.mem_singleton.1 hmem]

end Content

/-! ### Whole runs -/

/-- The calls were made for every stage of every selected region, and passed. -/
def AllPassed (argv : List String) (map : FlashMap) (calls : List Call) : Prop :=
  ∀ k, SelectedIndex argv map k → ∀ s, ∃ c ∈ calls, c.region = k ∧ c.stage = s ∧ c.passed = true

/-- A run leaves the flash alone, or works on it in order; one that gets through has done everything. -/
theorem reflash_orderly {fuel : Nat} {image : Mem} {argv : List String} {filename : String}
    {t : Trace Services} {o : Outcome (Except Exit Unit)}
    (h : Run (reflash fuel image (reflashArgs {} (argv.drop 1)) filename).run t o) :
    ((∀ e ∈ t, ∀ c ∈ hostCommand e, flashRange c = none) ∧ o ≠ .done (.ok ())) ∨
      ∃ map pre calls post, finalFlashMap image = some map ∧ Orderly fuel image argv map t pre calls post ∧
        (o = .done (.ok ()) → AllPassed argv map calls) := by
  have hprepare := holds_prepare (H := fun _ => True) (G := fun _ => True) trivial image
    (reflashArgs {} (argv.drop 1)) filename
  have hleft {u : Trace Services} {α : Type} {x : Step α} (hx : Attempt.Left x u o) : o ≠ .done (.ok ()) := by
    rintro rfl
    cases hx
  unfold reflash at h
  rcases Attempt.bind_inv h with ⟨pre, t, ⟨map, mask, verify⟩, rfl, hpre, h⟩ | hstop
  swap
  · exact .inl ⟨no_range_of_quiet (Prog.Holds.events hprepare hstop.running'), hleft hstop⟩
  have hpreQuiet := no_range_of_quiet (Prog.Holds.events hprepare hpre)
  obtain ⟨hmap, hmask⟩ := hprepare.value hpre
  simp only at hmap hmask h
  subst hmask
  have hunlock := holds_unlock (H := fun _ => True) (G := fun _ => True) map
  rcases Attempt.bind_inv h with ⟨start, t, ⟨⟩, rfl, hstart, h⟩ | hstop
  swap
  · have hstart := no_range_of_notified (Prog.Holds.events hunlock hstop.running')
    exact .inl ⟨fun e he => (List.mem_append.1 he).elim (hpreQuiet e) (hstart e), hleft hstop⟩
  have hstartQuiet := no_range_of_notified (Prog.Holds.events hunlock hstart)
  have hshipped := finalFlashMap_shipped hmap
  have houtside {post : Trace Services} (hpost : ∀ e ∈ post, ∀ c ∈ hostCommand e, flashRange c = none) :
      ∀ e ∈ (pre ++ start) ++ post, ∀ c ∈ hostCommand e, flashRange c = none := fun e he => by
    rw [List.mem_append, List.mem_append] at he
    exact he.elim (fun he => he.elim (hpreQuiet e) (hstartQuiet e)) (hpost e)
  rw [flashRegions_eq] at h
  refine .inr ?_
  rcases Attempt.bind_inv h with ⟨body, post, ⟨⟩, rfl, hbody, hpost⟩ | hstop
  · obtain ⟨calls, rfl, hlog, hthrough⟩ := flashAll_logged hbody
    obtain ⟨hkeys, hpassed⟩ := hthrough rfl
    have hlock := no_range_of_notified (Prog.Holds.events (holds_lock (H := fun _ => True)
      (G := fun _ => True) map) hpost)
    refine ⟨map, pre ++ start, calls, post, hmap, ?_, fun _ k hk s => ?_⟩
    · simpa using orderly_of_log hshipped hlog (houtside hlock)
    · have hplanned := (mem_plannedCalls (shippedMaps_length map hshipped) (s := s)).2 hk
      rw [plannedCalls, ← hkeys] at hplanned
      obtain ⟨c, hc, hkey⟩ := List.mem_map.1 hplanned
      exact ⟨c, hc, congrArg Prod.fst hkey, congrArg Prod.snd hkey, hpassed c hc⟩
  · obtain ⟨calls, rfl, hlog, -⟩ := flashAll_logged hstop.running'
    refine ⟨map, pre ++ start, calls, [], hmap, ?_, fun ho => (hleft hstop ho).elim⟩
    have hnone : ∀ e ∈ ([] : Trace Services), ∀ c ∈ hostCommand e, flashRange c = none := by simp
    simpa using orderly_of_log hshipped hlog (houtside hnone)

/-- **At every moment at most one region is in flux, and success means that the image is there.** -/
theorem cmdReflash_flashed {fuel : Nat} {image : Mem} {argv : List String} {t : Trace Services}
    {o : Outcome EfiStatus} {content : Trace Services → Mem} (hc : Tracks content) (hreads : ReadsBack content t)
    (h : Run (cmdReflash fuel image argv) t o) :
    (content t = content [] ∧ o ≠ .done efiSuccess) ∨
      ∃ map, finalFlashMap image = some map ∧
        (∃ k, InProgress image argv map k (content []) (content t)) ∧
        (o = .done efiSuccess → ∀ j a, SelectedIndex argv map j → InRegion map j a → content t a = image a) := by
  have huntouched {u : Trace Services} (hu : ∀ e ∈ u, ∀ c ∈ hostCommand e, flashRange c = none) :
      content u = content [] :=
    funext fun a => hc.append (fun e he => spares_of_none (hu e he) a) []
  rcases cmdReflash_inv h with ⟨rfl, hstatus⟩ | ⟨filename, u, v, o', -, rfl, hu, hv, hend⟩
  · refine .inl ⟨rfl, fun ho => ?_⟩
    exact absurd (hstatus _ ho) (by decide)
  have hclean : ∀ e ∈ v, ∀ c ∈ hostCommand e, flashRange c = none := fun e he c hc =>
    (hv e he c hc).elim
  have hsuccess : o = .done efiSuccess → o' = .done (.ok ()) := fun ho =>
    reflash_through hu ((hend _ ho).imp_right And.left)
  rcases reflash_orderly hu with ⟨hnone, hstop⟩ | ⟨map, pre, calls, post, hmap, horderly, hall⟩
  · refine .inl ⟨huntouched fun e he => (List.mem_append.1 he).elim (hnone e) (hclean e), fun ho => ?_⟩
    exact hstop (hsuccess ho)
  have hshipped := finalFlashMap_shipped hmap
  have hsame : content (u ++ v) = content u := funext fun a => hc.append (fun e he => spares_of_none (hclean e he) a) u
  have hreads' : ReadsBack content u := fun pre c r post hsplit =>
    hreads pre c r (post ++ v) (by rw [hsplit]; simp)
  rw [hsame]
  refine .inr ⟨map, hmap, horderly.inProgress hshipped hc hreads', fun ho j a hj ha => ?_⟩
  obtain ⟨c, hmem, rfl, hstage, hpassed⟩ := hall (hsuccess ho) j hj .read
  exact horderly.done hshipped hc hreads' hmem hstage hpassed ha

/-- A flash whose EC carries out every command at once. -/
def contents (m : Mem) (t : Trace Services) : Mem :=
  t.foldl (fun m e => (hostCommand e).elim m (afterCommand m)) m

theorem afterCommand_out (m : Mem) {c : HostCommand} {a : Nat}
    (h : ∀ offset size, flashRange c = some (offset, size) → a < offset ∨ offset + size ≤ a) :
    afterCommand m c a = m a := by
  unfold afterCommand
  cases hrange : flashRange c with
  | none => rfl
  | some r =>
    obtain ⟨offset, size⟩ := r
    simp only []
    split
    · exact Mem.erase_out m (h offset size hrange)
    · exact Mem.program_out m _ (h offset size hrange)

theorem tracks_contents (m : Mem) : Tracks (contents m) := by
  intro t e a he
  rw [contents, List.foldl_append, List.foldl_cons, List.foldl_nil, ← contents]
  cases hc : hostCommand e with
  | none => rfl
  | some c => exact afterCommand_out _ (he c hc)

theorem contents_of_follows {version : List UInt8} {d d' : Mem × Unit} {t : Trace Services}
    (h : Prog.Follows (norServices version) d t d') : d'.1 = contents d.1 t := by
  induction h with
  | nil d => rfl
  | @cons op x d d₁ d' t hop ht ih =>
    rw [ih, contents, contents, List.foldl_cons]
    cases op <;> cases hop <;> rfl

theorem readsBack_of_follows {version : List UInt8} {m : Mem} {d' : Mem × Unit} {t : Trace Services}
    (h : Prog.Follows (norServices version) (m, ()) t d') : ReadsBack (contents m) t := by
  rintro pre c r post rfl hread -
  obtain ⟨d₁, d₂, hpre, hop⟩ := h.at_event
  have hcontents := contents_of_follows hpre
  obtain ⟨command, v, outdata, insize⟩ := c
  obtain rfl : command = ecCmdFlashRead := hread
  cases hop
  exact ⟨rfl, by rw [← hcontents]⟩

/-- A run on an hx30 that begins to erase RW and fails there, and one that gets through. -/
theorem cmdReflash_flashed_hx30 :
    (let t := sampleRun "hx30_v1" "hx30_v0" (fun _ => true) ["reflash", "ec.bin"]
      ∃ map, finalFlashMap (sampleImage "hx30_v1") = some map ∧
        ∃ k, InProgress (sampleImage "hx30_v1") ["reflash", "ec.bin"] map k (fun _ => 0) (contents (fun _ => 0) t)) ∧
    ∃ t, Run (cmdReflash 0x40001 (sampleImage "hx30_v1") ["reflash", "ec.bin"]) t (.done efiSuccess) ∧
      ∃ map, finalFlashMap (sampleImage "hx30_v1") = some map ∧
        ∀ j a, SelectedIndex ["reflash", "ec.bin"] map j → InRegion map j a →
          contents (fun _ => 0) t a = sampleImage "hx30_v1" a := by
  constructor
  · have hreads : ReadsBack (contents fun _ => 0)
        (sampleRun "hx30_v1" "hx30_v0" (fun _ => true) ["reflash", "ec.bin"]) := by
      have hnone : (sampleRun "hx30_v1" "hx30_v0" (fun _ => true) ["reflash", "ec.bin"]).all
          (fun e => (hostCommand e).all fun c => c.command != ecCmdFlashRead) = true := by decide
      intro pre c r post hsplit hread
      have hc := List.all_eq_true.1 hnone (replied c r) (by rw [hsplit]; simp)
      simp [replied, hostCommand, hread] at hc
    have hmoved : contents (fun _ => 0)
        (sampleRun "hx30_v1" "hx30_v0" (fun _ => true) ["reflash", "ec.bin"]) 0x40000 = 0xFF := by decide
    rcases cmdReflash_flashed (tracks_contents _) hreads (Prog.run_transcript _ _) with ⟨hsame, -⟩ | ⟨map, hmap, hk, -⟩
    · rw [hsame] at hmoved
      exact absurd hmoved (by decide)
    · exact ⟨map, hmap, hk⟩
  · obtain ⟨t, d', hrun, hfollows⟩ := norServices_runs fun _ => 0
    refine ⟨t, hrun, ?_⟩
    rcases cmdReflash_flashed (tracks_contents _) (readsBack_of_follows hfollows) hrun with ⟨-, hfails⟩ | hdone
    · exact absurd rfl hfails
    · obtain ⟨map, hmap, -, hsuccess⟩ := hdone
      exact ⟨map, hmap, hsuccess rfl⟩

end FrameworkHacks.ECTool
