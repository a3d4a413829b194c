import FrameworkHacks.ECTool.FWUpdate
import Mathlib.Data.List.Sort

/-!
# Which regions are flashed, and in which order

`Selected` says which regions an argument vector asks for. The bits of `regionMask` are those regions
(`getLsbD_regionMask`), and the loop over the mask goes through them from the highest index down
(`flashRegions_eq`).
-/

namespace FrameworkHacks.ECTool

open Effects

/-! ### What the arguments ask for -/

def isOption (arg : String) : Bool := arg = "-f" || arg = "--ro" || arg = "--rw" || arg = "--all"

/-- The options before FILE. -/
def options (argv : List String) : List String := (argv.drop 1).takeWhile isOption

/-- Whether the options ask for a region: all of them, or the named ones, or all that are not to be
skipped. -/
def Selected (opts : List String) (r : FlashRegion) : Prop :=
  if "--all" ∈ opts then True
  else if "--ro" ∈ opts ∨ "--rw" ∈ opts then
    r.name = "RO" ∧ "--ro" ∈ opts ∨ r.name = "RW" ∧ "--rw" ∈ opts
  else ¬ r.skip

/-- What the argument loop makes of the options and of what follows them. -/
theorem reflashArgs_eq (a : ReflashArgs) (hname : a.filename = none) (args : List String) :
    reflashArgs a args =
      { force := a.force + (args.takeWhile isOption).count "-f"
        roRequested := a.roRequested || (args.takeWhile isOption).contains "--ro"
        rwRequested := a.rwRequested || (args.takeWhile isOption).contains "--rw"
        allRequested := a.allRequested || (args.takeWhile isOption).contains "--all"
        desireMask := if "--ro" ∈ args.takeWhile isOption ∨ "--rw" ∈ args.takeWhile isOption then 0
          else a.desireMask
        filename := (args.dropWhile isOption).head? } := by
  induction args generalizing a with
  | nil => simp [reflashArgs, ← hname]
  | cons arg rest ih =>
    unfold reflashArgs
    by_cases hf : arg = "-f"
    · subst hf
      rw [if_pos rfl, ih _ (by exact hname)]
      simp [isOption]
      omega
    by_cases hro : arg = "--ro"
    · subst hro
      rw [if_neg hf, if_pos rfl, ih _ (by exact hname)]
      simp [isOption]
    by_cases hrw : arg = "--rw"
    · subst hrw
      rw [if_neg hf, if_neg hro, if_pos rfl, ih _ (by exact hname)]
      simp [isOption]
    by_cases hall : arg = "--all"
    · subst hall
      rw [if_neg hf, if_neg hro, if_neg hrw, if_pos rfl, ih _ (by exact hname)]
      simp [isOption]
    · rw [if_neg hf, if_neg hro, if_neg hrw, if_neg hall]
      simp [isOption, hf, hro, hrw, hall]

/-! ### The mask -/

theorem getLsbD_bit {i j : Nat} (hj : j < 16) : (1#16 <<< i).getLsbD j = decide (i = j) := by
  rw [BitVec.getLsbD_shiftLeft, BitVec.getLsbD_one]
  by_cases hij : i = j
  · subst hij
    simp [hj]
  · rw [decide_eq_false hij]
    by_cases hlt : j < i
    · simp [hlt]
    · simp [show j - i ≠ 0 by omega]

/-- The desire mask after a region with a bit of its own. -/
def desired (a : ReflashArgs) (region : FlashRegion) (d : Bool) : Bool :=
  (d && !region.skip) || (a.roRequested && region.name == "RO") ||
    (a.rwRequested && region.name == "RW")

theorem getLsbD_maskStep (a : ReflashArgs) (region : FlashRegion) (i : Nat) (desire : BitVec 16)
    {j : Nat} (hj : j < 16) :
    (let desire := if region.skip then desire &&& ~~~(1#16 <<< i) else desire
      if a.roRequested && region.name == "RO" then desire ||| 1#16 <<< i
      else if a.rwRequested && region.name == "RW" then desire ||| 1#16 <<< i
      else desire).getLsbD j =
      if i = j then desired a region (desire.getLsbD j) else desire.getLsbD j := by
  have hbit : (1#16 <<< i).getLsbD j = decide (i = j) := getLsbD_bit hj
  generalize 1#16 <<< i = bit at hbit ⊢
  cases hro : (a.roRequested && region.name == "RO") <;>
    cases hrw : (a.rwRequested && region.name == "RW") <;> cases hskip : region.skip <;>
    by_cases hij : i = j <;>
    simp only [desired, hro, hrw, hskip, hij, hj, hbit, if_true, if_false, Bool.false_eq_true,
      BitVec.getLsbD_and, BitVec.getLsbD_or, BitVec.getLsbD_not, decide_true,
      decide_false] <;> simp

theorem getLsbD_maskLoop (a : ReflashArgs) (regions : List FlashRegion) (i : Nat)
    (flash desire : BitVec 16) {j : Nat} (hj : j < 16) :
    (maskLoop a regions i flash desire).1.getLsbD j =
        (flash.getLsbD j || decide (i ≤ j ∧ j < i + regions.length)) ∧
      (maskLoop a regions i flash desire).2.getLsbD j =
        if i ≤ j then
          match regions[j - i]? with
          | some region => desired a region (desire.getLsbD j)
          | none => desire.getLsbD j
        else desire.getLsbD j := by
  induction regions generalizing i flash desire with
  | nil => simp [maskLoop]
  | cons region rest ih =>
    have hstep := getLsbD_maskStep a region i desire hj
    rw [maskLoop]
    simp only at hstep ⊢
    obtain ⟨hflash, hdesire⟩ := ih (i + 1) (flash ||| 1#16 <<< i) _
    constructor
    · rw [hflash, BitVec.getLsbD_or, getLsbD_bit hj, List.length_cons, Bool.or_assoc]
      congr 1
      rw [← Bool.decide_or]
      congr 1
      apply propext
      omega
    · rw [hdesire, hstep]
      by_cases hij : i = j
      · subst hij
        rw [if_neg (by omega), if_pos rfl]
        simp
      · by_cases hle : i ≤ j
        · have hidx : j - i = (j - (i + 1)) + 1 := by omega
          rw [if_pos (by omega), if_pos hle, if_neg hij, hidx, List.getElem?_cons_succ]
        · rw [if_neg (by omega), if_neg hle, if_neg hij]

theorem getLsbD_ones {j : Nat} (hj : j < 16) : (0xFFFF : BitVec 16).getLsbD j = true := by
  rw [show (0xFFFF : BitVec 16) = BitVec.allOnes 16 from rfl, BitVec.getLsbD_allOnes,
    decide_eq_true hj]

theorem getLsbD_desireMask (argv : List String) {j : Nat} (hj : j < 16) :
    (reflashArgs {} (argv.drop 1)).desireMask.getLsbD j =
      decide (¬("--ro" ∈ options argv ∨ "--rw" ∈ options argv)) := by
  rw [show (reflashArgs {} (argv.drop 1)).desireMask =
      if "--ro" ∈ options argv ∨ "--rw" ∈ options argv then 0 else 0xFFFF by
    simp [reflashArgs_eq, options]]
  split
  · rw [decide_eq_false (not_not_intro ‹_›)]
    exact BitVec.getLsbD_zero
  · rw [decide_eq_true ‹_›, getLsbD_ones hj]

/-- **The bits of `RegionFlashMask` are the regions that were asked for.** -/
theorem getLsbD_regionMask {map : FlashMap} (hmap : map.regions.length ≤ 16) (argv : List String)
    (j : Nat) : (regionMask (reflashArgs {} (argv.drop 1)) map).getLsbD j = true ↔
      ∃ r, map.regions[j]? = some r ∧ Selected (options argv) r := by
  set a := reflashArgs {} (argv.drop 1) with ha
  have hro : a.roRequested = decide ("--ro" ∈ options argv) := by simp [ha, reflashArgs_eq, options]
  have hrw : a.rwRequested = decide ("--rw" ∈ options argv) := by simp [ha, reflashArgs_eq, options]
  have hall : a.allRequested = decide ("--all" ∈ options argv) := by
    simp [ha, reflashArgs_eq, options]
  by_cases hj : j < map.regions.length
  · obtain ⟨hflash, hdesire⟩ := getLsbD_maskLoop a map.regions 0 0 a.desireMask (j := j) (by omega)
    have hmask := getLsbD_desireMask argv (show j < 16 by omega)
    rw [if_pos (Nat.zero_le j), Nat.sub_zero, List.getElem?_eq_getElem hj] at hdesire
    rw [← ha] at hmask
    simp only [hmask, desired, hro, hrw] at hdesire
    rw [regionMask, BitVec.getLsbD_and, hflash, List.getElem?_eq_getElem hj]
    by_cases hall' : "--all" ∈ options argv
    · simp only [Selected, hall, hall', decide_true, if_true, getLsbD_ones (show j < 16 by omega)]
      simp [hj]
    · simp only [Selected, hall, hall', decide_false, if_false, Bool.false_eq_true, hdesire]
      by_cases hro' : "--ro" ∈ options argv <;> by_cases hrw' : "--rw" ∈ options argv <;>
        simp [hro', hrw', hj]
  · constructor
    · intro h
      exfalso
      by_cases hj' : j < 16
      · obtain ⟨hflash, -⟩ := getLsbD_maskLoop a map.regions 0 0 a.desireMask hj'
        rw [regionMask, BitVec.getLsbD_and, hflash] at h
        simp [hj] at h
      · rw [BitVec.getLsbD_of_ge _ _ (by omega)] at h
        cases h
    · rintro ⟨r, hr, -⟩
      rw [List.getElem?_eq_none (by omega)] at hr
      cases hr

/-! ### Highest bit first -/

/-- The set bits of a mask, highest first. -/
def setBits (mask : BitVec 16) : List Nat := (List.range 16).reverse.filter fun i => mask.getLsbD i

theorem mem_setBits {mask : BitVec 16} {i : Nat} : i ∈ setBits mask ↔ mask.getLsbD i = true := by
  rw [setBits, List.mem_filter, List.mem_reverse, List.mem_range, and_iff_right_iff_imp]
  exact BitVec.lt_of_getLsbD

theorem setBits_descending (mask : BitVec 16) : (setBits mask).Pairwise (· > ·) := by
  refine List.Pairwise.filter _ ?_
  rw [List.pairwise_reverse]
  exact List.pairwise_lt_range

theorem highestBit_mem {mask : BitVec 16} (h : mask ≠ 0) : mask.getLsbD (highestBit mask) = true := by
  have h0 : mask.toNat ≠ 0 := fun h0 => h (BitVec.eq_of_toNat_eq h0)
  exact Nat.testBit_log2 h0

theorem le_highestBit {mask : BitVec 16} {i : Nat} (h : mask.getLsbD i = true) :
    i ≤ highestBit mask := by
  by_contra hlt
  have h0 : mask.toNat ≠ 0 := by
    intro h0
    rw [BitVec.getLsbD, h0, Nat.zero_testBit] at h
    cases h
  have hsmall : mask.toNat < 2 ^ i := (Nat.log2_lt h0).1 (Nat.lt_of_not_le hlt)
  rw [BitVec.getLsbD, Nat.testBit_lt_two_pow hsmall] at h
  cases h

theorem setBits_eq_cons {mask : BitVec 16} (h : mask ≠ 0) :
    setBits mask = highestBit mask :: setBits (mask &&& ~~~(1#16 <<< highestBit mask)) := by
  have hrest (i : Nat) : i ∈ setBits (mask &&& ~~~(1#16 <<< highestBit mask)) ↔
      i ∈ setBits mask ∧ i ≠ highestBit mask := by
    rw [mem_setBits, mem_setBits, BitVec.getLsbD_and, BitVec.getLsbD_not]
    by_cases hi : i < 16
    · rw [getLsbD_bit hi]
      simp only [hi, decide_true, Bool.true_and, Bool.and_eq_true, Bool.not_eq_true',
        decide_eq_false_iff_not, ne_comm (a := i), ne_eq]
    · simp [BitVec.getLsbD_of_ge _ _ (Nat.le_of_not_lt hi)]
  refine List.Pairwise.eq_of_mem_iff (setBits_descending mask) ?_ fun i => ?_
  · refine List.pairwise_cons.2 ⟨fun i hi => ?_, setBits_descending _⟩
    obtain ⟨hmem, hne⟩ := (hrest i).1 hi
    have := le_highestBit (mem_setBits.1 hmem)
    omega
  · rw [List.mem_cons, hrest]
    constructor
    · intro hi
      by_cases heq : i = highestBit mask
      · exact .inl heq
      · exact .inr ⟨hi, heq⟩
    · rintro (rfl | ⟨hi, -⟩)
      · exact mem_setBits.2 (highestBit_mem h)
      · exact hi

@[simp] theorem setBits_zero : setBits 0 = [] := by decide

theorem setBits_length_le (mask : BitVec 16) : (setBits mask).length ≤ 16 :=
  List.length_filter_le _ _

/-! ### The loop over the regions -/

/-- The regions with the given indices, one after the other. -/
def flashAll (fuel : Nat) (image : Mem) (map : FlashMap) : List Nat → Buf → Step Unit
  | [], _ => return ()
  | k :: rest, verify =>
    match map.regions[k]? with
    | none => liftM (Prog.fault : Prog Services Unit)
    | some region => do
      let verify ← flashRegion fuel image region verify
      flashAll fuel image map rest verify

theorem loop_regionRound (fuel : Nat) (image : Mem) (map : FlashMap) (n : Nat) (mask : BitVec 16)
    (verify : Buf) (hn : (setBits mask).length < n) :
    Prog.loop (regionRound fuel image map) n (mask, verify) =
      (flashAll fuel image map (setBits mask) verify).run := by
  induction n generalizing mask verify with
  | zero => omega
  | succ n ih =>
    rw [Prog.loop_succ, regionRound]
    by_cases h : mask = 0
    · subst h
      simp only [if_true, pure_bind, setBits_zero]
      rfl
    · rw [setBits_eq_cons h, List.length_cons] at hn
      rw [if_neg h, setBits_eq_cons h, flashAll]
      simp only []
      cases map.regions[highestBit mask]? with
      | none => rfl
      | some region =>
        simp only [Attempt.run_bind, bind_assoc]
        apply bind_congr
        intro r
        cases r with
        | error e => rfl
        | ok verify =>
          simp only [pure_bind]
          exact ih _ verify (by omega)

/-- **`while(RegionFlashMask)` goes through the set bits of the mask, highest first.** -/
theorem flashRegions_eq (fuel : Nat) (image : Mem) (map : FlashMap) (mask : BitVec 16) (verify : Buf) :
    flashRegions fuel image map mask verify = flashAll fuel image map (setBits mask) verify :=
  loop_regionRound fuel image map 17 mask verify (by have := setBits_length_le mask; omega)

end FrameworkHacks.ECTool
