import FrameworkHacks.ECTool.FWUpdate

/-!
# The readiness check

What `CheckReadyForECFlash` decides, as a function of the EC's memory map: `Ready` is the condition in
exact arithmetic, `DividesByZero` the memory maps on which the code divides by a last-full-charge
capacity of zero. On every other one the check answers, and exactly by `Ready` (`checkReady_exact`).
-/

namespace FrameworkHacks.ECTool

open Effects

/-! ### The memory map -/

/-- A read of the memory map shows `m`. -/
def ReadsFrom (m : Mem) (e : Event Services) : Prop :=
  ∀ offset length x, e = ⟨.readMemory offset length, x⟩ → ∀ i < length, x i = m (offset + i)

def batteryFlag (m : Mem) : UInt8 := m ecMemmapBattFlag

def batteryCap (m : Mem) : Nat := m.le32 ecMemmapBattCap

def batteryLfcc (m : Mem) : Nat := m.le32 ecMemmapBattLfcc

/-- The machine has an EC. -/
def HasEc (m : Mem) : Prop :=
  m ecMemmapId = 'E'.toNat.toUInt8 ∧ m (ecMemmapId + 1) = 'C'.toNat.toUInt8

def AcPresent (m : Mem) : Prop := batteryFlag m &&& ecBattFlagAcPresent ≠ 0

def BattPresent (m : Mem) : Prop := batteryFlag m &&& ecBattFlagBattPresent ≠ 0

instance (m : Mem) : Decidable (HasEc m) := inferInstanceAs (Decidable (_ ∧ _))

instance (m : Mem) : Decidable (AcPresent m) := inferInstanceAs (Decidable (_ ≠ _))

instance (m : Mem) : Decidable (BattPresent m) := inferInstanceAs (Decidable (_ ≠ _))

/-- AC is connected, and a battery that is present holds at least 20% of its last full charge. -/
structure Ready (m : Mem) : Prop where
  ec : HasEc m
  ac : AcPresent m
  charged : ¬BattPresent m ∨ 0 < batteryLfcc m ∧ 20 * batteryLfcc m ≤ 100 * batteryCap m

/-- The code divides by the last full charge, and it is zero. -/
structure DividesByZero (m : Mem) : Prop where
  ec : HasEc m
  ac : AcPresent m
  batt : BattPresent m
  lfcc : batteryLfcc m = 0

/-! ### The arithmetic -/

theorem charge_noWrap (m : Mem) :
    (100 * UInt64.ofNat (batteryCap m)).toNat = 100 * batteryCap m := by
  have hcap := m.le32_lt ecMemmapBattCap
  have hword : batteryCap m < 2 ^ 64 := by unfold batteryCap; omega
  rw [UInt64.toNat_mul, UInt64.toNat_ofNat_of_lt' hword]
  exact Nat.mod_eq_of_lt (by unfold batteryCap; simp; omega)

/-- The truncated quotient and the exact percentage make the same test. -/
theorem quotient_lt_iff {cap lfcc : Nat} (h : 0 < lfcc) :
    100 * cap / lfcc < 20 ↔ ¬20 * lfcc ≤ 100 * cap := by
  rw [Nat.div_lt_iff_lt_mul h, Nat.not_le]

/-! ### The check -/

theorem readsFrom_le32 {m x : Mem} {offset : Nat}
    (h : ReadsFrom m ⟨.readMemory offset 4, x⟩) : x.le32 0 = m.le32 offset :=
  Mem.le32_congr fun k hk => by simpa using h _ _ _ rfl k hk

theorem holds_chargedBelow {P : Event Services → Prop} {G : Event Services → Prop}
    (cap lfcc : Nat) :
    Prog.Holds (fun _ => lfcc = 0) G P
      (fun low => 0 < lfcc ∧ (low = true ↔ ¬20 * lfcc ≤ 100 * cap)) (chargedBelow cap lfcc) := by
  unfold chargedBelow
  split
  · assumption
  · have hpos : 0 < lfcc := by omega
    exact ⟨hpos, by rw [decide_eq_true_eq, quotient_lt_iff hpos]⟩

/-- The check stops only at the division by zero, and its result is the exact condition. -/
theorem holds_checkReady (m : Mem) :
    Prog.Holds (fun _ => DividesByZero m) (ReadsFrom m) (fun _ => True)
      (fun status => status = efiSuccess ↔ Ready m) checkReadyForECFlash := by
  unfold checkReadyForECFlash
  refine Prog.Holds.perform_bind fun ecid => ⟨trivial, fun hid => ?_⟩
  have hE : ecid 0 = m ecMemmapId := hid _ _ _ rfl 0 (by decide)
  have hC : ecid 1 = m (ecMemmapId + 1) := hid _ _ _ rfl 1 (by decide)
  split
  · rename_i hne
    have hnot : ¬HasEc m := fun h => by
      rw [hE, hC] at hne
      rcases hne with hne | hne
      · exact hne h.1
      · exact hne h.2
    exact ⟨fun h => absurd h (by decide), fun h => (hnot h.ec).elim⟩
  rename_i hid'
  have hec : HasEc m := by
    rw [hE, hC] at hid'
    exact ⟨not_not.1 fun h => hid' (.inl h), not_not.1 fun h => hid' (.inr h)⟩
  refine Prog.Holds.perform_bind fun flag => ⟨trivial, fun hflag => ?_⟩
  have hflag : flag 0 = batteryFlag m := hflag _ _ _ rfl 0 (by decide)
  refine Prog.Holds.perform_bind fun lfcc => ⟨trivial, fun hlfcc => ?_⟩
  have hlfcc : lfcc.le32 0 = batteryLfcc m := readsFrom_le32 hlfcc
  refine Prog.Holds.perform_bind fun cap => ⟨trivial, fun hcap => ?_⟩
  have hcap : cap.le32 0 = batteryCap m := readsFrom_le32 hcap
  simp only [hflag, hlfcc, hcap]
  split
  · rename_i hac
    exact ⟨fun h => absurd h (by decide), fun h => (h.ac hac).elim⟩
  rename_i hac
  split
  · rename_i hbatt
    refine Prog.Holds.bind ((holds_chargedBelow (batteryCap m) (batteryLfcc m)).weaken
      fun _ hzero => ⟨hec, hac, hbatt, hzero⟩) ?_
    intro low hlow
    obtain ⟨hpos, hlow⟩ := hlow
    cases low with
    | true =>
      have hless : ¬20 * batteryLfcc m ≤ 100 * batteryCap m := hlow.1 rfl
      refine ⟨fun h => absurd h (by decide), fun h => ?_⟩
      rcases h.charged with hnone | hready
      · exact (hnone hbatt).elim
      · exact (hless hready.2).elim
    | false =>
      have hmore : 20 * batteryLfcc m ≤ 100 * batteryCap m :=
        not_not.1 fun h => absurd (hlow.2 h) (by decide)
      exact ⟨fun _ => ⟨hec, hac, .inr ⟨hpos, hmore⟩⟩, fun _ => rfl⟩
  · rename_i hnone
    exact ⟨fun _ => ⟨hec, hac, .inl hnone⟩, fun _ => rfl⟩

theorem checkReady_divides {m : Mem} (h : DividesByZero m) :
    ∃ t, (∀ e ∈ t, ReadsFrom m e) ∧ Run checkReadyForECFlash t (.halted .fault) := by
  have hreads (offset length : Nat) :
      ReadsFrom m ⟨.readMemory offset length, m.drop offset⟩ := by
    intro _ _ _ he
    cases he
    exact fun _ _ => rfl
  refine ⟨[⟨.readMemory ecMemmapId 2, m.drop ecMemmapId⟩,
    ⟨.readMemory ecMemmapBattFlag 1, m.drop ecMemmapBattFlag⟩,
    ⟨.readMemory ecMemmapBattLfcc 4, m.drop ecMemmapBattLfcc⟩,
    ⟨.readMemory ecMemmapBattCap 4, m.drop ecMemmapBattCap⟩], ?_, ?_⟩
  · simpa using ⟨hreads _ _, hreads _ _, hreads _ _, hreads _ _⟩
  have hid : ¬(m.drop ecMemmapId 0 ≠ 'E'.toNat.toUInt8 ∨ m.drop ecMemmapId 1 ≠ 'C'.toNat.toUInt8) :=
    fun hne => hne.elim (fun hne => hne h.ec.1) (fun hne => hne h.ec.2)
  have hac : ¬m.drop ecMemmapBattFlag 0 &&& ecBattFlagAcPresent = 0 := h.ac
  have hbatt : m.drop ecMemmapBattFlag 0 &&& ecBattFlagBattPresent ≠ 0 := h.batt
  have hlfcc : (m.drop ecMemmapBattLfcc).le32 0 = 0 :=
    (Mem.le32_congr fun _ _ => by simp).trans h.lfcc
  unfold checkReadyForECFlash
  refine Run.perform_bind ?_
  rw [if_neg hid]
  refine Run.perform_bind (Run.perform_bind (Run.perform_bind ?_))
  simp only [if_neg hac, if_pos hbatt, chargedBelow, if_pos hlfcc, Prog.fault_bind]
  exact .halt _

/-! ### Exactness -/

/-- The check answers on `m`, exactly by `Ready`, and computes without overflow. -/
structure ReadyExactly (m : Mem) : Prop where
  defined : ∀ t r, (∀ e ∈ t, ReadsFrom m e) → ¬Run checkReadyForECFlash t (.halted r)
  exact : ∀ t status, (∀ e ∈ t, ReadsFrom m e) → Run checkReadyForECFlash t (.done status) →
    (status = efiSuccess ↔ Ready m)
  noWrap : (100 * UInt64.ofNat (batteryCap m)).toNat = 100 * batteryCap m

/-- The readiness check is exact on every memory map but those with a battery whose last full charge
is zero. -/
theorem checkReady_exact (m : Mem) : ReadyExactly m ↔ ¬DividesByZero m := by
  constructor
  · intro h hzero
    obtain ⟨t, hreads, hrun⟩ := checkReady_divides hzero
    exact h.defined t .fault hreads hrun
  · intro hzero
    refine ⟨fun t r hreads hrun => ?_, fun t status hreads hrun => ?_, charge_noWrap m⟩
    · exact hzero (((holds_checkReady m).run hrun hreads).2.2 r rfl)
    · exact ((holds_checkReady m).run hrun hreads).2.1 status rfl

/-- A battery pack that reports no capacity, with AC connected. -/
def emptyPack : Mem :=
  Mem.ofList (List.replicate ecMemmapId 0 ++ ascii "EC" ++ List.replicate 0x2a 0 ++ [0x03])

theorem emptyPack_divides : DividesByZero emptyPack := by
  constructor
  all_goals decide

theorem checkReady_emptyPack : ¬∀ m, ReadyExactly m := by
  intro h
  obtain ⟨t, hreads, hrun⟩ := checkReady_divides emptyPack_divides
  exact (h emptyPack).defined t .fault hreads hrun

end FrameworkHacks.ECTool
