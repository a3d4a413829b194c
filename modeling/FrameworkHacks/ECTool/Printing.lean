import FrameworkHacks.ECTool.Console

/-!
# What a console packet prints

One lemma for each part of `PrintLogBuffer`, saying what it reads and prints, one for a round of its loop
(`ends_printRound`), and from it both directions: a packet whose lines all have an end, or that is a
single line, is printed as it should be (`ends_print`), any other is read beyond its end
(`ends_overrun`).
-/

namespace FrameworkHacks.ECTool

open Effects

section

variable {m : Mem} {s : Screen}

/-! ### The parts -/

theorem ends_touch {i : Nat} (n : Nat) (hi : i ≤ s.extent) :
    Prog.Ends (console m) (touch i n) s fun _ s' => s' = ⟨max s.extent (i + n), s.text⟩ := by
  induction n generalizing i s with
  | zero =>
    refine .pure ?_
    rw [Nat.add_zero, Nat.max_eq_left hi]
  | succ n ih =>
    refine Prog.Ends.perform_bind rfl ((ih (by simp only []; omega)).mono fun _ s' hs' => ?_)
    rw [hs']
    simp only [Screen.mk.injEq, and_true]
    omega

/-- The first `value` in `n` bytes from `i` on is at `j`. -/
structure FirstAt (m : Mem) (value : UInt8) (i n j : Nat) : Prop where
  low : i ≤ j
  high : j < i + n
  here : m j = value
  first : ∀ k, i ≤ k → k < j → m k ≠ value

/-- What a scan of `n` bytes from `i` on finds, and how far it reads. -/
def Scanned (m : Mem) (whole : Bool) (value : UInt8) (i n : Nat) (s s' : Screen) : Option Nat → Prop
  | some j => FirstAt m value i n j ∧ s' = ⟨max s.extent (if whole then i + n else j + 1), s.text⟩
  | none => (∀ k, i ≤ k → k < i + n → m k ≠ value) ∧ s' = ⟨max s.extent (i + n), s.text⟩

theorem ends_scanMem8 {whole : Bool} {value : UInt8} {i : Nat} (n : Nat) (hi : i ≤ s.extent) :
    Prog.Ends (console m) (scanMem8 whole value i n) s fun r s' => Scanned m whole value i n s s' r := by
  induction n generalizing i s with
  | zero =>
    refine .pure ⟨fun k hlow hhigh => by omega, ?_⟩
    rw [Nat.add_zero, Nat.max_eq_left hi]
  | succ n ih =>
    refine Prog.Ends.perform_bind rfl ?_
    by_cases hmatch : m i = value
    · rw [if_pos hmatch]
      refine (ends_touch (bif whole then n else 0) (by simp only []; omega)).bind fun _ s' hs' => ?_
      refine .pure ⟨⟨Nat.le_refl i, by omega, hmatch, fun k hlow hhigh => by omega⟩, ?_⟩
      rw [hs']
      cases whole with
      | true =>
        simp only [cond_true, if_true, Screen.mk.injEq, and_true]
        omega
      | false =>
        simp only [cond_false, Bool.false_eq_true, if_false, Screen.mk.injEq, and_true]
        omega
    · rw [if_neg hmatch]
      refine (ih (by simp only []; omega)).mono fun r s' hr => ?_
      cases r with
      | none =>
        obtain ⟨hnone, hs'⟩ := hr
        refine ⟨fun k hlow hhigh => ?_, ?_⟩
        · by_cases hk : k = i
          · rwa [hk]
          · exact hnone k (by omega) (by omega)
        · rw [hs']
          simp only [Screen.mk.injEq, and_true]
          omega
      | some j =>
        obtain ⟨⟨hlow, hhigh, hhere, hfirst⟩, hs'⟩ := hr
        refine ⟨⟨by omega, by omega, hhere, fun k hk hj => ?_⟩, ?_⟩
        · by_cases hki : k = i
          · rwa [hki]
          · exact hfirst k (by omega) hj
        · rw [hs']
          cases whole with
          | true =>
            simp only [if_true, Screen.mk.injEq, and_true]
            omega
          | false =>
            simp only [Bool.false_eq_true, if_false, Screen.mk.injEq, and_true]
            omega

/-- Nothing was printed, and nothing read beyond `hi`. -/
structure ReadsTo (hi : Nat) (s s' : Screen) : Prop where
  low : s.extent ≤ s'.extent
  high : s'.extent ≤ max s.extent hi
  text : s'.text = s.text

theorem ReadsTo.refl (hi : Nat) (s : Screen) : ReadsTo hi s s :=
  ⟨Nat.le_refl _, Nat.le_max_left _ _, rfl⟩

theorem ReadsTo.trans {hi hi' : Nat} {s' s'' : Screen} (h : ReadsTo hi s s') (h' : ReadsTo hi' s' s'') :
    ReadsTo (max hi hi') s s'' := by
  have hhigh := h.high
  have hhigh' := h'.high
  exact ⟨Nat.le_trans h.low h'.low, by omega, h'.text.trans h.text⟩

theorem ReadsTo.extent_eq {hi : Nat} {s' : Screen} (h : ReadsTo hi s s') (hread : hi ≤ s.extent) :
    s'.extent = s.extent :=
  Nat.le_antisymm (Nat.max_eq_left hread ▸ h.high) h.low

theorem ends_asciiString {i : Nat} (n : Nat) :
    Prog.Ends (console m) (asciiString i n) s fun l s' => ReadsTo (i + n) s s' ∧
      ((∀ k, i ≤ k → k < i + n → m k ≠ 0) → l = (m.drop i).toList n) := by
  induction n generalizing i s with
  | zero => exact .pure ⟨.refl _ s, fun _ => rfl⟩
  | succ n ih =>
    refine Prog.Ends.perform_bind rfl ?_
    by_cases hnul : m i = 0
    · rw [if_pos hnul]
      refine .pure ⟨⟨by simp only []; omega, by simp only []; omega, rfl⟩, fun hall => ?_⟩
      exact absurd hnul (hall i (Nat.le_refl i) (by omega))
    · rw [if_neg hnul]
      refine (ih (i := i + 1)).bind fun l s' hl => .pure ?_
      obtain ⟨hreads, hl⟩ := hl
      have hlow := hreads.low
      have hhigh := hreads.high
      simp only [] at hlow hhigh
      refine ⟨⟨by omega, by omega, hreads.text⟩, fun hall => ?_⟩
      rw [hl fun k hk hlt => hall k (by omega) (by omega), Mem.toList_succ, Mem.drop_drop]
      rfl

theorem ends_afterReturn (lf : Option Nat) :
    Prog.Ends (console m) (afterReturn lf) s fun after s' => ReadsTo (lf.getD 0) s s' ∧
      (after = true ↔ ∃ j, lf = some (j + 1) ∧ m j = carriageReturn) := by
  rcases lf with _ | _ | j
  · exact .pure ⟨.refl _ s, by simp⟩
  · exact .pure ⟨.refl _ s, by simp⟩
  · refine Prog.Ends.perform_bind rfl (.pure ⟨⟨by simp only []; omega, by simp, rfl⟩, ?_⟩)
    simp

/-! ### A line -/

theorem toList_succ_last (m : Mem) (n : Nat) : m.toList (n + 1) = m.toList n ++ [m n] := by
  rw [Mem.toList_add]
  rfl

theorem chomp_toList (m : Mem) (n : Nat) :
    chomp (m.toList n) = m.toList (if 0 < n ∧ m (n - 1) = carriageReturn then n - 1 else n) := by
  cases n with
  | zero => rfl
  | succ n =>
    rw [toList_succ_last, chomp, List.getLast?_concat, List.dropLast_concat, Nat.add_sub_cancel]
    by_cases hreturn : m n = carriageReturn
    · rw [if_pos (by rw [hreturn]), if_pos ⟨Nat.succ_pos n, hreturn⟩]
    · rw [if_neg fun h => hreturn (Option.some.inj h), if_neg fun h => hreturn h.2, toList_succ_last]

/-- `bp` is where a line begins. -/
def LineStart (m : Mem) (bp : Nat) : Prop := bp = 0 ∨ m (bp - 1) = newline

/-- The text of the packet has no NUL. -/
def NulFree (m : Mem) (length : Nat) : Prop := ∀ k < length, m k ≠ 0

instance (m : Mem) (length : Nat) : Decidable (NulFree m length) :=
  inferInstanceAs (Decidable (∀ k < length, m k ≠ 0))

/-- What a round does at the beginning of a line. -/
inductive Line (m : Mem) (whole : Bool) (length bp : Nat) (s s' : Screen) : Unit ⊕ Nat → Prop
  | ended {lf : Nat} : FirstAt m newline bp length lf →
      s'.extent = max s.extent (if whole then bp + length else lf + 1) →
      (lf < length → s'.text = s.text ++ (chomp ((m.drop bp).toList (lf - bp)) ++ lineEnd)) →
      Line m whole length bp s s' (.inr (lf + 1))
  | last : (∀ k, bp ≤ k → k < bp + length → m k ≠ newline) →
      s'.extent = max s.extent (bp + length) →
      s'.text = s.text ++ (m.drop bp).toList (length - bp) →
      Line m whole length bp s s' (.inr length)

theorem Line.next {whole : Bool} {length bp next : Nat} {s' : Screen} (hbp : bp < length)
    (h : Line m whole length bp s s' (.inr next)) : bp < next := by
  cases h with
  | ended hfirst hread htext => have := hfirst.low; omega
  | last hnone hread htext => exact hbp

theorem return_before_iff {length bp lf : Nat} (hfirst : FirstAt m newline bp length lf)
    (hstart : LineStart m bp) :
    (∃ j, some lf = some (j + 1) ∧ m j = carriageReturn) ↔
      0 < lf - bp ∧ m (bp + (lf - bp - 1)) = carriageReturn := by
  have hlow := hfirst.low
  constructor
  · rintro ⟨j, hj, hcr⟩
    cases hj
    by_cases heq : j + 1 = bp
    · rcases hstart with hzero | hline
      · omega
      · rw [← heq, Nat.add_sub_cancel, hcr] at hline
        exact absurd hline.symm newline_ne_return
    · refine ⟨by omega, ?_⟩
      rwa [show bp + (j + 1 - bp - 1) = j by omega]
  · rintro ⟨hpos, hcr⟩
    refine ⟨lf - 1, by rw [Nat.sub_add_cancel (by omega)], ?_⟩
    rwa [show lf - 1 = bp + (lf - bp - 1) by omega]

/-- The length handed to `Print` for a line with its newline at `lf`. -/
theorem lineLength_eq {after : Bool} {length bp lf : Nat} (hlength : length < 0x10000000000000000)
    (hfirst : FirstAt m newline bp length lf) (hstart : LineStart m bp)
    (hafter : after = true ↔ ∃ j, some lf = some (j + 1) ∧ m j = carriageReturn) :
    (if after = true then toUintn (((lf - bp : Nat) : Int) - 1) else lf - bp) =
      if 0 < lf - bp ∧ m (bp + (lf - bp - 1)) = carriageReturn then lf - bp - 1 else lf - bp := by
  rw [return_before_iff hfirst hstart] at hafter
  by_cases hcr : after = true
  · have hstrip := hafter.1 hcr
    have hpos := hstrip.1
    have hhigh := hfirst.high
    rw [if_pos hcr, if_pos hstrip]
    unfold toUintn
    omega
  · rw [if_neg hcr, if_neg fun h => hcr (hafter.2 h)]

theorem ends_printRound {whole : Bool} {length bp : Nat} (hnul : NulFree m length) (hbp : bp < length)
    (hlength : length < 0x10000000000000000) (hstart : LineStart m bp) :
    Prog.Ends (console m) (printRound whole length bp) s fun r s' => Line m whole length bp s s' r := by
  unfold printRound
  rw [if_pos hbp]
  refine Prog.Ends.perform_bind rfl ?_
  rw [if_pos (hnul bp hbp)]
  refine (ends_scanMem8 length (by simp only []; omega)).bind fun lf s₁ hscan => ?_
  refine (ends_afterReturn lf).bind fun after s₂ hafter => ?_
  obtain ⟨hreads, hafter⟩ := hafter
  cases lf with
  | none =>
    obtain ⟨hnone, hs₁⟩ := hscan
    have hno : after = false := by
      cases after with
      | false => rfl
      | true => obtain ⟨j, hj, -⟩ := hafter.1 rfl; cases hj
    subst hno
    refine (ends_asciiString (length - bp)).bind fun l s₃ hl => ?_
    obtain ⟨hstring, hl⟩ := hl
    have hread := hreads.trans hstring
    refine Prog.Ends.perform_bind rfl (.pure (.last hnone ?_ ?_))
    · rw [hread.extent_eq] <;> rw [hs₁] <;> simp only [Option.getD_none] <;> omega
    · rw [hl fun k hk hlt => hnul k (by omega)]
      simp only [hread.text, hs₁, Option.isSome_none, Bool.false_eq_true, if_false, List.append_nil]
  | some lf =>
    obtain ⟨hfirst, hs₁⟩ := hscan
    have hlow := hfirst.low
    have hhigh := hfirst.high
    simp only []
    rw [lineLength_eq hlength hfirst hstart hafter]
    refine (ends_asciiString _).bind fun l s₃ hl => ?_
    obtain ⟨hstring, hl⟩ := hl
    have hread := hreads.trans hstring
    have hwithin : lf + 1 ≤ s₁.extent := by
      rw [hs₁]
      split <;> simp only [] <;> omega
    refine Prog.Ends.perform_bind rfl (.pure (.ended hfirst ?_ ?_))
    · rw [hread.extent_eq, hs₁]
      · simp only []
        split <;> omega
      · simp only [Option.getD_some]
        split <;> omega
    · intro hinside
      rw [chomp_toList, hl fun k hk hlt => hnul k (by split at hlt <;> omega)]
      simp only [hread.text, hs₁, Option.isSome_some, if_true, Mem.drop_apply]
      rfl

/-! ### The text left to print -/

theorem mem_toList {m : Mem} {n : Nat} {c : UInt8} : c ∈ m.toList n ↔ ∃ k < n, m k = c := by
  simp [Mem.toList]

theorem rest_eq {length bp lf : Nat} (hfirst : FirstAt m newline bp length lf) (hlf : lf < length) :
    (m.drop bp).toList (length - bp) =
      (m.drop bp).toList (lf - bp) ++ newline :: (m.drop (lf + 1)).toList (length - (lf + 1)) := by
  have hlow := hfirst.low
  rw [show length - bp = lf - bp + (length - (lf + 1) + 1) by omega, Mem.toList_add, Mem.toList_succ,
    Mem.drop_drop, Mem.drop_drop, Mem.drop_apply, Nat.add_zero, Nat.add_sub_cancel' hlow, hfirst.here]

theorem newline_not_mem {length bp lf : Nat} (hfirst : FirstAt m newline bp length lf) :
    newline ∉ (m.drop bp).toList (lf - bp) := by
  rw [mem_toList]
  rintro ⟨k, hk, hnewline⟩
  exact hfirst.first (bp + k) (by omega) (by omega) hnewline

/-! ### The loop -/

/-- No line but the first has to be searched beyond the packet for its end. -/
def Stays (m : Mem) (whole : Bool) (length : Nat) : Prop :=
  ∀ k, k + 1 < length → m k = newline → whole = false ∧ m (length - 1) = newline

theorem Stays.later {whole : Bool} {length bp : Nat} (h : Stays m whole length) (hstart : LineStart m bp)
    (hzero : bp ≠ 0) (hbp : bp < length) : whole = false ∧ m (length - 1) = newline :=
  h (bp - 1) (by omega) (hstart.resolve_left hzero)

/-- Before a round from `bp` on, in a packet that is printed as it should be. -/
structure Printed (m : Mem) (length bp : Nat) (s : Screen) : Prop where
  le : bp ≤ length
  start : bp < length → LineStart m bp
  extent : s.extent ≤ length
  text : s.text ++ normalize ((m.drop bp).toList (length - bp)) = normalize (m.toList length)

theorem Line.printed {whole : Bool} {length bp next : Nat} {s' : Screen} (hstays : Stays m whole length)
    (hbp : bp < length) (h : Printed m length bp s) (hline : Line m whole length bp s s' (.inr next)) :
    Printed m length next s' := by
  have hextent := h.extent
  cases hline with
  | @ended lf hfirst hread htext =>
    have hlow := hfirst.low
    -- the line ends inside the packet, and no search from it on leaves the packet
    have hinside : lf < length ∧ (whole = true → bp = 0) := by
      by_cases hzero : bp = 0
      · exact ⟨by have := hfirst.high; omega, fun _ => hzero⟩
      · obtain ⟨hwhole, hend⟩ := hstays.later (h.start hbp) hzero hbp
        refine ⟨?_, fun htrue => by rw [hwhole] at htrue; cases htrue⟩
        by_contra hbeyond
        exact hfirst.first (length - 1) (by omega) (by omega) hend
    refine ⟨hinside.1, fun _ => .inr ?_, ?_, ?_⟩
    · rw [Nat.add_sub_cancel, hfirst.here]
    · rw [hread]
      split
      · have := hinside.2 ‹_›
        omega
      · omega
    · rw [htext hinside.1, ← h.text, rest_eq hfirst hinside.1, normalize_line (newline_not_mem hfirst)]
      simp only [List.append_assoc]
  | last hnone hread htext =>
    have hzero : bp = 0 := by
      by_contra hzero
      exact hnone (length - 1) (by omega) (by omega) (hstays.later (h.start hbp) hzero hbp).2
    refine ⟨Nat.le_refl _, fun hlt => absurd hlt (Nat.lt_irrefl _), ?_, ?_⟩
    · omega
    · rw [htext, ← h.text, @normalize_of_not_mem ((m.drop bp).toList (length - bp)) ?_]
      · simp [normalize]
      · rw [mem_toList]
        rintro ⟨k, hk, hnewline⟩
        exact hnone (bp + k) (by omega) (by omega) hnewline

theorem ends_print {whole : Bool} {length : Nat} (hnul : NulFree m length)
    (hlength : length < 0x10000000000000000) (hstays : Stays m whole length) :
    Prog.Ends (console m) (printLogBuffer whole length) ⟨0, []⟩ fun _ s =>
      s.extent ≤ length ∧ s.text = normalize (m.toList length) := by
  refine Prog.Ends.loop (I := fun bp s => Printed m length bp s) (μ := fun bp => length - bp)
    (fun bp s h => ?_) (length + 1) 0 ⟨0, []⟩
    ⟨Nat.zero_le _, fun _ => .inl rfl, Nat.zero_le _, by simp⟩ (by simp)
  by_cases hbp : bp < length
  · refine (ends_printRound hnul hbp hlength (h.start hbp)).mono fun r s' hline => ?_
    cases r with
    | inl u => cases hline
    | inr next =>
      refine ⟨hline.printed hstays hbp h, ?_⟩
      have := hline.next hbp
      omega
  · have heq : bp = length := by have := h.le; omega
    unfold printRound
    rw [if_neg hbp]
    refine .pure ⟨h.extent, ?_⟩
    rw [← h.text, heq, Nat.sub_self, Mem.toList_zero, normalize, List.append_nil]

/-- Before a round from `bp` on, in a packet that is read beyond its end: this has happened, or will. -/
structure Overruns (m : Mem) (length bp : Nat) (s : Screen) : Prop where
  start : bp < length → LineStart m bp
  extent : length < s.extent ∨ bp < length

theorem Line.overruns {whole : Bool} {length bp next k : Nat} {s' : Screen} (hk : k + 1 < length)
    (hnewline : m k = newline) (hend : whole = false → m (length - 1) ≠ newline)
    (h : Overruns m length bp s) (hline : Line m whole length bp s s' (.inr next)) : Overruns m length next s' := by
  cases hline with
  | @ended lf hfirst hread htext =>
    have hlow := hfirst.low
    refine ⟨fun _ => .inr (by rw [Nat.add_sub_cancel, hfirst.here]), ?_⟩
    rw [hread]
    rcases h.extent with hover | hbp
    · exact .inl (by omega)
    by_cases hzero : bp = 0
    · -- the first line has its end
      have hle : lf ≤ k := by
        by_contra hgt
        exact hfirst.first k (by omega) (by omega) hnewline
      exact .inr (by omega)
    cases whole with
    | true => exact .inl (by simp only [if_true]; omega)
    | false =>
      have hne : lf ≠ length - 1 := fun heq => hend rfl (heq ▸ hfirst.here)
      simp only [Bool.false_eq_true, if_false]
      omega
  | last hnone hread htext =>
    refine ⟨fun hlt => absurd hlt (Nat.lt_irrefl _), .inl ?_⟩
    rcases h.extent with hover | hbp
    · omega
    · have hzero : bp ≠ 0 := fun heq => hnone k (by omega) (by omega) hnewline
      omega

theorem ends_overrun {whole : Bool} {length : Nat} (hnul : NulFree m length)
    (hlength : length < 0x10000000000000000) (hstays : ¬ Stays m whole length) :
    Prog.Ends (console m) (printLogBuffer whole length) ⟨0, []⟩ fun _ s => length < s.extent := by
  obtain ⟨k, hk, hnewline, hend⟩ : ∃ k, k + 1 < length ∧ m k = newline ∧
      ¬(whole = false ∧ m (length - 1) = newline) := by
    by_contra hno
    refine hstays fun k hk hnewline => ?_
    by_contra hend
    exact hno ⟨k, hk, hnewline, hend⟩
  refine Prog.Ends.loop (I := fun bp s => Overruns m length bp s) (μ := fun bp => length - bp)
    (fun bp s h => ?_) (length + 1) 0 ⟨0, []⟩ ⟨fun _ => .inl rfl, .inr (by omega)⟩ (by simp)
  by_cases hbp : bp < length
  · refine (ends_printRound hnul hbp hlength (h.start hbp)).mono fun r s' hline => ?_
    cases r with
    | inl u => cases hline
    | inr next =>
      refine ⟨hline.overruns hk hnewline (fun hwhole hlast => hend ⟨hwhole, hlast⟩) h, ?_⟩
      have := hline.next hbp
      omega
  · unfold printRound
    rw [if_neg hbp]
    exact .pure (h.extent.resolve_right hbp)

end

/-! ### Which packets -/

/-- The text is one line, or each of its lines has an end and a search stops where it found it. -/
def LinesEnd (whole : Bool) (text : List UInt8) : Prop :=
  newline ∈ text.dropLast → whole = false ∧ text.getLast? = some newline

/-- The packet is printed as it should be, and nothing after it is read. -/
def PrintsExactly (whole : Bool) (m : Mem) (length : Nat) : Prop :=
  Prog.Ends (console m) (printLogBuffer whole length) ⟨0, []⟩ fun _ s =>
    s.extent ≤ length ∧ s.text = normalize (m.toList length)

theorem stays_iff {m : Mem} {whole : Bool} {length : Nat} :
    Stays m whole length ↔ LinesEnd whole (m.toList length) := by
  cases length with
  | zero => exact ⟨fun _ hmem => by simp at hmem, fun _ k hk => by omega⟩
  | succ n =>
    rw [LinesEnd, toList_succ_last, List.dropLast_concat, List.getLast?_concat, mem_toList, Stays,
      Nat.add_sub_cancel, Option.some.injEq]
    constructor
    · rintro h ⟨k, hk, hnewline⟩
      exact h k (by omega) hnewline
    · exact fun h k hk hnewline => h ⟨k, by omega, hnewline⟩

theorem printLogBuffer_exact_iff {m : Mem} {length : Nat} (hlength : length ≤ 248) (hnul : NulFree m length)
    (whole : Bool) : PrintsExactly whole m length ↔ LinesEnd whole (m.toList length) := by
  rw [← stays_iff]
  constructor
  · rintro ⟨u, s, hrun, hread, -⟩
    by_contra hstays
    have hover := (Prog.ends_iff hrun).1 (ends_overrun hnul (by omega) hstays)
    omega
  · exact fun hstays => ends_print hnul (by omega) hstays

/-- `"a\nb\n"` -/
def twoLines : List UInt8 := [97, newline, 98, newline]

theorem printLogBuffer_exact_twoLines : PrintsExactly false (Mem.ofList twoLines) 4 :=
  (printLogBuffer_exact_iff (by decide) (by decide) false).2 fun _ => ⟨rfl, rfl⟩

/-- `"a\nb"`, and `"X\n"` of a packet before it. -/
def staleLine : List UInt8 := [97, newline, 98, 88, newline]

theorem printLogBuffer_stale :
    NulFree (Mem.ofList staleLine) 3 ∧
      (Prog.Ends (console (Mem.ofList staleLine)) (printLogBuffer false 3) ⟨0, []⟩ fun _ s =>
        s = ⟨5, [97, carriageReturn, newline, 98, 88, carriageReturn, newline]⟩) ∧
      ¬ PrintsExactly false (Mem.ofList staleLine) 3 ∧ ¬ PrintsExactly true (Mem.ofList staleLine) 3 := by
  have hstops : (printLogBuffer false 3).exec (console (Mem.ofList staleLine)) ⟨0, []⟩ =
      (.ok (), ⟨5, [97, carriageReturn, newline, 98, 88, carriageReturn, newline]⟩) := rfl
  have hwhole : (printLogBuffer true 3).exec (console (Mem.ofList staleLine)) ⟨0, []⟩ =
      (.ok (), ⟨5, [97, carriageReturn, newline, 98, 88, carriageReturn, newline]⟩) := rfl
  refine ⟨by decide, (Prog.ends_iff hstops).2 rfl, fun h => ?_, fun h => ?_⟩
  · exact absurd ((Prog.ends_iff hstops).1 h).1 (by decide)
  · exact absurd ((Prog.ends_iff hwhole).1 h).1 (by decide)

end FrameworkHacks.ECTool
