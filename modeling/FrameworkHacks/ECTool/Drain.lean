import FrameworkHacks.ECTool.Main
import FrameworkHacks.ECTool.Printing

/-!
# What `ectool console` prints

The EC has packets of its log waiting and hands them out one by one; after the last it answers 0, or refuses
(`HasLog`). `ectool console` prints every packet once and in order, and what the refusal was
(`ends_cmdConsole`). The packets are those that `PrintLogBuffer` prints as it should (`Printable`).

`PrintECResponse` never looks beyond its table (`responseText_eq`).
-/

namespace FrameworkHacks.ECTool

open Effects

/-! ### PrintECResponse -/

/-- The code that is printed: that of the EC, if the EC refused. -/
def shownCode (rv : Int) : Nat := (if rv < -eecresult then -rv - eecresult else -rv).toNat

def shownMessage (code : Nat) : String := (mEcErrorMessages[code]?).getD "<unknown error>"

def shownText (code : Nat) : List UInt8 :=
  ascii (toString code) ++ ascii " (" ++ ascii (shownMessage code) ++ ascii ")"

/-- What is printed of the value of a call. -/
def refusalText (rv : Int) : List UInt8 := if rv < 0 then shownText (shownCode rv) else []

/-- **`PrintECResponse` prints the code and its message**, for every negative `int`. -/
theorem responseText_eq {E : Signature} {rv : Int} (hneg : rv < 0) (hint : -2147483648 ≤ rv) :
    (responseText rv : Prog E (List UInt8)) = pure (shownText (shownCode rv)) := by
  have hcode : ∃ n : Nat, shownCode rv = n ∧ 0 < n ∧ (ownCode rv : Prog E Int) = pure (-(n : Int)) := by
    refine ⟨shownCode rv, rfl, ?_⟩
    unfold shownCode ownCode
    by_cases howned : rv < -eecresult
    · simp only [if_pos howned]
      simp only [eecresult] at howned ⊢
      rw [addInt_of_le (by omega) (by omega)]
      exact ⟨by omega, congrArg pure (by omega)⟩
    · simp only [if_neg howned]
      exact ⟨by omega, congrArg pure (by omega)⟩
  obtain ⟨n, hn, hpos, hown⟩ := hcode
  have hmessage : (codeMessage (-(n : Int)) : Prog E String) = pure (shownMessage n) := by
    unfold codeMessage errorMessage shownMessage
    by_cases hknown : -(n : Int) ≥ -EcStatus.dupUnavailable.code
    · have hlt : n < mEcErrorMessages.length := by
        have hbound : EcStatus.dupUnavailable.code = 20 := rfl
        show n < 21
        omega
      rw [if_pos hknown, if_pos (by omega), Int.neg_neg, Int.toNat_natCast, List.getElem?_eq_getElem hlt]
      rfl
    · have hge : mEcErrorMessages.length ≤ n := by
        have hbound : EcStatus.dupUnavailable.code = 20 := rfl
        show 21 ≤ n
        omega
      rw [if_neg hknown, List.getElem?_eq_none hge]
      rfl
  unfold responseText
  rw [hown, pure_bind, hmessage, pure_bind, hn, Int.neg_neg]
  rfl

/-! ### An EC with a log -/

/-- A packet that `PrintLogBuffer` prints as it should, whatever the rest of the buffer holds. -/
structure Printable (whole : Bool) (packet : List UInt8) : Prop where
  nonempty : packet ≠ []
  fits : packet.length ≤ gEcMaxResponse
  text : (0 : UInt8) ∉ packet
  lines : LinesEnd whole packet

/-- An EC with `pending` packets left that answers `last` when there are none, and a terminal with `text` on it. -/
structure HasLog {S : Type} (h : Handler App S) (last : Int) (pending : S → List (List UInt8)) (text : S → List UInt8) :
    Prop where
  snapshot : ∀ s, ∃ r s', h (.inl (.sendCommand ⟨ecCmdConsoleSnapshot, 0, [], 0⟩)) s = .ok (r, s') ∧ 0 ≤ r.rv ∧
    pending s' = pending s ∧ text s' = text s
  read : ∀ s subcmd packet rest, pending s = packet :: rest → ∃ s',
    h (.inl (.sendCommand ⟨ecCmdConsoleRead, 1, [subcmd], gEcMaxResponse⟩)) s =
      .ok (⟨packet.length, packet⟩, s') ∧ pending s' = rest ∧ text s' = text s
  done : ∀ s subcmd, pending s = [] → ∃ data s',
    h (.inl (.sendCommand ⟨ecCmdConsoleRead, 1, [subcmd], gEcMaxResponse⟩)) s = .ok (⟨last, data⟩, s') ∧
      pending s' = [] ∧ text s' = text s
  print : ∀ s line, ∃ s', h (.inr (.print line)) s = .ok ((), s') ∧ pending s' = pending s ∧ text s' = text s ++ line

section Log

variable {S : Type} {h : Handler App S} {last : Int} {pending : S → List (List UInt8)} {text : S → List UInt8}

theorem extent_mono {m : Mem} {α : Type} (p : Prog Console α) (s : Screen) :
    s.extent ≤ (p.exec (console m) s).2.extent :=
  Prog.exec_invariant (I := fun s' => s.extent ≤ s'.extent) (fun op s₁ x s₂ hop hs₁ => by
    cases op with
    | load i =>
      cases hop
      exact Nat.le_trans hs₁ (Nat.le_max_left _ _)
    | print line =>
      cases hop
      exact hs₁) p s (Nat.le_refl _)

theorem ends_overBuffer (hlog : HasLog h last pending text) {m : Mem} {α : Type} {p : Prog Console α}
    {s s' : Screen} {a : α} (hexec : p.exec (console m) s = (.ok a, s')) (hinside : s'.extent ≤ gEcMaxResponse)
    (st : S) :
    Prog.Ends h (p.interpret (overBuffer m)) st fun b st' => b = a ∧ pending st' = pending st ∧
      ∃ printed, s'.text = s.text ++ printed ∧ text st' = text st ++ printed := by
  induction p generalizing s st with
  | ret b =>
    cases hexec
    exact .pure ⟨rfl, rfl, [], by simp, by simp⟩
  | halt r => cases hexec
  | call op k ih =>
    cases op with
    | load i =>
      have hk : (k (m i)).exec (console m) { s with extent := max s.extent (i + 1) } = (.ok a, s') := hexec
      have hmono := extent_mono (m := m) (k (m i)) { s with extent := max s.extent (i + 1) }
      rw [hk] at hmono
      have hi : i < gEcMaxResponse := by
        simp only at hmono
        omega
      have hload : overBuffer m (.load i) = pure (m i) := Buf.load_of_lt (b := ⟨m, gEcMaxResponse⟩) hi
      rw [Prog.interpret, hload, pure_bind]
      exact ih (m i) hk st
    | print line =>
      have hk : (k ()).exec (console m) { s with text := s.text ++ line } = (.ok a, s') := hexec
      obtain ⟨st₁, hop, hpending, htext⟩ := hlog.print st line
      refine Prog.Ends.perform_bind hop ((ih () hk st₁).mono fun b st' hend => ?_)
      obtain ⟨hb, hpending', printed, hs', hst'⟩ := hend
      refine ⟨hb, hpending'.trans hpending, line ++ printed, ?_, ?_⟩
      · rw [hs', List.append_assoc]
      · rw [hst', htext, List.append_assoc]

theorem into_packet {packet : List UInt8} (hfits : packet.length ≤ gEcMaxResponse) (buf : Mem) :
    ((⟨packet.length, packet⟩ : Reply).into buf gEcMaxResponse).toList packet.length = packet := by
  have hbytes : ∀ i < packet.length,
      (⟨packet.length, packet⟩ : Reply).into buf gEcMaxResponse i = Mem.ofList packet i := by
    intro i hi
    rw [Reply.into, List.take_of_length_le hfits, Mem.overlay_lt buf hi]
  rw [Mem.toList_congr hbytes, Mem.toList_ofList]

theorem ends_packet (hlog : HasLog h last pending text) {whole : Bool} {packet : List UInt8}
    (hpacket : Printable whole packet) (buf : Mem) (st : S) :
    Prog.Ends h ((printLogBuffer whole packet.length).interpret
      (overBuffer ((⟨packet.length, packet⟩ : Reply).into buf gEcMaxResponse))) st fun _ st' =>
        pending st' = pending st ∧ text st' = text st ++ normalize packet := by
  have hcontents := into_packet hpacket.fits buf
  generalize (⟨packet.length, packet⟩ : Reply).into buf gEcMaxResponse = m at hcontents ⊢
  have hnul : NulFree m packet.length := by
    intro k hk hzero
    refine hpacket.text ?_
    rw [← hcontents, mem_toList]
    exact ⟨k, hk, hzero⟩
  have hfits : packet.length < 0x10000000000000000 := by
    have hsmall := hpacket.fits
    rw [gEcMaxResponse_eq] at hsmall
    omega
  have hstays : Stays m whole packet.length := by
    rw [stays_iff, hcontents]
    exact hpacket.lines
  obtain ⟨u, s', hexec, hextent, htext⟩ := ends_print hnul hfits hstays
  refine (ends_overBuffer hlog hexec (Nat.le_trans hextent hpacket.fits) st).mono fun _ st' hend => ?_
  obtain ⟨-, hpending, printed, hprinted, hst'⟩ := hend
  rw [htext, hcontents] at hprinted
  refine ⟨hpending, ?_⟩
  rw [hst', hprinted]
  rfl

/-! ### The loop -/

theorem ends_consoleRound (hlog : HasLog h last pending text) {whole : Bool} {packet : List UInt8}
    {rest : List (List UInt8)} (hpacket : Printable whole packet) (buf : Mem) (subcmd : UInt8) {st : S}
    (hpending : pending st = packet :: rest) :
    Prog.Ends h (consoleRound whole (buf, subcmd)) st fun r st' => (∃ buf', r = .inr (buf', consoleReadNext)) ∧
      pending st' = rest ∧ text st' = text st ++ normalize packet := by
  have hpos : ((packet.length : Int)) > 0 := Int.natCast_pos.2 (List.length_pos_iff.2 hpacket.nonempty)
  obtain ⟨st₁, hop, hpending₁, htext₁⟩ := hlog.read st subcmd packet rest hpending
  unfold consoleRound
  refine Prog.Ends.perform_bind hop ?_
  simp only [if_neg (Int.not_lt.2 (Int.le_of_lt hpos)), if_pos hpos, Int.toNat_natCast]
  refine (ends_packet hlog hpacket buf st₁).bind fun _ st₂ hend => ?_
  -- the packet does not begin with a NUL
  have hfirst : (⟨packet.length, packet⟩ : Reply).into buf gEcMaxResponse 0 ≠ 0 := by
    intro hzero
    refine hpacket.text ?_
    rw [← into_packet hpacket.fits buf, mem_toList]
    exact ⟨0, List.length_pos_iff.2 hpacket.nonempty, hzero⟩
  rw [if_pos ⟨hpos, hfirst⟩]
  exact .pure ⟨⟨_, rfl⟩, hend.1.trans hpending₁, by rw [hend.2, htext₁]⟩

theorem ends_lastRound (hlog : HasLog h last pending text) (hlast : last ≤ 0) (whole : Bool) (buf : Mem)
    (subcmd : UInt8) {st : S} (hpending : pending st = []) :
    Prog.Ends h (consoleRound whole (buf, subcmd)) st fun r st' => r = .inl last ∧ pending st' = [] ∧
      text st' = text st := by
  obtain ⟨data, st₁, hop, hpending₁, htext₁⟩ := hlog.done st subcmd hpending
  unfold consoleRound
  refine Prog.Ends.perform_bind hop ?_
  have hnot : ¬(last > 0) := by omega
  by_cases hneg : last < 0
  · simp only [if_pos hneg]
    exact .pure ⟨rfl, hpending₁, htext₁⟩
  · simp only [if_neg hneg, hnot, false_and, if_false]
    exact .pure ⟨rfl, hpending₁, htext₁⟩

theorem ends_consoleLoop (hlog : HasLog h last pending text) (hlast : last ≤ 0) {whole : Bool}
    {packets : List (List UInt8)} (hpackets : ∀ packet ∈ packets, Printable whole packet) {fuel : Nat}
    (hfuel : packets.length < fuel) (buf : Mem) (subcmd : UInt8) {st : S} (hpending : pending st = packets) :
    Prog.Ends h (Prog.loop (consoleRound whole) fuel (buf, subcmd)) st fun rv st' => rv = last ∧ pending st' = [] ∧
      text st' = text st ++ packets.flatMap normalize := by
  induction packets generalizing fuel buf subcmd st with
  | nil =>
    obtain ⟨fuel, rfl⟩ : ∃ n, fuel = n + 1 := ⟨fuel - 1, by simp at hfuel; omega⟩
    rw [Prog.loop_succ]
    refine (ends_lastRound hlog hlast whole buf subcmd hpending).bind ?_
    rintro _ st' ⟨rfl, hpending', htext'⟩
    exact .pure ⟨rfl, hpending', by simpa using htext'⟩
  | cons packet rest ih =>
    obtain ⟨fuel, rfl⟩ : ∃ n, fuel = n + 1 := ⟨fuel - 1, by simp at hfuel; omega⟩
    rw [List.forall_mem_cons] at hpackets
    rw [Prog.loop_succ]
    refine (ends_consoleRound hlog hpackets.1 buf subcmd hpending).bind ?_
    rintro _ st₁ ⟨⟨buf', rfl⟩, hpending₁, htext₁⟩
    refine (ih hpackets.2 (by simpa using hfuel) buf' consoleReadNext hpending₁).mono fun rv st' hend => ?_
    obtain ⟨hrv, hpending', htext'⟩ := hend
    refine ⟨hrv, hpending', ?_⟩
    rw [htext', htext₁, List.flatMap_cons, List.append_assoc]

theorem ends_printText (hlog : HasLog h last pending text) (line : List UInt8) (st : S) :
    Prog.Ends h (printText line) st fun _ st' => pending st' = pending st ∧ text st' = text st ++ line := by
  obtain ⟨st', hop, hkept⟩ := hlog.print st line
  exact .perform hop hkept

theorem ends_consoleEcOut (hlog : HasLog h last pending text) (hint : -2147483648 ≤ last) (st : S) :
    Prog.Ends h (consoleEcOut last) st fun status st' => pending st' = pending st ∧
      text st' = text st ++ refusalText last ∧ status = if last < 0 then efiDeviceError else efiSuccess := by
  unfold consoleEcOut printEcResponse
  by_cases hneg : last < 0
  · rw [if_pos hneg, if_neg (Int.not_le.2 hneg), responseText_eq hneg hint, if_pos hneg, pure_bind]
    refine (ends_printText hlog _ st).bind fun _ st' hend => .pure ⟨hend.1, ?_, rfl⟩
    rw [hend.2, refusalText, if_pos hneg]
  · rw [if_neg hneg, if_neg hneg]
    exact .pure ⟨rfl, by simp [refusalText, hneg], rfl⟩

/-- **Every packet is printed once and in order**, and then what the refusal was, if there was one. -/
theorem ends_cmdConsole (hlog : HasLog h last pending text) (hlast : last ≤ 0) (hint : -2147483648 ≤ last)
    {whole : Bool} {fuel : Nat} {st : S} (hpackets : ∀ packet ∈ pending st, Printable whole packet)
    (hfuel : (pending st).length < fuel) :
    Prog.Ends h (cmdConsole whole fuel) st fun status st' => pending st' = [] ∧
      text st' = text st ++ (pending st).flatMap normalize ++ refusalText last ∧
      status = if last < 0 then efiDeviceError else efiSuccess := by
  obtain ⟨r, st₁, hop, hrv, hpending₁, htext₁⟩ := hlog.snapshot st
  unfold cmdConsole
  refine Prog.Ends.perform_bind hop ?_
  rw [if_neg (Int.not_lt.2 hrv)]
  refine (ends_consoleLoop hlog hlast hpackets hfuel (fun _ => 0) consoleReadRecent hpending₁).bind ?_
  rintro _ st₂ ⟨rfl, hpending₂, htext₂⟩
  refine (ends_consoleEcOut hlog hint st₂).mono fun status st' hend => ?_
  obtain ⟨hpending', htext', hstatus⟩ := hend
  exact ⟨hpending'.trans hpending₂, by rw [htext', htext₂, htext₁], hstatus⟩

end Log

end FrameworkHacks.ECTool
