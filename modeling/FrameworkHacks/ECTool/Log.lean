import FrameworkHacks.ECTool.Drain
import FrameworkHacks.ECTool.FlashFirmware

/-!
# The log of the EC, on the terminal

`LogFirmware` is a firmware with a log of packets, which a snapshot keeps and each read takes one from. On it, and
with either library between, `ectool console` shows the log on the terminal of a host: every packet once, in order,
as `PrintLogBuffer` prints it, and then what the EC refused with (`ectool_console`).
-/

namespace FrameworkHacks.ECTool

open Effects Transport

variable {σ T : Type}

/-! ### The firmware and the terminal -/

/-- A firmware whose log is `pending`. A read of an empty log has this result. -/
structure LogFirmware (serve : Firmware σ) (result : UInt8) (pending : σ → List (List UInt8)) : Prop where
  snapshot : ∀ s, Accepts serve s ⟨ecCmdConsoleSnapshot, 0, []⟩ fun payload s' => payload = [] ∧ pending s' = pending s
  read : ∀ s subcmd packet rest, pending s = packet :: rest →
    Accepts serve s ⟨ecCmdConsoleRead, 1, [subcmd]⟩ fun payload s' => payload = packet ∧ pending s' = rest
  done : ∀ s subcmd, pending s = [] →
    let (a, s') := serve s ⟨ecCmdConsoleRead, 1, [subcmd]⟩
    a.result = result ∧ (result = 0 → a.payload = []) ∧ pending s' = []

/-- What a read of an empty log returns. -/
def lastValue (result : UInt8) : Int := if result = 0 then 0 else -eecresult - result.toNat

/-- A host with a terminal, on which nothing but the output of the tool appears. -/
structure Terminal (host : Handler Host T) (text : T → List UInt8) : Prop where
  print : ∀ t line, ∃ t', host (.inr (.print line)) t = .ok ((), t') ∧ text t' = text t ++ line
  silent : ∀ op t x t', (∀ line, op ≠ .print line) → host (.inr op) t = .ok (x, t') → text t' = text t

section Direct

variable {serve : Firmware σ} {map : Mem} {host : Handler Host T} {argv : List String} {result : UInt8}
  {pending : σ → List (List UInt8)} {text : T → List UInt8} {s : σ} {t : T}

theorem replyTo_accepted {a : Response} {insize : Nat} (hzero : a.result = 0) (hroom : a.payload.length ≤ insize) :
    replyTo a insize = ⟨a.payload.length, a.payload⟩ := by
  rw [replyTo, if_neg (not_not.2 hzero), if_neg (Nat.not_lt.2 hroom)]

theorem LogFirmware.hasLog (hlog : LogFirmware serve result pending) (hterm : Terminal host text) :
    HasLog (direct serve map host) (lastValue result) (fun e => pending e.1) (fun e => text e.2) where
  snapshot := by
    rintro ⟨s, t⟩
    obtain ⟨hzero, hempty, hpending⟩ := hlog.snapshot s
    have hreply := @replyTo_accepted _ 0 hzero (by rw [hempty]; exact Nat.zero_le 0)
    exact ⟨_, _, rfl, by rw [hreply]; exact Int.natCast_nonneg _, hpending, rfl⟩
  read := by
    rintro ⟨s, t⟩ subcmd packet rest hpending
    obtain ⟨hzero, hpacket, hrest⟩ := hlog.read s subcmd packet rest hpending
    have hreply := replyTo_accepted hzero (serve s ⟨ecCmdConsoleRead, 1, [subcmd]⟩).1.fits
    rw [hpacket] at hreply
    exact ⟨((serve s ⟨ecCmdConsoleRead, 1, [subcmd]⟩).2, t), by simp only [direct, hreply], hrest, rfl⟩
  done := by
    rintro ⟨s, t⟩ subcmd hpending
    obtain ⟨hresult, hempty, hdone⟩ := hlog.done s subcmd hpending
    refine ⟨(replyTo (serve s ⟨ecCmdConsoleRead, 1, [subcmd]⟩).1 gEcMaxResponse).data, (_, t), ?_, hdone, rfl⟩
    have hvalue : (replyTo (serve s ⟨ecCmdConsoleRead, 1, [subcmd]⟩).1 gEcMaxResponse).rv = lastValue result := by
      by_cases hzero : result = 0
      · rw [replyTo_accepted (hresult.trans hzero) (serve s ⟨ecCmdConsoleRead, 1, [subcmd]⟩).1.fits, hempty hzero,
          lastValue, if_pos hzero]
        rfl
      · rw [replyTo, if_pos (by rw [hresult]; exact hzero), hresult, lastValue, if_neg hzero]
    rw [← hvalue]
    rfl
  print := by
    rintro ⟨s, t⟩ line
    obtain ⟨t', hop, htext⟩ := hterm.print t line
    exact ⟨(s, t'), by rw [direct, hostOf, hop]; rfl, rfl, htext⟩

theorem lastValue_bounds (result : UInt8) : lastValue result ≤ 0 ∧ -2147483648 ≤ lastValue result := by
  have hresult := result.toNat_lt
  unfold lastValue eecresult
  split_ifs
  · decide
  · omega

/-- What is on the terminal of `ectool console` in the end. -/
structure Shown (result : UInt8) (pending : σ → List (List UInt8)) (text : T → List UInt8) (s : σ × T)
    (status : EfiStatus) (e : σ × T) : Prop where
  drained : pending e.1 = []
  text : text e.2 = text s.2 ++ (pending s.1).flatMap normalize ++ refusalText (lastValue result)
  status : status = if result = 0 then efiSuccess else efiDeviceError

theorem ends_uefiMain_console {c : Setting} (hhost : Cooperates host argv) (hterm : Terminal host text)
    (hlog : LogFirmware serve result pending) (hsub : argv.getD 1 "" = "console")
    (hpackets : ∀ packet ∈ pending s, Printable c.whole packet) (hfuel : (pending s).length < c.fuel) :
    Prog.Ends (direct serve map host) (uefiMain c) (s, t) fun status e =>
      Shown result pending text (s, t) status e := by
  have hfind : (commands c).find? (fun spec => argv.getD 1 "" = spec.1) =
      some ("console", fun _ => cmdConsole c.whole c.fuel) := by
    rw [hsub]
    rfl
  refine ends_started hhost (two_le_length hsub (by decide)) hfind (I := fun t' => text t' = text t) rfl
    (fun op t₁ x t₂ hsilent hop hkept => (hterm.silent op t₁ x t₂ hsilent hop).trans hkept) fun t' hkept => ?_
  obtain ⟨hlast, hint⟩ := lastValue_bounds result
  have hconsole : Prog.Ends (direct serve map host) (cmdConsole c.whole c.fuel) (s, t') _ :=
    ends_cmdConsole (hlog.hasLog hterm) hlast hint hpackets hfuel
  refine hconsole.mono fun status e hend => ?_
  obtain ⟨hdrained, htext, hstatus⟩ := hend
  refine ⟨hdrained, by rw [htext, hkept], ?_⟩
  rw [hstatus, lastValue]
  by_cases hzero : result = 0
  · rw [if_pos hzero, if_pos hzero]
    rfl
  · have hneg : -eecresult - (result.toNat : Int) < 0 := by
      unfold eecresult
      omega
    rw [if_neg hzero, if_neg hzero, if_pos hneg]

end Direct

/-! ### The ports -/

section Ports

variable {serve : Firmware σ} {schedule : Nat → UInt8} {host : Handler Host T} {argv : List String} {result : UInt8}
  {pending : σ → List (List UInt8)} {text : T → List UInt8}

theorem ectoolOver_console {D : Type} (hprompt : Prompt schedule) {h : Handler Io D} {xfer : EcTransfer}
    {link : D → Link (Controller σ)} {memmap : D → Mem} (hs : Serves (firmwareEc serve schedule) h xfer link memmap)
    (hhost : Cooperates host argv) (hterm : Terminal host text) (hlog : LogFirmware serve result pending)
    (hsub : argv.getD 1 "" = "console") (u r : Mem) (c : Setting) (d : D) (t : T)
    (hpackets : ∀ packet ∈ pending (settle serve (link d).ec.view), Printable c.whole packet)
    (hfuel : (pending (settle serve (link d).ec.view)).length < c.fuel) :
    Prog.Ends (h.sum host) (ectoolOver xfer u r c) (d, t) fun status e =>
      Shown result pending text (settle serve (link d).ec.view, t) status (settle serve (link e.1).ec.view, e.2) := by
  have hdirect : Prog.Ends (direct serve (memmap d) host) (uefiMain c) (settle serve (link d).ec.view, t) _ :=
    ends_uefiMain_console hhost hterm hlog hsub hpackets hfuel
  obtain ⟨status, e, hexec, hshown⟩ := hdirect
  have hports := ectoolOver_direct hprompt hs u r c host d t
  rw [hexec] at hports
  refine Prog.Ends.mono hports ?_
  rintro _ ⟨d', t'⟩ ⟨rfl, hfirmware, htext⟩
  have he : e = (settle serve (link d').ec.view, t') := Prod.ext hfirmware htext
  rw [← he]
  exact hshown

/-- **`ectool console` shows the log of the EC**, over either library. -/
theorem ectool_console (hprompt : Prompt schedule) (hhost : Cooperates host argv) (hterm : Terminal host text)
    (hlog : LogFirmware serve result pending) (hsub : argv.getD 1 "" = "console") (u r : Mem) (c : Setting) (t : T) :
    (∀ d, (∀ packet ∈ pending (settle serve d.ec.view), Printable c.whole packet) →
      (pending (settle serve d.ec.view)).length < c.fuel →
      Prog.Ends ((emi (firmwareEc serve schedule)).sum host) (ectoolOver Mec.ecTransfer u r c) (d, t) fun status e =>
        Shown result pending text (settle serve d.ec.view, t) status (settle serve e.1.ec.view, e.2)) ∧
    ∀ b, (∀ packet ∈ pending (settle serve b.ec.view), Printable c.whole packet) →
      (pending (settle serve b.ec.view)).length < c.fuel →
      Prog.Ends ((npcx (firmwareEc serve schedule)).sum host) (ectoolOver Azalea.ecTransfer u r c) (b, t)
        fun status e => Shown result pending text (settle serve b.ec.view, t) status (settle serve e.1.ec.view, e.2) :=
  ⟨fun d => ectoolOver_console hprompt (Mec.serves _) hhost hterm hlog hsub u r c d t,
    fun b => ectoolOver_console hprompt (Azalea.serves _) hhost hterm hlog hsub u r c b t⟩

end Ports

/-! ### A sample -/

/-- A packet of a log. -/
abbrev LogPacket := { packet : List UInt8 // packet.length ≤ gEcMaxResponse }

/-- A firmware that has nothing but a log. -/
def logServe (result : UInt8) : Firmware (List LogPacket) := fun log q =>
  if q.command = ecCmdConsoleRead then
    match log with
    | [] => (.of result [] (Nat.zero_le _), [])
    | packet :: rest => (.of 0 packet.1 packet.2, rest)
  else (.of 0 [] (Nat.zero_le _), log)

theorem logServe_log (result : UInt8) : LogFirmware (logServe result) result (List.map Subtype.val) where
  snapshot log := ⟨rfl, rfl, rfl⟩
  read log subcmd packet rest hlog := by
    obtain ⟨p, log, rfl, rfl, rfl⟩ := List.map_eq_cons_iff.1 hlog
    exact ⟨rfl, rfl, rfl⟩
  done log subcmd hlog := by
    rw [List.map_eq_nil_iff] at hlog
    subst hlog
    exact ⟨rfl, fun _ => rfl, rfl⟩

/-- A host whose state is the text on its terminal. -/
def terminalHost (argv : List String) : Handler Host (List UInt8)
  | .inr (.print line), text => .ok ((), text ++ line)
  | op, text => (sampleHost argv op ()).map fun r => (r.1, text)

theorem terminalHost_terminal (argv : List String) : Terminal (terminalHost argv) id where
  print text line := ⟨_, rfl, rfl⟩
  silent op text x text' hsilent hop := by
    cases op with
    | print line => exact absurd rfl (hsilent line)
    | shellInitialize => cases hop; rfl
    | handleProtocol => cases hop; rfl
    | locateProtocol => cases hop; rfl

theorem terminalHost_cooperates (argv : List String) : Cooperates (terminalHost argv) argv := by
  intro op text
  obtain ⟨x, _, hop, hhelpful⟩ := sampleHost_cooperates argv op ()
  have hsilent (heq : terminalHost argv op text = (sampleHost argv op ()).map fun r => (r.1, text)) :
      ∃ x t', terminalHost argv op text = .ok (x, t') ∧ Helpful argv op x := by
    rw [hop] at heq
    exact ⟨x, text, heq, hhelpful⟩
  rcases op with op | op
  · exact hsilent rfl
  cases op with
  | print line => exact ⟨(), text ++ line, rfl, trivial⟩
  | shellInitialize => exact hsilent rfl
  | handleProtocol => exact hsilent rfl
  | locateProtocol => exact hsilent rfl

/-- An EC with two packets, on an empty log busy. -/
theorem ectool_console_busy :
    let d : Emi (Controller (List LogPacket)) :=
      ⟨⟨⟨[⟨twoLines, by decide⟩, ⟨[99], by decide⟩], 0, 0, none⟩, fun _ => 0, []⟩, 0⟩
    Prog.Ends ((emi (firmwareEc (logServe 16) fun _ => 0)).sum (terminalHost ["ectool", "console"]))
      (ectoolOver Mec.ecTransfer (fun _ => 0) (fun _ => 0) ⟨3, fun _ => 0, false⟩) (d, []) fun status e =>
        Shown 16 (List.map Subtype.val) id (settle (logServe 16) d.ec.view, []) status
          (settle (logServe 16) e.1.ec.view, e.2) := by
  intro d
  refine (ectool_console prompt_idle (terminalHost_cooperates ["ectool", "console"])
    (terminalHost_terminal ["ectool", "console"]) (logServe_log 16) rfl (fun _ => 0) (fun _ => 0) ⟨3, fun _ => 0, false⟩
    []).1 d ?_ (by decide)
  intro packet hpacket
  rcases List.mem_pair.1 hpacket with rfl | rfl
  · exact ⟨by decide, by decide, by decide, fun _ => ⟨rfl, rfl⟩⟩
  · exact ⟨by decide, by decide, by decide, fun hmem => by cases hmem⟩

end FrameworkHacks.ECTool
