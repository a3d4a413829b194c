import Mathlib.Data.List.GetD
import FrameworkHacks.Library.Exec
import FrameworkHacks.Library.Text
import FrameworkHacks.Protocol

/-!
# Printing a console packet

`PrintLogBuffer` on a buffer of which a packet fills the first `length` bytes; what follows is left over
from earlier packets. Offsets are from the start of the buffer. Every line but the first is searched for
its end in `length` bytes from the line on, instead of what is left of them, so a packet whose last line
has no end is searched beyond its end.

`ScanMem8` is documented to search up to a match in its range. Whether it looks at the rest of the range
is left open: `whole` says that it does.
-/

namespace FrameworkHacks.ECTool

open Effects

/-! ### The code -/

inductive ConsoleOp
  | load (i : Nat)
  | print (text : List UInt8)

@[reducible] def ConsoleOp.Ans : ConsoleOp → Type
  | .load _ => UInt8
  | .print _ => Unit

@[reducible] def Console : Signature := ⟨ConsoleOp, ConsoleOp.Ans⟩

/-- `buf[i]` -/
def load (i : Nat) : Prog Console UInt8 := Prog.perform (E := Console) (.load i)

def print (text : List UInt8) : Prog Console Unit := Prog.perform (E := Console) (.print text)

def newline : UInt8 := '\n'.toNat.toUInt8
def carriageReturn : UInt8 := '\r'.toNat.toUInt8

/-- `"\r\n"` -/
def lineEnd : List UInt8 := [carriageReturn, newline]

/-- Looks at a range without using it. -/
def touch (i : Nat) : (length : Nat) → Prog Console Unit
  | 0 => return ()
  | length + 1 => do
    let _ ← load i
    touch (i + 1) length

/-- `ScanMem8`: the offset of the first match, or NULL. -/
def scanMem8 (whole : Bool) (value : UInt8) (i : Nat) : (length : Nat) → Prog Console (Option Nat)
  | 0 => return none
  | length + 1 => do
    if (← load i) = value then
      touch (i + 1) (bif whole then length else 0)
      return some i
    else
      scanMem8 whole value (i + 1) length

/-- What `Print` makes of `%.*a`: at most `length` characters, up to a NUL. -/
def asciiString (i : Nat) : (length : Nat) → Prog Console (List UInt8)
  | 0 => return []
  | length + 1 => do
    let c ← load i
    if c = 0 then
      return []
    else
      return c :: (← asciiString (i + 1) length)

/-- `lf && lf > &buf[0] && *(lf - 1) == '\r'` -/
def afterReturn : Option Nat → Prog Console Bool
  | some (i + 1) => return (← load i) = carriageReturn
  | _ => return false

/-- One round of the loop of `PrintLogBuffer`; the state is the offset of `bp`. -/
def printRound (whole : Bool) (length : Nat) (bp : Nat) : Prog Console (Unit ⊕ Nat) := do
  if bp < length then
    if (← load bp) ≠ 0 then
      let lf ← scanMem8 whole newline bp length
      let segmentLen : Nat := match lf with
        | some lf => lf - bp
        | none => length - bp
      -- don't print the \r either
      let segmentLen := if ← afterReturn lf then toUintn ((segmentLen : Int) - 1) else segmentLen
      print ((← asciiString bp segmentLen) ++ if lf.isSome then lineEnd else [])
      return .inr (match lf with
        | some lf => lf + 1
        | none => length)
    else
      return .inl ()
  else
    return .inl ()

def printLogBuffer (whole : Bool) (length : Nat) : Prog Console Unit :=
  Prog.loop (printRound whole length) (length + 1) 0

/-! ### The terminal -/

/-- How far the buffer has been read, as one more than the highest offset, and what was printed. -/
structure Screen where
  extent : Nat
  text : List UInt8

/-- A buffer with the contents `m`, and a screen. -/
def console (m : Mem) : Handler Console Screen
  | .load i, s => .ok (m i, { s with extent := max s.extent (i + 1) })
  | .print text, s => .ok ((), { s with text := s.text ++ text })

/-- A text with each `"\n"` and each `"\r\n"` replaced by one `"\r\n"`. -/
def normalize : List UInt8 → List UInt8
  | [] => []
  | c :: rest =>
    if c = newline then lineEnd ++ normalize rest
    else if c = carriageReturn ∧ rest.head? = some newline then normalize rest
    else c :: normalize rest

/-- A line without its trailing `"\r"`. -/
def chomp (line : List UInt8) : List UInt8 :=
  if line.getLast? = some carriageReturn then line.dropLast else line

theorem newline_ne_return : newline ≠ carriageReturn := by decide

theorem normalize_of_not_mem {line : List UInt8} (h : newline ∉ line) : normalize line = line := by
  induction line with
  | nil => rfl
  | cons c rest ih =>
    have hc : c ≠ newline := fun heq => h (heq ▸ List.mem_cons_self)
    have hrest : newline ∉ rest := fun hmem => h (List.mem_cons_of_mem c hmem)
    have hhead : rest.head? ≠ some newline := fun hsome => hrest (List.mem_of_mem_head? hsome)
    rw [normalize, if_neg hc, if_neg fun hand => hhead hand.2, ih hrest]

theorem chomp_cons_cons (c d : UInt8) (line : List UInt8) :
    chomp (c :: d :: line) = c :: chomp (d :: line) := by
  unfold chomp
  rw [List.getLast?_cons_cons]
  split
  · rfl
  · rfl

theorem normalize_line {line rest : List UInt8} (h : newline ∉ line) :
    normalize (line ++ newline :: rest) = chomp line ++ lineEnd ++ normalize rest := by
  induction line with
  | nil => simp [normalize, chomp]
  | cons c line ih =>
    have hc : c ≠ newline := fun heq => h (heq ▸ List.mem_cons_self)
    have hline : newline ∉ line := fun hmem => h (List.mem_cons_of_mem c hmem)
    rw [List.cons_append, normalize, if_neg hc]
    cases line with
    | nil =>
      by_cases hreturn : c = carriageReturn
      · rw [if_pos ⟨hreturn, rfl⟩, ih hline]
        simp [chomp, hreturn]
      · rw [if_neg fun hand => hreturn hand.1, ih hline]
        simp [chomp, hreturn]
    | cons d line =>
      have hd : d ≠ newline := fun heq => hline (heq ▸ List.mem_cons_self)
      have hhead : ¬(c = carriageReturn ∧ (d :: line ++ newline :: rest).head? = some newline) :=
        fun hand => hd (Option.some.inj hand.2)
      rw [if_neg hhead, ih hline, chomp_cons_cons]
      rfl

end FrameworkHacks.ECTool
