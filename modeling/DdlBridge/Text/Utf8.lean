import DdlBridge.Text.Basic

/-!
# UTF-8

Decoding byte by byte, with the place and the length of the first fault. A fault is as long as the
bytes that were accepted as the start of a character, and at least one byte.
-/

namespace DdlBridge.Text

def encode (cs : List Char) : List UInt8 := cs.flatMap String.utf8EncodeChar

theorem length_encode (cs : List Char) : (encode cs).length = width cs := by
  induction cs with
  | nil => rfl
  | cons c cs ih => simp [encode, ← ih]

namespace Utf8

/-- Where decoding stops; `length` is absent when the text ends inside a character. -/
structure Fault where
  index : Nat
  length : Option Nat
  deriving DecidableEq, Repr

def Fault.message (f : Fault) : String :=
  match f.length with
  | some n => s!"invalid utf-8 sequence of {n} bytes from index {f.index}"
  | none => s!"incomplete utf-8 byte sequence from index {f.index}"

structure State where
  /-- Decoded so far, last first. -/
  chars : List Char := []
  /-- Bytes read. -/
  index : Nat := 0
  /-- Where the character in progress starts. -/
  start : Nat := 0
  /-- Its code point so far. -/
  value : Nat := 0
  /-- Continuation bytes it still lacks. -/
  owed : Nat := 0
  /-- Bounds on the next of them. -/
  low : Nat := 0x80
  high : Nat := 0xBF

/-- For a lead byte: its bits, the continuation bytes it asks for, and bounds on the first. -/
def lead? (b : Nat) : Option (Nat × Nat × Nat × Nat) :=
  if 0xC2 ≤ b ∧ b ≤ 0xDF then some (b - 0xC0, 1, 0x80, 0xBF)
  else if b = 0xE0 then some (0, 2, 0xA0, 0xBF)
  else if b = 0xED then some (0xD, 2, 0x80, 0x9F)
  else if 0xE1 ≤ b ∧ b ≤ 0xEF then some (b - 0xE0, 2, 0x80, 0xBF)
  else if b = 0xF0 then some (0, 3, 0x90, 0xBF)
  else if 0xF1 ≤ b ∧ b ≤ 0xF3 then some (b - 0xF0, 3, 0x80, 0xBF)
  else if b = 0xF4 then some (4, 3, 0x80, 0x8F)
  else none

def State.step (s : State) (byte : UInt8) : Except Fault State :=
  let b := byte.toNat
  match s.owed with
  | 0 =>
    if b < 0x80 then .ok { s with chars := Char.ofNat b :: s.chars, index := s.index + 1 }
    else match lead? b with
      | some (value, owed, low, high) =>
        .ok { s with index := s.index + 1, start := s.index, value, owed, low, high }
      | none => .error ⟨s.index, some 1⟩
  | owed + 1 =>
    if s.low ≤ b ∧ b ≤ s.high then
      let value := s.value * 64 + (b - 0x80)
      let s := { s with index := s.index + 1, value, owed, low := 0x80, high := 0xBF }
      .ok (if owed = 0 then { s with chars := Char.ofNat value :: s.chars } else s)
    else .error ⟨s.start, some (s.index - s.start)⟩

def decode (bytes : List UInt8) : Except Fault (List Char) := do
  let s ← bytes.foldlM State.step {}
  if s.owed = 0 then return s.chars.reverse else throw ⟨s.start, none⟩

end Utf8

end DdlBridge.Text
