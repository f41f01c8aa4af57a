import Monkey.Text.Quoted

/-!
# Reading UTF-8

A file is a list of bytes. `decodeUtf8` gives its characters, or says which run of bytes is none and why: a byte that
begins no character, a character that the end of the file cuts off, or one that another byte cuts off.
-/

namespace Monkey

/-- Why a run of bytes is no character. -/
inductive Utf8Problem where
  | start
  | continuation
  | cutOff
deriving DecidableEq

/-- A run of bytes that is no character. -/
structure Utf8Fault where
  problem : Utf8Problem
  /-- How many bytes stand before the run. -/
  offset : Nat
  /-- How many bytes the run has. -/
  length : Nat
  /-- The first byte of the run. -/
  first : Nat
deriving DecidableEq

/-- The words for a fault. -/
def Utf8Fault.message (f : Utf8Fault) : String :=
  let run :=
    if f.length = 1 then "byte 0x" ++ .ofList (Quoted.hex 2 f.first) ++ " in position " ++ toString f.offset
    else "bytes in position " ++ toString f.offset ++ "-" ++ toString (f.offset + f.length - 1)
  let reason :=
    match f.problem with
    | .start => "invalid start byte"
    | .continuation => "invalid continuation byte"
    | .cutOff => "unexpected end of data"
  "'utf-8' codec can't decode " ++ run ++ ": " ++ reason

/-- A character of several bytes of which some have been read. -/
structure PartialChar where
  first : Nat
  /-- How many bytes have been read. -/
  length : Nat
  /-- The bits that have been read. -/
  code : Nat
  /-- How many bytes are to follow the next one. -/
  owed : Nat
  /-- The least and the greatest byte that may come next. -/
  lo : Nat
  hi : Nat

/-- What the first byte of a character of several bytes says about the others. -/
def leadByte? (b : Nat) : Option PartialChar :=
  if 0xC2 ≤ b ∧ b ≤ 0xDF then some ⟨b, 1, b - 0xC0, 0, 0x80, 0xBF⟩
  else if 0xE0 ≤ b ∧ b ≤ 0xEF then
    some ⟨b, 1, b - 0xE0, 1, if b = 0xE0 then 0xA0 else 0x80, if b = 0xED then 0x9F else 0xBF⟩
  else if 0xF0 ≤ b ∧ b ≤ 0xF4 then
    some ⟨b, 1, b - 0xF0, 2, if b = 0xF0 then 0x90 else 0x80, if b = 0xF4 then 0x8F else 0xBF⟩
  else none

/-- The characters of some bytes that stand at an offset, perhaps in the midst of a character. -/
def decodeUtf8From (offset : Nat) : Option PartialChar → List Nat → Except Utf8Fault (List Char)
  | none, [] => .ok []
  | some p, [] => .error ⟨.cutOff, offset - p.length, p.length, p.first⟩
  | none, b :: bs =>
    if b < 0x80 then (Char.ofNat b :: ·) <$> decodeUtf8From (offset + 1) none bs
    else
      match leadByte? b with
      | none => .error ⟨.start, offset, 1, b⟩
      | some p => decodeUtf8From (offset + 1) (some p) bs
  | some p, b :: bs =>
    if p.lo ≤ b ∧ b ≤ p.hi then
      let code := 64 * p.code + (b - 0x80)
      if p.owed = 0 then (Char.ofNat code :: ·) <$> decodeUtf8From (offset + 1) none bs
      else decodeUtf8From (offset + 1) (some ⟨p.first, p.length + 1, code, p.owed - 1, 0x80, 0xBF⟩) bs
    else .error ⟨.continuation, offset - p.length, p.length, p.first⟩

/-- The characters of a file. -/
def decodeUtf8 (bytes : List UInt8) : Except Utf8Fault (List Char) :=
  decodeUtf8From 0 none (bytes.map UInt8.toNat)

end Monkey
