import LayeredConfig.Text.Hex

namespace LayeredConfig.Text.Utf8

inductive Reason
  | invalidStart
  | invalidContinuation
  | truncated
deriving DecidableEq, Repr

/-- The bytes at `start` up to and including `last` are no character. -/
structure Fault where
  start : Nat
  last : Nat
  lead : UInt8
  reason : Reason
deriving DecidableEq, Repr

/-- A sequence that has begun at `start` and still owes bytes, the next of them within `low` and
`high`. -/
structure Pending where
  start : Nat
  lead : UInt8
  value : Nat
  owed : Nat
  low : UInt8
  high : UInt8
deriving Repr

/-- What the first byte of a sequence of several bytes promises. The ranges for the second byte
leave out the overlong forms, the surrogates and what lies beyond the last code point. -/
def lead? (start : Nat) (b : UInt8) : Option Pending :=
  if 0xc2 ≤ b ∧ b ≤ 0xdf then some ⟨start, b, b.toNat - 0xc0, 1, 0x80, 0xbf⟩
  else if b = 0xe0 then some ⟨start, b, 0, 2, 0xa0, 0xbf⟩
  else if b = 0xed then some ⟨start, b, 0xd, 2, 0x80, 0x9f⟩
  else if 0xe1 ≤ b ∧ b ≤ 0xef then some ⟨start, b, b.toNat - 0xe0, 2, 0x80, 0xbf⟩
  else if b = 0xf0 then some ⟨start, b, 0, 3, 0x90, 0xbf⟩
  else if 0xf1 ≤ b ∧ b ≤ 0xf3 then some ⟨start, b, b.toNat - 0xf0, 3, 0x80, 0xbf⟩
  else if b = 0xf4 then some ⟨start, b, 4, 3, 0x80, 0x8f⟩
  else none

def Pending.fault (p : Pending) (next : Nat) (reason : Reason) : Fault :=
  ⟨p.start, next - 1, p.lead, reason⟩

def decodeFrom : Nat → Option Pending → List UInt8 → Except Fault (List Char)
  | _, none, [] => .ok []
  | n, some p, [] => .error (p.fault n .truncated)
  | n, none, b :: bs =>
      if b < 0x80 then (Char.ofNat b.toNat :: ·) <$> decodeFrom (n + 1) none bs
      else match lead? n b with
        | some p => decodeFrom (n + 1) (some p) bs
        | none => .error ⟨n, n, b, .invalidStart⟩
  | n, some p, b :: bs =>
      if b < p.low ∨ p.high < b then .error (p.fault n .invalidContinuation)
      else
        let value := 64 * p.value + (b.toNat - 0x80)
        if p.owed = 1 then (Char.ofNat value :: ·) <$> decodeFrom (n + 1) none bs
        else decodeFrom (n + 1) (some { p with value, owed := p.owed - 1, low := 0x80, high := 0xbf }) bs

def decode (bytes : List UInt8) : Except Fault (List Char) := decodeFrom 0 none bytes

def Reason.text : Reason → String
  | .invalidStart => "invalid start byte"
  | .invalidContinuation => "invalid continuation byte"
  | .truncated => "unexpected end of data"

def Fault.message (f : Fault) : String :=
  let byte := String.ofList (hexDigits 2 f.lead.toNat)
  let place :=
    if f.start = f.last then s!"byte 0x{byte} in position {f.start}"
    else s!"bytes in position {f.start}-{f.last}"
  s!"'utf-8' codec can't decode {place}: {f.reason.text}"

end LayeredConfig.Text.Utf8
