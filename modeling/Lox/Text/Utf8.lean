/-! Reading UTF-8. A first byte announces how many bytes follow and narrows what
the second byte may be, so that no character has two forms and none is a
surrogate or beyond the last code point. -/

namespace Lox.Text

inductive Utf8Problem where
  | invalidStart
  | invalidContinuation
  | unexpectedEnd
deriving DecidableEq, Repr

def Utf8Problem.message : Utf8Problem → String
  | invalidStart => "invalid start byte"
  | invalidContinuation => "invalid continuation byte"
  | unexpectedEnd => "unexpected end of data"

/-- What a first byte says of its character: its own bits, and the range of each
of the bytes that follow it. -/
structure Lead where
  bits : Nat
  following : List (Nat × Nat)

def anyContinuation : Nat × Nat := (0x80, 0xBF)

def lead? (byte : Nat) : Option Lead :=
  if byte < 0x80 then some ⟨byte, []⟩
  else if byte < 0xC2 then none
  else if byte < 0xE0 then some ⟨byte - 0xC0, [anyContinuation]⟩
  else if byte < 0xF0 then
    let second :=
      if byte = 0xE0 then (0xA0, 0xBF) else if byte = 0xED then (0x80, 0x9F) else anyContinuation
    some ⟨byte - 0xE0, [second, anyContinuation]⟩
  else if byte < 0xF5 then
    let second :=
      if byte = 0xF0 then (0x90, 0xBF) else if byte = 0xF4 then (0x80, 0x8F) else anyContinuation
    some ⟨byte - 0xF0, [second, anyContinuation, anyContinuation]⟩
  else none

/-- Takes the bytes that a first byte calls for. -/
def takeFollowing (bits : Nat) : List (Nat × Nat) → List Nat → Except Utf8Problem (Nat × List Nat)
  | [], rest => .ok (bits, rest)
  | _ :: _, [] => .error .unexpectedEnd
  | (first, last) :: ranges, byte :: rest =>
    if first ≤ byte && byte ≤ last then takeFollowing (bits * 64 + (byte - 0x80)) ranges rest
    else .error .invalidContinuation

/-- Reads characters, given at least as many rounds as there are bytes. -/
def decodeAll : Nat → List Nat → Except Utf8Problem (List Char)
  | 0, _ | _, [] => .ok []
  | n + 1, byte :: rest =>
    match lead? byte with
    | none => .error .invalidStart
    | some lead => do
      let (code, rest) ← takeFollowing lead.bits lead.following rest
      let chars ← decodeAll n rest
      pure (Char.ofNat code :: chars)

def decode (bytes : List Nat) : Except Utf8Problem (List Char) := decodeAll bytes.length bytes

end Lox.Text
