/-!
# Hexadecimal text

Bytes are written as two lower-case digits each, high half first, so leading
zero bytes keep their digits. Offsets are written with at least four digits.
Reading takes digits of either case and works on bytes rather than characters,
so that a misread byte can be named by its place in the encoded text.

A written sequence has two digits for every byte (`length_ofBytes`), and the
pairs read first stand in front of those read later (`toList_readPairs`).
-/

namespace BytecodeListing

namespace Hex

/-- The two digits of a byte, high half first. -/
def ofByte (b : UInt8) : List Char :=
  [Nat.digitChar (b.toNat / 16), Nat.digitChar (b.toNat % 16)]

/-- The digits of a byte sequence, two for every byte. -/
def ofBytes (bytes : List UInt8) : List Char :=
  bytes.flatMap ofByte

/-- An offset in a listing: at least four digits, more when it needs them. -/
def ofOffset (n : Nat) : List Char :=
  (Nat.toDigits 16 n).leftpad 4 '0'

/-- The value of a byte that is an ASCII digit of either case. -/
def value? (b : UInt8) : Option Nat :=
  if 0x30 ≤ b ∧ b ≤ 0x39 then some (b.toNat - 0x30)
  else if 0x41 ≤ b ∧ b ≤ 0x46 then some (b.toNat - 0x37)
  else if 0x61 ≤ b ∧ b ≤ 0x66 then some (b.toNat - 0x57)
  else none

/-- Whether a byte is an ASCII digit of either case. -/
def isDigit (b : UInt8) : Bool :=
  (value? b).isSome

/-- The value of a byte, zero where it is no digit. -/
def value (b : UInt8) : Nat :=
  (value? b).getD 0

/-- Reads digits two by two behind the bytes already read. A last digit
without a partner is left out. -/
def readPairs (read : Array UInt8) : List UInt8 → Array UInt8
  | high :: low :: rest =>
      readPairs (read.push (UInt8.ofNat (16 * value high + value low))) rest
  | _ => read

/-- Why a text is not a sequence of bytes. -/
inductive Fault where
  /-- The digits do not pair up. -/
  | oddLength
  /-- The byte at this position is no digit. -/
  | badByte (byte : UInt8) (position : Nat)
  deriving DecidableEq, Repr

/-- Reads a byte sequence from its digits. The length is judged first, then the
first byte that is no digit is reported. -/
def read (digits : List UInt8) : Except Fault (List UInt8) :=
  if digits.length % 2 = 1 then
    .error .oddLength
  else
    match digits.findIdx? fun b => !isDigit b with
    | some i => .error (.badByte (digits.getD i 0) i)
    | none => .ok (readPairs #[] digits).toList

theorem readPairs_nil (read : Array UInt8) : readPairs read [] = read := rfl

theorem readPairs_cons_cons (read : Array UInt8) (high low : UInt8)
    (rest : List UInt8) :
    readPairs read (high :: low :: rest) =
      readPairs (read.push (UInt8.ofNat (16 * value high + value low))) rest :=
  rfl

/-- What was read before stays in front. -/
theorem toList_readPairs (read : Array UInt8) (digits : List UInt8) :
    (readPairs read digits).toList =
      read.toList ++ (readPairs #[] digits).toList := by
  match digits with
  | [] => simp [readPairs]
  | [_] => simp [readPairs]
  | high :: low :: rest =>
      rw [readPairs_cons_cons, readPairs_cons_cons, toList_readPairs,
        toList_readPairs (#[].push _)]
      simp

@[simp] theorem length_ofByte (b : UInt8) : (ofByte b).length = 2 := rfl

@[simp] theorem ofBytes_nil : ofBytes [] = [] := rfl

@[simp] theorem ofBytes_cons (b : UInt8) (bytes : List UInt8) :
    ofBytes (b :: bytes) = ofByte b ++ ofBytes bytes := rfl

@[simp] theorem ofBytes_append (a b : List UInt8) :
    ofBytes (a ++ b) = ofBytes a ++ ofBytes b := by
  simp [ofBytes]

theorem length_ofBytes (bytes : List UInt8) :
    (ofBytes bytes).length = 2 * bytes.length := by
  induction bytes with
  | nil => rfl
  | cons b bytes ih =>
      rw [ofBytes_cons, List.length_append, ih, length_ofByte,
        List.length_cons]
      omega

end Hex

end BytecodeListing
