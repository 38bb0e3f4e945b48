/-!
# Opcodes

An opcode is a byte. The assigned bytes and their mnemonics are given as one
list, so that the mnemonic of a byte and the byte of a mnemonic come from the
same rows. Only the bytes from PUSH1 to PUSH32 carry an operand, as many bytes
as the number in their mnemonic.
-/

namespace BytecodeListing

namespace Opcode

def stop : UInt8 := 0x00

def jump : UInt8 := 0x56

def jumpdest : UInt8 := 0x5b

def push0 : UInt8 := 0x5f

def push32 : UInt8 := 0x7f

def return_ : UInt8 := 0xf3

def revert : UInt8 := 0xfd

def invalid : UInt8 := 0xfe

/-- The opcodes after which execution does not simply go on with the next
byte. -/
def terminating : List UInt8 :=
  [jump, stop, revert, return_, invalid]

/-- Whether what follows the opcode is unreachable without a jump. -/
def isTerminating (b : UInt8) : Bool :=
  terminating.contains b

/-- Whether the opcode belongs to the PUSH family, PUSH0 included. -/
def isPush (b : UInt8) : Bool :=
  push0 ≤ b && b ≤ push32

/-- The number of operand bytes that follow the opcode. -/
def width (b : UInt8) : Nat :=
  if push0 ≤ b ∧ b ≤ push32 then b.toNat - push0.toNat else 0

/-- The rows of a numbered family: `count` consecutive bytes from `first`,
named by `stem` and the numbers from `start` on. -/
def family (first : UInt8) (stem : String) (start count : Nat) :
    List (UInt8 × String) :=
  (List.range count).map fun i =>
    (first + UInt8.ofNat i, stem ++ toString (start + i))

/-- The assigned bytes with their mnemonics, in the order of the bytes. -/
def assigned : List (UInt8 × String) :=
  [ (0x00, "STOP"), (0x01, "ADD"), (0x02, "MUL"), (0x03, "SUB"),
    (0x04, "DIV"), (0x05, "SDIV"), (0x06, "MOD"), (0x07, "SMOD"),
    (0x08, "ADDMOD"), (0x09, "MULMOD"), (0x0a, "EXP"), (0x0b, "SIGNEXTEND"),
    (0x10, "LT"), (0x11, "GT"), (0x12, "SLT"), (0x13, "SGT"),
    (0x14, "EQ"), (0x15, "ISZERO"), (0x16, "AND"), (0x17, "OR"),
    (0x18, "XOR"), (0x19, "NOT"), (0x1a, "BYTE"), (0x1b, "SHL"),
    (0x1c, "SHR"), (0x1d, "SAR"),
    (0x20, "KECCAK256"),
    (0x30, "ADDRESS"), (0x31, "BALANCE"), (0x32, "ORIGIN"),
    (0x33, "CALLER"), (0x34, "CALLVALUE"), (0x35, "CALLDATALOAD"),
    (0x36, "CALLDATASIZE"), (0x37, "CALLDATACOPY"), (0x38, "CODESIZE"),
    (0x39, "CODECOPY"), (0x3a, "GASPRICE"), (0x3b, "EXTCODESIZE"),
    (0x3c, "EXTCODECOPY"), (0x3d, "RETURNDATASIZE"),
    (0x3e, "RETURNDATACOPY"), (0x3f, "EXTCODEHASH"),
    (0x40, "BLOCKHASH"), (0x41, "COINBASE"), (0x42, "TIMESTAMP"),
    (0x43, "NUMBER"), (0x44, "PREVRANDAO"), (0x45, "GASLIMIT"),
    (0x46, "CHAINID"), (0x47, "SELFBALANCE"), (0x48, "BASEFEE"),
    (0x49, "BLOBHASH"), (0x4a, "BLOBBASEFEE"),
    (0x50, "POP"), (0x51, "MLOAD"), (0x52, "MSTORE"), (0x53, "MSTORE8"),
    (0x54, "SLOAD"), (0x55, "SSTORE"), (0x56, "JUMP"), (0x57, "JUMPI"),
    (0x58, "PC"), (0x59, "MSIZE"), (0x5a, "GAS"), (0x5b, "JUMPDEST"),
    (0x5c, "TLOAD"), (0x5d, "TSTORE"), (0x5e, "MCOPY") ] ++
  family 0x5f "PUSH" 0 33 ++
  family 0x80 "DUP" 1 16 ++
  family 0x90 "SWAP" 1 16 ++
  family 0xa0 "LOG" 0 5 ++
  [ (0xf0, "CREATE"), (0xf1, "CALL"), (0xf2, "CALLCODE"), (0xf3, "RETURN"),
    (0xf4, "DELEGATECALL"), (0xf5, "CREATE2"), (0xfa, "STATICCALL"),
    (0xfd, "REVERT"), (0xfe, "INVALID"), (0xff, "SELFDESTRUCT") ]

/-- The mnemonic of an assigned byte. -/
def name? (b : UInt8) : Option String :=
  assigned.lookup b

end Opcode

end BytecodeListing
