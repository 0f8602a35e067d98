import EvmAccess.Evm.Error
import EvmAccess.Evm.Opcode
import EvmAccess.Text.Blank

/-!
# Instructions

A disassembled instruction is an opcode with an optional operand, which is kept as text. Two kinds
of operand mean something here: the immediate of a push, in hexadecimal, and the address that the
disassembler has written behind a memory load or store, in decimal.
-/

namespace EvmAccess

/-- A disassembled instruction. -/
structure Instruction where
  /-- What it does. -/
  opcode : Opcode
  /-- The operand, as text. -/
  operand : Option String
  deriving DecidableEq, Repr

namespace Instruction

/-- The instruction as text. -/
def render (i : Instruction) : String :=
  match i.operand with
  | none => i.opcode.render
  | some operand => s!"{i.opcode.render} {operand}"

instance : ToString Instruction := ⟨render⟩

/-- Read an opcode by its name. -/
def readOpcode (word : String) : Except CodeError Opcode :=
  match Opcode.ofName? word with
  | none => .error (.unknownOpcode word)
  | some o => .ok o

/-- Read an instruction: the first word names the opcode, the second, if there is one, is the
operand, and the rest is ignored. -/
def read (text : String) : Except CodeError Instruction :=
  let (name, rest) := takeWord text.toList
  let (operand, _) := takeWord rest
  match readOpcode (String.ofList name) with
  | .error e => .error e
  | .ok opcode =>
    .ok ⟨opcode, if operand.isEmpty then none else some (String.ofList operand)⟩

/-- The digits of a hexadecimal immediate: what follows `0x` or `0X`, or everything. -/
def hexDigits : List Char → List Char
  | '0' :: 'x' :: digits => digits
  | '0' :: 'X' :: digits => digits
  | digits => digits

/-- The value that a push puts on the stack, if it is known and fits 64 bits. -/
def pushValue? (i : Instruction) : Option Nat :=
  match i.opcode with
  | .push width =>
    if width = 0 then some 0
    else i.operand.bind fun operand =>
      (Numeral.read 16 Numeral.max64 (hexDigits operand.toList)).toOption
  | _ => none

/-- The address that is written behind a memory load or store. -/
def annotatedAddress? (i : Instruction) : Option Nat :=
  match i.opcode with
  | .mload | .mstore => i.operand.bind Numeral.read64?
  | _ => none

end Instruction

end EvmAccess
