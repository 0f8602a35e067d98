import EvmAccess.Text.Numeral

/-!
# Opcodes

The instructions of the Ethereum virtual machine, with their effect on the height of the stack and
their names. Opcodes are ordered as they are declared, those of a family by their number.
-/

namespace EvmAccess

open Std

/-- An instruction of the machine, without its immediate operand. The number of a family is bounded
by its type: there are pushes of 0 to 32 bytes, copies and exchanges of 1 to 16 items, and events
with 0 to 4 topics. Where such a number is kept in a byte, there are more values, which are no
opcodes. -/
inductive Opcode where
  | stop
  | add
  | mul
  | sub
  | div
  | sdiv
  | mod
  | smod
  | addmod
  | mulmod
  | exp
  | signextend
  | lt
  | gt
  | slt
  | sgt
  | eq
  | iszero
  | and
  | or
  | xor
  | not
  | byte
  | shl
  | shr
  | sar
  | keccak256
  | address
  | balance
  | origin
  | caller
  | callvalue
  | calldataload
  | calldatasize
  | calldatacopy
  | codesize
  | codecopy
  | gasprice
  | extcodesize
  | extcodecopy
  | returndatasize
  | returndatacopy
  | extcodehash
  | blockhash
  | coinbase
  | timestamp
  | number
  | prevrandao
  | gaslimit
  | chainid
  | selfbalance
  | basefee
  | blobhash
  | blobbasefee
  | pop
  | mload
  | mstore
  | mstore8
  | sload
  | sstore
  | jump
  | jumpi
  | pc
  | msize
  | gas
  | jumpdest
  | tload
  | tstore
  | mcopy
  /-- Push an immediate of `width` bytes. -/
  | push (width : Fin 33)
  /-- Copy the item that lies `below` items under the top. -/
  | dup (below : Fin 16)
  /-- Exchange the top with the item that lies `below + 1` items under it. -/
  | swap (below : Fin 16)
  /-- Emit an event with `topics` topics. -/
  | log (topics : Fin 5)
  | create
  | call
  | callcode
  | ret
  | delegatecall
  | create2
  | staticcall
  | revert
  | invalid
  | selfdestruct
  deriving DecidableEq, Repr

namespace Opcode

/-- The opcodes that carry no number. -/
def fixed : List Opcode :=
  [.stop, .add, .mul, .sub, .div, .sdiv, .mod, .smod, .addmod, .mulmod, .exp, .signextend, .lt,
   .gt, .slt, .sgt, .eq, .iszero, .and, .or, .xor, .not, .byte, .shl, .shr, .sar, .keccak256,
   .address, .balance, .origin, .caller, .callvalue, .calldataload, .calldatasize, .calldatacopy,
   .codesize, .codecopy, .gasprice, .extcodesize, .extcodecopy, .returndatasize, .returndatacopy,
   .extcodehash, .blockhash, .coinbase, .timestamp, .number, .prevrandao, .gaslimit, .chainid,
   .selfbalance, .basefee, .blobhash, .blobbasefee, .pop, .mload, .mstore, .mstore8, .sload,
   .sstore, .jump, .jumpi, .pc, .msize, .gas, .jumpdest, .tload, .tstore, .mcopy, .create, .call,
   .callcode, .ret, .delegatecall, .create2, .staticcall, .revert, .invalid, .selfdestruct]

/-- An opcode carries no number or belongs to a family. -/
theorem mem_fixed_or (o : Opcode) : o ∈ fixed ∨ (∃ width, o = .push width) ∨
    (∃ below, o = .dup below) ∨ (∃ below, o = .swap below) ∨ ∃ topics, o = .log topics := by
  cases o with
  | push width | dup below | swap below | log topics => simp
  | _ => exact Or.inl (by decide)

/-! ### Order -/

/-- All opcodes, in the order of their declaration. The families with a number stand before
`create`. -/
def all : List Opcode :=
  fixed.takeWhile (· ≠ .create) ++ (List.finRange 33).map .push ++ (List.finRange 16).map .dup ++
    (List.finRange 16).map .swap ++ (List.finRange 5).map .log ++ fixed.dropWhile (· ≠ .create)

theorem mem_all (o : Opcode) : o ∈ all := by
  rcases mem_fixed_or o with h | ⟨width, rfl⟩ | ⟨below, rfl⟩ | ⟨below, rfl⟩ | ⟨topics, rfl⟩
  · rw [← List.takeWhile_append_dropWhile (p := fun o => o ≠ .create) (l := fixed)] at h
    rcases List.mem_append.1 h with h | h <;> simp only [all, List.mem_append, h, true_or, or_true]
  all_goals simp [all, List.mem_finRange]

/-- The number by which opcodes are ordered. -/
def rank (o : Opcode) : Nat := all.idxOf o

theorem getElem?_rank (o : Opcode) : all[o.rank]? = some o := by
  have hlt : all.idxOf o < all.length := List.idxOf_lt_length_of_mem (mem_all o)
  rw [rank, List.getElem?_eq_getElem hlt, List.getElem_idxOf hlt]

theorem rank_injective {o p : Opcode} (h : o.rank = p.rank) : o = p := by
  have hsame : some o = some p := by rw [← getElem?_rank o, h, getElem?_rank p]
  exact Option.some.inj hsame

instance : Ord Opcode := ⟨compareOn rank⟩

instance : TransOrd Opcode := inferInstanceAs (TransCmp (compareOn rank))

instance : LawfulEqOrd Opcode where
  compare_self {o} := by
    change compare o.rank o.rank = .eq
    simp
  eq_of_compare {o p} h := by
    change compare o.rank p.rank = .eq at h
    exact rank_injective (LawfulEqCmp.eq_of_compare h)

/-! ### Effect on the stack -/

/-- The number of stack items consumed, and the number produced. -/
def stackEffect : Opcode → Nat × Nat
  | .stop | .jumpdest | .invalid => (0, 0)
  | .add | .mul | .sub | .div | .sdiv | .mod | .smod | .exp | .signextend | .lt | .gt | .slt |
    .sgt | .eq | .and | .or | .xor | .byte | .shl | .shr | .sar | .keccak256 => (2, 1)
  | .addmod | .mulmod | .create => (3, 1)
  | .iszero | .not | .balance | .calldataload | .extcodesize | .extcodehash | .blockhash |
    .blobhash | .mload | .sload | .tload => (1, 1)
  | .address | .origin | .caller | .callvalue | .calldatasize | .codesize | .gasprice |
    .returndatasize | .coinbase | .timestamp | .number | .prevrandao | .gaslimit | .chainid |
    .selfbalance | .basefee | .blobbasefee | .pc | .msize | .gas => (0, 1)
  | .calldatacopy | .codecopy | .returndatacopy | .mcopy => (3, 0)
  | .extcodecopy => (4, 0)
  | .pop | .jump | .selfdestruct => (1, 0)
  | .mstore | .mstore8 | .sstore | .jumpi | .tstore | .ret | .revert => (2, 0)
  | .call | .callcode => (7, 1)
  | .delegatecall | .staticcall => (6, 1)
  | .create2 => (4, 1)
  | .push _ => (0, 1)
  | .dup below => (below + 1, below + 2)
  | .swap below => (below + 2, below + 2)
  | .log topics => (topics + 2, 0)

/-- The number of stack items consumed. -/
def pops (o : Opcode) : Nat := o.stackEffect.1

/-- The number of stack items produced. -/
def pushes (o : Opcode) : Nat := o.stackEffect.2

/-- Whether the opcode ends the execution of the current call. -/
def isHalting : Opcode → Bool
  | .stop | .ret | .revert | .selfdestruct | .invalid => true
  | _ => false

/-! ### Names -/

/-- The name of an opcode, without its number. -/
def mnemonic : Opcode → String
  | .stop => "STOP"
  | .add => "ADD"
  | .mul => "MUL"
  | .sub => "SUB"
  | .div => "DIV"
  | .sdiv => "SDIV"
  | .mod => "MOD"
  | .smod => "SMOD"
  | .addmod => "ADDMOD"
  | .mulmod => "MULMOD"
  | .exp => "EXP"
  | .signextend => "SIGNEXTEND"
  | .lt => "LT"
  | .gt => "GT"
  | .slt => "SLT"
  | .sgt => "SGT"
  | .eq => "EQ"
  | .iszero => "ISZERO"
  | .and => "AND"
  | .or => "OR"
  | .xor => "XOR"
  | .not => "NOT"
  | .byte => "BYTE"
  | .shl => "SHL"
  | .shr => "SHR"
  | .sar => "SAR"
  | .keccak256 => "KECCAK256"
  | .address => "ADDRESS"
  | .balance => "BALANCE"
  | .origin => "ORIGIN"
  | .caller => "CALLER"
  | .callvalue => "CALLVALUE"
  | .calldataload => "CALLDATALOAD"
  | .calldatasize => "CALLDATASIZE"
  | .calldatacopy => "CALLDATACOPY"
  | .codesize => "CODESIZE"
  | .codecopy => "CODECOPY"
  | .gasprice => "GASPRICE"
  | .extcodesize => "EXTCODESIZE"
  | .extcodecopy => "EXTCODECOPY"
  | .returndatasize => "RETURNDATASIZE"
  | .returndatacopy => "RETURNDATACOPY"
  | .extcodehash => "EXTCODEHASH"
  | .blockhash => "BLOCKHASH"
  | .coinbase => "COINBASE"
  | .timestamp => "TIMESTAMP"
  | .number => "NUMBER"
  | .prevrandao => "PREVRANDAO"
  | .gaslimit => "GASLIMIT"
  | .chainid => "CHAINID"
  | .selfbalance => "SELFBALANCE"
  | .basefee => "BASEFEE"
  | .blobhash => "BLOBHASH"
  | .blobbasefee => "BLOBBASEFEE"
  | .pop => "POP"
  | .mload => "MLOAD"
  | .mstore => "MSTORE"
  | .mstore8 => "MSTORE8"
  | .sload => "SLOAD"
  | .sstore => "SSTORE"
  | .jump => "JUMP"
  | .jumpi => "JUMPI"
  | .pc => "PC"
  | .msize => "MSIZE"
  | .gas => "GAS"
  | .jumpdest => "JUMPDEST"
  | .tload => "TLOAD"
  | .tstore => "TSTORE"
  | .mcopy => "MCOPY"
  | .push _ => "PUSH"
  | .dup _ => "DUP"
  | .swap _ => "SWAP"
  | .log _ => "LOG"
  | .create => "CREATE"
  | .call => "CALL"
  | .callcode => "CALLCODE"
  | .ret => "RETURN"
  | .delegatecall => "DELEGATECALL"
  | .create2 => "CREATE2"
  | .staticcall => "STATICCALL"
  | .revert => "REVERT"
  | .invalid => "INVALID"
  | .selfdestruct => "SELFDESTRUCT"

/-- The name of an opcode. -/
def render : Opcode → String
  | .push width => s!"PUSH{width.val}"
  | .dup below => s!"DUP{below.val + 1}"
  | .swap below => s!"SWAP{below.val + 1}"
  | .log topics => s!"LOG{topics.val}"
  | o => o.mnemonic

instance : ToString Opcode := ⟨render⟩

/-- The number after `stem` in a numbered name. -/
def number? (stem name : String) : Option Nat :=
  (stem.toList.isPrefixOf? name.toList).bind fun digits =>
    (Numeral.read 10 255 digits).toOption

/-- The opcode with a numbered name: the first family that fits, in the order `PUSH`, `DUP`,
`SWAP`, `LOG`. -/
def ofNumberedName? (name : String) : Option Opcode :=
  ((number? "PUSH" name).bind fun n => if h : n < 33 then some (.push ⟨n, h⟩) else none) <|>
  ((number? "DUP" name).bind fun n =>
    if h : 1 ≤ n ∧ n - 1 < 16 then some (.dup ⟨n - 1, h.2⟩) else none) <|>
  ((number? "SWAP" name).bind fun n =>
    if h : 1 ≤ n ∧ n - 1 < 16 then some (.swap ⟨n - 1, h.2⟩) else none) <|>
  ((number? "LOG" name).bind fun n => if h : n < 5 then some (.log ⟨n, h⟩) else none)

/-- Names that are no longer in use. -/
def aliases : List (String × Opcode) :=
  [("SHA3", .keccak256), ("DIFFICULTY", .prevrandao), ("ASSERTFAIL", .invalid)]

/-- The opcode with the given name. -/
def ofName? (name : String) : Option Opcode :=
  aliases.lookup name <|> fixed.find? (·.mnemonic = name) <|> ofNumberedName? name

end Opcode

end EvmAccess
