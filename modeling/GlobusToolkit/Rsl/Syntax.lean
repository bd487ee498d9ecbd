/-
Trees of the resource specification language (gram/rsl/source/globus_rsl.h, globus_rsl.c): relations of an attribute
with a sequence of values, and booleans over them. `globus_rsl_unparse` prints a tree.
-/
import GlobusToolkit.Lib.CString

namespace Globus

open Lib

/-- The operators of a boolean. -/
inductive RslBoolOp where
  | and
  | or
  | multireq
  deriving DecidableEq, Repr

/-- The operators of a relation. -/
inductive RslRelOp where
  | eq
  | neq
  | gt
  | gteq
  | lt
  | lteq
  deriving DecidableEq, Repr

/-- `globus_rsl_value_t`. A variable reference holds the sequence of its name and its default. -/
inductive RslValue where
  | literal (string : List Char)
  | sequence (valueList : List RslValue)
  | var (sequence : RslValue)
  | concatenation (left right : RslValue)
  deriving Repr

/-- `globus_rsl_t`. -/
inductive Rsl where
  | boolean (op : RslBoolOp) (operandList : List Rsl)
  | relation (op : RslRelOp) (attributeName : List Char) (valueSequence : RslValue)
  deriving Repr

/-! ## Accessors -/

namespace RslValue

/-- `globus_rsl_value_is_sequence`. -/
def isSequence : RslValue → Bool
  | .sequence _ => true
  | _ => false

/-- `globus_rsl_value_literal_get_string`. -/
def literalGetString : RslValue → Option (List Char)
  | .literal s => some s
  | _ => none

/-- `globus_rsl_value_sequence_get_value_list`. -/
def sequenceGetValueList : RslValue → List RslValue
  | .sequence vs => vs
  | _ => []

/-- `globus_rsl_value_variable_get_name`, of the sequence of the reference. -/
def variableGetName (sequence : RslValue) : Option (List Char) :=
  sequence.sequenceGetValueList.head?.bind literalGetString

/-- `globus_rsl_value_variable_get_default`, of the sequence of the reference. -/
def variableGetDefault (sequence : RslValue) : Option (List Char) :=
  (sequence.sequenceGetValueList)[1]?.bind literalGetString

/-- `globus_rsl_value_variable_get_size`, of the sequence of the reference. -/
def variableGetSize (sequence : RslValue) : Nat := sequence.sequenceGetValueList.length

end RslValue

/-- `globus_rsl_boolean_get_operand_list`. -/
def Rsl.booleanGetOperandList : Rsl → List Rsl
  | .boolean _ ts => ts
  | .relation .. => []

/-- `globus_rsl_is_relation_attribute_equal`. -/
def Rsl.isRelationAttributeEqual (attr : List Char) : Rsl → Bool
  | .relation _ name _ => name.map Char.toLower = attr.map Char.toLower
  | .boolean .. => false

mutual

/-- The value has a variable or a concatenation somewhere. -/
def RslValue.hasReference : RslValue → Bool
  | .literal _ => false
  | .sequence vs => anyReference vs
  | .var _ => true
  | .concatenation _ _ => true

def RslValue.anyReference : List RslValue → Bool
  | [] => false
  | v :: vs => v.hasReference || anyReference vs

end

/-! ## Printing -/

/-- `globus_i_rsl_unparse_string_literal_to_fifo`. -/
def unparseStringLiteral (s : List Char) : List Char :=
  '"' :: (s.flatMap fun c => if c = '"' then ['"', '"'] else [c]) ++ ['"']

def RslBoolOp.unparse : RslBoolOp → List Char
  | .multireq => ['+']
  | .and => ['&']
  | .or => ['|']

def RslRelOp.unparse : RslRelOp → List Char
  | .eq => ['=']
  | .neq => ['!', '=']
  | .gt => ['>']
  | .gteq => ['>', '=']
  | .lt => ['<']
  | .lteq => ['<', '=']

mutual

/-- `globus_i_rsl_value_unparse_to_fifo`. -/
def RslValue.unparse : RslValue → Option (List Char)
  | .literal s => some (unparseStringLiteral s)
  | .sequence vs => do
    let values ← unparseValues vs
    return '(' :: values ++ [')']
  | .var seq => do
    let name ← seq.variableGetName
    let dflt := match seq.variableGetDefault with
      | some d => ' ' :: unparseStringLiteral d
      | none => []
    return '$' :: '(' :: unparseStringLiteral name ++ dflt ++ [')']
  | .concatenation l r => do
    let left ← l.unparse
    let right ← r.unparse
    return left ++ " # ".toList ++ right

/-- The loop over the values of a sequence. -/
def RslValue.unparseValues : List RslValue → Option (List Char)
  | [] => some []
  | v :: vs => do
    let value ← v.unparse
    let rest ← unparseValues vs
    return value ++ ' ' :: rest

end

mutual

/-- `globus_i_rsl_unparse_to_fifo`. -/
def Rsl.unparse : Rsl → Option (List Char)
  | .relation op attr seq => do
    let values ← RslValue.unparseValues seq.sequenceGetValueList
    return unparseStringLiteral attr ++ ' ' :: op.unparse ++ ' ' :: values
  | .boolean op ts => do
    let operands ← unparseOperands ts
    return op.unparse ++ operands

/-- The loop over the operands of a boolean. -/
def Rsl.unparseOperands : List Rsl → Option (List Char)
  | [] => some []
  | t :: ts => do
    let operand ← t.unparse
    let rest ← unparseOperands ts
    return '(' :: operand ++ ')' :: rest

end

end Globus
