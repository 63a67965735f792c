import CallByNeed.Decimal.Positional
import CallByNeed.Text.Quoted

/-! # Values

Host data as the reducer sees it: a payload that is only ever passed on and compared by identity,
and native methods, whose code is known to the host alone.

The parameter `ν` is the host's type of codes of native methods.
-/

namespace CallByNeed
set_option autoImplicit false

inductive IntegerType where
  | i64 | i32 | u64 | u32 | usize | isize | i8 | u8 | u128
  deriving DecidableEq

/-- A host capability that can stand in operator position. -/
structure Native (ν : Type) where
  name : String
  code : ν

inductive Payload (ν : Type) where
  | integer (type : IntegerType) (value : Int)
  /-- A number of the 64 bit binary format, by its bits. -/
  | float64 (bits : UInt64)
  /-- A number of the 32 bit binary format, by its bits. -/
  | float32 (bits : UInt32)
  | bool (value : Bool)
  | char (value : Char)
  | unit
  /-- Text that the value owns. -/
  | text (value : String)
  /-- Text that the host program holds for ever. -/
  | constantText (value : String)
  | pair (first second : Int)
  | integers (values : List Int)
  | someText (value : String)
  | native (method : Native ν)

/-- What tells values apart: two values with one identity are the same object. Values built while
evaluations run are kept apart from those that the host supplies. -/
inductive Identity where
  | supplied (number : Nat)
  | built (number : Nat)
  deriving DecidableEq

structure Value (ν : Type) where
  identity : Identity
  payload : Payload ν

variable {ν : Type}

def IntegerType.name : IntegerType → String
  | .i64 => "i64"
  | .i32 => "i32"
  | .u64 => "u64"
  | .u32 => "u32"
  | .usize => "usize"
  | .isize => "isize"
  | .i8 => "i8"
  | .u8 => "u8"
  | .u128 => "u128"

/-- Whether integers of the type are printed in decimal. The others print as their type. -/
def IntegerType.isPrinted : IntegerType → Bool
  | .i64 | .i32 | .u64 | .u32 | .usize | .isize => true
  | .i8 | .u8 | .u128 => false

namespace Payload

def typeName : Payload ν → String
  | .integer type _ => type.name
  | .float64 _ => "f64"
  | .float32 _ => "f32"
  | .bool _ => "bool"
  | .char _ => "char"
  | .unit => "()"
  | .text _ => "alloc::string::String"
  | .constantText _ => "&str"
  | .pair _ _ => "(i64, i64)"
  | .integers _ => "alloc::vec::Vec<i64>"
  | .someText _ => "core::option::Option<alloc::string::String>"
  | .native _ => "NativeMethod"

/-- The name that a payload spells. Only text spells one. -/
def name? : Payload ν → Option String
  | .text value | .constantText value => some value
  | _ => none

def int64? : Payload ν → Option Int
  | .integer .i64 value => some value
  | _ => none

end Payload

def Native.display (method : Native ν) : String :=
  "#<native " ++ method.name ++ ">"

/-- How a payload is shown: text in quotes, numbers in decimal, a character as it is, and data
without a printed form by its type. -/
def Payload.display : Payload ν → String
  | .text value | .constantText value => Text.quoted value
  | .integer type value => if type.isPrinted then toString value else "#<" ++ type.name ++ ">"
  | .float64 bits => Decimal.BinaryFormat.double.text bits.toNat
  | .float32 bits => Decimal.BinaryFormat.single.text bits.toNat
  | .bool value => if value then "true" else "false"
  | .char value => value.toString
  | .native method => method.display
  | payload => "#<" ++ payload.typeName ++ ">"

namespace Value

def name? (value : Value ν) : Option String :=
  value.payload.name?

def isSame (first second : Value ν) : Bool :=
  first.identity == second.identity

def display (value : Value ν) : String :=
  value.payload.display

end Value
end CallByNeed
