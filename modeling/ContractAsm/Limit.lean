-- SUMMARY: Limits of conversion, and the failure at one of them.
/-!
# Limits of conversion

Integers are converted from and to decimal text only up to a fixed number of digits, and values
nest only as deep as the platform allows. Running into one of these limits is a failure of its own
kind, apart from every fault in the source.
-/

namespace ContractAsm

inductive Container where
  | array
  | object
  deriving DecidableEq, Repr

/-- A conversion that was refused for the size of its operand. -/
inductive Limit where
  /-- A numeral of this many digits was to be read as an integer. -/
  | numeral (digits : Nat)
  /-- An integer of too many digits was to be written. -/
  | integer
  /-- A container was entered too deep inside of others. -/
  | nesting (container : Container)
  deriving DecidableEq, Repr

namespace Limit

/-- The greatest number of decimal digits of an integer that is read or written. -/
def digits : Nat := 4300

def message : Limit → String
  | .numeral n =>
    s!"Exceeds the limit ({digits} digits) for integer string conversion: value has {n} digits; "
      ++ "use sys.set_int_max_str_digits() to increase the limit"
  | .integer =>
    s!"Exceeds the limit ({digits} digits) for integer string conversion; "
      ++ "use sys.set_int_max_str_digits() to increase the limit"
  | .nesting .array =>
    "maximum recursion depth exceeded while decoding a JSON array from a unicode string"
  | .nesting .object =>
    "maximum recursion depth exceeded while decoding a JSON object from a unicode string"

end Limit

end ContractAsm
