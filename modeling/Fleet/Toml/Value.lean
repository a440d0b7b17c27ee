import Fleet.Binary64.Basic

/-!
# TOML values

What a TOML document is made of. A table is the list of its entries in the order in which their keys
first occur; no key repeats. A date or time is kept as it is written, since nothing here computes
with one.
-/

set_option autoImplicit false

namespace Fleet.Toml

inductive Value where
  | text (s : String)
  | integer (n : Int)
  | float (x : Binary64)
  | boolean (b : Bool)
  | moment (written : String)
  | array (items : List Value)
  | table (entries : List (String × Value))

end Fleet.Toml
