import Fleet.Clock
import Fleet.Text.Hex

/-!
# Object ids

A new document is named by twenty-four hexadecimal digits: twelve for the time at which it is made,
in milliseconds, and twelve drawn at random. Ids therefore sort by that time.
-/

set_option autoImplicit false

namespace Fleet

/-- The id of a document made at a time, with a number drawn from `2 ^ 48`. -/
def objectId (now : Millis) (draw : Nat) : String :=
  String.ofList (Text.Hex.word 12 now.toNat ++ Text.Hex.word 12 draw)

end Fleet
