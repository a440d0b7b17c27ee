import Fleet.Listing.SortValue

/-!
# Hosts

A process tells on which host it runs: the name of the machine and the address it has on the way out
of it. The system hands out the name as bytes with a zero byte behind them, into a room of 255
bytes; a longer name is not to be had at all, and a zero byte inside a name ends it. Where the name
is not to be had or not text, and where there is no way out, fixed words stand in.
-/

set_option autoImplicit false

namespace Fleet

structure HostIdentity where
  hostId : String
  hostAddress : String
deriving DecidableEq, Repr

/-- The bytes for which there is room in asking for a host name, the zero byte behind it included. -/
def hostNameRoom : Nat := 255

/-- The bytes that the system hands out for a host name, if there is room for it. -/
def hostNameBytes? (bytes : List UInt8) : Option (List UInt8) :=
  if bytes.length < hostNameRoom then some (bytes.takeWhile (· != 0)) else none

/-- The identity of a machine with a name in bytes and an address for the way out. -/
def HostIdentity.detect (hostName : Option (List UInt8)) (outbound : Option String) :
    HostIdentity where
  hostId := ((hostName.bind hostNameBytes?).bind ofUtf8?).getD "unknown"
  hostAddress := outbound.getD "127.0.0.1"

end Fleet
