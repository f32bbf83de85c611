import Mathlib.Data.Nat.Notation

/-!
# PCI addresses
-/

namespace Nexios

structure PciBdf where
  bus : UInt8
  device : UInt8
  function : UInt8
  deriving DecidableEq, Repr

def pciMaxBuses : ℕ := 256
def pciMaxDevices : ℕ := 32
def pciMaxFunctions : ℕ := 8

end Nexios
