import Mathlib.Data.Int.Notation

/-!
# Error codes

The members of `enum errorcode` in `kernel/include/zelda_posix.h` that the modelled functions return,
negated.
-/

namespace ZeldaOS

def errGeneric : ℤ := 1
def errOutOfMemory : ℤ := 2
def errOutOfResource : ℤ := 3
def errInvalidArg : ℤ := 4
def errPartial : ℤ := 6
def errNotPresent : ℤ := 7
def errNotFound : ℤ := 8
def errNotSupported : ℤ := 9
def errBusy : ℤ := 10
def errExist : ℤ := 11
def errInterrupted : ℤ := 13

end ZeldaOS
