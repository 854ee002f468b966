import Mathlib.Data.Nat.Notation

/-!
# Error numbers

The ones of `asm-generic/errno-base.h` and `asm-generic/errno.h` that the modelled functions return.
-/

namespace Mini2440

def ENOENT : Int := 2
def ENXIO : Int := 6
def EAGAIN : Int := 11
def ENOMEM : Int := 12
def EFAULT : Int := 14
def EBUSY : Int := 16
def EINVAL : Int := 22
def ERANGE : Int := 34
def EILSEQ : Int := 84
def ETIMEDOUT : Int := 110
def ECONNREFUSED : Int := 111

end Mini2440
