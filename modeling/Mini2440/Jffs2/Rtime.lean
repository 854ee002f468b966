import Mathlib.Logic.Function.Basic
import Mini2440.Library.While
import Mini2440.Library.Words

/-!
# The rtime compressor of JFFS2

`fs/jffs2/compr_rtime.c`. A byte is sent together with the number of bytes after it that repeat what
followed the last occurrence of the same value. Both sides keep a table of the last occurrences. A
buffer is a part of the memory, addressed from its beginning.
-/

namespace Mini2440.Jffs2

open BitVec Function Library

/-! ## The compressor -/

/-- The conversion of a position to `short`. -/
def short (n : Nat) : Int := (BitVec.ofNat 16 n).toInt

variable {data out page : Int → Byte} {len n : Nat} {sourcelen dstlen : Word}
  {s f : Encoder} {d : Decoder}

section Copy

variable {o b i : Int} (hb : 0 ≤ b) (hpage : ∀ i, 0 ≤ i → i < o → page i = data i)
  (hrun : ∀ j : Nat, j < n → data (o + j) = data (b + j)) (hi : 0 ≤ i) (hlt : i < o + n)

include hb hpage hrun hi hlt

end Copy

/-! ## Both sides in step -/

end Mini2440.Jffs2
