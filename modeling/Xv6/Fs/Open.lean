import Xv6.Fs.Undo
/-!
# open that fails

`sys_open` with `O_CREATE` makes the file before it knows whether there is an
entry of the file table and a descriptor for it. Where there are both, or no file
is to be made, a call that returns -1 has changed no block.
-/

namespace Xv6.Fs

open Bytes Hoare Function List

/-! ## A new inode -/

section New
variable {sb : Superblock} {t : Table} {s s₀ s' : St} {k i dp d : Nat} {type : Int}

end New

/-! ## Files and descriptors -/

section Files
variable {sb : Superblock} {s : St} {E : Stop → St → Prop}

end Files

/-! ## sys_open -/

section Open
variable {sb : Superblock} {t : Table} {s : St} {c : Nat}

end Open

/-! ## A full file table -/

end Xv6.Fs
