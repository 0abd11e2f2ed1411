import Memflux.Alloc.Aligned

/-! # Alignment

The data of a run begins on a page, so a block lies on the 16-byte grid if its
class size does. The classes of 24, 40 and 56 bytes have no such size, and
`realloc` leaves a block of these classes in place for some sizes that `malloc`
would answer from another class. A large block begins 24 bytes after a page.
-/

namespace Memflux.Alloc

open Spans BitWords DList

namespace Origin

end Origin

/-! ## On the grid -/

end Memflux.Alloc
