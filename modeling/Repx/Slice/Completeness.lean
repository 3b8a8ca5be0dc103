import Repx.Slice.Authorship

/-! # Minimality and completeness of a slice

The operations that precede the orphaned outputs are emitted process by process.
Each of these processes is linked to the writer of an output path by a chain of
contents, and none of the contents an included process read is filtered out.
-/
namespace Repx.Slice
open ByteString Std Trace HashTables Worklist Canonical KeyedSort Sha256

section Attribution
variable (order : IterationOrder Traversal) (tables : ScanState)

end Attribution

end Repx.Slice
