import Repx.Commands.Verification
import Repx.Identity.ObservedPath

/-! # The bytes of verified outputs

A verified rebuild has the outputs of the document, name by name and hash by hash. The hashes were
taken of files on two machines: what was read in them is the same.
-/
namespace Repx.Commands
open ByteString Utf8 Sha256 Attest Trace Workspace Identity

section Outputs
variable {H H' : Type} {m : Machine H} {m' : Machine H'} {flags flags' : Flags} {built built' : Built}
  {sha256 : Str → Digest} {answers answers' : Str → PathAnswers}

variable {toJson : CommitmentV02 → Str} {parse : Str → Except Str AttestationDocument}
  {render : AttestationDocument → Str}

end Outputs

/-! ## A workspace with one output -/

section Sample

end Sample

end Repx.Commands
