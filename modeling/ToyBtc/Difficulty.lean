import ToyBtc.Ledger
import ToyBtc.Mining
import ToyBtc.StandIn

/-!
# Difficulty of stored blocks

A new block is compared with the target its predecessor's header declares, not
with the chain's own target, and the target it declares itself is not checked.
The difficulty is met as long as blocks come from miners that start from a header
with the chain's target.
-/

namespace ToyBtc

variable [Crates]

end ToyBtc
