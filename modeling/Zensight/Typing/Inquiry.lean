import Zensight.Types.Ty

/-!
# Inquiries

Finding the type of a node takes the types of other nodes. An inquiry is a
computation that may ask for them, and nothing else: it is either answered, or
asks for the type of one node and goes on from there. Who answers is left open,
so that the rules of typing can be stated apart from the guard that keeps them
from asking in circles, and what a computation asks for can be talked about.
-/

namespace Zensight

/-- A computation that may ask for the types of nodes. -/
inductive Inquiry (α : Type) where
  | answer (a : α)
  | ask (n : NodeRef) (next : Ty → Inquiry α)

namespace Inquiry

/-- Goes on with the answer of an inquiry. -/
def bind {α β : Type} : Inquiry α → (α → Inquiry β) → Inquiry β
  | answer a, f => f a
  | ask n next, f => ask n fun t => (next t).bind f

instance : Monad Inquiry where
  pure := answer
  bind := bind

/-- Asks for the type of a node. -/
def typeOf (n : NodeRef) : Inquiry Ty := ask n answer

/-- The answer of an inquiry when `types` tells the types of nodes. -/
def run {α : Type} (types : NodeRef → Ty) : Inquiry α → α
  | answer a => a
  | ask n next => (next (types n)).run types

/-- The nodes an inquiry asks for, in order, when `types` tells their types. -/
def asked {α : Type} (types : NodeRef → Ty) : Inquiry α → List NodeRef
  | answer _ => []
  | ask n next => n :: (next (types n)).asked types

end Inquiry

end Zensight
