/-!
# Layers

A stack is named by the kinds of its layers, the outermost first.
-/

namespace Conduit

/-- What can be put on top of a source or a sink. -/
inductive Layer where
  | base64
  | cipher
deriving DecidableEq, Repr

end Conduit
