/-! The three representations of a node of the search tree. -/

namespace BranchCutPrice

/-- A leaf is unsolved, a fork is solved and only added rows to the relaxation of
its parent, a subroot is solved and stores its complete row list. -/
inductive NodeKind where
  | leaf
  | fork
  | subroot
  deriving DecidableEq, Repr

def NodeKind.text : NodeKind → String
  | .leaf => "Leaf"
  | .fork => "Fork"
  | .subroot => "Subroot"

end BranchCutPrice
