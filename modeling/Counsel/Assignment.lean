/-
Joint assignments of values to named variables: the states and the actions of a decision problem.
-/
import Counsel.Value
import Counsel.NameMap

namespace Counsel

/-- Values under the names of variables. -/
abbrev Assignment := NameMap Value

namespace Assignment

/-- Both assignments together; `overlay` wins where both name a variable. -/
def merge (base overlay : Assignment) : Assignment := base.union overlay

end Assignment

end Counsel
