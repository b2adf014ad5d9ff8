import Std.Data.ExtTreeSet

/-!
# KernelTyping.NameSet — finite sets of names

Names are ordered by code points, which is also the order in which a set lists them.  Two sets with
the same members are equal.
-/

namespace KernelTyping

/-- A set of names. -/
abbrev NameSet := Std.ExtTreeSet String

end KernelTyping
