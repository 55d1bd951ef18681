/-! Lists of names without repetition, in the order in which the names came first. -/
namespace CallLineage

def appendNew (names : List String) (name : String) : List String :=
  if names.contains name then names else names ++ [name]

end CallLineage
