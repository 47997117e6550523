/-!
# Scripted results

The results of calls that are told in advance: a list that names the error of each call to come, or none.  Behind its
end every call succeeds.
-/

namespace Conduit

/-- The next of a list of results, and the others. -/
def nextResult {ε : Type} : List (Option ε) → Except ε Unit × List (Option ε)
  | [] => (.ok (), [])
  | none :: results => (.ok (), results)
  | some e :: results => (.error e, results)

end Conduit
