/-!
# Derivation policies

A policy says what a derivation returns once no rule applies any more. Its version names the policy
in records.
-/

namespace TripleGrammar

/-- What a derivation returns. -/
structure Policy where
  /-- The name of the policy in records. -/
  version : String := "translation_policy_v1"
  /-- Whether the host is pruned, as seen from the domain that is written. -/
  prune : Bool := true
deriving DecidableEq

namespace Policy

def unpruned : Policy := { prune := false }

end Policy

end TripleGrammar
