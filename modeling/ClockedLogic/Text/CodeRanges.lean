/-!
Character classes are given by ranges of code points. The ranges of a class are in increasing
order and do not meet, so the search for a character ends at the first range past it.
-/

namespace ClockedLogic.Text

/-- Ranges of code points with both ends included. -/
abbrev CodeRanges := List (Nat × Nat)

namespace CodeRanges

/-- Every range has its ends in order and begins after the one before it ended. -/
def Increasing : CodeRanges → Prop
  | [] => True
  | [(low, high)] => low ≤ high
  | (low, high) :: (low', high') :: rest =>
    low ≤ high ∧ high < low' ∧ Increasing ((low', high') :: rest)

instance : DecidablePred Increasing := go
where
  /-- Decides range by range. -/
  go : (ranges : CodeRanges) → Decidable (Increasing ranges)
    | [] => .isTrue trivial
    | [(low, high)] => inferInstanceAs (Decidable (low ≤ high))
    | (low, high) :: (low', high') :: rest =>
      have := go ((low', high') :: rest)
      inferInstanceAs
        (Decidable (low ≤ high ∧ high < low' ∧ Increasing ((low', high') :: rest)))

def covers : CodeRanges → Nat → Bool
  | [], _ => false
  | (low, high) :: rest, code =>
    if code < low then false else decide (code ≤ high) || covers rest code

end CodeRanges

end ClockedLogic.Text
