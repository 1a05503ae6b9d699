/-!
# TailLisp.Text.Ranges

Membership in a set of code points. A small set is given by **inclusive ranges**. The large
character classes of this folder are given by the **lengths of runs**: so many code points from 0 on
are outside of the set, the next so many are inside, and so on in turn.
-/

namespace TailLisp.Text

/-- Does one of the ranges hold `n`? -/
def inRanges (ranges : List (Nat × Nat)) (n : Nat) : Bool :=
  ranges.any fun r => r.1 ≤ n && n ≤ r.2

/-- Does a run that is inside of the set hold `n`? The first run is outside. -/
def inRuns (runs : List Nat) (n : Nat) : Bool := go false runs n
where
  go : Bool → List Nat → Nat → Bool
    | _, [], _ => false
    | inside, run :: runs, n => if n < run then inside else go (!inside) runs (n - run)

end TailLisp.Text
