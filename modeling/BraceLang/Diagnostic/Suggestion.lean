/-! Suggestions for misspelt names: the candidate with the least edit distance, if it is near enough.
    Distances are computed row by row and given up as soon as they must exceed the limit. -/

namespace BraceLang.Suggestion

/-- The rest of a row of the distance table, for character `a` of the first word: `left` is the entry
    before it, and `above` the row before from that entry's column on. -/
def rowFrom (a : Char) : Nat → List Nat → List Char → List Nat
  | left, diagonal :: up :: above, b :: bs =>
    let cost := if a = b then 0 else 1
    let entry := min (min (up + 1) (left + 1)) (diagonal + cost)
    entry :: rowFrom a entry (up :: above) bs
  | _, _, _ => []

/-- The row after `above`, for one more character of the first word. Its first entry is the length of
    the first word up to that character. -/
def nextRow (a : Char) (length : Nat) (above : List Nat) (bs : List Char) : List Nat :=
  length :: rowFrom a length above bs

/-- The last row of the table, or nothing once a whole row exceeds the limit. -/
def lastRow? (limit : Nat) (bs : List Char) : List Char → Nat → List Nat → Option (List Nat)
  | [], _, row => some row
  | a :: as, length, row =>
    let row := nextRow a (length + 1) row bs
    if row.all (limit < ·) then none else lastRow? limit bs as (length + 1) row

/-- The number of insertions, deletions and substitutions that turn one word into the other, if it is
    within `limit`. -/
def boundedDistance (a b : String) (limit : Nat) : Option Nat :=
  let as := a.toList
  let bs := b.toList
  if limit < (as.length - bs.length) + (bs.length - as.length) then none
  else
    (lastRow? limit bs as 0 (List.range (bs.length + 1))).bind fun row =>
      row.getLast?.filter (· ≤ limit)

/-- The greatest distance of a suggestion, and the least length of one. -/
def reach : Nat := 2

/-- The distance of a candidate that may be suggested for `name`: long enough, near enough, and not the
    name itself. -/
def distance? (name candidate : String) : Option Nat :=
  if candidate.length < reach || candidate == name then none
  else boundedDistance name candidate reach

/-- Keeps the nearer of what was best so far and one more candidate; of two equally near, the first. -/
def nearer (name : String) (best : Option (String × Nat)) (candidate : String) :
    Option (String × Nat) :=
  match distance? name candidate, best with
  | none, _ => best
  | some d, none => some (candidate, d)
  | some d, some (_, least) => if d < least then some (candidate, d) else best

/-- The first of the nearest candidates that may be suggested. -/
def closest? (name : String) (candidates : List String) : Option String :=
  (candidates.foldl (nearer name) none).map (·.1)

/-- The question that puts the closest candidate to the user. -/
def question? (name : String) (candidates : List String) : Option String :=
  (closest? name candidates).map fun closest => s!"did you mean '{closest}'?"

end BraceLang.Suggestion
