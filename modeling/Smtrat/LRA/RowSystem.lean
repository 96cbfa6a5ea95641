import Smtrat.LRA.Bound

/-!
# The simplex tableau

A tableau variable is non-basic when it heads a column and basic otherwise.  A basic variable has
a row: its factor and its entries, ordered by the position of their columns.  The rows of the
active basic variables are those of `mRows`; the row of an inactive one is stored aside and may
mention variables that became basic, or inactive themselves, since it was stored.

The linked entries of a row are the list of its columns and contents, those of a column are the
rows that have an entry there, and the gaps which `compressRows` closes in `mRows` are left out.
-/

namespace Smtrat.LRA

open Combination Function

/-- The settings of the tableau in which the configurations of the module differ. -/
structure TableauSettings where
  use_refinement : Bool
  omit_division : Bool

def TableauSettings1 : TableauSettings := ⟨true, true⟩

def TableauSettings2 : TableauSettings := { TableauSettings1 with omit_division := false }

def TableauSettings3 : TableauSettings := { TableauSettings1 with use_refinement := false }

/-! ## Numbers -/

/-- `carl::gcd`. -/
def gcd (a b : ℚ) : ℚ := (a.num.natAbs.gcd b.num.natAbs : ℕ) / (a.den.lcm b.den : ℕ)

/-- `carl::lcm`. -/
def lcm (a b : ℚ) : ℚ := (a.num.natAbs.lcm b.num.natAbs : ℕ) / (a.den.gcd b.den : ℕ)

/-- The multipliers `ca` and `cb` by which a row with the given factor is added to `cb` times a
row that has the given content in its column.  Without divisions both rows are brought to the
least common multiple; with them the factor of every row is one. -/
def multipliers (omit_division : Bool) (content factor : ℚ) : ℚ × ℚ :=
  if omit_division then
    let l := lcm content factor
    let l := if content < 0 ∧ factor < 0 then -l else l
    (l / factor, l / content)
  else (content, 1)

/-- The greatest common divisor of the factor and the contents of a row, from the left until it
is one. -/
def rowGcd (row : Row VarId ℚ) : ℚ :=
  row.entries.foldl (fun g e => if g = 1 then g else gcd g e.2) |row.factor|

/-- A row divided by the greatest common divisor of its numbers. -/
def reduce (row : Row VarId ℚ) : Row VarId ℚ :=
  let g := rowGcd row
  if g = 1 then row
  else ⟨row.factor / g, row.entries.map fun e => (e.1, e.2 / g)⟩

/-! ## Rows and columns -/

/-- The variables of the tableau with their rows and columns. -/
structure RowSystem where
  /-- The id the next variable gets. -/
  nextId : ℕ
  /-- `mOriginal` -/
  isOriginal : VarId → Bool
  /-- `mInteger` -/
  isInteger : VarId → Bool
  /-- `mExpression` -/
  expression : VarId → LinearForm
  /-- `mFactor` with the entries of the row. -/
  row : VarId → Row VarId ℚ
  mRows : List VarId
  mColumns : List VarId
  mNonActiveBasics : List VarId
  mOriginalVars : Var → Option VarId
  mSlackVars : LinearForm → Option VarId

namespace RowSystem

variable (s : RowSystem)

def isBasic (v : VarId) : Bool := v ∉ s.mColumns

/-- The entry of the row of `v` in the column of `c`. -/
def content (v c : VarId) : Option ℚ := find c (s.row v).entries

/-- The rows that have an entry in the column of `c`, from the top. -/
def column (c : VarId) : List VarId := s.mRows.filter fun v => (s.content v c).isSome

/-- The order of the columns. -/
def before (c d : VarId) : Bool := s.mColumns.idxOf c < s.mColumns.idxOf d

/-- `Tableau::newNonbasicVariable`. -/
def newNonbasicVariable (x : Var) : VarId × RowSystem :=
  (s.nextId,
    { s with
      nextId := s.nextId + 1
      isOriginal := update s.isOriginal s.nextId true
      isInteger := update s.isInteger s.nextId x.isInteger
      expression := update s.expression s.nextId (.ofVar x)
      row := update s.row s.nextId ⟨1, []⟩
      mColumns := s.mColumns ++ [s.nextId]
      mOriginalVars := update s.mOriginalVars x (some s.nextId) })

/-- The variable of `mOriginalVars`, created when it is missing. -/
def originalVariable (x : Var) : VarId × RowSystem :=
  match s.mOriginalVars x with
  | some v => (v, s)
  | none => s.newNonbasicVariable x

/-- The entries of a new row: the variables of the terms with the coefficients' numerators. -/
def originalEntries : List (Var × ℚ) → RowSystem → List (VarId × ℚ) × RowSystem
  | [], s => ([], s)
  | t :: ts, s =>
    let (v, s) := s.originalVariable t.1
    let (es, s) := originalEntries ts s
    ((v, t.2.num) :: es, s)

/-- `Tableau::newBasicVariable`.  The new variable is inactive. -/
def newBasicVariable (p : LinearForm) (isInteger : Bool) : VarId × RowSystem :=
  let v := s.nextId
  let (es, s) := originalEntries p.terms { s with nextId := s.nextId + 1 }
  (v, { s with
    isOriginal := update s.isOriginal v false
    isInteger := update s.isInteger v isInteger
    expression := update s.expression v p
    row := update s.row v ⟨1, es⟩
    mNonActiveBasics := v :: s.mNonActiveBasics })

/-- What a constraint says of a tableau variable: its left-hand side is a multiple of the
difference of the variable and `boundValue`, a negative one if `negative`. -/
structure Reference where
  var : VarId
  negative : Bool
  boundValue : ℚ

/-- `Tableau::getVariable`. -/
def getVariable (lhs : LinearForm) (constantPart : ℚ) : Reference × RowSystem :=
  match lhs.terms with
  | [(x, factor)] =>
    let (v, s) := s.originalVariable x
    (⟨v, factor < 0, -constantPart / factor⟩, s)
  | _ =>
    let constantPart := constantPart * lhs.coprimeFactor
    let boundValue := if lhs.negative then constantPart else -constantPart
    match s.mSlackVars lhs.slackForm with
    | some v => (⟨v, lhs.negative, boundValue⟩, s)
    | none =>
      let (v, s) := s.newBasicVariable lhs.slackForm lhs.integerValued
      (⟨v, lhs.negative, boundValue⟩,
        { s with mSlackVars := update s.mSlackVars lhs.slackForm (some v) })

/-! ### Activation of rows -/

/-- The weight of a variable in the expansion of inactive rows: one more than the weights of the
entries it is replaced by. -/
def weight : VarId → ℕ :=
  s.mNonActiveBasics.foldl (fun weight v => update weight v
    (1 + ((s.row v).entries.map fun e => weight e.1).sum)) fun _ => 1

/-- The loop of `activateBasicVar` over the stored entries.  The coefficients of the columns are
collected in `coeffs`; an entry of an inactive variable is replaced by the entries stored for it,
which join the end of the list, and an active row is added to `coeffs`. -/
def expand (omit_division : Bool) :
    ℕ → List (VarId × ℚ) → ℚ → (VarId → ℚ) → ℚ × (VarId → ℚ)
  | 0, _, factor, coeffs => (factor, coeffs)
  | _ + 1, [], factor, coeffs => (factor, coeffs)
  | n + 1, (w, k) :: es, factor, coeffs =>
    if s.isBasic w then
      let (ca, cb) := multipliers omit_division k (s.row w).factor
      if w ∈ s.mNonActiveBasics ∧ s.isOriginal w = false then
        expand omit_division n (scale cb es ++ scale ca (s.row w).entries) (factor * cb)
          fun c => cb * coeffs c
      else
        expand omit_division n (scale cb es) (factor * cb) ((s.row w).entries.foldl (fun coeffs e =>
            update coeffs e.1 (coeffs e.1 + ca * e.2)) fun c => cb * coeffs c)
    else expand omit_division n es factor (update coeffs w (coeffs w + k))

/-- The row an inactive variable is activated with: its non-zero coefficients in the order of
the columns, divided by their greatest common divisor. -/
def activatedRow (omit_division : Bool) (v : VarId) : Row VarId ℚ :=
  let es := (s.row v).entries
  let (factor, coeffs) := s.expand omit_division ((es.map fun e => s.weight e.1).sum) es
    (s.row v).factor fun _ => 0
  reduce ⟨factor, s.mColumns.filterMap fun c => if coeffs c = 0 then none else some (c, coeffs c)⟩

/-- The rows after `activateBasicVar`. -/
def activateBasicVar (omit_division : Bool) (v : VarId) : RowSystem :=
  { s with
    row := update s.row v (s.activatedRow omit_division v)
    mRows := s.mRows ++ [v]
    mNonActiveBasics := s.mNonActiveBasics.erase v }

/-- The rows after `deactivateBasicVar`. -/
def deactivateBasicVar (v : VarId) : RowSystem :=
  { s with
    mRows := s.mRows.erase v
    mNonActiveBasics := v :: s.mNonActiveBasics }

/-! ### Elimination -/

/-- The row of the new basic variable `c`: the row of `r` solved for it. -/
def pivotRow (omit_division : Bool) (r c : VarId) : Row VarId ℚ :=
  let pivotContent := (s.content r c).getD 0
  if omit_division then
    ⟨pivotContent, relabel c r (setContent c (s.row r).factor
      ((s.row r).entries.map fun e => (e.1, -e.2)))⟩
  else
    ⟨(s.row c).factor, relabel c r (setContent c (1 / pivotContent)
      ((s.row r).entries.map fun e => (e.1, e.2 / -pivotContent)))⟩

/-- The beginning of `pivot`: `r` and `c` change places, in the entries of the column, too. -/
def exchange (omit_division : Bool) (r c : VarId) : RowSystem :=
  { s with
    row := fun v =>
      if v = c then s.pivotRow omit_division r c
      else if v = r then ⟨if omit_division then 1 else (s.row r).factor, []⟩
      else if v ∈ s.mRows then ⟨(s.row v).factor, relabel c r (s.row v).entries⟩
      else s.row v
    mRows := s.mRows.map fun v => if v = r then c else v
    mColumns := s.mColumns.map fun v => if v = c then r else v }

/-- The row of `i` after `update`: the pivoting row, which now belongs to `c`, is added to it so
that the column of `r` has multiples of the pivoting entry only. -/
def eliminatedRow (omit_division : Bool) (r c i : VarId) : Row VarId ℚ :=
  let (ca, cb) := multipliers omit_division ((s.content i r).getD 0) (s.row c).factor
  let es := addScaled s.before ca (others r (s.row c).entries) (scale cb (s.row i).entries)
  let row : Row VarId ℚ :=
    ⟨(s.row i).factor * cb, setContent r (ca * (s.content c r).getD 0) es⟩
  if omit_division then reduce row else row

/-- The row part of `update`. -/
def eliminate (omit_division : Bool) (r c i : VarId) : RowSystem :=
  { s with row := update s.row i (s.eliminatedRow omit_division r c i) }

/-- The rows `update` runs through when `c` has got its row: downwards, then upwards. -/
def rowsToUpdate (r c : VarId) : List VarId :=
  ((s.column r).dropWhile fun v => v ≠ c).drop 1 ++ ((s.column r).takeWhile fun v => v ≠ c).reverse

/-- The rows after `pivot`. -/
def pivot (omit_division : Bool) (r c : VarId) : RowSystem :=
  let s := s.exchange omit_division r c
  (s.rowsToUpdate r c).foldl (fun s i => s.eliminate omit_division r c i) s

end RowSystem

end Smtrat.LRA
