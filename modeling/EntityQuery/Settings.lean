import EntityQuery.Error
import EntityQuery.Text.LowerCase

/-! Settings of a session, read from an object. Each member is converted where that loses nothing,
and all members that cannot be are reported together. -/

namespace EntityQuery

namespace Value

/-- A decimal integer, with spaces around it and a sign before it allowed. -/
def intOfText? (s : String) : Option Int :=
  let trimmed := ((s.toList.dropWhile Char.isWhitespace).reverse.dropWhile Char.isWhitespace).reverse
  let digits := fun (cs : List Char) =>
    if cs.isEmpty || !cs.all Char.isDigit then none else (String.ofList cs).toNat?
  match trimmed with
  | '-' :: rest => (digits rest).map fun n => -(n : Int)
  | '+' :: rest => (digits rest).map fun n => (n : Int)
  | rest => (digits rest).map fun n => (n : Int)

def asInt : Value → Except Issue Int
  | .int n => pure n
  | .bool b => pure b.toNat
  | .float x => match x.toInt? with
    | some n => pure n
    | none => throw .intFraction
  | .str s => match intOfText? s with
    | some n => pure n
    | none => throw .intText
  | _ => throw .intKind

def asBool : Value → Except Issue Bool
  | .bool b => pure b
  | .int n => ofInt n
  | .float x => match x.toInt? with
    | some n => ofInt n
    | none => throw .boolKind
  | .str s =>
    if ["1", "on", "t", "true", "y", "yes"].contains (Text.lower s) then pure true
    else if ["0", "off", "f", "false", "n", "no"].contains (Text.lower s) then pure false
    else throw .boolText
  | _ => throw .boolKind
where
  ofInt (n : Int) : Except Issue Bool :=
    if n = 0 then pure false else if n = 1 then pure true else throw .boolText

/-- An integer of at least one. -/
def asPositive (v : Value) : Except Issue Int := do
  let n ← v.asInt
  if n < 1 then throw .atLeast else pure n

def asText : Value → Except Issue String
  | .str s => pure s
  | _ => throw .textKind

def asItems : Value → Except Issue (List Value)
  | .list items => pure items
  | _ => throw .listKind

/-- Null is allowed and stands for nothing. -/
def asOptional {α : Type} (read : Value → Except Issue α) : Value → Except Issue (Option α)
  | .null => pure none
  | v => some <$> read v

end Value

/-- The issue of a member that could not be read. -/
def issueOf {α : Type} (name : String) : Except Issue α → List (String × Issue)
  | .ok _ => []
  | .error issue => [(name, issue)]

structure Settings where
  /-- An upper bound on the rows of a result, also where a query asks for more. -/
  maxResults : Option Int
  /-- Complete every ordering by the primary key of the root. -/
  stableOrdering : Bool
  logStatements : Bool
  /-- The dialect for operators and identifiers, in place of the engine's own. -/
  dialect : Option String

namespace Settings

def usual : Settings := ⟨none, true, false, none⟩

/-- Reads settings; a member that is not given has its usual value, and members of other names do
not count. -/
def read (members : List (String × Value)) : Except QueryError Settings :=
  let reading {α : Type} (name : String) (f : Value → Except Issue α) (otherwise : α) :
      Except Issue α :=
    match Assoc.get? members name with
    | some v => f v
    | none => pure otherwise
  let maxResults := reading "max_results" (Value.asOptional Value.asPositive) usual.maxResults
  let stable := reading "stable_ordering" Value.asBool usual.stableOrdering
  let log := reading "log_statements" Value.asBool usual.logStatements
  let dialect := reading "dialect" (Value.asOptional Value.asText) usual.dialect
  match maxResults, stable, log, dialect with
  | .ok maxResults, .ok stable, .ok log, .ok dialect => pure ⟨maxResults, stable, log, dialect⟩
  | _, _, _, _ => throw (.invalid
      (issueOf "max_results" maxResults ++ issueOf "stable_ordering" stable ++
        issueOf "log_statements" log ++ issueOf "dialect" dialect))

/-- The lesser of a limit and the upper bound. -/
def clamp (s : Settings) (limit : Option Int) : Option Int :=
  match s.maxResults, limit with
  | none, limit => limit
  | some bound, none => some bound
  | some bound, some n => some (min n bound)

end Settings

end EntityQuery
