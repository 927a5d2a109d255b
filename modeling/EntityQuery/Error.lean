import EntityQuery.Value.Display
import EntityQuery.Text.CloseMatch

/-! Causes of failure, with the message and the structured report of each. -/

namespace EntityQuery

/-- Texts in code point order. -/
def sortTexts (texts : List String) : List String := texts.mergeSort fun a b => decide (a ≤ b)

/-- What is wrong with the shape of an input. -/
inductive Fault where
  | notPredicate (kind : String)
  | notSelection (kind : String)
  | notInclusion (kind : String)
  | relationPredicate (relation : String)
  | relationSelection (relation : String)
  | relationInclusion (relation : String)
  | columnSelection (column : String)
  | severalNegated
  | combinatorList (token : String)
  | combinatorEmpty (token : String)
  | notComparison (kind : String)
  | comparisonEmpty
  | alternativesList
  | alternativesEmpty
  | outputName
  | inclusionKeys (unknown : List String)
  | notArray (operator kind : String)
  | boundCount (count : Nat)
  | direction (given : String)
  | negativeCount (caller : String) (given : Value)
  | pageNumbers (number size : Int)
  | keyWidth (entity : String) (columns values : Nat)
  | nothingToUpdate
  | described (message : String)

def Fault.message : Fault → String
  | .notPredicate kind => s!"Expected a predicate object, got {kind}"
  | .notSelection kind => s!"Expected a selection object, got {kind}"
  | .notInclusion kind => s!"Expected an inclusion object, got {kind}"
  | .relationPredicate r => s!"Relation '{r}' expects a nested predicate object"
  | .relationSelection r => s!"Relation '{r}' expects true or a nested selection"
  | .relationInclusion r =>
    "Relation '" ++ r ++ "' expects true or \x7b'as': ..., 'include': ...\x7d"
  | .columnSelection c => "Column '" ++ c ++ "' expects true or \x7b'as': name\x7d"
  | .severalNegated => "'not' expects a single predicate object"
  | .combinatorList token => s!"'{token}' expects a list of predicates"
  | .combinatorEmpty token => s!"'{token}' requires at least one predicate"
  | .notComparison kind =>
    "Field comparison expects an operator object such as \x7b'eq': value\x7d, got " ++ kind
  | .comparisonEmpty => "Field comparison has no operators"
  | .alternativesList => "'or' expects a list of field comparisons"
  | .alternativesEmpty => "'or' requires at least one field comparison"
  | .outputName => "'as' must be a non-empty string"
  | .inclusionKeys unknown => "Unknown inclusion keys: " ++ ", ".intercalate (sortTexts unknown)
  | .notArray operator kind => s!"Operator '{operator}' expects an array value, got {kind}"
  | .boundCount count => s!"Operator 'between' expects [start, end], got {count} values"
  | .direction given => "Sort direction must be 'asc' or 'desc', got " ++ Text.quoted given
  | .negativeCount caller given =>
    caller ++ "() expects a non-negative integer, got " ++ given.literal
  | .pageNumbers number size =>
    s!"page_number and page_size must be positive, got {number} and {size}"
  | .keyWidth entity columns values =>
    s!"{entity} has a {columns}-column primary key, got {values} value(s)"
  | .nothingToUpdate => "update() expects at least one field"
  | .described message => message

/-- What a setting or a page part must be. -/
inductive Issue where
  | atLeast | intKind | intText | intFraction | boolKind | boolText | textKind | listKind | frozen
  deriving DecidableEq

inductive QueryError where
  /-- An input has the wrong shape, at a path where one is known. -/
  | validation (fault : Fault) (path : Option String)
  | unsupportedOperator (operator : String) (valid : List String)
  | relationNotFound (relation entity : String) (available : List String) (path : Option String)
  | fieldNotFound (field entity : String) (available : List String) (path : Option String)
      (cutoff : Double)
  | relationNotIncluded (path : String)
  /-- An alias that names one path was given to another. -/
  | aliasConflict (aliasName existing requested : String)
  | noEntity (entity : String)
  | severalEntities (entity : String)
  | entityNotRegistered (name : String) (registered : List String)
  | repositoryNotRegistered (name : String)
  | plain (message : String)
  /-- A path has an alias but no known entity, or no alias at all. -/
  | unboundPath (path : String)
  | notIterable (kind : String)
  | missingMember (kind member : String)
  | unknownAttribute (name entity : String)
  /-- A quotient exceeds every binary64 number. -/
  | quotientTooLarge
  /-- An integer parameter of a statement does not fit into 64 bits. -/
  | integerTooLarge
  /-- A parameter of a statement is of a kind that has no stored form. -/
  | unboundKind (kind : String)
  /-- A column of a statement stands in more than one of its tables. -/
  | ambiguousColumn (column : String)
  /-- A pattern is longer than matching allows. -/
  | patternTooLong
  | cutoffOutOfRange (given : Value)
  | unknownDialect (name : String)
  | invalid (issues : List (String × Issue))
  | hiddenMember (name : String)

namespace QueryError

/-- A missing field, with suggestions at the usual cutoff. -/
def noField (field entity : String) (available : List String) (path : Option String) : QueryError :=
  .fieldNotFound field entity available path CloseMatch.usualCutoff

/-- A cutoff lies between zero and one. -/
def checkCutoff (given : Value) : Except QueryError Double :=
  let cutoff := match given with
    | .float x => x
    | .int n => Double.ofInt n
    | .bool b => Double.ofInt b.toNat
    | _ => CloseMatch.usualCutoff
  if cutoff.compareInt 0 == .lt || cutoff.compareInt 1 == .gt then throw (.cutoffOutOfRange given)
  else pure cutoff

/-- An empty path falls back to the name itself. -/
def pathOr (name : String) : Option String → String
  | some path => if path.isEmpty then name else path
  | none => name

/-- Valid words close to the one that was not found; none for a failure that has no such word. -/
def suggestions : QueryError → Option (List String)
  | .unsupportedOperator operator valid =>
    some (CloseMatch.closeMatches operator valid 3 CloseMatch.usualCutoff)
  | .relationNotFound relation _ available _ =>
    some (CloseMatch.closeMatches relation available 3 CloseMatch.usualCutoff)
  | .fieldNotFound field _ available _ cutoff =>
    some (CloseMatch.closeMatches field available 5 cutoff)
  | _ => none

/-- A list of names, or a word for an empty one. -/
def namesOrNone (names : List String) : String :=
  if names.isEmpty then "<none>" else ", ".intercalate (sortTexts names)

/-- At most fifteen names. -/
def preview (names : List String) : String :=
  let sorted := sortTexts names
  ", ".intercalate (sorted.take 15) ++ (if 15 < sorted.length then ", ..." else "")

def message (e : QueryError) : String :=
  let close := e.suggestions.getD []
  match e with
  | .validation fault _ => fault.message
  | .unsupportedOperator operator _ =>
    s!"Unsupported operator: '{operator}'." ++
      (if close.isEmpty then "" else " Did you mean: " ++ ", ".intercalate close ++ "?")
  | .relationNotFound relation entity available path =>
    s!"Relation '{relation}' not found in entity '{entity}'" ++
      " (path '" ++ pathOr relation path ++ "').\n" ++
      (if close.isEmpty then "" else "Did you mean: " ++ ", ".intercalate close ++ "?\n") ++
      "Available relations: " ++ namesOrNone available
  | .fieldNotFound field entity available _ _ =>
    s!"Invalid field '{field}' on '{entity}'.\n" ++
      (if close.isEmpty then ""
        else "Did you mean one of these?\n" ++ String.join (close.map fun s => s!"  • {s}\n")) ++
      "Available fields: " ++ preview available
  | .relationNotIncluded path =>
    s!"Relation '{path}' is selected but not included. " ++
      s!"Call include() for '{path}' before selecting its columns."
  | .aliasConflict aliasName existing requested =>
    s!"Alias '{aliasName}' is already bound to '{existing}'; cannot bind it to '{requested}'"
  | .noEntity entity => s!"No entity found for '{entity}'"
  | .severalEntities entity => s!"Multiple entities found for '{entity}'"
  | .entityNotRegistered name registered =>
    s!"Entity '{name}' is not registered. Registered entities: " ++ namesOrNone registered
  | .repositoryNotRegistered name =>
    s!"Repository '{name}' not found. " ++
      "Make sure it is registered in the DbContext repositories."
  | .plain message => message
  | .unboundPath path => Text.quoted path
  | .notIterable kind => s!"'{kind}' object is not iterable"
  | .missingMember kind member => s!"'{kind}' object has no attribute '{member}'"
  | .unknownAttribute name entity =>
    s!"'{name}' is an invalid keyword argument for {entity}"
  | .quotientTooLarge => "integer division result too large for a float"
  | .integerTooLarge => "Python int too large to convert to SQLite INTEGER"
  | .unboundKind kind => s!"type '{kind}' is not supported"
  | .ambiguousColumn column => s!"ambiguous column name: {column}"
  | .patternTooLong => "LIKE or GLOB pattern too complex"
  | .cutoffOutOfRange given => "cutoff must be in [0.0, 1.0]: " ++ given.literal
  | .unknownDialect name => s!"Can't load plugin: sqlalchemy.dialects:{name}"
  | .invalid _ => ""
  | .hiddenMember name => name

def textList (texts : List String) : Value := .list (texts.map .str)

/-- The structured report of a failure of the query language itself. -/
def report (e : QueryError) : Option Value :=
  let close := textList (e.suggestions.getD [])
  let plainReport := fun (name : String) =>
    some (Value.obj [("error", .str name), ("message", .str e.message)])
  match e with
  | .validation fault path => some (.obj
      [("error", .str "VALIDATION_ERROR"), ("message", .str fault.message),
        ("path", (path.map .str).getD .null)])
  | .unsupportedOperator operator valid => some (.obj
      [("error", .str "UNSUPPORTED_OPERATOR"), ("operator", .str operator),
        ("suggestions", close), ("valid_operators", textList (sortTexts valid))])
  | .relationNotFound relation entity available path => some (.obj
      [("error", .str "RELATION_NOT_FOUND"), ("relation", .str relation), ("entity", .str entity),
        ("full_path", .str (pathOr relation path)), ("suggestions", close),
        ("available_relations", textList (sortTexts available))])
  | .fieldNotFound field entity available path _ => some (.obj
      [("error", .str "FIELD_NOT_FOUND"), ("field", .str field), ("entity", .str entity),
        ("full_path", .str (pathOr field path)), ("suggestions", close),
        ("available_fields", textList (sortTexts available))])
  | .relationNotIncluded path => some (.obj
      [("error", .str "PROJECTION_RELATION_NOT_INCLUDED"), ("path", .str path)])
  | .aliasConflict aliasName existing requested => some (.obj
      [("error", .str "ALIAS_CONFLICT"), ("alias", .str aliasName), ("existing_path", .str existing),
        ("new_path", .str requested)])
  | .noEntity _ => plainReport "NoEntityFoundError"
  | .severalEntities _ => plainReport "MultipleEntitiesFoundError"
  | .entityNotRegistered .. => plainReport "EntityNotRegisteredError"
  | .repositoryNotRegistered _ => plainReport "RepositoryNotRegisteredError"
  | .plain _ => plainReport "QueryableError"
  | _ => none

end QueryError

end EntityQuery
