import EntityQuery.Dialect.ReservedWords
import EntityQuery.Error
import EntityQuery.Text.LowerCase

/-! Dialects of the filter text: which identifiers are quoted, and how. -/

namespace EntityQuery

inductive Dialect where
  | sqlite | postgresql | mysql
  deriving DecidableEq

namespace Dialect

def ofName (name : String) : Except QueryError Dialect :=
  if name = "sqlite" then pure .sqlite
  else if name = "postgresql" then pure .postgresql
  else if name = "mysql" || name = "mariadb" then pure .mysql
  else throw (.unknownDialect (name.map fun c => if c = '+' then '.' else c))

def wordText : Dialect → String
  | .sqlite => sqliteWords
  | .postgresql => postgresqlWords
  | .mysql => mysqlWords

/-- The words between blanks. -/
def splitWords : List Char → List (List Char)
  | [] => [[]]
  | c :: rest =>
    if c = ' ' then [] :: splitWords rest
    else match splitWords rest with
      | [] => [[c]]
      | first :: others => (c :: first) :: others

def isReserved (d : Dialect) (word : String) : Bool :=
  (splitWords d.wordText.toList).contains word.toList

/-- A character that an identifier may hold without quotes. -/
def isPlain (c : Char) : Bool := c.isAlphanum || c = '_' || c = '$'

def isPlainStart (c : Char) : Bool := isPlain c && !c.isDigit && c != '$'

/-- Lower-case identifiers of plain characters stand as they are, unless they are reserved. -/
def needsQuotes (d : Dialect) (name : String) : Bool :=
  d.isReserved (Text.lower name) || !name.toList.all isPlain || !name.toList.head?.any isPlainStart ||
    Text.lower name != name

def mark : Dialect → Char
  | .mysql => '\x60'
  | _ => '\x22'

/-- Dialects whose drivers read a percent sign as the start of a placeholder. -/
def doublesPercent : Dialect → Bool
  | .sqlite => false
  | _ => true

/-- A name between two marks, with every mark inside doubled. -/
def enclose (mark : Char) (doubled : Char → Bool) (name : String) : String :=
  String.ofList (mark :: name.toList.flatMap (fun c => if c = mark || doubled c then [c, c] else [c])
    ++ [mark])

def quote (d : Dialect) (name : String) : String :=
  if d.needsQuotes name then enclose d.mark (fun c => d.doublesPercent && c = '%') name else name

end Dialect

end EntityQuery
